import Orbit.Inbox.Hearing

/-! The reader of a lane does not sleep over a frame or a change of the directory, as long as it does not
take a word of the changes for the one it has seen after it went all round. -/

namespace OrbitInbox.Reading

open Orbit.Atomic List Function Option

variable {lane : Lane} {s s' : State}

variable {n seen : Nat}

theorem noticed_of_empty (hseen : seen ≤ s.bumps) (hempty : s.reserve ≤ s.read) :
    Noticed lane s seen := by
  refine ⟨hseen, fun _ hframe => ?_⟩
  obtain ⟨p, hlt, hread, -⟩ := hframe
  exact absurd (Nat.lt_of_lt_of_le hlt hempty) (Nat.not_lt.mpr hread)

theorem noticed_of_reserved (hseen : seen ≤ s.bumps) (hreserved : s.frames s.read = .reserved) :
    Noticed lane s seen := by
  refine ⟨hseen, fun _ hframe => ?_⟩
  obtain ⟨p, -, hread, hframe, hbefore⟩ := hframe
  rcases Nat.eq_or_lt_of_le hread with rfl | hlt
  · rw [hreserved] at hframe
    cases hframe
  · exact absurd hreserved (hbefore s.read hlt (Nat.le_refl _))

theorem Covers.noticed (h : Covers s seen 0) : Noticed lane s seen := by
  refine ⟨h.1, fun heq hframe => ?_⟩
  obtain ⟨p, hlt, hread, hframe, -⟩ := hframe
  by_contra hnone
  have hreserved : s.frames p ≠ .reserved := by
    rw [hframe]
    rintro ⟨⟩
  exact absurd (h.2 heq hnone p hread hlt hreserved) (Nat.not_lt.mpr hread)

theorem covers_capacity (hseen : seen ≤ s.bumps) (hreserve : s.reserve ≤ s.read + lane.capacity) :
    Covers s seen lane.capacity :=
  ⟨hseen, fun _ _ _ _ hlt _ => Nat.lt_of_lt_of_le hlt hreserve⟩

theorem Covers.consume {reader : Reader} (h : Covers s seen n) (hn : 0 < n) :
    Covers { s with read := s.read + 1, reader := reader } seen (n - 1) := by
  refine ⟨h.1, fun heq hnone p hle hlt hframe => ?_⟩
  have hle : s.read + 1 ≤ p := hle
  have hcovered := h.2 heq hnone p (Nat.le_of_succ_le hle) hlt hframe
  change p < s.read + 1 + (n - 1)
  omega

theorem Noticed.nothing (h : Noticed lane s seen) (mode : Mode) :
    Hears lane s (mode.nothing seen) := by
  cases mode with
  | next => exact h
  | park => exact h

theorem Mode.isWithin_nothing (mode : Mode) (seen : Nat) : (mode.nothing seen).isWithin = false := by
  cases mode with
  | next => rfl
  | park => rfl

theorem Inv.goes {reactor : Bool} {datagrams : Nat} {reported : UInt64} {reader : Reader}
    (h : Inv lane s) (hwithin : reader.isWithin = s.reader.isWithin)
    (hhears : s.failed = false → Hears lane
      { s with reactor := reactor, datagrams := datagrams, reported := reported, reader := reader }
      reader) :
    Inv lane
      { s with reactor := reactor, datagrams := datagrams, reported := reported, reader := reader } :=
  { h with
    waiters := by
      rw [h.waiters, hwithin]
    hears := hhears }

theorem Inv.reads {mode : Mode} (h : Inv lane s) (hphase : s.reader = .reads mode seen n) :
    Inv lane { s with reader :=
      if n = 0 ∨ s.reserve ≤ s.read then mode.nothing seen else .looks mode seen n } := by
  have hhears : s.failed = false → Covers s seen n := fun hok => by
    have hhears := h.hears hok
    rwa [hphase] at hhears
  split
  next hover =>
    refine h.goes (by rw [hphase, Mode.isWithin_nothing]; rfl) fun hok => ?_
    refine Noticed.nothing ?_ mode
    rcases hover with rfl | hempty
    · exact (hhears hok).noticed
    · exact noticed_of_empty (hhears hok).1 hempty
  next hmore =>
    refine h.goes (by rw [hphase]; rfl) fun hok => ⟨hhears hok, ?_, ?_⟩
    · exact Nat.not_le.mp fun hle => hmore (.inr hle)
    · exact Nat.pos_of_ne_zero fun hzero => hmore (.inl hzero)

theorem Inv.looks {mode : Mode} (h : Inv lane s) (hphase : s.reader = .looks mode seen n) :
    Inv lane { s with reader := mode.look lane seen n (s.frames s.read) } := by
  have hhears : s.failed = false → Covers s seen n ∧ s.read < s.reserve ∧ 0 < n := fun hok => by
    have hhears := h.hears hok
    rwa [hphase] at hhears
  cases hframe : s.frames s.read with
  | committed epoch =>
    exact h.goes (by rw [hphase]; rfl) fun hok => ⟨(hhears hok).1, (hhears hok).2.2⟩
  | cancelled =>
    exact h.goes (by rw [hphase]; rfl) fun hok => ⟨(hhears hok).1, (hhears hok).2.2⟩
  | reserved =>
    refine h.goes (by rw [hphase]; exact Mode.isWithin_nothing mode seen) fun hok => ?_
    exact Noticed.nothing (noticed_of_reserved (hhears hok).1.1 hframe) mode
  | free =>
    refine h.goes (by rw [hphase]; exact Mode.isWithin_nothing mode seen) fun hok => ?_
    exact absurd hframe (h.frames s.read (hhears hok).2.1)

theorem Inv.consumes {mode : Mode} {deliver : Bool} (h : Inv lane s)
    (hphase : s.reader = .consumes mode seen n deliver) :
    Inv lane { s with
      read := s.read + 1
      reader := if deliver then mode.delivered lane seen else .reads mode seen (n - 1) } := by
  have hhears : s.failed = false → Covers s seen n ∧ 0 < n := fun hok => by
    have hhears := h.hears hok
    rwa [hphase] at hhears
  have hreserve : s.reserve ≤ s.read + 1 + lane.capacity :=
    Nat.le_trans h.reserve_le (Nat.add_le_add_right (Nat.le_succ _) _)
  have hwaiters := h.waiters
  rw [hphase] at hwaiters
  cases deliver with
  | false =>
    exact { h with
      reserve_le := hreserve
      waiters := hwaiters
      hears := fun hok => (hhears hok).1.consume (hhears hok).2 }
  | true =>
    cases mode with
    | next => exact { h with reserve_le := hreserve, waiters := hwaiters, hears := fun _ => trivial }
    | park =>
      exact { h with
        reserve_le := hreserve
        waiters := hwaiters
        hears := fun hok => covers_capacity (hhears hok).1.1 hreserve }

theorem Inv.rechecks (h : Inv lane s) (hphase : s.reader = .rechecks seen)
    (hsafe : word s.bumps = word seen → s.bumps = seen) :
    Inv lane { s with
      reader := if word s.bumps = word seen then .rechecksDirectory else .disarmsAgain } := by
  split
  next heq =>
    refine h.goes (by rw [hphase]; rfl) fun hok => ?_
    have hhears := h.hears hok
    rw [hphase] at hhears
    refine ⟨fun hframe => .inr ?_, hhears.2⟩
    have hcounts := hhears.1.2 (hsafe heq) hframe
    exact ((hcounts.mono fun _ => Caller.willCount_of_counts).mono
      fun _ => Caller.willTell_of_willCount).mono fun _ => Caller.willRing_of_willTell
  next => exact h.goes (by rw [hphase]; rfl) fun _ => trivial

theorem Inv.rechecksDirectory (h : Inv lane s) (hphase : s.reader = .rechecksDirectory) :
    Inv lane { s with reader := if s.directory = s.reported then .waits else .disarmsAgain } := by
  split
  next heq =>
    refine h.goes (by rw [hphase]; rfl) fun hok => ?_
    have hhears := h.hears hok
    rw [hphase] at hhears
    exact ⟨fun hdue => hhears.1 (hdue.resolve_right (absurd heq)), hhears.2⟩
  next => exact h.goes (by rw [hphase]; rfl) fun _ => trivial

theorem Inv.comparesAgain (h : Inv lane s) (hphase : s.reader = .comparesAgain seen)
    (heq : s.directory = s.reported) : Inv lane { s with reader := .registers seen } := by
  refine h.goes (by rw [hphase]; rfl) fun hok => ?_
  have hhears := h.hears hok
  rw [hphase] at hhears
  refine ⟨hhears.1, fun hsame hdue => ?_⟩
  have hcounts := hhears.2 hsame (hdue.resolve_right (absurd heq))
  exact hcounts.mono fun _ => Caller.willCount_of_counts

theorem Inv.parks (h : Inv lane s) (hphase : s.reader = .parks seen)
    (hsafe : word s.bumps = word seen → s.bumps = seen) :
    Inv lane { s with reader := if word s.bumps = word seen then .parked else .leaves } := by
  split
  next heq =>
    refine h.goes (by rw [hphase]; rfl) fun hok hdue => ?_
    have hhears := h.hears hok
    rw [hphase] at hhears
    exact (hhears.2 (hsafe heq) hdue).mono fun _ => Caller.willTell_of_willCount
  next => exact h.goes (by rw [hphase]; rfl) fun _ => trivial

theorem Inv.read (h : Inv lane s) (hsafe : Safe s .read) (hstep : Reading.read lane s = some s') :
    Inv lane s' := by
  unfold Reading.read at hstep
  unfold Safe at hsafe
  have hhears := h.hears
  have hwaiters := h.waiters
  generalize hphase : s.reader = phase at hstep hhears hsafe hwaiters
  cases phase with
  | idle | parked =>
    cases hstep
  | compares =>
    dsimp only at hstep
    split at hstep
    all_goals
      cases hstep
      exact h.goes (by rw [hphase]; rfl) fun _ => trivial
  | loads mode =>
    cases hstep
    exact h.goes (by rw [hphase]; rfl) fun _ => covers_capacity (Nat.le_refl _) h.reserve_le
  | reads mode seen n =>
    cases hstep
    exact h.reads hphase
  | looks mode seen n =>
    cases hstep
    exact h.looks hphase
  | consumes mode seen n deliver =>
    cases hstep
    exact h.consumes hphase
  | disarms seen =>
    cases hstep
    exact h.goes (by rw [hphase]; rfl) hhears
  | drains seen =>
    cases hstep
    split
    · exact h.goes (by rw [hphase]; rfl) hhears
    · exact h.goes (by rw [hphase]) hhears
  | arms seen =>
    cases hstep
    exact h.goes (by rw [hphase]; rfl) fun hok => ⟨hhears hok, .inl rfl⟩
  | rechecks seen =>
    cases hstep
    exact h.rechecks hphase hsafe
  | rechecksDirectory =>
    cases hstep
    exact h.rechecksDirectory hphase
  | disarmsAgain =>
    cases hstep
    exact h.goes (by rw [hphase]; rfl) fun _ => trivial
  | waits =>
    dsimp only at hstep
    split at hstep
    · cases hstep
    · cases hstep
      exact h.goes (by rw [hphase]; rfl) fun _ => trivial
  | clears =>
    cases hstep
    split
    · exact h.goes (by rw [hphase]; rfl) fun _ => trivial
    · exact h.goes (by rw [hphase]) fun _ => trivial
  | comparesAgain seen =>
    dsimp only at hstep
    split at hstep
    next =>
      cases hstep
      exact h.goes (by rw [hphase]; rfl) fun _ => trivial
    next heq =>
      cases hstep
      exact h.comparesAgain hphase (not_not.mp heq)
  | registers seen =>
    cases hstep
    exact { h with waiters := congrArg (· + 1) hwaiters, hears := hhears }
  | parks seen =>
    cases hstep
    exact h.parks hphase hsafe
  | leaves =>
    cases hstep
    exact { h with waiters := congrArg (· - 1) hwaiters, hears := fun _ => trivial }

theorem Inv.step {a : Action} (h : Inv lane s) (hsafe : Safe s a)
    (hstep : Reading.step lane s a = some s') : Inv lane s' := by
  cases a with
  | reserve c epoch =>
    obtain ⟨hroom, hs'⟩ := ite_none_right_eq_some.mp hstep
    cases hs'
    exact h.reserve hroom.1 hroom.2
  | commit c | cancel c =>
    simp only [Reading.step] at hstep
    split at hstep
    next hphase =>
      cases hstep
      exact h.settle hphase (by rintro ⟨⟩)
    next => cases hstep
  | announce c =>
    obtain ⟨hidle, hs'⟩ := ite_none_right_eq_some.mp hstep
    cases hs'
    exact h.keeps (keeps_announce hidle) rfl rfl h.reserve_le h.frames rfl rfl
  | nudge c =>
    obtain ⟨hidle, hs'⟩ := ite_none_right_eq_some.mp hstep
    cases hs'
    exact h.counts (by rw [hidle]; rfl)
  | call c fails => exact h.call hstep
  | start mode =>
    obtain ⟨hidle, hs'⟩ := ite_none_right_eq_some.mp hstep
    cases hs'
    cases mode with
    | next => exact h.goes (by rw [hidle]; rfl) fun _ => trivial
    | park => exact h.goes (by rw [hidle]; rfl) fun _ => trivial
  | read => exact h.read hsafe hstep
  | abandon =>
    obtain ⟨hwaits, hs'⟩ := ite_none_right_eq_some.mp hstep
    cases hs'
    exact h.goes (by rw [hwaits]; rfl) fun _ => trivial
  | interrupt =>
    simp only [Reading.step] at hstep
    split at hstep
    next hphase =>
      cases hstep
      exact h.goes (by rw [hphase]; rfl) fun _ => trivial
    next hphase =>
      cases hstep
      exact h.goes (by rw [hphase]; rfl) fun _ => trivial
    next => cases hstep

theorem Inv.awake (h : Inv lane s) : ¬Lost lane s := by
  rintro ⟨hwaits, hidle, hok, hdue⟩
  have hnone : ∀ place : Caller → Bool, (∀ caller, place caller = true → caller.busy = true) →
      ¬Any s.callers place := by
    rintro place hbusy ⟨c, hc⟩
    have htrue := hbusy _ hc
    rw [hidle c] at htrue
    cases htrue
  have hhears := h.hears hok
  rcases hwaits with ⟨hwaits, hdatagrams⟩ | hparked
  · rw [hwaits] at hhears
    rcases hhears.1 hdue with hlt | hrings
    · exact Nat.ne_of_gt hlt hdatagrams
    · exact hnone _ (fun _ => Caller.busy_of_willRing) hrings
  · rw [hparked] at hhears
    exact hnone _ (fun _ htell => Caller.busy_of_willRing (Caller.willRing_of_willTell htell))
      (hhears hdue)

/-- In a run in which the reader never takes a word that went all round for the one it has seen, it
does not sleep over a frame or a change of the directory. -/
theorem reader_not_asleep (h : Reached (step lane) Safe (Start lane) s) : ¬Lost lane s :=
  (h.holds (I := Inv lane) (fun _ hstart => hstart.inv)
    fun _ _ _ hs hsafe hstep => hs.step hsafe hstep).awake

def State.new : State where
  claimed := true
  read := 0
  reserve := 0
  frames _ := .free
  bumps := 0
  waiters := 0
  reactor := false
  directory := 0
  reported := 0
  datagrams := 0
  failed := false
  callers _ := .idle
  reader := .idle

theorem start_new : Start ⟨2, 1⟩ .new where
  claimed := rfl
  read_le := Nat.le_refl _
  reserve_le := Nat.zero_le _
  frames _ hlt := absurd hlt (Nat.not_lt_zero _)
  waiters := rfl
  reader := rfl

def write : List Action := [.reserve 0 1, .commit 0] ++ replicate 4 (.call 0 false)

/-- The reader waits for its socket, a frame is written, and the reader is back in its wait once it has
delivered it. -/
def delivered : List Action :=
  .start .next :: replicate 8 .read ++ write ++ replicate 8 .read ++
    .start .next :: replicate 8 .read

theorem reader_not_asleep_delivered : ∃ s, Reached (step ⟨2, 1⟩) Safe (Start ⟨2, 1⟩) s ∧
    s.read = 1 ∧ s.reader = .waits ∧ ¬Lost ⟨2, 1⟩ s := by
  have hrun : (actAll (step ⟨2, 1⟩) Safe .new delivered).any
      (fun s => s.read == 1 && s.reader == .waits) = true := by decide
  obtain ⟨s, hs, hread⟩ := Reached.exists_of_actAll (.start start_new) hrun
  rw [Bool.and_eq_true, beq_iff_eq, beq_iff_eq] at hread
  exact ⟨s, hs, hread.1, hread.2, reader_not_asleep hs⟩

def announced : List Action := .announce 0 :: replicate 4 (.call 0 false)

theorem announce_unheard (hclaimed : s.claimed = true) (hidle : s.callers 0 = .idle)
    (hwaiters : s.waiters = 0) (hreactor : s.reactor = false) :
    actAll (step lane) anyAction s announced =
      some { s with directory := s.directory + 1, bumps := s.bumps + 1 } := by
  have hself : update s.callers 0 .idle = s.callers := by
    rw [← hidle, update_eq_self]
  simp [announced, actAll, anyAction, step, call, State.setCaller, hclaimed, hidle, hwaiters,
    hreactor, hself]

theorem announces (h : Reached (step lane) anyAction (Start lane) s) (hclaimed : s.claimed = true)
    (hidle : s.callers 0 = .idle) (hwaiters : s.waiters = 0) (hreactor : s.reactor = false) (n : Nat) :
    Reached (step lane) anyAction (Start lane)
      { s with directory := s.directory + UInt64.ofNat n, bumps := s.bumps + n } := by
  induction n with
  | zero =>
    rw [show s.directory + UInt64.ofNat 0 = s.directory from UInt64.add_zero _]
    exact h
  | succ n ih =>
    have hnext := ih.actAll (announce_unheard hclaimed hidle hwaiters hreactor)
    rw [UInt64.ofNat_add, ← UInt64.add_assoc]
    exact hnext

/-- The reader has found nothing to read and no change of the directory, and a frame is written before
it is counted in. -/
def written : List Action :=
  .start .park :: replicate 3 .read ++ [.reserve 0 1, .commit 0] ++
    replicate 3 (.call 0 false)

theorem write_unheard : actAll (step ⟨2, 1⟩) anyAction .new written = some { State.new with
    reserve := 1
    frames := update State.new.frames 0 (.committed 1)
    bumps := 1
    reader := .registers 0 } := by
  simp [written, State.new, actAll, anyAction, step, call, read, Mode.nothing, State.setCaller]

theorem park_unheard (hreader : s.reader = .registers 0) (hround : word s.bumps = word 0) :
    actAll (step lane) anyAction s [.read, .read] =
      some { s with waiters := s.waiters + 1, reader := .parked } := by
  simp [actAll, anyAction, step, read, hreader, hround]

/-- A frame is written and the directory moves until the word has gone all round, and the reader parks
on it. -/
theorem reader_asleep : ∃ s, Reached (step ⟨2, 1⟩) anyAction (Start ⟨2, 1⟩) s ∧ Lost ⟨2, 1⟩ s := by
  have hwritten := (Reached.start start_new).actAll write_unheard
  have hround := announces hwritten rfl rfl rfl rfl (2 ^ 32 - 1)
  have hparked := hround.actAll (park_unheard rfl (by decide))
  refine ⟨_, hparked, .inr rfl, fun _ => rfl, rfl, .inl ⟨0, Nat.zero_lt_one, Nat.le_refl _, ?_, ?_⟩⟩
  · exact update_self 0 _ State.new.frames
  · exact fun q hlt => absurd hlt (Nat.not_lt_zero q)

end OrbitInbox.Reading
