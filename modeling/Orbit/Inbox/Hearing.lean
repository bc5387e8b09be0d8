import Orbit.Inbox.Reading

/-! What the reader of a lane goes by at each place in its cycle, kept by the steps of the writers and
announcers. -/

namespace OrbitInbox.Reading

open Orbit.Atomic Function

variable {lane : Lane} {s s' : State} {c : Nat}

def Caller.counts : Caller → Bool
  | .wakes .counts => true
  | _ => false

def Caller.willCount : Caller → Bool
  | .announces => true
  | .wakes .counts => true
  | _ => false

def Caller.willTell : Caller → Bool
  | .announces => true
  | .wakes .counts => true
  | .wakes .looks => true
  | .wakes .notifies => true
  | _ => false

def Caller.willRing : Caller → Bool
  | .announces => true
  | .wakes .rearms => false
  | .wakes _ => true
  | _ => false

def Caller.rings : Caller → Bool
  | .wakes .rings => true
  | _ => false

def Any (callers : Nat → Caller) (place : Caller → Bool) : Prop := ∃ c, place (callers c) = true

variable {callers : Nat → Caller} {place : Caller → Bool} {caller : Caller}

theorem Any.update (h : Any callers place) (hc : place (callers c) = true → place caller = true) :
    Any (Function.update callers c caller) place := by
  obtain ⟨d, hd⟩ := h
  refine ⟨d, ?_⟩
  rcases eq_or_ne d c with rfl | hne
  · rw [update_self]
    exact hc hd
  · rw [update_of_ne hne]
    exact hd

theorem any_update (h : place caller = true) : Any (Function.update callers c caller) place :=
  ⟨c, by rw [update_self, h]⟩

theorem Any.mono {place' : Caller → Bool} (h : Any callers place)
    (hle : ∀ caller, place caller = true → place' caller = true) : Any callers place' := by
  obtain ⟨d, hd⟩ := h
  exact ⟨d, hle _ hd⟩

theorem Caller.elim {x : Caller} {P : Prop} (hphase : x = caller) (hnot : place caller = false)
    (h : place x = true) : P := by
  rw [hphase, hnot] at h
  cases h

theorem Caller.willCount_of_counts (h : caller.counts = true) : caller.willCount = true := by
  unfold Caller.counts at h
  split at h
  · rfl
  · cases h

theorem Caller.willTell_of_willCount (h : caller.willCount = true) : caller.willTell = true := by
  unfold Caller.willCount at h
  split at h
  · rfl
  · rfl
  · cases h

theorem Caller.willRing_of_willTell (h : caller.willTell = true) : caller.willRing = true := by
  unfold Caller.willTell at h
  split at h
  · rfl
  · rfl
  · rfl
  · rfl
  · cases h

theorem Caller.willRing_of_rings (h : caller.rings = true) : caller.willRing = true := by
  unfold Caller.rings at h
  split at h
  · rfl
  · cases h

theorem Caller.busy_of_willRing (h : caller.willRing = true) : caller.busy = true := by
  cases caller with
  | idle => cases h
  | holds position epoch => cases h
  | announces => rfl
  | wakes wake => rfl

def Due (lane : Lane) (s : State) : Prop := Deliverable lane s ∨ s.directory ≠ s.reported

def Sent (s : State) : Prop := 0 < s.datagrams ∨ Any s.callers Caller.willRing

/-- Whoever wakes the lane from now on sends a datagram, if there is none yet. -/
def Armed (s : State) : Prop := s.reactor = true ∨ 0 < s.datagrams ∨ Any s.callers Caller.rings

/-- The `n` turns that are left reach every frame that was written before the changes were loaded. -/
def Covers (s : State) (seen n : Nat) : Prop :=
  seen ≤ s.bumps ∧ (s.bumps = seen → ¬Any s.callers Caller.counts →
    ∀ p, s.read ≤ p → p < s.reserve → s.frames p ≠ .reserved → p < s.read + n)

/-- A frame that has come since the changes were loaded is counted in them, or about to be. -/
def Noticed (lane : Lane) (s : State) (seen : Nat) : Prop :=
  seen ≤ s.bumps ∧ (s.bumps = seen → Deliverable lane s → Any s.callers Caller.counts)

def Counted (lane : Lane) (s : State) (seen : Nat) : Prop :=
  seen ≤ s.bumps ∧ (s.bumps = seen → Due lane s → Any s.callers Caller.willCount)

def Hears (lane : Lane) (s : State) : Reader → Prop
  | .reads _ seen n => Covers s seen n
  | .looks _ seen n => Covers s seen n ∧ s.read < s.reserve ∧ 0 < n
  | .consumes _ seen n _ => Covers s seen n ∧ 0 < n
  | .disarms seen => Noticed lane s seen
  | .drains seen => Noticed lane s seen
  | .arms seen => Noticed lane s seen
  | .rechecks seen => Noticed lane s seen ∧ Armed s
  | .rechecksDirectory => (Deliverable lane s → Sent s) ∧ Armed s
  | .waits => (Due lane s → Sent s) ∧ Armed s
  | .comparesAgain seen => Noticed lane s seen
  | .registers seen => Counted lane s seen
  | .parks seen => Counted lane s seen
  | .parked => Due lane s → Any s.callers Caller.willTell
  | _ => True

def Reader.isWithin : Reader → Bool
  | .parks _ => true
  | .parked => true
  | .leaves => true
  | _ => false

structure Inv (lane : Lane) (s : State) : Prop where
  claimed : s.claimed = true
  reserve_le : s.reserve ≤ s.read + lane.capacity
  frames : ∀ p < s.reserve, s.frames p ≠ .free
  waiters : s.waiters = if s.reader.isWithin then 1 else 0
  hears : s.failed = false → Hears lane s s.reader

theorem Start.inv (h : Start lane s) : Inv lane s where
  claimed := h.claimed
  reserve_le := h.reserve_le
  frames := h.frames
  waiters := by
    rw [h.waiters, h.reader]
    rfl
  hears _ := by
    rw [h.reader]
    exact trivial

/-- What the reader goes by is still so after a step of another thread. -/
structure Keeps (lane : Lane) (s s' : State) : Prop where
  read : s'.read = s.read
  reserve : s.reserve ≤ s'.reserve
  covers : ∀ seen n, Covers s seen n → Covers s' seen n
  noticed : ∀ seen, Noticed lane s seen → Noticed lane s' seen
  counted : ∀ seen, Counted lane s seen → Counted lane s' seen
  armed : Armed s → Armed s'
  sent : Armed s → (Deliverable lane s → Sent s) → Deliverable lane s' → Sent s'
  due : Armed s → (Due lane s → Sent s) → Due lane s' → Sent s'
  told : s.reader = .parked → (Due lane s → Any s.callers Caller.willTell) → Due lane s' →
    Any s'.callers Caller.willTell

theorem Keeps.hears (hk : Keeps lane s s') (h : Hears lane s s.reader) : Hears lane s' s.reader := by
  cases hreader : s.reader with
  | reads mode seen n =>
    rw [hreader] at h
    exact hk.covers seen n h
  | looks mode seen n =>
    rw [hreader] at h
    refine ⟨hk.covers seen n h.1, ?_, h.2.2⟩
    rw [hk.read]
    exact Nat.lt_of_lt_of_le h.2.1 hk.reserve
  | consumes mode seen n deliver =>
    rw [hreader] at h
    exact ⟨hk.covers seen n h.1, h.2⟩
  | disarms seen | drains seen | arms seen | comparesAgain seen =>
    rw [hreader] at h
    exact hk.noticed seen h
  | rechecks seen =>
    rw [hreader] at h
    exact ⟨hk.noticed seen h.1, hk.armed h.2⟩
  | rechecksDirectory =>
    rw [hreader] at h
    exact ⟨hk.sent h.2 h.1, hk.armed h.2⟩
  | waits =>
    rw [hreader] at h
    exact ⟨hk.due h.2 h.1, hk.armed h.2⟩
  | registers seen | parks seen =>
    rw [hreader] at h
    exact hk.counted seen h
  | parked =>
    rw [hreader] at h
    exact hk.told hreader h
  | idle | compares | loads mode | disarmsAgain | clears | leaves => exact trivial

theorem Keeps.of_counts (hread : s'.read = s.read) (hreserve : s.reserve ≤ s'.reserve)
    (hbumps : s'.bumps = s.bumps) (harmed : Armed s → Armed s')
    (hcounts : Any s'.callers Caller.counts) : Keeps lane s s' := by
  have hwill := hcounts.mono fun _ => Caller.willCount_of_counts
  have htell := hwill.mono fun _ => Caller.willTell_of_willCount
  have hring := htell.mono fun _ => Caller.willRing_of_willTell
  exact
    { read := hread
      reserve := hreserve
      covers := fun seen n h => ⟨hbumps ▸ h.1, fun _ hnone => absurd hcounts hnone⟩
      noticed := fun seen h => ⟨hbumps ▸ h.1, fun _ _ => hcounts⟩
      counted := fun seen h => ⟨hbumps ▸ h.1, fun _ _ => hwill⟩
      armed := harmed
      sent := fun _ _ _ => .inr hring
      due := fun _ _ _ => .inr hring
      told := fun _ _ _ => htell }

theorem Keeps.of_looks (hread : s'.read = s.read) (hreserve : s'.reserve = s.reserve)
    (hbumps : s'.bumps = s.bumps + 1) (harmed : Armed s → Armed s')
    (htell : Any s'.callers Caller.willTell) : Keeps lane s s' := by
  have hring := htell.mono fun _ => Caller.willRing_of_willTell
  have hlt : ∀ seen, seen ≤ s.bumps → seen < s'.bumps := by
    rw [hbumps]
    exact fun seen hle => Nat.lt_succ_of_le hle
  have hle : ∀ seen, seen ≤ s.bumps → seen ≤ s'.bumps := fun seen hle => Nat.le_of_lt (hlt seen hle)
  have hne : ∀ seen, seen ≤ s.bumps → s'.bumps ≠ seen := fun seen hle => Nat.ne_of_gt (hlt seen hle)
  exact
    { read := hread
      reserve := Nat.le_of_eq hreserve.symm
      covers := fun seen n h => ⟨hle seen h.1, fun heq => absurd heq (hne seen h.1)⟩
      noticed := fun seen h => ⟨hle seen h.1, fun heq => absurd heq (hne seen h.1)⟩
      counted := fun seen h => ⟨hle seen h.1, fun heq => absurd heq (hne seen h.1)⟩
      armed := harmed
      sent := fun _ _ _ => .inr hring
      due := fun _ _ _ => .inr hring
      told := fun _ _ _ => htell }

theorem Keeps.moves {reactor failed : Bool} {datagrams : Nat}
    (hcounts : Any s.callers Caller.counts → Any callers Caller.counts)
    (hwill : Any s.callers Caller.willCount → Any callers Caller.willCount) (harmed : Armed s →
      Armed { s with reactor := reactor, failed := failed, datagrams := datagrams, callers := callers })
    (hsent : Armed s → Sent s →
      Sent { s with reactor := reactor, failed := failed, datagrams := datagrams, callers := callers })
    (htold : s.reader = .parked → Any s.callers Caller.willTell → Any callers Caller.willTell) :
    Keeps lane s
      { s with reactor := reactor, failed := failed, datagrams := datagrams, callers := callers } where
  read := rfl
  reserve := Nat.le_refl _
  covers _ _ h := ⟨h.1, fun heq hnone => h.2 heq fun hold => hnone (hcounts hold)⟩
  noticed _ h := ⟨h.1, fun heq hframe => hcounts (h.2 heq hframe)⟩
  counted _ h := ⟨h.1, fun heq hdue => hwill (h.2 heq hdue)⟩
  armed := harmed
  sent ha h hframe := hsent ha (h hframe)
  due ha h hdue := hsent ha (h hdue)
  told hparked h hdue := htold hparked (h hdue)

theorem Armed.update (h : Armed s) (hc : Caller.rings (s.callers c) = true → caller.rings = true) :
    Armed (s.setCaller c caller) := by
  obtain hreactor | hdatagrams | hrings := h
  · exact .inl hreactor
  · exact .inr (.inl hdatagrams)
  · exact .inr (.inr (hrings.update hc))

theorem Sent.update (h : Sent s)
    (hc : Caller.willRing (s.callers c) = true → caller.willRing = true) :
    Sent (s.setCaller c caller) :=
  h.imp_right (·.update hc)

theorem Inv.keeps_looks (h : Inv lane s) (hphase : s.callers c = .wakes .looks) :
    Keeps lane s (s.setCaller c (.wakes (if s.waiters = 0 then .swaps else .notifies))) := by
  refine Keeps.moves (·.update (Caller.elim hphase rfl)) (·.update (Caller.elim hphase rfl))
    (·.update (Caller.elim hphase rfl)) (fun _ hsent => hsent.update fun _ => ?_)
    fun hparked _ => ?_
  · split <;> rfl
  · have hwaiters := h.waiters
    rw [hparked] at hwaiters
    rw [hwaiters]
    exact any_update rfl

theorem keeps_notifies (hphase : s.callers c = .wakes .notifies) (hreader : s.reader ≠ .parked) :
    Keeps lane s (s.setCaller c (.wakes .swaps)) :=
  Keeps.moves (·.update (Caller.elim hphase rfl)) (·.update (Caller.elim hphase rfl))
    (·.update (Caller.elim hphase rfl)) (fun _ hsent => hsent.update fun _ => rfl)
    fun hparked _ => absurd hparked hreader

theorem keeps_swaps (hphase : s.callers c = .wakes .swaps) :
    Keeps lane s
      ({ s with reactor := false }.setCaller c (if s.reactor then .wakes .rings else .idle)) := by
  have harmed : Armed s →
      Armed ({ s with reactor := false }.setCaller c (if s.reactor then .wakes .rings else .idle)) := by
    rintro (hreactor | hdatagrams | hrings)
    · rw [hreactor]
      exact .inr (.inr (any_update rfl))
    · exact .inr (.inl hdatagrams)
    · exact .inr (.inr (hrings.update (Caller.elim hphase rfl)))
  refine Keeps.moves (·.update (Caller.elim hphase rfl)) (·.update (Caller.elim hphase rfl)) harmed
    (fun h _ => ?_) fun _ h => h.update (Caller.elim hphase rfl)
  obtain hreactor | hdatagrams | hrings := harmed h
  · cases hreactor
  · exact .inl hdatagrams
  · exact .inr (hrings.mono fun _ => Caller.willRing_of_rings)

theorem keeps_rings (hphase : s.callers c = .wakes .rings) :
    Keeps lane s ({ s with datagrams := s.datagrams + 1 }.setCaller c .idle) :=
  Keeps.moves (·.update (Caller.elim hphase rfl)) (·.update (Caller.elim hphase rfl))
    (fun _ => .inr (.inl (Nat.succ_pos _))) (fun _ _ => .inl (Nat.succ_pos _))
    fun _ h => h.update (Caller.elim hphase rfl)

theorem keeps_rearms (hphase : s.callers c = .wakes .rearms) :
    Keeps lane s ({ s with reactor := true }.setCaller c .idle) :=
  Keeps.moves (·.update (Caller.elim hphase rfl)) (·.update (Caller.elim hphase rfl))
    (fun _ => .inl rfl) (fun _ h => h.imp_right (·.update (Caller.elim hphase rfl)))
    fun _ h => h.update (Caller.elim hphase rfl)

theorem keeps_announce (hidle : s.callers c = .idle) :
    Keeps lane s ({ s with directory := s.directory + 1 }.setCaller c .announces) where
  read := rfl
  reserve := Nat.le_refl _
  covers _ _ h := ⟨h.1, fun heq hnone => h.2 heq fun hold =>
    hnone (hold.update (Caller.elim hidle rfl))⟩
  noticed _ h := ⟨h.1, fun heq hframe => (h.2 heq hframe).update (Caller.elim hidle rfl)⟩
  counted _ h := ⟨h.1, fun _ _ => any_update rfl⟩
  armed h := h.imp_right (Or.imp_right (·.update (Caller.elim hidle rfl)))
  sent _ _ _ := .inr (any_update rfl)
  due _ _ _ := .inr (any_update rfl)
  told _ _ _ := any_update rfl

theorem deliverable_reserve (h : Deliverable lane ({ s with
      frames := Function.update s.frames s.reserve .reserved
      reserve := s.reserve + 1 }.setCaller c caller)) : Deliverable lane s := by
  obtain ⟨p, hlt, hread, hframe, hbefore⟩ := h
  have hframe : Function.update s.frames s.reserve .reserved p = .committed lane.epoch := hframe
  have hne : p ≠ s.reserve := by
    rintro rfl
    rw [update_self] at hframe
    cases hframe
  have hlt : p < s.reserve := Nat.lt_of_le_of_ne (Nat.le_of_lt_succ hlt) hne
  rw [update_of_ne hne] at hframe
  refine ⟨p, hlt, hread, hframe, fun q hq hle => ?_⟩
  have hreserved := hbefore q hq hle
  change Function.update s.frames s.reserve .reserved q ≠ .reserved at hreserved
  rwa [update_of_ne (Nat.ne_of_lt (Nat.lt_trans hq hlt))] at hreserved

theorem keeps_reserve {epoch : Nat} (hidle : s.callers c = .idle) :
    Keeps lane s ({ s with
      frames := Function.update s.frames s.reserve .reserved
      reserve := s.reserve + 1 }.setCaller c (.holds s.reserve epoch)) := by
  have hmoves : ∀ place : Caller → Bool, place .idle = false → Any s.callers place →
      Any (Function.update s.callers c (.holds s.reserve epoch)) place :=
    fun place hnot h => h.update (Caller.elim hidle hnot)
  refine
    { read := rfl
      reserve := Nat.le_succ _
      covers := fun seen n h => ⟨h.1, fun heq hnone p hle hlt hframe => ?_⟩
      noticed := fun seen h =>
        ⟨h.1, fun heq hframe => hmoves _ rfl (h.2 heq (deliverable_reserve hframe))⟩
      counted := fun seen h => ⟨h.1, fun heq hdue =>
        hmoves _ rfl (h.2 heq (hdue.imp_left deliverable_reserve))⟩
      armed := fun h => h.imp_right (Or.imp_right (hmoves _ rfl))
      sent := fun _ h hframe => (h (deliverable_reserve hframe)).imp_right (hmoves _ rfl)
      due := fun _ h hdue => (h (hdue.imp_left deliverable_reserve)).imp_right (hmoves _ rfl)
      told := fun _ h hdue => hmoves _ rfl (h (hdue.imp_left deliverable_reserve)) }
  change Function.update s.frames s.reserve .reserved p ≠ .reserved at hframe
  have hne : p ≠ s.reserve := by
    rintro rfl
    rw [update_self] at hframe
    exact hframe rfl
  rw [update_of_ne hne] at hframe
  exact h.2 heq (fun hold => hnone (hmoves _ rfl hold)) p hle
    (Nat.lt_of_le_of_ne (Nat.le_of_lt_succ hlt) hne) hframe

theorem Inv.keeps (h : Inv lane s) (hk : Keeps lane s s') (hreader : s'.reader = s.reader)
    (hclaimed : s'.claimed = s.claimed) (hreserve : s'.reserve ≤ s.read + lane.capacity)
    (hframes : ∀ p < s'.reserve, s'.frames p ≠ .free) (hwaiters : s'.waiters = s.waiters)
    (hfailed : s'.failed = s.failed) : Inv lane s' where
  claimed := hclaimed.trans h.claimed
  reserve_le := by
    rw [hk.read]
    exact hreserve
  frames := hframes
  waiters := by
    rw [hwaiters, hreader]
    exact h.waiters
  hears hok := by
    rw [hreader]
    exact hk.hears (h.hears (hfailed ▸ hok))

theorem Inv.reserve {epoch : Nat} (h : Inv lane s) (hidle : s.callers c = .idle)
    (hroom : s.reserve < s.read + lane.capacity) :
    Inv lane ({ s with
      frames := Function.update s.frames s.reserve .reserved
      reserve := s.reserve + 1 }.setCaller c (.holds s.reserve epoch)) := by
  refine h.keeps (keeps_reserve hidle) rfl rfl hroom (fun p hlt => ?_) rfl rfl
  change Function.update s.frames s.reserve .reserved p ≠ .free
  rcases eq_or_ne p s.reserve with rfl | hne
  · rw [update_self]
    rintro ⟨⟩
  · rw [update_of_ne hne]
    exact h.frames p (Nat.lt_of_le_of_ne (Nat.le_of_lt_succ hlt) hne)

theorem Inv.settle {position epoch : Nat} {frame : Frame} (h : Inv lane s)
    (hphase : s.callers c = .holds position epoch) (hframe : frame ≠ .free) :
    Inv lane ({ s with frames := Function.update s.frames position frame }.setCaller c
      (.wakes .counts)) := by
  have harmed : Armed s → Armed ({ s with frames := Function.update s.frames position frame }.setCaller
      c (.wakes .counts)) :=
    fun h => h.imp_right (Or.imp_right (·.update (Caller.elim hphase rfl)))
  refine h.keeps (Keeps.of_counts rfl (Nat.le_refl _) rfl harmed (any_update rfl)) rfl rfl
    h.reserve_le (fun p hlt => ?_) rfl rfl
  change Function.update s.frames position frame p ≠ .free
  rcases eq_or_ne p position with rfl | hne
  · rw [update_self]
    exact hframe
  · rw [update_of_ne hne]
    exact h.frames p hlt

theorem Inv.counts (h : Inv lane s) (hphase : (s.callers c).rings = false) :
    Inv lane (s.setCaller c (.wakes .counts)) :=
  h.keeps (Keeps.of_counts rfl (Nat.le_refl _) rfl (·.update (Caller.elim rfl hphase))
    (any_update rfl)) rfl rfl h.reserve_le h.frames rfl rfl

theorem Inv.wake (h : Inv lane s) (hphase : s.callers c = .wakes .notifies) :
    Inv lane (s.wake.setCaller c (.wakes .swaps)) := by
  rcases eq_or_ne s.reader .parked with hparked | hne
  · have hwoken : s.wake = { s with reader := .leaves } := by rw [State.wake, if_pos hparked]
    have hwaiters := h.waiters
    rw [hparked] at hwaiters
    rw [hwoken]
    exact { h with waiters := hwaiters, hears := fun _ => trivial }
  · have hsame : s.wake = s := by rw [State.wake, if_neg hne]
    rw [hsame]
    exact h.keeps (keeps_notifies hphase hne) rfl rfl h.reserve_le h.frames rfl rfl

theorem Inv.call {fails : Bool} (h : Inv lane s) (hstep : Reading.call s c fails = some s') :
    Inv lane s' := by
  unfold Reading.call at hstep
  generalize hphase : s.callers c = phase at hstep
  cases phase with
  | idle | holds position epoch =>
    cases hstep
  | announces =>
    rw [h.claimed] at hstep
    cases hstep
    exact h.counts (by rw [hphase]; rfl)
  | wakes wake =>
    cases wake with
    | counts =>
      cases hstep
      have hplace : Any ({ s with bumps := s.bumps + 1 }.setCaller c (.wakes .looks)).callers
          Caller.willTell := any_update rfl
      exact h.keeps (Keeps.of_looks rfl rfl rfl
        (fun ha => ha.imp_right (Or.imp_right (·.update (Caller.elim hphase rfl)))) hplace)
        rfl rfl h.reserve_le h.frames rfl rfl
    | looks =>
      cases hstep
      exact h.keeps (h.keeps_looks hphase) rfl rfl h.reserve_le h.frames rfl rfl
    | notifies =>
      cases hstep
      exact h.wake hphase
    | swaps =>
      cases hstep
      exact h.keeps (keeps_swaps hphase) rfl rfl h.reserve_le h.frames rfl rfl
    | rings =>
      cases fails with
      | true =>
        cases hstep
        exact { h with hears := fun hok => by cases hok }
      | false =>
        cases hstep
        exact h.keeps (keeps_rings hphase) rfl rfl h.reserve_le h.frames rfl rfl
    | rearms =>
      cases hstep
      exact h.keeps (keeps_rearms hphase) rfl rfl h.reserve_le h.frames rfl rfl

end OrbitInbox.Reading
