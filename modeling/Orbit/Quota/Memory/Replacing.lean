import Orbit.Quota.Memory.Searching

/-! What a call does to the slot that it reserves, and what an install discards in any run. -/

namespace OrbitQuota.Memory

open Orbit.Atomic Function
open Multiset hiding Mem

variable {T : Table} {t : Nat} {call : Call} (around : Surroundings) {slot shard : Nat}
  {known : Addr → Option Nat}

theorem admits_reserve : Admits T t call (reserve slot)
    (fun _ m' => m' = {.writer slot fun _ => none}) (fun m' => m' = 0) 0 := by
  refine .bind (works_takeCas ?_ rfl)
  refine works_exchange_bind (fun others h mem hI hgate _ => ?_) fun gate => ?_
  · rw [zero_add] at hI
    refine fun b => ⟨{.writer slot fun _ => none}, ?_, rfl⟩
    rw [singleton_add]
    exact hI.reserves hgate
  · dsimp only
    split
    · exact .fail rfl
    split
    · exact .fail rfl
    · exact .fail rfl

theorem keeps_letGo {value : Nat} (hvalue : value = 0 ∨ value = retiredFlag) :
    Keeps T t call (store (.gate slot) value) (fun _ m' => m' = 0) {.writer slot known} := by
  intro others h mem hI _
  rw [singleton_add] at hI
  refine ⟨0, ?_, rfl⟩
  rw [zero_add]
  exact hI.lets_go hvalue

/-- A writer knows nothing of its slot but what is owed. -/
def OfDebt (slot : Nat) (known : Addr → Option Nat) : Prop :=
  ∀ place, place ≠ .occupied slot → place ≠ .tat slot → place ≠ .lastSeen slot → known place = none

/-- What a writer knows once the debt of its slot may be discarded at the time. -/
structure Revalidated (T : Table) (candidate : Candidate) (now : Nat) (known : Addr → Option Nat) :
    Prop where
  others : OfDebt candidate.index known
  debt : ∃ occupied tat, known (.occupied candidate.index) = some occupied ∧
    known (.tat candidate.index) = some tat ∧ (occupied ≠ 0 → now < tat → T.retention = .guard ∧
      ∃ seen, candidate.observed = some ⟨tat, seen⟩ ∧ known (.lastSeen candidate.index) = some seen)

def looked (slot tat occupied : Nat) : Addr → Option Nat :=
  update (update (fun _ => none) (.tat slot) (some tat)) (.occupied slot)
    (some occupied)

theorem looked_others {place : Addr} {tat occupied : Nat} (hoccupied : place ≠ .occupied slot)
    (htat : place ≠ .tat slot) : looked slot tat occupied place = none := by
  rw [looked, update_of_ne hoccupied, update_of_ne htat]

theorem looked_occupied {tat occupied : Nat} :
    looked slot tat occupied (.occupied slot) = some occupied :=
  update_self ..

theorem looked_tat {tat occupied : Nat} : looked slot tat occupied (.tat slot) = some tat := by
  rw [looked, update_of_ne (by rintro ⟨⟩), update_self]

namespace Revalidated

variable {candidate : Candidate} {now tat occupied : Nat}

theorem cold (h : occupied ≠ 0 → tat ≤ now) :
    Revalidated T candidate now (looked candidate.index tat occupied) where
  others _ hoccupied htat _ := looked_others hoccupied htat
  debt := ⟨occupied, tat, looked_occupied, looked_tat, fun hpresent hlive =>
    absurd hlive (Nat.not_lt.mpr (h hpresent))⟩

theorem observed {seen : Nat} (hguard : T.retention = .guard)
    (hobserved : candidate.observed = some ⟨tat, seen⟩) :
    Revalidated T candidate now (update (looked candidate.index tat occupied)
      (.lastSeen candidate.index) (some seen)) where
  others place hoccupied htat hseen := by
    rw [update_of_ne hseen, looked_others hoccupied htat]
  debt := by
    refine ⟨occupied, tat, ?_, ?_, fun _ _ => ⟨hguard, seen, hobserved, update_self ..⟩⟩
    · rw [update_of_ne (by rintro ⟨⟩), looked_occupied]
    · rw [update_of_ne (by rintro ⟨⟩), looked_tat]

end Revalidated

def Reserved (slot : Nat) (m : Share) : Prop := ∃ known, m = {.writer slot known}

theorem admits_revalidate {candidate : Candidate} {previous now : Nat} :
    Admits T t call (revalidate T candidate.index previous now candidate.observed)
      (fun _ m' => ∃ known, m' = {.writer candidate.index known} ∧ Revalidated T candidate now known)
      (Reserved candidate.index)
      {.writer candidate.index
        (update (fun _ => none) (.tat candidate.index) (some previous))} := by
  refine admits_learns rfl fun occupied => ?_
  split
  · rename_i hfree
    exact .pure ⟨_, rfl, .cold fun hpresent => absurd hfree hpresent⟩
  · split
    · rename_i observed hobserved hguard
      split
      · exact .fail ⟨_, rfl⟩
      rename_i hsame
      refine admits_learns rfl fun seen => ?_
      split
      · exact .fail ⟨_, rfl⟩
      · rename_i hseen
        refine .pure ⟨_, rfl, .observed hguard ?_⟩
        rw [hobserved, not_not.mp hsame, not_not.mp hseen]
    · split
      · exact .fail ⟨_, rfl⟩
      · rename_i hcold
        exact .pure ⟨_, rfl, .cold fun _ => Nat.le_of_not_lt hcold⟩

theorem admits_initialCharge {candidate : Candidate} (prepared : Prepared) :
    Admits T t call (initialCharge T around shard candidate prepared)
      (fun charge m' => ∃ known, m' = {.writer candidate.index known} ∧
        ∀ c ∈ charge, Revalidated T candidate c.2.1 known)
      (Reserved candidate.index) {.writer candidate.index fun _ => none} := by
  refine .bind (.lift (.load fun generation => ?_))
  split
  · exact .fail ⟨_, rfl⟩
  refine admits_learns rfl fun previous => ?_
  refine .bind ((admits_sampleShard around).mono ?_ ?_)
  · rintro now _ rfl
    refine .bind (admits_revalidate.mono ?_ fun _ h => h)
    rintro _ _ ⟨known, rfl, hknown⟩
    split
    · exact .pure ⟨known, rfl, by rintro _ ⟨⟩⟩
    refine .bind (.of (fun outcome _ => ?_) ⟨known, rfl⟩)
    cases outcome with
    | allowed tat =>
      refine .pure ⟨known, rfl, fun c hc => ?_⟩
      cases hc
      exact hknown
    | limited debt => exact .fail ⟨known, rfl⟩
  · rintro _ rfl
    exact ⟨_, rfl⟩

theorem guarded_occupied (slot : Nat) : (Addr.occupied slot).guarded = some slot := rfl

theorem guarded_tat (slot : Nat) : (Addr.tat slot).guarded = some slot := rfl

theorem guarded_lastSeen (slot : Nat) : (Addr.lastSeen slot).guarded = some slot := rfl

/-- What a writer knows that has taken the recency of its slot. -/
structure Refreshed (T : Table) (candidate : Candidate) (now seen : Nat)
    (known : Addr → Option Nat) : Prop where
  others : OfDebt candidate.index known
  debt : ∃ occupied tat, known (.occupied candidate.index) = some occupied ∧
    known (.tat candidate.index) = some tat ∧ (occupied ≠ 0 → now < tat →
      T.retention = .guard ∧ candidate.observed = some ⟨tat, seen⟩)

theorem keeps_refresh {candidate : Candidate} {now : Nat}
    (hknown : Revalidated T candidate now known) :
    Keeps T t call (refresh T candidate.index now)
      (fun seen m' => ∃ known, m' = {.writer candidate.index known} ∧
        Refreshed T candidate now seen known)
      {.writer candidate.index known} := by
  obtain ⟨hothers, occupied, tat, hoccupied, htat, hdebt⟩ := hknown
  unfold refresh
  split
  · intro others h mem hI _
    rw [singleton_add] at hI
    have hwritten := hI.writes (guarded_lastSeen candidate.index) now
    rw [← singleton_add] at hwritten
    refine ⟨_, hwritten, _, rfl, ?_, occupied, tat, ?_, ?_, fun hpresent hlive => ?_⟩
    · intro place hne1 hne2 hne3
      rw [update_of_ne hne3]
      exact hothers place hne1 hne2 hne3
    · rwa [update_of_ne (by rintro ⟨⟩)]
    · rwa [update_of_ne (by rintro ⟨⟩)]
    · obtain ⟨hguard, seen, hobserved, hseen⟩ := hdebt hpresent hlive
      rw [hI.own hseen]
      exact ⟨hguard, hobserved⟩
  · rename_i hstrict
    exact ⟨known, rfl, hothers, occupied, tat, hoccupied, htat, fun hpresent hlive =>
      absurd (hdebt hpresent hlive).1 hstrict⟩

theorem quiet_writeIdentity (hothers : OfDebt slot known) (generation : Nat) (key : Key) :
    (writeIdentity slot generation key).Quiet fun a => a.guarded = some slot ∧ known a = none := by
  have hbyte : ∀ i, (Addr.byte slot i).guarded = some slot ∧ known (.byte slot i) = none := fun i =>
    ⟨rfl, hothers _ (by rintro ⟨⟩) (by rintro ⟨⟩) (by rintro ⟨⟩)⟩
  refine .bind (quiet_copyIn hbyte _ _) fun _ => .bind (quiet_copyIn hbyte _ _) fun _ => ?_
  refine .bind (quiet_store ⟨rfl, ?_⟩ _) fun _ => .bind (quiet_store ⟨rfl, ?_⟩ _) fun _ =>
    quiet_store ⟨rfl, ?_⟩ _
  · exact hothers _ (by rintro ⟨⟩) (by rintro ⟨⟩) (by rintro ⟨⟩)
  · exact hothers _ (by rintro ⟨⟩) (by rintro ⟨⟩) (by rintro ⟨⟩)
  · exact hothers _ (by rintro ⟨⟩) (by rintro ⟨⟩) (by rintro ⟨⟩)

def Chosen (T : Table) (key : Key) (scan : Scan) (candidate : Candidate) : Prop :=
  ∀ debt ∈ candidate.observed, ∀ occupied now,
    Replacement.Discards T ⟨key, scan, candidate.index, occupied, debt, now⟩

theorem keeps_writerInstall {candidate : Candidate} {key : Key} {scan : Scan} {now seen : Nat}
    (hchosen : Chosen T key scan candidate) (hknown : Refreshed T candidate now seen known)
    (generation tat : Nat) :
    Keeps T t call (writerInstall candidate.index generation key tat scan now seen)
      (fun _ m' => m' = 0) {.writer candidate.index known} := by
  obtain ⟨hothers, occupied, previous, hoccupied, hprevious, hdebt⟩ := hknown
  refine .bind ((keeps_unknown (quiet_writeIdentity hothers generation key)).mono ?_)
  rintro _ _ rfl
  refine .swap_bind fun others h mem hI _ => ?_
  rw [singleton_add] at hI
  rw [hI.own hoccupied]
  have hpresent := hI.writes (guarded_occupied candidate.index) 1
  rw [← singleton_add] at hpresent
  refine Safe.goes ?_ hpresent
  refine .swap_bind fun others h mem hI _ => ?_
  rw [singleton_add] at hI
  rw [hI.own (v := previous) (by rwa [update_of_ne (by rintro ⟨⟩)])]
  have hcharged := hI.writes (guarded_tat candidate.index) tat
  rw [← singleton_add] at hcharged
  refine Safe.goes ?_ hcharged
  refine .store_bind fun others h mem hI _ => ?_
  rw [singleton_add] at hI
  refine Goes.mark_bind (f := .ret) ⟨0, ?_, rfl⟩
  rw [zero_add]
  refine (hI.lets_go (.inl rfl)).records fun r hr => ?_
  cases hr
  intro hwas hlive
  obtain ⟨hguard, hobserved⟩ := hdebt (bne_iff_ne.mp hwas) hlive
  exact ⟨hguard, hchosen _ hobserved _ now⟩

theorem admits_install {candidate : Candidate} {key : Key} {scan : Scan}
    (hchosen : Chosen T key scan candidate) (prepared : Prepared) :
    Admits T t call (install T around shard candidate key scan prepared) (fun _ m' => m' = 0)
      (fun m' => m' = 0) 0 := by
  refine .bind (admits_reserve.mono ?_ fun _ h => h)
  rintro _ _ rfl
  refine .bind (.onFailure ((admits_initialCharge around prepared).mono ?_ ?_))
  · rintro charge _ ⟨known, rfl, hknown⟩
    cases charge with
    | none =>
      refine .bind (.lift ((keeps_letGo (.inr rfl)).mono ?_))
      rintro _ _ rfl
      exact .fail rfl
    | some c =>
      obtain ⟨generation, now, tat⟩ := c
      refine .bind (.lift ((keeps_refresh (hknown _ rfl)).mono ?_))
      rintro seen _ ⟨known, rfl, hrefreshed⟩
      refine .bind (.lift ((keeps_writerInstall hchosen hrefreshed generation tat).mono ?_))
      rintro _ _ rfl
      exact .pure rfl
  · rintro _ ⟨known, rfl⟩
    exact keeps_letGo (.inl rfl)

theorem keeps_release {m : Share} : Keeps T t call (release shard) (fun _ m' => m' = m) m :=
  keeps_plain (quiet_store ⟨rfl, by rintro _ ⟨⟩⟩ 0)

theorem admits_admitRequest (key : Key) (cost : NonZeroU64) :
    Admits T t call (admitRequest T around key cost) (fun _ m' => m' = 0) (fun m' => m' = 0) 0 := by
  unfold admitRequest
  split
  · exact .fail rfl
  split
  · exact .fail rfl
  refine .bind (.of (fun prepared _ => ?_) rfl)
  refine .bind ((admits_lookup around key _).mono ?_ fun _ h => h)
  rintro (_ | slot) _ rfl
  · refine .compareExchange_bind (fun others h mem hI _ _ => ?_) fun others h mem hI _ => ?_
    · refine Works.goes (m := 0) ?_ (hI.plain (by rintro _ ⟨⟩) rfl 1)
      refine .bind (.onFailure (.bind ((admits_sampleShard around).mono ?_ ?_)))
      · rintro now _ rfl
        refine (admits_search around key (.new T key now)).mono ?_ ?_
        · rintro (slot | ⟨selection, scan⟩) m' hm
          · cases hm
            refine .bind (.lift (keeps_release.mono ?_))
            rintro _ _ rfl
            exact admits_consume around prepared
          · obtain ⟨rfl, hscans⟩ := hm
            refine .always (.bind (.of (fun candidate hc => ?_) keeps_release))
            have hchosen : Chosen T key scan candidate := fun debt hobserved occupied now =>
              hscans.discards hc hobserved occupied now
            refine (admits_install around hchosen prepared).mono ?_ ?_
            · rintro _ _ rfl
              exact keeps_release
            · rintro _ rfl
              exact keeps_release
        · rintro _ rfl
          exact keeps_release
      · rintro _ rfl
        exact keeps_release
    · exact Works.goes (.fail rfl) hI
  · exact admits_consume around prepared

/-- In every run of admissions to a store: an install that discards live debt is one of a guard,
whose locked scan has found nothing but live debt in the window of the key; what it discards is the
coldest debt that the scan has seen, the first of them in the window, and still as the scan has seen
it. -/
theorem discards_only_cold {mem : Mem Addr} {s : Config Addr Event Call History} {r : Replacement}
    (hmem : Quiescent mem) (hs : Reach (memorySys T) .free ⟨mem, [], []⟩ s)
    (hr : .replaced r ∈ s.hist) (hoccupied : r.occupied = true) (hlive : r.now < r.debt.tat) :
    T.retention = .guard ∧ r.Discards T := by
  have hshares : ∃ shares, Shares (memorySys T) .free (MemoryInv T) (fun _ => True) s shares := by
    refine hs.holds (.init hmem) fun t call h h' mem m hI _ hbegins => ⟨0, ?_, ?_⟩
    · cases hbegins
      rw [zero_add]
      exact hI
    · exact (admits_admitRequest call.around call.key call.cost).toProg _
  obtain ⟨shares, -, hI, -⟩ := hshares
  exact hI.sound r hr hoccupied hlive

theorem twoSlots_dvd : 1 ∣ 2 := Nat.one_dvd 2

theorem twoSlots_probes : 2 ≤ 2 / 1 := by decide

def twoSlots : Geometry where
  slots := 2
  shards := 1
  keyBytes := 2
  probes := 2
  slots_pos := Nat.two_pos
  shards_pos := Nat.one_pos
  probes_pos := Nat.two_pos
  shards_dvd := twoSlots_dvd
  probes_le := twoSlots_probes

def Table.sample : Table := ⟨.guard, twoSlots, 9, sampleGcra, fun _ => (0, 0)⟩

theorem sampleByte_ne (byte : UInt8) : [byte] ≠ [] := List.cons_ne_nil byte []

def sampleCall (subject : UInt8) (now : Nat) : Call where
  key := ⟨[subject], [subject], sampleByte_ne subject, sampleByte_ne subject⟩
  cost := samplePolicy.burst
  around := ⟨fun _ => .ok now, fun _ => false, fun _ => false⟩

def Event.discards : Event → Bool
  | charged .. => false
  | replaced r => r.occupied && decide (r.now < r.debt.tat)

def sampleRun : List (Action Call) :=
  .begin (sampleCall 1 5) :: List.replicate 42 (.step 0) ++
    .begin (sampleCall 2 6) :: List.replicate 50 (.step 1) ++
      .begin (sampleCall 3 7) :: List.replicate 59 (.step 2)

theorem discards_only_cold_sample : ∃ (s : Config Addr Event Call History) (r : Replacement),
    .replaced r ∈ s.hist ∧ r.occupied = true ∧ r.now < r.debt.tat ∧
      Table.sample.retention = .guard ∧ r.Discards .sample := by
  have hrun : (Discipline.free.runs (memorySys .sample) ⟨fun _ => 0, [], []⟩ sampleRun).any
      (fun s => s.hist.any Event.discards) = true := by
    decide +kernel
  obtain ⟨s, hs, hdiscards⟩ := Reach.exists_of_runs _ hrun
  obtain ⟨event, hevent, hlive⟩ := List.any_eq_true.mp hdiscards
  cases event with
  | charged => cases hlive
  | replaced r =>
    obtain ⟨hoccupied, hahead⟩ := Bool.and_eq_true_iff.mp hlive
    exact ⟨s, r, hevent, hoccupied, of_decide_eq_true hahead,
      discards_only_cold (fun _ => .inl rfl) hs hevent hoccupied (of_decide_eq_true hahead)⟩

end OrbitQuota.Memory
