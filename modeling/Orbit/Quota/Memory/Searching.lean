import Orbit.Quota.Memory.Choosing

/-! What a call does to the slots that it pins: it searches them for its key, and charges the one it
finds.  It keeps the invariant of the store, whatever the other calls do between its accesses. -/

namespace OrbitQuota.Memory

open Orbit.Atomic List Function Multiset

variable {T : Table} {t : Nat} {call : Call} (around : Surroundings) {slot shard : Nat}
  {known : Addr → Option Nat}

abbrev Admits (T : Table) (t : Nat) (call : Call) {α : Type} (w : MemoryM α) (Q : α → Share → Prop)
    (F : Share → Prop) (m : Share) : Prop :=
  Works (memorySys T) .free (MemoryInv T) t call w Q F m

abbrev Keeps (T : Table) (t : Nat) (call : Call) {α : Type} (p : Prog Addr Event α)
    (Q : α → Share → Prop) (m : Share) : Prop :=
  Safe (memorySys T) .free (MemoryInv T) t call p Q m

def Addr.Plain (place : Addr) : Prop := place.guarded = none ∧ ∀ slot, place ≠ .gate slot

theorem admits_plain {α : Type} {w : MemoryM α} {m : Share} (hw : w.Quiet Addr.Plain) :
    Admits T t call w (fun _ m' => m' = m) (fun m' => m' = m) m :=
  .quiet hw (fun _ _ _ _ value hplace hI => hI.plain hplace.2 hplace.1 value) (fun _ => rfl) rfl

theorem keeps_plain {α : Type} {p : Prog Addr Event α} {m : Share} (hp : p.Quiet Addr.Plain) :
    Keeps T t call p (fun _ m' => m' = m) m :=
  .quiet hp (fun _ _ _ _ value hplace hI => hI.plain hplace.2 hplace.1 value) fun _ => rfl

theorem admits_pinned {α : Type} {w : MemoryM α} (hw : w.Quiet fun a => a.guarded = some slot) :
    Admits T t call w (fun _ m' => m' = {.pin slot}) (fun m' => m' = {.pin slot}) {.pin slot} := by
  refine .quiet hw (fun others h mem place value hplace hI => ?_) (fun _ => rfl) rfl
  rw [singleton_add] at hI ⊢
  exact hI.pinned_writes hplace value

theorem keeps_unknown {α : Type} {p : Prog Addr Event α}
    (hp : p.Quiet fun a => a.guarded = some slot ∧ known a = none) :
    Keeps T t call p (fun _ m' => m' = {.writer slot known}) {.writer slot known} := by
  refine .quiet hp (fun others h mem place value hplace hI => ?_) fun _ => rfl
  have hsame : update known place none = known := by
    rw [← hplace.2, update_eq_self]
  rw [singleton_add] at hI ⊢
  have hwritten := hI.writes hplace.1 value
  rw [hsame] at hwritten
  exact hwritten

theorem admits_learns {α : Type} {place : Addr} {f : Nat → MemoryM α} {Q : α → Share → Prop}
    {F : Share → Prop} (hplace : place.guarded = some slot)
    (hf : ∀ v, Admits T t call (f v) Q F {.writer slot (update known place (some v))}) :
    Admits T t call (Work.lift (load place) >>= f) Q F {.writer slot known} := by
  refine .load_bind fun others h mem hI => Works.goes (hf (mem place)) ?_
  rw [singleton_add] at hI ⊢
  exact hI.learns hplace

def pinned (slot : Nat) : Bool → Share
  | true => {.pin slot}
  | false => 0

theorem keeps_unpin : Keeps T t call (unpin slot) (fun _ m' => m' = 0) {.pin slot} := by
  refine Safe.fetchAdd_bind (f := fun _ => .ret ()) fun others h mem hI _ => ⟨0, ?_, rfl⟩
  rw [singleton_add] at hI
  rw [zero_add]
  exact hI.unpins

theorem admits_countPin (rounds gate : Nat) :
    Admits T t call (countPin around slot rounds gate) (fun success m' => m' = pinned slot success)
      (fun m' => m' = 0) 0 := by
  induction rounds generalizing gate with
  | zero => exact .fail rfl
  | succ rounds ih =>
    unfold countPin
    split
    · exact .fail rfl
    rename_i hpoisoned
    split
    · exact .pure rfl
    rename_i hretired
    split
    · exact .fail rfl
    rename_i hfree
    refine .bind (works_takeCas ?_ rfl)
    refine works_weakExchange_bind (fun others h mem hI hgate _ => ?_) ih
    subst hgate
    rw [zero_add] at hI
    obtain ⟨hwriter, hfull⟩ := not_or.mp hfree
    have hpins := hI.pins (not_not.mp hpoisoned) (not_not.mp hretired) (not_not.mp hwriter) hfull
    refine fun b => ⟨{.pin slot}, ?_, rfl⟩
    rw [singleton_add]
    exact hpins

theorem admits_pin (expected : Option Nat) :
    Admits T t call (pin around slot expected) (fun success m' => m' = pinned slot success)
      (fun m' => m' = 0) 0 := by
  refine .bind (.lift (.load fun gate => ?_))
  refine .bind ((works_withinBudget fun rounds => admits_countPin around rounds gate).mono ?_
    fun _ h => h)
  rintro (_ | _) _ rfl
  · exact .pure rfl
  · cases expected with
    | none => exact .pure rfl
    | some generation =>
      refine .bind (.lift (.load fun current => ?_))
      split
      · refine .bind (.lift (keeps_unpin.mono ?_))
        rintro _ _ rfl
        exact .fail rfl
      · exact .pure rfl

theorem quiet_pinMatches {P : Addr → Prop} (slot : Nat) (key : Key) :
    (pinMatches slot key).Quiet P := by
  refine .bind (quiet_load _) fun occupied => ?_
  split
  · exact .ret _
  refine .bind (quiet_load _) fun ns => ?_
  split
  · exact .ret _
  refine .bind (quiet_load _) fun subject => ?_
  split
  · exact .ret _
  · exact .bind (quiet_copyOut _ _) fun bytes => .ret _

theorem quiet_observe {P : Addr → Prop} (slot : Nat) : (observe T slot).Quiet P := by
  refine .bind (quiet_load _) fun tat => ?_
  split
  · exact .bind (quiet_load _) fun seen => .ret _
  · exact .ret _

theorem admits_sampleShard {m : Share} :
    Admits T t call (sampleShard T around shard) (fun _ m' => m' = m) (fun m' => m' = m) m := by
  have hplain : Addr.Plain (.watermark shard) := ⟨rfl, by rintro _ ⟨⟩⟩
  exact admits_plain (quiet_sample hplain (.bind (.tally _) fun n => .of _) _)

theorem admits_consume (prepared : Prepared) :
    Admits T t call (consume T around shard slot prepared) (fun _ m' => m' = 0) (fun m' => m' = 0)
      {.pin slot} := by
  have hcharge : ∀ rounds, Admits T t call
      (consumeWith around T.retention (sampleShard T around shard) (.tat slot) (.lastSeen slot)
        (.charged slot) prepared rounds)
      (fun _ m' => m' = {.pin slot}) (fun m' => m' = {.pin slot}) {.pin slot} := by
    refine works_consumeWith (admits_sampleShard around) (fun now => ?_)
      fun others h mem now next hI _ _ => ?_
    · exact admits_pinned (quiet_touch (P := fun a : Addr => a.guarded = some slot) rfl now)
    · rw [singleton_add] at hI ⊢
      exact (hI.pinned_writes rfl next).records (by rintro r ⟨⟩)
  refine .always ((works_withinBudget hcharge).mono ?_ ?_)
  · rintro _ _ rfl
    exact keeps_unpin
  · rintro _ rfl
    exact keeps_unpin

theorem admits_lookup (key : Key) (slots : List Nat) :
    Admits T t call (lookup around key slots)
      (fun found m' => m' = found.elim 0 fun slot => {.pin slot}) (fun m' => m' = 0) 0 := by
  induction slots with
  | nil => exact .pure rfl
  | cons slot rest ih =>
    refine .bind ((admits_pin around none).mono ?_ fun _ h => h)
    rintro (_ | _) _ rfl
    · exact ih
    · refine .bind (.lift ((keeps_plain (quiet_pinMatches slot key)).mono ?_))
      rintro (_ | _) _ rfl
      · refine .bind (.lift (keeps_unpin.mono ?_))
        rintro _ _ rfl
        exact ih
      · exact .pure rfl

theorem consider_retention (selection : Selection) (index generation : Nat) (replenished : Bool)
    (observation : Observation) :
    (selection.consider index generation replenished observation).retention =
      selection.retention := by
  unfold Selection.consider
  split
  · split <;> rfl
  · split <;> rfl

/-- A scan that has still to see the slots. -/
structure Scans (T : Table) (key : Key) (selection : Selection) (scan : Scan) (slots : List Nat) :
    Prop where
  retention : selection.retention = T.retention
  selects : scan.Selects selection
  window : scan.looks.map Look.slot ++ slots = T.window key

namespace Scans

variable {key : Key} {selection : Selection} {scan : Scan} {slots : List Nat}

theorem new (T : Table) (key : Key) (now : Nat) :
    Scans T key (.new T.retention) ⟨now, []⟩ (T.window key) :=
  ⟨rfl, .new now T.retention, rfl⟩

theorem seen (look : Look) (h : Scans T key selection scan (look.slot :: slots)) :
    (scan.see look).looks.map Look.slot ++ slots = T.window key := by
  rw [← h.window, Scan.see, map_append, append_assoc]
  rfl

theorem see_retired (h : Scans T key selection scan (slot :: slots)) :
    Scans T key selection (scan.see (.retired slot)) slots :=
  ⟨h.retention, h.selects.see_retired slot, seen (.retired slot) h⟩

theorem see (h : Scans T key selection scan (slot :: slots)) (word generation : Nat)
    (observation : Observation) :
    Scans T key
      (selection.consider slot generation (word = 0 ∨ observation.tat ≤ scan.now) observation)
      (scan.see (.inspected slot (word != 0) observation)) slots where
  retention := by rw [consider_retention, h.retention]
  selects := h.selects.see generation
  window := seen (.inspected slot (word != 0) observation) h

theorem discards (h : Scans T key selection scan []) {candidate : Candidate}
    (hc : selection.finish = .ok candidate) {debt : Observation}
    (hobserved : candidate.observed = some debt) (occupied : Bool) (now : Nat) :
    Replacement.Discards T ⟨key, scan, candidate.index, occupied, debt, now⟩ := by
  obtain ⟨-, ⟨ahead, behind, hlooks, hahead, hbehind⟩, hlive⟩ := h.selects.finish hc hobserved
  refine {
    window := by rw [← h.window, append_nil]
    live := fun s o observation hmem => ?_
    coldest := ⟨ahead, behind, hlooks, fun s o observation hmem => ?_,
      fun s o observation hmem => ?_⟩ }
  · have hboth := Bool.and_eq_true_iff.mp (hlive s o observation hmem)
    exact ⟨hboth.1, of_decide_eq_true hboth.2⟩
  · refine hahead s o observation hmem (hlive s o observation ?_)
    rw [hlooks]
    exact mem_append_left _ hmem
  · refine hbehind s o observation hmem (hlive s o observation ?_)
    rw [hlooks]
    exact mem_append_right _ (List.mem_cons_of_mem _ hmem)

end Scans

def Found (T : Table) (key : Key) : Nat ⊕ (Selection × Scan) → Share → Prop
  | .inl slot, m => m = {.pin slot}
  | .inr (selection, scan), m => m = 0 ∧ Scans T key selection scan []

theorem admits_search (key : Key) {slots : List Nat} {selection : Selection} {scan : Scan}
    (h : Scans T key selection scan slots) :
    Admits T t call (search T around key slots selection scan) (Found T key) (fun m' => m' = 0) 0 := by
  induction slots generalizing selection scan with
  | nil => exact .pure ⟨rfl, h⟩
  | cons slot rest ih =>
    refine .bind ((admits_pin around none).mono ?_ fun _ h => h)
    rintro (_ | _) _ rfl
    · exact ih h.see_retired
    · refine .bind (.lift ((keeps_plain (quiet_pinMatches slot key)).mono ?_))
      rintro (_ | _) _ rfl
      · refine .bind (.lift ((keeps_plain (quiet_observe slot)).mono ?_))
        rintro observation _ rfl
        refine .bind (.lift (.load fun generation => ?_))
        refine .bind (.lift (.load fun word => ?_))
        refine .bind (.lift (keeps_unpin.mono ?_))
        rintro _ _ rfl
        exact ih (h.see word generation observation)
      · exact .pure rfl

end OrbitQuota.Memory
