import Orbit.Arena.Spans

/-! What every run of a store keeps, and what an allocation does after it. -/

namespace OrbitArena

open Orbit.Atomic Orbit.Table Function
open List hiding drop

variable {g : Geometry} {a a' : Arena} {i index reader : Nat}

theorem recordMax_le (g : Geometry) : g.recordMax ≤ g.bytes := Nat.div_le_self ..

/-- No guarded record lies in the range. -/
def Clear (g : Geometry) (a : Arena) (position len : Nat) : Prop :=
  position + len ≤ g.bytes ∧
    ∀ i < g.slots, Guarded g a i → ¬ Meets (a.slots i).span position len

theorem Clear.mono {position len : Nat} (h : Clear g a position len)
    (hspan : ∀ i, (a'.slots i).span = (a.slots i).span)
    (hguarded : ∀ i, Guarded g a' i → Guarded g a i) : Clear g a' position len := by
  refine ⟨h.1, fun i hi hg => ?_⟩
  rw [hspan]
  exact h.2 i hi (hguarded i hg)

theorem allocateLocked_spec (h : ArenaInv g a) {len : Nat} (hlen : len ≤ g.recordMax) :
    ArenaInv g (allocateLocked g len a).1 ∧ ∀ position, (allocateLocked g len a).2 = .ok position →
      Clear g (allocateLocked g len a).1 position len :=
  ⟨h.evicts (allocateIn_evicts g len _ _ a).1, fun _ hok =>
    allocateIn_ok h.records.zeroed (hlen.trans (recordMax_le g)) hok⟩

theorem ArenaInv.install (h : ArenaInv g a) (hv : Vacant g a index) {s : Slot} {position len : Nat}
    (hclear : Clear g a position len) (hspan : s.span = (position, position + len))
    (hfilled : s.state ≠ .empty) (generation : Nat) :
    ArenaInv g { a.setSlot index s with recordGeneration := generation } where
  records := by
    refine h.records.install hfilled ?_ hv.unpinned (fun i hi hg => ?_) generation
    · rw [hspan]
      exact hclear.1
    · rw [hspan]
      exact apart_of_not_meets (hclear.2 i hi hg)
  pins := {
    filled := fun r i hpin => by
      by_cases heq : i = index
      · subst heq
        rw [setSlot_self]
        exact hfilled
      · rw [setSlot_other a s heq]
        exact h.pins.filled r i hpin
    bounded := h.pins.bounded
    counted := h.pins.counted
    held := h.pins.held }

theorem withdraw_evicts (key : Option Key) (a : Arena) : Evicts a (withdraw g key a) := by
  unfold withdraw
  split
  · exact evict_evicts ..
  · exact .refl a

theorem writeRecord_inv (h : ArenaInv g a) (self : Nat) (fails : Nat → Bool) (key : Option Key)
    (record : Record) : ArenaInv g (writeRecord g self fails key record a).1 := by
  unfold writeRecord
  split
  · exact h
  rename_i hmax
  have hlen : record.total ≤ g.recordMax := Nat.le_of_not_lt hmax
  have hreclaims : ∀ a, Reclaims a (reclaimLocked g self fails a).1 := fun a =>
    reclaimIn_reclaims self fails (range g.readers) a
  obtain ⟨hallocated, hclear⟩ := retried_spec (J := ArenaInv g)
    (Q := fun a position => Clear g a position record.total) (f := allocateLocked g record.total)
    (fun _ h => allocateLocked_spec h hlen) (fun a h => h.reclaims (hreclaims a))
    (h.evicts (withdraw_evicts key a))
  split
  · rename_i heq
    rw [heq] at hallocated
    exact hallocated
  rename_i a' offset heq
  rw [heq] at hallocated hclear
  have hfree : ∀ a, ArenaInv g a ∧ Clear g a offset record.total →
      (ArenaInv g (freeSlotLocked g a (key.getD ⟨offset, 0⟩)).1 ∧
        Clear g (freeSlotLocked g a (key.getD ⟨offset, 0⟩)).1 offset record.total) ∧
      ∀ index, (freeSlotLocked g a (key.getD ⟨offset, 0⟩)).2 = .ok index →
        Vacant g (freeSlotLocked g a (key.getD ⟨offset, 0⟩)).1 index := by
    rintro a ⟨h, hclear⟩
    obtain ⟨hevicts, hvacant⟩ := freeSlotLocked_spec (g := g) h.pins (key.getD ⟨offset, 0⟩)
    exact ⟨⟨h.evicts hevicts, hclear.mono hevicts.span fun _ => hevicts.guarded⟩, hvacant⟩
  have hreclaim : ∀ a, ArenaInv g a ∧ Clear g a offset record.total →
      ArenaInv g (reclaimLocked g self fails a).1 ∧
        Clear g (reclaimLocked g self fails a).1 offset record.total := by
    rintro a ⟨h, hclear⟩
    have hr := hreclaims a
    exact ⟨h.reclaims hr, hclear.mono (fun i => by rw [hr.slots]) fun _ => hr.lowers.guarded⟩
  obtain ⟨⟨hinv, hclear⟩, hvacant⟩ := retried_spec (Q := Vacant g) hfree hreclaim
    ⟨hallocated, hclear offset rfl⟩
  split
  · rename_i heq'
    rw [heq'] at hinv
    exact hinv
  rename_i a'' index heq'
  rw [heq'] at hinv hclear hvacant
  split
  · exact hinv
  · refine hinv.install (hvacant index rfl) hclear ?_ ?_ _
    · rw [Slot.span, Record.total, Nat.add_assoc]
    · dsimp only
      split <;> rintro ⟨⟩

theorem answers_guarded (g : Geometry) {key : Option Key} (h : (a.slots index).answers key = true) :
    Guarded g a index := by
  cases key with
  | some key => exact .inl (of_decide_eq_true h).1
  | none => exact .inr (.inl (of_decide_eq_true h))

theorem Pins.filled_of_guarded (h : Pins a) (hi : Guarded g a i) : (a.slots i).state ≠ .empty := by
  intro hempty
  rcases hi with hstate | hstate | hpinned
  · rw [hempty] at hstate
    cases hstate
  · rw [hempty] at hstate
    cases hstate
  · rw [h.unpinned hempty] at hpinned
    cases hpinned

theorem pin_set (a : Arena) (reader index n r i : Nat) :
    update a.pin reader (update (a.pin reader) index n) r i =
      if r = reader ∧ i = index then n else a.pin r i := by
  by_cases hr : r = reader
  · subst hr
    rw [update_self]
    by_cases hi : i = index
    · subst hi
      rw [update_self, if_pos ⟨rfl, rfl⟩]
    · rw [update_of_ne hi, if_neg fun h => hi h.2]
  · rw [update_of_ne hr, if_neg fun h => hr h.1]

def Arena.pinOnce (a : Arena) (reader index : Nat) : Arena :=
  { a with
    pin := update a.pin reader
      (update (a.pin reader) index (a.pin reader index + 1))
    entries := ⟨reader, index⟩ :: a.entries }

theorem pinOnce_pin (a : Arena) (reader index r i : Nat) : (a.pinOnce reader index).pin r i =
    if r = reader ∧ i = index then a.pin reader index + 1 else a.pin r i :=
  pin_set ..

theorem pinOnce_inv (h : ArenaInv g a) (hheld : a.held reader = true) (hguarded : Guarded g a index)
    (hbound : a.pin reader index + 1 < 2 ^ 32) : ArenaInv g (a.pinOnce reader index) where
  records := by
    refine h.records.mono (fun _ => rfl) (fun _ hi => hi) fun i hi => ?_
    unfold Guarded at hi ⊢
    refine hi.elim .inl fun hi => hi.elim (fun hi => .inr (.inl hi)) fun hpinned => ?_
    obtain ⟨r, hr, hactive, hpin⟩ := pinned_iff.mp hpinned
    rw [pinOnce_pin] at hpin
    split at hpin
    · rename_i heq
      rw [heq.2]
      exact hguarded
    · exact .inr (.inr (pinned_iff.mpr ⟨r, hr, hactive, hpin⟩))
  pins := {
    filled := fun r i hpin => by
      rw [pinOnce_pin] at hpin
      split at hpin
      · rename_i heq
        rw [heq.2]
        exact h.pins.filled_of_guarded hguarded
      · exact h.pins.filled r i hpin
    bounded := fun r i => by
      rw [pinOnce_pin]
      split
      · exact hbound
      · exact h.pins.bounded r i
    counted := fun entry => by
      have hcounted := h.pins.counted entry
      rw [pinOnce_pin, Arena.pinOnce, count_cons]
      by_cases heq : entry = ⟨reader, index⟩
      · subst heq
        rw [if_pos (beq_self_eq_true _), if_pos ⟨rfl, rfl⟩]
        exact Nat.succ_le_succ hcounted
      · have hne : ¬ (entry.reader = reader ∧ entry.slot = index) := by
          rintro ⟨rfl, rfl⟩
          exact heq rfl
        rw [if_neg fun h => heq (eq_of_beq h).symm, if_neg hne]
        exact hcounted
    held := fun entry hmem => by
      rcases mem_cons.mp hmem with rfl | hmem
      · exact hheld
      · exact h.pins.held entry hmem }

theorem pinEntry_inv (h : ArenaInv g a) (hheld : a.held reader = true) (generation : Nat)
    (key : Option Key) : ArenaInv g (pinEntry g reader index generation key a).1 := by
  unfold pinEntry
  split
  · exact h
  split
  · exact h
  rename_i hbound
  split
  · rename_i hfound
    exact pinOnce_inv h hheld (answers_guarded g hfound.2) (Nat.lt_of_not_le hbound)
  · exact h

theorem get_inv (h : ArenaInv g a) (hheld : a.held reader = true) (key : Key) :
    ArenaInv g (get g reader key a).1 := by
  unfold get
  split
  · exact pinEntry_inv h hheld _ _
  · exact h

theorem dropEntry_pin (h : Pins a) {entry : Entry} (hmem : entry ∈ a.entries) (r i : Nat) :
    (a.dropEntry entry).pin r i = if r = entry.reader ∧ i = entry.slot
      then a.pin entry.reader entry.slot - 1 else a.pin r i := by
  have hcounted := h.counted entry
  have hpos := count_pos_iff.mpr hmem
  have hbounded := h.bounded entry.reader entry.slot
  have hwrap : (a.pin entry.reader entry.slot + (2 ^ 32 - 1)) % 2 ^ 32 =
      a.pin entry.reader entry.slot - 1 := by omega
  rw [← hwrap]
  exact pin_set ..

theorem dropEntry_inv (h : ArenaInv g a) {entry : Entry} (hmem : entry ∈ a.entries) :
    ArenaInv g (a.dropEntry entry) := by
  have hpin := dropEntry_pin h.pins hmem
  refine h.lowers ⟨rfl, fun r i => ?_, fun r hr => .inl hr⟩ (fun other => ?_) fun other hother => ?_
  · rw [hpin]
    split
    · rename_i heq
      rw [heq.1, heq.2]
      exact Nat.sub_le ..
    · exact Nat.le_refl _
  · have hcounted := h.pins.counted other
    rw [hpin, Arena.dropEntry]
    by_cases heq : other = entry
    · subst heq
      rw [if_pos ⟨rfl, rfl⟩, count_erase_self]
      exact Nat.sub_le_sub_right hcounted 1
    · have hne : ¬ (other.reader = entry.reader ∧ other.slot = entry.slot) := by
        obtain ⟨r, i⟩ := other
        rintro ⟨rfl, rfl⟩
        exact heq rfl
      rw [if_neg hne, count_erase_of_ne heq]
      exact hcounted
  · exact h.pins.held other (mem_of_mem_erase hother)

theorem attach_inv (h : ArenaInv g a) (hfree : a.held reader = false) :
    ArenaInv g (exec g a (.attach reader)) := by
  have hexec : exec g a (.attach reader) =
      { a.clearReader reader with
        active := update (a.clearReader reader).active reader true
        held := update a.held reader true } := by
    rw [exec, if_neg (by rw [hfree]; exact Bool.false_ne_true)]
  have hpin : ∀ r i, (exec g a (.attach reader)).pin r i = if r = reader then 0 else a.pin r i := by
    intro r i
    rw [hexec]
    by_cases heq : r = reader
    · subst heq
      rw [if_pos rfl]
      exact congrFun (update_self r (fun _ => 0) a.pin) i
    · rw [if_neg heq]
      exact congrFun (update_of_ne heq (fun _ => 0) a.pin) i
  refine h.lowers ⟨by rw [hexec]; rfl, fun r i => ?_, fun r hr => ?_⟩ (fun entry => ?_)
    fun entry hmem => ?_
  · rw [hpin]
    split
    · exact Nat.zero_le _
    · exact Nat.le_refl _
  · by_cases heq : r = reader
    · exact .inr fun i => by rw [hpin, if_pos heq]
    · rw [hexec] at hr
      dsimp only [Arena.clearReader] at hr
      rw [update_of_ne heq, update_of_ne heq] at hr
      exact .inl hr
  · have hentries : (exec g a (.attach reader)).entries = a.entries := by
      rw [hexec]
      rfl
    rw [hentries, hpin]
    split
    · rename_i heq
      rw [← heq] at hfree
      rw [h.pins.count_eq_zero hfree]
    · exact h.pins.counted entry
  · rw [hexec] at hmem ⊢
    have hheld := h.pins.held entry hmem
    have hne : entry.reader ≠ reader := fun heq => by
      rw [heq, hfree] at hheld
      cases hheld
    dsimp only
    rw [update_of_ne hne]
    exact hheld

theorem dies_inv (h : ArenaInv g a) (reader : Nat) : ArenaInv g (exec g a (.dies reader)) := by
  refine h.lowers ⟨rfl, fun _ _ => Nat.le_refl _, fun _ hr => .inl hr⟩ (fun entry => ?_)
    fun entry hmem => ?_
  · exact (filter_sublist.count_le entry).trans (h.pins.counted entry)
  · obtain ⟨hmem, hne⟩ := mem_filter.mp hmem
    exact (update_of_ne (of_decide_eq_true hne) ..).trans (h.pins.held entry hmem)

theorem exec_inv (h : ArenaInv g a) (op : Op) : ArenaInv g (exec g a op) := by
  cases op with
  | attach reader =>
    cases hheld : a.held reader with
    | true =>
      rw [exec, if_pos hheld]
      exact h
    | false => exact attach_inv h hheld
  | detach reader =>
    rw [exec]
    split
    · rename_i hunused
      refine h.lowers ⟨rfl, fun _ _ => Nat.le_refl _, fun r hr => ?_⟩ h.pins.counted
        fun entry hmem => (update_of_ne (hunused.2 entry hmem) ..).trans
          (h.pins.held entry hmem)
      by_cases heq : r = reader
      · subst heq
        exact Bool.noConfusion ((update_self ..).symm.trans hr)
      · exact .inl ((update_of_ne heq ..).symm.trans hr)
    · exact h
  | dies reader => exact dies_inv h reader
  | write self fails key record => exact writeRecord_inv h self fails key record
  | forget key =>
    rw [exec, forget]
    split
    · exact h.evicts (evict_evicts ..)
    · exact h
  | forgetAddress address =>
    rw [exec, forgetAddress]
    split
    · exact h
    split
    · exact h
    · exact h.evicts (evict_evicts ..)
  | reset => exact h.evicts (foldl_evicts ..)
  | reclaim self fails => exact h.reclaims (reclaimIn_reclaims ..)
  | get reader key =>
    rw [exec]
    split
    · rename_i hheld
      exact get_inv h hheld key
    · exact h
  | getAddress reader address =>
    rw [exec]
    split
    · rename_i hheld
      exact pinEntry_inv h hheld _ _
    · exact h
  | drop entry =>
    rw [exec]
    split
    · rename_i hmem
      exact dropEntry_inv h hmem
    · exact h

theorem run_inv (g : Geometry) (ops : List Op) : ArenaInv g (run g ops) := by
  have hrun : ∀ a, ArenaInv g a → ArenaInv g (ops.foldl (exec g) a) := by
    induction ops with
    | nil => exact fun _ h => h
    | cons op rest ih => exact fun a h => ih _ (exec_inv h op)
  exact hrun _ (zeroed_inv g)

/-- The records that nobody may overwrite lie in the ring, apart from each other. -/
structure Laid (g : Geometry) (a : Arena) : Prop where
  inside : ∀ i < g.slots, Guarded g a i → (a.slots i).span.2 ≤ g.bytes
  apart : ∀ i < g.slots, ∀ j < g.slots, i ≠ j → Guarded g a i → Guarded g a j →
    Apart (a.slots i).span (a.slots j).span

/-- Two records are stored, the first one is borrowed, and the ring is run through once. -/
def sampleOps : List Op :=
  [.attach 0, .write 0 (fun _ => false) none ⟨3, 0⟩, .getAddress 0 ⟨0, 1⟩,
    .write 0 (fun _ => false) (some ⟨1, 0⟩) ⟨2, 2⟩, .write 0 (fun _ => false) (some ⟨2, 0⟩) ⟨4, 0⟩,
    .write 0 (fun _ => false) (some ⟨1, 0⟩) ⟨4, 0⟩]

end OrbitArena
