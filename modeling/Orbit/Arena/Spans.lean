import Orbit.Arena.Allocation

/-! The records that may be read lie apart in the ring, and the pins stand for what is borrowed:
what evictions, freed slots and cleared rows keep of that. -/

namespace OrbitArena

open Orbit.Atomic Orbit.Table List Function

variable {g : Geometry} {a a' : Arena} {i index reader : Nat}

def Apart (s t : Span) : Prop := ∀ byte, ¬ (s.1 ≤ byte ∧ byte < s.2 ∧ t.1 ≤ byte ∧ byte < t.2)

theorem Apart.symm {s t : Span} (h : Apart s t) : Apart t s :=
  fun byte ⟨ht1, ht2, hs1, hs2⟩ => h byte ⟨hs1, hs2, ht1, ht2⟩

theorem apart_of_not_meets {s : Span} {position len : Nat} (h : ¬ Meets s position len) :
    Apart (position, position + len) s := by
  rintro byte ⟨hstart, hstop, hs1, hs2⟩
  exact h ⟨Nat.lt_of_le_of_lt hstart hs2, Nat.lt_of_le_of_lt hs1 hstop⟩

structure Records (g : Geometry) (a : Arena) : Prop where
  inside : ∀ i, (a.slots i).span.2 ≤ g.bytes
  zeroed : ∀ i, (a.slots i).state = .empty → (a.slots i).span.2 = 0
  apart : ∀ i < g.slots, ∀ j < g.slots, i ≠ j → Guarded g a i → Guarded g a j →
    Apart (a.slots i).span (a.slots j).span

theorem Records.mono (h : Records g a) (hspan : ∀ i, (a'.slots i).span = (a.slots i).span)
    (hempty : ∀ i, (a'.slots i).state = .empty → (a.slots i).state = .empty)
    (hguarded : ∀ i, Guarded g a' i → Guarded g a i) : Records g a' where
  inside i := by
    rw [hspan]
    exact h.inside i
  zeroed i hi := by
    rw [hspan]
    exact h.zeroed i (hempty i hi)
  apart i hi j hj hne hgi hgj := by
    rw [hspan, hspan]
    exact h.apart i hi j hj hne (hguarded i hgi) (hguarded j hgj)

theorem Evicts.guarded (h : Evicts a a') (hi : Guarded g a' i) : Guarded g a i := by
  unfold Guarded at hi ⊢
  rw [h.pinned] at hi
  rcases h.slots i with heq | ⟨-, heq⟩
  · rw [heq] at hi
    exact hi
  · rw [heq] at hi
    refine .inr (.inr ?_)
    rcases hi with hi | hi | hi
    · cases hi
    · cases hi
    · exact hi

theorem Records.evicts (h : Records g a) (he : Evicts a a') : Records g a' :=
  h.mono he.span (fun i => (he.empty_iff i).mp) fun _ => he.guarded

theorem Records.install (h : Records g a) {s : Slot} (hfilled : s.state ≠ .empty)
    (hfits : s.span.2 ≤ g.bytes) (hunpinned : a.pinned g index = false)
    (hclear : ∀ i < g.slots, Guarded g a i → Apart s.span (a.slots i).span) (generation : Nat) :
    Records g { a.setSlot index s with recordGeneration := generation } := by
  have hslot : ∀ i, i ≠ index → (a.setSlot index s).slots i = a.slots i := fun i => setSlot_other a s
  have hself : (a.setSlot index s).slots index = s := setSlot_self a index s
  have hother : ∀ i, i ≠ index →
      Guarded g { a.setSlot index s with recordGeneration := generation } i → Guarded g a i := by
    intro i hi hguarded
    unfold Guarded at hguarded
    rw [hslot i hi] at hguarded
    exact hguarded
  refine ⟨fun i => ?_, fun i hi => ?_, fun i hi j hj hne hgi hgj => ?_⟩
  · by_cases heq : i = index
    · subst heq
      rw [hself]
      exact hfits
    · rw [hslot i heq]
      exact h.inside i
  · by_cases heq : i = index
    · subst heq
      rw [hself] at hi
      exact absurd hi hfilled
    · rw [hslot i heq] at hi ⊢
      exact h.zeroed i hi
  · by_cases hi' : i = index
    · subst hi'
      rw [hself, hslot j hne.symm]
      exact hclear j hj (hother j hne.symm hgj)
    · by_cases hj' : j = index
      · subst hj'
        rw [hself, hslot i hi']
        exact (hclear i hi (hother i hi' hgi)).symm
      · rw [hslot i hi', hslot j hj']
        exact h.apart i hi j hj hne (hother i hi' hgi) (hother j hj' hgj)

/-- The pins stand for what is borrowed, at least, and for records. -/
structure Pins (a : Arena) : Prop where
  filled : ∀ r i, a.pin r i ≠ 0 → (a.slots i).state ≠ .empty
  bounded : ∀ r i, a.pin r i < 2 ^ 32
  counted : ∀ entry, a.entries.count entry ≤ a.pin entry.reader entry.slot
  held : ∀ entry ∈ a.entries, a.held entry.reader = true

theorem pinned_iff : a.pinned g i = true ↔ ∃ r < g.readers, a.active r = true ∧ a.pin r i ≠ 0 := by
  rw [Arena.pinned, any_eq_true]
  constructor
  · rintro ⟨r, hr, h⟩
    obtain ⟨hactive, hpin⟩ := Bool.and_eq_true_iff.mp h
    exact ⟨r, mem_range.mp hr, hactive, bne_iff_ne.mp hpin⟩
  · rintro ⟨r, hr, hactive, hpin⟩
    exact ⟨r, mem_range.mpr hr, Bool.and_eq_true_iff.mpr ⟨hactive, bne_iff_ne.mpr hpin⟩⟩

theorem Pins.unpinned (h : Pins a) (hi : (a.slots i).state = .empty) : a.pinned g i = false := by
  by_contra hpinned
  obtain ⟨r, -, -, hpin⟩ := pinned_iff.mp ((Bool.not_eq_false _).mp hpinned)
  exact h.filled r i hpin hi

theorem Pins.evicts (h : Pins a) (he : Evicts a a') : Pins a' where
  filled r i hpin := by
    rw [he.pin] at hpin
    rw [Ne, he.empty_iff]
    exact h.filled r i hpin
  bounded r i := by
    rw [he.pin]
    exact h.bounded r i
  counted entry := by
    rw [he.pin, he.entries]
    exact h.counted entry
  held entry hmem := by
    rw [he.entries] at hmem
    rw [he.held]
    exact h.held entry hmem

structure ArenaInv (g : Geometry) (a : Arena) : Prop where
  records : Records g a
  pins : Pins a

theorem ArenaInv.evicts (h : ArenaInv g a) (he : Evicts a a') : ArenaInv g a' :=
  ⟨h.records.evicts he, h.pins.evicts he⟩

theorem zeroed_inv (g : Geometry) : ArenaInv g .zeroed where
  records := {
    inside := fun _ => Nat.zero_le _
    zeroed := fun _ _ => rfl
    apart := fun i _ j _ _ hi _ => by
      rcases hi with hi | hi | hi
      · cases hi
      · cases hi
      · obtain ⟨r, -, hactive, -⟩ := pinned_iff.mp hi
        cases hactive }
  pins := {
    filled := fun _ _ h => absurd rfl h
    bounded := fun _ _ => Nat.two_pow_pos 32
    counted := fun _ => Nat.le_refl 0
    held := fun _ h => absurd h not_mem_nil }

theorem foldl_evicts (indices : List Nat) (a : Arena) : Evicts a (indices.foldl evict a) := by
  induction indices generalizing a with
  | nil => exact .refl a
  | cons index rest ih => exact (evict_evicts a index).trans (ih _)

theorem mem_probed {key : Key} (h : index ∈ probed g key) : index < g.slots := by
  obtain ⟨probe, -, rfl⟩ := mem_map.mp h
  rw [and_mask g.slots_pow]
  refine Nat.mod_lt _ ?_
  rw [eq_of_beq g.slots_pow]
  exact Nat.two_pow_pos _

/-- A slot that takes a record. -/
structure Vacant (g : Geometry) (a : Arena) (index : Nat) : Prop where
  lt : index < g.slots
  unpinned : a.pinned g index = false

theorem freeIn_some (hp : Pins a) {indices : List Nat} (h : freeIn g a indices = some index) :
    index ∈ indices ∧ a.pinned g index = false := by
  induction indices with
  | nil => cases h
  | cons first rest ih =>
    rw [freeIn] at h
    split at h
    · rename_i hempty
      cases h
      exact ⟨mem_cons_self, hp.unpinned hempty⟩
    split at h
    · rename_i hretired
      cases h
      exact ⟨mem_cons_self, hretired.2⟩
    · obtain ⟨hmem, hpinned⟩ := ih h
      exact ⟨mem_cons_of_mem _ hmem, hpinned⟩

theorem evictOldest_evicts (g : Geometry) (rounds : Nat) (a : Arena) :
    Evicts a (evictOldest g rounds a).1 ∧
      ∀ index, (evictOldest g rounds a).2 = .ok index → Vacant g (evictOldest g rounds a).1 index := by
  induction rounds generalizing a with
  | zero => exact ⟨.refl a, fun _ h => by cases h⟩
  | succ rounds ih =>
    unfold evictOldest
    split
    · exact ⟨.refl a, fun _ h => by cases h⟩
    · rename_i index hindex
      have hevicts := evict_evicts a index
      split
      · rename_i hunpinned
        refine ⟨hevicts, fun other h => ?_⟩
        cases h
        have hmem := mem_filter.mp (argmin_mem hindex)
        exact ⟨mem_range.mp hmem.1, hunpinned⟩
      · obtain ⟨hrest, hvacant⟩ := ih (evict a index)
        exact ⟨hevicts.trans hrest, hvacant⟩

theorem freeSlotLocked_spec (hp : Pins a) (key : Key) :
    Evicts a (freeSlotLocked g a key).1 ∧
      ∀ index, (freeSlotLocked g a key).2 = .ok index → Vacant g (freeSlotLocked g a key).1 index := by
  unfold freeSlotLocked
  split
  · rename_i index hfree
    obtain ⟨hmem, hunpinned⟩ := freeIn_some hp hfree
    refine ⟨.refl a, fun other h => ?_⟩
    cases h
    exact ⟨mem_probed hmem, hunpinned⟩
  · exact evictOldest_evicts g g.slots a

/-- No record is pinned that was not. -/
structure Lowers (a a' : Arena) : Prop where
  slots : a'.slots = a.slots
  pin_le : ∀ r i, a'.pin r i ≤ a.pin r i
  active : ∀ r, a'.active r = true → a.active r = true ∨ ∀ i, a'.pin r i = 0

theorem Lowers.guarded (h : Lowers a a') (hi : Guarded g a' i) : Guarded g a i := by
  unfold Guarded at hi ⊢
  rw [h.slots] at hi
  refine hi.imp_right (Or.imp_right fun hpinned => ?_)
  obtain ⟨r, hr, hactive, hpin⟩ := pinned_iff.mp hpinned
  have hle := h.pin_le r i
  rcases h.active r hactive with hactive | hzero
  · exact pinned_iff.mpr ⟨r, hr, hactive, by omega⟩
  · exact absurd (hzero i) hpin

theorem ArenaInv.lowers (h : ArenaInv g a) (hl : Lowers a a')
    (hcounted : ∀ entry, a'.entries.count entry ≤ a'.pin entry.reader entry.slot)
    (hheld : ∀ entry ∈ a'.entries, a'.held entry.reader = true) : ArenaInv g a' where
  records := h.records.mono (fun i => by rw [hl.slots]) (fun i hi => by rwa [hl.slots] at hi)
    fun _ => hl.guarded
  pins := {
    filled := fun r i hpin => by
      have hle := hl.pin_le r i
      rw [hl.slots]
      exact h.pins.filled r i (by omega)
    bounded := fun r i => Nat.lt_of_le_of_lt (hl.pin_le r i) (h.pins.bounded r i)
    counted := hcounted
    held := hheld }

/-- Rows without an owner have been cleared. -/
structure Reclaims (a a' : Arena) : Prop where
  slots : a'.slots = a.slots
  held : a'.held = a.held
  entries : a'.entries = a.entries
  active : ∀ r, a'.active r = true → a.active r = true
  pin : ∀ r, a'.pin r = a.pin r ∨ a.held r = false ∧ ∀ i, a'.pin r i = 0

namespace Reclaims

theorem refl (a : Arena) : Reclaims a a := ⟨rfl, rfl, rfl, fun _ h => h, fun _ => .inl rfl⟩

theorem trans {a'' : Arena} (h : Reclaims a a') (h' : Reclaims a' a'') : Reclaims a a'' where
  slots := h'.slots.trans h.slots
  held := h'.held.trans h.held
  entries := h'.entries.trans h.entries
  active r hr := h.active r (h'.active r hr)
  pin r := by
    rcases h'.pin r with heq' | ⟨hheld, hzero⟩
    · rw [heq']
      exact h.pin r
    · rw [h.held] at hheld
      exact .inr ⟨hheld, hzero⟩

theorem clearReader_active (a : Arena) (reader : Nat) :
    (a.clearReader reader).active = update a.active reader false := rfl

theorem clearReader_pin (a : Arena) (reader : Nat) :
    (a.clearReader reader).pin = update a.pin reader fun _ => 0 := rfl

theorem clearReader (hheld : a.held reader = false) : Reclaims a (a.clearReader reader) where
  slots := rfl
  held := rfl
  entries := rfl
  active r hr := by
    by_cases heq : r = reader
    · subst heq
      rw [clearReader_active, update_self] at hr
      cases hr
    · rwa [clearReader_active, update_of_ne heq] at hr
  pin r := by
    by_cases heq : r = reader
    · subst heq
      refine .inr ⟨hheld, fun i => ?_⟩
      rw [clearReader_pin, update_self]
    · exact .inl (update_of_ne heq ..)

theorem lowers (h : Reclaims a a') : Lowers a a' where
  slots := h.slots
  pin_le r i := by
    rcases h.pin r with heq | ⟨-, hzero⟩
    · rw [heq]
    · rw [hzero]
      exact Nat.zero_le _
  active r hr := .inl (h.active r hr)

end Reclaims

theorem Pins.count_eq_zero (h : Pins a) {entry : Entry} (hfree : a.held entry.reader = false) :
    a.entries.count entry = 0 := by
  refine List.count_eq_zero.mpr fun hmem => ?_
  rw [h.held entry hmem] at hfree
  cases hfree

theorem ArenaInv.reclaims (h : ArenaInv g a) (hr : Reclaims a a') : ArenaInv g a' := by
  refine h.lowers hr.lowers (fun entry => ?_) fun entry hmem => ?_
  · rw [hr.entries]
    rcases hr.pin entry.reader with heq | ⟨hfree, -⟩
    · rw [heq]
      exact h.pins.counted entry
    · rw [h.pins.count_eq_zero hfree]
      exact Nat.zero_le _
  · rw [hr.entries] at hmem
    rw [hr.held]
    exact h.pins.held entry hmem

theorem reclaimIn_reclaims (self : Nat) (fails : Nat → Bool) (rows : List Nat) (a : Arena) :
    Reclaims a (reclaimIn self fails rows a).1 := by
  induction rows generalizing a with
  | nil => exact .refl a
  | cons row rest ih =>
    unfold reclaimIn
    split
    · exact ih a
    split
    · exact .refl a
    split
    · exact ih a
    · rename_i hheld
      exact (Reclaims.clearReader ((Bool.not_eq_true _).mp hheld)).trans (ih _)

theorem retried_spec {α : Type} {J : Arena → Prop} {Q : Arena → α → Prop}
    {f : Arena → Arena × Except Error α}
    (hf : ∀ a, J a → J (f a).1 ∧ ∀ x, (f a).2 = .ok x → Q (f a).1 x)
    {self : Nat} {fails : Nat → Bool} (hreclaim : ∀ a, J a → J (reclaimLocked g self fails a).1)
    (h : J a) :
    J (retried g self fails f a).1 ∧ ∀ x, (retried g self fails f a).2 = .ok x →
      Q (retried g self fails f a).1 x := by
  have hfirst := hf a h
  unfold retried
  split
  · rename_i a' heq
    rw [heq] at hfirst
    have hreclaimed := hreclaim a' hfirst.1
    split
    · rename_i a'' e heq'
      rw [heq'] at hreclaimed
      exact ⟨hreclaimed, fun _ h => by cases h⟩
    · rename_i a'' heq'
      rw [heq'] at hreclaimed
      exact hf a'' hreclaimed
  · exact hfirst

end OrbitArena
