import Orbit.Arena.Runs

/-! What storing a body does to the records that are there, whether it succeeds or not. -/

namespace OrbitArena

variable {g : Geometry} {a a' a'' : Arena}

/-! ### Generations

Nothing but an installed record takes a generation. -/

theorem evict_recordGeneration (a : Arena) (index : Nat) :
    (evict a index).recordGeneration = a.recordGeneration := by
  unfold evict
  split
  · rfl
  · rfl

theorem scanSlot_recordGeneration (position stop : Nat) (seen : Arena × Option Nat) (index : Nat) :
    (scanSlot g position stop seen index).1.recordGeneration = seen.1.recordGeneration := by
  unfold scanSlot
  split
  · rfl
  split
  · rfl
  split
  · rfl
  split
  · exact evict_recordGeneration ..
  · exact evict_recordGeneration ..

theorem scan_recordGeneration (a : Arena) (position len : Nat) :
    (scan g a position len).1.recordGeneration = a.recordGeneration := by
  have hfold : ∀ (indices : List Nat) (seen : Arena × Option Nat),
      (indices.foldl (scanSlot g position (position + len)) seen).1.recordGeneration =
        seen.1.recordGeneration := by
    intro indices
    induction indices with
    | nil => exact fun _ => rfl
    | cons index rest ih => exact fun seen => (ih _).trans (scanSlot_recordGeneration ..)
  exact hfold _ _

theorem allocateIn_recordGeneration (len attempts cursor : Nat) (a : Arena) :
    (allocateIn g len attempts cursor a).1.recordGeneration = a.recordGeneration := by
  induction attempts generalizing cursor a with
  | zero => rfl
  | succ attempts ih =>
    unfold allocateIn
    have hscan := scan_recordGeneration (g := g) a (place g len cursor).2 len
    dsimp only
    split
    · rename_i heq
      rw [heq] at hscan
      exact (ih _ _).trans hscan
    · rename_i heq
      rw [heq] at hscan
      exact hscan

theorem evictOldest_recordGeneration (rounds : Nat) (a : Arena) :
    (evictOldest g rounds a).1.recordGeneration = a.recordGeneration := by
  induction rounds generalizing a with
  | zero => rfl
  | succ rounds ih =>
    unfold evictOldest
    split
    · rfl
    split
    · exact evict_recordGeneration ..
    · exact (ih _).trans (evict_recordGeneration ..)

theorem freeSlotLocked_recordGeneration (a : Arena) (key : Key) :
    (freeSlotLocked g a key).1.recordGeneration = a.recordGeneration := by
  unfold freeSlotLocked
  split
  · rfl
  · exact evictOldest_recordGeneration ..

theorem reclaimIn_recordGeneration (self : Nat) (fails : Nat → Bool) (rows : List Nat)
    (a : Arena) : (reclaimIn self fails rows a).1.recordGeneration = a.recordGeneration := by
  induction rows generalizing a with
  | nil => rfl
  | cons row rest ih =>
    unfold reclaimIn
    split
    · exact ih a
    split
    · rfl
    split
    · exact ih a
    · exact ih _

theorem retried_recordGeneration {α : Type} {f : Arena → Arena × Except Error α}
    (hf : ∀ b, (f b).1.recordGeneration = b.recordGeneration) (self : Nat) (fails : Nat → Bool)
    (a : Arena) : (retried g self fails f a).1.recordGeneration = a.recordGeneration :=
  (retried_spec (J := fun b => b.recordGeneration = a.recordGeneration) (Q := fun _ _ => True)
    (fun b hb => ⟨(hf b).trans hb, fun _ _ => trivial⟩)
    (fun _ hb => (reclaimIn_recordGeneration ..).trans hb) rfl).1

theorem withdraw_recordGeneration (key : Option Key) (a : Arena) :
    (withdraw g key a).recordGeneration = a.recordGeneration := by
  unfold withdraw
  split
  · exact evict_recordGeneration ..
  · rfl

theorem writeRecord_recordGeneration (self : Nat) (fails : Nat → Bool) (key : Option Key)
    (record : Record) (a : Arena) :
    a.recordGeneration ≤ (writeRecord g self fails key record a).1.recordGeneration := by
  have hallocated : (retried g self fails (allocateLocked g record.total)
      (withdraw g key a)).1.recordGeneration = a.recordGeneration :=
    (retried_recordGeneration (fun _ => allocateIn_recordGeneration ..) self fails _).trans
      (withdraw_recordGeneration ..)
  unfold writeRecord
  split
  · exact Nat.le_refl _
  split
  · rename_i heq
    rw [heq] at hallocated
    exact Nat.le_of_eq hallocated.symm
  rename_i b offset heq
  rw [heq] at hallocated
  have hfreed : (retried g self fails (fun b => freeSlotLocked g b (key.getD ⟨offset, 0⟩))
      b).1.recordGeneration = a.recordGeneration :=
    (retried_recordGeneration (fun _ => freeSlotLocked_recordGeneration ..) self fails b).trans
      hallocated
  split
  · rename_i heq'
    rw [heq'] at hfreed
    exact Nat.le_of_eq hfreed.symm
  rename_i b' index heq'
  rw [heq'] at hfreed
  split
  · exact Nat.le_of_eq hfreed.symm
  · exact Nat.le_trans (Nat.le_of_eq hfreed.symm) (Nat.le_succ _)

theorem pinEntry_recordGeneration (reader index generation : Nat) (key : Option Key) (a : Arena) :
    (pinEntry g reader index generation key a).1.recordGeneration = a.recordGeneration := by
  unfold pinEntry
  split
  · rfl
  split
  · rfl
  split
  · rfl
  · rfl

theorem reset_recordGeneration (a : Arena) : (reset g a).recordGeneration = a.recordGeneration := by
  have hfold : ∀ (indices : List Nat) (a : Arena),
      (indices.foldl evict a).recordGeneration = a.recordGeneration := by
    intro indices
    induction indices with
    | nil => exact fun _ => rfl
    | cons index rest ih => exact fun a => (ih _).trans (evict_recordGeneration ..)
  exact hfold _ _

theorem exec_recordGeneration (a : Arena) (op : Op) :
    a.recordGeneration ≤ (exec g a op).recordGeneration := by
  have hsame : (∀ self fails key record, op ≠ .write self fails key record) →
      (exec g a op).recordGeneration = a.recordGeneration := by
    intro hwrite
    cases op with
    | write self fails key record => exact absurd rfl (hwrite self fails key record)
    | attach reader =>
      rw [exec]
      split
      · rfl
      · rfl
    | detach reader =>
      rw [exec]
      split
      · rfl
      · rfl
    | drop entry =>
      rw [exec]
      split
      · rfl
      · rfl
    | dies reader => rfl
    | forget key =>
      rw [exec, forget]
      split
      · exact evict_recordGeneration ..
      · rfl
    | forgetAddress address =>
      rw [exec, forgetAddress]
      split
      · rfl
      split
      · rfl
      · exact evict_recordGeneration ..
    | reset => exact reset_recordGeneration a
    | reclaim self fails => exact reclaimIn_recordGeneration ..
    | get reader key =>
      rw [exec, get]
      split
      · split
        · exact pinEntry_recordGeneration ..
        · rfl
      · rfl
    | getAddress reader address =>
      rw [exec]
      split
      · exact pinEntry_recordGeneration ..
      · rfl
  cases op with
  | write self fails key record => exact writeRecord_recordGeneration ..
  | _ => exact Nat.le_of_eq (hsame fun _ _ _ _ h => (by cases h)).symm

/-- Records have been retired and rows without an owner cleared, and nothing else has changed for
the living. -/
structure Spares (a a' : Arena) : Prop where
  slots : ∀ i, a'.slots i = a.slots i ∨ a'.slots i = { a.slots i with state := .retired }
  held : a'.held = a.held
  pin : ∀ r, a.held r = true → a'.pin r = a.pin r
  generation : a'.recordGeneration = a.recordGeneration

namespace Spares

theorem refl (a : Arena) : Spares a a := ⟨fun _ => .inl rfl, rfl, fun _ _ => rfl, rfl⟩

theorem trans (h : Spares a a') (h' : Spares a' a'') : Spares a a'' where
  slots i := by
    rcases h.slots i with heq | heq
    · rw [← heq]
      exact h'.slots i
    · rcases h'.slots i with heq' | heq'
      · exact .inr (heq'.trans heq)
      · rw [heq', heq]
        exact .inr rfl
  held := h'.held.trans h.held
  pin r hr := (h'.pin r (by rwa [h.held])).trans (h.pin r hr)
  generation := h'.generation.trans h.generation

theorem evicts (h : Evicts a a') (hgeneration : a'.recordGeneration = a.recordGeneration) :
    Spares a a' where
  slots i := (h.slots i).imp_right And.right
  held := h.held
  pin r _ := by rw [h.pin]
  generation := hgeneration

end Spares

/-- A body was stored at an address, in what room was made for it. -/
structure Stores (g : Geometry) (a a' : Arena) (len : Nat) (address : Address) : Prop where
  lt : address.slot < g.slots
  generation : address.generation = a.recordGeneration + 1
  recordGeneration : a'.recordGeneration = address.generation
  state : (a'.slots address.slot).state = .addressed
  slot : (a'.slots address.slot).generation = address.generation
  len : (a'.slots address.slot).bodyLen = len
  others : ∀ i ≠ address.slot,
    a'.slots i = a.slots i ∨ a'.slots i = { a.slots i with state := .retired }
  held : a'.held = a.held
  pin : ∀ r, a.held r = true → a'.pin r = a.pin r

theorem reclaimLocked_spares (self : Nat) (fails : Nat → Bool) (a : Arena) :
    Spares a (reclaimLocked g self fails a).1 where
  slots i := by
    rw [reclaimLocked, (reclaimIn_reclaims self fails _ a).slots]
    exact .inl rfl
  held := (reclaimIn_reclaims self fails _ a).held
  pin r hr := ((reclaimIn_reclaims self fails _ a).pin r).elim id fun hdead => by
    rw [hr] at hdead
    exact absurd hdead.1 Bool.noConfusion
  generation := reclaimIn_recordGeneration ..

theorem writeRecord_stores (h : ArenaInv g a) (self : Nat) (fails : Nat → Bool) (len : Nat) :
    let call := writeRecord g self fails none ⟨len, 0⟩ a
    (∀ e, call.2 = .error e → Spares a call.1) ∧
      ∀ address, call.2 = .ok address → Stores g a call.1 len address := by
  have hreclaim : ∀ b, ArenaInv g b ∧ Spares a b →
      ArenaInv g (reclaimLocked g self fails b).1 ∧ Spares a (reclaimLocked g self fails b).1 :=
    fun b hb => ⟨hb.1.reclaims (reclaimIn_reclaims ..), hb.2.trans (reclaimLocked_spares ..)⟩
  have hallocate : ∀ b, ArenaInv g b ∧ Spares a b →
      (ArenaInv g (allocateLocked g len b).1 ∧ Spares a (allocateLocked g len b).1) ∧
        ∀ position, (allocateLocked g len b).2 = .ok position → True := by
    rintro b ⟨hb, hspares⟩
    have hevicts := (allocateIn_evicts g len (g.slots + 2) b.cursor b).1
    exact ⟨⟨hb.evicts hevicts, hspares.trans (.evicts hevicts (allocateIn_recordGeneration ..))⟩,
      fun _ _ => trivial⟩
  have hfree : ∀ offset b, ArenaInv g b ∧ Spares a b →
      (ArenaInv g (freeSlotLocked g b ⟨offset, 0⟩).1 ∧
        Spares a (freeSlotLocked g b ⟨offset, 0⟩).1) ∧
        ∀ index, (freeSlotLocked g b ⟨offset, 0⟩).2 = .ok index →
          Vacant g (freeSlotLocked g b ⟨offset, 0⟩).1 index := by
    rintro offset b ⟨hb, hspares⟩
    obtain ⟨hevicts, hvacant⟩ := freeSlotLocked_spec (g := g) hb.pins ⟨offset, 0⟩
    exact ⟨⟨hb.evicts hevicts,
      hspares.trans (.evicts hevicts (freeSlotLocked_recordGeneration ..))⟩, hvacant⟩
  obtain ⟨hallocated, -⟩ := retried_spec (Q := fun _ _ => True) hallocate hreclaim
    ⟨h, .refl a⟩
  dsimp only
  unfold writeRecord
  split
  · exact ⟨fun _ _ => .refl a, fun _ hok => (by cases hok)⟩
  have htotal : (Record.mk len 0).total = len := rfl
  have hwithdraw : withdraw g none a = a := rfl
  rw [htotal, hwithdraw]
  split
  · rename_i heq
    rw [heq] at hallocated
    exact ⟨fun _ _ => hallocated.2, fun _ hok => (by cases hok)⟩
  rename_i b offset heq
  rw [heq] at hallocated
  obtain ⟨⟨-, hspares⟩, hvacant⟩ := retried_spec (hfree offset) hreclaim hallocated
  dsimp only [Option.getD_none]
  split
  · rename_i heq'
    rw [heq'] at hspares
    exact ⟨fun _ _ => hspares, fun _ hok => (by cases hok)⟩
  rename_i b' index heq'
  rw [heq'] at hspares hvacant
  split
  · exact ⟨fun _ _ => hspares, fun _ hok => (by cases hok)⟩
  refine ⟨fun _ herr => (by cases herr), fun address hok => ?_⟩
  cases hok
  have hslot := setSlot_self b' index ⟨.addressed, b'.recordGeneration + 1, ⟨0, 0⟩, offset, len, 0⟩
  exact {
    lt := (hvacant index rfl).lt
    generation := congrArg (· + 1) hspares.generation
    recordGeneration := rfl
    state := congrArg Slot.state hslot
    slot := congrArg Slot.generation hslot
    len := congrArg Slot.bodyLen hslot
    others := fun i hi => by
      have hother := setSlot_other b' ⟨.addressed, b'.recordGeneration + 1, ⟨0, 0⟩, offset, len, 0⟩ hi
      exact (hspares.slots i).imp hother.trans hother.trans
    held := hspares.held
    pin := hspares.pin }

theorem forgetAddress_evicts (a : Arena) (address : Address) :
    Evicts a (forgetAddress g address a) := by
  unfold forgetAddress
  split
  · exact .refl a
  split
  · exact .refl a
  · exact evict_evicts ..

theorem forgetAddress_gone {a : Arena} {address : Address} (hlt : address.slot < g.slots) :
    ¬(((forgetAddress g address a).slots address.slot).state = .addressed ∧
      ((forgetAddress g address a).slots address.slot).generation =
        address.generation) := by
  rw [forgetAddress, if_neg (Nat.not_le.mpr hlt)]
  split
  · rename_i hother
    rintro ⟨hstate, hgeneration⟩
    exact hother.elim (fun h => h hstate) fun h => h hgeneration
  · rename_i hsame
    have hstate : (a.slots address.slot).state = .addressed :=
      not_not.mp fun h => hsame (.inl h)
    rintro ⟨haddressed, -⟩
    rw [evict_retired fun hempty => by rw [hstate] at hempty; cases hempty] at haddressed
    cases haddressed

end OrbitArena
