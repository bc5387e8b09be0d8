import Orbit.Session.Stores
import Orbit.Session.Pushing
import Mathlib.Data.List.GetD

/-! What the stores of one slot come to: those of a release, an erasure and a write make of the slot what
the three functions do, and before the last of them the slot is marked as being written. -/

namespace OrbitSession

open List

variable {g : Sizes} {n : Nat} {m : Accesses} {domain key value : List UInt8}

/-- The byte at a place, and zero where the buffer ends. -/
def Buffer.get (b : Buffer n) (i : Nat) : UInt8 := b.bytes.getD i 0

theorem Buffer.get_of_le (b : Buffer n) {i : Nat} (h : n ≤ i) : b.get i = 0 := by
  have hlength := b.length_eq
  rw [Buffer.get, getD_eq_getElem?_getD, getElem?_eq_none (by omega)]
  rfl

theorem Buffer.eq_of_get {b c : Buffer n} (h : ∀ i < n, b.get i = c.get i) : b = c := by
  have hb := b.length_eq
  have hc := c.length_eq
  have hbytes : b.bytes = c.bytes := by
    refine ext_getElem (by omega) fun i hi hi' => ?_
    have hget := h i (by omega)
    rwa [Buffer.get, Buffer.get, getD_eq_getElem _ _ hi, getD_eq_getElem _ _ hi'] at hget
  cases b
  cases c
  cases hbytes
  rfl

@[simp] theorem Buffer.zero_get (i : Nat) : (Buffer.zero n).get i = 0 := by
  simp [Buffer.get, Buffer.zero, getD_eq_getElem?_getD, getElem?_replicate]
  split <;> rfl

theorem Buffer.erase_get (b : Buffer n) (len : Nat) {i : Nat} (hi : i < n) :
    (b.erase len).get i = if i < len then 0 else b.get i := by
  have hb := b.length_eq
  simp only [Buffer.get, Buffer.erase, getD_eq_getElem?_getD]
  split
  · rw [getElem?_append_left (by simp; omega), getElem?_replicate, if_pos (by omega)]
    rfl
  · rw [getElem?_append_right (by simp; omega), getElem?_drop]
    congr 2
    simp
    omega

theorem Buffer.copyFrom_get (b : Buffer n) (source : List UInt8) {i : Nat} (hi : i < n) :
    (b.copyFrom source).get i = source.getD i (b.get i) := by
  have hb := b.length_eq
  simp only [Buffer.get, Buffer.copyFrom, getD_eq_getElem?_getD]
  rw [getElem?_take_of_lt hi]
  by_cases h : i < source.length
  · rw [getElem?_append_left h, getElem?_eq_getElem h]
    rfl
  · rw [getElem?_append_right (by omega), getElem?_drop,
      getElem?_eq_none (l := source) (by omega), Nat.add_sub_cancel' (by omega)]
    rfl

theorem Buffer.patch_get (b : Buffer n) (offset : Nat) (source : List UInt8) {i : Nat} (hi : i < n) :
    (b.patch offset source).get i =
      if offset ≤ i then source.getD (i - offset) (b.get i) else b.get i := by
  have hb := b.length_eq
  simp only [Buffer.get, Buffer.patch, getD_eq_getElem?_getD, getElem?_mapIdx,
    getElem?_eq_getElem (show i < b.bytes.length by omega), Option.map_some, Option.getD_some]

def Buffer.patchAll (b : Buffer n) (patches : List (Nat × List UInt8)) : Buffer n :=
  patches.foldl (fun b patch => b.patch patch.1 patch.2) b

theorem Buffer.patchAll_get (target : Nat → UInt8) (b : Buffer n) {patches : List (Nat × List UInt8)}
    (h : ∀ patch ∈ patches, ∀ j byte, patch.2[j]? = some byte → byte = target (patch.1 + j)) {i : Nat}
    (hi : i < n) : (b.patchAll patches).get i =
      if ∃ patch ∈ patches, patch.1 ≤ i ∧ i < patch.1 + patch.2.length then target i else b.get i := by
  induction patches generalizing b with
  | nil => exact (if_neg (fun hnone => by simp at hnone)).symm
  | cons patch patches ih =>
    have hrest := ih (b.patch patch.1 patch.2) fun other hother => h other (mem_cons_of_mem _ hother)
    change ((b.patch patch.1 patch.2).patchAll patches).get i = _
    rw [hrest]
    by_cases hlater : ∃ patch ∈ patches, patch.1 ≤ i ∧ i < patch.1 + patch.2.length
    · obtain ⟨other, hother, hin⟩ := hlater
      rw [if_pos ⟨other, hother, hin⟩, if_pos ⟨other, mem_cons_of_mem _ hother, hin⟩]
    rw [if_neg hlater, Buffer.patch_get _ _ _ hi]
    by_cases hhere : patch.1 ≤ i ∧ i < patch.1 + patch.2.length
    · have hlt : i - patch.1 < patch.2.length := by omega
      have hbyte := h patch mem_cons_self (i - patch.1) _ (getElem?_eq_getElem hlt)
      rw [if_pos hhere.1, if_pos ⟨patch, mem_cons_self, hhere⟩, getD_eq_getElem _ _ hlt, hbyte,
        Nat.add_sub_cancel' hhere.1]
    · have hnone : ¬∃ other ∈ patch :: patches, other.1 ≤ i ∧ i < other.1 + other.2.length := by
        rintro ⟨other, hother, hin⟩
        rcases mem_cons.mp hother with rfl | hother
        · exact hhere hin
        · exact hlater ⟨other, hother, hin⟩
      rw [if_neg hnone]
      split
      · rw [getD_eq_getElem?_getD, getElem?_eq_none (by omega)]
        rfl
      · rfl

theorem Accesses.erasePieces_covers (m : Accesses) (area : Area) (len i : Nat) :
    (∃ piece ∈ m.erasePieces area len, piece.1 ≤ i ∧ i < piece.1 + piece.2) ↔ i < len := by
  have haligned := m.aligned area len
  simp only [erasePieces, mem_append, mem_map, mem_range]
  constructor
  · rintro ⟨piece, (⟨j, hj, rfl⟩ | ⟨j, hj, rfl⟩) | ⟨j, hj, rfl⟩, hle, hlt⟩ <;>
      omega
  · intro hi
    by_cases hhead : i < (m.alignTo area len).1
    · exact ⟨(i, 1), .inl (.inl ⟨i, hhead, rfl⟩), Nat.le_refl i, Nat.lt_succ_self i⟩
    by_cases hwords : i < (m.alignTo area len).1 + 8 * (m.alignTo area len).2
    · refine ⟨_, .inr ⟨(i - (m.alignTo area len).1) / 8, ?_, rfl⟩, ?_, ?_⟩ <;> omega
    · refine ⟨_, .inl (.inr ⟨i - ((m.alignTo area len).1 + 8 * (m.alignTo area len).2), ?_, rfl⟩),
        ?_, ?_⟩ <;> omega

theorem Buffer.patchAll_erase (b : Buffer n) (area : Area) (len : Nat) :
    b.patchAll ((m.erasePieces area len).map fun piece => (piece.1, replicate piece.2 0)) =
      b.erase len := by
  refine Buffer.eq_of_get fun i hi => ?_
  have hcovers := m.erasePieces_covers area len i
  rw [Buffer.patchAll_get (fun _ => 0) b ?_ hi, Buffer.erase_get b len hi]
  · simp only [mem_map, exists_exists_and_eq_and, length_replicate, hcovers]
  · rintro patch hpatch j byte hbyte
    obtain ⟨piece, -, rfl⟩ := mem_map.mp hpatch
    exact eq_of_mem_replicate (mem_of_getElem? hbyte)

theorem Buffer.patchAll_copy (b : Buffer n) (area : Area) (source : List UInt8) :
    b.patchAll ((m.copyPieces area source.length).map fun piece =>
      (piece.1, (source.drop piece.1).take piece.2)) = b.copyFrom source := by
  refine Buffer.eq_of_get fun i hi => ?_
  have hcopies := m.copies area source.length i
  rw [Buffer.patchAll_get (fun i => source.getD i 0) b ?_ hi, Buffer.copyFrom_get b source hi]
  · simp only [mem_map, exists_exists_and_eq_and, length_take, length_drop]
    by_cases hlt : i < source.length
    · obtain ⟨piece, hpiece, hle, hin⟩ := hcopies.mp hlt
      rw [if_pos ⟨piece, hpiece, hle, by omega⟩, getD_eq_getElem _ _ hlt,
        getD_eq_getElem _ _ hlt]
    · rw [if_neg (by rintro ⟨piece, -, hle, hin⟩; omega), getD_eq_getElem?_getD,
        getElem?_eq_none (by omega)]
      rfl
  · rintro patch hpatch j byte hbyte
    obtain ⟨piece, -, rfl⟩ := mem_map.mp hpatch
    dsimp only at hbyte ⊢
    have hj : j < piece.2 := by
      have hlt := (List.getElem?_eq_some_iff.mp hbyte).1
      rw [length_take] at hlt
      omega
    rw [getElem?_take_of_lt hj, getElem?_drop] at hbyte
    rw [getD_eq_getElem?_getD, hbyte]
    rfl

theorem SessionSlot.applyAll_append (s : SessionSlot g) (first second : List SlotStore) :
    s.applyAll (first ++ second) = (s.applyAll first).applyAll second :=
  foldl_append

theorem SessionSlot.applyAll_domain (s : SessionSlot g) (patches : List (Nat × List UInt8)) :
    s.applyAll (patches.map fun patch => .bytes .domain patch.1 patch.2) =
      { s with domain := s.domain.patchAll patches } := by
  induction patches generalizing s with
  | nil => rfl
  | cons patch patches ih => exact ih _

theorem SessionSlot.applyAll_key (s : SessionSlot g) (patches : List (Nat × List UInt8)) :
    s.applyAll (patches.map fun patch => .bytes .key patch.1 patch.2) =
      { s with key := s.key.patchAll patches } := by
  induction patches generalizing s with
  | nil => rfl
  | cons patch patches ih => exact ih _

theorem SessionSlot.applyAll_value (s : SessionSlot g) (patches : List (Nat × List UInt8)) :
    s.applyAll (patches.map fun patch => .bytes .value patch.1 patch.2) =
      { s with value := s.value.patchAll patches } := by
  induction patches generalizing s with
  | nil => rfl
  | cons patch patches ih => exact ih _

theorem eraseStores_eq (area : Area) (len : Nat) : eraseStores m area len =
    ((m.erasePieces area len).map fun piece => (piece.1, replicate piece.2 0)).map
      fun patch => .bytes area patch.1 patch.2 := by
  rw [map_map]
  rfl

theorem copyStores_eq (area : Area) (source : List UInt8) : copyStores m area source =
    ((m.copyPieces area source.length).map fun piece =>
      (piece.1, (source.drop piece.1).take piece.2)).map fun patch => .bytes area patch.1 patch.2 := by
  rw [map_map]
  rfl

theorem SessionSlot.applyAll_empty (s : SessionSlot g) (domain key value : Nat) :
    s.applyAll (emptyStores m domain key value) =
      ({ s with domain := s.domain.erase domain, key := s.key.erase key,
                value := s.value.erase value } : SessionSlot g).forget := by
  rw [emptyStores, SessionSlot.applyAll_append, SessionSlot.applyAll_append,
    SessionSlot.applyAll_append, eraseStores_eq, eraseStores_eq, eraseStores_eq,
    SessionSlot.applyAll_domain, SessionSlot.applyAll_key, SessionSlot.applyAll_value,
    Buffer.patchAll_erase, Buffer.patchAll_erase, Buffer.patchAll_erase]
  rfl

theorem SessionSlot.applyAll_between (s : SessionSlot g) (state : SlotState) (stores : List SlotStore) :
    s.applyAll (between state stores) =
      { ({ s with state := .writing } : SessionSlot g).applyAll stores with state } :=
  SessionSlot.applyAll_append _ stores [.state state]

theorem SessionSlot.applyAll_clear (s : SessionSlot g) : s.applyAll (clearStores m g) = s.clear := by
  rw [clearStores, SessionSlot.applyAll_between, SessionSlot.applyAll_empty]
  rfl

theorem SessionSlot.applyAll_release (s : SessionSlot g) :
    s.applyAll (s.releaseStores m) = s.release := by
  unfold SessionSlot.releaseStores SessionSlot.release
  split
  · rfl
  cases s.extents with
  | none => exact s.applyAll_clear
  | some extents =>
    dsimp only
    rw [SessionSlot.applyAll_between, SessionSlot.applyAll_empty]
    rfl

theorem SessionSlot.applyAll_write (s : SessionSlot g) (hash : Nat) (domain key value : List UInt8)
    (inserted expires : Nat) :
    s.applyAll (s.writeStores m hash domain key value inserted expires) =
      s.write hash domain key value inserted expires := by
  rw [SessionSlot.writeStores, SessionSlot.applyAll_append, SessionSlot.applyAll_release,
    SessionSlot.applyAll_between, SessionSlot.applyAll_append, SessionSlot.applyAll_append,
    SessionSlot.applyAll_append, copyStores_eq, copyStores_eq, copyStores_eq,
    SessionSlot.applyAll_domain, SessionSlot.applyAll_key, SessionSlot.applyAll_value,
    Buffer.patchAll_copy, Buffer.patchAll_copy, Buffer.patchAll_copy]
  rfl

/-- A slot that holds this entry and nothing else. -/
def SessionSlot.filled (g : Sizes) (hash : Nat) (domain key value : List UInt8)
    (insertedAtMs expiresAtMs : Nat) : SessionSlot g where
  state := .occupied
  domainLen := domain.length % 2 ^ 8
  keyLen := key.length % 2 ^ 8
  valueLen := value.length % 2 ^ 32
  keyHash := hash
  insertedAtMs
  expiresAtMs
  domain := (Buffer.zero _).copyFrom domain
  key := (Buffer.zero _).copyFrom key
  value := (Buffer.zero _).copyFrom value

/-- A free slot is zero all over, and an occupied one outside its entry. -/
structure SessionSlot.Clean (s : SessionSlot g) : Prop where
  empty : s.state = .empty → s = .empty
  occupied : s.state = .occupied → ∃ hash domain key value insertedAtMs expiresAtMs,
    entryFits g domain key value = true ∧
      s = .filled g hash domain key value insertedAtMs expiresAtMs

theorem SessionSlot.clean_empty : (SessionSlot.empty : SessionSlot g).Clean where
  empty _ := rfl
  occupied h := by cases h

theorem SessionSlot.clean_writing {s : SessionSlot g} (h : s.state = .writing) : s.Clean where
  empty hempty := by
    rw [h] at hempty
    cases hempty
  occupied hoccupied := by
    rw [h] at hoccupied
    cases hoccupied

theorem SessionSlot.clean_filled (hfits : entryFits g domain key value = true)
    (hash inserted expires : Nat) :
    (SessionSlot.filled g hash domain key value inserted expires).Clean where
  empty h := by cases h
  occupied _ := ⟨hash, domain, key, value, inserted, expires, hfits, rfl⟩

theorem Buffer.erase_all (b : Buffer n) : b.erase n = .zero n :=
  Buffer.eq_of_get fun i hi => by rw [Buffer.erase_get b n hi, if_pos hi, Buffer.zero_get]

theorem Buffer.erase_copyFrom {source : List UInt8} {len : Nat} (h : len = source.length) :
    ((Buffer.zero n).copyFrom source).erase len = .zero n := by
  refine Buffer.eq_of_get fun i hi => ?_
  rw [Buffer.erase_get _ _ hi, Buffer.zero_get]
  split
  · rfl
  · rw [Buffer.copyFrom_get _ _ hi, Buffer.zero_get, getD_eq_default]
    omega

theorem SessionSlot.clear_eq (s : SessionSlot g) : s.clear = .empty := by
  rw [SessionSlot.clear, Buffer.erase_all, Buffer.erase_all, Buffer.erase_all]
  rfl

theorem fits_lengths (hfits : entryFits g domain key value = true) :
    domain.length % 2 ^ 8 = domain.length ∧ key.length % 2 ^ 8 = key.length ∧
      value.length % 2 ^ 32 = value.length := by
  obtain ⟨⟨-, hdomain⟩, ⟨-, hkey⟩, -, hvalue⟩ := entryFits_iff.mp hfits
  have hd := g.domain_fits
  have hk := g.key_fits
  have hv := g.value_fits
  exact ⟨Nat.mod_eq_of_lt (by omega), Nat.mod_eq_of_lt (by omega), Nat.mod_eq_of_lt (by omega)⟩

theorem SessionSlot.filled_extents (hfits : entryFits g domain key value = true)
    (hash inserted expires : Nat) :
    (SessionSlot.filled g hash domain key value inserted expires).extents =
      some (domain.length, key.length, value.length) := by
  obtain ⟨hdlen, hklen, hvlen⟩ := fits_lengths hfits
  obtain ⟨⟨hdomain, hdmax⟩, ⟨hkey, hkmax⟩, hvalue, hvmax⟩ := entryFits_iff.mp hfits
  have hd := length_pos_of_ne_nil hdomain
  have hk := length_pos_of_ne_nil hkey
  have hv := length_pos_of_ne_nil hvalue
  rw [SessionSlot.extents, SessionSlot.filled]
  dsimp only
  rw [if_neg (fun h => h rfl), hdlen, hklen, hvlen, if_pos ⟨⟨hd, hdmax⟩, ⟨hk, hkmax⟩, hv, hvmax⟩]

theorem SessionSlot.Clean.release {s : SessionSlot g} (h : s.Clean) : s.release = .empty := by
  cases hstate : s.state with
  | empty =>
    rw [SessionSlot.release, if_pos hstate]
    exact h.empty hstate
  | writing =>
    have hextents : s.extents = none := by
      rw [SessionSlot.extents, hstate, if_pos (fun h => by cases h)]
    rw [SessionSlot.release, hstate, if_neg (fun h => by cases h), hextents]
    exact s.clear_eq
  | occupied =>
    obtain ⟨hash, domain, key, value, inserted, expires, hfits, rfl⟩ := h.occupied hstate
    obtain ⟨hdlen, hklen, hvlen⟩ := fits_lengths hfits
    rw [SessionSlot.release, hstate, if_neg (fun h => by cases h),
      SessionSlot.filled_extents hfits]
    simp only [SessionSlot.filled, Buffer.erase_copyFrom]
    rfl

theorem SessionSlot.Clean.write {s : SessionSlot g} (h : s.Clean) (hash : Nat)
    (domain key value : List UInt8) (inserted expires : Nat) :
    s.write hash domain key value inserted expires =
      .filled g hash domain key value inserted expires := by
  rw [SessionSlot.write, h.release]
  rfl

theorem SessionSlot.Clean.outside {s : SessionSlot g} (h : s.Clean) (hstate : s.state = .occupied) :
    s.extents = some (s.domainLen, s.keyLen, s.valueLen) ∧
      (∀ i, s.domainLen ≤ i → s.domain.get i = 0) ∧ (∀ i, s.keyLen ≤ i → s.key.get i = 0) ∧
        ∀ i, s.valueLen ≤ i → s.value.get i = 0 := by
  obtain ⟨hash, domain, key, value, inserted, expires, hfits, rfl⟩ := h.occupied hstate
  obtain ⟨hdlen, hklen, hvlen⟩ := fits_lengths hfits
  have hcopied : ∀ {n : Nat} (source : List UInt8) (i : Nat), source.length ≤ i →
      ((Buffer.zero n).copyFrom source).get i = 0 := by
    intro n source i hle
    by_cases hi : i < n
    · rw [Buffer.copyFrom_get _ _ hi, Buffer.zero_get, getD_eq_default _ _ hle]
    · exact Buffer.get_of_le _ (by omega)
  refine ⟨?_, fun i hi => hcopied domain i ?_, fun i hi => hcopied key i ?_,
    fun i hi => hcopied value i ?_⟩
  · rw [SessionSlot.filled_extents hfits, SessionSlot.filled, hdlen, hklen, hvlen]
  · rwa [SessionSlot.filled, hdlen] at hi
  · rwa [SessionSlot.filled, hklen] at hi
  · rwa [SessionSlot.filled, hvlen] at hi

end OrbitSession
