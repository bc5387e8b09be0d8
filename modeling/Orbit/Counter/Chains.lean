import Orbit.Counter.Bounded

/-! Probe chains: where the slot of a key is, and the map that the slots of a table stand for. -/

namespace OrbitCounter

open Orbit.Atomic Function Finset

variable {g : Geometry} {slots slots' : Slots} {counts : Counts} {key : Key} {hash : UInt64}
  {i offset : Nat} {value : Int64}

theorem Geometry.capacity_pos (g : Geometry) : 0 < g.capacity := by
  rw [eq_of_beq g.capacity_pow]
  exact Nat.two_pow_pos _

theorem probeIndex_eq (g : Geometry) (hash : UInt64) (offset : Nat) :
    probeIndex hash offset g.capacity = (hash.toNat + offset) % g.capacity :=
  mask_count g.capacity_pow g.capacity_le _

theorem probeIndex_lt (g : Geometry) (hash : UInt64) (offset : Nat) :
    probeIndex hash offset g.capacity < g.capacity := by
  rw [probeIndex_eq]
  exact Nat.mod_lt _ g.capacity_pos

theorem exists_probeIndex (hash : UInt64) (hi : i < g.capacity) :
    ∃ offset < g.capacity, probeIndex hash offset g.capacity = i := by
  have hmod : hash.toNat % g.capacity < g.capacity := Nat.mod_lt _ g.capacity_pos
  refine ⟨(i + (g.capacity - hash.toNat % g.capacity)) % g.capacity,
    Nat.mod_lt _ g.capacity_pos, ?_⟩
  have hsum : hash.toNat % g.capacity + (i + (g.capacity - hash.toNat % g.capacity)) =
      i + g.capacity := by omega
  rw [probeIndex_eq, Nat.add_mod_mod, ← Nat.mod_add_mod, hsum, Nat.add_mod_right,
    Nat.mod_eq_of_lt hi]

def Slot.keyOf (slot : Slot) : Key := (List.range slot.keyLen.toNat).map slot.key

theorem keyOf_length (slot : Slot) : slot.keyOf.length = slot.keyLen.toNat := by
  rw [Slot.keyOf, List.length_map, List.length_range]

theorem keyOf_getD (slot : Slot) {j : Nat} (hj : j < slot.keyLen.toNat) :
    slot.keyOf.getD j 0 = slot.key j := by
  simp [Slot.keyOf, List.getD, hj]

theorem keyOf_eq {slot : Slot} (hlen : slot.keyLen.toNat = key.length)
    (hbytes : ∀ j < key.length, slot.key j = key.getD j 0) : slot.keyOf = key := by
  apply List.ext_getElem
  · rw [keyOf_length, hlen]
  · intro j h1 h2
    have hj := hbytes j h2
    simpa [Slot.keyOf, List.getD, h2] using hj

/-- The fields that `install` writes once stay as they are. -/
structure SameKey (slot slot' : Slot) : Prop where
  hash : slot'.keyHash = slot.keyHash
  len : slot'.keyLen = slot.keyLen
  key : slot'.key = slot.key

theorem SameKey.refl (slot : Slot) : SameKey slot slot := ⟨rfl, rfl, rfl⟩

theorem SameKey.keyOf {slot slot' : Slot} (h : SameKey slot slot') : slot'.keyOf = slot.keyOf := by
  rw [Slot.keyOf, Slot.keyOf, h.len, h.key]

def Passed (g : Geometry) (slots : Slots) (key : Key) (offset : Nat) : Prop :=
  ∀ o < offset, (slots (probeIndex (counterHash key) o g.capacity)).state = slotOccupied ∧
    (slots (probeIndex (counterHash key) o g.capacity)).keyOf ≠ key

/-- The table without a half-written slot: an occupied slot has the hash of its key, and is the
first along the chain of its key that no other key took. -/
structure Chained (g : Geometry) (slots : Slots) : Prop where
  state : ∀ i, (slots i).state = slotEmpty ∨ (slots i).state = slotOccupied
  hash : ∀ i < g.capacity, (slots i).state = slotOccupied →
    (slots i).keyHash = counterHash (slots i).keyOf
  passed : ∀ i < g.capacity, (slots i).state = slotOccupied →
    ∃ offset < g.capacity, probeIndex (counterHash (slots i).keyOf) offset g.capacity = i ∧
      Passed g slots (slots i).keyOf offset

/-- The map that the slots stand for. -/
structure Represents (g : Geometry) (slots : Slots) (counts : Counts) : Prop where
  value : ∀ i < g.capacity, (slots i).state = slotOccupied →
    counts.lookup (slots i).keyOf = some (slots i).value
  slot : ∀ key ∈ counts, ∃ i < g.capacity, (slots i).state = slotOccupied ∧ (slots i).keyOf = key

/-- The slot of a key. -/
structure Installed (g : Geometry) (slots : Slots) (key : Key) (i : Nat) : Prop where
  lt : i < g.capacity
  state : (slots i).state = slotOccupied
  key : (slots i).keyOf = key

theorem slotOccupied_ne : slotOccupied ≠ slotEmpty := by decide

theorem Chained.unique (h : Chained g slots) {i j : Nat} (hi : Installed g slots key i)
    (hj : Installed g slots key j) : i = j := by
  obtain ⟨o, -, hoi, hpassed⟩ := h.passed i hi.lt hi.state
  obtain ⟨o', -, hoj, hpassed'⟩ := h.passed j hj.lt hj.state
  rw [hi.key] at hoi hpassed
  rw [hj.key] at hoj hpassed'
  rcases Nat.lt_trichotomy o o' with hlt | heq | hlt
  · exact absurd (by rw [hoi]; exact hi.key) (hpassed' o hlt).2
  · rw [← hoi, ← hoj, heq]
  · exact absurd (by rw [hoj]; exact hj.key) (hpassed o' hlt).2

theorem Chained.not_installed (h : Chained g slots) (hpassed : Passed g slots key offset)
    (hempty : (slots (probeIndex (counterHash key) offset g.capacity)).state = slotEmpty) :
    ¬Installed g slots key i := by
  intro hi
  obtain ⟨o, -, hoi, hpassed'⟩ := h.passed i hi.lt hi.state
  rw [hi.key] at hoi hpassed'
  rcases Nat.lt_trichotomy o offset with hlt | rfl | hlt
  · exact absurd (by rw [hoi]; exact hi.key) (hpassed o hlt).2
  · rw [hoi, hi.state] at hempty
    exact slotOccupied_ne hempty
  · rw [(hpassed' offset hlt).1] at hempty
    exact slotOccupied_ne hempty

theorem Passed.not_installed (h : Passed g slots key g.capacity) : ¬Installed g slots key i := by
  intro hi
  obtain ⟨o, hlt, hoi⟩ := exists_probeIndex (counterHash key) hi.lt
  exact absurd (by rw [hoi]; exact hi.key) (h o hlt).2

theorem Passed.occupied (h : Passed g slots key g.capacity) (hi : i < g.capacity) :
    (slots i).state = slotOccupied := by
  obtain ⟨o, hlt, hoi⟩ := exists_probeIndex (counterHash key) hi
  rw [← hoi]
  exact (h o hlt).1

theorem Passed.zero : Passed g slots key 0 := fun _ h => absurd h (Nat.not_lt_zero _)

theorem Passed.succ (h : Passed g slots key offset)
    (hstate : (slots (probeIndex (counterHash key) offset g.capacity)).state = slotOccupied)
    (hne : (slots (probeIndex (counterHash key) offset g.capacity)).keyOf ≠ key) :
    Passed g slots key (offset + 1) := by
  intro o ho
  rcases Nat.lt_succ_iff_lt_or_eq.mp ho with hlt | rfl
  · exact h o hlt
  · exact ⟨hstate, hne⟩

namespace Represents

theorem lookup (h : Represents g slots counts) (hi : Installed g slots key i) :
    counts.lookup key = some (slots i).value := by
  rw [← hi.key]
  exact h.value i hi.lt hi.state

theorem absent (h : Represents g slots counts) (hno : ∀ i, ¬Installed g slots key i) :
    counts.lookup key = none := by
  rw [Finmap.lookup_eq_none]
  intro hmem
  obtain ⟨i, hlt, hstate, hkey⟩ := h.slot key hmem
  exact hno i ⟨hlt, hstate, hkey⟩

def occupied (g : Geometry) (slots : Slots) : Finset Nat :=
  (range g.capacity).filter fun i => (slots i).state = slotOccupied

theorem card_eq (hchained : Chained g slots) (h : Represents g slots counts) :
    counts.keys.card = (occupied g slots).card := by
  have hkeys : counts.keys = (occupied g slots).image fun i => (slots i).keyOf := by
    ext key
    rw [Finmap.mem_keys, mem_image]
    constructor
    · intro hmem
      obtain ⟨i, hlt, hstate, hkey⟩ := h.slot key hmem
      exact ⟨i, mem_filter.mpr ⟨mem_range.mpr hlt, hstate⟩, hkey⟩
    · rintro ⟨i, hmem, rfl⟩
      obtain ⟨hlt, hstate⟩ := mem_filter.mp hmem
      exact Finmap.mem_of_lookup_eq_some (h.value i (mem_range.mp hlt) hstate)
  rw [hkeys]
  apply card_image_of_injOn
  intro i hi j hj heq
  obtain ⟨hilt, histate⟩ := mem_filter.mp hi
  obtain ⟨hjlt, hjstate⟩ := mem_filter.mp hj
  exact hchained.unique ⟨mem_range.mp hilt, histate, heq⟩
    ⟨mem_range.mp hjlt, hjstate, rfl⟩

theorem card_lt (hchained : Chained g slots) (h : Represents g slots counts) (hi : i < g.capacity)
    (hempty : (slots i).state = slotEmpty) : counts.keys.card < g.capacity := by
  rw [h.card_eq hchained]
  have hsub : occupied g slots ⊂ range g.capacity := by
    apply (ssubset_iff_of_subset (filter_subset _ _)).mpr
    refine ⟨i, mem_range.mpr hi, fun hmem => ?_⟩
    have hstate := (mem_filter.mp hmem).2
    rw [hempty] at hstate
    exact slotOccupied_ne hstate.symm
  simpa using card_lt_card hsub

theorem card_full (hchained : Chained g slots) (h : Represents g slots counts)
    (hpassed : Passed g slots key g.capacity) : g.capacity ≤ counts.keys.card := by
  rw [h.card_eq hchained]
  have hall : occupied g slots = range g.capacity :=
    filter_true_of_mem fun i hi => hpassed.occupied (mem_range.mp hi)
  rw [hall, card_range]

theorem init : Represents g (fun _ => Slot.empty) ∅ where
  value _ _ h := absurd h.symm slotOccupied_ne
  slot _ h := absurd h Finmap.notMem_empty

end Represents

theorem Chained.init : Chained g (fun _ => Slot.empty) where
  state _ := .inl rfl
  hash _ _ h := absurd h.symm slotOccupied_ne
  passed _ _ h := absurd h.symm slotOccupied_ne

/-- Occupied slots stay, with their keys. -/
def Keeps (slots slots' : Slots) : Prop :=
  ∀ i, (slots i).state = slotOccupied →
    (slots' i).state = slotOccupied ∧ SameKey (slots i) (slots' i)

theorem Keeps.refl (slots : Slots) : Keeps slots slots := fun _ h => ⟨h, .refl _⟩

theorem Keeps.installed (h : Keeps slots slots') (hi : Installed g slots key i) :
    Installed g slots' key i :=
  ⟨hi.lt, (h i hi.state).1, (h i hi.state).2.keyOf.trans hi.key⟩

theorem Keeps.passed (h : Keeps slots slots') (hpassed : Passed g slots key offset) :
    Passed g slots' key offset := by
  intro o ho
  obtain ⟨hstate, hne⟩ := hpassed o ho
  obtain ⟨hstate', hsame⟩ := h _ hstate
  exact ⟨hstate', by rw [hsame.keyOf]; exact hne⟩

section

variable {slot : Slot}

theorem update_self : update slots i slot i = slot := Function.update_self ..

theorem update_other {j : Nat} (h : j ≠ i) : update slots i slot j = slots j :=
  update_of_ne h ..

theorem keeps_setValue (slots : Slots) (i : Nat) (value : Int64) :
    Keeps slots (slots.setValue i value) := by
  intro j hj
  by_cases h : j = i
  · subst h
    rw [Slots.setValue, update_self]
    exact ⟨hj, rfl, rfl, rfl⟩
  · rw [Slots.setValue, update_other h]
    exact ⟨hj, .refl _⟩

theorem keeps_update (hempty : (slots i).state = slotEmpty) :
    Keeps slots (update slots i slot) := by
  intro j hj
  have h : j ≠ i := by
    rintro rfl
    rw [hj] at hempty
    exact slotOccupied_ne hempty
  rw [update_other h]
  exact ⟨hj, .refl _⟩

end

theorem Chained.setValue (h : Chained g slots) (i : Nat) (value : Int64) :
    Chained g (slots.setValue i value) := by
  have hsame : ∀ j, (slots.setValue i value j).state = (slots j).state ∧
      SameKey (slots j) (slots.setValue i value j) := by
    intro j
    by_cases hj : j = i
    · subst hj
      rw [Slots.setValue, update_self]
      exact ⟨rfl, rfl, rfl, rfl⟩
    · rw [Slots.setValue, update_other hj]
      exact ⟨rfl, .refl _⟩
  constructor
  · intro j
    rw [(hsame j).1]
    exact h.state j
  · intro j hlt hstate
    rw [(hsame j).1] at hstate
    rw [(hsame j).2.hash, (hsame j).2.keyOf]
    exact h.hash j hlt hstate
  · intro j hlt hstate
    rw [(hsame j).1] at hstate
    rw [(hsame j).2.keyOf]
    obtain ⟨offset, ho, hindex, hpassed⟩ := h.passed j hlt hstate
    exact ⟨offset, ho, hindex, (keeps_setValue slots i value).passed hpassed⟩

theorem Represents.setValue (hchained : Chained g slots) (h : Represents g slots counts)
    (hi : Installed g slots key i) (value : Int64) :
    Represents g (slots.setValue i value) (counts.insert key value) := by
  constructor
  · intro j hlt hstate
    by_cases hj : j = i
    · subst hj
      rw [Slots.setValue, update_self]
      have hkey : ({ slots j with value } : Slot).keyOf = key := hi.key
      rw [hkey, Finmap.lookup_insert]
    · rw [Slots.setValue, update_other hj] at hstate ⊢
      have hne : (slots j).keyOf ≠ key := by
        intro heq
        exact hj (hchained.unique ⟨hlt, hstate, heq⟩ hi)
      rw [Finmap.lookup_insert_of_ne _ hne]
      exact h.value j hlt hstate
  · intro key' hmem
    rcases Finmap.mem_insert.mp hmem with rfl | hmem
    · have hi' := (keeps_setValue slots i value).installed hi
      exact ⟨i, hi'.lt, hi'.state, hi'.key⟩
    · obtain ⟨j, hlt, hstate, hkey⟩ := h.slot key' hmem
      have hj := (keeps_setValue slots i value).installed ⟨hlt, hstate, hkey⟩
      exact ⟨j, hj.lt, hj.state, hj.key⟩

section

variable {slot : Slot} (hempty : (slots i).state = slotEmpty)
include hempty

theorem Chained.scratch (h : Chained g slots) (hslot : slot.state = slotEmpty) :
    Chained g (update slots i slot) := by
  constructor
  · intro j
    by_cases hj : j = i
    · subst hj
      rw [update_self]
      exact .inl hslot
    · rw [update_other hj]
      exact h.state j
  all_goals
    intro j hlt hstate
    have hj : j ≠ i := by
      rintro rfl
      rw [update_self, hslot] at hstate
      exact slotOccupied_ne hstate.symm
    rw [update_other hj] at hstate ⊢
  · exact h.hash j hlt hstate
  · obtain ⟨offset, ho, hindex, hpassed⟩ := h.passed j hlt hstate
    exact ⟨offset, ho, hindex, (keeps_update hempty).passed hpassed⟩

theorem Represents.scratch (h : Represents g slots counts) (hslot : slot.state = slotEmpty) :
    Represents g (update slots i slot) counts := by
  constructor
  · intro j hlt hstate
    have hj : j ≠ i := by
      rintro rfl
      rw [update_self, hslot] at hstate
      exact slotOccupied_ne hstate.symm
    rw [update_other hj] at hstate ⊢
    exact h.value j hlt hstate
  · intro key hmem
    obtain ⟨j, hlt, hstate, hkey⟩ := h.slot key hmem
    have hj : Installed g (update slots i slot) key j :=
      (keeps_update hempty).installed ⟨hlt, hstate, hkey⟩
    exact ⟨j, hj.lt, hj.state, hj.key⟩

variable (hslot : slot.state = slotOccupied) (hkey : slot.keyOf = key)
include hslot hkey

theorem Chained.publish (h : Chained g slots) (hhash : slot.keyHash = counterHash key)
    (hoffset : offset < g.capacity) (hpassed : Passed g slots key offset)
    (hindex : probeIndex (counterHash key) offset g.capacity = i) :
    Chained g (update slots i slot) := by
  have hkeeps : Keeps slots (update slots i slot) := keeps_update hempty
  constructor
  · intro j
    by_cases hj : j = i
    · subst hj
      rw [update_self]
      exact .inr hslot
    · rw [update_other hj]
      exact h.state j
  · intro j hlt hstate
    by_cases hj : j = i
    · subst hj
      rw [update_self, hkey]
      exact hhash
    · rw [update_other hj] at hstate ⊢
      exact h.hash j hlt hstate
  · intro j hlt hstate
    by_cases hj : j = i
    · subst hj
      rw [update_self, hkey]
      exact ⟨offset, hoffset, hindex, hkeeps.passed hpassed⟩
    · rw [update_other hj] at hstate ⊢
      obtain ⟨offset', ho, hindex', hpassed'⟩ := h.passed j hlt hstate
      exact ⟨offset', ho, hindex', hkeeps.passed hpassed'⟩

theorem Represents.publish (h : Represents g slots counts) (hlt : i < g.capacity)
    (hno : ∀ j, ¬Installed g slots key j) :
    Represents g (update slots i slot) (counts.insert key slot.value) := by
  constructor
  · intro j hjlt hstate
    by_cases hj : j = i
    · subst hj
      rw [update_self, hkey, Finmap.lookup_insert]
    · rw [update_other hj] at hstate ⊢
      have hne : (slots j).keyOf ≠ key := fun heq => hno j ⟨hjlt, hstate, heq⟩
      rw [Finmap.lookup_insert_of_ne _ hne]
      exact h.value j hjlt hstate
  · intro key' hmem
    rcases Finmap.mem_insert.mp hmem with rfl | hmem
    · refine ⟨i, hlt, ?_, ?_⟩
      · rw [update_self]
        exact hslot
      · rw [update_self]
        exact hkey
    · obtain ⟨j, hjlt, hstate, hkey'⟩ := h.slot key' hmem
      have hj : Installed g (update slots i slot) key' j :=
        (keeps_update hempty).installed ⟨hjlt, hstate, hkey'⟩
      exact ⟨j, hj.lt, hj.state, hj.key⟩

end

end OrbitCounter
