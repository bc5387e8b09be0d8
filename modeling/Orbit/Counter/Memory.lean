import Orbit.Counter.Chains

/-! The in-memory backend computes the results of the bounded map. -/

namespace OrbitCounter

open Orbit.Atomic List

variable {g : Geometry} {slots : Slots} {counts : Counts} {key : Key} {i : Nat}

theorem validateKey_ok (h : validateKey g key = .ok ()) :
    0 < key.length ∧ key.length ≤ g.keyMax := by
  unfold validateKey at h
  split at h
  · cases h
  rename_i hne
  split at h
  · cases h
  · rw [List.isEmpty_iff] at hne
    exact ⟨length_pos_iff.mpr hne, by omega⟩

theorem validate_key {request : Request} (h : request.validate g = .ok ()) :
    validateKey g request.key = .ok () := by
  have hboth : ∀ amount key, (do validateAmount amount; validateKey g key : Except Error Unit) =
      .ok () → validateKey g key = .ok () := by
    intro amount key h
    cases hamount : validateAmount amount with
    | error e =>
      rw [hamount] at h
      cases h
    | ok _ =>
      rw [hamount] at h
      exact h
  cases request with
  | get key | reset key => exact h
  | increment key amount | decrement key amount => exact hboth amount key h

theorem keyLen_toNat (h : key.length ≤ g.keyMax) :
    (UInt16.ofNat key.length).toNat = key.length := by
  have hlt := g.keyMax_lt
  exact UInt16.toNat_ofNat_of_lt (show key.length < 2 ^ 16 by omega)

theorem matchesKey_iff (hchained : Chained g slots) (hlt : i < g.capacity)
    (hstate : (slots i).state = slotOccupied) :
    (slots i).matchesKey (counterHash key) key ↔ (slots i).keyOf = key := by
  rw [Slot.matchesKey]
  simp only [Bool.and_eq_true, beq_iff_eq, all_eq_true, mem_range]
  constructor
  · rintro ⟨⟨⟨-, -⟩, hlen⟩, hbytes⟩
    exact keyOf_eq hlen hbytes
  · intro hkey
    have hlen : (slots i).keyLen.toNat = key.length := by rw [← keyOf_length, hkey]
    refine ⟨⟨⟨hstate, ?_⟩, hlen⟩, ?_⟩
    · rw [hchained.hash i hlt hstate, hkey]
    · intro j hj
      rw [← keyOf_getD _ (hlen ▸ hj), hkey]

theorem install_keyOf (slot : Slot) (hash : UInt64) (hlen : key.length ≤ g.keyMax)
    (value : Int64) : (slot.install g hash key value).keyOf = key := by
  apply keyOf_eq
  · exact keyLen_toNat hlen
  · intro j hj
    exact if_pos (by omega)

def Probe.Says (g : Geometry) (slots : Slots) (key : Key) : Probe → Prop
  | .vacant i => (slots i).state = slotEmpty ∧ ∃ offset < g.capacity,
      Passed g slots key offset ∧ probeIndex (counterHash key) offset g.capacity = i
  | .found i => Installed g slots key i
  | .exhausted => Passed g slots key g.capacity

theorem probe_says (hchained : Chained g slots) {n offset : Nat} (hsum : offset + n = g.capacity)
    (hpassed : Passed g slots key offset) :
    (probe g slots (counterHash key) key (range' offset n)).Says g slots key := by
  induction n generalizing offset with
  | zero =>
    have hoffset : offset = g.capacity := hsum
    rw [hoffset] at hpassed
    exact hpassed
  | succ n ih =>
    rw [range'_succ, probe]
    have hlt := probeIndex_lt g (counterHash key) offset
    rcases hchained.state (probeIndex (counterHash key) offset g.capacity) with hstate | hstate
    · rw [if_pos hstate]
      exact ⟨hstate, offset, by omega, hpassed, rfl⟩
    · rw [if_neg (by rw [hstate]; exact slotOccupied_ne)]
      split
      · rename_i hmatch
        exact ⟨hlt, hstate, (matchesKey_iff hchained hlt hstate).mp hmatch.2⟩
      · rename_i hmatch
        apply ih (by omega)
        apply hpassed.succ hstate
        intro hkey
        exact hmatch ⟨hstate, (matchesKey_iff hchained hlt hstate).mpr hkey⟩

theorem probe_range_says (hchained : Chained g slots) (key : Key) :
    (probe g slots (counterHash key) key (range g.capacity)).Says g slots key := by
  rw [range_eq_range']
  exact probe_says hchained (Nat.zero_add _) Passed.zero

/-- The slots of a table between two calls. -/
structure Table (g : Geometry) (slots : Slots) (counts : Counts) : Prop where
  chained : Chained g slots
  represents : Represents g slots counts

theorem Table.init : Table g (fun _ => Slot.empty) ∅ := ⟨.init, .init⟩

namespace Table

variable (h : Table g slots counts)
include h

theorem setValue (hi : Installed g slots key i) (value : Int64) :
    Table g (slots.setValue i value) (counts.insert key value) :=
  ⟨h.chained.setValue i value, h.represents.setValue h.chained hi value⟩

theorem vacant_absent (hvacant : (Probe.vacant i).Says g slots key) :
    counts.lookup key = none ∧ counts.keys.card < g.capacity := by
  obtain ⟨hempty, offset, hlt, hpassed, rfl⟩ := hvacant
  exact ⟨h.represents.absent fun j => h.chained.not_installed hpassed hempty,
    h.represents.card_lt h.chained (probeIndex_lt g _ _) hempty⟩

theorem exhausted_absent (hpassed : Probe.exhausted.Says g slots key) :
    counts.lookup key = none ∧ g.capacity ≤ counts.keys.card :=
  ⟨h.represents.absent fun _ => Passed.not_installed hpassed,
    h.represents.card_full h.chained hpassed⟩

theorem publish {slot : Slot} (hvacant : (Probe.vacant i).Says g slots key)
    (hstate : slot.state = slotOccupied) (hhash : slot.keyHash = counterHash key)
    (hkey : slot.keyOf = key) :
    Table g (Function.update slots i slot) (counts.insert key slot.value) := by
  obtain ⟨hempty, offset, hlt, hpassed, rfl⟩ := hvacant
  exact ⟨h.chained.publish hempty hstate hkey hhash hlt hpassed rfl,
    h.represents.publish hempty hstate hkey (probeIndex_lt g _ _) fun _ =>
      h.chained.not_installed hpassed hempty⟩

theorem install (hvacant : (Probe.vacant i).Says g slots key) (hlen : key.length ≤ g.keyMax)
    (value : Int64) :
    Table g (Function.update slots i ((slots i).install g (counterHash key) key value))
      (counts.insert key value) :=
  h.publish hvacant rfl rfl (install_keyOf _ _ hlen value)

theorem findSlot_value (key : Key) :
    (findSlot g slots (counterHash key) key).map (fun index => (slots index).value) =
      counts.lookup key := by
  have hmeans := probe_range_says h.chained key
  rw [findSlot]
  cases hprobe : probe g slots (counterHash key) key (range g.capacity) with
  | vacant i =>
    rw [hprobe] at hmeans
    exact (h.vacant_absent hmeans).1.symm
  | found i =>
    rw [hprobe] at hmeans
    exact (h.represents.lookup hmeans).symm
  | exhausted =>
    rw [hprobe] at hmeans
    exact (h.exhausted_absent hmeans).1.symm

theorem updateOrInstall (hlen : key.length ≤ g.keyMax) (delta : Int64) :
    Table g (updateOrInstall g slots (counterHash key) key delta).1
        (counts.serve g.capacity key (.update delta)).1 ∧
      (OrbitCounter.updateOrInstall g slots (counterHash key) key delta).2 =
        (counts.serve g.capacity key (.update delta)).2 := by
  have hmeans := probe_range_says h.chained key
  rw [OrbitCounter.updateOrInstall]
  cases hprobe : probe g slots (counterHash key) key (range g.capacity) with
  | vacant i =>
    rw [hprobe] at hmeans
    obtain ⟨habsent, hroom⟩ := h.vacant_absent hmeans
    rw [serve_update_absent habsent, put_absent hroom]
    exact ⟨h.install hmeans hlen delta, rfl⟩
  | found i =>
    rw [hprobe] at hmeans
    rw [serve_update_installed (h.represents.lookup hmeans)]
    dsimp only
    rw [updateValue]
    cases checkedAdd (slots i).value delta with
    | some sum => exact ⟨h.setValue hmeans _, rfl⟩
    | none => exact ⟨h, rfl⟩
  | exhausted =>
    rw [hprobe] at hmeans
    obtain ⟨habsent, hfull⟩ := h.exhausted_absent hmeans
    rw [serve_update_absent habsent, put_full habsent hfull]
    exact ⟨h, rfl⟩

theorem resetOrInstall (hlen : key.length ≤ g.keyMax) :
    Table g (resetOrInstall g slots (counterHash key) key).1
        (counts.serve g.capacity key .clear).1 ∧
      (OrbitCounter.resetOrInstall g slots (counterHash key) key).2 =
        (counts.serve g.capacity key .clear).2 := by
  have hmeans := probe_range_says h.chained key
  rw [OrbitCounter.resetOrInstall, Counts.serve]
  cases hprobe : probe g slots (counterHash key) key (range g.capacity) with
  | vacant i =>
    rw [hprobe] at hmeans
    rw [put_absent (h.vacant_absent hmeans).2]
    exact ⟨h.install hmeans hlen 0, rfl⟩
  | found i =>
    rw [hprobe] at hmeans
    rw [put_installed (h.represents.lookup hmeans)]
    exact ⟨h.setValue hmeans 0, rfl⟩
  | exhausted =>
    rw [hprobe] at hmeans
    obtain ⟨habsent, hfull⟩ := h.exhausted_absent hmeans
    rw [put_full habsent hfull]
    exact ⟨h, rfl⟩

theorem memoryCall (request : Request) :
    Table g (memoryCall g slots request).1 (counts.apply g request).1 ∧
      (OrbitCounter.memoryCall g slots request).2 = (counts.apply g request).2 := by
  rw [OrbitCounter.memoryCall]
  cases hvalid : request.validate g with
  | error e =>
    rw [apply_invalid hvalid]
    exact ⟨h, rfl⟩
  | ok _ =>
    have hlen := (validateKey_ok (validate_key hvalid)).2
    rw [apply_valid hvalid]
    cases request.work with
    | look =>
      dsimp only
      rw [h.findSlot_value]
      exact ⟨h, rfl⟩
    | update delta => exact h.updateOrInstall hlen delta
    | clear => exact h.resetOrInstall hlen

end Table

theorem Table.memoryResults (h : Table g slots counts) (requests : List Request) :
    memoryResults g slots requests = counts.results g requests := by
  induction requests generalizing slots counts with
  | nil => rfl
  | cons request rest ih =>
    obtain ⟨htable, hresult⟩ := h.memoryCall request
    rw [OrbitCounter.memoryResults, Counts.results, hresult, ih htable]

end OrbitCounter
