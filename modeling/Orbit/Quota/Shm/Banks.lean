import Orbit.Quota.Shm.Pins

/-! The descriptors of the slots and their banks: which generation a descriptor names, what its bank
holds, and what a validated pin and a freeze know of it. -/

namespace OrbitQuota.Shm

open Orbit.Atomic Function Option
open Multiset hiding Mem

variable {T : Table}

def Names (mem : Mem Addr) (slot generation : Nat) : Prop :=
  generation ≤ generationMask ∧ (mem (.control slot) = generation ∨
    mem (.control slot) = generation ||| frozenFlag ∨
    mem (.control slot) = generation ||| retiredFlag)

/-- The bank of the identity's generation holds its key and its TAT. -/
structure Stored (mem : Mem Addr) (slot : Nat) (identity : Identity) : Prop where
  namespaceLen : mem (.namespaceLen slot (bankOf identity.generation)) =
    identity.key.namespaceBytes.length
  subjectLen : mem (.subjectLen slot (bankOf identity.generation)) = identity.key.subject.length
  tat : mem (.tat slot (bankOf identity.generation)) = identity.tat
  bytes : ∀ k (hk : k < identity.key.bytes.length),
    mem (.byte slot (bankOf identity.generation) k) = (identity.key.bytes[k]).toNat

/-- The generation of what is in force: 0 before the first identity. -/
def generationOf (identity : Option Identity) : Nat := (identity.map (·.generation)).getD 0

/-- The slot's descriptor names what is in force, and the bank it names holds it. -/
structure Published (mem : Mem Addr) (slot : Nat) (identity : Option Identity) : Prop where
  names : Names mem slot (generationOf identity)
  stored : ∀ id, identity = some id → Stored mem slot id

def Addr.bank : Addr → Option (Nat × Nat)
  | .namespaceLen slot bank | .subjectLen slot bank | .tat slot bank | .byte slot bank _ =>
    some (slot, bank)
  | _ => none

variable {mem : Mem Addr} {slot : Nat}

theorem Names.control_eq {generation other : Nat} (h : Names mem slot generation)
    (hother : other ≤ generationMask)
    (hcontrol : mem (.control slot) = other ∨ mem (.control slot) = other ||| frozenFlag) :
    other = generation := by
  obtain ⟨hle, h⟩ := h
  have hand : ∀ v, v = other ∨ v = other ||| frozenFlag → v &&& generationMask = other := by
    rintro v (rfl | rfl)
    · exact and_generation hother
    · exact frozen_and_generation hother
  have hand' : mem (.control slot) &&& generationMask = generation := by
    rcases h with h | h | h
    · rw [h, and_generation hle]
    · rw [h, frozen_and_generation hle]
    · rw [h, retired_and_generation hle]
  rw [← hand _ hcontrol, hand']

theorem Names.plain {generation control : Nat} (h : Names mem slot generation)
    (hcontrol : mem (.control slot) = control) (hfrozen : control &&& frozenFlag = 0)
    (hretired : control &&& retiredFlag = 0) : control = generation := by
  obtain ⟨hle, h⟩ := h
  rw [hcontrol] at h
  rcases h with h | h | h
  · exact h
  · rw [h, frozen_and_frozen hle] at hfrozen
    cases hfrozen
  · rw [h, retired_and_retired hle] at hretired
    cases hretired

theorem Names.flag {generation other value : Nat} (h : Names mem slot generation)
    (hother : other ≤ generationMask)
    (hcontrol : mem (.control slot) = other ∨ mem (.control slot) = other ||| frozenFlag)
    (hvalue : value = other ∨ value = other ||| frozenFlag ∨ value = other ||| retiredFlag) :
    Names (Function.update mem (.control slot) value) slot generation := by
  obtain rfl := h.control_eq hother hcontrol
  exact ⟨hother, by rwa [update_self]⟩

theorem Stored.update {identity : Identity} (h : Stored mem slot identity) {place : Addr}
    {value : Nat} (hplace : place.bank ≠ some (slot, bankOf identity.generation)) :
    Stored (Function.update mem place value) slot identity := by
  have hkeep : ∀ a : Addr, a.bank = some (slot, bankOf identity.generation) →
      Function.update mem place value a = mem a := by
    intro a ha
    refine update_of_ne ?_ _ _
    rintro rfl
    exact hplace ha
  exact
    { namespaceLen := (hkeep _ rfl).trans h.namespaceLen
      subjectLen := (hkeep _ rfl).trans h.subjectLen
      tat := (hkeep _ rfl).trans h.tat
      bytes := fun k hk => (hkeep _ rfl).trans (h.bytes k hk) }

theorem Stored.charge {identity : Identity} (h : Stored mem slot identity) (tat : Nat) :
    Stored (Function.update mem (.tat slot (bankOf identity.generation)) tat) slot
      { identity with tat } where
  namespaceLen := by
    rw [update_of_ne (by simp)]
    exact h.namespaceLen
  subjectLen := by
    rw [update_of_ne (by simp)]
    exact h.subjectLen
  tat := update_self ..
  bytes k hk := by
    rw [update_of_ne (by simp)]
    exact h.bytes k hk

/-- What a live process that has frozen a slot knows. -/
structure Freeze.Stands (f : Freeze) (T : Table) (number : Nat) (cards : Share) (dead : List Nat)
    (mem : Mem Addr) : Prop where
  shard : T.geometry.shardOf f.index = number
  generation : f.generation ≤ generationMask
  control : mem (.control f.index) = f.generation ||| frozenFlag
  scanned : ∀ p, .held p ∈ cards → p.handle.process ∉ dead → p.index = f.index →
    f.scanned ≤ p.handle.owner
  written : ∀ a v, f.written a = some v → mem a = v
  bank : ∀ a v, f.written a = some v → a.bank = some (f.index, bankOf (f.generation + 1))

structure Described (T : Table) (cards : Share) (commits : Nat → List Commit) (dead : List Nat)
    (mem : Mem Addr) : Prop where
  held : ∀ p, .held p ∈ cards → p.handle.process ∉ dead → p.generation ≤ generationMask ∧
    (mem (.control p.index) = p.generation ∨ mem (.control p.index) = p.generation ||| frozenFlag)
  frozen : ∀ process number f, .shard process number (some f) ∈ cards → process ∉ dead →
    f.Stands T number cards dead mem
  published : ∀ i, Published mem i (inForce (commits i))

theorem Freeze.Stands.mono {f : Freeze} {number : Nat} {cards cards' : Share} {dead : List Nat}
    (h : f.Stands T number cards dead mem)
    (hheld : ∀ p, .held p ∈ cards' → p.handle.process ∉ dead → .held p ∈ cards) :
    f.Stands T number cards' dead mem :=
  { h with scanned := fun p hp hlive => h.scanned p (hheld p hp hlive) hlive }

theorem Freeze.Stands.update {f : Freeze} {number : Nat} {cards : Share} {dead : List Nat}
    (h : f.Stands T number cards dead mem) {place : Addr} {value : Nat}
    (hcontrol : place ≠ .control f.index)
    (hbank : place.bank ≠ some (f.index, bankOf (f.generation + 1))) :
    f.Stands T number cards dead (Function.update mem place value) where
  shard := h.shard
  generation := h.generation
  control := by
    rw [update_of_ne hcontrol.symm]
    exact h.control
  scanned := h.scanned
  written a v hv := by
    rw [update_of_ne]
    · exact h.written a v hv
    · rintro rfl
      exact hbank (h.bank a v hv)
  bank := h.bank

namespace Described

variable {cards : Share} {commits : Nat → List Commit} {dead : List Nat} {mem : Mem Addr}
  {c : Card}

theorem init (T : Table) (hzero : ∀ i, mem (.control i) = 0) :
    Described T 0 (fun _ => []) [] mem where
  held _ h := absurd h (notMem_zero _)
  frozen _ _ _ h := absurd h (notMem_zero _)
  published i := ⟨⟨Nat.zero_le _, .inl (hzero i)⟩, fun _ h => absurd h.symm (some_ne_none _)⟩

theorem drop (h : Described T (c ::ₘ cards) commits dead mem) :
    Described T cards commits dead mem where
  held p hp := h.held p (mem_cons_of_mem hp)
  frozen process number f hf hlive := (h.frozen process number f (mem_cons_of_mem hf)
    hlive).mono fun _ hp _ => mem_cons_of_mem hp
  published := h.published

theorem plain (h : Described T cards commits dead mem) (hheld : ∀ p, c ≠ .held p)
    (hfrozen : ∀ process number f, c ≠ .shard process number (some f)) :
    Described T (c ::ₘ cards) commits dead mem where
  held p hp := h.held p ((mem_cons.mp hp).resolve_left (hheld p).symm)
  frozen process number f hf hlive :=
    (h.frozen process number f ((mem_cons.mp hf).resolve_left (hfrozen _ _ _).symm)
      hlive).mono fun p hp _ => (mem_cons.mp hp).resolve_left (hheld p).symm
  published := h.published

theorem dies (h : Described T cards commits dead mem) (process : Nat) :
    Described T cards commits (process :: dead) mem where
  held p hp hlive := h.held p hp fun hd => hlive (List.mem_cons_of_mem _ hd)
  frozen process' number f hf hlive :=
    { h.frozen process' number f hf fun hd => hlive (List.mem_cons_of_mem _ hd) with
      scanned := fun p hp hlive' => (h.frozen process' number f hf fun hd =>
        hlive (List.mem_cons_of_mem _ hd)).scanned p hp fun hd =>
          hlive' (List.mem_cons_of_mem _ hd) }
  published := h.published

theorem update (h : Described T cards commits dead mem) {place : Addr}
    (hcontrol : ∀ i, place ≠ .control i) (hbank : place.bank = none) (value : Nat) :
    Described T cards commits dead (Function.update mem place value) where
  held p hp hlive := by
    rw [update_of_ne (hcontrol _).symm]
    exact h.held p hp hlive
  frozen process number f hf hlive :=
    (h.frozen process number f hf hlive).update (hcontrol _) (hbank ▸ (some_ne_none _).symm)
  published i := by
    refine ⟨?_, fun id hid => ((h.published i).stored id hid).update ?_⟩
    · unfold Names
      rw [update_of_ne (hcontrol _).symm]
      exact (h.published i).names
    · rw [hbank]
      exact (some_ne_none _).symm

theorem held_generation (h : Described T cards commits dead mem) {p : Pin} (hp : .held p ∈ cards)
    (hlive : p.handle.process ∉ dead) :
    p.generation = generationOf (inForce (commits p.index)) :=
  (h.published p.index).names.control_eq (h.held p hp hlive).1 (h.held p hp hlive).2

variable {number process : Nat} {f : Freeze}

theorem frozen_generation (h : Described T cards commits dead mem)
    (hf : .shard process number (some f) ∈ cards) (hlive : process ∉ dead) :
    f.generation = generationOf (inForce (commits f.index)) :=
  (h.published f.index).names.control_eq (h.frozen _ _ _ hf hlive).generation
    (.inr (h.frozen _ _ _ hf hlive).control)

theorem validate (h : Described T cards commits dead mem) {p : Pin}
    (hp : p.generation ≤ generationMask) (hcontrol : mem (.control p.index) = p.generation) :
    Described T (.held p ::ₘ cards) commits dead mem where
  held p' hp' hlive := by
    rcases mem_cons.mp hp' with heq | hp'
    · cases heq
      exact ⟨hp, .inl hcontrol⟩
    · exact h.held p' hp' hlive
  frozen process number f hf hlive := by
    have hstands := h.frozen process number f
      ((mem_cons.mp hf).resolve_left (by simp)) hlive
    refine { hstands with scanned := fun p' hp' hlive' hindex => ?_ }
    rcases mem_cons.mp hp' with heq | hp'
    · cases heq
      have hfrozen := hstands.control
      rw [← hindex, hcontrol] at hfrozen
      exact absurd hfrozen.symm (frozen_ne hstands.generation hp)
    · exact hstands.scanned p' hp' hlive' hindex
  published := h.published

/-- A descriptor's flags change: no live process has the slot frozen, and the change leaves the pins
validated there in place. -/
theorem control (h : Described T cards commits dead mem) {i generation value : Nat}
    (hle : generation ≤ generationMask)
    (hcontrol : mem (.control i) = generation ∨ mem (.control i) = generation ||| frozenFlag)
    (hvalue : value = generation ∨ value = generation ||| frozenFlag ∨
      value = generation ||| retiredFlag)
    (hheld : value = generation ||| retiredFlag →
      ∀ p, .held p ∈ cards → p.handle.process ∉ dead → p.index ≠ i)
    (hfrozen : ∀ process number f, .shard process number (some f) ∈ cards → process ∉ dead →
      f.index ≠ i) :
    Described T cards commits dead (Function.update mem (.control i) value) where
  held p hp hlive := by
    obtain ⟨hple, hpcontrol⟩ := h.held p hp hlive
    by_cases heq : p.index = i
    · subst heq
      have hgen := h.held_generation hp hlive
      rw [← (h.published p.index).names.control_eq hle hcontrol] at hgen
      rw [update_self, hgen]
      refine ⟨hle, ?_⟩
      rcases hvalue with hv | hv | hv
      · exact .inl hv
      · exact .inr hv
      · exact absurd rfl (hheld hv p hp hlive)
    · rw [update_of_ne (by simpa using heq)]
      exact ⟨hple, hpcontrol⟩
  frozen process number f hf hlive :=
    (h.frozen process number f hf hlive).update
      (by simpa using (hfrozen process number f hf hlive).symm) (by simp [Addr.bank])
  published j := by
    refine ⟨?_, fun id hid => ((h.published j).stored id hid).update (by simp [Addr.bank])⟩
    by_cases heq : j = i
    · subst heq
      exact (h.published j).names.flag hle hcontrol hvalue
    · unfold Names
      rw [update_of_ne (by simpa using heq)]
      exact (h.published j).names

theorem freeze (h : Described T cards commits dead mem) {i generation : Nat}
    (hshard : T.geometry.shardOf i = number) (hle : generation ≤ generationMask)
    (hcontrol : mem (.control i) = generation ||| frozenFlag) :
    Described T (.shard process number (some ⟨i, generation, 0, fun _ => none⟩) ::ₘ cards) commits
      dead mem where
  held p hp := h.held p ((mem_cons.mp hp).resolve_left (by simp))
  frozen process' number' f hf hlive := by
    rcases mem_cons.mp hf with heq | hf
    · cases heq
      exact
        { shard := hshard
          generation := hle
          control := hcontrol
          scanned := fun _ _ _ _ => Nat.zero_le _
          written := fun _ _ hv => absurd hv.symm (some_ne_none _)
          bank := fun _ _ hv => absurd hv.symm (some_ne_none _) }
    · exact (h.frozen process' number' f hf hlive).mono fun p hp _ =>
        (mem_cons.mp hp).resolve_left (by simp)
  published := h.published

theorem refreeze {f' : Freeze}
    (h : Described T (.shard process number (some f) ::ₘ cards) commits dead mem)
    (hf' : process ∉ dead → f'.Stands T number cards dead mem) :
    Described T (.shard process number (some f') ::ₘ cards) commits dead mem where
  held p hp := h.drop.held p ((mem_cons.mp hp).resolve_left (by simp))
  frozen process' number' f'' hf hlive := by
    rcases mem_cons.mp hf with heq | hf
    · cases heq
      exact (hf' hlive).mono fun p hp _ => (mem_cons.mp hp).resolve_left (by simp)
    · exact (h.drop.frozen process' number' f'' hf hlive).mono fun p hp _ =>
        (mem_cons.mp hp).resolve_left (by simp)
  published := h.published

theorem own (h : Described T (.shard process number (some f) ::ₘ cards) commits dead mem)
    (hlive : process ∉ dead) : f.Stands T number cards dead mem :=
  (h.frozen process number f (mem_cons_self _ _) hlive).mono fun _ hp _ =>
    mem_cons_of_mem hp

theorem write {place : Addr} {value : Nat}
    (h : Described T (.shard process number (some f) ::ₘ cards) commits dead mem)
    (hlive : process ∉ dead) (hplace : place.bank = some (f.index, bankOf (f.generation + 1)))
    (hfrozen : ∀ process number f', .shard process number (some f') ∈ cards → process ∉ dead →
      f'.index ≠ f.index) :
    Described T (.shard process number (some (f.write place value)) ::ₘ cards) commits dead
      (Function.update mem place value) := by
  have hown := h.own hlive
  have hgen := h.frozen_generation (mem_cons_self _ _) hlive
  have hne : ∀ i, place ≠ .control i := by
    rintro i rfl
    exact some_ne_none _ hplace.symm
  have hdrop : Described T cards commits dead (Function.update mem place value) := by
    refine ⟨fun p hp hlive' => ?_, fun process' number' f' hf' hlive' => ?_, fun i => ⟨?_, ?_⟩⟩
    · rw [update_of_ne (hne _).symm]
      exact h.drop.held p hp hlive'
    · refine (h.drop.frozen process' number' f' hf' hlive').update (hne _) ?_
      rw [hplace]
      intro heq
      exact hfrozen process' number' f' hf' hlive' (Prod.mk.inj (Option.some.inj heq)).1.symm
    · unfold Names
      rw [update_of_ne (hne _).symm]
      exact (h.published i).names
    · intro id hid
      refine ((h.published i).stored id hid).update ?_
      rw [hplace]
      intro heq
      obtain ⟨rfl, hbank⟩ := Prod.mk.inj (Option.some.inj heq)
      rw [hgen, hid] at hbank
      exact bankOf_succ _ hbank
  refine ⟨fun p hp => hdrop.held p ((mem_cons.mp hp).resolve_left (by simp)),
    fun process' number' f' hf' hlive' => ?_, hdrop.published⟩
  rcases mem_cons.mp hf' with heq | hf'
  · cases heq
    refine ⟨hown.shard, hown.generation, ?_, fun p hp hlive'' => hown.scanned p
      ((mem_cons.mp hp).resolve_left (by simp)) hlive'', fun a v hv => ?_, fun a v hv => ?_⟩
    · rw [update_of_ne (hne _).symm]
      exact hown.control
    · rw [Freeze.write_written] at hv
      by_cases heq : a = place
      · subst heq
        rw [update_self] at hv ⊢
        exact Option.some.inj hv
      · rw [update_of_ne heq] at hv ⊢
        exact hown.written a v hv
    · rw [Freeze.write_written] at hv
      by_cases heq : a = place
      · exact heq ▸ hplace
      · rw [update_of_ne heq] at hv
        exact hown.bank a v hv
  · exact (hdrop.frozen process' number' f' hf' hlive').mono fun p hp _ =>
      (mem_cons.mp hp).resolve_left (by simp)

theorem publish (h : Described T cards commits dead mem) {i : Nat} {identity : Identity}
    (hle : identity.generation ≤ generationMask) (hstored : Stored mem i identity)
    (hheld : ∀ p, .held p ∈ cards → p.handle.process ∉ dead → p.index ≠ i)
    (hfrozen : ∀ process number f, .shard process number (some f) ∈ cards → process ∉ dead →
      f.index ≠ i) :
    Described T cards
      (Function.update commits i (commits i ++ [.publish identity])) dead
      (Function.update mem (.control i) identity.generation) where
  held p hp hlive := by
    rw [update_of_ne (by simpa using hheld p hp hlive)]
    exact h.held p hp hlive
  frozen process number f hf hlive :=
    (h.frozen process number f hf hlive).update
      (by simpa using (hfrozen process number f hf hlive).symm) (by simp [Addr.bank])
  published j := by
    by_cases heq : j = i
    · subst heq
      rw [update_self, inForce, List.foldl_append]
      refine ⟨⟨hle, .inl (update_self ..)⟩, fun id hid => ?_⟩
      cases hid
      exact hstored.update (by simp [Addr.bank])
    · rw [update_of_ne heq]
      refine ⟨?_, fun id hid => ((h.published j).stored id hid).update (by simp [Addr.bank])⟩
      unfold Names
      rw [update_of_ne (by simpa using heq)]
      exact (h.published j).names

theorem charge (h : Described T cards commits dead mem) {p : Pin} (hp : .held p ∈ cards)
    (hlive : p.handle.process ∉ dead) (tat : Nat) :
    Described T cards
      (Function.update commits p.index (commits p.index ++ [.charge tat])) dead
      (Function.update mem (.tat p.index (bankOf p.generation)) tat) where
  held p' hp' hlive' := by
    rw [update_of_ne (by simp)]
    exact h.held p' hp' hlive'
  frozen process number f hf hlive' := by
    refine (h.frozen process number f hf hlive').update (by simp) ?_
    rw [Addr.bank]
    intro heq
    obtain ⟨hindex, hbank⟩ := Prod.mk.inj (Option.some.inj heq)
    rw [h.held_generation hp hlive, hindex, ← h.frozen_generation hf hlive'] at hbank
    exact bankOf_succ _ hbank.symm
  published i := by
    have hnames : Names (Function.update mem (.tat p.index (bankOf p.generation)) tat) i
        (generationOf (inForce (commits i))) := by
      unfold Names
      rw [update_of_ne (by simp)]
      exact (h.published i).names
    by_cases heq : i = p.index
    · subst heq
      rw [update_self, inForce, List.foldl_append]
      have hgen := h.held_generation hp hlive
      have hstored := (h.published p.index).stored
      cases hforce : inForce (commits p.index) with
      | none =>
        rw [hforce] at hnames
        rw [inForce] at hforce
        rw [hforce]
        exact ⟨hnames, fun id hid => absurd hid.symm (some_ne_none _)⟩
      | some identity =>
        rw [hforce] at hnames hgen
        have hcharged := (hstored identity hforce).charge tat
        rw [inForce] at hforce
        rw [hforce]
        refine ⟨hnames, fun id hid => ?_⟩
        cases hid
        rw [hgen]
        exact hcharged
    · rw [update_of_ne heq]
      refine ⟨hnames, fun id hid => ((h.published i).stored id hid).update ?_⟩
      rw [Addr.bank]
      intro hbank
      exact heq (Prod.mk.inj (Option.some.inj hbank)).1.symm

end Described

end OrbitQuota.Shm
