import Orbit.Pool.World

/-! What whole operations do to resource slots: installing, publishing and closing. -/

namespace OrbitPool

open Orbit.Atomic Function

variable {g : Geometry} {mem : Mem Addr}

def Held (mem : Mem Addr) (slot : Nat) : Prop :=
  mem (.state slot) = resourceLive ∨ mem (.state slot) = resourceDraining

instance (mem : Mem Addr) (slot : Nat) : Decidable (Held mem slot) :=
  inferInstanceAs (Decidable (_ ∨ _))

def Free (mem : Mem Addr) (slot : Nat) : Prop :=
  mem (.state slot) = resourceEmpty ∨ mem (.state slot) = resourceClosed

variable {slot : Nat} {id : ResourceId}

theorem Free.not_held (h : Free mem slot) : ¬Held mem slot := by
  rintro (hl | hd)
  · rcases h with h | h <;> rw [h] at hl <;> cases hl
  · rcases h with h | h <;> rw [h] at hd <;> cases hd

def added (g : Geometry) (units available : Nat) : Nat :=
  if g.spec.fleetAvailability ∧ units > 0 then (available + units) % 2 ^ 32 else available

def removed (g : Geometry) (units available : Nat) : Nat :=
  if g.spec.fleetAvailability then available - units else available

@[simp] theorem run_addAvailable (keyIndex units : Nat) :
    (addAvailable g keyIndex units).run mem =
      ((), update mem (.available keyIndex) (added g units (mem (.available keyIndex)))) := by
  unfold addAvailable added
  split
  · simp
  · simp

@[simp] theorem run_removeAvailable (keyIndex units : Nat) :
    (removeAvailable g keyIndex units).run mem =
      ((), update mem (.available keyIndex)
        (removed g units (mem (.available keyIndex)))) := by
  unfold removeAvailable removed
  by_cases hg : g.spec.fleetAvailability = true
  · by_cases hu : units > 0
    · simp [hg, hu]
    · have hz : units = 0 := by omega
      simp [hg, hz]
  · simp [hg]

@[simp] theorem run_takeAvailable (keyIndex : Nat) :
    (takeAvailable g keyIndex).run mem =
      (!g.spec.fleetAvailability || decide (0 < mem (.available keyIndex)),
        update mem (.available keyIndex) (removed g 1 (mem (.available keyIndex)))) := by
  unfold takeAvailable removed
  by_cases hg : g.spec.fleetAvailability = true
  · by_cases ha : 0 < mem (.available keyIndex)
    · simp [hg, ha]
    · have hz : mem (.available keyIndex) = 0 := by omega
      simp [hg, hz]
  · simp [hg]

/-- The words of a slot just installed, beside its units. -/
structure Installed (mem : Mem Addr) (slot owner incarnation keyIndex capacity generation : Nat) :
    Prop where
  state : mem (.state slot) = resourceLive
  generation : mem (.generation slot) = generation
  ownerNode : mem (.ownerNode slot) = owner
  ownerIncarnation : mem (.ownerIncarnation slot) = incarnation
  capacity : mem (.capacity slot) = capacity
  keyIndex : mem (.keyIndex slot) = keyIndex
  fence : mem (.fence slot) = 0
  pending : ∀ entry < pendingReservations, mem (.pending slot entry) = 0

theorem Installed.of_eq {mem mem' : Mem Addr} {owner incarnation keyIndex capacity generation : Nat}
    (h : Installed mem slot owner incarnation keyIndex capacity generation)
    (heq : ∀ a, a.slot? = some slot → a ≠ .units slot → mem' a = mem a) :
    Installed mem' slot owner incarnation keyIndex capacity generation where
  state := (heq _ rfl (by simp)).trans h.state
  generation := (heq _ rfl (by simp)).trans h.generation
  ownerNode := (heq _ rfl (by simp)).trans h.ownerNode
  ownerIncarnation := (heq _ rfl (by simp)).trans h.ownerIncarnation
  capacity := (heq _ rfl (by simp)).trans h.capacity
  keyIndex := (heq _ rfl (by simp)).trans h.keyIndex
  fence := (heq _ rfl (by simp)).trans h.fence
  pending entry hentry := (heq _ rfl (by simp)).trans (h.pending entry hentry)

theorem run_clearPending (slot : Nat) (entries : List Nat) (mem : Mem Addr) :
    (∀ entry ∈ entries, ((clearPending slot entries).run mem).2 (.pending slot entry) = 0) ∧
    ∀ a, (∀ entry, a ≠ .pending slot entry) → (∀ entry, a ≠ .sinceMs slot entry) →
      ((clearPending slot entries).run mem).2 a = mem a := by
  have hzero : ∀ (entries : List Nat) (mem : Mem Addr) (entry : Nat),
      mem (.pending slot entry) = 0 →
        ((clearPending slot entries).run mem).2 (.pending slot entry) = 0 := by
    intro entries
    induction entries with
    | nil => exact fun _ _ h => h
    | cons e rest ih =>
      intro mem entry h
      simp only [clearPending, Prog.run_bind, run_store]
      refine ih _ entry ?_
      by_cases he : entry = e <;> simp [he, h]
  induction entries generalizing mem with
  | nil => exact ⟨by simp, fun _ _ _ => rfl⟩
  | cons e rest ih =>
    simp only [clearPending, Prog.run_bind, run_store]
    obtain ⟨hmem, hother⟩ := ih (update (update mem (.pending slot e) 0)
      (.sinceMs slot e) 0)
    constructor
    · rintro entry (_ | ⟨_, hentry⟩)
      · exact hzero rest _ e (by simp)
      · exact hmem entry hentry
    · intro a h1 h2
      rw [hother a h1 h2]
      simp [h1 e, h2 e]

theorem run_install (slot owner incarnation : Nat) (key : Key) (keyIndex capacity now : Nat)
    (mem : Mem Addr) :
    let r := (install slot owner incarnation key keyIndex capacity now).run mem
    (generationLimit ≤ mem (.generation slot) ∧ r.1 = none ∧
      r.2 = update mem (.state slot) resourceExhausted) ∨
    (mem (.generation slot) < generationLimit ∧ r.1 = some (mem (.generation slot) + 1) ∧
      r.2 (.units slot) = 0 ∧
      Installed r.2 slot owner incarnation keyIndex capacity (mem (.generation slot) + 1)) := by
  by_cases hlimit : mem (.generation slot) ≥ generationLimit
  · left
    simp [install, hlimit]
  · right
    have hlt : mem (.generation slot) < generationLimit := by omega
    have hrest := fun mem => (run_clearPending slot (List.range pendingReservations) mem).2
    have hpending := fun mem => (run_clearPending slot (List.range pendingReservations) mem).1
    simp only [install, Prog.run_bind, run_load, hlimit, if_false, run_store, run_mark,
      Prog.run_pure, hlt, true_and]
    refine ⟨by simp [hrest], by simp, ?_, ?_, ?_, ?_, ?_, ?_, fun entry hentry => ?_⟩
    · simp
    · simp [hrest]
    · simp [hrest]
    · simp [hrest]
    · simp [hrest]
    · simp [hrest]
    · simp [hpending _ entry (List.mem_range.mpr hentry)]

/-- What the search for a free slot in the lane does: the slot it returns was free and is installed
in its next generation; any other slot it changes was free and has run out of generations. -/
structure Allocated (p : Pool g) (mem mem' : Mem Addr) (keyIndex capacity : Nat)
    (taken : Except Error (Nat × Nat)) : Prop where
  words : ∀ a, (a.slot? = none) → a.part ≠ .locks → mem' a = mem a
  slot : ∀ slot generation, taken = .ok (slot, generation) →
    (p.node * g.laneCapacity ≤ slot ∧ slot < (p.node + 1) * g.laneCapacity) ∧ Free mem slot ∧
      generation = mem (.generation slot) + 1 ∧ generation ≤ generationLimit ∧
      mem' (.units slot) = 0 ∧ Installed mem' slot p.node p.incarnation keyIndex capacity generation
  others : ∀ slot, (∀ generation, taken ≠ .ok (slot, generation)) → ∀ a, a.slot? = some slot →
    mem' a = mem a ∨ a = .state slot ∧ Free mem slot ∧ mem' a = resourceExhausted

theorem Allocated.exhausted {p : Pool g} {mem mem' : Mem Addr} {keyIndex capacity : Nat}
    {taken : Except Error (Nat × Nat)} (hfree : Free mem slot)
    (h : Allocated p (update mem (.state slot) resourceExhausted) mem' keyIndex capacity
      taken) : Allocated p mem mem' keyIndex capacity taken := by
  have hnot : ¬Free (update mem (.state slot) resourceExhausted) slot := by
    rintro (hs | hs) <;> simp [resourceExhausted, resourceEmpty, resourceClosed] at hs
  have hback : ∀ i, Free (update mem (.state slot) resourceExhausted) i →
      i ≠ slot ∧ Free mem i := by
    intro i hi
    have hne : i ≠ slot := by rintro rfl; exact hnot hi
    refine ⟨hne, ?_⟩
    simpa [Free, hne] using hi
  refine ⟨fun a hslot hlock => ?_, fun i generation ht => ?_, fun i ht a ha => ?_⟩
  · rw [h.words a hslot hlock, update_of_ne]
    rintro rfl
    cases hslot
  · obtain ⟨hrange, hfree', hgen, hle, hunits, hinst⟩ := h.slot i generation ht
    exact ⟨hrange, (hback i hfree').2, by simpa using hgen, hle, hunits, hinst⟩
  · rcases h.others i ht a ha with heq | ⟨rfl, hfree', hval⟩
    · by_cases hs : a = .state slot
      · subst hs
        cases ha
        exact .inr ⟨rfl, hfree, by simpa using heq⟩
      · exact .inl (by simpa [hs] using heq)
    · exact .inr ⟨rfl, (hback i hfree').2, hval⟩

theorem run_allocateFrom (p : Pool g) (key : Key) (keyIndex capacity now hint : Nat)
    (offsets : List Nat) (mem : Mem Addr) :
    Allocated p mem ((allocateFrom p key keyIndex capacity now hint offsets).run mem).2 keyIndex
      capacity ((allocateFrom p key keyIndex capacity now hint offsets).run mem).1 := by
  induction offsets generalizing mem with
  | nil =>
    exact ⟨fun _ _ _ => rfl, fun _ _ h => (by cases h), fun _ _ _ _ => .inl rfl⟩
  | cons offset rest ih =>
    have hpos := g.lane_pos
    have hmask : (hint + offset) &&& (g.laneCapacity - 1) ≤ g.laneCapacity - 1 := Nat.and_le_right
    simp only [allocateFrom, Prog.run_bind, run_load]
    generalize hslot : p.node * g.laneCapacity + ((hint + offset) &&& (g.laneCapacity - 1)) = slot
    by_cases hfree : mem (.state slot) = resourceEmpty ∨ mem (.state slot) = resourceClosed
    · simp only [hfree, if_true]
      have hwithin := @within_install (fun a => a.slot? = some slot) slot p.node p.incarnation key
        keyIndex capacity now fun a ha => ha
      rw [Prog.run_bind]
      rcases run_install slot p.node p.incarnation key keyIndex capacity now mem with
        ⟨-, hnone, hmem⟩ | ⟨hlt, hsome, hunits, hinst⟩
      · rw [hnone, hmem]
        exact (ih _).exhausted hfree
      · rw [hsome]
        simp only [Prog.run_bind, run_store, Prog.run_pure]
        refine ⟨fun a hs hl => ?_, fun i generation ht => ?_, fun i ht a ha => ?_⟩
        · have hne : a ≠ .hint p.node := by rintro rfl; exact hl rfl
          rw [update_of_ne hne, hwithin.run_eq mem (by simp [hs])]
        · cases ht
          refine ⟨⟨by omega, ?_⟩, hfree, rfl, hlt, by simpa using hunits, ?_⟩
          · rw [Nat.add_mul, Nat.one_mul]
            omega
          · refine hinst.of_eq fun a ha _ => update_of_ne ?_ _ _
            rintro rfl
            cases ha
        · have hne : a ≠ .hint p.node := by rintro rfl; cases ha
          have hi : i ≠ slot := by
            rintro rfl
            exact ht _ rfl
          left
          rw [update_of_ne hne, hwithin.run_eq mem]
          rw [ha]
          simpa using hi
    · simp only [hfree, if_false]
      exact ih mem

theorem run_allocate (p : Pool g) (key : Key) (keyIndex capacity now : Nat) (mem : Mem Addr) :
    Allocated p mem ((p.allocate key keyIndex capacity now).run mem).2 keyIndex capacity
      ((p.allocate key keyIndex capacity now).run mem).1 := by
  simp only [Pool.allocate, Prog.run_bind, run_acquire, run_load, run_release, Prog.run_pure]
  generalize hmem1 : update mem (.structural p.node) 1 = mem1
  have hpre : ∀ a : Addr, a.part ≠ .locks → mem1 a = mem a := by
    intro a ha
    rw [← hmem1, update_of_ne]
    rintro rfl
    exact ha rfl
  have h := run_allocateFrom p key keyIndex capacity now (mem1 (.hint p.node))
    (List.range g.laneCapacity) mem1
  have hpost : ∀ (mem2 : Mem Addr) (a : Addr), a.part ≠ .locks →
      update mem2 (.structural p.node) 0 a = mem2 a := by
    intro mem2 a ha
    rw [update_of_ne]
    rintro rfl
    exact ha rfl
  have hslot : ∀ (a : Addr) slot, a.slot? = some slot → a.part ≠ .locks := fun a slot ha =>
    a.part_ne_of_slot? ha (by simp) (by simp)
  have hfree : ∀ slot, Free mem1 slot ↔ Free mem slot := by
    intro slot
    simp [Free, hpre (.state slot) (by simp [Addr.part])]
  refine ⟨fun a hs hl => ?_, fun slot generation ht => ?_, fun slot ht a ha => ?_⟩
  · rw [hpost _ a hl, h.words a hs hl, hpre a hl]
  · obtain ⟨hrange, hf, hgen, hle, hunits, hinst⟩ := h.slot slot generation ht
    rw [hpre _ (by simp [Addr.part])] at hgen
    exact ⟨hrange, (hfree slot).mp hf, hgen, hle, by simpa using hunits,
      hinst.of_eq fun a ha _ => hpost _ a (hslot a slot ha)⟩
  · have hl := hslot a slot ha
    rw [hpost _ a hl, ← hpre a hl, ← hfree]
    exact h.others slot ht a ha

theorem run_publish (p : Pool g) (keyIndex capacity : Nat) (active : Bool) (index generation : Nat)
    (mem : Mem Addr) :
    let r := (p.publish keyIndex capacity active index generation).run mem
    r.1 = (⟨g.spec.kind, p.node, index % g.laneCapacity, generation⟩,
      if active then some ⟨⟨⟨g.spec.kind, p.node, index % g.laneCapacity, generation⟩, 0, p.node,
        p.incarnation⟩⟩ else none) ∧
    r.2 (.units index) = (if active then packCounts 0 1 else mem (.units index)) ∧
    r.2 (.counts keyIndex) = packCounts ((unpackCounts (mem (.counts keyIndex))).1 + 1)
      (unpackCounts (mem (.counts keyIndex))).2 ∧
    r.2 (.available keyIndex) =
      added g (capacity - if active then 1 else 0) (mem (.available keyIndex)) ∧
    ∀ a, a ≠ .units index → a ≠ .counts keyIndex → a ≠ .available keyIndex →
      a.part ≠ .members → r.2 a = mem a := by
  cases active with
  | false =>
    refine ⟨by simp [Pool.publish], by simp [Pool.publish], by simp [Pool.publish], by simp [Pool.publish], ?_⟩
    intro a h1 h2 h3 h4
    have h5 : a ≠ .members keyIndex (index / 64) := by rintro rfl; exact h4 rfl
    simp [Pool.publish, h2, h3, h5]
  | true =>
    refine ⟨by simp [Pool.publish], by simp [Pool.publish], by simp [Pool.publish], by simp [Pool.publish], ?_⟩
    intro a h1 h2 h3 h4
    have h5 : a ≠ .members keyIndex (index / 64) := by rintro rfl; exact h4 rfl
    simp [Pool.publish, h1, h2, h3, h5]

theorem exhausted_not_held (h : mem (.state slot) = resourceExhausted) : ¬Held mem slot := by
  rintro (hs | hs) <;> rw [h] at hs <;> exact absurd hs (by decide)

def Unmoved (mem mem' : Mem Addr) (slot : Nat) : Prop :=
  ∀ a : Addr, a.slot? = some slot →
    mem' a = mem a ∨ a = .state slot ∧ Free mem slot ∧ mem' a = resourceExhausted

namespace Unmoved

variable {mem' : Mem Addr} {slot : Nat}

theorem word (h : Unmoved mem mem' slot) {a : Addr} (hne : a ≠ .state slot)
    (ha : a.slot? = some slot) : mem' a = mem a := by
  rcases h a ha with heq | ⟨hs, -, -⟩
  · exact heq
  · exact absurd hs hne

theorem held_iff (h : Unmoved mem mem' slot) : Held mem' slot ↔ Held mem slot := by
  rcases h (.state slot) rfl with hs | ⟨-, hfree, hs⟩
  · simp only [Held, hs]
  · exact iff_of_false (exhausted_not_held hs) hfree.not_held

theorem live_iff (h : Unmoved mem mem' slot) :
    mem' (.state slot) = resourceLive ↔ mem (.state slot) = resourceLive := by
  rcases h (.state slot) rfl with hs | ⟨-, hfree, hs⟩
  · rw [hs]
  · exact iff_of_false (fun hl => exhausted_not_held hs (.inl hl)) fun hl => hfree.not_held (.inl hl)

end Unmoved

/-- A registration that fails leaves the slots as they were, apart from marking free slots that
have run out of generations. -/
structure NotRegistered (mem mem' : Mem Addr) : Prop where
  slots : ∀ slot, Unmoved mem mem' slot
  counts : FreshWord .counts mem → ∀ k, mem' (.counts k) = mem (.counts k)
  available : FreshWord .available mem → ∀ k, mem' (.available k) = mem (.available k)

/-- A registration takes one free slot and counts it under its key. -/
structure Registered (p : Pool g) (mem mem' : Mem Addr) (key : Key) (capacity : Nat)
    (active : Bool) (keyIndex slot : Nat) : Prop where
  keyed : Keyed g mem' key keyIndex
  lane : p.node * g.laneCapacity ≤ slot ∧ slot < (p.node + 1) * g.laneCapacity
  free : Free mem slot
  limit : mem (.generation slot) + 1 ≤ generationLimit
  installed : Installed mem' slot p.node p.incarnation keyIndex capacity
    (mem (.generation slot) + 1)
  units : mem' (.units slot) = if active then packCounts 0 1 else 0
  slots : ∀ other ≠ slot, Unmoved mem mem' other
  counts : FreshWord .counts mem → ∀ k, mem' (.counts k) =
    if k = keyIndex then packCounts ((unpackCounts (mem (.counts k))).1 + 1)
      (unpackCounts (mem (.counts k))).2 else mem (.counts k)
  available : FreshWord .available mem → ∀ k, mem' (.available k) =
    if k = keyIndex then added g (capacity - if active then 1 else 0) (mem (.available k))
    else mem (.available k)

theorem Registered.slot_lt {p : Pool g} {mem' : Mem Addr} {key : Key} {capacity : Nat}
    {active : Bool} {k : Nat} (h : Registered p mem mem' key capacity active k slot) :
    slot < g.totalResources :=
  h.lane.2.trans_le (Nat.mul_le_mul_right _ p.node.isLt)

theorem run_registerInner (hk : KeyTable g mem) (p : Pool g) (key : Key) (capacity : Nat)
    (active : Bool) (now : Nat) :
    let r := (p.registerInner key capacity active now).run mem
    ((∃ e, r.1 = .error e) ∧ NotRegistered mem r.2) ∨
    ∃ keyIndex slot, Registered p mem r.2 key capacity active keyIndex slot ∧
      r.1 = .ok (⟨g.spec.kind, p.node, slot % g.laneCapacity, mem (.generation slot) + 1⟩,
        if active then some ⟨⟨⟨g.spec.kind, p.node, slot % g.laneCapacity,
          mem (.generation slot) + 1⟩, 0, p.node, p.incarnation⟩⟩ else none) := by
  have hfound := run_keyIndex hk p key
  have hslots1 : ∀ slot a, a.slot? = some slot → ((p.keyIndex key).run mem).2 a = mem a := by
    intro slot a ha
    rcases hfound.words a (a.part_ne_of_slot? ha (by simp) (by simp))
      (a.part_ne_of_slot? ha (by simp) (by simp)) with h | ⟨-, index, hc, -⟩
    · exact h
    · rcases hc with rfl | rfl | rfl | ⟨_, rfl⟩ <;> cases ha
  have hcounts1 : FreshWord .counts mem →
      ∀ k, ((p.keyIndex key).run mem).2 (.counts k) = mem (.counts k) :=
    fun hz k => hfound.fresh_eq (by simp [Addr.part]) (by simp [CountsKey]) (hz k)
  have havailable1 : FreshWord .available mem →
      ∀ k, ((p.keyIndex key).run mem).2 (.available k) = mem (.available k) :=
    fun hz k => hfound.fresh_eq (by simp [Addr.part]) (by simp [CountsKey]) (hz k)
  simp only [Pool.registerInner, Prog.run_bind]
  generalize (p.keyIndex key).run mem = r1 at *
  obtain ⟨found, mem1⟩ := r1
  simp only at hslots1 hcounts1 havailable1 hfound
  have hfree1 : ∀ slot, Free mem1 slot ↔ Free mem slot := fun slot => by
    simp [Free, hslots1 slot (.state slot) rfl]
  cases found with
  | error e =>
    exact .inl ⟨⟨e, rfl⟩, fun slot a ha => .inl (hslots1 slot a ha), hcounts1, havailable1⟩
  | ok keyIndex =>
    simp only [Prog.run_bind]
    have halloc := run_allocate p key keyIndex capacity now mem1
    have hcounts2 : ∀ k, ((p.allocate key keyIndex capacity now).run mem1).2 (.counts k) =
        mem1 (.counts k) := fun k => halloc.words _ rfl (by simp [Addr.part])
    have havailable2 : ∀ k, ((p.allocate key keyIndex capacity now).run mem1).2 (.available k) =
        mem1 (.available k) := fun k => halloc.words _ rfl (by simp [Addr.part])
    have hkeyed2 : Keyed g ((p.allocate key keyIndex capacity now).run mem1).2 key keyIndex :=
      (hfound.table.of_eq fun a ha => halloc.words a (by simp [Addr.slot?, ha]) (by simp [ha])).2.keyed
        (hfound.keyed keyIndex rfl)
    generalize (p.allocate key keyIndex capacity now).run mem1 = r2 at *
    obtain ⟨taken, mem2⟩ := r2
    simp only at halloc hcounts2 havailable2 hkeyed2
    have hothers : ∀ slot, (∀ generation, taken ≠ .ok (slot, generation)) → ∀ a,
        a.slot? = some slot →
        mem2 a = mem a ∨ a = .state slot ∧ Free mem slot ∧ mem2 a = resourceExhausted := by
      intro slot hslot a ha
      rw [← hslots1 slot a ha, ← hfree1]
      exact halloc.others slot hslot a ha
    cases taken with
    | error e =>
      refine .inl ⟨⟨e, rfl⟩, fun slot a ha => hothers slot (by simp) a ha, ?_, ?_⟩
      · exact fun hz k => (hcounts2 k).trans (hcounts1 hz k)
      · exact fun hz k => (havailable2 k).trans (havailable1 hz k)
    | ok taken =>
      obtain ⟨slot, generation⟩ := taken
      obtain ⟨hrange, hfree, hgen, hle, hunits, hinst⟩ := halloc.slot slot generation rfl
      rw [hslots1 slot _ rfl] at hgen
      subst hgen
      simp only [Prog.run_bind, Prog.run_pure]
      obtain ⟨hresult, hpunits, hpcounts, hpavail, hprest⟩ :=
        run_publish p keyIndex capacity active slot (mem (.generation slot) + 1) mem2
      refine .inr ⟨keyIndex, slot, ⟨?_, hrange, (hfree1 slot).mp hfree, hle, ?_, ?_, ?_, ?_, ?_⟩,
        by rw [hresult]⟩
      · refine KeysKept.keyed (fun k hlive => ?_) hkeyed2
        refine ⟨?_, ?_, ?_⟩ <;> rw [hprest] <;> simp [Addr.part, hlive]
      · refine hinst.of_eq fun a ha hne => hprest a hne ?_ ?_ ?_
        · rintro rfl; cases ha
        · rintro rfl; cases ha
        · exact a.part_ne_of_slot? ha (by simp) (by simp)
      · rw [hpunits, hunits]
      · intro other hother a ha
        rw [hprest a (by rintro rfl; cases ha; exact hother rfl) (by rintro rfl; cases ha)
          (by rintro rfl; cases ha) (a.part_ne_of_slot? ha (by simp) (by simp))]
        refine hothers other (fun generation h => ?_) a ha
        cases h
        exact hother rfl
      · intro hz k
        by_cases hk : k = keyIndex
        · subst hk
          rw [if_pos rfl, hpcounts, hcounts2, hcounts1 hz]
        · rw [if_neg hk, hprest _ (by simp) (by simpa using hk) (by simp) (by simp [Addr.part]),
            hcounts2, hcounts1 hz]
      · intro hz k
        by_cases hk : k = keyIndex
        · subst hk
          rw [if_pos rfl, hpavail, havailable2, havailable1 hz]
        · rw [if_neg hk, hprest _ (by simp) (by simp) (by simpa using hk) (by simp [Addr.part]),
            havailable2, havailable1 hz]

theorem run_register_mem (p : Pool g) (key : Key) (capacity now : Nat) (mem : Mem Addr) :
    ((p.register key capacity now).run mem).2 =
      if capacity = 0 then mem else ((p.registerInner key capacity false now).run mem).2 := by
  unfold Pool.register
  split
  · rfl
  · rw [Prog.run_bind]
    cases ((p.registerInner key capacity false now).run mem).1 <;> rfl

theorem run_registerActive_mem (p : Pool g) (key : Key) (capacity now : Nat) (mem : Mem Addr) :
    ((p.registerActive key capacity now).run mem).2 =
      if capacity = 0 then mem else ((p.registerInner key capacity true now).run mem).2 := by
  unfold Pool.registerActive
  split <;> rfl

/-- A held slot is closed: it leaves its key's live count, and what was free of it leaves the
ledger. -/
structure ResourceClosed (g : Geometry) (mem mem' : Mem Addr) (slot : Nat) : Prop where
  state : mem' (.state slot) = resourceClosed
  counts : ∀ k, mem' (.counts k) = if k = mem (.keyIndex slot) then
    packCounts ((unpackCounts (mem (.counts k))).1 - 1) (unpackCounts (mem (.counts k))).2
    else mem (.counts k)
  available : ∀ k, mem' (.available k) = if k = mem (.keyIndex slot) then
    removed g (mem (.capacity slot) - add32 (unpackCounts (mem (.units slot))).1
      (unpackCounts (mem (.units slot))).2) (mem (.available k)) else mem (.available k)
  words : ∀ a, a ≠ .state slot → a.part ≠ .counts → a.part ≠ .available → a.part ≠ .members →
    mem' a = mem a

theorem run_closeResource (h : Held mem slot) :
    ResourceClosed g mem ((closeResource g slot).run mem).2 slot := by
  have h' : mem (.state slot) = resourceLive ∨ mem (.state slot) = resourceDraining := h
  by_cases hg : g.spec.fleetAvailability = true
  · refine ⟨by simp [closeResource, h', hg], fun k => ?_, fun k => ?_, fun a h1 h2 h3 h4 => ?_⟩
    · by_cases hk : k = mem (.keyIndex slot) <;> simp [closeResource, h', hg, hk]
    · by_cases hk : k = mem (.keyIndex slot) <;> simp [closeResource, h', hg, hk]
    · have h5 : ∀ k, a ≠ .counts k := by rintro k rfl; exact h2 rfl
      have h6 : ∀ k, a ≠ .available k := by rintro k rfl; exact h3 rfl
      have h7 : ∀ k word, a ≠ .members k word := by rintro k word rfl; exact h4 rfl
      simp [closeResource, h', hg, h1, h5, h6, h7]
  · refine ⟨by simp [closeResource, h', hg], fun k => ?_, fun k => ?_, fun a h1 h2 h3 h4 => ?_⟩
    · by_cases hk : k = mem (.keyIndex slot) <;> simp [closeResource, h', hg, hk]
    · by_cases hk : k = mem (.keyIndex slot) <;> simp [closeResource, h', hg, hk, removed]
    · have h5 : ∀ k, a ≠ .counts k := by rintro k rfl; exact h2 rfl
      have h7 : ∀ k word, a ≠ .members k word := by rintro k word rfl; exact h4 rfl
      simp [closeResource, h', hg, h1, h5, h7]

theorem closeOwned_keeps {I : Mem Addr → Prop} (node incarnation : Nat)
    (hclose : ∀ mem mem' slot, I mem → Held mem slot → slot < g.totalResources →
      mem (.ownerNode slot) = node → mem (.ownerIncarnation slot) = incarnation →
      ResourceClosed g mem mem' slot → I mem') (h : I mem) :
    I ((closeOwned g node incarnation (List.range g.totalResources)).run mem).2 := by
  have hall : ∀ (slots : List Nat) (mem : Mem Addr), (∀ slot ∈ slots, slot < g.totalResources) →
      I mem → I ((closeOwned g node incarnation slots).run mem).2 := by
    intro slots
    induction slots with
    | nil => exact fun _ _ h => h
    | cons slot rest ih =>
      intro mem hslots h
      rw [closeOwned, Prog.run_bind]
      refine ih _ (fun i hi => hslots i (List.mem_cons_of_mem _ hi)) ?_
      simp only [closeIfOwned, Prog.run_bind, run_load]
      by_cases hheld : mem (.state slot) = resourceLive ∨ mem (.state slot) = resourceDraining
      · by_cases hn : mem (.ownerNode slot) = node
        · by_cases hi : mem (.ownerIncarnation slot) = incarnation
          · simp only [hheld, hn, hi, if_true, Prog.run_bind, run_load]
            exact hclose mem _ slot h hheld (hslots slot (by simp)) hn hi (run_closeResource hheld)
          · simpa [hheld, hn, hi] using h
        · simpa [hheld, hn] using h
      · simpa [hheld] using h
  exact hall _ mem (fun slot hslot => List.mem_range.mp hslot) h

theorem run_nodeDead_slot (node incarnation : Nat) (mem : Mem Addr) {a : Addr}
    (ha : a.slot? = some slot) (hne : a ≠ .state slot) :
    ((nodeDead g node incarnation).run mem).2 a = mem a := by
  have hclose := @closeOwned_keeps g mem (fun mem' => mem' a = mem a) node incarnation
    (fun mem1 mem2 i hI _ _ _ _ hclosed => by
      refine (hclosed.words a ?_ (a.part_ne_of_slot? ha (by simp) (by simp))
        (a.part_ne_of_slot? ha (by simp) (by simp))
        (a.part_ne_of_slot? ha (by simp) (by simp))).trans hI
      rintro rfl
      cases ha
      exact hne rfl) rfl
  rw [nodeDead, Prog.run_bind, ← hclose]
  refine (within_returnClaims node _ fun a ha => ha).run_eq _ ?_
  rcases a.part_of_slot? ha with hp | hp <;> simp [hp]

theorem locateIn_ok (h : locateIn g id = .ok slot) :
    id.kind = g.spec.kind ∧ id.node < g.fleetCapacity ∧ id.slot < g.laneCapacity ∧
      slot = id.node * g.laneCapacity + id.slot := by
  unfold locateIn at h
  split at h
  · cases h
  · rename_i hn
    cases h
    simp only [not_or, Nat.not_le, ge_iff_le, ne_eq, Decidable.not_not] at hn
    exact ⟨hn.1, hn.2.1, hn.2.2.1, rfl⟩

theorem locateIn_generation (h : locateIn g id = .ok slot) : 0 < id.generation := by
  unfold locateIn at h
  split at h
  · cases h
  · omega

theorem locateIn_of_lane (p : Pool g) {generation : Nat}
    (hlane : p.node * g.laneCapacity ≤ slot ∧ slot < (p.node + 1) * g.laneCapacity)
    (hpos : 0 < generation) (hle : generation ≤ generationLimit) :
    locateIn g ⟨g.spec.kind, p.node, slot % g.laneCapacity, generation⟩ = .ok slot := by
  have hlanePos := g.lane_pos
  have hnode := p.node.isLt
  obtain ⟨offset, rfl⟩ := Nat.exists_eq_add_of_le hlane.1
  have hoffset : offset < g.laneCapacity := by
    have hlt := hlane.2
    rw [Nat.add_mul, Nat.one_mul] at hlt
    omega
  have hmod : (p.node * g.laneCapacity + offset) % g.laneCapacity = offset :=
    Nat.mul_add_mod_of_lt hoffset
  unfold locateIn
  rw [if_neg, hmod]
  have hmask : generation ≤ generationMask := hle
  simp only [hmod, ne_eq, not_true_eq_false, false_or, not_or, ge_iff_le, Nat.not_le]
  omega

theorem locate_lt {p : Pool g} (h : p.locate id = .ok slot) : slot < g.totalResources := by
  obtain ⟨-, hnode, hslot, rfl⟩ := locateIn_ok h
  calc id.node * g.laneCapacity + id.slot < id.node * g.laneCapacity + g.laneCapacity := by omega
    _ = (id.node + 1) * g.laneCapacity := by rw [Nat.add_mul, Nat.one_mul]
    _ ≤ g.totalResources := Nat.mul_le_mul_right _ hnode

theorem locateIn_inj {id' : ResourceId} (h : locateIn g id = .ok slot)
    (h' : locateIn g id' = .ok slot) (hgen : id.generation = id'.generation) : id = id' := by
  obtain ⟨hkind, -, hslot, heq⟩ := locateIn_ok h
  obtain ⟨hkind', -, hslot', heq'⟩ := locateIn_ok h'
  have hpos := g.lane_pos
  have hnode : id.node = id'.node := by
    have h1 : slot / g.laneCapacity = id.node := by
      rw [heq, Nat.mul_comm, Nat.mul_add_div hpos, Nat.div_eq_of_lt hslot, Nat.add_zero]
    have h2 : slot / g.laneCapacity = id'.node := by
      rw [heq', Nat.mul_comm, Nat.mul_add_div hpos, Nat.div_eq_of_lt hslot', Nat.add_zero]
    rw [← h1, h2]
  have hlane : id.slot = id'.slot := by
    rw [hnode] at heq
    omega
  cases id
  cases id'
  simp_all

/-- The id names a held slot of this generation that belongs to this process. -/
structure Owned (p : Pool g) (mem : Mem Addr) (id : ResourceId) (slot : Nat) : Prop where
  located : p.locate id = .ok slot
  held : Held mem slot
  generation : mem (.generation slot) = id.generation
  ownerNode : mem (.ownerNode slot) = p.node
  ownerIncarnation : mem (.ownerIncarnation slot) = p.incarnation

theorem run_isGeneration (slot generation : Nat) :
    (isGeneration slot generation).run mem =
      (decide (Held mem slot ∧ mem (.generation slot) = generation), mem) := by
  unfold isGeneration
  by_cases h : mem (.state slot) = resourceLive ∨ mem (.state slot) = resourceDraining
  · simp only [Prog.run_bind, run_load, h, if_true, Prog.run_pure, Held, true_and, beq_eq_decide]
    exact congrArg (·, mem) (decide_eq_decide.mpr Iff.rfl)
  · simp [Held, h]

theorem run_owned (p : Pool g) (id : ResourceId) :
    ((p.owned id).run mem).2 = mem ∧
      ∀ slot, ((p.owned id).run mem).1 = .ok slot → Owned p mem id slot := by
  unfold Pool.owned
  cases hlocate : p.locate id with
  | error e => exact ⟨rfl, fun slot h => by cases h⟩
  | ok slot =>
    simp only [Prog.run_bind, run_isGeneration]
    by_cases hgen : Held mem slot ∧ mem (.generation slot) = id.generation
    · simp only [hgen, and_self, decide_true, if_true, Prog.run_bind, run_load]
      by_cases hn : mem (.ownerNode slot) = p.node
      · by_cases hi : mem (.ownerIncarnation slot) = p.incarnation
        · simp only [hn, hi, ne_eq, not_true_eq_false, if_false, Prog.run_bind, run_load,
            Prog.run_pure, true_and]
          rintro i ⟨⟩
          exact ⟨hlocate, hgen.1, hgen.2, hn, hi⟩
        · simp [hn, hi]
      · simp [hn]
    · simp [hgen]

/-- An operation that begins by looking for a resource of its own fails and changes nothing, or
goes on with the slot it found. -/
theorem run_of_owned {α : Type} (p : Pool g) (id : ResourceId)
    (body : Nat → PoolM (Except Error α)) :
    let r := (do
      match ← p.owned id with
      | .error e => return .error e
      | .ok slot => body slot : PoolM (Except Error α)).run mem
    ((∃ e, r.1 = .error e) ∧ r.2 = mem) ∨ ∃ slot, Owned p mem id slot ∧ r = (body slot).run mem := by
  obtain ⟨hmem, howned⟩ := @run_owned g mem p id
  simp only [Prog.run_bind]
  generalize (p.owned id).run mem = r at *
  obtain ⟨found, mem1⟩ := r
  simp only at hmem howned
  subst hmem
  cases found with
  | error e => exact .inl ⟨⟨e, rfl⟩, rfl⟩
  | ok slot => exact .inr ⟨slot, howned slot rfl, rfl⟩

theorem run_unregister (p : Pool g) (id : ResourceId) :
    ((p.unregister id).run mem).2 = mem ∨ ∃ slot, Owned p mem id slot ∧
      ResourceClosed g mem ((p.unregister id).run mem).2 slot := by
  have hcases := @run_of_owned g mem Unit p id fun slot => do
    closeResource g slot
    return .ok ()
  rcases hcases with ⟨-, hmem⟩ | ⟨slot, howned, hrun⟩
  · exact .inl hmem
  · have hmem : ((p.unregister id).run mem).2 = ((closeResource g slot).run mem).2 :=
      (congrArg Prod.snd hrun).trans (by simp)
    rw [hmem]
    exact .inr ⟨slot, howned, run_closeResource howned.held⟩

theorem run_drain (p : Pool g) (id : ResourceId) :
    ((p.drain id).run mem).2 = mem ∨ ∃ slot, Owned p mem id slot ∧
      mem (.state slot) = resourceLive ∧
      ((p.drain id).run mem).2 = update mem (.state slot) resourceDraining := by
  have hcases := @run_of_owned g mem Unit p id fun slot => do
    let _ ← compareExchange (.state slot) resourceLive resourceDraining
    return .ok ()
  rcases hcases with ⟨-, hmem⟩ | ⟨slot, howned, hrun⟩
  · exact .inl hmem
  · have hmem : ((p.drain id).run mem).2 = mem.put (.state slot)
        (if mem (.state slot) = resourceLive then some resourceDraining else none) :=
      (congrArg Prod.snd hrun).trans (by simp)
    by_cases hlive : mem (.state slot) = resourceLive
    · rw [if_pos hlive] at hmem
      exact .inr ⟨slot, howned, hlive, hmem⟩
    · rw [if_neg hlive] at hmem
      exact .inl hmem

end OrbitPool
