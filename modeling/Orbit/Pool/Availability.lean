import Orbit.Pool.Exactness

/-! The ledger of available units: a key's available word against the free units of its live
resources, over sequences of whole operations.  The sequences considered leave out the places where
a draining or ended resource still moves the ledger. -/

namespace OrbitPool

open Orbit.Atomic Function Finset

variable {g : Geometry} {mem mem' : Mem Addr}

/-- What the slot's resource adds to the capacity, and to the free units, of the live resources
under the key in slot `k`. -/
def capacityUnder (mem : Mem Addr) (k slot : Nat) : Nat :=
  if mem (.state slot) = resourceLive ∧ mem (.keyIndex slot) = k then mem (.capacity slot) else 0

def freeUnder (mem : Mem Addr) (k slot : Nat) : Nat :=
  if mem (.state slot) = resourceLive ∧ mem (.keyIndex slot) = k then
    mem (.capacity slot) - (reserved mem slot + active mem slot) else 0

def liveCapacity (g : Geometry) (mem : Mem Addr) (k : Nat) : Nat :=
  ∑ slot : Fin g.totalResources, capacityUnder mem k slot

def freeUnits (g : Geometry) (mem : Mem Addr) (k : Nat) : Nat :=
  ∑ slot : Fin g.totalResources, freeUnder mem k slot

theorem freeUnder_le (mem : Mem Addr) (k slot : Nat) :
    freeUnder mem k slot ≤ capacityUnder mem k slot := by
  unfold freeUnder capacityUnder
  split <;> omega

theorem freeUnits_le (g : Geometry) (mem : Mem Addr) (k : Nat) :
    freeUnits g mem k ≤ liveCapacity g mem k :=
  sum_le_sum fun slot _ => freeUnder_le mem k slot

theorem freeUnder_of_live {slot : Nat} (h : mem (.state slot) = resourceLive) (k : Nat) :
    freeUnder mem k slot = if mem (.keyIndex slot) = k then
      mem (.capacity slot) - (reserved mem slot + active mem slot) else 0 := by
  simp [freeUnder, h]

theorem freeUnder_of_not_live {slot : Nat} (h : mem (.state slot) ≠ resourceLive) (k : Nat) :
    freeUnder mem k slot = 0 := by
  simp [freeUnder, h]

/-- Nothing the ledger depends on has changed in the slot. -/
structure Alike (mem mem' : Mem Addr) (slot : Nat) : Prop where
  held : Held mem' slot ↔ Held mem slot
  live : mem' (.state slot) = resourceLive ↔ mem (.state slot) = resourceLive
  keyIndex : mem' (.keyIndex slot) = mem (.keyIndex slot)
  capacity : mem' (.capacity slot) = mem (.capacity slot)
  reserved : reserved mem' slot = reserved mem slot
  active : active mem' slot = active mem slot

theorem Unmoved.alike {slot : Nat} (h : Unmoved mem mem' slot) : Alike mem mem' slot := by
  have hunits : mem' (.units slot) = mem (.units slot) := h.word (by simp) rfl
  exact ⟨h.held_iff, h.live_iff, h.word (by simp) rfl, h.word (by simp) rfl,
    by rw [OrbitPool.reserved, hunits, OrbitPool.reserved],
    by rw [OrbitPool.active, hunits, OrbitPool.active]⟩

theorem Alike.of_words {slot : Nat} (h : ∀ a : Addr, a.slot? = some slot → mem' a = mem a) :
    Alike mem mem' slot :=
  Unmoved.alike fun a ha => .inl (h a ha)

theorem Alike.freeUnder_eq {slot : Nat} (h : Alike mem mem' slot) (k : Nat) :
    freeUnder mem' k slot = freeUnder mem k slot := by
  simp only [freeUnder, h.live, h.keyIndex, h.capacity, h.reserved, h.active]

theorem Alike.capacityUnder_eq {slot : Nat} (h : Alike mem mem' slot) (k : Nat) :
    capacityUnder mem' k slot = capacityUnder mem k slot := by
  simp only [capacityUnder, h.live, h.keyIndex, h.capacity]

def Follows (mem mem' : Mem Addr) (slot k : Nat) : Prop :=
  (freeUnder mem k slot ≤ freeUnder mem' k slot ∧ mem' (.available k) =
    (mem (.available k) + (freeUnder mem' k slot - freeUnder mem k slot)) % 2 ^ 32) ∨
  (freeUnder mem' k slot ≤ freeUnder mem k slot ∧ mem' (.available k) =
    mem (.available k) - (freeUnder mem k slot - freeUnder mem' k slot))

theorem Follows.of_eq {slot k : Nat} (hfree : freeUnder mem' k slot = freeUnder mem k slot)
    (havailable : mem' (.available k) = mem (.available k)) : Follows mem mem' slot k :=
  .inr ⟨hfree.le, by rw [havailable, hfree, Nat.sub_self, Nat.sub_zero]⟩

/-- A table whose ledger is exact: no resource is used beyond its capacity, and each available word
counts the free units of the live resources of its key. -/
structure Stocked (g : Geometry) (mem : Mem Addr) : Prop where
  keyed : ∀ slot, Held mem slot → mem (.keyState (mem (.keyIndex slot))) = keyLive
  room : ∀ slot, Held mem slot → reserved mem slot + active mem slot ≤ mem (.capacity slot) ∧
    mem (.capacity slot) < 2 ^ 32
  bound : ∀ k, liveCapacity g mem k < 2 ^ 32
  total : ∀ k, mem (.available k) = freeUnits g mem k

theorem Stocked.init (g : Geometry) : Stocked g fun _ => 0 where
  keyed slot h := by rcases h with h | h <;> cases h
  room slot h := by rcases h with h | h <;> cases h
  bound k := by simp [liveCapacity, capacityUnder, resourceLive]
  total k := by simp [freeUnits, freeUnder, resourceLive]

theorem Stocked.freeUnder_le_available (h : Stocked g mem) {slot : Nat}
    (hslot : slot < g.totalResources) (k : Nat) : freeUnder mem k slot ≤ mem (.available k) := by
  rw [h.total k]
  exact part_le_sum (fun i : Fin g.totalResources => freeUnder mem k i) ⟨slot, hslot⟩

theorem Stocked.available_lt (h : Stocked g mem) (k : Nat) : mem (.available k) < 2 ^ 32 := by
  rw [h.total k]
  exact Nat.lt_of_le_of_lt (freeUnits_le g mem k) (h.bound k)

theorem Stocked.not_under (h : Stocked g mem) {k : Nat} (hempty : mem (.keyState k) = keyEmpty)
    (slot : Nat) : ¬(mem (.state slot) = resourceLive ∧ mem (.keyIndex slot) = k) := by
  rintro ⟨hlive, rfl⟩
  have hkey := h.keyed slot (.inl hlive)
  rw [hempty] at hkey
  cases hkey

theorem Stocked.fresh (h : Stocked g mem) : FreshWord .available mem := by
  intro k hempty
  rw [h.total k]
  exact sum_eq_zero fun slot _ => if_neg (h.not_under hempty slot)

theorem Stocked.liveCapacity_fresh (h : Stocked g mem) {k : Nat}
    (hempty : mem (.keyState k) = keyEmpty) : liveCapacity g mem k = 0 :=
  sum_eq_zero fun slot _ => if_neg (h.not_under hempty slot)

theorem Stocked.change (h : Stocked g mem) {slot : Nat} (hslot : slot < g.totalResources)
    (hkept : KeysKept mem mem') (hothers : ∀ other ≠ slot, Alike mem mem' other)
    (hkeyed : Held mem' slot → mem' (.keyState (mem' (.keyIndex slot))) = keyLive)
    (hroom : Held mem' slot → reserved mem' slot + active mem' slot ≤ mem' (.capacity slot) ∧
      mem' (.capacity slot) < 2 ^ 32)
    (hbound : ∀ k, capacityUnder mem' k slot ≤ capacityUnder mem k slot ∨
      liveCapacity g mem k + capacityUnder mem' k slot < 2 ^ 32)
    (hfollows : ∀ k, Follows mem mem' slot k) : Stocked g mem' := by
  have hbound' : ∀ k, liveCapacity g mem' k < 2 ^ 32 := by
    intro k
    have hsum : liveCapacity g mem' k + capacityUnder mem k slot =
        liveCapacity g mem k + capacityUnder mem' k slot :=
      sum_change (fun i : Fin g.totalResources => capacityUnder mem k i) _ ⟨slot, hslot⟩
        fun i hi => (hothers i fun he => hi (Fin.ext he)).capacityUnder_eq k
    have hold := h.bound k
    rcases hbound k with hb | hb <;> omega
  refine ⟨fun i hheld => ?_, fun i hheld => ?_, hbound', fun k => ?_⟩
  · by_cases hi : i = slot
    · subst hi
      exact hkeyed hheld
    · rw [(hothers i hi).keyIndex]
      exact (hkept _ (h.keyed i ((hothers i hi).held.mp hheld))).1
  · by_cases hi : i = slot
    · subst hi
      exact hroom hheld
    · rw [(hothers i hi).reserved, (hothers i hi).active, (hothers i hi).capacity]
      exact h.room i ((hothers i hi).held.mp hheld)
  · have hsum : freeUnits g mem' k + freeUnder mem k slot =
        freeUnits g mem k + freeUnder mem' k slot :=
      sum_change (fun i : Fin g.totalResources => freeUnder mem k i) _ ⟨slot, hslot⟩
        fun i hi => (hothers i fun he => hi (Fin.ext he)).freeUnder_eq k
    have hold := h.total k
    have hle := h.freeUnder_le_available hslot k
    have hnew := freeUnits_le g mem' k
    have hlt := hbound' k
    rcases hfollows k with ⟨hmore, heq⟩ | ⟨hless, heq⟩
    · rw [heq, Nat.mod_eq_of_lt (by omega)]
      omega
    · omega

theorem Stocked.same (h : Stocked g mem) (hkept : KeysKept mem mem')
    (hslots : ∀ slot, Alike mem mem' slot)
    (havailable : ∀ k, mem' (.available k) = mem (.available k)) : Stocked g mem' := by
  refine ⟨fun i hheld => ?_, fun i hheld => ?_, fun k => ?_, fun k => ?_⟩
  · rw [(hslots i).keyIndex]
    exact (hkept _ (h.keyed i ((hslots i).held.mp hheld))).1
  · rw [(hslots i).reserved, (hslots i).active, (hslots i).capacity]
    exact h.room i ((hslots i).held.mp hheld)
  · have hsum : liveCapacity g mem' k = liveCapacity g mem k :=
      sum_congr rfl fun i _ => (hslots i).capacityUnder_eq k
    rw [hsum]
    exact h.bound k
  · have hsum : freeUnits g mem' k = freeUnits g mem k :=
      sum_congr rfl fun i _ => (hslots i).freeUnder_eq k
    rw [hsum, havailable]
    exact h.total k

def unused (mem : Mem Addr) (slot : Nat) : Nat :=
  mem (.capacity slot) - (reserved mem slot + active mem slot)

theorem ne_of_parts {a b : Addr} {slot : Nat} (h1 : a.part ≠ .lease slot)
    (h2 : a.part ≠ .available) (hb : b.part = .lease slot ∨ b.part = .available) : a ≠ b := by
  rintro rfl
  rcases hb with hb | hb
  · exact h1 hb
  · exact h2 hb

/-- An operation on the reservations of one slot keeps the ledger exact if, on a live resource, the
key's available word follows the unused units, and stays otherwise. -/
theorem Stocked.lease (h : Stocked g mem) {slot : Nat} (hslot : slot < g.totalResources)
    (hwords : ∀ a : Addr, a.part ≠ .lease slot → a.part ≠ .available → mem' a = mem a)
    (hroom : Held mem slot → reserved mem' slot + active mem' slot ≤ mem (.capacity slot))
    (hothers : ∀ k ≠ mem (.keyIndex slot), mem' (.available k) = mem (.available k))
    (hended : mem (.state slot) ≠ resourceLive →
      mem' (.available (mem (.keyIndex slot))) = mem (.available (mem (.keyIndex slot))))
    (hlive : mem (.state slot) = resourceLive →
      (unused mem slot ≤ unused mem' slot ∧ mem' (.available (mem (.keyIndex slot))) =
        (mem (.available (mem (.keyIndex slot))) + (unused mem' slot - unused mem slot)) % 2 ^ 32) ∨
      (unused mem' slot ≤ unused mem slot ∧ mem' (.available (mem (.keyIndex slot))) =
        mem (.available (mem (.keyIndex slot))) - (unused mem slot - unused mem' slot))) :
    Stocked g mem' := by
  have hstate : mem' (.state slot) = mem (.state slot) := hwords _ (by simp [Addr.part]) (by simp [Addr.part])
  have hkey : mem' (.keyIndex slot) = mem (.keyIndex slot) :=
    hwords _ (by simp [Addr.part]) (by simp [Addr.part])
  have hcapacity : mem' (.capacity slot) = mem (.capacity slot) :=
    hwords _ (by simp [Addr.part]) (by simp [Addr.part])
  have hheld : Held mem' slot ↔ Held mem slot := by simp only [Held, hstate]
  have hkeys : KeysKept mem mem' := fun k hk =>
    ⟨(hwords _ (by simp [Addr.part]) (by simp [Addr.part])).trans hk,
      hwords _ (by simp [Addr.part]) (by simp [Addr.part]),
      hwords _ (by simp [Addr.part]) (by simp [Addr.part])⟩
  refine h.change hslot hkeys (fun i hi => .of_words fun a ha => ?_) (fun hh => ?_) (fun hh => ?_)
    (fun k => ?_) fun k => ?_
  · refine hwords a (fun hp => ?_) (a.part_ne_of_slot? ha (by simp) (by simp))
    rcases a.part_of_slot? ha with hp' | hp' <;> rw [hp'] at hp <;> cases hp
    exact hi rfl
  · rw [hkey]
    exact (hkeys _ (h.keyed slot (hheld.mp hh))).1
  · rw [hcapacity]
    exact ⟨hroom (hheld.mp hh), (h.room slot (hheld.mp hh)).2⟩
  · left
    simp only [capacityUnder, hstate, hkey, hcapacity, le_refl]
  · by_cases hl : mem (.state slot) = resourceLive
    · by_cases hk : mem (.keyIndex slot) = k
      · subst hk
        have hfree : freeUnder mem (mem (.keyIndex slot)) slot = unused mem slot := by
          simp [freeUnder, hl, unused]
        have hfree' : freeUnder mem' (mem (.keyIndex slot)) slot = unused mem' slot := by
          simp [freeUnder, hl, hstate, hkey, unused]
        rw [Follows, hfree, hfree']
        exact hlive hl
      · refine .of_eq ?_ (hothers k (Ne.symm hk))
        simp [freeUnder, hkey, hk]
    · refine .of_eq ?_ ?_
      · simp [freeUnder, hstate, hl]
      · by_cases hk : mem (.keyIndex slot) = k
        · subst hk
          exact hended hl
        · exact hothers k (Ne.symm hk)

/-- The resource in the slot has no free unit. -/
def Full (mem : Mem Addr) (slot : Nat) : Prop :=
  mem (.capacity slot) ≤ reserved mem slot + active mem slot

theorem half_eq (r a : Nat) (hr : r < 2 ^ 32) (ha : a < 2 ^ 32) :
    unpackCounts (packCounts r a) = (r, a) := by
  rw [unpackCounts_packCounts, Nat.mod_eq_of_lt hr, Nat.mod_eq_of_lt ha]

theorem halves_of_units {slot r a : Nat} (h : mem' (.units slot) = packCounts r a) (hr : r < 2 ^ 32)
    (ha : a < 2 ^ 32) : reserved mem' slot = r ∧ active mem' slot = a := by
  rw [reserved, active, h, half_eq r a hr ha]
  exact ⟨rfl, rfl⟩

section Stocked

variable (hg : g.spec.fleetAvailability = true)

theorem added_eq (hg : g.spec.fleetAvailability = true) {units available : Nat}
    (hlt : available < 2 ^ 32) : added g units available = (available + units) % 2 ^ 32 := by
  unfold added
  split
  · rfl
  · rename_i hno
    have hzero : units = 0 := by
      by_contra hne
      exact hno ⟨hg, Nat.pos_of_ne_zero hne⟩
    rw [hzero, Nat.add_zero, Nat.mod_eq_of_lt hlt]

theorem removed_eq (hg : g.spec.fleetAvailability = true) (units available : Nat) :
    removed g units available = available - units := if_pos hg

theorem NotRegistered.stocked (h : NotRegistered mem mem') (hkept : KeysKept mem mem')
    (hs : Stocked g mem) : Stocked g mem' :=
  hs.same hkept (fun slot => (h.slots slot).alike) (h.available hs.fresh)

include hg in
theorem Registered.stocked {p : Pool g} {key : Key} {capacity : Nat} {active : Bool} {k slot : Nat}
    (h : Registered p mem mem' key capacity active k slot) (hkept : KeysKept mem mem')
    (hs : Stocked g mem) (hpos : 0 < capacity) (hlt : capacity < 2 ^ 32)
    (hbound : liveCapacity g mem k + capacity < 2 ^ 32) : Stocked g mem' := by
  have hinst := h.installed
  have hnotLive : mem (.state slot) ≠ resourceLive := fun hl => h.free.not_held (.inl hl)
  have hhalves : reserved mem' slot = 0 ∧ OrbitPool.active mem' slot = if active then 1 else 0 := by
    rw [reserved, OrbitPool.active, h.units]
    cases active <;> exact ⟨rfl, rfl⟩
  have hfree : ∀ j, freeUnder mem' j slot =
      if j = k then capacity - (if active then 1 else 0) else 0 := by
    intro j
    rw [freeUnder_of_live hinst.state, hinst.keyIndex, hinst.capacity, hhalves.1, hhalves.2,
      Nat.zero_add]
    simp only [eq_comm]
  refine hs.change h.slot_lt hkept (fun i hi => (h.slots i hi).alike) (fun _ => ?_) (fun _ => ?_)
    (fun j => ?_) fun j => ?_
  · rw [hinst.keyIndex]
    exact h.keyed.holds.1
  · rw [hhalves.1, hhalves.2, hinst.capacity]
    refine ⟨?_, hlt⟩
    split <;> omega
  · by_cases hj : j = k
    · subst hj
      right
      rwa [capacityUnder, if_pos ⟨hinst.state, hinst.keyIndex⟩, hinst.capacity]
    · left
      rw [capacityUnder, if_neg fun hc => hj (hc.2.symm.trans hinst.keyIndex)]
      exact Nat.zero_le _
  · have havail := h.available hs.fresh j
    left
    rw [freeUnder_of_not_live hnotLive, Nat.sub_zero, hfree]
    refine ⟨Nat.zero_le _, ?_⟩
    by_cases hj : j = k
    · subst hj
      rw [if_pos rfl] at havail ⊢
      rw [havail, added_eq hg (hs.available_lt j)]
    · rw [if_neg hj] at havail ⊢
      rw [havail, Nat.add_zero, Nat.mod_eq_of_lt (hs.available_lt j)]

theorem NotReserved.stocked (h : NotReserved g mem mem') (hs : Stocked g mem)
    (hunits : ∀ slot, OrbitPool.reserved mem slot + 1 < 2 ^ 32) : Stocked g mem' := by
  have hword : ∀ a, (∀ slot, a ≠ .units slot) → (∀ slot, a ≠ .fence slot) →
      (∀ k, a ≠ .available k) → mem' a = mem a := h.words
  refine hs.same (fun k hk => ?_) (fun slot => ?_) fun k => h.available k (hs.available_lt k)
  · exact ⟨(hword _ (by simp) (by simp) (by simp)).trans hk, hword _ (by simp) (by simp) (by simp),
      hword _ (by simp) (by simp) (by simp)⟩
  · have hstate : mem' (.state slot) = mem (.state slot) :=
      hword _ (by simp) (by simp) (by simp)
    exact ⟨by simp only [Held, hstate], by rw [hstate], hword _ (by simp) (by simp) (by simp),
      hword _ (by simp) (by simp) (by simp), (h.reserved slot (hunits slot)).1,
      (h.reserved slot (hunits slot)).2⟩

include hg in
theorem Reserved.stocked {p : Pool g} {id : ResourceId} {slot entry now : Nat}
    (h : Reserved p mem mem' id slot entry now) (hs : Stocked g mem) : Stocked g mem' := by
  obtain ⟨hle, hcap⟩ := hs.room slot (.inl h.live)
  have hroom := h.room
  have hmem := h.mem_eq
  rw [add32_of_lt (by omega)] at hroom
  have hunits : mem' (.units slot) = packCounts (OrbitPool.reserved mem slot + 1)
      (active mem slot) := by simp [hmem]
  obtain ⟨hres, hact⟩ := halves_of_units hunits (by omega) (active_lt mem slot)
  have hcapacity : mem' (.capacity slot) = mem (.capacity slot) := by simp [hmem]
  refine hs.lease (locate_lt h.located) (fun a h1 h2 => ?_) (fun _ => by omega) (fun k hk => ?_)
    (fun hno => absurd h.live hno) fun _ => .inr ?_
  · have hn : ∀ b : Addr, b.part = .lease slot ∨ b.part = .available → a ≠ b :=
      fun _ => ne_of_parts h1 h2
    simp [hmem, hn, Addr.part]
  · simp [hmem, hk]
  · have havail : mem' (.available (mem (.keyIndex slot))) =
        mem (.available (mem (.keyIndex slot))) - 1 := by simp [hmem, removed_eq hg]
    simp only [unused, hcapacity, hres, hact, havail]
    omega

theorem Taken.reserved_pos {p : Pool g} {lease : Lease} {slot entry : Nat}
    (h : Taken p mem lease slot entry) (hfence : lease.fence ≠ 0)
    (hunits : reserved mem slot = pendingCount mem slot) : 0 < reserved mem slot := by
  rw [hunits, pendingCount, List.countP_pos_iff]
  exact ⟨entry, List.mem_range.mpr h.entry_lt, by simp [h.pending, hfence]⟩

include hg in
theorem Taken.stocked_cancel {p : Pool g} {lease : Lease} {slot entry : Nat}
    (h : Taken p mem lease slot entry) (hs : Stocked g mem) (hpos : 0 < reserved mem slot)
    (hlive : mem (.state slot) = resourceLive)
    (hmem : mem' = update (update (update mem (.pending slot entry) 0)
      (.units slot) (packCounts (reserved mem slot - 1) (active mem slot)))
      (.available (mem (.keyIndex slot)))
      (added g 1 (mem (.available (mem (.keyIndex slot)))))) : Stocked g mem' := by
  obtain ⟨hle, hcap⟩ := hs.room slot (.inl hlive)
  have hunits : mem' (.units slot) = packCounts (reserved mem slot - 1) (active mem slot) := by
    simp [hmem]
  have hlt := reserved_lt mem slot
  obtain ⟨hres, hact⟩ := halves_of_units hunits (by omega) (active_lt mem slot)
  have hcapacity : mem' (.capacity slot) = mem (.capacity slot) := by simp [hmem]
  refine hs.lease (locate_lt h.located) (fun a h1 h2 => ?_) (fun _ => by omega) (fun k hk => ?_)
    (fun hno => absurd hlive hno) fun _ => .inl ?_
  · have hn : ∀ b : Addr, b.part = .lease slot ∨ b.part = .available → a ≠ b :=
      fun _ => ne_of_parts h1 h2
    simp [hmem, hn, Addr.part]
  · simp [hmem, hk]
  · have havail : mem' (.available (mem (.keyIndex slot))) =
        (mem (.available (mem (.keyIndex slot))) + 1) % 2 ^ 32 := by
      simp [hmem, added_eq hg (hs.available_lt _)]
    have hone : unused mem' slot = unused mem slot + 1 := by
      simp only [unused, hcapacity, hres, hact]
      omega
    rw [hone, havail, Nat.add_sub_cancel_left]
    exact ⟨Nat.le_succ _, rfl⟩

theorem Taken.stocked_accept {p : Pool g} {lease : Lease} {slot entry : Nat}
    (h : Taken p mem lease slot entry) (hs : Stocked g mem) (hpos : 0 < reserved mem slot)
    (hlive : mem (.state slot) = resourceLive)
    (hmem : mem' = update (update mem (.pending slot entry) 0) (.units slot)
      (packCounts (reserved mem slot - 1) (active mem slot + 1))) : Stocked g mem' := by
  obtain ⟨hle, hcap⟩ := hs.room slot (.inl hlive)
  have hunits : mem' (.units slot) = packCounts (reserved mem slot - 1) (active mem slot + 1) := by
    simp [hmem]
  obtain ⟨hres, hact⟩ := halves_of_units hunits (by omega) (by omega)
  have hcapacity : mem' (.capacity slot) = mem (.capacity slot) := by simp [hmem]
  have havail : ∀ k, mem' (.available k) = mem (.available k) := fun k => by simp [hmem]
  refine hs.lease (locate_lt h.located) (fun a h1 h2 => ?_) (fun _ => by omega)
    (fun k _ => havail k) (fun _ => havail _) fun _ => .inr ?_
  · have hn : ∀ b : Addr, b.part = .lease slot ∨ b.part = .available → a ≠ b :=
      fun _ => ne_of_parts h1 h2
    simp [hmem, hn, Addr.part]
  · simp only [unused, hcapacity, hres, hact, havail]
    omega

theorem Stocked.finish (hs : Stocked g mem) {slot : Nat} (hslot : slot < g.totalResources)
    (hlive : mem (.state slot) = resourceLive) (hpos : 0 < active mem slot)
    (hmem : mem' = update (update mem (.available (mem (.keyIndex slot)))
      ((mem (.available (mem (.keyIndex slot))) + 1) % 2 ^ 32)) (.units slot)
      (packCounts (reserved mem slot) (active mem slot - 1))) : Stocked g mem' := by
  obtain ⟨hle, hcap⟩ := hs.room slot (.inl hlive)
  have hunits : mem' (.units slot) = packCounts (reserved mem slot) (active mem slot - 1) := by
    simp [hmem]
  have hlt := active_lt mem slot
  obtain ⟨hres, hact⟩ := halves_of_units hunits (reserved_lt mem slot) (by omega)
  have hcapacity : mem' (.capacity slot) = mem (.capacity slot) := by simp [hmem]
  refine hs.lease hslot (fun a h1 h2 => ?_) (fun _ => by omega) (fun k hk => ?_)
    (fun hno => absurd hlive hno) fun _ => .inl ?_
  · have hn : ∀ b : Addr, b.part = .lease slot ∨ b.part = .available → a ≠ b :=
      fun _ => ne_of_parts h1 h2
    simp [hmem, hn, Addr.part]
  · simp [hmem, hk]
  · have hone : unused mem' slot = unused mem slot + 1 := by
      simp only [unused, hcapacity, hres, hact]
      omega
    rw [hone, Nat.add_sub_cancel_left]
    exact ⟨Nat.le_succ _, by simp [hmem]⟩

theorem Stocked.finish_draining (hs : Stocked g mem) {slot : Nat} (hslot : slot < g.totalResources)
    (hdraining : mem (.state slot) = resourceDraining) (hmem : mem' = update mem
      (.units slot) (packCounts (reserved mem slot) (active mem slot - 1))) : Stocked g mem' := by
  obtain ⟨hle, hcap⟩ := hs.room slot (.inr hdraining)
  have hunits : mem' (.units slot) = packCounts (reserved mem slot) (active mem slot - 1) := by
    simp [hmem]
  have hlt := active_lt mem slot
  obtain ⟨hres, hact⟩ := halves_of_units hunits (reserved_lt mem slot) (by omega)
  have havail : ∀ k, mem' (.available k) = mem (.available k) := fun k => by simp [hmem]
  have hnotLive : mem (.state slot) ≠ resourceLive := by
    rw [hdraining]
    decide
  refine hs.lease hslot (fun a h1 h2 => ?_) (fun _ => by omega) (fun k _ => havail k)
    (fun _ => havail _) fun hl => absurd hl hnotLive
  have hn : ∀ b : Addr, b.part = .lease slot ∨ b.part = .available → a ≠ b :=
    fun _ => ne_of_parts h1 h2
  simp [hmem, hn, Addr.part]

include hg in
theorem Execution.stocked_finish (execution : Execution) (maxIdle : Option Nat)
    (hlimit : ∀ limit, maxIdle = some limit → limit < 2 ^ 32) (hs : Stocked g mem)
    (hslot : execution.slot g < g.totalResources)
    (hpos : mem (.generation (execution.slot g)) = execution.lease.id.generation →
      Held mem (execution.slot g) → 0 < active mem (execution.slot g)) :
    Stocked g ((execution.finish g maxIdle).run mem).2 := by
  by_cases hended : mem (.generation (execution.slot g)) ≠ execution.lease.id.generation ∨
      ¬Held mem (execution.slot g)
  · rw [run_finish_ended execution maxIdle hended]
    exact hs
  simp only [not_or, ne_eq, Decidable.not_not] at hended
  obtain ⟨hgen, hheld⟩ := hended
  have hone := hpos hgen hheld
  rcases hheld with hlive | hdraining
  · rw [run_finish_live execution maxIdle hgen hlive]
    by_cases hretains : retains g mem (mem (.keyIndex (execution.slot g))) maxIdle = true
    case neg =>
      rw [if_neg hretains]
      exact hs
    rw [if_pos hretains, if_pos hg]
    refine hs.finish hslot hlive hone ?_
    cases maxIdle with
    | none => rfl
    | some limit =>
      have hlt := hlimit limit rfl
      simp only [retains, hg, Bool.not_true, Bool.false_or, decide_eq_true_eq] at hretains
      rw [Nat.mod_eq_of_lt (by omega)]
  · exact hs.finish_draining hslot hdraining
      (congrArg Prod.snd (run_finish_draining execution maxIdle hgen hdraining))

include hg in
theorem Reconciled.stocked {p : Pool g} {id : ResourceId} {nowActive slot aged : Nat}
    (h : Reconciled p mem mem' id nowActive slot aged) (hs : Stocked g mem)
    (hlive : mem (.state slot) = resourceLive) (hle : nowActive ≤ active mem slot) :
    Stocked g mem' := by
  obtain ⟨hroom, hcap⟩ := hs.room slot (.inl hlive)
  have hlt := active_lt mem slot
  have hreslt := reserved_lt mem slot
  obtain ⟨hres, hact⟩ := halves_of_units h.units (by omega) (by omega)
  have hcapacity : mem' (.capacity slot) = mem (.capacity slot) :=
    h.words _ (by simp) (by simp) (by simp [Addr.part])
  refine hs.lease (locate_lt h.owned.located) (fun a h1 h2 => ?_) (fun _ => by omega)
    (fun k hk => ?_) (fun hno => absurd hlive hno) fun _ => .inl ?_
  · refine h.words a ?_ ?_ h2
    · rintro entry rfl
      exact h1 rfl
    · rintro rfl
      exact h1 rfl
  · rw [h.available, if_neg hk]
  · have hwas : mem (.capacity slot) - add32 (reserved mem slot) (active mem slot) =
        unused mem slot := by rw [add32_of_lt (by omega), unused]
    have hnow : mem (.capacity slot) - add32 (reserved mem slot - aged) nowActive =
        unused mem' slot := by rw [add32_of_lt (by omega), unused, hcapacity, hres, hact]
    have hmore : unused mem slot ≤ unused mem' slot := by
      simp only [unused, hcapacity, hres, hact]
      omega
    refine ⟨hmore, ?_⟩
    rw [h.available, if_pos rfl, hwas, hnow]
    split
    · rw [added_eq hg (hs.available_lt _)]
    · rename_i hno
      have hzero : unused mem' slot - unused mem slot = 0 := by omega
      have hzero' : unused mem slot - unused mem' slot = 0 := by omega
      rw [removed_eq hg, hzero, hzero', Nat.sub_zero, Nat.add_zero,
        Nat.mod_eq_of_lt (hs.available_lt _)]

include hg in
theorem ResourceClosed.stocked {slot : Nat} (h : ResourceClosed g mem mem' slot)
    (hs : Stocked g mem) (hslot : slot < g.totalResources) (hheld : Held mem slot)
    (hfull : mem (.state slot) = resourceDraining → Full mem slot) : Stocked g mem' := by
  obtain ⟨hroom, hcap⟩ := hs.room slot hheld
  have hnotLive : mem' (.state slot) ≠ resourceLive := by
    rw [h.state]
    decide
  have hnotHeld : ¬Held mem' slot := by
    rw [Held, h.state]
    decide
  have hkept : KeysKept mem mem' := fun k hk =>
    ⟨(h.words _ (by simp) (by simp [Addr.part]) (by simp [Addr.part]) (by simp [Addr.part])).trans hk,
      h.words _ (by simp) (by simp [Addr.part]) (by simp [Addr.part]) (by simp [Addr.part]),
      h.words _ (by simp) (by simp [Addr.part]) (by simp [Addr.part]) (by simp [Addr.part])⟩
  refine hs.change hslot hkept (fun i hi => .of_words fun a ha => ?_) (fun hh => absurd hh hnotHeld)
    (fun hh => absurd hh hnotHeld) (fun k => .inl ?_) fun k => .inr ?_
  · refine h.words a ?_ (a.part_ne_of_slot? ha (by simp) (by simp))
      (a.part_ne_of_slot? ha (by simp) (by simp)) (a.part_ne_of_slot? ha (by simp) (by simp))
    rintro rfl
    cases ha
    exact hi rfl
  · rw [capacityUnder, if_neg fun hc => hnotLive hc.1]
    exact Nat.zero_le _
  · rw [freeUnder_of_not_live hnotLive, Nat.sub_zero]
    refine ⟨Nat.zero_le _, ?_⟩
    have hused : add32 (unpackCounts (mem (.units slot))).1 (unpackCounts (mem (.units slot))).2 =
        reserved mem slot + active mem slot := add32_of_lt (Nat.lt_of_le_of_lt hroom hcap)
    rw [h.available, hused, removed_eq hg]
    by_cases hk : k = mem (.keyIndex slot)
    · subst hk
      rw [if_pos rfl]
      rcases hheld with hlive | hdraining
      · rw [freeUnder_of_live hlive, if_pos rfl]
      · have hnone := hfull hdraining
        have hno : mem (.state slot) ≠ resourceLive := by
          rw [hdraining]
          decide
        rw [freeUnder_of_not_live hno, Nat.sub_eq_zero_of_le hnone]
    · rw [if_neg hk, freeUnder, if_neg fun hc => hk hc.2.symm, Nat.sub_zero]

theorem Stocked.drain (hs : Stocked g mem) {slot : Nat} (hslot : slot < g.totalResources)
    (hlive : mem (.state slot) = resourceLive) (hfull : Full mem slot) :
    Stocked g (update mem (.state slot) resourceDraining) := by
  have hne : resourceDraining ≠ resourceLive := by decide
  refine hs.change hslot (fun k hk => by simp [hk]) (fun i hi => .of_words fun a ha => ?_)
    (fun _ => ?_) (fun _ => ?_) (fun k => .inl ?_) fun k => ?_
  · refine update_of_ne ?_ _ _
    rintro rfl
    cases ha
    exact hi rfl
  · simpa using hs.keyed slot (.inl hlive)
  · simpa [reserved, active] using hs.room slot (.inl hlive)
  · simp [capacityUnder, hne]
  · refine .of_eq ?_ (by simp)
    rw [freeUnder_of_not_live (by simp [hne]), freeUnder_of_live hlive]
    split
    · exact (Nat.sub_eq_zero_of_le hfull).symm
    · rfl

end Stocked

def World.running (w : World g) (slot : Nat) : Nat :=
  w.executions.countP fun e =>
    e.slot g = slot ∧ e.lease.id.generation = w.mem (.generation slot)

/-- Every execution is of a generation its slot has reached, and the active half of a held slot
counts at least the executions on its resource. -/
structure Running (w : World g) : Prop where
  located : ∀ e ∈ w.executions, locateIn g e.lease.id = .ok (e.slot g) ∧
    e.lease.id.generation ≤ w.mem (.generation (e.slot g))
  active : ∀ slot, Held w.mem slot → w.running slot ≤ active w.mem slot

theorem Running.renewed {w : World g} (h : Running w) {slot generation : Nat}
    (hgen : w.mem (.generation slot) < generation) : (w.executions.countP fun e =>
      e.slot g = slot ∧ e.lease.id.generation = generation) = 0 := by
  rw [List.countP_eq_zero]
  intro e he hcount
  simp only [decide_eq_true_eq] at hcount
  have hle := (h.located e he).2
  rw [hcount.1] at hle
  omega

theorem Execution.finish_active (execution : Execution) (maxIdle : Option Nat) (mem : Mem Addr) :
    let mem' := ((execution.finish g maxIdle).run mem).2
    ∀ slot, mem' (.generation slot) = mem (.generation slot) ∧
      mem' (.state slot) = mem (.state slot) ∧
      (active mem slot ≤ active mem' slot ∨ (execution.slot g = slot ∧
        execution.lease.id.generation = mem (.generation slot) ∧
        active mem slot ≤ active mem' slot + 1)) := by
  intro mem' slot
  have hdrop : ∀ (k v : Nat), mem (.generation (execution.slot g)) = execution.lease.id.generation →
      mem' = update (update mem (.available k) v) (.units (execution.slot g))
        (packCounts (reserved mem (execution.slot g)) (active mem (execution.slot g) - 1)) →
      mem' (.generation slot) = mem (.generation slot) ∧ mem' (.state slot) = mem (.state slot) ∧
      (active mem slot ≤ active mem' slot ∨ (execution.slot g = slot ∧
        execution.lease.id.generation = mem (.generation slot) ∧
        active mem slot ≤ active mem' slot + 1)) := by
    intro k v hgen hmem
    refine ⟨by simp [hmem], by simp [hmem], ?_⟩
    by_cases hs : slot = execution.slot g
    · subst hs
      have hword : mem' (.units (execution.slot g)) = packCounts
        (reserved mem (execution.slot g)) (active mem (execution.slot g) - 1) := by simp [hmem]
      have hlt := active_lt mem (execution.slot g)
      have hactive := (halves_of_units hword (reserved_lt mem _) (by omega)).2
      exact .inr ⟨rfl, hgen.symm, by omega⟩
    · left
      simp [active, hmem, hs]
  by_cases hended : mem (.generation (execution.slot g)) ≠ execution.lease.id.generation ∨
      ¬Held mem (execution.slot g)
  · have hmem : mem' = mem := congrArg Prod.snd (run_finish_ended execution maxIdle hended)
    rw [hmem]
    exact ⟨rfl, rfl, .inl (Nat.le_refl _)⟩
  simp only [not_or, ne_eq, Decidable.not_not] at hended
  obtain ⟨hgen, hlive | hdraining⟩ := hended
  · have hmem : mem' = _ := congrArg Prod.snd (run_finish_live execution maxIdle hgen hlive)
    by_cases hretains : retains g mem (mem (.keyIndex (execution.slot g))) maxIdle = true
    · rw [if_pos hretains] at hmem
      exact hdrop _ _ hgen hmem
    · rw [if_neg hretains] at hmem
      rw [hmem]
      exact ⟨rfl, rfl, .inl (Nat.le_refl _)⟩
  · have hmem : mem' = _ := congrArg Prod.snd (run_finish_draining execution maxIdle hgen hdraining)
    refine hdrop 0 (mem (.available 0)) hgen ?_
    rw [hmem, update_eq_self]

/-- What an operation may do to a slot beside its own executions: nothing the count depends on, or
begin a new generation. -/
def Steady (mem mem' : Mem Addr) (slot : Nat) : Prop :=
  (mem' (.generation slot) = mem (.generation slot) ∧
    (Held mem' slot → Held mem slot ∧ active mem slot ≤ active mem' slot)) ∨
  mem' (.generation slot) = mem (.generation slot) + 1

theorem Steady.generation_le {slot : Nat} (h : Steady mem mem' slot) :
    mem (.generation slot) ≤ mem' (.generation slot) := by
  rcases h with ⟨h, -⟩ | h <;> omega

theorem Steady.of_words {slot : Nat} (h : ∀ a : Addr, a.slot? = some slot → mem' a = mem a) :
    Steady mem mem' slot := by
  have hunits : mem' (.units slot) = mem (.units slot) := h _ rfl
  have hstate : mem' (.state slot) = mem (.state slot) := h _ rfl
  refine .inl ⟨h _ rfl, fun hheld => ⟨?_, ?_⟩⟩
  · rwa [Held, hstate] at hheld
  · rw [active, active, hunits]

theorem Unmoved.steady {slot : Nat} (h : Unmoved mem mem' slot) : Steady mem mem' slot :=
  .inl ⟨h.word (by simp) rfl, fun hheld => ⟨h.held_iff.mp hheld, h.alike.active.ge⟩⟩

theorem ResourceClosed.steady {slot : Nat} (h : ResourceClosed g mem mem' slot) (i : Nat) :
    Steady mem mem' i := by
  have hword : ∀ a : Addr, a.slot? = some i → a ≠ .state slot → mem' a = mem a := fun a ha hne =>
    h.words a hne (a.part_ne_of_slot? ha (by simp) (by simp))
      (a.part_ne_of_slot? ha (by simp) (by simp)) (a.part_ne_of_slot? ha (by simp) (by simp))
  refine .inl ⟨hword _ rfl (by simp), fun hheld => ⟨?_, ?_⟩⟩
  · by_cases hi : i = slot
    · subst hi
      rw [Held, h.state] at hheld
      exact absurd hheld (by decide)
    · have hstate : mem' (.state i) = mem (.state i) := hword _ rfl (by simpa using hi)
      rwa [Held, hstate] at hheld
  · have hunits : mem' (.units i) = mem (.units i) := hword _ rfl (by simp)
    rw [active, active, hunits]

theorem Running.of_steady {w w' : World g} (h : Running w) (hexec : w'.executions = w.executions)
    (hslots : ∀ slot, Steady w.mem w'.mem slot) : Running w' := by
  refine ⟨fun e he => ?_, fun slot hheld => ?_⟩
  · rw [hexec] at he
    obtain ⟨hloc, hle⟩ := h.located e he
    exact ⟨hloc, hle.trans (hslots _).generation_le⟩
  · rw [World.running, hexec]
    rcases hslots slot with ⟨hgen, hkeep⟩ | hgen
    · rw [hgen]
      exact (h.active slot (hkeep hheld).1).trans (hkeep hheld).2
    · rw [h.renewed (by omega : w.mem (.generation slot) < w'.mem (.generation slot))]
      exact Nat.zero_le _

theorem Running.start {w w' : World g} (h : Running w) (execution : Execution)
    (hexec : w'.executions = execution :: w.executions)
    (hloc : locateIn g execution.lease.id = .ok (execution.slot g))
    (hgen : w'.mem (.generation (execution.slot g)) = execution.lease.id.generation)
    (hslots : ∀ slot ≠ execution.slot g, Steady w.mem w'.mem slot)
    (hslot : w.mem (.generation (execution.slot g)) ≤ w'.mem (.generation (execution.slot g)) ∧
      (w.executions.countP fun e => e.slot g = execution.slot g ∧
        e.lease.id.generation = w'.mem (.generation (execution.slot g))) + 1 ≤
      OrbitPool.active w'.mem (execution.slot g)) : Running w' := by
  have hgens : ∀ slot, w.mem (.generation slot) ≤ w'.mem (.generation slot) := by
    intro slot
    by_cases hs : slot = execution.slot g
    · rw [hs]
      exact hslot.1
    · exact (hslots slot hs).generation_le
  refine ⟨?_, fun slot hheld => ?_⟩
  · rw [hexec]
    rintro e (_ | ⟨_, he⟩)
    · exact ⟨hloc, hgen.ge⟩
    · exact ⟨(h.located e he).1, (h.located e he).2.trans (hgens _)⟩
  · rw [World.running, hexec, List.countP_cons]
    by_cases hs : slot = execution.slot g
    · subst hs
      rw [hgen] at hslot ⊢
      simp only [and_self, decide_true, if_true]
      exact hslot.2
    · have hno : ¬(execution.slot g = slot ∧
          execution.lease.id.generation = w'.mem (.generation slot)) := fun hc => hs hc.1.symm
      rw [decide_eq_false hno]
      rcases hslots slot hs with ⟨hsame, hkeep⟩ | hnew
      · rw [hsame]
        exact (h.active slot (hkeep hheld).1).trans (hkeep hheld).2
      · rw [h.renewed (by omega : w.mem (.generation slot) < w'.mem (.generation slot))]
        exact Nat.zero_le _

theorem Running.finish {w w' : World g} (h : Running w) {n : Nat} {execution : Execution}
    (hn : w.executions[n]? = some execution) (hexec : w'.executions = w.executions.eraseIdx n)
    (hgens : ∀ slot, w'.mem (.generation slot) = w.mem (.generation slot))
    (hheld : ∀ slot, Held w'.mem slot → Held w.mem slot)
    (hactive : ∀ slot, OrbitPool.active w.mem slot ≤ OrbitPool.active w'.mem slot ∨
      (execution.slot g = slot ∧ execution.lease.id.generation = w.mem (.generation slot) ∧
        OrbitPool.active w.mem slot ≤ OrbitPool.active w'.mem slot + 1)) : Running w' := by
  refine ⟨fun e he => ?_, fun slot hslot => ?_⟩
  · rw [hexec] at he
    rw [hgens]
    exact h.located e (mem_of_mem_eraseIdx he)
  · have hcount := countP_eraseIdx_add hn fun e =>
      decide (e.slot g = slot ∧ e.lease.id.generation = w.mem (.generation slot))
    have hold := h.active slot (hheld slot hslot)
    rw [World.running] at hold ⊢
    rw [hexec, hgens]
    rcases hactive slot with hle | ⟨hs, hg, hle⟩
    · omega
    · rw [if_pos (by simp [hs, hg])] at hcount
      omega

/-- The capacity of a key's live resources stays below 2^32, a resource begins to drain, or ends
while it drains, without a free unit, a reservation is cancelled and a resource reconciled while it
is live, and the owner reconciles with the number of its executions. -/
def AvailableOk (w : World g) (op : Op g) : Prop :=
  LeaseOk w op ∧
  match op with
  | .register _ key capacity _ | .registerActive _ key capacity _ =>
    ∀ k, HoldsKey w.mem k key → liveCapacity g w.mem k + capacity.toNat < 2 ^ 32
  | .drain p id => ∀ slot, Owned p w.mem id slot → w.mem (.state slot) = resourceLive →
    Full w.mem slot
  | .unregister p id => ∀ slot, Owned p w.mem id slot → w.mem (.state slot) = resourceDraining →
    Full w.mem slot
  | .nodeDead node incarnation => ∀ slot, w.mem (.state slot) = resourceDraining →
    w.mem (.ownerNode slot) = node → w.mem (.ownerIncarnation slot) = incarnation → Full w.mem slot
  | .reconcile p id active _ _ =>
    active.toNat = (w.executions.countP fun e => e.lease.id = id) ∧
      ∀ slot, Owned p w.mem id slot → w.mem (.state slot) = resourceLive
  | .cancelReservation p lease => ∀ slot, p.locate lease.id = .ok slot →
    w.mem (.state slot) = resourceLive ∨
      ∀ entry < pendingReservations, w.mem (.pending slot entry) ≠ lease.fence
  | _ => True

structure AvailableLedger (w : World g) : Prop where
  keys : KeyTable g w.mem
  leases : LeaseLedger w
  stocked : Stocked g w.mem
  running : Running w

theorem AvailableLedger.init (g : Geometry) : AvailableLedger (World.init g) where
  keys := KeyTable.zero g
  leases := .init g
  stocked := .init g
  running := by
    refine ⟨fun e he => ?_, fun slot hheld => ?_⟩
    · cases he
    · rcases hheld with h | h <;> cases h

section

variable {w : World g} (hg : g.spec.fleetAvailability = true) (h : AvailableLedger w)
include h

theorem AvailableLedger.untouched (op : Op g)
    (hno : ∀ i, ¬op.touches (.slot i) ∧ ¬op.touches (.lease i)) (hav : ¬op.touches .available)
    (hexec : (exec w op).executions = w.executions) :
    Stocked g (exec w op).mem ∧ Running (exec w op) := by
  have hkey := exec_keyStep h.keys op
  have hwords : ∀ slot (a : Addr), a.slot? = some slot → (exec w op).mem a = w.mem a := by
    intro slot a ha
    refine exec_slot_eq h.keys op ha ?_
    rcases a.part_of_slot? ha with hp | hp <;> rw [hp]
    · exact (hno slot).1
    · exact (hno slot).2
  refine ⟨h.stocked.same hkey.kept (fun slot => .of_words (hwords slot)) fun k => ?_,
    h.running.of_steady hexec fun slot => .of_words (hwords slot)⟩
  exact hkey.fresh_eq hav (by simp [Addr.part]) (by simp [CountsKey]) (h.stocked.fresh k)

include hg

theorem AvailableLedger.registered {p : Pool g} {key : Key} {capacity : UInt32} {active : Bool}
    {now : Nat} (op : Op g)
    (hmem : (exec w op).mem = if capacity.toNat = 0 then w.mem else
      ((p.registerInner key capacity.toNat active now).run w.mem).2)
    (hok : ∀ k, HoldsKey w.mem k key → liveCapacity g w.mem k + capacity.toNat < 2 ^ 32) :
    Stocked g (exec w op).mem := by
  have hkey := exec_keyStep h.keys op
  by_cases hzero : capacity.toNat = 0
  · rw [hmem, if_pos hzero]
    exact h.stocked
  · rw [if_neg hzero] at hmem
    rcases run_registerInner h.keys p key capacity.toNat active now with ⟨-, hnot⟩ | ⟨k, slot, hreg, -⟩
    · rw [← hmem] at hnot
      exact hnot.stocked hkey.kept h.stocked
    · rw [← hmem] at hreg
      have hlt := capacity.toNat_lt
      refine hreg.stocked hg hkey.kept h.stocked (by omega) hlt ?_
      rcases hkey.kept.keyed_before h.keys hreg.keyed with hk | hempty
      · exact hok k hk.holds
      · rw [h.stocked.liveCapacity_fresh hempty]
        omega

theorem AvailableLedger.register (p : Pool g) (key : Key) (capacity : UInt32) (now : Nat)
    (hok : AvailableOk w (.register p key capacity now)) :
    Stocked g (exec w (.register p key capacity now)).mem ∧
      Running (exec w (.register p key capacity now)) := by
  have hmem := run_register_mem p key capacity.toNat now w.mem
  refine ⟨h.registered hg _ hmem hok.2, h.running.of_steady rfl fun slot => ?_⟩
  by_cases hzero : capacity.toNat = 0
  · rw [if_pos hzero] at hmem
    exact .of_words fun a _ => congrFun hmem a
  · rw [if_neg hzero] at hmem
    rcases run_registerInner h.keys p key capacity.toNat false now with ⟨-, hnot⟩ | ⟨k, i, hreg, -⟩
    · rw [← hmem] at hnot
      exact (hnot.slots slot).steady
    · rw [← hmem] at hreg
      by_cases hi : slot = i
      · subst hi
        exact .inr hreg.installed.generation
      · exact (hreg.slots slot hi).steady

theorem AvailableLedger.registerActive (p : Pool g) (key : Key) (capacity : UInt32) (now : Nat)
    (hok : AvailableOk w (.registerActive p key capacity now)) :
    Stocked g (exec w (.registerActive p key capacity now)).mem ∧
      Running (exec w (.registerActive p key capacity now)) := by
  have hmem := run_registerActive_mem p key capacity.toNat now w.mem
  refine ⟨h.registered hg _ hmem hok.2, ?_⟩
  by_cases hzero : capacity.toNat = 0
  · refine h.running.of_steady ?_ fun slot => .of_words fun a _ => ?_
    · simp [exec, Pool.registerActive, hzero, Except.toOption]
    · rw [if_pos hzero] at hmem
      exact congrFun hmem a
  · rw [if_neg hzero] at hmem
    have hrun : (p.registerActive key capacity.toNat now).run w.mem =
        (p.registerInner key capacity.toNat true now).run w.mem := by
      rw [Pool.registerActive, if_neg hzero]
    rcases run_registerInner h.keys p key capacity.toNat true now with
      ⟨⟨e, he⟩, hnot⟩ | ⟨k, slot, hreg, hresult⟩
    · rw [← hmem] at hnot
      refine h.running.of_steady ?_ fun i => (hnot.slots i).steady
      simp [exec, hrun, he, Except.toOption]
    · rw [← hmem] at hreg
      have hloc := locateIn_of_lane p hreg.lane (Nat.succ_pos (w.mem (.generation slot))) hreg.limit
      have hslot : Execution.slot ⟨⟨⟨g.spec.kind, p.node, slot % g.laneCapacity,
          w.mem (.generation slot) + 1⟩, 0, p.node, p.incarnation⟩⟩ g = slot :=
        (locateIn_ok hloc).2.2.2.symm
      refine h.running.start ⟨⟨⟨g.spec.kind, p.node, slot % g.laneCapacity,
        w.mem (.generation slot) + 1⟩, 0, p.node, p.incarnation⟩⟩ ?_ ?_ ?_ (fun i hi => ?_) ?_
      · simp [exec, hrun, hresult, Except.toOption]
      · rw [hslot]
        exact hloc
      · rw [hslot]
        exact hreg.installed.generation
      · rw [hslot] at hi
        exact (hreg.slots i hi).steady
      · have hgen : (exec w (.registerActive p key capacity now)).mem (.generation slot) =
            w.mem (.generation slot) + 1 := hreg.installed.generation
        have hactive : active (exec w (.registerActive p key capacity now)).mem slot = 1 := by
          rw [active, show (exec w (.registerActive p key capacity now)).mem (.units slot) = _ from
            hreg.units]
          rfl
        rw [hslot]
        refine ⟨by omega, ?_⟩
        rw [h.running.renewed (by omega : w.mem (.generation slot) <
          (exec w (.registerActive p key capacity now)).mem (.generation slot)), hactive]

theorem AvailableLedger.unregister (p : Pool g) (id : ResourceId)
    (hok : AvailableOk w (.unregister p id)) :
    Stocked g (exec w (.unregister p id)).mem ∧ Running (exec w (.unregister p id)) := by
  rcases @run_unregister g w.mem p id with hmem | ⟨slot, howned, hclosed⟩
  · have hmem' : (exec w (.unregister p id)).mem = w.mem := hmem
    refine ⟨hmem' ▸ h.stocked, h.running.of_steady rfl fun slot => .of_words fun a _ => ?_⟩
    exact congrFun hmem a
  · refine ⟨hclosed.stocked hg h.stocked (locate_lt howned.located) howned.held (hok.2 slot howned),
      h.running.of_steady rfl hclosed.steady⟩

omit hg in
theorem AvailableLedger.drain (p : Pool g) (id : ResourceId) (hok : AvailableOk w (.drain p id)) :
    Stocked g (exec w (.drain p id)).mem ∧ Running (exec w (.drain p id)) := by
  rcases @run_drain g w.mem p id with hmem | ⟨slot, howned, hlive, hmem⟩
  · have hmem' : (exec w (.drain p id)).mem = w.mem := hmem
    refine ⟨hmem' ▸ h.stocked, h.running.of_steady rfl fun slot => .of_words fun a _ => ?_⟩
    exact congrFun hmem a
  · have hmem' : (exec w (.drain p id)).mem = update w.mem (.state slot) resourceDraining :=
      hmem
    refine ⟨hmem' ▸ h.stocked.drain (locate_lt howned.located) hlive (hok.2 slot howned hlive),
      h.running.of_steady rfl fun i => .inl ?_⟩
    rw [hmem']
    refine ⟨by simp, fun hheld => ⟨?_, by simp [active]⟩⟩
    by_cases hi : i = slot
    · exact hi ▸ howned.held
    · simpa [Held, hi] using hheld

theorem AvailableLedger.reconcile (p : Pool g) (id : ResourceId) (nowActive : UInt32)
    (grace now : Nat) (hok : AvailableOk w (.reconcile p id nowActive grace now)) :
    Stocked g (exec w (.reconcile p id nowActive grace now)).mem ∧
      Running (exec w (.reconcile p id nowActive grace now)) := by
  rcases run_reconcile p id nowActive.toNat grace now w.mem with hmem | ⟨slot, aged, hrec⟩
  · have hmem' : (exec w (.reconcile p id nowActive grace now)).mem = w.mem := hmem
    refine ⟨hmem' ▸ h.stocked, h.running.of_steady rfl fun slot => .of_words fun a _ => ?_⟩
    exact congrFun hmem a
  · have howned := hrec.owned
    have hlive := hok.2.2 slot howned
    -- the executions of the id are those running on its slot
    have hcount : nowActive.toNat = w.running slot := by
      rw [hok.2.1, World.running]
      refine List.countP_congr fun e he => ?_
      have hloc := (h.running.located e he).1
      simp only [decide_eq_true_eq]
      constructor
      · intro hid
        rw [hid] at hloc
        exact ⟨Except.ok.inj (hloc.symm.trans howned.located), by rw [hid, howned.generation]⟩
      · rintro ⟨hs, hgen⟩
        rw [hs] at hloc
        exact locateIn_inj hloc howned.located (hgen.trans howned.generation)
    have hle : nowActive.toNat ≤ active w.mem slot := hcount ▸ h.running.active slot howned.held
    refine ⟨hrec.stocked hg h.stocked hlive hle, ⟨fun e he => ?_, fun i hheld => ?_⟩⟩
    · have hgen : (exec w (.reconcile p id nowActive grace now)).mem (.generation (e.slot g)) =
          w.mem (.generation (e.slot g)) := hrec.words _ (by simp) (by simp) (by simp [Addr.part])
      rw [hgen]
      exact h.running.located e he
    · have hgen : (exec w (.reconcile p id nowActive grace now)).mem (.generation i) =
          w.mem (.generation i) := hrec.words _ (by simp) (by simp) (by simp [Addr.part])
      have hrunning : (exec w (.reconcile p id nowActive grace now)).running i = w.running i := by
        simp only [World.running, hgen]
        rfl
      rw [hrunning]
      by_cases hi : i = slot
      · subst hi
        have hnew := (halves_of_units hrec.units (by have := reserved_lt w.mem i; omega)
          nowActive.toNat_lt).2
        rw [← hcount]
        exact hnew.ge
      · have hstate : (exec w (.reconcile p id nowActive grace now)).mem (.state i) =
            w.mem (.state i) := hrec.words _ (by simp) (by simp) (by simp [Addr.part])
        have hunits : (exec w (.reconcile p id nowActive grace now)).mem (.units i) =
            w.mem (.units i) := hrec.words _ (by simp) (by simpa using hi) (by simp [Addr.part])
        rw [Held, hstate] at hheld
        rw [active, hunits]
        exact h.running.active i hheld

theorem AvailableLedger.reserve (p : Pool g) (id : ResourceId) (now : Nat) :
    Stocked g (exec w (.reserve p id now)).mem ∧ Running (exec w (.reserve p id now)) := by
  have hunits : ∀ slot, reserved w.mem slot + 1 < 2 ^ 32 := fun slot => by
    have hle := pendingCount_le w.mem slot
    rw [h.leases.units slot]
    omega
  rcases run_reserve p id now w.mem with ⟨-, hnot, -⟩ | ⟨slot, entry, hres, -⟩
  · refine ⟨hnot.stocked h.stocked hunits, h.running.of_steady rfl fun i => .inl ?_⟩
    have hword := hnot.words
    have hstate : (exec w (.reserve p id now)).mem (.state i) = w.mem (.state i) :=
      hword _ (by simp) (by simp) (by simp)
    refine ⟨hword _ (by simp) (by simp) (by simp), fun hheld => ⟨?_, ?_⟩⟩
    · rwa [Held, hstate] at hheld
    · exact (hnot.reserved i (hunits i)).2.ge
  · refine ⟨hres.stocked hg h.stocked, h.running.of_steady rfl fun i => .inl ?_⟩
    have hmem : (exec w (.reserve p id now)).mem = _ := hres.mem_eq
    refine ⟨by simp [hmem], fun hheld => ⟨by simpa [Held, hmem] using hheld, ?_⟩⟩
    by_cases hi : i = slot
    · subst hi
      have hword : (exec w (.reserve p id now)).mem (.units i) =
          packCounts (reserved w.mem i + 1) (active w.mem i) := by simp [hmem]
      exact (halves_of_units hword (hunits i) (active_lt w.mem i)).2.ge
    · simp [active, hmem, hi]

theorem AvailableLedger.cancelReservation (p : Pool g) (lease : Lease)
    (hok : AvailableOk w (.cancelReservation p lease)) :
    Stocked g (exec w (.cancelReservation p lease)).mem ∧
      Running (exec w (.cancelReservation p lease)) := by
  rcases run_cancelReservation p lease w.mem with ⟨-, hmem⟩ | ⟨slot, entry, htaken, -, hmem⟩
  · have hmem' : (exec w (.cancelReservation p lease)).mem = w.mem := hmem
    refine ⟨hmem' ▸ h.stocked, h.running.of_steady rfl fun slot => .of_words fun a _ => ?_⟩
    exact congrFun hmem a
  · have hlive : w.mem (.state slot) = resourceLive :=
      (hok.2 slot htaken.located).resolve_right fun hno =>
        hno entry htaken.entry_lt htaken.pending
    have hpos := htaken.reserved_pos hok.1.1 (h.leases.units slot)
    have hmem' : (exec w (.cancelReservation p lease)).mem = _ := hmem
    refine ⟨htaken.stocked_cancel hg h.stocked hpos hlive hmem', h.running.of_steady rfl
      fun i => .inl ⟨by simp [hmem'], fun hheld => ⟨by simpa [Held, hmem'] using hheld, ?_⟩⟩⟩
    by_cases hi : i = slot
    · subst hi
      have hword : (exec w (.cancelReservation p lease)).mem (.units i) =
          packCounts (reserved w.mem i - 1) (active w.mem i) := by simp [hmem']
      have hlt := reserved_lt w.mem i
      exact (halves_of_units hword (by omega) (active_lt w.mem i)).2.ge
    · simp [active, hmem', hi]

omit hg in
theorem AvailableLedger.accept (p : Pool g) (lease : Lease) (hok : AvailableOk w (.accept p lease)) :
    Stocked g (exec w (.accept p lease)).mem ∧ Running (exec w (.accept p lease)) := by
  rcases run_accept p lease w.mem with ⟨⟨e, he⟩, hmem⟩ |
    ⟨slot, entry, htaken, howned, hlive, hresult, hmem⟩
  · have hmem' : (exec w (.accept p lease)).mem = w.mem := hmem
    refine ⟨hmem' ▸ h.stocked, h.running.of_steady ?_ fun slot => .of_words fun a _ => ?_⟩
    · simp [exec, he, keep]
    · exact congrFun hmem a
  · have hpos := htaken.reserved_pos hok.1.1 (h.leases.units slot)
    have hmem' : (exec w (.accept p lease)).mem = _ := hmem
    have hslot : Execution.slot ⟨lease⟩ g = slot := (locateIn_ok howned.located).2.2.2.symm
    refine ⟨htaken.stocked_accept h.stocked hpos hlive hmem',
      h.running.start ⟨lease⟩ (by simp [exec, hresult, keep]) (by rw [hslot]; exact howned.located)
        ?_ (fun i hi => .inl ?_) ?_⟩
    · rw [hslot, hmem']
      simpa using howned.generation
    · rw [hslot] at hi
      refine ⟨by simp [hmem'], fun hheld => ⟨by simpa [Held, hmem'] using hheld, ?_⟩⟩
      simp [active, hmem', hi]
    · rw [hslot]
      have hgen : (exec w (.accept p lease)).mem (.generation slot) = w.mem (.generation slot) := by
        simp [hmem']
      have hword : (exec w (.accept p lease)).mem (.units slot) =
          packCounts (reserved w.mem slot - 1) (active w.mem slot + 1) := by simp [hmem']
      have hlt := reserved_lt w.mem slot
      have hactive := (halves_of_units hword (by omega) (hok.1.2 slot howned.located)).2
      have hold := h.running.active slot howned.held
      refine ⟨hgen.ge, ?_⟩
      rw [World.running] at hold
      simp only [hgen, hactive]
      omega

theorem AvailableLedger.finished {w' : World g} {n : Nat} {execution : Execution}
    {maxIdle : Option Nat} (hn : w.executions[n]? = some execution)
    (hlimit : ∀ limit, maxIdle = some limit → limit < 2 ^ 32)
    (hmem : w'.mem = ((execution.finish g maxIdle).run w.mem).2)
    (hexec : w'.executions = w.executions.eraseIdx n) : Stocked g w'.mem ∧ Running w' := by
  have hin := List.mem_of_getElem? hn
  have hloc := (h.running.located execution hin).1
  have hactive := execution.finish_active (g := g) maxIdle w.mem
  rw [← hmem] at hactive
  constructor
  · rw [hmem]
    refine execution.stocked_finish hg maxIdle hlimit h.stocked
      (locate_lt (p := ⟨⟨execution.lease.id.node, (locateIn_ok hloc).2.1⟩, 0⟩) hloc) ?_
    intro hgen hheld
    refine Nat.lt_of_lt_of_le ?_ (h.running.active _ hheld)
    rw [World.running, List.countP_pos_iff]
    exact ⟨execution, hin, by simp [hgen]⟩
  · refine h.running.finish hn hexec (fun slot => (hactive slot).1) (fun slot hheld => ?_)
      fun slot => (hactive slot).2.2
    rwa [Held, (hactive slot).2.1] at hheld

theorem AvailableLedger.nodeDead (node : Fin g.fleetCapacity) (incarnation : Nat)
    (hok : AvailableOk w (.nodeDead node incarnation)) :
    Stocked g (exec w (.nodeDead node incarnation)).mem ∧
      Running (exec w (.nodeDead node incarnation)) := by
  have hclose := @closeOwned_keeps g w.mem (fun mem => Stocked g mem ∧
    (∀ slot, mem (.state slot) = resourceDraining → mem (.ownerNode slot) = node →
      mem (.ownerIncarnation slot) = incarnation → Full mem slot) ∧
    ∀ slot, Held mem slot → Held w.mem slot) node incarnation
    (fun mem mem' slot hI hheld hlt hn hi hclosed => by
      have hword : ∀ i (a : Addr), a.slot? = some i → a ≠ .state slot → mem' a = mem a :=
        fun i a ha hne => hclosed.words a hne (a.part_ne_of_slot? ha (by simp) (by simp))
          (a.part_ne_of_slot? ha (by simp) (by simp)) (a.part_ne_of_slot? ha (by simp) (by simp))
      refine ⟨hclosed.stocked hg hI.1 hlt hheld fun hd => hI.2.1 slot hd hn hi,
        fun i hd hn' hi' => ?_, fun i hheld' => ?_⟩
      · have hne : i ≠ slot := by
          rintro rfl
          rw [hclosed.state] at hd
          exact absurd hd (by decide)
        rw [hword i _ rfl (by simpa using hne)] at hd
        rw [hword i _ rfl (by simp)] at hn' hi'
        rw [Full, reserved, active, hword i _ rfl (by simp), hword i _ rfl (by simp)]
        exact hI.2.1 i hd hn' hi'
      · rcases hclosed.steady i with ⟨-, hkeep⟩ | hgen
        · exact hI.2.2 i (hkeep hheld').1
        · rw [hword i _ rfl (by simp)] at hgen
          omega)
    ⟨h.stocked, hok.2, fun _ hheld => hheld⟩
  have hmem : (exec w (.nodeDead node incarnation)).mem =
      ((returnClaims g node (List.range g.keyCapacity)).run
        ((closeOwned g node incarnation (List.range g.totalResources)).run w.mem).2).2 := by
    simp [exec, OrbitPool.nodeDead]
  generalize ((closeOwned g node incarnation (List.range g.totalResources)).run w.mem).2 = mem1 at *
  have hreturn : ∀ a : Addr, a.part = .keys ∨ a.part = .available ∨ (∃ i, a.slot? = some i) →
      (exec w (.nodeDead node incarnation)).mem a = mem1 a := by
    intro a ha
    rw [hmem]
    refine (within_returnClaims node _ fun a ha => ha).run_eq mem1 ?_
    rcases ha with ha | ha | ⟨i, ha⟩
    · simp [ha]
    · simp [ha]
    · rcases a.part_of_slot? ha with hp | hp <;> simp [hp]
  refine ⟨hclose.1.same (fun k hk => ?_) (fun slot => .of_words fun a ha => ?_) (fun k => ?_),
    h.running.of_steady rfl fun slot => .inl ⟨?_, fun hheld => ⟨?_, ?_⟩⟩⟩
  · exact ⟨(hreturn _ (.inl rfl)).trans hk, hreturn _ (.inl rfl), hreturn _ (.inl rfl)⟩
  · exact hreturn a (.inr (.inr ⟨slot, ha⟩))
  · exact hreturn _ (.inr (.inl rfl))
  · exact run_nodeDead_slot node incarnation w.mem rfl (by simp)
  · refine hclose.2.2 slot ?_
    rwa [Held, hreturn _ (.inr (.inr ⟨slot, rfl⟩))] at hheld
  · have hunits : (exec w (.nodeDead node incarnation)).mem (.units slot) = w.mem (.units slot) :=
      run_nodeDead_slot node incarnation w.mem rfl (by simp)
    rw [active, active, hunits]

theorem AvailableLedger.step (op : Op g) (hok : AvailableOk w op) :
    Stocked g (exec w op).mem ∧ Running (exec w op) := by
  cases op with
  | register p key capacity now => exact h.register hg p key capacity now hok
  | registerActive p key capacity now => exact h.registerActive hg p key capacity now hok
  | unregister p id => exact h.unregister hg p id hok
  | drain p id => exact h.drain p id hok
  | reconcile p id nowActive grace now => exact h.reconcile hg p id nowActive grace now hok
  | reserve p id now => exact h.reserve hg p id now
  | cancelReservation p lease => exact h.cancelReservation hg p lease hok
  | accept p lease => exact h.accept p lease hok
  | nodeDead node incarnation => exact h.nodeDead hg node incarnation hok
  | complete n =>
    simp only [exec]
    split
    · rename_i execution hn
      have hlimit : ∀ limit, (none : Option Nat) = some limit → limit < 2 ^ 32 := by simp
      exact h.finished hg hn hlimit (run_complete_mem execution) rfl
    · exact ⟨h.stocked, h.running⟩
  | completeIdle n maxIdle =>
    simp only [exec]
    split
    · rename_i execution hn
      have hlt := maxIdle.toNat_lt
      refine h.finished hg hn (fun limit heq => ?_) (run_completeIdle_mem execution maxIdle.toNat)
        rfl
      rw [if_pos hg] at heq
      cases heq
      exact hlt
    · exact ⟨h.stocked, h.running⟩
  | dropCreation n | dropAdmission n =>
    refine h.untouched _ (by simp [Op.touches]) (by simp [Op.touches]) ?_
    simp only [exec]
    split <;> rfl
  | _ => exact h.untouched _ (by simp [Op.touches]) (by simp [Op.touches]) rfl

theorem AvailableLedger.exec (op : Op g) (hok : AvailableOk w op) :
    AvailableLedger (exec w op) := by
  have hstep := h.step hg op hok
  exact ⟨(exec_keyStep h.keys op).table, h.leases.exec h.keys op hok.1, hstep.1, hstep.2⟩

end

theorem availableLedger_run (hg : g.spec.fleetAvailability = true) (ops : List (Op g))
    (hok : Meets exec AvailableOk (World.init g) ops) : AvailableLedger (run g ops) :=
  hok.holds (fun _ op h hop => h.exec hg op hop) (.init g)

/-- On a table that tracks availability, in every sequence of whole operations whose steps meet the
condition: each available word is the number of free units of the live resources under its key, and
a live resource with a free unit and a free pending entry can be reserved. -/
theorem availability_ledger (g : Geometry) (hg : g.spec.fleetAvailability = true)
    (ops : List (Op g)) (hok : Meets exec AvailableOk (World.init g) ops) :
    (∀ k, (run g ops).mem (.available k) = freeUnits g (run g ops).mem k) ∧
    ∀ (p : Pool g) (id : ResourceId) (slot now : Nat), p.locate id = .ok slot →
      (run g ops).mem (.state slot) = resourceLive →
      (run g ops).mem (.generation slot) = id.generation →
      reserved (run g ops).mem slot + active (run g ops).mem slot < (run g ops).mem (.capacity slot) →
      (∃ entry < pendingReservations, (run g ops).mem (.pending slot entry) = 0) →
      ∃ lease, ((p.reserve id now).run (run g ops).mem).1 = .ok lease := by
  have h := availableLedger_run hg ops hok
  refine ⟨h.stocked.total, fun p id slot now hlocated hlive hgen hroom hentry => ?_⟩
  have hcap := (h.stocked.room slot (.inl hlive)).2
  have hused : add32 (reserved (run g ops).mem slot) (active (run g ops).mem slot) =
      reserved (run g ops).mem slot + active (run g ops).mem slot := add32_of_lt (by omega)
  rcases run_reserve p id now (run g ops).mem with ⟨-, -, hno⟩ | ⟨i, entry, -, hlease⟩
  · refine absurd ⟨hlocated, hlive, hgen, by rw [hused]; exact hroom, fun _ => ?_, hentry⟩ (hno slot)
    have hle := h.stocked.freeUnder_le_available (locate_lt hlocated)
      ((run g ops).mem (.keyIndex slot))
    rw [freeUnder_of_live hlive, if_pos rfl] at hle
    omega
  · exact ⟨_, hlease⟩

theorem trackedTable_valid : (⟨247, 1, 1, true, false⟩ : PoolSpec).validate = .ok () := by decide

def trackedTable : Geometry := ⟨⟨247, 1, 1, true, false⟩, 1, trackedTable_valid, one_lt_u16⟩

def trackedNode : Pool trackedTable := ⟨⟨0, by decide⟩, 1⟩

theorem locate_tracked {slot : Nat} (h : trackedNode.locate (tenant 1) = .ok slot) : slot = 0 :=
  (locateIn_ok h).2.2.2

def halfUsed : List (Op trackedTable) :=
  [.register trackedNode .sample 3 0, .reserve trackedNode (tenant 1) 0,
    .accept trackedNode (firstLease 1), .reserve trackedNode (tenant 1) 0]

theorem availability_ledger_halfUsed :
    (run trackedTable halfUsed).mem (.available 0) = 1 ∧
    freeUnits trackedTable (run trackedTable halfUsed).mem 0 = 1 ∧
    ∃ lease, ((trackedNode.reserve (tenant 1) 0).run (run trackedTable halfUsed).mem).1 =
      .ok lease := by
  have hok : Meets exec AvailableOk (World.init trackedTable) halfUsed := by
    refine ⟨⟨trivial, fun k hk => ?_⟩, ⟨fun slot h => ?_, trivial⟩, ⟨⟨by decide, fun slot h => ?_⟩,
      trivial⟩, ⟨fun slot h => ?_, trivial⟩, trivial⟩
    · cases hk.1
    all_goals
      obtain rfl := locate_tracked h
      decide +kernel
  have hmain := availability_ledger trackedTable rfl halfUsed hok
  have havailable : (run trackedTable halfUsed).mem (.available 0) = 1 := by decide +kernel
  refine ⟨havailable, (hmain.1 0).symm.trans havailable, ?_⟩
  exact hmain.2 trackedNode (tenant 1) 0 0 (by decide) (by decide +kernel) (by decide +kernel)
    (by decide +kernel) ⟨1, by decide, by decide +kernel⟩

def sixteenPending : List (Op trackedTable) :=
  .register trackedNode .sample 17 0 :: List.replicate 16 (.reserve trackedNode (tenant 1) 0)

/-- It has a free unit, which the ledger counts, and cannot be reserved. -/
theorem free_unit_not_reservable :
    (run trackedTable sixteenPending).mem (.state 0) = resourceLive ∧
    (run trackedTable sixteenPending).mem (.capacity 0) = 17 ∧
    reserved (run trackedTable sixteenPending).mem 0 +
      active (run trackedTable sixteenPending).mem 0 = 16 ∧
    (run trackedTable sixteenPending).mem (.available 0) = 1 ∧
    ((trackedNode.reserve (tenant 1) 0).run (run trackedTable sixteenPending).mem).1 =
      .error (.busy (tenant 1)) := by
  decide +kernel

end OrbitPool
