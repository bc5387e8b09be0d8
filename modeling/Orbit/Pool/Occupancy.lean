import Orbit.Pool.Calls
import Orbit.Pool.Reservations
import Mathlib.Data.Multiset.Count

/-! One slot under interleaved calls: which units, fences and entries belong to the generation that
lives in it, and what each access of a call does to them.  The tokens say what a call holds between
two of its accesses: a unit it has counted, a fence it has minted, an entry it has taken, or a fact
about the slot that no other call can undo. -/

namespace OrbitPool

open Orbit.Atomic Function Multiset

/-- The words of a slot that decide its occupancy. -/
structure Words where
  state : Nat
  generation : Nat
  capacity : Nat
  units : Nat
  fence : Nat
  pending : Nat → Nat

namespace Words

def reserved (w : Words) : Nat := (unpackCounts w.units).1
def active (w : Words) : Nat := (unpackCounts w.units).2

def Held (w : Words) : Prop := w.state = resourceLive ∨ w.state = resourceDraining

theorem reserved_lt (w : Words) : w.reserved < 2 ^ 32 := (unpackCounts_lt _).1
theorem active_lt (w : Words) : w.active < 2 ^ 32 := (unpackCounts_lt _).2

theorem packed (w : Words) {reserved active : Nat} (hr : reserved < 2 ^ 32) (ha : active < 2 ^ 32) :
    Words.reserved { w with units := packCounts reserved active } = reserved ∧
      Words.active { w with units := packCounts reserved active } = active := by
  simp only [Words.reserved, Words.active, unpackCounts_packCounts, Nat.mod_eq_of_lt hr,
    Nat.mod_eq_of_lt ha, and_self]

end Words

/-- What the holder of a lane's mutex is doing: nothing with a slot yet, about to install one that
is free, with its generation read, or on the way through its installation, with the capacity
stored, the units cleared and the first entries cleared as far as it has come. -/
inductive LaneToken where
  | held
  | idle (slot : Nat)
  | ready (slot generation : Nat)
  | fresh (slot generation capacity : Nat) (sized blank : Bool) (cleared : Nat)
  deriving DecidableEq

def LaneToken.slot? : LaneToken → Option Nat
  | held => none
  | idle slot | ready slot _ | fresh slot .. => some slot

def LaneToken.Holds (t : Tenancy) (w : Words) : LaneToken → Prop
  | held => True
  | idle _ => ¬w.Held ∧ t.tenant = w.generation
  | ready _ generation => ¬w.Held ∧ t.tenant = w.generation ∧ w.generation = generation
  | fresh _ generation capacity sized blank cleared =>
    ¬w.Held ∧ t.tenant = generation + 1 ∧ w.generation = generation ∧
      t.granted t.tenant = capacity ∧ (sized → w.capacity = capacity) ∧ (blank → w.reserved + w.active ≤ 1) ∧
      ∀ entry < cleared, w.pending entry = 0

/-- What a call holds of a slot.  `unit` and `act` are a reserved and an active unit of a
generation, `minted` and `placed` a fence before and after it stands in an entry, `taken` a lease
whose entry the call has emptied; `seen`, `past`, `room` and `presents` are facts that stay. -/
inductive SlotToken where
  | unit (generation : Nat)
  | act (generation : Nat)
  | minted (generation fence : Nat)
  | placed (generation fence : Nat)
  | taken (lease : Lease)
  | seen (generation : Nat)
  | past (generation : Nat)
  | room (generation capacity : Nat)
  | presents (lease : Lease)
  deriving DecidableEq

def SlotToken.Holds (t : Tenancy) (w : Words) : SlotToken → Prop
  | unit generation | act generation => generation ≤ w.generation
  | minted generation fence =>
    generation ≤ w.generation ∧ fence ≠ 0 ∧ fence < placing ∧
      (∀ lease ∈ t.issued, lease.id.generation = generation → lease.fence ≠ fence) ∧
      (generation = t.tenant → fence ≤ w.fence ∧
        ∀ entry < pendingReservations, w.pending entry ≠ fence)
  | placed generation fence =>
    generation ≤ w.generation ∧ fence ≠ 0 ∧ fence < placing ∧
      (∀ lease ∈ t.issued, lease.id.generation = generation → lease.fence ≠ fence) ∧
      (generation = t.tenant → fence ≤ w.fence)
  | taken lease =>
    lease ∈ t.issued ∧ (lease.id.generation = t.tenant → lease ∈ t.leases ∧
      ∀ entry < pendingReservations, w.pending entry ≠ lease.fence)
  | seen generation => 0 < generation ∧ generation ≤ w.generation
  | past generation => generation < t.tenant
  | room generation capacity =>
    generation ≤ w.generation ∧ (t.tenant = generation → t.granted generation = capacity)
  | presents lease => lease ∈ t.issued

/-- The resource in the slot, unless one is being installed: its units count its leases and its
executions and are within its capacity, and an entry carries a fence minted for it. -/
structure Settled (tokens : Multiset SlotToken) (t : Tenancy) (w : Words) : Prop where
  capacity : w.capacity = t.granted t.tenant
  room : w.reserved + w.active ≤ t.granted t.tenant
  reserved : t.leased t.tenant + tokens.count (.unit t.tenant) ≤ w.reserved
  active : t.running t.tenant + tokens.count (.act t.tenant) ≤ w.active
  entries : ∀ entry < pendingReservations, w.pending entry ≠ 0 → w.pending entry ≠ placing →
    w.pending entry ≤ w.fence
  distinct : ∀ entry < pendingReservations, ∀ other < pendingReservations, w.pending entry ≠ 0 →
    w.pending entry ≠ placing → w.pending other = w.pending entry → other = entry

structure SlotOk (slot : Nat) (mutex : Multiset LaneToken) (tokens : Multiset SlotToken)
    (t : Tenancy) (w : Words) : Prop where
  lane : ∀ token ∈ mutex, token.slot? = some slot → token.Holds t w
  holds : ∀ token ∈ tokens, token.Holds t w
  window : t.tenant = w.generation ∨
    ∃ generation capacity sized blank cleared,
      LaneToken.fresh slot generation capacity sized blank cleared ∈ mutex
  settled : t.tenant = w.generation → Settled tokens t w
  positive : t.tenant ≠ 0 → 0 < t.granted t.tenant
  bounded : t.granted t.tenant < 2 ^ 32
  reached : ∀ lease ∈ t.issued, lease.id.generation ≤ w.generation
  fences : ∀ lease ∈ t.issued, lease.fence ≠ 0 ∧ lease.fence < placing
  issued : ∀ lease ∈ t.issued, lease.id.generation = t.tenant → lease.fence ≤ w.fence ∧
    ∀ entry < pendingReservations, w.pending entry = lease.fence →
      lease ∈ t.leases ∧ .taken lease ∉ tokens
  unique : ∀ lease ∈ t.issued, ∀ other ∈ t.issued,
    other.id.generation = lease.id.generation → other.fence = lease.fence → other = lease
  leases : ∀ lease ∈ t.leases, lease ∈ t.issued
  nodup : t.leases.Nodup
  executions : ∀ execution ∈ t.executions, execution.lease.id.generation ≤ w.generation
  minted : ∀ generation fence,
    tokens.count (.minted generation fence) + tokens.count (.placed generation fence) ≤ 1
  taken : ∀ lease : Lease, lease.id.generation = t.tenant → tokens.count (.taken lease) ≤ 1

namespace SlotOk

variable {slot : Nat} {mutex : Multiset LaneToken} {tokens rest : Multiset SlotToken} {t : Tenancy}
  {w : Words}

theorem init (slot : Nat) : SlotOk slot 0 0 ⟨0, fun _ => 0, [], [], []⟩ ⟨0, 0, 0, 0, 0, fun _ => 0⟩ where
  lane _ h := by simp at h
  holds _ h := by simp at h
  window := .inl rfl
  settled _ := ⟨rfl, Nat.le_refl _, Nat.le_refl _, Nat.le_refl _, fun _ _ h => absurd rfl h,
    fun _ _ _ _ h => absurd rfl h⟩
  positive h := absurd rfl h
  bounded := by decide
  reached _ h := by cases h
  fences _ h := by cases h
  issued _ h := by cases h
  unique _ h := by cases h
  leases _ h := by cases h
  nodup := List.nodup_nil
  executions _ h := by cases h
  minted _ _ := by simp
  taken _ _ := by simp

theorem mono (h : SlotOk slot mutex tokens t w) (hle : rest ≤ tokens) : SlotOk slot mutex rest t w where
  lane := h.lane
  holds token hmem := h.holds token (mem_of_le hle hmem)
  window := h.window
  settled hs := by
    have hold := h.settled hs
    have hunit := count_le_of_le (.unit t.tenant) hle
    have hact := count_le_of_le (.act t.tenant) hle
    have hreserved := hold.reserved
    have hactive := hold.active
    exact ⟨hold.capacity, hold.room, by omega, by omega, hold.entries, hold.distinct⟩
  positive := h.positive
  bounded := h.bounded
  reached := h.reached
  fences := h.fences
  issued lease hlease heq := by
    obtain ⟨hfence, hentries⟩ := h.issued lease hlease heq
    refine ⟨hfence, fun entry hentry hp => ?_⟩
    obtain ⟨hin, hnot⟩ := hentries entry hentry hp
    exact ⟨hin, fun hmem => hnot (mem_of_le hle hmem)⟩
  unique := h.unique
  leases := h.leases
  nodup := h.nodup
  executions := h.executions
  minted generation fence := by
    have hold := h.minted generation fence
    have h1 := count_le_of_le (.minted generation fence) hle
    have h2 := count_le_of_le (.placed generation fence) hle
    omega
  taken lease heq := (count_le_of_le _ hle).trans (h.taken lease heq)

theorem learn (h : SlotOk slot mutex rest t w) {token : SlotToken} (hholds : token.Holds t w)
    (hfact : ∀ v f lease, token ≠ .unit v ∧ token ≠ .act v ∧ token ≠ .minted v f ∧
      token ≠ .placed v f ∧ token ≠ .taken lease) : SlotOk slot mutex (token ::ₘ rest) t w where
  lane := h.lane
  holds other hmem := by
    rcases mem_cons.mp hmem with rfl | hmem
    · exact hholds
    · exact h.holds other hmem
  window := h.window
  settled hs := by
    have hold := h.settled hs
    have h1 := (hfact t.tenant 0 ⟨⟨0, 0, 0, 0⟩, 0, 0, 0⟩).1
    have h2 := (hfact t.tenant 0 ⟨⟨0, 0, 0, 0⟩, 0, 0, 0⟩).2.1
    refine ⟨hold.capacity, hold.room, ?_, ?_, hold.entries, hold.distinct⟩
    · rw [count_cons_of_ne h1.symm]
      exact hold.reserved
    · rw [count_cons_of_ne h2.symm]
      exact hold.active
  positive := h.positive
  bounded := h.bounded
  reached := h.reached
  fences := h.fences
  issued lease hlease heq := by
    obtain ⟨hfence, hentries⟩ := h.issued lease hlease heq
    refine ⟨hfence, fun entry hentry hp => ?_⟩
    obtain ⟨hin, hnot⟩ := hentries entry hentry hp
    refine ⟨hin, fun hmem => ?_⟩
    rcases mem_cons.mp hmem with heq' | hmem
    · exact (hfact 0 0 lease).2.2.2.2 heq'.symm
    · exact hnot hmem
  unique := h.unique
  leases := h.leases
  nodup := h.nodup
  executions := h.executions
  minted generation fence := by
    obtain ⟨-, -, h1, h2, -⟩ := hfact generation fence ⟨⟨0, 0, 0, 0⟩, 0, 0, 0⟩
    rw [count_cons_of_ne h1.symm, count_cons_of_ne h2.symm]
    exact h.minted generation fence
  taken lease heq := by
    rw [count_cons_of_ne (hfact 0 0 lease).2.2.2.2.symm]
    exact h.taken lease heq

theorem generation_le (h : SlotOk slot mutex tokens t w) : w.generation ≤ t.tenant := by
  rcases h.window with heq | ⟨_, _, _, _, _, hmem⟩
  · exact heq.ge
  · have hfresh := h.lane _ hmem rfl
    have h1 := hfresh.2.1
    have h2 := hfresh.2.2.1
    omega

theorem settled_of_le (h : SlotOk slot mutex tokens t w) {v : Nat} (hv : v ≤ w.generation)
    (ht : t.tenant = v) : t.tenant = w.generation := by
  have hle := h.generation_le
  omega

theorem not_fresh (h : SlotOk slot mutex tokens t w) (hs : t.tenant = w.generation)
    {generation capacity : Nat} {sized blank : Bool} {cleared : Nat} :
    LaneToken.fresh slot generation capacity sized blank cleared ∉ mutex := by
  intro hmem
  have hfresh := h.lane _ hmem rfl
  have h1 := hfresh.2.1
  have h2 := hfresh.2.2.1
  omega

/-- Nobody installs the slot while its resource is settled, so its state and generation are all
that the holder of the mutex relies on. -/
theorem lane_stable (h : SlotOk slot mutex tokens t w) (hs : t.tenant = w.generation) {t' : Tenancy}
    {w' : Words} (htenant : t'.tenant = t.tenant) (hstate : w'.state = w.state)
    (hgen : w'.generation = w.generation) :
    ∀ token ∈ mutex, token.slot? = some slot → token.Holds t' w' := by
  intro token hmem hslot
  have hold := h.lane token hmem hslot
  cases token with
  | held => trivial
  | idle i =>
    rw [LaneToken.Holds, Words.Held, hstate, htenant, hgen]
    exact hold
  | ready i v =>
    rw [LaneToken.Holds, Words.Held, hstate, htenant, hgen]
    exact hold
  | fresh i v capacity sized blank cleared =>
    cases hslot
    exact absurd hmem (h.not_fresh hs)

theorem setState (h : SlotOk slot mutex tokens t w) (state : Nat)
    (hstate : w.Held ∨ ¬(state = resourceLive ∨ state = resourceDraining)) :
    SlotOk slot mutex tokens t { w with state := state } :=
  { h with
    lane := by
      intro token hmem hslot
      have hold := h.lane token hmem hslot
      have hnot : ¬w.Held → ¬Words.Held { w with state := state } := fun hno =>
        hstate.resolve_left hno
      cases token with
      | held => trivial
      | idle i => exact ⟨hnot hold.1, hold.2⟩
      | ready i v => exact ⟨hnot hold.1, hold.2⟩
      | fresh i v capacity sized blank cleared => exact ⟨hnot hold.1, hold.2⟩
    holds := fun token hmem => by
      have hold := h.holds token hmem
      cases token <;> exact hold
    settled := fun hs => by
      have hold := h.settled hs
      exact ⟨hold.capacity, hold.room, hold.reserved, hold.active, hold.entries, hold.distinct⟩ }

theorem holds_units (hholds : ∀ token ∈ tokens, token.Holds t w) (units : Nat) :
    ∀ token ∈ tokens, token.Holds t { w with units := units } := by
  intro token hmem
  have hold := hholds token hmem
  cases token <;> exact hold

theorem count (h : SlotOk slot mutex rest t w) {v : Nat} (hv : v ≤ w.generation) (ht : t.tenant = v)
    (hroom : w.reserved + w.active < t.granted v) :
    SlotOk slot mutex (.unit v ::ₘ rest) t
      { w with units := packCounts (w.reserved + 1) w.active } := by
  have hs := h.settled_of_le hv ht
  have hold := h.settled hs
  have hbound := h.bounded
  rw [ht] at hbound
  obtain ⟨hr, ha⟩ := w.packed (by omega : w.reserved + 1 < 2 ^ 32) w.active_lt
  exact
    { h with
      lane := h.lane_stable hs rfl rfl rfl
      holds := fun token hmem => by
        rcases mem_cons.mp hmem with rfl | hmem
        · exact hv
        · exact holds_units h.holds _ token hmem
      settled := fun _ => by
        have h1 := hold.reserved
        have h2 := hold.active
        refine ⟨hold.capacity, ?_, ?_, ?_, hold.entries, hold.distinct⟩
        · rw [hr, ha, ht]
          omega
        · rw [hr, ht, count_cons_self]
          rw [ht] at h1
          omega
        · rw [ha, count_cons_of_ne (by simp)]
          exact h2
      issued := fun lease hlease heq => by
        obtain ⟨hfence, hentries⟩ := h.issued lease hlease heq
        refine ⟨hfence, fun entry hentry hp => ?_⟩
        simpa using hentries entry hentry hp
      minted := fun generation fence => by simpa using h.minted generation fence
      taken := fun lease heq => by simpa using h.taken lease heq }

theorem undo (h : SlotOk slot mutex (.unit v ::ₘ rest) t w) (ht : t.tenant = v) :
    SlotOk slot mutex rest t { w with units := packCounts (w.reserved - 1) w.active } := by
  have hs := h.settled_of_le (h.holds (.unit v) (by simp)) ht
  have hold := h.settled hs
  have hmono := h.mono (le_cons_self rest (.unit v))
  have hlt := w.reserved_lt
  obtain ⟨hr, ha⟩ := w.packed (by omega : w.reserved - 1 < 2 ^ 32) w.active_lt
  exact
    { hmono with
      lane := h.lane_stable hs rfl rfl rfl
      holds := holds_units hmono.holds _
      settled := fun _ => by
        have h1 := hold.room
        have h2 := hold.reserved
        have h3 := (hmono.settled hs).active
        rw [ht, count_cons_self] at h2
        refine ⟨hold.capacity, ?_, ?_, ?_, hold.entries, hold.distinct⟩
        · rw [hr, ha]
          omega
        · rw [hr, ht]
          omega
        · rw [ha]
          exact h3 }

theorem mint (h : SlotOk slot mutex rest t w) {v : Nat} (hv : v ≤ w.generation) (ht : t.tenant = v)
    (hlt : w.fence + 1 < placing) :
    SlotOk slot mutex (.minted v (w.fence + 1) ::ₘ rest) t { w with fence := w.fence + 1 } := by
  have hs := h.settled_of_le hv ht
  have hold := h.settled hs
  -- no entry, no lease and no other call of this generation has the new fence
  have hentries : ∀ entry < pendingReservations, w.pending entry ≠ w.fence + 1 := by
    intro entry hentry heq
    have hle := hold.entries entry hentry (by omega) (by omega)
    omega
  have hissued : ∀ lease ∈ t.issued, lease.id.generation = v → lease.fence ≠ w.fence + 1 := by
    intro lease hlease hgen heq
    have hle := (h.issued lease hlease (hgen.trans ht.symm)).1
    omega
  have hminted : SlotToken.minted v (w.fence + 1) ∉ rest := by
    intro hmem
    have hle := ((h.holds _ hmem).2.2.2.2 ht.symm).1
    omega
  have hplaced : SlotToken.placed v (w.fence + 1) ∉ rest := by
    intro hmem
    have hle := (h.holds _ hmem).2.2.2.2 ht.symm
    omega
  exact
    { h with
      lane := h.lane_stable hs rfl rfl rfl
      holds := fun token hmem => by
        rcases mem_cons.mp hmem with rfl | hmem
        · exact ⟨hv, by omega, hlt, hissued, fun _ => ⟨Nat.le_refl _, hentries⟩⟩
        · have hold := h.holds token hmem
          cases token with
          | minted generation fence =>
            obtain ⟨h1, h2, h3, h4, h5⟩ := hold
            exact ⟨h1, h2, h3, h4, fun heq => ⟨(h5 heq).1.trans (Nat.le_succ _), (h5 heq).2⟩⟩
          | placed generation fence =>
            obtain ⟨h1, h2, h3, h4, h5⟩ := hold
            exact ⟨h1, h2, h3, h4, fun heq => (h5 heq).trans (Nat.le_succ _)⟩
          | _ => exact hold
      settled := fun _ => by
        refine ⟨hold.capacity, hold.room, ?_, ?_, fun entry hentry h1 h2 => ?_, hold.distinct⟩
        · rw [count_cons_of_ne (by simp)]
          exact hold.reserved
        · rw [count_cons_of_ne (by simp)]
          exact hold.active
        · exact (hold.entries entry hentry h1 h2).trans (Nat.le_succ _)
      issued := fun lease hlease heq => by
        obtain ⟨hfence, hpending⟩ := h.issued lease hlease heq
        refine ⟨hfence.trans (Nat.le_succ _), fun entry hentry hp => ?_⟩
        simpa using hpending entry hentry hp
      minted := fun generation fence => by
        have hle := h.minted generation fence
        by_cases heq : generation = v ∧ fence = w.fence + 1
        · obtain ⟨rfl, rfl⟩ := heq
          simp [count_eq_zero_of_notMem hminted, count_eq_zero_of_notMem hplaced]
        · have hne : SlotToken.minted generation fence ≠ .minted v (w.fence + 1) := by
            rintro ⟨⟩
            exact heq ⟨rfl, rfl⟩
          rw [count_cons_of_ne hne, count_cons_of_ne (by simp)]
          exact hle
      taken := fun lease heq => by simpa using h.taken lease heq }

theorem vacate (h : SlotOk slot mutex tokens t w) {v : Nat} (hv : v ≤ w.generation)
    (ht : t.tenant = v) (pending : Nat → Nat)
    (hpending : ∀ entry, pending entry = w.pending entry ∨ pending entry = 0 ∨
      pending entry = placing) : SlotOk slot mutex tokens t { w with pending := pending } := by
  have hs := h.settled_of_le hv ht
  have hold := h.settled hs
  have hback : ∀ entry, pending entry ≠ 0 → pending entry ≠ placing →
      pending entry = w.pending entry := by
    intro entry h1 h2
    rcases hpending entry with heq | heq | heq
    · exact heq
    · exact absurd heq h1
    · exact absurd heq h2
  have hkeep : ∀ fence entry, fence ≠ 0 → fence < placing → pending entry = fence →
      w.pending entry = fence := by
    intro fence entry h1 h2 heq
    rw [← hback entry (by omega) (by omega)]
    exact heq
  exact
    { h with
      lane := h.lane_stable hs rfl rfl rfl
      holds := fun token hmem => by
        have hold := h.holds token hmem
        cases token with
        | minted generation fence =>
          obtain ⟨h1, h2, h3, h4, h5⟩ := hold
          exact ⟨h1, h2, h3, h4, fun heq => ⟨(h5 heq).1, fun entry hentry hp =>
            (h5 heq).2 entry hentry (hkeep fence entry h2 h3 hp)⟩⟩
        | taken lease =>
          obtain ⟨h1, h2⟩ := hold
          obtain ⟨hne, hlt⟩ := h.fences lease h1
          exact ⟨h1, fun heq => ⟨(h2 heq).1, fun entry hentry hp =>
            (h2 heq).2 entry hentry (hkeep _ entry hne hlt hp)⟩⟩
        | _ => exact hold
      settled := fun _ => by
        refine ⟨hold.capacity, hold.room, hold.reserved, hold.active, fun entry hentry h1 h2 => ?_,
          fun entry hentry other hother h1 h2 heq => ?_⟩
        · have hsame := hback entry h1 h2
          simp only at h1 h2 ⊢
          rw [hsame] at h1 h2 ⊢
          exact hold.entries entry hentry h1 h2
        · simp only at h1 h2 heq
          have hsame := hback entry h1 h2
          have hsame' := hback other (by rw [heq]; exact h1) (by rw [heq]; exact h2)
          rw [hsame] at h1 h2 heq
          rw [hsame'] at heq
          exact hold.distinct entry hentry other hother h1 h2 heq
      issued := fun lease hlease heq => by
        obtain ⟨hfence, hentries⟩ := h.issued lease hlease heq
        obtain ⟨hne, hlt⟩ := h.fences lease hlease
        exact ⟨hfence, fun entry hentry hp =>
          hentries entry hentry (hkeep _ entry hne hlt hp)⟩ }

theorem place (h : SlotOk slot mutex (.minted v f ::ₘ rest) t w) (ht : t.tenant = v) {entry : Nat}
    (hentry : entry < pendingReservations) :
    SlotOk slot mutex (.placed v f ::ₘ rest) t
      { w with pending := update w.pending entry f } := by
  obtain ⟨hv, hf0, hflt, hissued, hcurrent⟩ := h.holds (.minted v f) (by simp)
  obtain ⟨hfence, hnone⟩ := hcurrent ht.symm
  have hs := h.settled_of_le hv ht
  have hold := h.settled hs
  have hmono := h.mono (le_cons_self rest (.minted v f))
  have honce := h.minted v f
  rw [count_cons_self, count_cons_of_ne (by simp)] at honce
  have hminted : SlotToken.minted v f ∉ rest := by
    rw [← Multiset.count_eq_zero]
    omega
  have hother : ∀ e fence, fence ≠ f → update w.pending entry f e = fence →
      w.pending e = fence := by
    intro e fence hne heq
    by_cases he : e = entry
    · subst he
      rw [update_self] at heq
      exact absurd heq.symm hne
    · rwa [update_of_ne he] at heq
  exact
    { hmono with
      lane := h.lane_stable hs rfl rfl rfl
      holds := fun token hmem => by
        rcases mem_cons.mp hmem with rfl | hin
        · exact ⟨hv, hf0, hflt, hissued, fun _ => hfence⟩
        · have hold := hmono.holds token hin
          cases token with
          | minted generation fence =>
            obtain ⟨h1, h2, h3, h4, h5⟩ := hold
            refine ⟨h1, h2, h3, h4, fun heq => ⟨(h5 heq).1, fun e he hp => ?_⟩⟩
            by_cases hff : fence = f
            · subst hff
              rw [heq, ht] at hin
              exact hminted hin
            · exact (h5 heq).2 e he (hother e fence hff hp)
          | taken lease =>
            obtain ⟨h1, h2⟩ := hold
            refine ⟨h1, fun heq => ⟨(h2 heq).1, fun e he hp => ?_⟩⟩
            exact (h2 heq).2 e he (hother e _ (hissued lease h1 (heq.trans ht)) hp)
          | _ => exact hold
      settled := fun _ => by
        have hm := hmono.settled hs
        refine ⟨hold.capacity, hold.room, ?_, ?_, fun e he h1 h2 => ?_,
          fun e he other ho h1 h2 heq => ?_⟩
        · rw [count_cons_of_ne (by simp)]
          exact hm.reserved
        · rw [count_cons_of_ne (by simp)]
          exact hm.active
        · simp only at h1 h2 ⊢
          by_cases hee : e = entry
          · subst hee
            rw [update_self]
            exact hfence
          · rw [update_of_ne hee] at h1 h2 ⊢
            exact hold.entries e he h1 h2
        · simp only at h1 h2 heq
          by_cases hee : e = entry
          · subst hee
            by_contra hoe
            rw [update_self, update_of_ne hoe] at heq
            exact hnone other ho heq
          · rw [update_of_ne hee] at h1 h2 heq
            by_cases hoe : other = entry
            · subst hoe
              rw [update_self] at heq
              exact absurd heq.symm (hnone e he)
            · rw [update_of_ne hoe] at heq
              exact hold.distinct e he other ho h1 h2 heq
      issued := fun lease hlease heq => by
        obtain ⟨hle, hpending⟩ := hmono.issued lease hlease heq
        refine ⟨hle, fun e he hp => ?_⟩
        simpa using hpending e he (hother e _ (hissued lease hlease (heq.trans ht)) hp)
      minted := fun generation fence => by
        have hle := h.minted generation fence
        simp only [count_cons, SlotToken.minted.injEq, SlotToken.placed.injEq,
          reduceCtorEq, if_false, Nat.add_zero] at hle ⊢
        omega
      taken := fun lease heq => by simpa using hmono.taken lease heq }

theorem reserved (h : SlotOk slot mutex (.unit v ::ₘ .placed v f ::ₘ rest) t w) {lease : Lease}
    (hgen : lease.id.generation = v) (hf : lease.fence = f) :
    SlotOk slot mutex rest (t.reserved lease) w := by
  obtain ⟨hv, hf0, hflt, hissued, hcurrent⟩ := h.holds (.placed v f) (by simp)
  have hle : rest ≤ .unit v ::ₘ .placed v f ::ₘ rest :=
    (le_cons_self rest _).trans (le_cons_self _ _)
  have hmono := h.mono hle
  have hnew : lease ∉ t.issued := fun hmem => hissued lease hmem hgen hf
  have honce := h.minted v f
  simp only [count_cons, reduceCtorEq, if_false, if_true, Nat.add_zero] at honce
  have hminted : SlotToken.minted v f ∉ rest := by
    rw [← Multiset.count_eq_zero]
    omega
  have hplaced : SlotToken.placed v f ∉ rest := by
    rw [← Multiset.count_eq_zero]
    omega
  exact
    { hmono with
      holds := fun token hmem => by
        have hold := hmono.holds token hmem
        cases token with
        | minted generation fence =>
          obtain ⟨h1, h2, h3, h4, h5⟩ := hold
          refine ⟨h1, h2, h3, fun other hother hg => ?_, h5⟩
          rcases List.mem_cons.mp hother with rfl | hother
          · rintro rfl
            rw [← hg, hgen, hf] at hmem
            exact hminted hmem
          · exact h4 other hother hg
        | placed generation fence =>
          obtain ⟨h1, h2, h3, h4, h5⟩ := hold
          refine ⟨h1, h2, h3, fun other hother hg => ?_, h5⟩
          rcases List.mem_cons.mp hother with rfl | hother
          · rintro rfl
            rw [← hg, hgen, hf] at hmem
            exact hplaced hmem
          · exact h4 other hother hg
        | taken other =>
          obtain ⟨h1, h2⟩ := hold
          exact ⟨List.mem_cons_of_mem _ h1, fun heq =>
            ⟨List.mem_cons_of_mem _ (h2 heq).1, (h2 heq).2⟩⟩
        | presents other => exact List.mem_cons_of_mem _ hold
        | _ => exact hold
      lane := fun token hmem hslot => by
        have hold := h.lane token hmem hslot
        cases token <;> exact hold
      settled := fun hs => by
        have hold := h.settled hs
        have hreserved := hold.reserved
        refine ⟨hold.capacity, hold.room, ?_, (hmono.settled hs).active, hold.entries,
          hold.distinct⟩
        have htenant : (t.reserved lease).tenant = t.tenant := rfl
        rw [htenant, Tenancy.leased, Tenancy.reserved, List.countP_cons]
        rw [Tenancy.leased, count_cons, count_cons_of_ne (by simp)] at hreserved
        by_cases hcur : t.tenant = v
        · simp only [hgen, hcur, decide_true, if_true] at hreserved ⊢
          omega
        · simp only [hgen, Ne.symm hcur, decide_false, Bool.false_eq_true, if_false]
          omega
      reached := fun other hother => by
        rcases List.mem_cons.mp hother with rfl | hother
        · rw [hgen]
          exact hv
        · exact h.reached other hother
      fences := fun other hother => by
        rcases List.mem_cons.mp hother with rfl | hother
        · rw [hf]
          exact ⟨hf0, hflt⟩
        · exact h.fences other hother
      issued := fun other hother heq => by
        rcases List.mem_cons.mp hother with rfl | hother
        · refine ⟨?_, fun e he hp => ⟨List.mem_cons_self, fun hmem => ?_⟩⟩
          · rw [hf]
            exact hcurrent (hgen.symm.trans heq)
          · exact hnew (hmono.holds _ hmem).1
        · obtain ⟨hle, hpending⟩ := hmono.issued other hother heq
          exact ⟨hle, fun e he hp =>
            ⟨List.mem_cons_of_mem _ (hpending e he hp).1, (hpending e he hp).2⟩⟩
      unique := fun first hfirst second hsecond hg hfence => by
        rcases List.mem_cons.mp hfirst with rfl | hfirst'
        · rcases List.mem_cons.mp hsecond with rfl | hsecond'
          · rfl
          · exact absurd (hfence.trans hf) (hissued second hsecond' (hg.trans hgen))
        · rcases List.mem_cons.mp hsecond with rfl | hsecond'
          · exact absurd (hfence.symm.trans hf) (hissued first hfirst' (hg.symm.trans hgen))
          · exact h.unique first hfirst' second hsecond' hg hfence
      leases := fun other hother => by
        rcases List.mem_cons.mp hother with rfl | hother
        · exact List.mem_cons_self
        · exact List.mem_cons_of_mem _ (h.leases other hother)
      nodup := List.nodup_cons.mpr ⟨fun hmem => hnew (h.leases lease hmem), h.nodup⟩ }

theorem take (h : SlotOk slot mutex rest t w) {lease : Lease} (hlease : lease ∈ t.issued)
    (ht : t.tenant = lease.id.generation) {entry : Nat} (hentry : entry < pendingReservations)
    (hpending : w.pending entry = lease.fence) :
    SlotOk slot mutex (.taken lease ::ₘ rest) t
      { w with pending := update w.pending entry 0 } := by
  have hv := h.reached lease hlease
  obtain ⟨hne, hlt⟩ := h.fences lease hlease
  obtain ⟨hle, hentries⟩ := h.issued lease hlease ht.symm
  obtain ⟨hin, hnot⟩ := hentries entry hentry hpending
  have hs := h.settled_of_le hv ht
  have hold := h.settled hs
  have hvacated := h.vacate hv ht (update w.pending entry 0) fun e => by
    by_cases he : e = entry
    · exact .inr (.inl (he ▸ update_self ..))
    · exact .inl (update_of_ne he _ _)
  have hgone : ∀ e < pendingReservations, update w.pending entry 0 e ≠ lease.fence := by
    intro e he heq
    by_cases hee : e = entry
    · subst hee
      rw [update_self] at heq
      exact hne heq.symm
    · rw [update_of_ne hee] at heq
      refine hee (hold.distinct entry hentry e he ?_ ?_ (heq.trans hpending.symm))
      · rw [hpending]
        exact hne
      · rw [hpending]
        omega
  exact
    { hvacated with
      holds := fun token hmem => by
        rcases mem_cons.mp hmem with rfl | hin'
        · exact ⟨hlease, fun _ => ⟨hin, hgone⟩⟩
        · exact hvacated.holds token hin'
      settled := fun hs' => by
        have hv' := hvacated.settled hs'
        refine ⟨hv'.capacity, hv'.room, ?_, ?_, hv'.entries, hv'.distinct⟩
        · rw [count_cons_of_ne (by simp)]
          exact hv'.reserved
        · rw [count_cons_of_ne (by simp)]
          exact hv'.active
      issued := fun other hother heq => by
        obtain ⟨hle', hpending'⟩ := hvacated.issued other hother heq
        refine ⟨hle', fun e he hp => ⟨(hpending' e he hp).1, fun hmem => ?_⟩⟩
        rcases mem_cons.mp hmem with heq' | hmem'
        · cases heq'
          exact hgone e he hp
        · exact (hpending' e he hp).2 hmem'
      minted := fun generation fence => by simpa using h.minted generation fence
      taken := fun other heq => by
        by_cases ho : other = lease
        · subst ho
          rw [count_cons_self, count_eq_zero_of_notMem hnot]
        · rw [count_cons_of_ne (by simpa using ho)]
          exact h.taken other heq }

theorem taken_counted (h : SlotOk slot mutex (.taken lease ::ₘ rest) t w)
    (ht : t.tenant = lease.id.generation) :
    lease ∈ t.leases ∧ t.tenant = w.generation ∧ .taken lease ∉ rest ∧
      (t.leases.erase lease).countP (fun other => other.id.generation = t.tenant) + 1 =
        t.leased t.tenant ∧ 0 < w.reserved := by
  obtain ⟨hissued, hcurrent⟩ := h.holds (.taken lease) (by simp)
  obtain ⟨hin, -⟩ := hcurrent ht.symm
  have hs := h.settled_of_le (h.reached lease hissued) ht
  have hreserved := (h.settled hs).reserved
  have honce := h.taken lease ht.symm
  rw [count_cons_self] at honce
  have hcount : (t.leases.erase lease).countP (fun other => other.id.generation = t.tenant) + 1 =
      t.leased t.tenant := by
    rw [Tenancy.leased, (List.perm_cons_erase hin).countP_eq, List.countP_cons]
    simp [ht]
  refine ⟨hin, hs, ?_, hcount, by omega⟩
  rw [← Multiset.count_eq_zero]
  omega

theorem ended (h : SlotOk slot mutex (.taken lease ::ₘ rest) t w)
    (ht : t.tenant = lease.id.generation) {executions : List Execution} {units : Nat}
    (hexec : ∀ execution ∈ executions, execution.lease.id.generation ≤ w.generation)
    (hsettled : Settled rest { t with leases := t.leases.erase lease, executions := executions }
      { w with units := units }) :
    SlotOk slot mutex rest { t with leases := t.leases.erase lease, executions := executions }
      { w with units := units } := by
  obtain ⟨hin, hs, hnot, -, -⟩ := h.taken_counted ht
  have hmono := h.mono (le_cons_self rest (.taken lease))
  have hgone := ((h.holds (.taken lease) (by simp)).2 ht.symm).2
  have hkeep : ∀ other ∈ t.leases, other ≠ lease → other ∈ t.leases.erase lease :=
    fun other hother hne => (List.mem_erase_of_ne hne).mpr hother
  exact
    { hmono with
      lane := h.lane_stable hs rfl rfl rfl
      holds := fun token hmem => by
        have hold := hmono.holds token hmem
        cases token with
        | taken other =>
          obtain ⟨h1, h2⟩ := hold
          refine ⟨h1, fun heq => ⟨hkeep other (h2 heq).1 ?_, (h2 heq).2⟩⟩
          rintro rfl
          exact hnot hmem
        | _ => exact hold
      settled := fun _ => hsettled
      issued := fun other hother heq => by
        obtain ⟨hle, hpending⟩ := hmono.issued other hother heq
        refine ⟨hle, fun e he hp => ⟨hkeep other (hpending e he hp).1 ?_, (hpending e he hp).2⟩⟩
        rintro rfl
        exact hgone e he hp
      leases := fun other hother => h.leases other (List.mem_of_mem_erase hother)
      nodup := h.nodup.erase lease
      executions := hexec }

theorem cancelled (h : SlotOk slot mutex (.taken lease ::ₘ rest) t w)
    (ht : t.tenant = lease.id.generation) :
    SlotOk slot mutex rest (t.cancelled lease)
      { w with units := packCounts (w.reserved - 1) w.active } := by
  obtain ⟨-, hs, -, hcount, hpos⟩ := h.taken_counted ht
  have hmono := (h.mono (le_cons_self rest (.taken lease))).settled hs
  have hlt := w.reserved_lt
  obtain ⟨hr, ha⟩ := w.packed (by omega : w.reserved - 1 < 2 ^ 32) w.active_lt
  refine h.ended ht h.executions ⟨hmono.capacity, ?_, ?_, ?_, hmono.entries, hmono.distinct⟩
  · have hroom := hmono.room
    rw [hr, ha]
    exact (show w.reserved - 1 + w.active ≤ t.granted t.tenant by omega)
  · have hreserved := hmono.reserved
    rw [hr]
    simp only [Tenancy.leased] at hcount hreserved ⊢
    omega
  · rw [ha]
    exact hmono.active

theorem accepted (h : SlotOk slot mutex (.taken lease ::ₘ rest) t w)
    (ht : t.tenant = lease.id.generation) :
    SlotOk slot mutex rest (t.accepted lease)
      { w with units := packCounts (w.reserved - 1) (w.active + 1) } := by
  obtain ⟨hin, hs, -, hcount, hpos⟩ := h.taken_counted ht
  have hmono := (h.mono (le_cons_self rest (.taken lease))).settled hs
  have hroom := hmono.room
  have hbound := h.bounded
  obtain ⟨hr, ha⟩ := w.packed (by omega : w.reserved - 1 < 2 ^ 32)
    (by omega : w.active + 1 < 2 ^ 32)
  refine h.ended ht (fun execution hexec => ?_) ⟨hmono.capacity, ?_, ?_, ?_, hmono.entries,
    hmono.distinct⟩
  · rcases List.mem_cons.mp hexec with rfl | hexec'
    · exact h.reached lease (h.leases lease hin)
    · exact h.executions execution hexec'
  · rw [hr, ha]
    exact (show w.reserved - 1 + (w.active + 1) ≤ t.granted t.tenant by omega)
  · have hreserved := hmono.reserved
    rw [hr]
    simp only [Tenancy.leased] at hcount hreserved ⊢
    omega
  · have hactive := hmono.active
    rw [ha]
    simp only [Tenancy.running, List.countP_cons, ← ht, decide_true, if_true] at hactive ⊢
    omega

theorem dropped (h : SlotOk slot mutex rest t w) {execution : Execution}
    (hexec : execution ∈ t.executions) :
    SlotOk slot mutex (.act execution.lease.id.generation ::ₘ rest) (t.dropped execution) w := by
  have hv := h.executions execution hexec
  have hcount : ∀ v, (t.dropped execution).running v +
      (if execution.lease.id.generation = v then 1 else 0) = t.running v := by
    intro v
    rw [Tenancy.running, Tenancy.running, (List.perm_cons_erase hexec).countP_eq, List.countP_cons]
    simp [Tenancy.dropped]
  exact
    { h with
      lane := fun token hmem hslot => by
        have hold := h.lane token hmem hslot
        cases token <;> exact hold
      holds := fun token hmem => by
        rcases mem_cons.mp hmem with rfl | hin
        · exact hv
        · have hold := h.holds token hin
          cases token <;> exact hold
      settled := fun hs => by
        have hold := h.settled hs
        have hactive := hold.active
        have hrunning := hcount t.tenant
        refine ⟨hold.capacity, hold.room, ?_, ?_, hold.entries, hold.distinct⟩
        · rw [count_cons_of_ne (by simp)]
          exact hold.reserved
        · show (t.dropped execution).running t.tenant + Multiset.count (SlotToken.act t.tenant) _ ≤ _
          rw [count_cons]
          by_cases hcur : execution.lease.id.generation = t.tenant
          · simp only [hcur, if_true] at hrunning ⊢
            omega
          · simp only [hcur, if_false, SlotToken.act.injEq, Ne.symm hcur] at hrunning ⊢
            omega
      issued := fun lease hlease heq => by
        obtain ⟨hfence, hentries⟩ := h.issued lease hlease heq
        refine ⟨hfence, fun entry hentry hp => ?_⟩
        simpa [Tenancy.dropped] using hentries entry hentry hp
      executions := fun other hother => h.executions other (List.mem_of_mem_erase hother)
      minted := fun generation fence => by simpa using h.minted generation fence
      taken := fun lease heq => by simpa using h.taken lease heq }

theorem finish (h : SlotOk slot mutex (.act v ::ₘ rest) t w) (ht : t.tenant = v) :
    SlotOk slot mutex rest t { w with units := packCounts w.reserved (w.active - 1) } := by
  have hs := h.settled_of_le (h.holds (.act v) (by simp)) ht
  have hold := h.settled hs
  have hmono := h.mono (le_cons_self rest (.act v))
  have hlt := w.active_lt
  obtain ⟨hr, ha⟩ := w.packed w.reserved_lt (by omega : w.active - 1 < 2 ^ 32)
  exact
    { hmono with
      lane := h.lane_stable hs rfl rfl rfl
      holds := holds_units hmono.holds _
      settled := fun _ => by
        have h1 := hold.room
        have h2 := hold.active
        have h3 := (hmono.settled hs).reserved
        rw [ht, count_cons_self] at h2
        refine ⟨hold.capacity, ?_, ?_, ?_, hold.entries, hold.distinct⟩
        · rw [hr, ha]
          omega
        · rw [hr]
          exact h3
        · rw [ha, ht]
          omega }

theorem started (h : SlotOk slot mutex tokens t w) {lease : Lease} {v : Nat}
    (hgen : lease.id.generation = v) (hv : v ≤ w.generation) (hle : rest ≤ tokens)
    (hunit : t.tenant = v → .act v ::ₘ rest ≤ tokens) :
    SlotOk slot mutex rest (t.started lease) w := by
  have hmono := h.mono hle
  exact
    { hmono with
      lane := fun token hmem hslot => by
        have hold := h.lane token hmem hslot
        cases token <;> exact hold
      holds := fun token hmem => by
        have hold := hmono.holds token hmem
        cases token <;> exact hold
      settled := fun hs => by
        have hold := hmono.settled hs
        refine ⟨hold.capacity, hold.room, hold.reserved, ?_, hold.entries, hold.distinct⟩
        show (t.started lease).running t.tenant + rest.count (.act t.tenant) ≤ _
        rw [Tenancy.running, Tenancy.started, List.countP_cons]
        by_cases hcur : t.tenant = v
        · have hcount := count_le_of_le (.act v) (hunit hcur)
          have hactive := (h.settled hs).active
          rw [count_cons_self] at hcount
          rw [Tenancy.running, hcur] at hactive
          simp only [hgen, hcur, decide_true, if_true]
          omega
        · have hactive := hold.active
          rw [Tenancy.running] at hactive
          simp only [hgen, Ne.symm hcur, decide_false, Bool.false_eq_true, if_false]
          omega
      executions := fun execution hexec => by
        rcases List.mem_cons.mp hexec with rfl | hexec'
        · rw [hgen]
          exact hv
        · exact h.executions execution hexec' }

theorem activate (h : SlotOk slot mutex rest t w) {v : Nat} (hpos : 0 < v) (hv : v ≤ w.generation)
    (hzero : w.units = 0) :
    SlotOk slot mutex ((if t.tenant = v then .act v else .past v) ::ₘ rest) t
      { w with units := packCounts 0 1 } := by
  have hreserved : w.reserved = 0 := by rw [Words.reserved, hzero]; rfl
  have hactive : w.active = 0 := by rw [Words.active, hzero]; rfl
  obtain ⟨hr, ha⟩ := w.packed (by decide : 0 < 2 ^ 32) (by decide : 1 < 2 ^ 32)
  have hle := h.generation_le
  have hgranted := h.positive (by omega)
  have hcount : ∀ token : SlotToken, token ≠ .act v → token ≠ .past v →
      ((if t.tenant = v then SlotToken.act v else .past v) ::ₘ rest).count token =
        rest.count token := by
    intro token h1 h2
    split
    · exact count_cons_of_ne h1 _
    · exact count_cons_of_ne h2 _
  exact
    { h with
      lane := fun token hmem hslot => by
        have hold := h.lane token hmem hslot
        cases token with
        | fresh i u capacity sized blank cleared =>
          obtain ⟨h1, h2, h3, h4, h5, -, h7⟩ := hold
          exact ⟨h1, h2, h3, h4, h5, fun _ => by rw [hr, ha], h7⟩
        | _ => exact hold
      holds := fun token hmem => by
        rcases mem_cons.mp hmem with rfl | hin
        · split
          · exact hv
          · rename_i hne
            exact (show v < t.tenant by omega)
        · exact holds_units h.holds _ token hin
      settled := fun hs => by
        have hold := h.settled hs
        have h1 := hold.reserved
        have h2 := hold.active
        refine ⟨hold.capacity, ?_, ?_, ?_, hold.entries, hold.distinct⟩
        · rw [hr, ha]
          exact hgranted
        · rw [hr, hcount _ (by simp) (by simp)]
          omega
        · rw [ha]
          split
          · rename_i hcur
            rw [hcur, count_cons_self]
            rw [hcur] at h2
            omega
          · rw [count_cons_of_ne (by simp)]
            omega
      issued := fun lease hlease heq => by
        obtain ⟨hfence, hentries⟩ := h.issued lease hlease heq
        refine ⟨hfence, fun entry hentry hp => ⟨(hentries entry hentry hp).1, ?_⟩⟩
        rw [← Multiset.count_eq_zero, hcount _ (by simp) (by simp), Multiset.count_eq_zero]
        exact (hentries entry hentry hp).2
      minted := fun generation fence => by
        rw [hcount _ (by simp) (by simp), hcount _ (by simp) (by simp)]
        exact h.minted generation fence
      taken := fun lease heq => by
        rw [hcount _ (by simp) (by simp)]
        exact h.taken lease heq }

theorem elsewhere (h : SlotOk slot {first} tokens t w) (second : LaneToken)
    (hfirst : ∀ v c s b n, first ≠ .fresh slot v c s b n)
    (hsecond : second.slot? = some slot → second.Holds t w) :
    SlotOk slot {second} tokens t w :=
  { h with
    lane := fun token hmem hslot => by
      rw [mem_singleton] at hmem
      subst hmem
      exact hsecond hslot
    window := by
      rcases h.window with heq | ⟨v, c, s, b, n, hmem⟩
      · exact .inl heq
      · exact absurd (mem_singleton.mp hmem).symm (hfirst v c s b n) }

theorem acquired (h : SlotOk slot 0 tokens t w) : SlotOk slot {.held} tokens t w :=
  { h with
    lane := fun token hmem hslot => by
      rw [mem_singleton] at hmem
      subst hmem
      cases hslot
    window := by
      rcases h.window with heq | ⟨v, c, s, b, n, hmem⟩
      · exact .inl heq
      · exact absurd hmem (notMem_zero _) }

theorem released (h : SlotOk slot {.held} tokens t w) : SlotOk slot 0 tokens t w :=
  { h with
    lane := fun token hmem => absurd hmem (notMem_zero _)
    window := by
      rcases h.window with heq | ⟨v, c, s, b, n, hmem⟩
      · exact .inl heq
      · exact absurd (mem_singleton.mp hmem) (by simp) }

theorem installing (h : SlotOk slot {.ready slot v} tokens t w) {capacity : Nat}
    (hpos : 0 < capacity) (hlt : capacity < 2 ^ 32) :
    SlotOk slot {.fresh slot v capacity false false 0} tokens (t.installing (v + 1) capacity) w := by
  obtain ⟨hnot, htenant, hgen⟩ := h.lane (.ready slot v) (by simp) rfl
  have hgranted : (t.installing (v + 1) capacity).granted (v + 1) = capacity :=
    update_self ..
  exact
    { h with
      lane := fun token hmem _ => by
        rw [mem_singleton] at hmem
        subst hmem
        exact ⟨hnot, rfl, hgen, hgranted, fun h => (by cases h), fun h => (by cases h),
          fun _ h => absurd h (Nat.not_lt_zero _)⟩
      holds := fun token hmem => by
        have hold := h.holds token hmem
        cases token with
        | minted u f =>
          obtain ⟨h1, h2, h3, h4, -⟩ := hold
          exact ⟨h1, h2, h3, h4, fun heq => absurd heq (show u ≠ v + 1 by omega)⟩
        | placed u f =>
          obtain ⟨h1, h2, h3, h4, -⟩ := hold
          exact ⟨h1, h2, h3, h4, fun heq => absurd heq (show u ≠ v + 1 by omega)⟩
        | taken lease =>
          have hle := h.reached lease hold.1
          exact ⟨hold.1, fun heq => absurd heq (show lease.id.generation ≠ v + 1 by omega)⟩
        | past u =>
          have hlt' : u < t.tenant := hold
          exact (show u < v + 1 by omega)
        | room u c =>
          obtain ⟨h1, -⟩ := hold
          exact ⟨h1, fun heq => absurd heq.symm (show u ≠ v + 1 by omega)⟩
        | _ => exact hold
      window := .inr ⟨v, capacity, false, false, 0, by simp⟩
      settled := fun hs => absurd hs (show v + 1 ≠ w.generation by omega)
      positive := fun _ => by
        show 0 < (t.installing (v + 1) capacity).granted (v + 1)
        rw [hgranted]
        exact hpos
      bounded := by
        show (t.installing (v + 1) capacity).granted (v + 1) < 2 ^ 32
        rw [hgranted]
        exact hlt
      issued := fun lease hlease heq => by
        have hle := h.reached lease hlease
        exact absurd heq (show lease.id.generation ≠ v + 1 by omega)
      taken := fun lease heq => by
        -- a lease of the generation being installed cannot have been taken
        have hnone : SlotToken.taken lease ∉ tokens := by
          intro hmem
          have hle := h.reached lease (h.holds _ hmem).1
          have heq' : lease.id.generation = v + 1 := heq
          omega
        rw [count_eq_zero_of_notMem hnone]
        exact Nat.zero_le _ }

theorem install_word (h : SlotOk slot {.fresh slot v c s b n} tokens t w) {w' : Words}
    {s' b' : Bool} {n' : Nat} (hgen : w'.generation = w.generation)
    (hfresh : (LaneToken.fresh slot v c s' b' n').Holds t w') :
    SlotOk slot {.fresh slot v c s' b' n'} tokens t w' := by
  obtain ⟨hnot, htenant, hgen', -⟩ := h.lane (.fresh slot v c s b n) (by simp) rfl
  have hold : ∀ u, u ≤ w.generation → u ≠ t.tenant := fun u hu => by omega
  exact
    { h with
      lane := fun token hmem _ => by
        rw [mem_singleton] at hmem
        subst hmem
        exact hfresh
      holds := fun token hmem => by
        have hholds := h.holds token hmem
        cases token with
        | minted u f =>
          obtain ⟨h1, h2, h3, h4, -⟩ := hholds
          exact ⟨hgen.symm ▸ h1, h2, h3, h4, fun heq => absurd heq (hold u h1)⟩
        | placed u f =>
          obtain ⟨h1, h2, h3, h4, -⟩ := hholds
          exact ⟨hgen.symm ▸ h1, h2, h3, h4, fun heq => absurd heq (hold u h1)⟩
        | taken lease =>
          exact ⟨hholds.1, fun heq => absurd heq (hold _ (h.reached lease hholds.1))⟩
        | unit u => exact (show u ≤ w'.generation from hgen.symm ▸ hholds)
        | act u => exact (show u ≤ w'.generation from hgen.symm ▸ hholds)
        | seen u => exact ⟨hholds.1, hgen.symm ▸ hholds.2⟩
        | room u c => exact ⟨hgen.symm ▸ hholds.1, hholds.2⟩
        | past u => exact hholds
        | presents lease => exact hholds
      window := .inr ⟨v, c, s', b', n', by simp⟩
      settled := fun hs => absurd hs (by omega)
      reached := fun lease hlease => hgen.symm ▸ h.reached lease hlease
      issued := fun lease hlease heq => absurd heq (hold _ (h.reached lease hlease))
      executions := fun execution hexec => hgen.symm ▸ h.executions execution hexec }

theorem installed (h : SlotOk slot {.fresh slot v c true true n} tokens t w)
    (hn : pendingReservations ≤ n) :
    SlotOk slot {.ready slot (v + 1)} tokens t { w with generation := v + 1 } := by
  obtain ⟨hnot, htenant, hgen, hgranted, hsized, hblank, hcleared⟩ :=
    h.lane (.fresh slot v c true true n) (by simp) rfl
  have hold : ∀ u, u ≤ w.generation → u ≠ t.tenant := fun u hu => by omega
  have hzero : ∀ entry < pendingReservations, w.pending entry = 0 :=
    fun entry hentry => hcleared entry (by omega)
  have hup : ∀ u, u ≤ w.generation → u ≤ v + 1 := fun u hu => by omega
  have hunit : SlotToken.unit t.tenant ∉ tokens := fun hmem => hold _ (h.holds _ hmem) rfl
  have hact : SlotToken.act t.tenant ∉ tokens := fun hmem => hold _ (h.holds _ hmem) rfl
  exact
    { h with
      lane := fun token hmem _ => by
        rw [mem_singleton] at hmem
        subst hmem
        exact ⟨hnot, htenant, rfl⟩
      holds := fun token hmem => by
        have hholds := h.holds token hmem
        cases token with
        | minted u f =>
          obtain ⟨h1, h2, h3, h4, -⟩ := hholds
          exact ⟨hup u h1, h2, h3, h4, fun heq => absurd heq (hold u h1)⟩
        | placed u f =>
          obtain ⟨h1, h2, h3, h4, -⟩ := hholds
          exact ⟨hup u h1, h2, h3, h4, fun heq => absurd heq (hold u h1)⟩
        | taken lease => exact hholds
        | unit u => exact hup u hholds
        | act u => exact hup u hholds
        | seen u => exact ⟨hholds.1, hup u hholds.2⟩
        | room u c => exact ⟨hup u hholds.1, hholds.2⟩
        | past u => exact hholds
        | presents lease => exact hholds
      window := .inl htenant
      settled := fun _ => by
        have hpositive := h.positive (by omega)
        refine ⟨(hsized rfl).trans hgranted.symm, (hblank rfl).trans hpositive, ?_, ?_,
          fun entry hentry hne => absurd (hzero entry hentry) hne,
          fun entry hentry _ _ hne => absurd (hzero entry hentry) hne⟩
        · have hleased : t.leased t.tenant = 0 := by
            rw [Tenancy.leased, List.countP_eq_zero]
            intro lease hlease heq
            rw [decide_eq_true_eq] at heq
            exact hold _ (h.reached lease (h.leases lease hlease)) heq
          rw [hleased, count_eq_zero_of_notMem hunit]
          exact Nat.zero_le _
        · have hrunning : t.running t.tenant = 0 := by
            rw [Tenancy.running, List.countP_eq_zero]
            intro execution hexec heq
            rw [decide_eq_true_eq] at heq
            exact hold _ (h.executions execution hexec) heq
          rw [hrunning, count_eq_zero_of_notMem hact]
          exact Nat.zero_le _
      reached := fun lease hlease => hup _ (h.reached lease hlease)
      issued := fun lease hlease heq => absurd heq (hold _ (h.reached lease hlease))
      executions := fun execution hexec => hup _ (h.executions execution hexec) }

theorem published (h : SlotOk slot {.ready slot v} tokens t w) {state : Nat} :
    SlotOk slot {.held} tokens t { w with state := state } := by
  obtain ⟨-, htenant, -⟩ := h.lane (.ready slot v) (by simp) rfl
  have hheld := h.elsewhere .held (by simp) (by simp [LaneToken.slot?])
  exact
    { hheld with
      lane := fun token hmem hslot => by
        rw [mem_singleton] at hmem
        subst hmem
        cases hslot
      holds := fun token hmem => by
        have hold := h.holds token hmem
        cases token <;> exact hold
      settled := fun hs => by
        have hold := h.settled hs
        exact ⟨hold.capacity, hold.room, hold.reserved, hold.active, hold.entries, hold.distinct⟩ }

end SlotOk

end OrbitPool
