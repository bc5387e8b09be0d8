import Orbit.Atomic.Prog
import Orbit.Atomic.Word

/-! The words of a pool table: the key slots with their counters, the per-node claim and admission
counters, and the resource slots with their units, fences and pending reservations.  Doorbells,
wakers and change counts tell waiters to look again; they decide nothing here and are left out. -/

namespace OrbitPool

open Orbit.Atomic

def keyEmpty : Nat := 0
def keyLive : Nat := 1

def resourceEmpty : Nat := 0
def resourceLive : Nat := 1
/-- No new leases; the ones out finish. -/
def resourceDraining : Nat := 2
/-- Gone, until the owner's lane reuses the slot under a new generation. -/
def resourceClosed : Nat := 3
def resourceExhausted : Nat := 4

def slotBits : Nat := 16
def generationBits : Nat := 40 - slotBits
def generationMask : Nat := 2 ^ generationBits - 1
def generationLimit : Nat := generationMask

def pendingReservations : Nat := 16

/-- A pending entry between being claimed and carrying its fence: `u64::MAX`. -/
def placing : Nat := 2 ^ 64 - 1

/-- What a resource is usable for: the caller's 128-bit digest. -/
structure Key where
  digest : Fin (2 ^ 128)
  deriving DecidableEq

theorem sampleDigest_lt : 5 < 2 ^ 128 := by decide

def Key.sample : Key := ⟨⟨5, sampleDigest_lt⟩⟩

def Key.lo (key : Key) : Nat := key.digest.val % 2 ^ 64
def Key.hi (key : Key) : Nat := key.digest.val / 2 ^ 64

theorem Key.ext_parts {a b : Key} (hlo : a.lo = b.lo) (hhi : a.hi = b.hi) : a = b := by
  obtain ⟨a⟩ := a
  obtain ⟨b⟩ := b
  have h : a.val = b.val := by
    rw [← Nat.div_add_mod a.val (2 ^ 64), ← Nat.div_add_mod b.val (2 ^ 64)]
    exact congrArg₂ (fun x y => 2 ^ 64 * x + y) hhi hlo
  rw [Fin.ext h]

/-- The address of one resource: the fields of its net id, whose counter is the slot and the
generation. -/
structure ResourceId where
  kind : Nat
  node : Nat
  slot : Nat
  generation : Nat
  deriving DecidableEq, Repr

/-- Reserved capacity on one resource, as it crosses processes. -/
structure Lease where
  id : ResourceId
  fence : Nat
  holder : Nat
  holderIncarnation : Nat
  deriving DecidableEq, Repr

/-- The errors of a pool.  `malformedId` is `Malformed` with the text of a net id. -/
inductive Error where
  | stale (id : ResourceId)
  | busy (id : ResourceId)
  | draining (id : ResourceId)
  | notOwner (id : ResourceId)
  | notReserved (lease : Lease)
  | creationBudget (key : Key) (maxLive : Nat)
  | availabilityDisabled
  | concurrencyDisabled
  | concurrencyLimit (key : Key) (maxConcurrency : Nat)
  | keyFull (capacity : Nat)
  | full (capacity : Nat)
  | malformed (text : String)
  | malformedId (id : ResourceId)
  deriving DecidableEq

/-- Which segment a pool uses, and how big it is. -/
structure PoolSpec where
  kind : Nat
  keyCapacity : Nat
  laneCapacity : Nat
  fleetAvailability : Bool
  fleetConcurrency : Bool
  deriving DecidableEq, Repr

def PoolSpec.validate (spec : PoolSpec) : Except Error Unit :=
  if spec.keyCapacity = 0 ∨ spec.laneCapacity = 0 ∨ !isPowerOfTwo spec.keyCapacity ∨
      !isPowerOfTwo spec.laneCapacity ∨ spec.laneCapacity > 2 ^ slotBits then
    .error (.malformed (s!"pool spec kind={spec.kind} key_capacity={spec.keyCapacity} " ++
      s!"lane_capacity={spec.laneCapacity}: both are powers of two, and a lane holds at most " ++
      s!"{2 ^ slotBits}"))
  else .ok ()

/-- An opened table: a validated spec and the number of nodes of its fleet. -/
structure Geometry where
  spec : PoolSpec
  fleetCapacity : Nat
  valid : spec.validate = .ok ()
  fleet_lt : fleetCapacity < 2 ^ 16

namespace Geometry

variable (g : Geometry)

def keyCapacity : Nat := g.spec.keyCapacity
def laneCapacity : Nat := g.spec.laneCapacity
def totalResources : Nat := g.fleetCapacity * g.laneCapacity

theorem valid_parts : g.keyCapacity ≠ 0 ∧ g.laneCapacity ≠ 0 ∧ isPowerOfTwo g.keyCapacity = true ∧
    isPowerOfTwo g.laneCapacity = true ∧ g.laneCapacity ≤ 2 ^ slotBits := by
  have h := not_of_accepted g.valid
  simp only [not_or, Bool.not_eq_true', Bool.not_eq_false, Nat.not_lt, gt_iff_lt] at h
  exact h

theorem lane_pos : 0 < g.laneCapacity := Nat.pos_of_ne_zero g.valid_parts.2.1

theorem key_pos : 0 < g.keyCapacity := Nat.pos_of_ne_zero g.valid_parts.1

theorem totalResources_lt : g.totalResources < 2 ^ 32 := by
  have h1 := g.fleet_lt
  have h2 := g.valid_parts.2.2.2.2
  calc g.fleetCapacity * g.laneCapacity ≤ (2 ^ 16 - 1) * 2 ^ slotBits :=
        Nat.mul_le_mul (by omega) h2
    _ < 2 ^ 32 := by decide

end Geometry

/-- The shared words of a table, and the two process-local ones its lane lock protects. -/
inductive Addr where
  | keyState (key : Nat)
  | keyLo (key : Nat)
  | keyHi (key : Nat)
  /-- `live << 32 | creating`. -/
  | counts (key : Nat)
  | available (key : Nat)
  | admitted (key : Nat)
  | members (key word : Nat)
  | claims (node key : Nat)
  | admissions (node key : Nat)
  | state (slot : Nat)
  | ownerNode (slot : Nat)
  | generation (slot : Nat)
  | ownerIncarnation (slot : Nat)
  | slotKeyLo (slot : Nat)
  | slotKeyHi (slot : Nat)
  | capacity (slot : Nat)
  | keyIndex (slot : Nat)
  /-- `reserved << 32 | active`. -/
  | units (slot : Nat)
  | fence (slot : Nat)
  | lastReserveMs (slot : Nat)
  | pending (slot entry : Nat)
  | sinceMs (slot entry : Nat)
  /-- The mutex over a node's lane and its installs into the key table. -/
  | structural (node : Nat)
  /-- Where the lane's next search starts. -/
  | hint (node : Nat)
  /-- The region's process lock. -/
  | region
  deriving DecidableEq

/-- What the history of a run keeps. -/
inductive Event where
  | installing (slot generation capacity : Nat)
  | started (lease : Lease)
  | reserved (lease : Lease)
  | cancelled (lease : Lease)
  | accepted (lease : Lease)
  deriving DecidableEq

abbrev PoolM := Prog Addr Event

/-- `u32` addition. -/
def add32 (a b : Nat) : Nat := (a + b) % 2 ^ 32

/-- Two `u32` halves of one `u64`: a key's `(live, creating)`, a resource's `(reserved,
active)`. -/
def packCounts (live creating : Nat) : Nat := live % 2 ^ 32 * 2 ^ 32 + creating % 2 ^ 32

def unpackCounts (counts : Nat) : Nat × Nat := (counts / 2 ^ 32 % 2 ^ 32, counts % 2 ^ 32)

theorem add32_of_lt {a b : Nat} (h : a + b < 2 ^ 32) : add32 a b = a + b := Nat.mod_eq_of_lt h

@[simp] theorem unpackCounts_packCounts (a b : Nat) :
    unpackCounts (packCounts a b) = (a % 2 ^ 32, b % 2 ^ 32) := by
  unfold unpackCounts packCounts
  have ha := Nat.mod_lt a (show 0 < 2 ^ 32 by decide)
  have hb := Nat.mod_lt b (show 0 < 2 ^ 32 by decide)
  rw [Nat.mul_comm, Nat.mul_add_div (by decide), Nat.div_eq_of_lt hb, Nat.add_zero,
    Nat.mod_eq_of_lt ha, Nat.mul_add_mod, Nat.mod_eq_of_lt hb]

theorem unpackCounts_lt (counts : Nat) :
    (unpackCounts counts).1 < 2 ^ 32 ∧ (unpackCounts counts).2 < 2 ^ 32 :=
  ⟨Nat.mod_lt _ (by decide), Nat.mod_lt _ (by decide)⟩

/-- `ResourceSlot::is`: live or draining in this generation. -/
def isGeneration (slot generation : Nat) : PoolM Bool := do
  let state ← load (.state slot)
  if state = resourceLive ∨ state = resourceDraining then
    let current ← load (.generation slot)
    return current == generation
  else return false

/-- `ResourceSlot::install`'s clearing of the pending entries from `entry` on. -/
def clearPending (slot : Nat) : List Nat → PoolM Unit
  | [] => return ()
  | entry :: rest => do
    store (.pending slot entry) 0
    store (.sinceMs slot entry) 0
    clearPending slot rest

/-- Under the owner's lane lock.  `none` marks the slot exhausted. -/
def install (slot owner incarnation : Nat) (key : Key) (keyIndex capacity nowMs : Nat) :
    PoolM (Option Nat) := do
  let generation ← load (.generation slot)
  if generation ≥ generationLimit then
    store (.state slot) resourceExhausted
    return none
  let generation := generation + 1
  mark (.installing slot generation capacity)
  store (.ownerNode slot) owner
  store (.ownerIncarnation slot) incarnation
  store (.slotKeyLo slot) key.lo
  store (.slotKeyHi slot) key.hi
  store (.capacity slot) capacity
  store (.keyIndex slot) keyIndex
  store (.units slot) 0
  store (.fence slot) 0
  store (.lastReserveMs slot) nowMs
  clearPending slot (List.range pendingReservations)
  store (.generation slot) generation
  store (.state slot) resourceLive
  return some generation

end OrbitPool
