import Orbit.Pool.Layout

/-! The operations of the table behind a pool: finding and installing keys, taking a slot in the
lane, the ledger of available units, and closing what a dead node owned. -/

namespace OrbitPool

open Orbit.Atomic

/-- A process's handle on the table of a fleet: its node and its incarnation. -/
structure Pool (g : Geometry) where
  node : Fin g.fleetCapacity
  incarnation : Nat
  deriving DecidableEq

variable {g : Geometry}

/-- `u64::rotate_left(32)`. -/
def rotateLeft32 (x : Nat) : Nat := x * 2 ^ 32 % 2 ^ 64 + x / 2 ^ 32

def mix (key : Key) : Nat :=
  (key.lo ^^^ rotateLeft32 key.hi) * 0x9e3779b97f4a7c15 % 2 ^ 64

/-- The key slot at distance `offset` on the probe sequence of `key`. -/
def probe (g : Geometry) (key : Key) (offset : Nat) : Nat :=
  (mix key + offset) % 2 ^ 64 &&& (g.keyCapacity - 1)

def holds (index : Nat) (key : Key) : PoolM Bool := do
  let state ← load (.keyState index)
  if state = keyLive then
    let lo ← load (.keyLo index)
    if lo = key.lo then
      let hi ← load (.keyHi index)
      return hi == key.hi
    else return false
  else return false

def findKeyFrom (g : Geometry) (key : Key) : List Nat → PoolM (Option Nat)
  | [] => return none
  | offset :: rest => do
    let index := probe g key offset
    let state ← load (.keyState index)
    if state = keyLive then
      if ← holds index key then return some index else findKeyFrom g key rest
    else if state = keyEmpty then return none
    else findKeyFrom g key rest

def findKey (g : Geometry) (key : Key) : PoolM (Option Nat) :=
  findKeyFrom g key (List.range g.keyCapacity)

def clearMembers (index : Nat) : List Nat → PoolM Unit
  | [] => return ()
  | word :: rest => do
    store (.members index word) 0
    clearMembers index rest

def installKey (g : Geometry) (index : Nat) (key : Key) : PoolM Unit := do
  store (.keyLo index) key.lo
  store (.keyHi index) key.hi
  store (.counts index) 0
  store (.available index) 0
  store (.admitted index) 0
  clearMembers index (List.range ((g.totalResources + 63) / 64))
  store (.keyState index) keyLive

/-- `key_index`'s loop over the offsets, under both locks. -/
def keyIndexFrom (g : Geometry) (key : Key) : List Nat → PoolM (Except Error Nat)
  | [] => return .error (.keyFull g.keyCapacity)
  | offset :: rest => do
    let index := probe g key offset
    let state ← load (.keyState index)
    if state = keyLive then
      if ← holds index key then return .ok index else keyIndexFrom g key rest
    else if state = keyEmpty then
      installKey g index key
      return .ok index
    else keyIndexFrom g key rest

def Pool.keyIndex (p : Pool g) (key : Key) : PoolM (Except Error Nat) := do
  match ← findKey g key with
  | some index => return .ok index
  | none =>
    acquire (.structural p.node)
    acquire .region
    let found ← keyIndexFrom g key (List.range g.keyCapacity)
    release .region
    release (.structural p.node)
    return found

/-- `allocate`'s loop over the offsets, under the lane lock. -/
def allocateFrom (p : Pool g) (key : Key) (keyIndex capacity now hint : Nat) :
    List Nat → PoolM (Except Error (Nat × Nat))
  | [] => return .error (.full g.laneCapacity)
  | offset :: rest => do
    let laneStart := p.node * g.laneCapacity
    let index := laneStart + ((hint + offset) &&& (g.laneCapacity - 1))
    let state ← load (.state index)
    if state = resourceEmpty ∨ state = resourceClosed then
      match ← install index p.node p.incarnation key keyIndex capacity now with
      | some generation =>
        store (.hint p.node) ((index - laneStart + 1) &&& (g.laneCapacity - 1))
        return .ok (index, generation)
      | none => allocateFrom p key keyIndex capacity now hint rest
    else allocateFrom p key keyIndex capacity now hint rest

/-- Take a free slot in this process's lane: its index and the generation it was installed in. -/
def Pool.allocate (p : Pool g) (key : Key) (keyIndex capacity now : Nat) :
    PoolM (Except Error (Nat × Nat)) := do
  acquire (.structural p.node)
  let hint ← load (.hint p.node)
  let taken ← allocateFrom p key keyIndex capacity now hint (List.range g.laneCapacity)
  release (.structural p.node)
  return taken

def takeAvailable (g : Geometry) (keyIndex : Nat) : PoolM Bool := do
  if g.spec.fleetAvailability then
    tryUpdate (.available keyIndex) fun available =>
      if available > 0 then some (available - 1) else none
  else return true

def addAvailable (g : Geometry) (keyIndex units : Nat) : PoolM Unit := do
  if g.spec.fleetAvailability ∧ units > 0 then
    let _ ← fetchAdd 32 (.available keyIndex) units
  return ()

def removeAvailable (g : Geometry) (keyIndex units : Nat) : PoolM Unit := do
  if g.spec.fleetAvailability ∧ units > 0 then
    let _ ← tryUpdate (.available keyIndex) fun available => some (available - units)
  return ()

def retainAvailableBelow (g : Geometry) (keyIndex max : Nat) : PoolM Bool := do
  if g.spec.fleetAvailability then
    tryUpdate (.available keyIndex) fun available =>
      if available < max then some (available + 1) else none
  else return true

/-- The resource is gone: mark it, take it out of its key's members and live count. -/
def closeResource (g : Geometry) (index : Nat) : PoolM Unit := do
  let closed ← tryUpdate (.state index) fun state =>
    if state = resourceLive ∨ state = resourceDraining then some resourceClosed else none
  if closed then
    let keyIndex ← load (.keyIndex index)
    let _ ← fetchClear (.members keyIndex (index / 64)) (2 ^ (index % 64))
    if g.spec.fleetAvailability then
      let units ← load (.units index)
      let capacity ← load (.capacity index)
      removeAvailable g keyIndex
        (capacity - add32 (unpackCounts units).1 (unpackCounts units).2)
    let _ ← tryUpdate (.counts keyIndex) fun counts =>
      some (packCounts ((unpackCounts counts).1 - 1) (unpackCounts counts).2)
  return ()

/-- `node_dead` at one resource. -/
def closeIfOwned (g : Geometry) (node incarnation index : Nat) : PoolM Unit := do
  let state ← load (.state index)
  if state = resourceLive ∨ state = resourceDraining then
    let ownerNode ← load (.ownerNode index)
    if ownerNode = node then
      let ownerIncarnation ← load (.ownerIncarnation index)
      if ownerIncarnation = incarnation then closeResource g index

def closeOwned (g : Geometry) (node incarnation : Nat) : List Nat → PoolM Unit
  | [] => return ()
  | index :: rest => do
    closeIfOwned g node incarnation index
    closeOwned g node incarnation rest

/-- `node_dead` at one key: the node's creation claims go back. -/
def returnCreations (node keyIndex : Nat) : PoolM Unit := do
  let held ← swap (.claims node keyIndex) 0
  if held > 0 then
    let _ ← tryUpdate (.counts keyIndex) fun counts =>
      some (packCounts (unpackCounts counts).1 ((unpackCounts counts).2 - held))

/-- `node_dead` at one key: the node's admissions go back. -/
def returnAdmissions (g : Geometry) (node keyIndex : Nat) : PoolM Unit := do
  if g.spec.fleetConcurrency then
    let held ← swap (.admissions node keyIndex) 0
    if held > 0 then
      let _ ← tryUpdate (.admitted keyIndex) fun admitted => some (admitted - held)

def returnClaims (g : Geometry) (node : Nat) : List Nat → PoolM Unit
  | [] => return ()
  | keyIndex :: rest => do
    returnCreations node keyIndex
    returnAdmissions g node keyIndex
    returnClaims g node rest

/-- A confirmed death: close every resource that incarnation of `node` owned and drop the creation
claims and the admissions the node held. -/
def nodeDead (g : Geometry) (node incarnation : Nat) : PoolM Unit := do
  closeOwned g node incarnation (List.range g.totalResources)
  returnClaims g node (List.range g.keyCapacity)

end OrbitPool
