import Orbit.Pool.Table

/-! The operations of a pool: registering resources, reserving and cancelling capacity, the owner's
acceptance and its execution guard, and the two kinds of permits.  Time is an argument: `now` is the
value of the epoch clock in milliseconds when the operation reads it. -/

namespace OrbitPool

open Orbit.Atomic

variable {g : Geometry}

def locateIn (g : Geometry) (id : ResourceId) : Except Error Nat :=
  if id.kind ≠ g.spec.kind ∨ id.node ≥ g.fleetCapacity ∨ id.slot ≥ g.laneCapacity ∨
      id.generation = 0 ∨ id.generation > generationMask then
    .error (.malformedId id)
  else .ok (id.node * g.laneCapacity + id.slot)

def Pool.locate (_ : Pool g) (id : ResourceId) : Except Error Nat := locateIn g id

def Pool.owned (p : Pool g) (id : ResourceId) : PoolM (Except Error Nat) := do
  match p.locate id with
  | .error e => return .error e
  | .ok index =>
    if ← isGeneration index id.generation then
      let ownerNode ← load (.ownerNode index)
      if ownerNode ≠ p.node then return .error (.notOwner id)
      let ownerIncarnation ← load (.ownerIncarnation index)
      if ownerIncarnation ≠ p.incarnation then return .error (.notOwner id)
      return .ok index
    else return .error (.stale id)

/-- The owner's guard over one accepted lease. -/
structure Execution where
  lease : Lease
  deriving DecidableEq, Repr

/-- `register_inner` once the slot is installed: the units, the members, the ledgers. -/
def Pool.publish (p : Pool g) (keyIndex capacity : Nat) (active : Bool) (index generation : Nat) :
    PoolM (ResourceId × Option Execution) := do
  if active then store (.units index) (packCounts 0 1)
  let id : ResourceId := ⟨g.spec.kind, p.node, index % g.laneCapacity, generation⟩
  let _ ← fetchOr (.members keyIndex (index / 64)) (2 ^ (index % 64))
  addAvailable g keyIndex (capacity - if active then 1 else 0)
  let _ ← tryUpdate (.counts keyIndex) fun counts =>
    some (packCounts ((unpackCounts counts).1 + 1) (unpackCounts counts).2)
  if active then
    let execution : Execution := ⟨⟨id, 0, p.node, p.incarnation⟩⟩
    mark (.started execution.lease)
    return (id, some execution)
  else return (id, none)

def Pool.registerInner (p : Pool g) (key : Key) (capacity : Nat) (active : Bool) (now : Nat) :
    PoolM (Except Error (ResourceId × Option Execution)) := do
  match ← p.keyIndex key with
  | .error e => return .error e
  | .ok keyIndex =>
    match ← p.allocate key keyIndex capacity now with
    | .error e => return .error e
    | .ok (index, generation) =>
      let registered ← p.publish keyIndex capacity active index generation
      return .ok registered

/-- Make a resource this process owns visible under `key`. -/
def Pool.register (p : Pool g) (key : Key) (capacity now : Nat) :
    PoolM (Except Error ResourceId) := do
  if capacity = 0 then return .error (.malformed "capacity must be at least one")
  match ← p.registerInner key capacity false now with
  | .error e => return .error e
  | .ok (id, _) => return .ok id

def Pool.registerActive (p : Pool g) (key : Key) (capacity now : Nat) :
    PoolM (Except Error (ResourceId × Option Execution)) := do
  if capacity = 0 then return .error (.malformed "capacity must be at least one")
  p.registerInner key capacity true now

def Pool.unregister (p : Pool g) (id : ResourceId) : PoolM (Except Error Unit) := do
  match ← p.owned id with
  | .error e => return .error e
  | .ok index =>
    closeResource g index
    return .ok ()

/-- No new leases; the ones out finish at their own pace. -/
def Pool.drain (p : Pool g) (id : ResourceId) : PoolM (Except Error Unit) := do
  match ← p.owned id with
  | .error e => return .error e
  | .ok index =>
    let _ ← compareExchange (.state index) resourceLive resourceDraining
    return .ok ()

/-- `reconcile`'s loop over the pending entries: how many reservations it aged out. -/
def ageOut (index now grace : Nat) : List Nat → PoolM Nat
  | [] => return 0
  | entry :: rest => do
    let fence ← load (.pending index entry)
    if fence = 0 ∨ fence = placing then ageOut index now grace rest
    else
      let since ← load (.sinceMs index entry)
      if now - since > grace then
        let aged ← compareExchange (.pending index entry) fence 0
        let more ← ageOut index now grace rest
        return if aged then more + 1 else more
      else ageOut index now grace rest

/-- The owner's truth: `active` becomes the table's active count, and every reservation older than
`grace` milliseconds is aged out. -/
def Pool.reconcile (p : Pool g) (id : ResourceId) (active grace now : Nat) :
    PoolM (Except Error Unit) := do
  match ← p.owned id with
  | .error e => return .error e
  | .ok index =>
    let aged ← ageOut index now grace (List.range pendingReservations)
    let capacity ← load (.capacity index)
    let units ← (.access (.units index)
      (fun units => some (packCounts ((unpackCounts units).1 - aged) active)) .ret : PoolM Nat)
    let reserved := (unpackCounts units).1
    let wasFree := capacity - add32 reserved (unpackCounts units).2
    let nowFree := capacity - add32 (reserved - aged) active
    let keyIndex ← load (.keyIndex index)
    if nowFree > wasFree then addAvailable g keyIndex (nowFree - wasFree)
    else if nowFree < wasFree then removeAvailable g keyIndex (wasFree - nowFree)
    return .ok ()

def returnReserved (index : Nat) : PoolM Unit := do
  let _ ← tryUpdate (.units index) fun units =>
    some (packCounts ((unpackCounts units).1 - 1) (unpackCounts units).2)

/-- `reserve`'s loop over the pending entries: claim the first free one, stamp it, publish the
fence. -/
def placePending (index fence now : Nat) : List Nat → PoolM Bool
  | [] => return false
  | entry :: rest => do
    if ← compareExchange (.pending index entry) 0 placing then
      store (.sinceMs index entry) now
      store (.pending index entry) fence
      return true
    else placePending index fence now rest

def Pool.reserve (p : Pool g) (id : ResourceId) (now : Nat) : PoolM (Except Error Lease) := do
  match p.locate id with
  | .error e => return .error e
  | .ok index =>
    let state ← load (.state index)
    if state = resourceDraining then return .error (.draining id)
    if state ≠ resourceLive then return .error (.stale id)
    let keyIndex ← load (.keyIndex index)
    if !(← takeAvailable g keyIndex) then return .error (.busy id)
    let capacity ← load (.capacity index)
    let counted ← tryUpdate (.units index) fun units =>
      if add32 (unpackCounts units).1 (unpackCounts units).2 < capacity then
        some (packCounts ((unpackCounts units).1 + 1) (unpackCounts units).2)
      else none
    if !counted then
      addAvailable g keyIndex 1
      return .error (.busy id)
    -- the slot may have ended between the state check and the count
    if !(← isGeneration index id.generation) then
      returnReserved index
      addAvailable g keyIndex 1
      return .error (.stale id)
    let before ← fetchAdd 64 (.fence index) 1
    let fence := (before + 1) % 2 ^ 64
    if !(← placePending index fence now (List.range pendingReservations)) then
      returnReserved index
      addAvailable g keyIndex 1
      return .error (.busy id)
    store (.lastReserveMs index) now
    let lease : Lease := ⟨id, fence, p.node, p.incarnation⟩
    mark (.reserved lease)
    return .ok lease

/-- The search for a fence in the pending entries, which takes it out of the first one that carries
it: `cancel_reservation` and `accept` make the same one. -/
def takePending (index fence : Nat) : List Nat → PoolM Bool
  | [] => return false
  | entry :: rest => do
    if ← compareExchange (.pending index entry) fence 0 then return true
    else takePending index fence rest

def Pool.cancelReservation (p : Pool g) (lease : Lease) : PoolM (Except Error Unit) := do
  if lease.holder ≠ p.node ∨ lease.holderIncarnation ≠ p.incarnation then
    return .error (.notReserved lease)
  match p.locate lease.id with
  | .error e => return .error e
  | .ok index =>
    if !(← takePending index lease.fence (List.range pendingReservations)) then
      return .error (.notReserved lease)
    returnReserved index
    mark (.cancelled lease)
    let keyIndex ← load (.keyIndex index)
    addAvailable g keyIndex 1
    return .ok ()

/-- The owner takes a lease a caller brought it: the unit moves from reserved to active. -/
def Pool.accept (p : Pool g) (lease : Lease) : PoolM (Except Error Execution) := do
  match ← p.owned lease.id with
  | .error e => return .error e
  | .ok index =>
    let state ← load (.state index)
    if state ≠ resourceLive then return .error (.draining lease.id)
    if !(← takePending index lease.fence (List.range pendingReservations)) then
      return .error (.notReserved lease)
    let _ ← tryUpdate (.units index) fun units =>
      some (packCounts ((unpackCounts units).1 - 1) ((unpackCounts units).2 + 1))
    mark (.accepted lease)
    return .ok ⟨lease⟩

/-- The unit of a live resource becomes available again, below the ceiling if there is one. -/
def retainUnit (g : Geometry) (keyIndex : Nat) : Option Nat → PoolM Bool
  | some limit => retainAvailableBelow g keyIndex limit
  | none => do
    addAvailable g keyIndex 1
    return true

/-- `Execution::finish`: whether the unit was retained as idle. -/
def Execution.finish (execution : Execution) (g : Geometry) (maxIdle : Option Nat) :
    PoolM Bool := do
  let id := execution.lease.id
  let index := id.node * g.laneCapacity + id.slot
  let state ← load (.state index)
  let generation ← load (.generation index)
  if generation ≠ id.generation ∨ (state ≠ resourceLive ∧ state ≠ resourceDraining) then
    return false
  let keyIndex ← load (.keyIndex index)
  let retained ← if state = resourceLive then retainUnit g keyIndex maxIdle else pure false
  if retained ∨ state = resourceDraining then
    let _ ← tryUpdate (.units index) fun units =>
      some (packCounts (unpackCounts units).1 ((unpackCounts units).2 - 1))
  return retained

/-- `Execution::complete` and the drop of the guard. -/
def Execution.complete (execution : Execution) (g : Geometry) : PoolM Unit := do
  let _ ← execution.finish g none

/-- Finish this use and keep the resource idle only below the fleet-wide ceiling.  On a table that
does not track availability the guard is dropped by the failed call. -/
def Execution.completeIdle (execution : Execution) (g : Geometry) (maxIdle : Nat) :
    PoolM (Except Error Bool) := do
  if !g.spec.fleetAvailability then
    execution.complete g
    return .error .availabilityDisabled
  let retained ← execution.finish g (some maxIdle)
  return .ok retained

/-- One unit of a key's creation budget, or one admitted request under a key's limit. -/
structure Permit (g : Geometry) where
  pool : Pool g
  keyIndex : Nat
  deriving DecidableEq

def Pool.claimCreate (p : Pool g) (key : Key) (maxLive : Nat) :
    PoolM (Except Error (Permit g)) := do
  match ← p.keyIndex key with
  | .error e => return .error e
  | .ok keyIndex =>
    let claimed ← tryUpdate (.counts keyIndex) fun counts =>
      if add32 (unpackCounts counts).1 (unpackCounts counts).2 < maxLive then
        some (packCounts (unpackCounts counts).1 ((unpackCounts counts).2 + 1))
      else none
    if !claimed then return .error (.creationBudget key maxLive)
    let _ ← fetchAdd 32 (.claims p.node keyIndex) 1
    return .ok ⟨p, keyIndex⟩

/-- The drop of a `CreationPermit`. -/
def Permit.dropCreation (permit : Permit g) : PoolM Unit := do
  let _ ← tryUpdate (.counts permit.keyIndex) fun counts =>
    some (packCounts (unpackCounts counts).1 ((unpackCounts counts).2 - 1))
  let _ ← tryUpdate (.claims permit.pool.node permit.keyIndex) fun held =>
    if 0 < held then some (held - 1) else none

def Pool.admitKey (p : Pool g) (key : Key) (maxConcurrency : Nat) :
    PoolM (Except Error (Permit g)) := do
  if !g.spec.fleetConcurrency then return .error .concurrencyDisabled
  if maxConcurrency = 0 then
    return .error (.malformed "max_concurrency must be at least one")
  match ← p.keyIndex key with
  | .error e => return .error e
  | .ok keyIndex =>
    let admitted ← tryUpdate (.admitted keyIndex) fun admitted =>
      if admitted < maxConcurrency then some (admitted + 1) else none
    if !admitted then return .error (.concurrencyLimit key maxConcurrency)
    let _ ← fetchAdd 32 (.admissions p.node keyIndex) 1
    return .ok ⟨p, keyIndex⟩

/-- The drop of an `AdmissionPermit`. -/
def Permit.dropAdmission (permit : Permit g) : PoolM Unit := do
  let held ← tryUpdate (.admissions permit.pool.node permit.keyIndex) fun held =>
    if 0 < held then some (held - 1) else none
  if held then
    let _ ← tryUpdate (.admitted permit.keyIndex) fun admitted =>
      if 0 < admitted then some (admitted - 1) else none

end OrbitPool
