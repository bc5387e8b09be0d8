import Orbit.Stream.Layout

/-! The operations of a stream table: taking a slot, opening and re-arming a side, letting a side go,
and ending what a dead process held. -/

namespace OrbitStream

open Orbit.Atomic

/-- A process's table: its node and its incarnation. -/
structure Streams (g : Geometry) where
  node : Fin g.fleetCapacity
  incarnation : Nat
  deriving DecidableEq

variable {g : Geometry}

/-- `allocate`'s loop over the offsets, under the lane lock. -/
def allocateFrom (s : Streams g) (hint : Nat) : List Nat → StreamM (Except Error (Nat × Nat))
  | [] => return .error (.full g.laneCapacity)
  | offset :: rest => do
    let laneStart := s.node * g.laneCapacity
    let index := laneStart + ((hint + offset) &&& (g.laneCapacity - 1))
    let state ← load (.state index)
    if state = slotEmpty then
      match ← install index s.node s.incarnation with
      | some generation =>
        store (.hint s.node) ((index - laneStart + 1) &&& (g.laneCapacity - 1))
        return .ok (index, generation)
      | none => allocateFrom s hint rest
    else allocateFrom s hint rest

def Streams.allocate (s : Streams g) : StreamM (Except Error (Nat × Nat)) := do
  acquire (.allocate s.node)
  let hint ← load (.hint s.node)
  let taken ← allocateFrom s hint (List.range g.laneCapacity)
  release (.allocate s.node)
  return taken

/-- The endpoint is side A; the ticket names side B and is what the other end opens. -/
def Streams.create (s : Streams g) : StreamM (Except Error (Handle × Ticket)) := do
  match ← s.allocate with
  | .error e => return .error e
  | .ok (index, generation) =>
    let id : StreamId := ⟨g.spec.kind, s.node, index % g.laneCapacity, generation⟩
    let handle : Handle := ⟨s.node, s.incarnation, index, id, .a⟩
    mark (.held handle)
    let epoch ← load .epoch
    return .ok (handle, ⟨id, .b, epoch⟩)

def locateIn (g : Geometry) (id : StreamId) : Except Error Nat :=
  if id.kind ≠ g.spec.kind ∨ id.node ≥ g.fleetCapacity ∨ id.slot ≥ g.laneCapacity ∨
      id.generation = 0 ∨ id.generation > generationMask then
    .error (.malformedId id)
  else .ok (id.node * g.laneCapacity + id.slot)

def Streams.locate (_ : Streams g) (id : StreamId) : Except Error Nat := locateIn g id

def Streams.open (s : Streams g) (ticket : Ticket) : StreamM (Except Error Handle) := do
  match s.locate ticket.id with
  | .error e => return .error e
  | .ok index =>
    let epoch ← load .epoch
    if ticket.epoch ≠ epoch then return .error (.stale ticket.id)
    if !(← isGeneration index ticket.id.generation) then return .error (.stale ticket.id)
    if !(← compareExchange (.claimed index ticket.side) sideFree sideClaimed) then
      return .error (.alreadyClaimed ticket)
    -- the slot may have ended between the check and the claim: give the claim back
    if !(← isGeneration index ticket.id.generation) then
      let _ ← compareExchange (.claimed index ticket.side) sideClaimed sideFree
      return .error (.stale ticket.id)
    store (.incarnation index ticket.side) s.incarnation
    store (.node index ticket.side) s.node
    let handle : Handle := ⟨s.node, s.incarnation, index, ticket.id, ticket.side⟩
    mark (.held handle)
    return .ok handle

def Streams.rearm (s : Streams g) (id : StreamId) : StreamM (Except Error Unit) := do
  match s.locate id with
  | .error e => return .error e
  | .ok index =>
    if !(← isGeneration index id.generation) then return .error (.stale id)
    let far ← load (.claimed index .b)
    if far = sideClaimed then return .error .wouldBlock
    if far ≠ sideReleased then return .error (.stale id)
    clear index .a
    clear index .b
    store (.node index .b) nobody
    store (.incarnation index .b) 0
    if ← compareExchange (.claimed index .b) sideReleased sideFree then return .ok ()
    else return .error (.stale id)

/-- Both halves are gone: give the side back. -/
def Handle.drop (handle : Handle) : StreamM Unit := do
  if ← isGeneration handle.index handle.id.generation then
    if ← compareExchange (.claimed handle.index handle.side) sideClaimed sideReleased then
      let other ← load (.claimed handle.index handle.side.other)
      if other ≠ sideClaimed then
        let _ ← compareExchange (.state handle.index) slotLive slotEmpty

def writerMayPark (index : Nat) (direction : Side) (before : Nat) : StreamM Bool := do
  if before &&& (flagFin ||| flagReset) ≠ 0 then return false
  let head ← load (.head index direction)
  let tail ← load (.tail index direction)
  return head != tail

def Handle.setFlag (handle : Handle) (direction : Side) (flag : Nat) : StreamM Bool := do
  if ← isGeneration handle.index handle.id.generation then
    let before ← fetchOr (.flags handle.index direction) flag
    if before &&& flag = 0 then
      if flag ≠ flagReaderGone then return true
      else if before &&& flagCloseWatch ≠ 0 then return true
      else writerMayPark handle.index direction before
    else return false
  else return false

/-- `end_sides` at one side: whether it was ended. -/
def endSide (node : Nat) (dead : Nat → Bool) (index : Nat) (side : Side) : StreamM Bool := do
  let claimed ← load (.claimed index side)
  if claimed ≠ sideClaimed then return false
  let owner ← load (.node index side)
  if owner ≠ node then return false
  let incarnation ← load (.incarnation index side)
  if !dead incarnation then return false
  if !(← compareExchange (.claimed index side) sideClaimed sideDead) then return false
  let _ ← fetchOr (.flags index side) flagReset
  let _ ← fetchOr (.flags index side.other) flagReaderGone
  return true

/-- `end_sides` at one slot: it empties when its last holder was ended. -/
def endSlot (node : Nat) (dead : Nat → Bool) (index : Nat) : StreamM Unit := do
  let state ← load (.state index)
  if state = slotLive then
    let first ← endSide node dead index .a
    let second ← endSide node dead index .b
    if first || second then
      let a ← load (.claimed index .a)
      if a ≠ sideClaimed then
        let b ← load (.claimed index .b)
        if b ≠ sideClaimed then
          let _ ← compareExchange (.state index) slotLive slotEmpty

def endSides (node : Nat) (dead : Nat → Bool) : List Nat → StreamM Unit
  | [] => return ()
  | index :: rest => do
    endSlot node dead index
    endSides node dead rest

/-- A confirmed death: every side that incarnation of `node` held is finished. -/
def nodeDead (g : Geometry) (node incarnation : Nat) : StreamM Unit :=
  endSides node (fun held => held == incarnation) (List.range g.totalSlots)

/-- This process took over its node: every side an earlier life of the node held is finished. -/
def Streams.supersede (s : Streams g) : StreamM Unit :=
  endSides s.node (fun held => held != s.incarnation) (List.range g.totalSlots)

end OrbitStream
