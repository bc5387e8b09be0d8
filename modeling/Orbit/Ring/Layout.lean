import Orbit.Atomic.Copy
import Orbit.Ring.Cursor

/-! One lane of a shared-memory ring: its head and its slots, the writers that append frames and the
reader that walks it.  The steps are the accesses of the words, one after the other; fences, which
only order them, have no step of their own. -/

namespace OrbitRing

open Orbit.Atomic

/-- Writer ownership for one ring. -/
inductive RingTopology where
  | shared
  | perNode
  | sharedOrdered
  deriving DecidableEq, Repr

/-- Physical policy for one ring, with what `RingSpec::assert_valid` makes sure of. -/
structure RingSpec where
  kind : Nat
  capacity : Nat
  payloadCapacity : Nat
  topology : RingTopology
  kind_lt : kind < 2 ^ 8
  capacity_pos : 0 < capacity
  capacity_pow : isPowerOfTwo capacity
  payload_lt : payloadCapacity < 2 ^ 32

/-- The words of the lane, the mutex of each process' handle and the lock of the region. -/
inductive Addr where
  | head
  | seq (slot : Nat)
  | id (slot : Nat)
  | ver (slot : Nat)
  | len (slot : Nat)
  | kind (slot : Nat)
  | byte (slot index : Nat)
  | writeLock (process : Nat)
  | crossProcess
  deriving DecidableEq

/-- What the history of a run keeps: the frames that writers write, in the order of their counters,
and the polls with the head that each has read. -/
inductive Event where
  | opens (frame : Frame)
  | polled (head next : Nat) (poll : RingPoll)

abbrev RingM := Prog Addr Event

section

variable (r : RingSpec) (ids : NetIds)

/-- The sequence word goes odd, the content is written, and the sequence word goes even. -/
def writeSlot (node counter frameKind ver : Nat) (payload : List UInt8) : RingM Nat := do
  let id := ids.make r.kind node counter
  let slot := counter &&& (r.capacity - 1)
  let midSeq := counter * 2 + 1
  store (.seq slot) midSeq
  mark (.opens ⟨id, frameKind, ver, payload⟩)
  store (.id slot) id
  store (.ver slot) ver
  store (.len slot) (payload.length % 2 ^ 32)
  store (.kind slot) frameKind
  copyIn (.byte slot) 0 payload
  store (.seq slot) (midSeq + 1)
  return id

def writeSlots (node frameKind ver : Nat) : Nat → List (List UInt8) → RingM (List Nat)
  | _, [] => return []
  | counter, payload :: rest => do
    let id ← writeSlot r ids node counter frameKind ver payload
    let ids ← writeSlots node frameKind ver ((counter + 1) % 2 ^ 64) rest
    return id :: ids

def locked {α : Type} (process : Nat) (body : RingM α) : RingM α := do
  acquire (.writeLock process)
  match r.topology with
  | .sharedOrdered => do
    acquire .crossProcess
    let result ← body
    release .crossProcess
    release (.writeLock process)
    return result
  | _ => do
    let result ← body
    release (.writeLock process)
    return result

def tooLong (payload : List UInt8) : Bool := payload.length > r.payloadCapacity

/-- `ShmRing::write`.  `none` is a payload that does not fit. -/
def write (process node frameKind ver : Nat) (payload : List UInt8) : RingM (Option Nat) :=
  if tooLong r payload then return none
  else if r.topology = .shared then do
    let counter ← fetchAdd 64 .head 1
    let id ← writeSlot r ids node counter frameKind ver payload
    return some id
  else
    locked r process do
      let counter ← load .head
      let id ← writeSlot r ids node counter frameKind ver payload
      store .head ((counter + 1) % 2 ^ 64)
      return some id

/-- `ShmRing::write_batch`. -/
def writeBatch (process node frameKind ver : Nat) (payloads : List (List UInt8)) :
    RingM (Option (List Nat)) :=
  if payloads.length > r.capacity then return none
  else if payloads.any (tooLong r) then return none
  else if payloads.isEmpty then return some []
  else if r.topology = .shared then do
    let start ← fetchAdd 64 .head payloads.length
    let result ← writeSlots r ids node frameKind ver start payloads
    return some result
  else
    locked r process do
      let start ← load .head
      let result ← writeSlots r ids node frameKind ver start payloads
      store .head ((start + result.length) % 2 ^ 64)
      return some result

def readCommittedFrame (slot : Nat) : RingM (Option Frame) := do
  let seqPre ← load (.seq slot)
  if seqPre = 0 then return none
  if seqPre % 2 = 1 then return none
  let id ← load (.id slot)
  let kind ← load (.kind slot)
  let ver ← load (.ver slot)
  let payloadLen ← load (.len slot)
  if payloadLen > r.payloadCapacity then return none
  let payload ← copyOut (.byte slot) 0 payloadLen
  let seqPost ← load (.seq slot)
  if seqPre ≠ seqPost then return none
  return some ⟨id, kind, ver, payload⟩

def notCommitted : RingRead := if r.topology = .shared then .pending else .unavailable

/-- The attempts of `read_lane_index_state_at`, and the last look at the sequence word. -/
def readAttempts (slot counter : Nat) : Nat → RingM RingRead
  | 0 => do
    let sequence ← load (.seq slot)
    return if sequence < counter * 2 + 2 then notCommitted r else .unavailable
  | attempts + 1 => do
    let sequence ← load (.seq slot)
    if sequence < counter * 2 + 2 then return notCommitted r
    if sequence > counter * 2 + 2 then return .unavailable
    match ← readCommittedFrame r slot with
    | some frame => return if ids.counter frame.id = counter then .ready frame else .unavailable
    | none => readAttempts slot counter attempts

def readLaneIndexStateAt (counter : Nat) : RingM RingRead :=
  readAttempts r ids (counter &&& (r.capacity - 1)) counter 3

/-- The reads of the loop of `poll_ring`, up to one that is pending. -/
def readFrom : Nat → Nat → RingM (List RingRead)
  | 0, _ => return []
  | n + 1, next => do
    let read ← readLaneIndexStateAt r ids next
    if read = .pending then return [read]
    let rest ← readFrom n (next + 1)
    return read :: rest

/-- `poll_ring` on a cursor: the head it read, the cursor it leaves and its result. -/
def poll (cursor : Nat) : RingM (Nat × Nat × RingPoll) := do
  let head ← load .head
  let next := max cursor (head - r.capacity)
  let reads ← readFrom r ids (head - next) next
  return (head, pollRing ids r.kind (fun c => reads.getD (c - next) .unavailable) head r.capacity
    cursor)

end

inductive Call where
  | write (process node frameKind ver : Nat) (payload : List UInt8)
  | writeBatch (process node frameKind ver : Nat) (payloads : List (List UInt8))
  | poll (cursor : Nat)

def Call.frames (r : RingSpec) : Call → Nat
  | .write _ _ _ _ payload => if tooLong r payload then 0 else 1
  | .writeBatch _ _ _ _ payloads =>
    if payloads.length > r.capacity ∨ payloads.any (tooLong r) then 0 else payloads.length
  | .poll _ => 0

structure PollRecord where
  head : Nat
  poll : RingPoll

structure History where
  /-- How many frames the calls begun so far write. -/
  begun : Nat
  /-- The frames written, by their counters. -/
  frames : List Frame
  cursor : Nat
  polling : Bool
  polls : List PollRecord

def History.init (cursor : Nat) : History := ⟨0, [], cursor, false, []⟩

def History.returned (h : History) : List Frame := h.polls.flatMap fun record => record.poll.frames

/-- A lane of one node has the writers of one process, and there is one reader with one cursor. -/
def begins (r : RingSpec) (call : Call) (h : History) : Option History :=
  match call with
  | .poll cursor =>
    if h.polling = false ∧ h.cursor = cursor then some { h with polling := true } else none
  | .write process node _ _ _ | .writeBatch process node _ _ _ =>
    if node < 2 ^ 16 ∧ (r.topology = .perNode → process = 0) then
      some { h with begun := h.begun + call.frames r }
    else none

def record : Event → History → History
  | .opens frame, h => { h with frames := h.frames ++ [frame] }
  | .polled head next poll, h =>
    { h with
      cursor := next
      polling := false
      polls := h.polls ++ [⟨head, poll⟩] }

def ringSys (r : RingSpec) (ids : NetIds) : Sys Addr Event Call History where
  body
    | .write process node frameKind ver payload => do
      let _ ← write r ids process node frameKind ver payload
      return ()
    | .writeBatch process node frameKind ver payloads => do
      let _ ← writeBatch r ids process node frameKind ver payloads
      return ()
    | .poll cursor => do
      let (head, next, result) ← poll r ids cursor
      mark (.polled head next result)
  begins := begins r
  record _ _ := record

/-- Fewer than `2 ^ 40` frames are written. -/
def countersLeft (r : RingSpec) : Discipline Addr Call History where
  begin call h _ := h.begun + call.frames r < counterSize
  write _ _ _ _ _ _ _ := True

def ringStart (cursor : Nat) : Config Addr Event Call History := ⟨fun _ => 0, .init cursor, []⟩

end OrbitRing
