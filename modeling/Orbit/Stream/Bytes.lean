import Orbit.Atomic.Copy
import Orbit.Stream.Table

/-! The bytes of a stream: writing into the direction a side writes, reading from the one it reads,
and the system of one writer and one reader of a direction. -/

namespace OrbitStream

open Orbit.Atomic

variable (g : Geometry)

/-- `Handle::slot`: the handle's stream has not ended. -/
def Handle.slot (handle : Handle) : StreamM Bool := isGeneration handle.index handle.id.generation

def clearExactWait (index : Nat) (direction : Side) : StreamM Unit := do
  let needed ← load (.exactNeeded index direction)
  if needed ≠ 0 then store (.exactNeeded index direction) 0
  else return ()

/-- Why a direction with these flags takes no more bytes. -/
def refusedBy (flags : Nat) : Option Error :=
  if flags &&& flagReset ≠ 0 then some .reset
  else if flags &&& flagFin ≠ 0 then some .closed
  else if flags &&& flagReaderGone ≠ 0 then some .peerGone
  else none

/-- Copy the bytes into the ring and publish them.  The tail loaded last decides only whom to
ring. -/
def publish (index : Nat) (direction : Side) (head : Nat) (bytes : List UInt8) : StreamM Unit := do
  ringIn (.byte index direction) g.bufferBytes head bytes
  store (.head index direction) (add64 head bytes.length)
  mark (.accepted bytes)
  let _ ← load (.tail index direction)

def writeBytes (index : Nat) (direction : Side) (buf : List UInt8) :
    StreamM (Except Error Nat) := do
  let flags ← load (.flags index direction)
  match refusedBy flags with
  | some e => return .error e
  | none =>
    let head ← load (.head index direction)
    let tail ← load (.tail index direction)
    let free := g.bufferBytes - sub64 head tail
    if buf = [] then return .ok 0
    else if free = 0 then return .error .wouldBlock
    else
      let len := min buf.length free
      publish g index direction head (buf.take len)
      return .ok len

def Handle.tryWrite (handle : Handle) (buf : List UInt8) : StreamM (Except Error Nat) := do
  if ← handle.slot then
    clearExactWait handle.index handle.side.writeDirection
    writeBytes g handle.index handle.side.writeDirection buf
  else return .error (.stale handle.id)

/-- Publish `buf` as one indivisible write, or publish nothing. -/
def Handle.tryWriteExact (handle : Handle) (buf : List UInt8) : StreamM (Except Error Unit) := do
  let index := handle.index
  let direction := handle.side.writeDirection
  if ← handle.slot then
    clearExactWait index direction
    let flags ← load (.flags index direction)
    match refusedBy flags with
    | some e => return .error e
    | none =>
      if g.bufferBytes < buf.length then
        return .error (.malformed (s!"atomic stream write is {buf.length} bytes; " ++
          s!"ring capacity is {g.bufferBytes}"))
      else if buf = [] then return .ok ()
      else
        let head ← load (.head index direction)
        let tail ← load (.tail index direction)
        if g.bufferBytes - sub64 head tail < buf.length then return .error .wouldBlock
        else
          publish g index direction head buf
          return .ok ()
  else return .error (.stale handle.id)

def writerGainedCapacity (index : Nat) (direction : Side) (beforeTail afterTail : Nat) :
    StreamM Bool := do
  let head ← load (.head index direction)
  let needed ← load (.exactNeeded index direction)
  if needed = 0 then return decide (g.bufferBytes ≤ sub64 head beforeTail)
  else
    let flags ← load (.flags index direction)
    if flags &&& (flagFin ||| flagReset ||| flagReaderGone) ≠ 0 then return false
    else
      let before := g.bufferBytes - sub64 head beforeTail
      let after := g.bufferBytes - sub64 head afterTail
      return decide (before < needed) && decide (needed ≤ after)

/-- Copy bytes out of the ring and give their room back.  The result says whether the writer is
rung. -/
def consume (index : Nat) (direction : Side) (tail len : Nat) : StreamM (List UInt8 × Bool) := do
  let bytes ← ringOut (.byte index direction) g.bufferBytes tail len
  store (.tail index direction) (add64 tail len)
  mark (.returned bytes)
  let ring ← writerGainedCapacity g index direction tail (add64 tail len)
  return (bytes, ring)

/-- One attempt at the direction this side reads from, for at most `len` bytes.  No bytes for a
`len` that is not zero is clean end of stream. -/
def Handle.tryRead (handle : Handle) (len : Nat) : StreamM (Except Error (List UInt8)) := do
  let index := handle.index
  let direction := handle.side.readDirection
  if ← handle.slot then
    let flags ← load (.flags index direction)
    if flags &&& flagReset ≠ 0 then return .error .reset
    else
      let head ← load (.head index direction)
      let tail ← load (.tail index direction)
      let available := sub64 head tail
      if len = 0 then return .ok []
      else if available = 0 then
        if flags &&& flagFin ≠ 0 then return .ok [] else return .error .wouldBlock
      else
        let (bytes, _) ← consume g index direction tail (min len available)
        return .ok bytes
  else return .error (.stale handle.id)

/-- Consume exactly one complete frame of `len` bytes, or consume nothing. -/
def Handle.tryReadExact (handle : Handle) (len : Nat) : StreamM (Except Error (List UInt8)) := do
  let index := handle.index
  let direction := handle.side.readDirection
  if ← handle.slot then
    let flags ← load (.flags index direction)
    if flags &&& flagReset ≠ 0 then return .error .reset
    else if g.bufferBytes < len then
      return .error (.malformed (s!"atomic stream read is {len} bytes; " ++
        s!"ring capacity is {g.bufferBytes}"))
    else if len = 0 then return .ok []
    else
      let head ← load (.head index direction)
      let tail ← load (.tail index direction)
      let available := sub64 head tail
      if available < len then
        if flags &&& flagFin ≠ 0 then
          return .error (.malformed s!"stream ended with {available} bytes of a {len} byte frame")
        else return .error .wouldBlock
      else
        let (bytes, _) ← consume g index direction tail len
        return .ok bytes
  else return .error (.stale handle.id)

/-- The two ends of one direction of one stream. -/
structure Ends where
  writer : Handle
  reader : Handle
  index_eq : reader.index = writer.index
  id_eq : reader.id = writer.id
  side_eq : reader.side = writer.side.other

inductive ByteCall where
  | tryWrite (buf : List UInt8)
  | tryWriteExact (buf : List UInt8)
  | finish
  | reset
  | tryRead (len : Nat)
  | tryReadExact (len : Nat)

def ByteCall.writes : ByteCall → Bool
  | .tryWrite _ | .tryWriteExact _ | .finish | .reset => true
  | .tryRead _ | .tryReadExact _ => false

/-- How a call ended: its result, and the bytes it published or took.  `atEnd` says that the writer
had finished and every accepted byte had been returned. -/
inductive Outcome where
  | wrote (buf : List UInt8) (result : Except Error Nat) (published : List UInt8)
  | wroteExact (buf : List UInt8) (result : Except Error Unit) (published : List UInt8)
  | read (len : Nat) (result : Except Error (List UInt8)) (taken : List UInt8) (atEnd : Bool)
  | readExact (len : Nat) (result : Except Error (List UInt8)) (taken : List UInt8)

/-- What the history keeps of a direction: the bytes accepted and returned, whether the writer has
finished, what had been accepted and returned when the call in progress at each end began, and how
the calls ended. -/
structure ByteHistory where
  accepted : List UInt8
  returned : List UInt8
  finished : Bool
  writing : Option Nat
  reading : Option Nat
  outcomes : List Outcome

def ByteHistory.init : ByteHistory := ⟨[], [], false, none, none, []⟩

namespace ByteHistory

def published (h : ByteHistory) : List UInt8 := h.accepted.drop (h.writing.getD 0)

def taken (h : ByteHistory) : List UInt8 := h.returned.drop (h.reading.getD 0)

def atEnd (h : ByteHistory) : Bool := h.finished && h.accepted.length == h.returned.length

def wrote (h : ByteHistory) (outcomes : List Outcome) : ByteHistory :=
  { h with writing := none, outcomes := outcomes ++ h.outcomes }

def read (h : ByteHistory) (outcome : Outcome) : ByteHistory :=
  { h with reading := none, outcomes := outcome :: h.outcomes }

end ByteHistory

def recordBytes (call : ByteCall) (event : Event) (h : ByteHistory) : ByteHistory :=
  match event, call with
  | .accepted bytes, _ => { h with accepted := h.accepted ++ bytes }
  | .returned bytes, _ => { h with returned := h.returned ++ bytes }
  | .wrote _ result, .tryWrite buf => h.wrote [.wrote buf result h.published]
  | .wroteExact _ result, .tryWriteExact buf => h.wrote [.wroteExact buf result h.published]
  | .flagged, .finish => { h with finished := true }.wrote []
  | .flagged, _ => h.wrote []
  | .read len result, _ => h.read (.read len result h.taken h.atEnd)
  | .readExact len result, _ => h.read (.readExact len result h.taken)
  | _, _ => h

def byteBegins (call : ByteCall) (h : ByteHistory) : Option ByteHistory :=
  if call.writes then
    if h.writing.isNone then some { h with writing := some h.accepted.length } else none
  else if h.reading.isNone then some { h with reading := some h.returned.length } else none

def byteSys (ends : Ends) : Sys Addr Event ByteCall ByteHistory where
  body
    | .tryWrite buf => do
      let result ← ends.writer.tryWrite g buf
      mark (.wrote buf.length result)
    | .tryWriteExact buf => do
      let result ← ends.writer.tryWriteExact g buf
      mark (.wroteExact buf.length result)
    | .finish => do
      let _ ← ends.writer.setFlag ends.writer.side.writeDirection flagFin
      mark .flagged
    | .reset => do
      let _ ← ends.writer.setFlag ends.writer.side.writeDirection flagReset
      mark .flagged
    | .tryRead len => do
      let result ← ends.reader.tryRead g len
      mark (.read len result)
    | .tryReadExact len => do
      let result ← ends.reader.tryReadExact g len
      mark (.readExact len result)
  begins := byteBegins
  record _ := recordBytes

/-- The words of a direction of a live stream, as `install` and `rearm` leave them. -/
structure Ends.Fresh (ends : Ends) (mem : Mem Addr) : Prop where
  state : mem (.state ends.writer.index) = slotLive
  generation : mem (.generation ends.writer.index) = ends.writer.id.generation
  head : mem (.head ends.writer.index ends.writer.side) = 0
  tail : mem (.tail ends.writer.index ends.writer.side) = 0
  flags : mem (.flags ends.writer.index ends.writer.side) = 0

end OrbitStream
