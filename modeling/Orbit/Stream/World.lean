import Orbit.Stream.Table
import Orbit.Atomic.Sequence

/-! Whole operations of any number of processes on one stream table.  Beside the table, a world keeps
the endpoints not yet dropped; an operation names one by its position.  A ticket or an address is
plain data, and any of them may be presented. -/

namespace OrbitStream

open Orbit.Atomic

variable {g : Geometry}

/-- One held side with its halves.  `shut` is the write half's own record of `finish` and
`reset`. -/
structure Endpoint where
  handle : Handle
  reading : Bool
  writing : Bool
  shut : Bool
  deriving DecidableEq

namespace Endpoint

def new (handle : Handle) : Endpoint := ⟨handle, true, true, false⟩

/-- `WriteHalf::finish`. -/
def finish (e : Endpoint) : StreamM Unit := do
  let _ ← e.handle.setFlag e.handle.side.writeDirection flagFin

/-- `WriteHalf::reset`. -/
def reset (e : Endpoint) : StreamM Unit := do
  let _ ← e.handle.setFlag e.handle.side.writeDirection flagReset

/-- `ReadHalf::stop_reading`, which is also the first thing its drop does. -/
def stopReading (e : Endpoint) : StreamM Unit := do
  let _ ← e.handle.setFlag e.handle.side.readDirection flagReaderGone

def dropRead (e : Endpoint) : StreamM Unit := do
  e.stopReading
  if !e.writing then e.handle.drop

/-- The drop of the write half: without `finish` it resets the direction. -/
def dropWrite (e : Endpoint) : StreamM Unit := do
  if !e.shut then e.reset
  if !e.reading then e.handle.drop

/-- The drop of both halves, in the order of the fields. -/
def drop (e : Endpoint) : StreamM Unit := do
  e.dropRead
  { e with reading := false }.dropWrite

def rearm (e : Endpoint) (s : Streams g) : StreamM (Except Error Unit) := do
  if e.handle.side ≠ .a then
    return .error (.malformed "only the creator side of a stream can be rearmed")
  s.rearm e.handle.id

end Endpoint

inductive Op (g : Geometry) where
  | create (s : Streams g)
  | openTicket (s : Streams g) (ticket : Ticket)
  | finish (endpoint : Nat)
  | reset (endpoint : Nat)
  | stopReading (endpoint : Nat)
  | dropRead (endpoint : Nat)
  | dropWrite (endpoint : Nat)
  | drop (endpoint : Nat)
  | rearm (s : Streams g) (id : StreamId)
  | rearmEndpoint (s : Streams g) (endpoint : Nat)
  | nodeDead (node incarnation : Nat)
  | supersede (s : Streams g)

structure World where
  mem : Mem Addr
  endpoints : List Endpoint

def World.init : World := ⟨fun _ => 0, []⟩

def World.handles (w : World) : List Handle := w.endpoints.map Endpoint.handle

def shed (endpoints : List Endpoint) (n : Nat) (e : Endpoint) : List Endpoint :=
  if e.reading || e.writing then endpoints.set n e else endpoints.eraseIdx n

/-- An operation on the endpoint at a position, if it is there and has the halves it needs. -/
def World.at (w : World) (n : Nat) (needs : Endpoint → Bool) (act : Endpoint → World) : World :=
  match w.endpoints[n]? with
  | some e => if needs e then act e else w
  | none => w

def exec (w : World) : Op g → World
  | .create s =>
    let r := s.create.run w.mem
    match r.1 with
    | .ok (handle, _) => ⟨r.2, .new handle :: w.endpoints⟩
    | .error _ => { w with mem := r.2 }
  | .openTicket s ticket =>
    let r := (s.open ticket).run w.mem
    match r.1 with
    | .ok handle => ⟨r.2, .new handle :: w.endpoints⟩
    | .error _ => { w with mem := r.2 }
  | .finish n => w.at n Endpoint.writing fun e =>
    ⟨(e.finish.run w.mem).2, w.endpoints.set n { e with shut := true }⟩
  | .reset n => w.at n Endpoint.writing fun e =>
    ⟨(e.reset.run w.mem).2, w.endpoints.set n { e with shut := true }⟩
  | .stopReading n => w.at n Endpoint.reading fun e => { w with mem := (e.stopReading.run w.mem).2 }
  | .dropRead n => w.at n Endpoint.reading fun e =>
    ⟨(e.dropRead.run w.mem).2, shed w.endpoints n { e with reading := false }⟩
  | .dropWrite n => w.at n Endpoint.writing fun e =>
    ⟨(e.dropWrite.run w.mem).2, shed w.endpoints n { e with writing := false }⟩
  | .drop n => w.at n (fun e => e.reading && e.writing) fun e =>
    ⟨(e.drop.run w.mem).2, w.endpoints.eraseIdx n⟩
  | .rearm s id => { w with mem := ((s.rearm id).run w.mem).2 }
  | .rearmEndpoint s n => w.at n (fun e => e.reading && e.writing) fun e =>
    let r := (e.rearm s).run w.mem
    match r.1 with
    | .ok _ => ⟨r.2, w.endpoints.set n { e with shut := false }⟩
    | .error _ => { w with mem := r.2 }
  | .nodeDead node incarnation => { w with mem := ((nodeDead g node incarnation).run w.mem).2 }
  | .supersede s => { w with mem := (s.supersede.run w.mem).2 }

def run (ops : List (Op g)) : World := ops.foldl exec .init

end OrbitStream
