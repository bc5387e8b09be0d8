import Orbit.Counter.Bounded

/-! The calls on a table in shared memory, one atomic access or lock at a time, and the runs of any
number of them by any number of threads and processes. -/

namespace OrbitCounter

open Orbit.Atomic

/-- Where a call stands: the access it makes next.  `held` says that it holds the structural lock. -/
inductive Stage where
  | start
  /- the loop of `find_slot`, `update_or_install` and `reset_or_install` -/
  | find (held : Bool) (offset : Nat)
  /- `CounterSlot::matches` -/
  | matchState (held : Bool) (offset : Nat)
  | matchHash (held : Bool) (offset : Nat)
  | matchLen (held : Bool) (offset : Nat)
  | matchByte (held : Bool) (offset i : Nat)
  /- the value of the slot found -/
  | loadValue (index : Nat)
  | clearValue (held : Bool) (index : Nat)
  | loadCurrent (held : Bool) (index : Nat) (delta : Int64)
  | exchange (held : Bool) (index : Nat) (delta current : Int64)
  /- `with_structure` -/
  | lockTable
  | lockRegion
  | unlockRegion (result : Result)
  | unlockTable (result : Result)
  /- `CounterSlot::install` -/
  | writeHash (index : Nat)
  | writeLen (index : Nat)
  | writeByte (index i : Nat)
  | writeValue (index : Nat)
  | writeState (index : Nat)
  | answer (result : Result)
  | returned (result : Result)
  deriving DecidableEq

/-- A call by a thread of a process on one of the tables that the process opened. -/
structure Call where
  process : Nat
  table : Nat
  request : Request
  stage : Stage

/-- The slots and the lock of the region, and the mutex that each opened table has in its process.
A lock goes by the number of the call that holds it. -/
structure Shared where
  slots : Slots
  structural : Nat → Nat → Option Nat
  region : Option Nat

structure Move where
  stage : Stage
  shared : Shared
  events : List (Event Request Result)

variable (g : Geometry) (id : Nat) (call : Call) (s : Shared)

def Call.go (stage : Stage) : Move := ⟨stage, s, []⟩

/-- The call knows its result; it still has to release the lock it holds. -/
def Call.conclude (held : Bool) (result : Result) : Move :=
  ⟨if held then .unlockRegion result else .answer result, s, [.point id call.request result]⟩

def Call.absent : Move :=
  match call.request.work with
  | .look => call.conclude id s false (.ok (.found none))
  | .update _ | .clear => Call.go s .lockTable

def Call.vacant (held : Bool) (index : Nat) : Move :=
  if held then Call.go s (.writeHash index) else call.absent id s

def Call.exhausted (held : Bool) : Move :=
  if held then call.conclude id s true (.error (.stateFull g.capacity)) else call.absent id s

def Call.found (held : Bool) (index : Nat) : Move :=
  match call.request.work with
  | .look => Call.go s (.loadValue index)
  | .update delta => Call.go s (.loadCurrent held index delta)
  | .clear => Call.go s (.clearValue held index)

def Call.passed (held : Bool) (offset : Nat) : Move :=
  if offset + 1 < g.capacity then Call.go s (.find held (offset + 1))
  else call.exhausted g id s held

def Call.compare (held : Bool) (offset i : Nat) : Move :=
  if i < call.request.key.length then Call.go s (.matchByte held offset i)
  else call.found s held (probeIndex (counterHash call.request.key) offset g.capacity)

/-- `try_update` on the value just read. -/
def Call.attempt (held : Bool) (index : Nat) (delta current : Int64) : Move :=
  match checkedAdd current delta with
  | some _ => Call.go s (.exchange held index delta current)
  | none => call.conclude id s held (.error .overflow)

def Call.setMutex (holder : Option Nat) : Shared :=
  let tables := Function.update (s.structural call.process) call.table holder
  { s with structural := Function.update s.structural call.process tables }

def Shared.write (index : Nat) (slot : Slot) : Shared :=
  { s with slots := Function.update s.slots index slot }

/-- What `install` gives the key, and the result of it. -/
def Work.installs : Work → Int64
  | .look | .clear => 0
  | .update delta => delta

def Work.installed : Work → Result
  | .look => .ok (.found none)
  | .update delta => .ok (.value delta)
  | .clear => .ok .cleared

/-- One step of a call.  `choice` is false when the operating system refuses the lock and when a
weak exchange fails without a reason. -/
def act (choice : Bool) : Move :=
  let key := call.request.key
  let hash := counterHash key
  let slotAt offset := s.slots (probeIndex hash offset g.capacity)
  match call.stage with
  | .start =>
    match call.request.validate g with
    | .error e => call.conclude id s false (.error e)
    | .ok _ => Call.go s (.find false 0)
  | .find held offset =>
    if (slotAt offset).state = slotEmpty then
      call.vacant id s held (probeIndex hash offset g.capacity)
    else if (slotAt offset).state = slotOccupied then Call.go s (.matchState held offset)
    else call.passed g id s held offset
  | .matchState held offset =>
    if (slotAt offset).state = slotOccupied then Call.go s (.matchHash held offset)
    else call.passed g id s held offset
  | .matchHash held offset =>
    if (slotAt offset).keyHash = hash then Call.go s (.matchLen held offset)
    else call.passed g id s held offset
  | .matchLen held offset =>
    if (slotAt offset).keyLen.toNat = key.length then call.compare g s held offset 0
    else call.passed g id s held offset
  | .matchByte held offset i =>
    if (slotAt offset).key i = key.getD i 0 then call.compare g s held offset (i + 1)
    else call.passed g id s held offset
  | .loadValue index => call.conclude id s false (.ok (.found (some (s.slots index).value)))
  | .clearValue held index =>
    call.conclude id { s with slots := s.slots.setValue index 0 } held (.ok .cleared)
  | .loadCurrent held index delta => call.attempt id s held index delta (s.slots index).value
  | .exchange held index delta current =>
    if (s.slots index).value = current ∧ choice then
      call.conclude id { s with slots := s.slots.setValue index (current + delta) } held
        (.ok (.value (current + delta)))
    else call.attempt id s held index delta (s.slots index).value
  | .lockTable =>
    match s.structural call.process call.table with
    | none => Call.go (call.setMutex s (some id)) .lockRegion
    | some _ => Call.go s .lockTable
  | .lockRegion =>
    if choice then
      match s.region with
      | none => Call.go { s with region := some id } (.find true 0)
      | some _ => Call.go s .lockRegion
    else ⟨.unlockTable (.error .io), s, [.point id call.request (.error .io)]⟩
  | .unlockRegion result => Call.go { s with region := none } (.unlockTable result)
  | .unlockTable result => Call.go (call.setMutex s none) (.answer result)
  | .writeHash index =>
    Call.go (s.write index { s.slots index with keyHash := hash }) (.writeLen index)
  | .writeLen index =>
    Call.go (s.write index { s.slots index with keyLen := UInt16.ofNat key.length })
      (.writeByte index 0)
  | .writeByte index i =>
    Call.go (s.write index
        { s.slots index with key := Function.update (s.slots index).key i (key.getD i 0) })
      (if i + 1 < g.keyMax then .writeByte index (i + 1) else .writeValue index)
  | .writeValue index =>
    Call.go (s.write index { s.slots index with value := call.request.work.installs })
      (.writeState index)
  | .writeState index =>
    call.conclude id (s.write index { s.slots index with state := slotOccupied }) true
      call.request.work.installed
  | .answer result => ⟨.returned result, s, [.ret id result]⟩
  | .returned result => Call.go s (.returned result)

/-- The table, the calls made so far, the processes that died and what happened. -/
structure World where
  shared : Shared
  calls : List Call
  dead : Nat → Bool
  trace : List (Event Request Result)

def World.init : World where
  shared := ⟨fun _ => Slot.empty, fun _ _ => none, none⟩
  calls := []
  dead := fun _ => false
  trace := []

inductive Op where
  | make (process table : Nat) (request : Request)
  | step (id : Nat) (choice : Bool)
  | die (process : Nat)
  deriving DecidableEq

/-- The lock of the region after the death of a process, which closes its descriptors. -/
def World.release (w : World) (process : Nat) : Option Nat :=
  w.shared.region.filter fun id => (w.calls[id]?.map Call.process) ≠ some process

def exec (w : World) : Op → World
  | .make process table request =>
    if w.dead process then w
    else { w with
      calls := w.calls ++ [⟨process, table, request, .start⟩]
      trace := w.trace ++ [.call w.calls.length request] }
  | .step id choice =>
    match w.calls[id]? with
    | none => w
    | some call =>
      if w.dead call.process then w
      else { w with
        shared := (act g id call w.shared choice).shared
        calls := w.calls.set id { call with stage := (act g id call w.shared choice).stage }
        trace := w.trace ++ (act g id call w.shared choice).events }
  | .die process =>
    { w with
      dead := Function.update w.dead process true
      shared := { w.shared with region := w.release process } }

def run (ops : List Op) : World := ops.foldl (exec g) .init

end OrbitCounter
