import Mathlib.Algebra.Order.Ring.Int
import Mathlib.Algebra.BigOperators.Group.List.Basic

/-! Arithmetic on a cell of an `i64`: additions, subtractions and bounded claims, of any number of callers,
one atomic access at a time. -/

namespace OrbitCell

/-- A number that an `i64` holds. -/
def InRange (n : Int) : Prop := -2 ^ 63 ≤ n ∧ n < 2 ^ 63

instance (n : Int) : Decidable (InRange n) := inferInstanceAs (Decidable (_ ∧ _))

/-- The `i64` of a number, if there is one. -/
def exactly (n : Int) : Option Int64 := if InRange n then some (.ofInt n) else none

def checkedAdd (a b : Int64) : Option Int64 := exactly (a.toInt + b.toInt)

def checkedSub (a b : Int64) : Option Int64 := exactly (a.toInt - b.toInt)

def saturatingSub (a b : Int64) : Int64 :=
  if a.toInt - b.toInt < -2 ^ 63 then .minValue
  else if a.toInt - b.toInt < 2 ^ 63 then .ofInt (a.toInt - b.toInt) else .maxValue

inductive CellCall where
  | fetchAdd (amount : Int64)
  | fetchSub (amount : Int64)
  | addUntil (amount limit : Int64)
deriving DecidableEq

inductive CellReply where
  | value (after : Int64)
  | took (taken after : Int64)
  | exhausted
  | overflow
  /-- The cell has been released. -/
  | stale
deriving DecidableEq

/-- Where a call is. -/
inductive Stage where
  | loading
  /-- It is going to replace the value it has seen. -/
  | swapping (current next : Int64)
  /-- It has replaced the value, and is going to count the change. -/
  | announcing (current next : Int64)
  | done (reply : CellReply)
  /-- A sum or difference has overflowed. -/
  | panicked
deriving DecidableEq

structure CellTask where
  call : CellCall
  stage : Stage

def taken (amount limit current : Int64) : Int64 :=
  if amount ≤ saturatingSub limit current then amount else saturatingSub limit current

def CellCall.decide (call : CellCall) (current : Int64) : Stage :=
  match call with
  | .fetchAdd amount =>
    match checkedAdd current amount with
    | some next => .swapping current next
    | none => .done .overflow
  | .fetchSub amount =>
    match checkedSub current amount with
    | some next => .swapping current next
    | none => .done .overflow
  | .addUntil amount limit =>
    if limit ≤ current then .done .exhausted
    else
      match checkedAdd current (taken amount limit current) with
      | some after => .swapping current after
      | none => .panicked

/-- What a call returns after it has replaced `current`. -/
def CellCall.finish (call : CellCall) (current next : Int64) : Stage :=
  match call with
  | .fetchAdd amount =>
    match checkedAdd current amount with
    | some after => .done (.value after)
    | none => .panicked
  | .fetchSub amount =>
    match checkedSub current amount with
    | some after => .done (.value after)
    | none => .panicked
  | .addUntil amount limit => .done (.took (taken amount limit current) next)

/-- A swap that has failed: the fetches go on with the value it has found, a bounded claim loads again. -/
def CellCall.retry (call : CellCall) (actual : Int64) : Stage :=
  match call with
  | .fetchAdd _ => call.decide actual
  | .fetchSub _ => call.decide actual
  | .addUntil .. => .loading

/-- Whether a swap of the call can fail without cause. -/
def CellCall.isWeak : CellCall → Bool
  | .fetchAdd _ => true
  | .fetchSub _ => true
  | .addUntil .. => false

def CellCall.start (call : CellCall) (live : Bool) : Stage :=
  match call with
  | .addUntil amount _ =>
    if amount ≤ 0 then .done .overflow else if live then .loading else .done .stale
  | .fetchAdd _ => if live then .loading else .done .stale
  | .fetchSub _ => if live then .loading else .done .stale

structure CellWorld where
  value : Int64
  changes : UInt32
  tasks : List CellTask

inductive CellAct where
  /-- A call begins; whether its handle is still that of the cell. -/
  | begin (call : CellCall) (live : Bool)
  /-- The next access of a call; whether a weak swap fails without cause. -/
  | step (task : Nat) (spurious : Bool)

def CellWorld.goes (w : CellWorld) (i : Nat) (task : CellTask) (stage : Stage) : CellWorld :=
  { w with tasks := w.tasks.set i { task with stage } }

def CellWorld.step (w : CellWorld) (i : Nat) (task : CellTask) (spurious : Bool) : CellWorld :=
  match task.stage with
  | .loading => w.goes i task (task.call.decide w.value)
  | .swapping current next =>
    if w.value = current ∧ ¬(task.call.isWeak ∧ spurious) then
      { w with value := next, tasks := w.tasks.set i { task with stage := .announcing current next } }
    else w.goes i task (task.call.retry w.value)
  | .announcing current next =>
    { w with
      changes := w.changes + 1
      tasks := w.tasks.set i { task with stage := task.call.finish current next } }
  | .done _ => w
  | .panicked => w

/-- A step that cannot be taken changes nothing. -/
def CellWorld.act (w : CellWorld) : CellAct → CellWorld
  | .begin call live => { w with tasks := w.tasks ++ [⟨call, call.start live⟩] }
  | .step i spurious =>
    match w.tasks[i]? with
    | some task => w.step i task spurious
    | none => w

def CellWorld.start (value : Int64) (changes : UInt32) : CellWorld := ⟨value, changes, []⟩

def CellWorld.run (w : CellWorld) (acts : List CellAct) : CellWorld := acts.foldl CellWorld.act w

end OrbitCell
