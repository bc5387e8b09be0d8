import Orbit.Atomic.Machine
import Orbit.Atomic.Tasks
import Mathlib.Algebra.Group.Nat.Defs
import Mathlib.Logic.Function.Basic

/-! Waits for a cell to change: the waiters that park on the wake sequence of its slot, and the writers,
releases, cancellers and recoveries that wake them, one atomic access at a time. -/

namespace OrbitCell.Waits

open Orbit.Atomic

inductive Kind where
  | scalar
  | text
  deriving DecidableEq

/-- A slot in one generation of its cell; the value and its count are those of a scalar, the banks, the
committed word and the writer those of a text. -/
structure Slot where
  retired : Bool
  value : UInt64
  changes : UInt32
  banks : Bool → List UInt8
  committed : UInt64
  writer : UInt64
  sequence : UInt32
  waiters : UInt32

/-- What `since` is compared with. -/
def Slot.version (kind : Kind) (slot : Slot) : UInt64 :=
  match kind with
  | .scalar => slot.changes.toUInt64
  | .text => slot.committed

def lastSequence : UInt32 := 4294967295

/-- The sequence is incremented, unless it is at its end. -/
def Slot.bump (slot : Slot) : Slot :=
  { slot with
    sequence := if slot.sequence = lastSequence then slot.sequence else slot.sequence + 1 }

def bankOf (word : UInt64) : Bool := word &&& 1 = 1

/-- The word that is committed after another one, unless the revisions are exhausted. -/
def nextWord (word : UInt64) : Option UInt64 :=
  let revision := (word >>> 1) + 1
  if revision ≤ (18446744073709551615 : UInt64) >>> 1 then
    some (revision <<< 1 ||| ((word &&& 1) ^^^ 1))
  else none

def Slot.compose (slot : Slot) (textMax : Nat) (before : UInt64) (bytes : List UInt8) (append : Bool) :
    Option (List UInt8) :=
  let text := (if append then slot.banks (bankOf before) else []) ++ bytes
  if text.length ≤ textMax then some text else none

/-- The arguments of `wait_changed` and `wait_changed_until`. -/
structure Wait where
  since : UInt64
  interrupt : Option Nat

inductive WaitReply where
  | changed (version : UInt64)
  | interrupted
  | stale
  | wakeExhausted
  | io

/-- Where a waiter is. -/
inductive Waiter where
  /-- The interrupt is loaded next. -/
  | interrupts
  /-- The state of the slot is loaded next. -/
  | looks
  /-- The version is loaded next. -/
  | loads
  /-- The waiter is counted next. -/
  | registers
  /-- The sequence is loaded next. -/
  | observes
  /-- The state is loaded again next. -/
  | checksState (observed : UInt32)
  /-- The version is loaded again next. -/
  | checksVersion (observed : UInt32)
  /-- The interrupt is loaded again next. -/
  | checksInterrupt (observed : UInt32)
  /-- The wait on the sequence is next. -/
  | parks (observed : UInt32)
  | parked (observed : UInt32)
  /-- The waiter is no longer counted next, and returns or goes on. -/
  | leaves (reply : Option WaitReply)
  | done (reply : WaitReply)

def Wait.turn (wait : Wait) : Waiter := if wait.interrupt.isSome then .interrupts else .looks

def settle (observed : UInt32) : Waiter :=
  if observed = lastSequence then .leaves (some .wakeExhausted) else .parks observed

def stepWaiter (kind : Kind) (slot : Slot) (flags : Nat → Bool) (wait : Wait) :
    Waiter → Option (Slot × Waiter)
  | .interrupts =>
    match wait.interrupt with
    | some flag => some (slot, if flags flag then .done .interrupted else .looks)
    | none => none
  | .looks => some (slot, if slot.retired then .done .stale else .loads)
  | .loads =>
    some (slot, if slot.version kind ≠ wait.since then .done (.changed (slot.version kind))
      else .registers)
  | .registers => some ({ slot with waiters := slot.waiters + 1 }, .observes)
  | .observes =>
    some (slot, match kind with
      | .text => .checksState slot.sequence
      | .scalar => .checksVersion slot.sequence)
  | .checksState observed =>
    some (slot, if slot.retired then .leaves none else .checksVersion observed)
  | .checksVersion observed =>
    some (slot, if slot.version kind ≠ wait.since then .leaves none
      else if wait.interrupt.isSome then .checksInterrupt observed else settle observed)
  | .checksInterrupt observed =>
    match wait.interrupt with
    | some flag => some (slot, if flags flag then .leaves none else settle observed)
    | none => none
  | .parks observed =>
    some (slot, if slot.sequence = observed then .parked observed else .leaves none)
  | .parked _ => none
  | .leaves reply =>
    some ({ slot with waiters := slot.waiters - 1 }, match reply with
      | some reply => .done reply
      | none => wait.turn)
  | .done _ => none

/-- A wait on the sequence returns before it has to, or fails. -/
def early (failed : Bool) : Waiter → Option Waiter
  | .parks _ => some (.leaves (if failed then some .io else none))
  | .parked _ => some (.leaves (if failed then some .io else none))
  | _ => none

def Waiter.woken : Waiter → Waiter
  | .parked _ => .leaves none
  | waiter => waiter

inductive Call where
  /-- A write of a scalar: what the value is replaced by, if it is. -/
  | store (f : UInt64 → Option UInt64)
  /-- A write of a text, by the process whose token owns the task. -/
  | write (bytes : List UInt8) (append : Bool)
  | release
  /-- The flag is set, if there is one, and then `wake_waiters` is called. -/
  | wake (flag : Option Nat)
  /-- The recovery of the writer with the token. -/
  | recover (token : UInt64)

/-- Where a call is. -/
inductive Stage where
  /-- The flag is set next. -/
  | flags
  /-- The state of the slot is loaded next. -/
  | looks
  /-- The value is replaced next. -/
  | stores
  /-- The change is counted next. -/
  | counts
  /-- The writer is claimed next. -/
  | claims
  /-- The committed word is loaded next. -/
  | prepares
  /-- The other bank is written next. -/
  | fills (before : UInt64)
  /-- The word is committed next. -/
  | commits (next : UInt64)
  /-- The slot is retired next. -/
  | retires
  /-- The waiters are loaded next. -/
  | announces
  /-- The sequence is incremented next. -/
  | bumps
  /-- Those that are parked are woken next. -/
  | wakes
  /-- The writer is given up next. -/
  | frees
  /-- The writer is loaded next. -/
  | checks
  /-- The committed word is written again as it is next. -/
  | relays
  /-- The writer that was recovered is cleared next. -/
  | clears
  | done
  deriving DecidableEq

def Call.start : Call → Stage
  | .store _ => .looks
  | .write .. => .looks
  | .release => .looks
  | .wake flag => if flag.isSome then .flags else .looks
  | .recover _ => .checks

def Call.live : Call → Stage
  | .store _ => .stores
  | .write .. => .claims
  | .release => .retires
  | .wake _ => .bumps
  | .recover _ => .done

def Call.after : Call → Stage
  | .write .. => .frees
  | .recover _ => .clears
  | _ => .done

/-- The next access of a call to the slot; of the others, the flag and the wake, only where it comes to. -/
def stepCall (kind : Kind) (textMax : Nat) (slot : Slot) (owner : UInt64) (call : Call) :
    Stage → Option (Slot × Stage)
  | .flags => some (slot, .looks)
  | .looks => some (slot, if slot.retired then .done else call.live)
  | .stores =>
    match call with
    | .store f =>
      match f slot.value with
      | some value => some ({ slot with value }, .counts)
      | none => some (slot, .done)
    | _ => none
  | .counts => some ({ slot with changes := slot.changes + 1 }, .announces)
  | .claims =>
    if slot.writer = 0 then some ({ slot with writer := owner }, .prepares) else some (slot, .done)
  | .prepares =>
    some (slot, if (nextWord slot.committed).isSome then .fills slot.committed else .announces)
  | .fills before =>
    match call with
    | .write bytes append =>
      match slot.compose textMax before bytes append, nextWord before with
      | some text, some next =>
        some ({ slot with banks := Function.update slot.banks (!bankOf before) text }, .commits next)
      | _, _ => some (slot, .announces)
    | _ => none
  | .commits next => some ({ slot with committed := next }, .announces)
  | .retires =>
    some ({ slot with retired := true }, match kind with
      | .scalar => .counts
      | .text => .announces)
  | .announces => some (slot, if slot.waiters ≠ 0 then .bumps else call.after)
  | .bumps => some (slot.bump, .wakes)
  | .wakes => some (slot, call.after)
  | .frees => some ({ slot with writer := 0 }, .done)
  | .checks =>
    match call with
    | .recover token => some (slot, if token ≠ 0 ∧ slot.writer = token then .relays else .done)
    | _ => none
  | .relays => some (slot, .bumps)
  | .clears =>
    match call with
    | .recover token =>
      some (if slot.writer = token then { slot with writer := 0 } else slot, .done)
    | _ => none
  | .done => none

inductive Work where
  | waits (wait : Wait) (waiter : Waiter)
  | calls (call : Call) (stage : Stage)

/-- A call of a thread of the process that has the token. -/
structure Task where
  owner : UInt64
  work : Work

structure World where
  slot : Slot
  flags : Nat → Bool
  /-- The processes that have died. -/
  dead : UInt64 → Bool
  tasks : List Task

def Task.woken (task : Task) : Task :=
  match task.work with
  | .waits wait waiter => { task with work := .waits wait waiter.woken }
  | .calls .. => task

inductive Action where
  | wait (owner : UInt64) (wait : Wait)
  | call (owner : UInt64) (call : Call)
  | step (task : Nat)
  | early (task : Nat) (failed : Bool)
  | die (owner : UInt64)
  /-- A flag is taken back. -/
  | clear (flag : Nat)

def Call.allowed (kind : Kind) (dead : UInt64 → Bool) (owner : UInt64) : Call → Bool
  | .store _ => kind = .scalar
  | .write .. => kind = .text && owner != 0
  | .release => true
  | .wake _ => true
  | .recover token => kind = .text && dead token

def Call.raise (flags : Nat → Bool) : Call → Stage → Nat → Bool
  | .wake (some flag), .flags => Function.update flags flag true
  | _, _ => flags

/-- What an access of a call does beside the slot: the flag that is set, and the threads that are woken. -/
def World.effect (w : World) (call : Call) (stage : Stage) : World :=
  { w with
    flags := call.raise w.flags stage
    tasks := if stage = .wakes then w.tasks.map Task.woken else w.tasks }

def World.move (w : World) (i : Nat) (owner : UInt64) (slot : Slot) (work : Work) : World :=
  { w with slot, tasks := w.tasks.set i ⟨owner, work⟩ }

def step (kind : Kind) (textMax : Nat) (w : World) : Action → Option World
  | .wait owner wait =>
    if w.dead owner then none
    else some { w with tasks := w.tasks ++ [⟨owner, .waits wait wait.turn⟩] }
  | .call owner call =>
    if w.dead owner || !call.allowed kind w.dead owner then none
    else some { w with tasks := w.tasks ++ [⟨owner, .calls call call.start⟩] }
  | .step i =>
    match w.tasks[i]? with
    | some ⟨owner, work⟩ =>
      if w.dead owner then none
      else
        match work with
        | .waits wait waiter =>
          (stepWaiter kind w.slot w.flags wait waiter).map fun next =>
            w.move i owner next.1 (.waits wait next.2)
        | .calls call stage =>
          (stepCall kind textMax w.slot owner call stage).map fun next =>
            (w.effect call stage).move i owner next.1 (.calls call next.2)
    | none => none
  | .early i failed =>
    match w.tasks[i]? with
    | some ⟨owner, .waits wait waiter⟩ =>
      if w.dead owner then none
      else (early failed waiter).map fun next => w.move i owner w.slot (.waits wait next)
    | _ => none
  | .die owner => some { w with dead := Function.update w.dead owner true }
  | .clear flag => some { w with flags := Function.update w.flags flag false }

/-- A cell that has been installed, and that nobody uses yet. -/
structure Start (w : World) : Prop where
  retired : w.slot.retired = false
  changes : w.slot.changes = 0
  committed : w.slot.committed = 0
  writer : w.slot.writer = 0
  sequence : w.slot.sequence = 0
  waiters : w.slot.waiters = 0
  tasks : w.tasks = []

def World.due (kind : Kind) (w : World) (wait : Wait) : Bool :=
  w.slot.version kind ≠ wait.since || w.slot.retired || wait.interrupt.any w.flags

/-- The task is within a call that wakes; a writer of a text that has died is until it is recovered. -/
def World.busy (w : World) (task : Task) : Bool :=
  match task.work with
  | .waits .. => false
  | .calls call stage =>
    stage ≠ .done && match call with
      | .write .. => !w.dead task.owner || w.slot.writer = task.owner
      | .recover _ => !w.dead task.owner
      | _ => true

/-- Nobody is within a call that wakes, and a waiter with something to return for is parked. -/
def World.lost (kind : Kind) (w : World) : Bool :=
  w.tasks.all (fun task => !w.busy task) && w.tasks.any fun task =>
    match task.work with
    | .waits wait (.parked _) => w.due kind wait
    | _ => false

def Waiter.unseen : Waiter → Bool
  | .loads => true
  | .registers => true
  | .observes => true
  | _ => false

/-- The task is not a waiter that has seen the slot live, and is still to look for the version. -/
def World.pastOr (w : World) (version : UInt64) (task : Task) : Bool :=
  match task.work with
  | .waits wait waiter => !waiter.unseen || w.dead task.owner || version ≠ wait.since
  | .calls .. => true

/-- The condition of the runs: no more waiters than the count can hold, and no count on a scalar cell that
has been released to the very number that a waiter which saw the cell live is still to look for. -/
def World.safe (kind : Kind) (w : World) : Action → Bool
  | .step i =>
    match w.tasks[i]? with
    | some ⟨_, .waits _ .registers⟩ => w.slot.waiters ≠ lastSequence
    | some ⟨_, .calls _ .counts⟩ =>
      kind = .text || !w.slot.retired || w.tasks.all (w.pastOr (w.slot.changes + 1).toUInt64)
    | _ => true
  | _ => true

def Safe (kind : Kind) (w : World) (a : Action) : Prop := w.safe kind a = true

instance (kind : Kind) (w : World) (a : Action) : Decidable (Safe kind w a) :=
  inferInstanceAs (Decidable (_ = true))

def World.new : World where
  slot :=
    { retired := false
      value := 0
      changes := 0
      banks := fun _ => []
      committed := 0
      writer := 0
      sequence := 0
      waiters := 0 }
  flags := fun _ => false
  dead := fun _ => false
  tasks := []

theorem start_new : Start .new := ⟨rfl, rfl, rfl, rfl, rfl, rfl, rfl⟩

end OrbitCell.Waits
