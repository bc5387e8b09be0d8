import Orbit.Client.Sections

/-! The calls on one pool, one section, notification, cancellation or dropped value at a time, and
the runs of any number of them. -/

namespace ClientPool

/-- Which future waits in the queue of acquirers. -/
inductive Waiting where
  | acquire
  | untilOpen
  deriving DecidableEq, Repr

inductive Outcome where
  | granted
  | cancelled
  | closed
  | timeout
  | queueFull
  | atCapacity
  | noIdle
  | manager
  | dropped
  | finished
  | drained
  | refused
  | overflow
  deriving DecidableEq, Repr

/-- Where a call stands.  The stages that end in `next` are the tails several calls share: `next`
is what follows. -/
inductive Stage where
  /- `acquire_inner` and `wait_until_open`: `entered` says that the waiter is counted, `seen` is
  the number of notifications before the notified future. -/
  | top (waiting : Waiting) (entered : Bool)
  | listen (waiting : Waiting) (entered : Bool)
  | look (waiting : Waiting) (entered : Bool) (seen : Nat)
  | parked (waiting : Waiting) (seen : Nat)
  | leaving (entered : Bool) (outcome : Outcome)
  | createLook
  | idleLook (predicate : Nat → Bool)
  | discardLook (predicate : Nat → Bool)
  /- A creation before and during the manager's call; `admitted` is false for a warm one. -/
  | reserved (admitted : Bool)
  | creating (admitted : Bool)
  | recycling (entry : Entry)
  | registering (entry : Entry) (created : Bool)
  | finishing (entry : Entry) (registration : Option Nat)
  | leased (entry : Entry) (registration : Option Nat)
  /- The end of a lease, which still has its entry when it was not discarded. -/
  | unregister (registration : Option Nat) (entry : Option Entry)
  | giveBack (entry : Entry)
  | returning (entry : Entry) (now : Nat)
  /- `run` -/
  | runTop
  | runPrune
  | runStats
  | runReserve
  | warmFinish (entry : Entry)
  | runListen
  | runDeadline (seen : Nat)
  | runParked (seen : Nat) (deadline : Option Nat)
  /- shutdown -/
  | close
  | drain
  | drainListen
  | drainLook (seen : Nat)
  | drainParked (seen : Nat) (deadline : Option Nat)
  | pause (reason : String)
  | resume
  | cancelActive
  | cancelAll
  /- `wait_until_open_for_maintenance` -/
  | maintainListen
  | maintainLook (seen : Nat)
  | maintainParked (seen : Nat)
  | done (outcome : Outcome)
  /- tails -/
  | retire (next : Stage)
  | failedCreate (admitted : Bool) (next : Stage)
  | notify (next : Stage)
  | drop (clients : List Nat) (next : Stage)
  | cancelTokens (tokens : List Nat) (next : Stage)
  | closeAdmission (next : Stage)

/-- One call, or the future or lease it made. -/
structure Task where
  policy : ActiveRequestPolicy
  cancellable : Bool
  cancelled : Bool
  deadline : Option Nat
  stage : Stage

def Task.cancel (t : Task) : Task := { t with cancelled := t.cancelled || t.cancellable }

/-- The pool and, for the history, the tokens cancelled one by one with the time of it, the number
of clients the manager made and the clients dropped. -/
structure Pool where
  state : State
  now : Nat
  changed : Nat
  admissionClosed : Bool
  activeCancelled : Bool
  cancelled : List (Nat × Nat)
  made : Nat
  dropped : List Nat

def Pool.init : Pool where
  state := .init
  now := 0
  changed := 0
  admissionClosed := false
  activeCancelled := false
  cancelled := []
  made := 0
  dropped := []

/-- What the schedule and the world outside decide for a step that waits for either. -/
inductive Choice where
  | go
  | ok
  | fail
  | interrupt
  | shut
  | timeout
  | drop
  | discard
  deriving DecidableEq, Repr

inductive OperationEnd where
  | ok
  | failed
  | caller
  | admissionClosed
  | dropped

def operationEnds (t : Task) (p : Pool) : Choice → Option OperationEnd
  | .ok => some .ok
  | .fail => some .failed
  | .interrupt => if t.cancelled then some .caller else none
  | .shut => if p.admissionClosed then some .admissionClosed else none
  | .drop => some .dropped
  | .go | .timeout | .discard => none

def OperationEnd.outcome : OperationEnd → Outcome
  | ok => .finished
  | failed => .manager
  | caller => .cancelled
  | admissionClosed => .closed
  | dropped => .dropped

/-- What `run` does after a creation that brought no client. -/
def OperationEnd.afterWarm : OperationEnd → Stage
  | caller | admissionClosed => .drain
  | ok => .done .finished
  | failed => .done .manager
  | dropped => .done .dropped

def OperationEnd.after (admitted : Bool) (ending : OperationEnd) : Stage :=
  if admitted then .done ending.outcome else ending.afterWarm

def due (deadline : Option Nat) (now : Nat) : Bool :=
  match deadline with
  | some deadline => decide (deadline ≤ now)
  | none => false

inductive WaitEnd where
  | woken
  | cancelled
  | timeout
  | dropped

def waitEnds (watched : Bool) (seen : Nat) (deadline : Option Nat) (p : Pool) :
    Choice → Option WaitEnd
  | .go => if seen < p.changed then some .woken else none
  | .interrupt => if watched then some .cancelled else none
  | .timeout => if due deadline p.now then some .timeout else none
  | .drop => some .dropped
  | .ok | .fail | .shut | .discard => none

section

variable (c : Config)

def Pool.withState (p : Pool) (s : State) : Pool := { p with state := s }

def Pool.pruned (p : Pool) : Pool :=
  let (retired, s) := pruneExpired c p.now p.state
  { p with state := s, dropped := p.dropped ++ retired }

def afterLook (waiting : Waiting) (entered : Bool) (seen : Nat) : Action → Stage
  | .closed => .leaving entered .closed
  | .full => .leaving entered .queueFull
  | .atCapacity => .done .atCapacity
  | .noIdle => .done .noIdle
  | .reuse entry => .recycling entry
  | .create => .reserved true
  | .wait => .parked waiting seen
  | .proceed => .done .granted

/-- What `create_inner` and `acquire_idle_where_inner` do after their section: they have no
waiter. -/
def afterTurn : Action → Stage
  | .closed => .done .closed
  | .full => .done .queueFull
  | .atCapacity => .done .atCapacity
  | .noIdle => .done .noIdle
  | .reuse entry => .recycling entry
  | .create => .reserved true
  | .wait => .done .finished
  | .proceed => .done .granted

def lookTurn (waiting : Waiting) (entered : Bool) (p : Pool) : Action × Pool :=
  match waiting with
  | .acquire =>
    let p := p.pruned c
    let (action, s) := acquireTurn c entered p.state
    (action, p.withState s)
  | .untilOpen =>
    let (action, s) := openTurn c entered p.state
    (action, p.withState s)

def Pool.make (p : Pool) : Entry × Pool :=
  ({ client := p.made, createdAt := p.now, idleSince := p.now }, { p with made := p.made + 1 })

/-- `register_active` at the beginning of a lease. -/
def register (me : Nat) (policy : ActiveRequestPolicy) (p : Pool) : Option Nat × Pool :=
  if policy = .preserve then (none, p)
  else
    let (registration, s) := registerActive c p.now policy me p.state
    if registration.isSome then (registration, p.withState s)
    else (none, { p with state := s, cancelled := (me, p.now) :: p.cancelled })

def notifyIf (notified : Bool) (next : Stage) : Stage :=
  if notified then .notify next else next

def afterLease : Option Entry → Stage
  | some entry => .giveBack entry
  | none => .retire (.done .finished)

/-- The next step of call `me`: the stage and the pool after it.  A step that cannot be taken
changes nothing. -/
def act (me : Nat) (t : Task) (choice : Choice) (p : Pool) : Stage × Pool :=
  match t.stage with
  | .top waiting entered =>
    (if t.cancelled then .leaving entered .cancelled else .listen waiting entered, p)
  | .listen waiting entered => (.look waiting entered p.changed, p)
  | .look waiting entered seen =>
    let (action, p) := lookTurn c waiting entered p
    (afterLook waiting entered seen action, p)
  | .parked waiting seen =>
    (match waitEnds t.cancelled seen t.deadline p choice with
      | none => .parked waiting seen
      | some .woken => .top waiting true
      | some .cancelled => .leaving true .cancelled
      | some .timeout => .leaving true .timeout
      | some .dropped => .leaving true .dropped, p)
  | .leaving entered outcome =>
    if entered then (.notify (.done outcome), p.withState (leave true p.state))
    else (.done outcome, p)
  | .createLook =>
    let p := p.pruned c
    let (action, s) := createTurn c p.state
    (afterTurn action, p.withState s)
  | .idleLook predicate =>
    let p := p.pruned c
    let (action, s) := idleTurn c predicate p.state
    (afterTurn action, p.withState s)
  | .discardLook predicate =>
    match discardIdleTurn predicate p.state with
    | (none, _) => (.done .refused, p)
    | (some entry, s) => (.drop [entry.client] (.notify (.done .finished)), p.withState s)
  | .reserved admitted =>
    match choice with
    | .go => (.creating admitted, p)
    | .interrupt | .shut =>
      (match operationEnds t p choice with
        | none => .reserved admitted
        | some ending => .failedCreate admitted (ending.after admitted), p)
    | .ok | .fail | .timeout | .drop | .discard => (.reserved admitted, p)
  | .creating admitted =>
    match operationEnds t p choice with
    | none => (.creating admitted, p)
    | some .ok =>
      let (entry, p) := p.make
      (if admitted then .registering entry true else .warmFinish entry, p)
    | some ending => (.failedCreate admitted (ending.after admitted), p)
  | .recycling entry =>
    (match operationEnds t p choice with
      | none => .recycling entry
      | some .ok => .registering entry false
      | some ending => .drop [entry.client] (.retire (.done ending.outcome)), p)
  | .registering entry created =>
    let (registration, p) := register c me t.policy p
    (notifyIf registration.isSome
      (if created then .finishing entry registration else .leased entry registration), p)
  | .finishing entry registration =>
    (.notify (.leased entry registration), p.withState (finishCreate true true p.state))
  | .leased entry registration =>
    (match choice with
      | .drop => .unregister registration (some entry)
      | .discard => .drop [entry.client] (.unregister registration none)
      | .go | .ok | .fail | .interrupt | .shut | .timeout => .leased entry registration, p)
  | .giveBack entry => (.returning entry p.now, p)
  | .returning entry now =>
    let (kept, s) := returnEntry c now entry p.state
    (.notify (if kept then .done .finished else .drop [entry.client] (.done .finished)),
      p.withState s)
  | .runTop => (if t.cancelled then .drain else .runPrune, p)
  | .runPrune => (.runStats, p.pruned c)
  | .runStats => (if p.state.status.ended then .drain else .runReserve, p)
  | .runReserve =>
    let (reserved, s) := reserveWarmCreate c p.state
    (if reserved then .reserved false else .runListen, p.withState s)
  | .warmFinish entry =>
    let (kept, s) := finishWarmCreate c entry p.state
    (.notify (if kept then .runTop else .drop [entry.client] .runTop), p.withState s)
  | .runListen => (.runDeadline p.changed, p)
  | .runDeadline seen => (.runParked seen (nextRetirementDeadline c p.state), p)
  | .runParked seen deadline =>
    (match waitEnds t.cancelled seen deadline p choice with
      | none => .runParked seen deadline
      | some .dropped => .done .dropped
      | some _ => .runTop, p)
  | .close =>
    let (retired, s) := closeTurn p.state
    (.drop retired (.closeAdmission (.notify (.done .finished))), p.withState s)
  | .drain =>
    let (retired, immediate, s) := drainFirst c p.now p.state
    (.drop retired (.cancelTokens immediate (.closeAdmission (.notify .drainListen))),
      p.withState s)
  | .drainListen => (.drainLook p.changed, p)
  | .drainLook seen =>
    match drainTurn c p.now p.state with
    | (none, s) => (.notify (.done .drained), p.withState s)
    | (some (tokens, deadline), s) =>
      (.cancelTokens tokens (.drainParked seen deadline), p.withState s)
  | .drainParked seen deadline =>
    (match waitEnds false seen deadline p choice with
      | none => .drainParked seen deadline
      | some .dropped => .done .dropped
      | some _ => .drainListen, p)
  | .pause reason => (.notify (.done .finished), p.withState (pauseTurn reason p.state))
  | .resume =>
    let (resumed, s) := resumeTurn p.state
    (if resumed then .notify (.done .finished) else .done .refused, p.withState s)
  | .cancelActive => (if p.state.status.ended then .cancelAll else .done .refused, p)
  | .cancelAll => (.done .finished, { p with activeCancelled := true })
  | .maintainListen => (.maintainLook p.changed, p)
  | .maintainLook seen =>
    (match p.state.status with
      | .opened => .done .granted
      | .draining | .closed => .done .refused
      | .paused _ => .maintainParked seen, p)
  | .maintainParked seen =>
    (match waitEnds t.cancelled seen none p choice with
      | none => .maintainParked seen
      | some .woken => .maintainListen
      | some .cancelled => .done .refused
      | some .timeout => .maintainParked seen
      | some .dropped => .done .dropped, p)
  | .done outcome => (.done outcome, p)
  | .unregister registration entry =>
    match registration with
    | none => (afterLease entry, p)
    | some id => (.notify (afterLease entry), p.withState (unregisterActive id p.state))
  | .retire next => (.notify next, p.withState (retireOne p.state))
  | .failedCreate admitted next =>
    (.notify next, p.withState (finishCreate false admitted p.state))
  | .notify next => (next, { p with changed := p.changed + 1 })
  | .drop clients next =>
    match clients with
    | [] => (next, p)
    | client :: clients => (.drop clients next, { p with dropped := p.dropped ++ [client] })
  | .cancelTokens tokens next =>
    match tokens with
    | [] => (next, p)
    | token :: tokens =>
      (.cancelTokens tokens next, { p with cancelled := (token, p.now) :: p.cancelled })
  | .closeAdmission next => (next, { p with admissionClosed := true })

end

/-- A call on the pool, with what its caller gives it. -/
inductive Call where
  | acquire (policy : ActiveRequestPolicy)
  | acquireCancellable (policy : ActiveRequestPolicy)
  | create (policy : ActiveRequestPolicy)
  | createCancellable (policy : ActiveRequestPolicy)
  | acquireIdleWhere (predicate : Nat → Bool) (policy : ActiveRequestPolicy)
  | acquireIdleWhereCancellable (predicate : Nat → Bool) (policy : ActiveRequestPolicy)
  | discardIdleWhere (predicate : Nat → Bool)
  | waitUntilOpen (deadline : Option Nat) (cancellable : Bool)
  | waitUntilOpenForMaintenance
  | run
  | close
  | drain
  | pause (reason : String)
  | resume
  | cancelActive

/-- `TokioInstant::now() + duration` panics past the last instant. -/
def Call.acquireTask (c : Config) (now : Nat) (policy : ActiveRequestPolicy)
    (cancellable : Bool) : Task :=
  match c.options.acquireTimeout with
  | none =>
    { policy, cancellable, cancelled := false, deadline := none, stage := .top .acquire false }
  | some timeout =>
    match c.checkedAdd now timeout with
    | none =>
      { policy, cancellable, cancelled := false, deadline := none, stage := .done .overflow }
    | some deadline =>
      { policy, cancellable, cancelled := false, deadline := some deadline,
        stage := .top .acquire false }

theorem Call.acquireTask_stage (c : Config) (now : Nat) (policy : ActiveRequestPolicy)
    (cancellable : Bool) :
    (Call.acquireTask c now policy cancellable).stage = .top .acquire false ∨
      (Call.acquireTask c now policy cancellable).stage = .done .overflow := by
  unfold Call.acquireTask
  split
  · exact Or.inl rfl
  split
  · exact Or.inr rfl
  · exact Or.inl rfl

def Call.task (c : Config) (now : Nat) : Call → Task
  | acquire policy => acquireTask c now policy false
  | acquireCancellable policy => acquireTask c now policy true
  | create policy =>
    { policy, cancellable := false, cancelled := false, deadline := none, stage := .createLook }
  | createCancellable policy =>
    { policy, cancellable := true, cancelled := false, deadline := none, stage := .createLook }
  | acquireIdleWhere predicate policy =>
    { policy, cancellable := false, cancelled := false, deadline := none
      stage := .idleLook predicate }
  | acquireIdleWhereCancellable predicate policy =>
    { policy, cancellable := true, cancelled := false, deadline := none
      stage := .idleLook predicate }
  | discardIdleWhere predicate =>
    { policy := .preserve, cancellable := false, cancelled := false, deadline := none
      stage := .discardLook predicate }
  | waitUntilOpen deadline cancellable =>
    { policy := .preserve, cancellable, cancelled := false, deadline
      stage := .top .untilOpen false }
  | waitUntilOpenForMaintenance =>
    { policy := .preserve, cancellable := true, cancelled := false, deadline := none
      stage := .maintainListen }
  | run =>
    { policy := .preserve, cancellable := true, cancelled := false, deadline := none
      stage := .runTop }
  | close =>
    { policy := .preserve, cancellable := false, cancelled := false, deadline := none
      stage := .close }
  | drain =>
    { policy := .preserve, cancellable := false, cancelled := false, deadline := none
      stage := .drain }
  | pause reason =>
    { policy := .preserve, cancellable := false, cancelled := false, deadline := none
      stage := .pause reason }
  | resume =>
    { policy := .preserve, cancellable := false, cancelled := false, deadline := none
      stage := .resume }
  | cancelActive =>
    { policy := .preserve, cancellable := false, cancelled := false, deadline := none
      stage := .cancelActive }

structure World where
  pool : Pool
  tasks : List Task

def World.init : World := { pool := .init, tasks := [] }

/-- A new call, the next step of a call, the cancellation of a caller's token, or time. -/
inductive Op where
  | begin (call : Call)
  | step (i : Nat) (choice : Choice)
  | cancel (i : Nat)
  | tick (duration : Nat)

section

variable (c : Config)

/-- Task `i` has taken a step. -/
def stepTask (w : World) (i : Nat) (t : Task) (choice : Choice) : World :=
  let (stage, pool) := act c i t choice w.pool
  { pool, tasks := w.tasks.set i { t with stage } }

def exec (w : World) : Op → World
  | .begin call => { w with tasks := w.tasks ++ [call.task c w.pool.now] }
  | .step i choice =>
    match w.tasks[i]? with
    | none => w
    | some t => stepTask c w i t choice
  | .cancel i =>
    match w.tasks[i]? with
    | none => w
    | some t => { w with tasks := w.tasks.set i t.cancel }
  | .tick duration => { w with pool := { w.pool with now := w.pool.now + duration } }

section

variable {c : Config} {w : World} {i : Nat} {t : Task}

theorem stepTask_get (hi : w.tasks[i]? = some t) (choice : Choice) (k : Nat) :
    (stepTask c w i t choice).tasks[k]? =
      if i = k then some { t with stage := (act c i t choice w.pool).1 } else w.tasks[k]? := by
  obtain ⟨hlt, -⟩ := List.getElem?_eq_some_iff.mp hi
  dsimp only [stepTask]
  rw [List.getElem?_set]
  split <;> rfl

theorem mem_stepTask (hi : w.tasks[i]? = some t) (choice : Choice) :
    { t with stage := (act c i t choice w.pool).1 } ∈ (stepTask c w i t choice).tasks := by
  obtain ⟨hlt, -⟩ := List.getElem?_eq_some_iff.mp hi
  exact List.mem_set hlt _

theorem mem_stepTask_of_ne {t' : Task} (hi : w.tasks[i]? = some t) (choice : Choice)
    (ht' : t' ∈ w.tasks) (hne : t' ≠ t) : t' ∈ (stepTask c w i t choice).tasks := by
  obtain ⟨j, hj⟩ := List.getElem?_of_mem ht'
  apply List.mem_of_getElem? (i := j)
  rw [stepTask, List.getElem?_set_ne, hj]
  intro hij
  subst hij
  rw [hi] at hj
  exact hne (Option.some.inj hj).symm

theorem mem_set_cases {tasks : List Task} {i : Nat} {t t' : Task} (h : t' ∈ tasks.set i t) :
    t' = t ∨ t' ∈ tasks := by
  rcases List.mem_or_eq_of_mem_set h with h | h
  · exact Or.inr h
  · exact Or.inl h

end

theorem exec_cases {P : World → Prop} {w : World} (h : P w)
    (begins : ∀ call : Call, P { w with tasks := w.tasks ++ [call.task c w.pool.now] })
    (steps : ∀ i t choice, w.tasks[i]? = some t → P (stepTask c w i t choice))
    (cancels : ∀ i t, w.tasks[i]? = some t →
      P { w with tasks := w.tasks.set i t.cancel })
    (ticks : ∀ duration, P { w with pool := { w.pool with now := w.pool.now + duration } })
    (op : Op) : P (exec c w op) := by
  cases op with
  | begin call => exact begins call
  | step i choice =>
    rw [exec]
    cases hi : w.tasks[i]? with
    | none => exact h
    | some t => exact steps i t choice hi
  | cancel i =>
    rw [exec]
    cases hi : w.tasks[i]? with
    | none => exact h
    | some t => exact cancels i t hi
  | tick duration => exact ticks duration

def run (ops : List Op) : World := ops.foldl (exec c) .init

end

end ClientPool
