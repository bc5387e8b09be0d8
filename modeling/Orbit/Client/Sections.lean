import Mathlib.Algebra.Group.Nat.Defs

/-! The options and the state of a bounded process-local pool of clients. -/

namespace ClientPool

/-- Code-first operating policy for one process-local client pool.  Durations are nanoseconds. -/
structure PoolOptions where
  minIdle : Nat
  maxIdle : Nat
  maxLive : Nat
  maxConcurrency : Nat
  maxWaiting : Nat
  acquireTimeout : Option Nat
  idleTimeout : Option Nat
  maxLifetime : Option Nat
  deriving DecidableEq, Repr

inductive OptionsError where
  | zeroMaxLive
  | zeroMaxConcurrency
  | capacityOrder (minIdle maxIdle maxLive : Nat)
  | zeroDuration (name : String)
  deriving DecidableEq, Repr

/-- The first of the named durations that is zero. -/
def zeroDuration : List (String × Option Nat) → Option String
  | [] => none
  | (name, value) :: rest => if value = some 0 then some name else zeroDuration rest

def PoolOptions.validate (options : PoolOptions) : Except OptionsError Unit :=
  if options.maxLive = 0 then .error .zeroMaxLive
  else if options.maxConcurrency = 0 then .error .zeroMaxConcurrency
  else if options.minIdle > options.maxIdle ∨ options.maxIdle > options.maxLive then
    .error (.capacityOrder options.minIdle options.maxIdle options.maxLive)
  else
    match zeroDuration [("acquire_timeout", options.acquireTimeout),
        ("idle_timeout", options.idleTimeout), ("max_lifetime", options.maxLifetime)] with
    | some name => .error (.zeroDuration name)
    | none => .ok ()

/-- The options of a pool that was made, and the last instant its platform can name. -/
structure Config where
  options : PoolOptions
  lastInstant : Nat
  valid : options.validate = .ok ()

/-- `Instant::checked_add`. -/
def Config.checkedAdd (c : Config) (instant duration : Nat) : Option Nat :=
  if instant + duration ≤ c.lastInstant then some (instant + duration) else none

/-- Admission and lifecycle state of one pool. -/
inductive PoolState where
  | opened
  | paused (reason : String)
  | draining
  | closed
  deriving DecidableEq, Repr

def PoolState.ended : PoolState → Bool
  | draining | closed => true
  | opened | paused _ => false

/-- Shutdown behavior declared by the owner of one active request. -/
inductive ActiveRequestPolicy where
  | preserve
  | cancelOnDrain (grace : Option Nat)
  deriving DecidableEq, Repr

/-- A request's cancellation token goes by the number of its call. -/
structure ActiveCancellation where
  policy : ActiveRequestPolicy
  token : Nat
  deriving DecidableEq, Repr

structure Entry where
  client : Nat
  createdAt : Nat
  idleSince : Nat
  deriving DecidableEq, Repr

/-- What the pool's mutex protects.  `saturated` is kept for the history: whether a saturating
subtraction was ever cut off at zero. -/
structure State where
  idle : List Entry
  live : Nat
  creating : Nat
  waiting : Nat
  inFlight : Nat
  status : PoolState
  nextActiveId : Nat
  drainStarted : Option Nat
  drainCancellations : List (Nat × ActiveCancellation)
  saturated : Bool
  deriving DecidableEq, Repr

def State.init : State where
  idle := []
  live := 0
  creating := 0
  waiting := 0
  inFlight := 0
  status := .opened
  nextActiveId := 0
  drainStarted := none
  drainCancellations := []
  saturated := false

namespace State

variable (s : State)

def subLive (n : Nat) : State :=
  { s with live := s.live - n, saturated := s.saturated || decide (s.live < n) }

def subCreating (n : Nat) : State :=
  { s with creating := s.creating - n, saturated := s.saturated || decide (s.creating < n) }

def subWaiting (n : Nat) : State :=
  { s with waiting := s.waiting - n, saturated := s.saturated || decide (s.waiting < n) }

def subInFlight (n : Nat) : State :=
  { s with inFlight := s.inFlight - n, saturated := s.saturated || decide (s.inFlight < n) }

end State

section

variable (c : Config)

def retirementDeadline (entry : Entry) : Option Nat :=
  let idle := c.options.idleTimeout.bind (c.checkedAdd entry.idleSince)
  let lifetime := c.options.maxLifetime.bind (c.checkedAdd entry.createdAt)
  match idle, lifetime with
  | some idle, some lifetime => some (min idle lifetime)
  | some deadline, none | none, some deadline => some deadline
  | none, none => none

def expired (now : Nat) (entry : Entry) : Bool :=
  match retirementDeadline c entry with
  | some deadline => decide (deadline ≤ now)
  | none => false

/-- A grace that ends by `now`. -/
def dueAt (started now : Nat) : ActiveRequestPolicy → Bool
  | .preserve => false
  | .cancelOnDrain none => true
  | .cancelOnDrain (some grace) =>
    match c.checkedAdd started grace with
    | some deadline => decide (deadline ≤ now)
    | none => false

/-- The tokens due by `now` are taken off the table. -/
def takeDueCancellations (now : Nat) (s : State) : List Nat × State :=
  match s.drainStarted with
  | none => ([], s)
  | some started =>
    let due := s.drainCancellations.filter fun active => dueAt c started now active.2.policy
    (due.map fun active => active.2.token, { s with
      drainCancellations :=
        s.drainCancellations.filter fun active => !dueAt c started now active.2.policy })

def nextActiveCancellationDeadline (s : State) : Option Nat :=
  s.drainStarted.bind fun started =>
    (s.drainCancellations.filterMap fun active =>
      match active.2.policy with
      | .cancelOnDrain (some grace) => c.checkedAdd started grace
      | .preserve | .cancelOnDrain none => none).min?

end

/-! What each operation of the pool does while it holds the pool's mutex. -/

variable (c : Config)

def pruneExpired (now : Nat) (s : State) : List Nat × State :=
  let kept := s.idle.filter fun entry => !expired c now entry
  ((s.idle.filter fun entry => expired c now entry).map Entry.client,
    { s with idle := kept }.subLive (s.idle.length - kept.length))

def nextRetirementDeadline (s : State) : Option Nat :=
  (s.idle.filterMap (retirementDeadline c)).min?

/-- What an acquirer goes on to do. -/
inductive Action where
  | closed
  | full
  | atCapacity
  | noIdle
  | reuse (entry : Entry)
  | create
  | wait
  | proceed

/-- `Waiter::enter`, where a full queue is an error. -/
def enter (entered : Bool) (s : State) : Action × State :=
  if entered then (.wait, s)
  else if s.waiting ≥ c.options.maxWaiting then (.full, s)
  else (.wait, { s with waiting := s.waiting + 1 })

def leave (entered : Bool) (s : State) : State :=
  if entered then s.subWaiting 1 else s

def reserveCreate (s : State) : State :=
  { s with live := s.live + 1, creating := s.creating + 1, inFlight := s.inFlight + 1 }

/-- The section of `acquire_inner` once the expired entries are gone. -/
def acquireTurn (entered : Bool) (s : State) : Action × State :=
  match s.status with
  | .draining | .closed => (.closed, s)
  | .paused _ => enter c entered s
  | .opened =>
    if s.inFlight ≥ c.options.maxConcurrency then enter c entered s
    else
      match s.idle with
      | entry :: idle =>
        (.reuse entry, leave entered { s with idle := idle, inFlight := s.inFlight + 1 })
      | [] =>
        if s.live < c.options.maxLive then (.create, leave entered (reserveCreate s))
        else enter c entered s

/-- The section of `wait_until_open`. -/
def openTurn (entered : Bool) (s : State) : Action × State :=
  match s.status with
  | .opened => (.proceed, leave entered s)
  | .paused _ => enter c entered s
  | .draining | .closed => (.closed, s)

/-- The section of `create_inner` once the expired entries are gone. -/
def createTurn (s : State) : Action × State :=
  if s.status ≠ .opened then (.closed, s)
  else if s.live ≥ c.options.maxLive then (.atCapacity, s)
  else if s.inFlight ≥ c.options.maxConcurrency then (.atCapacity, s)
  else (.create, reserveCreate s)

def takeIdle (predicate : Nat → Bool) : List Entry → Option (Entry × List Entry)
  | [] => none
  | entry :: idle =>
    if predicate entry.client then some (entry, idle)
    else (takeIdle predicate idle).map fun found => (found.1, entry :: found.2)

/-- The section of `acquire_idle_where_inner` once the expired entries are gone. -/
def idleTurn (predicate : Nat → Bool) (s : State) : Action × State :=
  if s.status ≠ .opened then (.closed, s)
  else if s.inFlight ≥ c.options.maxConcurrency then (.atCapacity, s)
  else
    match takeIdle predicate s.idle with
    | none => (.noIdle, s)
    | some (entry, idle) =>
      (.reuse entry, { s with idle := idle, inFlight := s.inFlight + 1 })

def discardIdleTurn (predicate : Nat → Bool) (s : State) : Option Entry × State :=
  match takeIdle predicate s.idle with
  | none => (none, s)
  | some (entry, idle) => (some entry, { s with idle := idle }.subLive 1)

def reserveWarmCreate (s : State) : Bool × State :=
  if s.status ≠ .opened ∨ s.idle.length + s.creating ≥ c.options.minIdle ∨
      s.live ≥ c.options.maxLive then (false, s)
  else (true, { s with live := s.live + 1, creating := s.creating + 1 })

def finishCreate (succeeded admitted : Bool) (s : State) : State :=
  let s := s.subCreating 1
  if succeeded then s
  else if admitted then (s.subLive 1).subInFlight 1
  else s.subLive 1

def finishWarmCreate (entry : Entry) (s : State) : Bool × State :=
  let s := s.subCreating 1
  if s.status.ended ∨ s.idle.length ≥ c.options.maxIdle then (false, s.subLive 1)
  else (true, { s with idle := s.idle ++ [entry] })

def retireOne (s : State) : State := (s.subLive 1).subInFlight 1

/-- `now` was read before the mutex was taken. -/
def returnEntry (now : Nat) (entry : Entry) (s : State) : Bool × State :=
  let s := s.subInFlight 1
  if !s.status.ended ∧ s.idle.length < c.options.maxIdle ∧ expired c now entry = false then
    (true, { s with idle := s.idle ++ [{ entry with idleSince := now }] })
  else (false, s.subLive 1)

def retireIdle (s : State) : List Nat × State :=
  (s.idle.map Entry.client, { s with idle := [] }.subLive s.idle.length)

def closeTurn (s : State) : List Nat × State :=
  retireIdle { s with status := .closed }

def beginDrain (now : Nat) (s : State) : State :=
  { s with
    status := if s.status = .closed then .closed else .draining
    drainStarted := some (s.drainStarted.getD now) }

/-- The first section of `drain`: the retired clients and the tokens to cancel at once. -/
def drainFirst (now : Nat) (s : State) : List Nat × List Nat × State :=
  let (retired, s') := retireIdle (beginDrain now s)
  let (immediate, s') := takeDueCancellations c (s.drainStarted.getD now) s'
  (retired, immediate, s')

/-- One turn of the loop of `drain`: nothing when the pool is empty, and otherwise the tokens
due and the deadline of the next. -/
def drainTurn (now : Nat) (s : State) : Option (List Nat × Option Nat) × State :=
  if s.live = 0 then (none, { s with status := .closed })
  else
    let (due, s) := takeDueCancellations c now s
    (some (due, nextActiveCancellationDeadline c s), s)

def pauseTurn (reason : String) (s : State) : State :=
  if s.status.ended then s else { s with status := .paused reason }

def resumeTurn (s : State) : Bool × State :=
  match s.status with
  | .paused _ => (true, { s with status := .opened })
  | .opened | .draining | .closed => (false, s)

def cancelNow (now : Nat) (s : State) (policy : ActiveRequestPolicy) : Bool :=
  match s.drainStarted with
  | none => false
  | some started => dueAt c started now policy

/-- The section of `register_active`, for a policy other than `preserve`: the registration, or
nothing when the token is cancelled at once. -/
def registerActive (now : Nat) (policy : ActiveRequestPolicy) (token : Nat) (s : State) :
    Option Nat × State :=
  let id := s.nextActiveId
  let s := { s with nextActiveId := (s.nextActiveId + 1) % 2 ^ 64 }
  if cancelNow c now s policy then (none, s)
  else (some id, { s with drainCancellations :=
    (id, { policy, token }) :: s.drainCancellations.filter fun active => active.1 != id })

def unregisterActive (id : Nat) (s : State) : State :=
  { s with drainCancellations := s.drainCancellations.filter fun active => active.1 != id }

end ClientPool
