import Orbit.Fleet.Layout

/-! Processes with a local pool of clients each, the calls of their fleet pools one section, one
operation of the shared table or one await at a time, and the runs of any number of them. -/

namespace FleetPool

open ClientPool (Entry State)

inductive Outcome where
  | local
  | remote
  | finished
  | missingLocal (id : Nat)
  | localCapacity
  | closed
  | manager
  | orbit
  | refused
  | dropped
  deriving DecidableEq, Repr

/-- What a section does once the expired entries are dropped. -/
inductive After where
  | search (id : Nat)
  | create (warm : Bool)
  | nothing
  deriving DecidableEq, Repr

/-- Where a call stands, and the client, the execution or the reservation in its hands. -/
inductive Stage where
  /- `acquire_inner` -/
  | waitOpen (admitted : Bool)
  | admission
  | plan (attempts : Nat)
  | acceptLocal (lease : Lease)
  | openExchange (lease : Lease)
  | cancelReservation (lease : Lease)
  | capacityWait
  /- `accept_inner` -/
  | takeOffer
  | acceptOffered (lease : Lease)
  /- `acquire_idle_where_inner`: the execution of the unit is held -/
  | lookup (id : Nat)
  | recycling (entry : Entry)
  | abandon (entry : Entry) (outcome : Outcome)
  | retire (id : Nat) (outcome : Outcome)
  | release (id : Nat) (outcome : Outcome)
  /- the expired entries are dropped while the mutex is held -/
  | pruning (retired : List Nat) (after : After)
  /- `create_registered`, `warm_one` -/
  | warm
  | createLook (warm : Bool)
  | creating (warm : Bool)
  | registering (warm : Bool)
  | failedCreate (outcome : Outcome)
  | dropPermit (outcome : Outcome)
  | created (warm : Bool) (entry : Entry)
  | finishPermit (warm : Bool) (entry : Entry)
  /- a lease, and the end of it -/
  | leased (entry : Entry)
  | giveBack (entry : Entry)
  | returning (entry : Entry) (now : Nat)
  | discarded (entry : Entry)
  | completing (id : Nat)
  | discarding (id : Nat)
  | retired (entry : Entry)
  /- the local `run`, `apply_local` and `resume_local` -/
  | prune
  | pause (reason : String)
  | resume
  | done (outcome : Outcome)
  deriving DecidableEq, Repr

inductive Call where
  | acquire
  | accept
  | warm
  | prune
  | pause (reason : String)
  | resume
  deriving DecidableEq, Repr

def Call.stage : Call → Stage
  | .acquire => .waitOpen false
  | .accept => .takeOffer
  | .warm => .warm
  | .prune => .prune
  | .pause reason => .pause reason
  | .resume => .resume

structure Task where
  process : Nat
  stage : Stage
  deriving DecidableEq, Repr

/-- `locked` is the call that holds the mutex of the local pool over several steps. -/
structure Process where
  state : State
  locked : Option Nat
  deriving DecidableEq, Repr

def Process.init : Process where
  state := .init
  locked := none

/-- `offers` are the leases of the exchange sessions that their owners have yet to take. -/
structure World where
  table : Table
  processes : List Process
  offers : List Lease
  tasks : List Task
  now : Nat
  deriving DecidableEq, Repr

def World.init : World where
  table := .init
  processes := []
  offers := []
  tasks := []
  now := 0

/-- What the schedule, the policy and the world outside decide for a step. -/
inductive Choice where
  | go
  | ok
  | fail
  | drop
  | reuse (id : Nat)
  | create
  | wait
  | reject
  | take (offer : Nat)
  deriving DecidableEq, Repr

/-- What one step leaves. -/
structure Move where
  stage : Stage
  process : Process
  table : Table
  offers : List Lease

variable (c : Config) (w : World)

def World.go (process : Process) (stage : Stage) : Move := ⟨stage, process, w.table, w.offers⟩

def World.with (process : Process) (stage : Stage) (table : Table) : Move :=
  ⟨stage, process, table, w.offers⟩

/-- A section of the mutex of the local pool: it waits while another call holds it. -/
def Process.section (process : Process) (stage : Stage) (body : State → Stage × State) :
    Stage × Process :=
  if process.locked.isSome then (stage, process)
  else ((body process.state).1, { process with state := (body process.state).2 })

/-- The section that begins with the expired entries: they leave the queue under the mutex. -/
def World.lock (me : Nat) (process : Process) (stage : Stage) (after : After) : Move :=
  if process.locked.isSome then w.go process stage
  else
    let pruned := ClientPool.pruneExpired c.local w.now process.state
    w.go { state := pruned.2, locked := some me } (.pruning pruned.1 after)

/-- What `acquire_idle_where_inner` does after its section. -/
def afterSearch (id : Nat) : ClientPool.Action → Stage
  | .reuse entry => .recycling entry
  | .noIdle => .release id (.missingLocal id)
  | .atCapacity => .release id .localCapacity
  | .closed | .full | .create | .wait | .proceed => .release id .closed

/-- What `create_inner` does after its section. -/
def afterCreate (warm : Bool) : ClientPool.Action → Stage
  | .create => .creating warm
  | .atCapacity => .dropPermit .localCapacity
  | .closed | .full | .noIdle | .reuse _ | .wait | .proceed => .dropPermit .closed

def finishSection (process : Process) : After → Stage × Process
  | .search id =>
    let found := ClientPool.idleTurn c.local (fun client => client = id) process.state
    (afterSearch id found.1, { state := found.2, locked := none })
  | .create warm =>
    let turn := ClientPool.createTurn c.local process.state
    (afterCreate warm turn.1, { state := turn.2, locked := none })
  | .nothing => (.done .finished, { process with locked := none })

def World.plan (me : Nat) (process : Process) (attempts : Nat) : Choice → Move
  | .reuse id =>
    match w.table.reserve id with
    | (some lease, table) =>
      w.with process (if (w.table.resources[id]?.map Resource.owner) = some me then
        .acceptLocal lease else .openExchange lease) table
    | (none, _) => w.go process (.plan attempts)
  | .create =>
    let claimed := w.table.claimCreate c.options.maxLive
    w.with process (if claimed.1 then .createLook false else .plan attempts) claimed.2
  | .wait => w.go process .capacityWait
  | .reject => w.go process (.done .refused)
  | .go | .ok | .fail | .drop | .take _ => w.go process (.plan (attempts + 1))

def World.acceptLease (node : Nat) (process : Process) (lease : Lease) : Move :=
  let accepted := w.table.accept node lease
  w.with process (if accepted.1 then .lookup lease.id else .done .orbit) accepted.2

def World.offered (node offer : Nat) : Option Lease :=
  match w.offers[offer]? with
  | none => none
  | some lease =>
    if (w.table.resources[lease.id]?.map Resource.owner) = some node then some lease else none

/-- How an await that only waits ends. -/
def awaits (stage next : Stage) : Choice → Stage
  | .go | .ok => next
  | .fail => .done .refused
  | .drop => .done .dropped
  | .reuse _ | .create | .wait | .reject | .take _ => stage

/-- The next step of call `me` of process `node`.  A step that cannot be taken changes nothing. -/
def act (me node : Nat) (process : Process) (stage : Stage) (choice : Choice) : Move :=
  match stage with
  | .waitOpen admitted =>
    match process.state.status with
    | .opened => w.go process (awaits stage (if admitted then .plan c.options.attempts else .admission) choice)
    | .paused _ => w.go process (awaits stage stage choice)
    | .draining | .closed => w.go process (.done .closed)
  | .admission => w.go process (awaits stage (.waitOpen true) choice)
  | .plan 0 => w.go process .capacityWait
  | .plan (attempts + 1) => w.plan c node process attempts choice
  | .acceptLocal lease => w.acceptLease node process lease
  | .acceptOffered lease =>
    match choice with
    | .fail => w.go process (.done .orbit)
    | .go | .ok | .drop | .reuse _ | .create | .wait | .reject | .take _ =>
      w.acceptLease node process lease
  | .openExchange lease =>
    match choice with
    | .ok => ⟨.done .remote, process, w.table, w.offers ++ [lease]⟩
    | .fail => w.go process (.cancelReservation lease)
    | .go | .drop | .reuse _ | .create | .wait | .reject | .take _ => w.go process stage
  | .cancelReservation lease => w.with process (.done .orbit) (w.table.cancelReservation lease)
  | .capacityWait => w.go process (awaits stage (.waitOpen true) choice)
  | .takeOffer =>
    match choice with
    | .take offer =>
      match w.offered node offer with
      | some lease => ⟨.acceptOffered lease, process, w.table, w.offers.eraseIdx offer⟩
      | none => w.go process stage
    | .fail => w.go process (.done .refused)
    | .drop => w.go process (.done .dropped)
    | .go | .ok | .reuse _ | .create | .wait | .reject => w.go process stage
  | .lookup id => w.lock c me process stage (.search id)
  | .recycling entry =>
    match choice with
    | .ok => w.go process (.leased entry)
    | .fail => w.go process (.abandon entry .manager)
    | .drop => w.go process (.abandon entry .dropped)
    | .go | .reuse _ | .create | .wait | .reject | .take _ => w.go process stage
  | .abandon entry outcome =>
    w.with process (.retire entry.client outcome) (w.table.unregister node entry.client)
  | .retire id outcome =>
    let turn := process.section stage fun s => (.release id outcome, ClientPool.retireOne s)
    w.go turn.2 turn.1
  | .release id outcome => w.with process (.done outcome) (w.table.finish id none).2
  | .pruning (id :: retired) after =>
    w.with process (.pruning retired after) (w.table.unregister node id)
  | .pruning [] after =>
    let turn := finishSection c process after
    w.go turn.2 turn.1
  | .warm =>
    let claimed := w.table.claimWarm c.options.maxLive c.options.minIdle
    w.with process (if claimed.1 then .createLook true else awaits stage stage choice) claimed.2
  | .createLook warm => w.lock c me process stage (.create warm)
  | .creating warm =>
    match choice with
    | .ok => w.go process (.registering warm)
    | .fail => w.go process (.failedCreate .manager)
    | .drop => w.go process (.failedCreate .dropped)
    | .go | .reuse _ | .create | .wait | .reject | .take _ => w.go process stage
  | .registering warm =>
    match choice with
    | .ok =>
      let registered := w.table.registerActive node
      w.with process (.created warm ⟨registered.1, w.now, w.now⟩) registered.2
    | .fail => w.go process (.failedCreate .orbit)
    | .go | .drop | .reuse _ | .create | .wait | .reject | .take _ => w.go process stage
  | .failedCreate outcome =>
    let turn := process.section stage fun s =>
      (.dropPermit outcome, ClientPool.finishCreate false true s)
    w.go turn.2 turn.1
  | .dropPermit outcome => w.with process (.done outcome) w.table.dropCreation
  | .created warm entry =>
    let turn := process.section stage fun s =>
      (.finishPermit warm entry, ClientPool.finishCreate true true s)
    w.go turn.2 turn.1
  | .finishPermit warm entry =>
    w.with process (if warm then .giveBack entry else .leased entry) w.table.dropCreation
  | .leased entry =>
    match choice with
    | .drop => w.go process (.giveBack entry)
    | .go | .ok | .fail | .reuse _ | .create | .wait | .reject | .take _ => w.go process stage
  | .giveBack entry => w.go process (.returning entry w.now)
  | .returning entry now =>
    let turn := process.section stage fun s =>
      let returned := ClientPool.returnEntry c.local now entry s
      (if returned.1 then .completing entry.client else .discarded entry, returned.2)
    w.go turn.2 turn.1
  | .discarded entry =>
    w.with process (.completing entry.client) (w.table.unregister node entry.client)
  | .completing id =>
    let finished := w.table.finish id (some c.options.maxIdle)
    w.with process (if finished.1 then .done .finished else .discarding id) finished.2
  | .discarding id =>
    let turn := process.section stage fun s =>
      match ClientPool.discardIdleTurn (fun client => client = id) s with
      | (some entry, s) => (.retired entry, s)
      | (none, s) => (.done .finished, s)
    w.go turn.2 turn.1
  | .retired entry => w.with process (.done .finished) (w.table.unregister node entry.client)
  | .prune => w.lock c me process stage .nothing
  | .pause reason =>
    let turn := process.section stage fun s => (.done .finished, ClientPool.pauseTurn reason s)
    w.go turn.2 turn.1
  | .resume =>
    let turn := process.section stage fun s => (.done .finished, (ClientPool.resumeTurn s).2)
    w.go turn.2 turn.1
  | .done outcome => w.go process (.done outcome)

inductive Op where
  | join
  | tick (elapsed : Nat)
  | call (node : Nat) (call : Call)
  | step (me : Nat) (choice : Choice)
  deriving DecidableEq, Repr

def exec : Op → World
  | .join => { w with processes := w.processes ++ [.init] }
  | .tick elapsed => { w with now := w.now + elapsed }
  | .call node call =>
    if node < w.processes.length then { w with tasks := w.tasks ++ [⟨node, call.stage⟩] } else w
  | .step me choice =>
    match w.tasks[me]? with
    | none => w
    | some task =>
      match w.processes[task.process]? with
      | none => w
      | some process =>
        let move := act c w me task.process process task.stage choice
        { w with
          table := move.table
          processes := w.processes.set task.process move.process
          offers := move.offers
          tasks := w.tasks.set me { task with stage := move.stage } }

def run (ops : List Op) : World := ops.foldl (exec c) .init

end FleetPool
