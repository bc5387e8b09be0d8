import Mathlib.Data.List.Sort
import Orbit.Cache.Layout

/-! Processes that share one mutation ring, the calls on their caches one mutex section or ring
access at a time, and the runs of any number of them. -/

namespace OrbitCache

/-- The geometry of the ring and the arena. -/
structure CacheLayout where
  payloadCapacity : Nat
  recordMax : Nat

inductive Error where
  | storeEmpty
  | storeTooLarge (storeLen max : Nat)
  | keyEmpty
  | keyTooLarge (keyLen max : Nat)
  | valueTooLarge (valueLen max : Nat)
  | arena
  | io
  | exhausted
  deriving DecidableEq, Repr

def minMutationHeaderLen : Nat := 1 + 2 + 2 + 8 + 4 + 8 + 8

variable (layout : CacheLayout)

def CacheLayout.maxStoreLen : Nat :=
  min (layout.payloadCapacity - (minMutationHeaderLen + 1)) (2 ^ 16 - 1)

def CacheLayout.maxKeyLen (storeLen : Nat) : Nat :=
  min (layout.payloadCapacity - minMutationHeaderLen - storeLen) (2 ^ 16 - 1)

def validateStore (store : Key) : Except Error Unit :=
  if store.isEmpty then .error .storeEmpty
  else if store.length > layout.maxStoreLen then
    .error (.storeTooLarge store.length layout.maxStoreLen)
  else .ok ()

def validateKey (store key : Key) : Except Error Unit := do
  validateStore layout store
  if key.isEmpty then .error .keyEmpty
  else if key.length > layout.maxKeyLen store.length then
    .error (.keyTooLarge key.length (layout.maxKeyLen store.length))
  else .ok ()

def validatePut (store key : Key) (value : List UInt8) : Except Error Unit := do
  validateKey layout store key
  if value.length > layout.recordMax then .error (.valueTooLarge value.length layout.recordMax)
  else .ok ()

inductive Request where
  | put (store key : Key) (value : List UInt8) (ttl : Option Nat)
  | delete (store key : Key)
  | reset (store : Key)
  deriving DecidableEq, Repr

def Request.store : Request → Key
  | .put store _ _ _ | .delete store _ | .reset store => store

def Request.validate : Request → Except Error Unit
  | .put store key value _ => validatePut layout store key value
  | .delete store key => validateKey layout store key
  | .reset store => validateStore layout store

/-- A mutation before it has its revision. -/
inductive Draft where
  | put (store key : Key) (expiresAtMs : Option Nat) (payload : PayloadRef)
  | delete (store key : Key)
  | reset (store : Key)
  deriving DecidableEq, Repr

def Draft.store : Draft → Key
  | .put store _ _ _ | .delete store _ | .reset store => store

def Draft.mutation (revision : CacheRevision) : Draft → CacheMutation
  | .put store key expiresAtMs payload => .put store key revision expiresAtMs payload
  | .delete store key => .delete store key revision
  | .reset store => .reset store revision

/-- Where a call stands. -/
inductive Stage where
  /- `put`, `delete` and `reset` -/
  | mutate (request : Request)
  | mint (draft : Draft)
  | publish (draft : Draft) (sequence : Nat)
  | install (mutation : CacheMutation)
  | mutated (mutation : CacheMutation)
  | failed (error : Error)
  /- `open_store` -/
  | openRead (name : Key)
  | openWrite (name : Key)
  /- `poll` -/
  | pollFetch
  | pollCollect (mutations : List CacheMutation)
  | pollResync (remaining : List Key) (mutations : List CacheMutation)
  | pollLookup (mutations : List CacheMutation)
  | pollApply (mutation : CacheMutation) (mutations : List CacheMutation)
  /- `recover_from_backing` -/
  | recoverLock
  | recoverHead
  | recoverFloor
  | recoverCollect (floor : Nat)
  | recoverVisit (floor : Nat) (remaining : List Key)
  | read (store key : Key)
  | finished
  deriving DecidableEq, Repr

inductive Call where
  | mutate (request : Request)
  | openStore (name : Key)
  | poll
  | recoverFromBacking
  | read (store key : Key)
  deriving DecidableEq, Repr

def Call.stage : Call → Stage
  | .mutate request => .mutate request
  | .openStore name => .openRead name
  | .poll => .pollFetch
  | .recoverFromBacking => .recoverLock
  | .read store key => .read store key

def Call.handle : Call → Option Key
  | .mutate request => some request.store
  | .read store _ => some store
  | .openStore _ | .poll | .recoverFromBacking => none

/-- What a run keeps for the history of one process. -/
inductive Note where
  | handed (mutation : CacheMutation)
  | returned (mutation : CacheMutation)
  | hit (store key : Key) (revision : CacheRevision)
  | resync (store : Key)
  | recovered (store : Key)
  deriving DecidableEq, Repr

/-- One cache connection: the published mutations that its cursor has yet to read, whether a
recovery holds the cursor, and the stores opened so far. -/
structure Cache where
  pending : List CacheMutation
  held : Bool
  stores : List (Key × LocalState)
  log : List Note

structure Task where
  process : Nat
  stage : Stage

/-- `counter` is the last sequence of the ring, `bodies` are those of the arena by address. -/
structure World where
  counter : Nat
  published : List CacheMutation
  bodies : List (List UInt8)
  caches : List Cache
  tasks : List Task

def World.init : World where
  counter := 0
  published := []
  bodies := []
  caches := []
  tasks := []

def World.body (w : World) (address : Nat) : List UInt8 := w.bodies.getD address []

/-- What a poll finds of a pending frame: not committed yet, a mutation, overwritten or malformed. -/
inductive Fate where
  | keep
  | deliver
  | lose
  | garble
  deriving DecidableEq, Repr

/-- What the world outside and the LRU map decide for a step. -/
structure Choice where
  ok : Bool
  sent : Bool
  available : Bool
  now : Nat
  victim : Option Key
  mutationId : Nat
  fates : List Fate
  deriving DecidableEq, Repr

/-- The pending frames of some fate; a frame without a fate stays. -/
def fated (fate : Fate) (pending : List CacheMutation) (fates : List Fate) : List CacheMutation :=
  match pending, fates with
  | [], _ => []
  | mutation :: pending, [] => if fate = .keep then mutation :: pending else []
  | mutation :: pending, first :: fates =>
    if first = fate then mutation :: fated fate pending fates else fated fate pending fates

def names (stores : List (Key × LocalState)) : List Key := stores.map Prod.fst

def updateStore (stores : List (Key × LocalState)) (name : Key) (f : LocalState → LocalState) :
    List (Key × LocalState) :=
  stores.map fun entry => if entry.1 = name then (entry.1, f entry.2) else entry

theorem mem_updateStore {stores : List (Key × LocalState)} {f : LocalState → LocalState}
    {name key : Key} {st' : LocalState}
    (h : (name, st') ∈ updateStore stores key f) :
    (name = key ∧ ∃ st, (key, st) ∈ stores ∧ st' = f st) ∨ name ≠ key ∧ (name, st') ∈ stores := by
  obtain ⟨⟨name', st⟩, hmem, heq⟩ := List.mem_map.mp h
  dsimp only at heq
  split at heq
  · rename_i hname
    cases heq
    exact .inl ⟨hname, st, hname ▸ hmem, rfl⟩
  · rename_i hname
    cases heq
    exact .inr ⟨hname, hmem⟩

theorem names_updateStore (stores : List (Key × LocalState)) (key : Key)
    (f : LocalState → LocalState) : names (updateStore stores key f) = names stores := by
  rw [names, updateStore, List.map_map]
  apply List.map_congr_left
  intro entry _
  dsimp only [Function.comp]
  split
  · rfl
  · rfl

abbrev listed (name : Key) (names : List Key) : Bool := decide (name ∈ names)

def Cache.section (cache : Cache) (name : Key) (f : LocalState → LocalState) (notes : List Note) :
    Cache :=
  if name ∈ names cache.stores then
    { cache with stores := updateStore cache.stores name f, log := cache.log ++ notes }
  else cache

/-- What one step leaves: the stage of the call, the cache of its process, the shared words and
the mutation that it published. -/
structure Move where
  stage : Stage
  cache : Cache
  counter : Nat
  bodies : List (List UInt8)
  frame : Option CacheMutation

def World.go (w : World) (cache : Cache) (stage : Stage) : Move :=
  ⟨stage, cache, w.counter, w.bodies, none⟩

def expiresAt (now : Nat) (ttl : Option Nat) : Option Nat :=
  ttl.map fun ttl => min (now + max ttl 1) (2 ^ 64 - 1)

/-- Validation and, for a `put`, the body in the arena. -/
def World.prepare (w : World) (cache : Cache) (choice : Choice) (request : Request) : Move :=
  match request.validate layout with
  | .error e => w.go cache (.failed e)
  | .ok _ =>
    match request with
    | .put store key value ttl =>
      if choice.ok then
        ⟨.mint (.put store key (expiresAt choice.now ttl) ⟨w.bodies.length, value.length⟩), cache,
          w.counter, w.bodies ++ [value], none⟩
      else w.go cache (.failed .arena)
    | .delete store key => w.go cache (.mint (.delete store key))
    | .reset store => w.go cache (.mint (.reset store))

/-- After a fetch: every store needs a resynchronisation if a frame was lost or malformed. -/
def World.fetch (w : World) (cache : Cache) (fates : List Fate) : Move :=
  let mutations := (fated .deliver cache.pending fates).insertionSort
    fun a b => a.revision ≤ b.revision
  let cache' := { cache with pending := fated .keep cache.pending fates }
  if (fated .lose cache.pending fates).isEmpty ∧ (fated .garble cache.pending fates).isEmpty then
    w.go cache' (.pollLookup mutations)
  else w.go cache' (.pollCollect mutations)

def readNotes (store key : Key) : CacheRead → List Note
  | .hit entry => [.hit store key entry.revision]
  | .miss | .resyncRequired => []

def act (w : World) (cache : Cache) (stage : Stage) (choice : Choice) : Move :=
  match stage with
  | .mutate request => w.prepare layout cache choice request
  | .mint draft =>
    if w.counter + 1 < 2 ^ 64 then
      ⟨.publish draft (w.counter + 1), cache, w.counter + 1, w.bodies, none⟩
    else ⟨.failed .exhausted, cache, 0, w.bodies, none⟩
  | .publish draft sequence =>
    if choice.ok then
      ⟨.install (draft.mutation ⟨sequence, choice.mutationId⟩), cache, w.counter, w.bodies,
        some (draft.mutation ⟨sequence, choice.mutationId⟩)⟩
    else
      ⟨.failed .io, cache, w.counter, w.bodies,
        if choice.sent then some (draft.mutation ⟨sequence, choice.mutationId⟩) else none⟩
  | .install mutation =>
    w.go (cache.section mutation.store (fun st => st.install mutation choice.victim)
      [.handed mutation]) (.mutated mutation)
  | .mutated mutation =>
    w.go { cache with log := cache.log ++ [.returned mutation] } .finished
  | .failed e => w.go cache (.failed e)
  | .openRead name =>
    match validateStore layout name with
    | .error e => w.go cache (.failed e)
    | .ok _ =>
      if name ∈ names cache.stores then w.go cache .finished else w.go cache (.openWrite name)
  | .openWrite name =>
    if name ∈ names cache.stores then w.go cache .finished
    else w.go { cache with stores := cache.stores ++ [(name, .init)] } .finished
  | .pollFetch => if cache.held then w.go cache .pollFetch else w.fetch cache choice.fates
  | .pollCollect mutations => w.go cache (.pollResync (names cache.stores) mutations)
  | .pollResync [] mutations => w.go cache (.pollLookup mutations)
  | .pollResync (name :: remaining) mutations =>
    w.go (cache.section name LocalState.requireResync [.resync name])
      (.pollResync remaining mutations)
  | .pollLookup [] => w.go cache .finished
  | .pollLookup (mutation :: mutations) =>
    if mutation.store ∈ names cache.stores then w.go cache (.pollApply mutation mutations)
    else w.go cache (.pollLookup mutations)
  | .pollApply mutation mutations =>
    w.go (cache.section mutation.store
      (fun st => (st.apply mutation choice.available choice.victim).1) [.handed mutation])
      (.pollLookup mutations)
  | .recoverLock =>
    if cache.held then w.go cache .recoverLock else w.go { cache with held := true } .recoverHead
  | .recoverHead => w.go { cache with pending := [] } .recoverFloor
  | .recoverFloor => w.go cache (.recoverCollect w.counter)
  | .recoverCollect floor => w.go cache (.recoverVisit floor (names cache.stores))
  | .recoverVisit _ [] => w.go { cache with held := false } .finished
  | .recoverVisit floor (name :: remaining) =>
    w.go (cache.section name (fun st => st.recoverFromBacking floor) [.recovered name])
      (.recoverVisit floor remaining)
  | .read store key =>
    match cache.stores.lookup store with
    | none => w.go cache .finished
    | some st =>
      w.go (cache.section store
        (fun st => (st.readAt w.body choice.available key choice.now).1)
        (readNotes store key (st.readAt w.body choice.available key choice.now).2)) .finished
  | .finished => w.go cache .finished

inductive Op where
  | join (replay : Bool)
  | call (process : Nat) (call : Call)
  | step (id : Nat) (choice : Choice)
  deriving DecidableEq, Repr

def deliver (frame : Option CacheMutation) (cache : Cache) : Cache :=
  { cache with pending := cache.pending ++ frame.toList }

def exec (w : World) : Op → World
  | .join replay =>
    { w with caches := w.caches ++ [⟨if replay then w.published else [], false, [], []⟩] }
  | .call process call =>
    match w.caches[process]? with
    | none => w
    | some cache =>
      if ∀ name ∈ call.handle, name ∈ names cache.stores then
        { w with tasks := w.tasks ++ [⟨process, call.stage⟩] }
      else w
  | .step id choice =>
    match w.tasks[id]? with
    | none => w
    | some task =>
      match w.caches[task.process]? with
      | none => w
      | some cache =>
        let move := act layout w cache task.stage choice
        { counter := move.counter
          published := w.published ++ move.frame.toList
          bodies := move.bodies
          caches := (w.caches.set task.process move.cache).map (deliver move.frame)
          tasks := w.tasks.set id { task with stage := move.stage } }

def run (ops : List Op) : World := ops.foldl (exec layout) .init

/-! The geometry of the sample runs, and a choice that grants a step. -/

def sampleLayout : CacheLayout := ⟨256, 1024⟩

def granted : Choice := ⟨true, true, true, 0, none, 0, []⟩

end OrbitCache
