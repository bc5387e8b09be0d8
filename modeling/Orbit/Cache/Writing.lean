import Orbit.Arena.Runs
import Orbit.Cache.Protocol
import Orbit.Cache.World

/-! Writes that can fail at every step: what a `put`, `delete` or `reset` does to the arena, the
sequences, the ring and the stores, whatever of it goes wrong, and the polls and reads of the
processes that share them. -/

namespace OrbitCache.Writing

open OrbitArena (Geometry Arena Address)

/-- One process: its connection and its row among the readers of the arena. -/
structure Client where
  reader : Nat
  cache : Cache

/-- `bodies` are the bytes that were stored, by generation. -/
structure World where
  arena : Arena
  bodies : Nat → List UInt8
  counter : Nat
  published : List CacheMutation
  clients : List Client

def World.init : World := ⟨.zeroed, fun _ => [], 0, [], []⟩

/-- What the world outside decides for one call: which rows of readers cannot be asked for, whether
the arena can be locked, the ring opened, the frame written and the readers notified, and whether
the arena can be locked once more. -/
structure Conditions where
  fails : Nat → Bool
  locked : Bool
  opened : Bool
  written : Bool
  notified : Bool
  relocked : Bool
  now : Nat
  mutationId : Nat
  victim : Option Key

inductive Outcome (α : Type) where
  | ok (a : α)
  | err (e : Error)
  | panics
  deriving DecidableEq

/-- The bytes that a frame of the ring takes, and the arena, whose slots are numbers of 32 bits. -/
structure Sizes where
  capacity : Nat
  arena : Geometry
  slots_lt : arena.slots < 2 ^ 32

def Sizes.layout (z : Sizes) : CacheLayout := ⟨z.capacity, z.arena.recordMax⟩

variable (z : Sizes) (g : Geometry)

def addressIn (payload : PayloadRef) : Address := ⟨payload.slot, payload.generation⟩

/-- `Arena::store`. -/
def World.store (w : World) (reader : Nat) (c : Conditions) (value : List UInt8) :
    World × Outcome PayloadRef :=
  if c.locked then
    match OrbitArena.writeRecord g reader c.fails none ⟨value.length, 0⟩ w.arena with
    | (arena, .error _) => ({ w with arena := arena }, .err .arena)
    | (arena, .ok address) =>
      ({ w with
          arena := arena
          bodies := Function.update w.bodies address.generation value },
        .ok ⟨addressOf address.slot address.generation, value.length⟩)
  else (w, .err .arena)

/-- `forget_address`, whose error is ignored. -/
def World.forget (w : World) (c : Conditions) (payload : PayloadRef) : World :=
  if c.relocked then { w with arena := OrbitArena.forgetAddress g (addressIn payload) w.arena }
  else w

def World.has (w : World) (reader : Nat) (payload : PayloadRef) : Bool :=
  (OrbitArena.pinEntry g reader payload.slot payload.generation none w.arena).2.isSome &&
    (w.arena.slots payload.slot).bodyLen == payload.valueLen

def World.body (w : World) (address : Nat) : List UInt8 := w.bodies (address / 2 ^ 32)

/-- `next_ring_version`. -/
def World.nextRingVersion (w : World) (c : Conditions) : World × Outcome Nat :=
  if c.opened then
    if w.counter + 1 < 2 ^ 64 then ({ w with counter := w.counter + 1 }, .ok (w.counter + 1))
    else ({ w with counter := 0 }, .panics)
  else (w, .panics)

def World.publish (w : World) (m : CacheMutation) : World :=
  { w with
    published := w.published ++ [m]
    clients := w.clients.map fun client =>
      { client with cache := deliver (some m) client.cache } }

/-- `publish_notified`, of the mutation that the bytes are the frame of. -/
def World.publishNotified (w : World) (c : Conditions) (m : CacheMutation) :
    World × Outcome CacheRevision :=
  if c.written then
    if c.notified then (w.publish m, .ok m.revision) else (w.publish m, .err .io)
  else (w, .err .io)

/-- `publish_mutation`, with what is returned of the mutation. -/
def World.publishMutation (w : World) (c : Conditions) (draft : Draft) (sequence : Nat) :
    World × Outcome CacheMutation :=
  match w.publishNotified c (draft.mutation ⟨sequence, c.mutationId⟩) with
  | (w, .panics) => (w, .panics)
  | (w, .err e) => (w, .err e)
  | (w, .ok revision) => (w, .ok (draft.mutation revision))

def World.finish (w : World) (c : Conditions) (draft : Draft) : World × Outcome CacheMutation :=
  match w.nextRingVersion c with
  | (w, .panics) => (w, .panics)
  | (w, .err e) => (w, .err e)
  | (w, .ok sequence) => w.publishMutation c draft sequence

/-- `publish_put` once the request is valid.  An encoding that fails would leave the body. -/
def World.publishPut (w : World) (reader : Nat) (c : Conditions) (store key : Key)
    (value : List UInt8) (ttl : Option Nat) : World × Outcome CacheMutation :=
  match w.store z.arena reader c value with
  | (w, .panics) => (w, .panics)
  | (w, .err e) => (w, .err e)
  | (w, .ok payload) =>
    let draft : Draft := .put store key (expiresAt c.now ttl) payload
    match draft.encode z.layout with
    | .error e => (w, .err e)
    | .ok _ =>
      match w.finish c draft with
      | (w, .err e) => (w.forget z.arena c payload, .err e)
      | finished => finished

/-- `publish_delete` once the request is valid. -/
def World.publishDelete (w : World) (c : Conditions) (store key : Key) :
    World × Outcome CacheMutation :=
  match encodeDelete z.layout store key with
  | .error e => (w, .err e)
  | .ok _ => w.finish c (.delete store key)

/-- `publish_reset` once the request is valid: it encodes last. -/
def World.publishReset (w : World) (c : Conditions) (store : Key) :
    World × Outcome CacheMutation :=
  match w.nextRingVersion c with
  | (w, .panics) => (w, .panics)
  | (w, .err e) => (w, .err e)
  | (w, .ok sequence) =>
    match encodeReset z.layout store with
    | .error e => (w, .err e)
    | .ok _ => w.publishMutation c (.reset store) sequence

def World.publishRequest (w : World) (reader : Nat) (c : Conditions) (request : Request) :
    World × Outcome CacheMutation :=
  match request.validate z.layout with
  | .error e => (w, .err e)
  | .ok _ =>
    match request with
    | .put store key value ttl => w.publishPut z reader c store key value ttl
    | .delete store key => w.publishDelete z c store key
    | .reset store => w.publishReset z c store

def World.living (w : World) (process : Nat) : Option Client :=
  w.clients[process]?.filter fun client => w.arena.held client.reader

def World.setCache (w : World) (process : Nat) (f : Cache → Cache) : World :=
  { w with clients := w.clients.modify process fun client =>
      { client with cache := f client.cache } }

/-- `Store::put`, `Store::delete` and `Store::reset` of a process. -/
def World.mutate (w : World) (process : Nat) (c : Conditions) (request : Request) :
    World × Outcome CacheRevision :=
  match w.living process with
  | none => (w, .panics)
  | some client =>
    match w.publishRequest z client.reader c request with
    | (w, .panics) => (w, .panics)
    | (w, .err e) => (w, .err e)
    | (w, .ok m) =>
      (w.setCache process fun cache =>
        cache.section m.store (fun st => st.install m c.victim) [], .ok m.revision)

def take (available : PayloadRef → Bool) (victims : CacheMutation → Option Key) (cache : Cache)
    (m : CacheMutation) : Cache :=
  cache.section m.store (fun st => (st.apply m (match m with
    | .put _ _ _ _ payload => available payload
    | .delete _ _ _ | .reset _ _ => false) (victims m)).1) []

def resync (cache : Cache) : Cache :=
  { cache with stores := cache.stores.map fun entry => (entry.1, entry.2.requireResync) }

/-- `Cache::poll`, in which each pending frame has its fate. -/
def poll (available : PayloadRef → Bool) (fates : List Fate)
    (victims : CacheMutation → Option Key) (cache : Cache) : Cache :=
  let mutations := (fated .deliver cache.pending fates).insertionSort
    fun a b => a.revision ≤ b.revision
  let left := { cache with pending := fated .keep cache.pending fates }
  let whole := (fated .lose cache.pending fates).isEmpty && (fated .garble cache.pending fates).isEmpty
  mutations.foldl (take available victims) (if whole then left else resync left)

def World.hasSlot (w : World) (reader : Nat) : Option LocalSlot → Bool
  | some (.present payload _ _) => w.has g reader payload
  | some (.missing _) | none => false

/-- What processes do with what is there.  A value that a read keeps borrowed is an operation of the
arena of its own. -/
inductive Use where
  | poll (process : Nat) (fates : List Fate) (victims : CacheMutation → Option Key)
  | read (process : Nat) (store key : Key) (now : Nat)

def World.use (w : World) : Use → World × Option CacheRead
  | .poll process fates victims =>
    match w.living process with
    | none => (w, none)
    | some client =>
      (w.setCache process fun _ => poll (w.has g client.reader) fates victims client.cache, none)
  | .read process store key now =>
    match w.living process with
    | none => (w, none)
    | some client =>
      match client.cache.stores.lookup store with
      | none => (w, none)
      | some st =>
        let available := w.hasSlot g client.reader (st.slots.peek key)
        let answer := st.readAt w.body available key now
        (w.setCache process fun cache => cache.section store (fun _ => answer.1) [], some answer.2)

def World.answers (w : World) : List Use → List (Option CacheRead)
  | [] => []
  | use :: uses => (w.use g use).2 :: (w.use g use).1.answers uses

inductive Op where
  | join (reader : Nat) (replay : Bool)
  | openStore (process : Nat) (name : Key)
  | mutate (process : Nat) (c : Conditions) (request : Request)
  | use (use : Use)
  /-- Other users of the arena, and the lives and deaths of the readers. -/
  | arena (op : OrbitArena.Op)

/-- `open_store`. -/
def opened (name : Key) (cache : Cache) : Cache :=
  match validateStore z.layout name with
  | .error _ => cache
  | .ok () =>
    if listed name (names cache.stores) then cache
    else { cache with stores := cache.stores ++ [(name, .init)] }

def exec (w : World) : Op → World
  | .join reader replay =>
    { w with clients := w.clients ++ [⟨reader, if replay then w.published else [], false, [], []⟩] }
  | .openStore process name => w.setCache process (opened z name)
  | .mutate process c request => (w.mutate z process c request).1
  | .use use => (w.use z.arena use).1
  | .arena op => { w with arena := OrbitArena.exec z.arena w.arena op }

def run (ops : List Op) : World := ops.foldl (exec z) .init

end OrbitCache.Writing
