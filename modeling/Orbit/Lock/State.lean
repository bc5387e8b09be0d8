import Orbit.Lock.Layout
import Orbit.Table.Probing

/-! Fixed-capacity authoritative lock state: the operations of the table, each whole.  A publish is
called with the transition before the slot changes, and may refuse it. -/

namespace OrbitLock

open Orbit.Table
open OrbitRing (NetIds)

def fnvOffsetBasis : Nat := 0xcbf29ce484222325
def fnvPrime : Nat := 0x00000100000001b3

/-- The hash of a key.  The operations take any hash, as which keys collide does not matter. -/
def lockHash (key : LockKey) : Nat :=
  (key.nameSpace ++ key.label).foldl
    (fun hash byte => (hash ^^^ byte.toNat) * fnvPrime % 2 ^ 64) fnvOffsetBasis

def probeIndex (hash offset capacity : Nat) : Nat := (hash + offset) % 2 ^ 64 &&& (capacity - 1)

/-- The slots of a hash, in the order of their probe. -/
def probePath (l : Layout) (hash : Nat) : List Nat :=
  (List.range l.capacity).map fun offset => probeIndex hash offset l.capacity

structure LockState where
  nextLock : Nat
  nextRevision : Nat
  slots : Nat → LockStateSlot

def LockState.init (l : Layout) : LockState where
  nextLock := 0
  nextRevision := 0
  slots _ := .empty l

def LockState.put (s : LockState) (index : Nat) (slot : LockStateSlot) : LockState :=
  { s with slots := Function.update s.slots index slot }

/-- What a caller makes of a transition: its own state, and whether it refuses. -/
abbrev Publish (σ : Type) := LockTransition → σ → σ × Except Error Unit

abbrev Reply (σ α : Type) := LockState × σ × Except Error α

section

variable (l : Layout) (ids : NetIds) (hash : LockKey → Nat) (node : Nat) {σ : Type}

def lockCounterMax : Nat := 0xffffffffff

def mintLockId (s : LockState) : Except Error (Nat × LockState) :=
  if s.nextLock + 1 ≥ 2 ^ 64 then .error .idExhausted
  else if s.nextLock + 1 > lockCounterMax then .error .idExhausted
  else .ok (ids.make l.stateKind node (s.nextLock + 1), { s with nextLock := s.nextLock + 1 })

def mintRevision (s : LockState) : Except Error (Nat × LockState) :=
  if s.nextRevision + 1 ≥ 2 ^ 64 then .error .idExhausted
  else .ok (s.nextRevision + 1, { s with nextRevision := s.nextRevision + 1 })

def findSlot (slots : Nat → LockStateSlot) (key : LockKey) : Option Nat :=
  probe (fun slot => decide (slot.state = .empty)) (fun slot => slot.isMatch (hash key) key) slots
    (probePath l (hash key))

/-- What the probe of `acquire` ends with. -/
inductive Scan where
  | occupied (lease : LockLease)
  | insertion (index : Option Nat)

/-- The probe of `acquire`: expired slots become tombstones on the way, and the first slot that is
free, a tombstone or expired takes the lease. -/
def scan (hash : Nat) (key : LockKey) (nowMs : Nat) :
    List Nat → (Nat → LockStateSlot) → Option Nat → (Nat → LockStateSlot) × Scan
  | [], slots, insertion => (slots, .insertion insertion)
  | index :: rest, slots, insertion =>
    match (slots index).state with
    | .empty => (slots, .insertion (insertion.or (some index)))
    | .tombstone => scan hash key nowMs rest slots (insertion.or (some index))
    | .occupied =>
      if (slots index).expiresAtMs ≤ nowMs then
        scan hash key nowMs rest (Function.update slots index (slots index).tombstone)
          (insertion.or (some index))
      else if (slots index).isMatch hash key then (slots, .occupied (slots index).lease)
      else scan hash key nowMs rest slots insertion

/-- The end of `acquire`: the lease is minted, published and written. -/
def insert (key : LockKey) (owner : LockOwner) (nowMs expiresAtMs : Nat) (publish : Publish σ)
    (index : Nat) (s : LockState) (outer : σ) : Reply σ LockAcquire :=
  match mintLockId l ids node s with
  | .error e => (s, outer, .error e)
  | .ok (lockId, s) =>
    match mintRevision s with
    | .error e => (s, outer, .error e)
    | .ok (stateRevision, s) =>
      let lease : LockLease := ⟨lockId, key, owner, nowMs, expiresAtMs, stateRevision⟩
      match publish (.acquired lease) outer with
      | (outer, .error e) => (s, outer, .error e)
      | (outer, .ok ()) =>
        (s.put index (.write l (hash key) lease), outer, .ok (.acquired lease))

def acquire (key : LockKey) (owner : LockOwner) (nowMs expiresAtMs : Nat) (publish : Publish σ)
    (s : LockState) (outer : σ) : Reply σ LockAcquire :=
  match validateEntry l key owner with
  | .error e => (s, outer, .error e)
  | .ok () =>
    let found := scan (hash key) key nowMs (probePath l (hash key)) s.slots none
    let s := { s with slots := found.1 }
    match found.2 with
    | .occupied lease => (s, outer, .ok (.occupied lease))
    | .insertion none => (s, outer, .error (.stateFull l.capacity))
    | .insertion (some index) =>
      insert l ids hash node key owner nowMs expiresAtMs publish index s outer

def renewSlot (index requestedExpiresAtMs : Nat) (publish : Publish σ) (s : LockState) (outer : σ) :
    Reply σ (Option LockLease) :=
  match mintRevision s with
  | .error e => (s, outer, .error e)
  | .ok (stateRevision, s) =>
    let old := (s.slots index).lease
    let lease := { old with
      expiresAtMs := max old.expiresAtMs requestedExpiresAtMs
      stateRevision }
    match publish (.renewed lease) outer with
    | (outer, .error e) => (s, outer, .error e)
    | (outer, .ok ()) =>
      (s.put index (.write l (s.slots index).keyHash lease), outer, .ok (some lease))

def releaseSlot (index : Nat) (publish : Publish σ) (s : LockState) (outer : σ) : Reply σ Bool :=
  match mintRevision s with
  | .error e => (s, outer, .error e)
  | .ok (stateRevision, s) =>
    let lease := (s.slots index).lease
    match publish (.released lease.lockId lease.key lease.owner stateRevision) outer with
    | (outer, .error e) => (s, outer, .error e)
    | (outer, .ok ()) => (s.put index (s.slots index).tombstone, outer, .ok true)

/-- The slot of a live lease; one that has expired becomes a tombstone. -/
def liveSlot (key : LockKey) (nowMs : Nat) (s : LockState) : LockState × Option Nat :=
  match findSlot l hash s.slots key with
  | none => (s, none)
  | some index =>
    if (s.slots index).expiresAtMs ≤ nowMs then (s.put index (s.slots index).tombstone, none)
    else (s, some index)

/-- What `renew_id`, `renew_owner`, `release_id` and `release_owner` share: the live slot of the key,
if the caller may change it. -/
def withLive {α : Type} (key : LockKey) (nowMs : Nat) (may : LockStateSlot → Bool) (otherwise : α)
    (change : Nat → LockState → σ → Reply σ α) (s : LockState) (outer : σ) : Reply σ α :=
  match liveSlot l hash key nowMs s with
  | (s, none) => (s, outer, .ok otherwise)
  | (s, some index) =>
    if may (s.slots index) then change index s outer else (s, outer, .ok otherwise)

def renewId (lease : LockLease) (nowMs requestedExpiresAtMs : Nat) (publish : Publish σ)
    (s : LockState) (outer : σ) : Reply σ (Option LockLease) :=
  match validateEntry l lease.key lease.owner with
  | .error e => (s, outer, .error e)
  | .ok () =>
    withLive l hash lease.key nowMs (fun slot => slot.lockId = lease.lockId) none
      (fun index => renewSlot l index requestedExpiresAtMs publish) s outer

def renewOwner (key : LockKey) (owner : LockOwner) (nowMs requestedExpiresAtMs : Nat)
    (publish : Publish σ) (s : LockState) (outer : σ) : Reply σ (Option LockLease) :=
  match validateEntry l key owner with
  | .error e => (s, outer, .error e)
  | .ok () =>
    withLive l hash key nowMs (fun slot => slot.owner = owner) none
      (fun index => renewSlot l index requestedExpiresAtMs publish) s outer

def releaseId (lease : LockLease) (nowMs : Nat) (publish : Publish σ) (s : LockState) (outer : σ) :
    Reply σ Bool :=
  match validateEntry l lease.key lease.owner with
  | .error e => (s, outer, .error e)
  | .ok () =>
    withLive l hash lease.key nowMs (fun slot => slot.lockId = lease.lockId) false
      (fun index => releaseSlot index publish) s outer

def releaseOwner (key : LockKey) (owner : LockOwner) (nowMs : Nat) (publish : Publish σ)
    (s : LockState) (outer : σ) : Reply σ Bool :=
  match validateEntry l key owner with
  | .error e => (s, outer, .error e)
  | .ok () =>
    withLive l hash key nowMs (fun slot => slot.owner = owner) false
      (fun index => releaseSlot index publish) s outer

def forceRelease (key : LockKey) (nowMs : Nat) (publish : Publish σ) (s : LockState) (outer : σ) :
    Reply σ Bool :=
  match validateKey l key with
  | .error e => (s, outer, .error e)
  | .ok () =>
    match findSlot l hash s.slots key with
    | none => (s, outer, .ok false)
    | some index =>
      if (s.slots index).expiresAtMs ≤ nowMs then
        (s.put index (s.slots index).tombstone, outer, .ok false)
      else releaseSlot index publish s outer

def current (key : LockKey) (nowMs : Nat) (s : LockState) (outer : σ) :
    Reply σ (Option LockLease) :=
  match validateKey l key with
  | .error e => (s, outer, .error e)
  | .ok () =>
    match liveSlot l hash key nowMs s with
    | (s, none) => (s, outer, .ok none)
    | (s, some index) => (s, outer, .ok (some (s.slots index).lease))

end

/-- Atomic resource-side high-water mark for fencing stale holders. -/
structure Fence where
  highWater : Nat

/-- `Fence::admit`: admit this tenure unless a newer tenure was already observed. -/
def Fence.admitToken (fence : Fence) (token : Nat) : Fence × Bool :=
  (⟨max fence.highWater token⟩, decide (fence.highWater ≤ token))

/-- `LockLease::fencing_token`. -/
def LockLease.fencingToken (ids : NetIds) (lease : LockLease) : Nat := ids.counter lease.lockId

end OrbitLock
