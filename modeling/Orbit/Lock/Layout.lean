import Orbit.Atomic.Word
import Orbit.Ring.Cursor

/-! Keyed locks of a fleet: keys, owners, leases and transitions, and the slots of the table that
holds the current leases. -/

namespace OrbitLock

open Orbit.Atomic List
open OrbitRing (NetIds)

/-- The sizes and kinds that a lock is compiled with, and what the crate asserts about them. -/
structure Layout where
  capacity : Nat
  payloadMax : Nat
  stateKind : Nat
  eventRingKind : Nat
  eventRingCapacity : Nat
  eventRingPayload : Nat
  capacity_pow : isPowerOfTwo capacity
  capacity_le : capacity < 2 ^ 32
  payload_pos : 0 < payloadMax
  payload_lt : payloadMax < 2 ^ 32
  stateKind_lt : stateKind < 2 ^ 8
  eventRingKind_lt : eventRingKind < 2 ^ 8

def Layout.sample : Layout where
  capacity := 4
  payloadMax := 16
  stateKind := 1
  eventRingKind := 2
  eventRingCapacity := 8
  eventRingPayload := 64
  capacity_pow := by decide
  capacity_le := by decide
  payload_pos := by decide
  payload_lt := by decide
  stateKind_lt := by decide
  eventRingKind_lt := by decide

/-- Resource identity used for contention. -/
structure LockKey where
  nameSpace : List UInt8
  label : List UInt8
  deriving DecidableEq, Repr

abbrev LockOwner := List UInt8

/-- One current lock tenure returned by the authoritative table.  Times are milliseconds. -/
structure LockLease where
  lockId : Nat
  key : LockKey
  owner : LockOwner
  acquiredAtMs : Nat
  expiresAtMs : Nat
  stateRevision : Nat
  deriving DecidableEq, Repr

inductive LockAcquire where
  | acquired (lease : LockLease)
  | occupied (lease : LockLease)
  deriving DecidableEq, Repr

/-- One successful current-state change. -/
inductive LockTransition where
  | acquired (lease : LockLease)
  | renewed (lease : LockLease)
  | released (lockId : Nat) (key : LockKey) (owner : LockOwner) (stateRevision : Nat)
  deriving DecidableEq, Repr

namespace LockTransition

def lockId : LockTransition → Nat
  | acquired lease | renewed lease => lease.lockId
  | released lockId _ _ _ => lockId

def key : LockTransition → LockKey
  | acquired lease | renewed lease => lease.key
  | released _ key _ _ => key

def owner : LockTransition → LockOwner
  | acquired lease | renewed lease => lease.owner
  | released _ _ owner _ => owner

def stateRevision : LockTransition → Nat
  | acquired lease | renewed lease => lease.stateRevision
  | released _ _ _ stateRevision => stateRevision

end LockTransition

inductive Error where
  | namespaceEmpty
  | keyEmpty
  | ownerEmpty
  | entryTooLarge (namespaceLen keyLen ownerLen maxPayload : Nat)
  | stateFull (capacity : Nat)
  | idExhausted
  | ttlZero
  | ttlOverflow
  | io
  deriving DecidableEq, Repr

def u16Max : Nat := 2 ^ 16 - 1

/-- `usize` addition that saturates. -/
def saturatingAdd (a b : Nat) : Nat := min (a + b) (2 ^ 64 - 1)

section

variable (l : Layout)

def validateKey (key : LockKey) : Except Error Unit :=
  if key.nameSpace.isEmpty then .error .namespaceEmpty
  else if key.label.isEmpty then .error .keyEmpty
  else if key.nameSpace.length > u16Max ∨ key.label.length > u16Max ∨
      saturatingAdd key.nameSpace.length key.label.length > l.payloadMax then
    .error (.entryTooLarge key.nameSpace.length key.label.length 0 l.payloadMax)
  else .ok ()

def validateEntry (key : LockKey) (owner : LockOwner) : Except Error Unit :=
  match validateKey l key with
  | .error e => .error e
  | .ok () =>
    if owner.isEmpty then .error .ownerEmpty
    else if key.nameSpace.length > u16Max ∨ key.label.length > u16Max ∨ owner.length > u16Max ∨
        saturatingAdd (saturatingAdd key.nameSpace.length key.label.length) owner.length >
          l.payloadMax then
      .error (.entryTooLarge key.nameSpace.length key.label.length owner.length l.payloadMax)
    else .ok ()

/-- What the checks of an entry promise. -/
structure Fits (key : LockKey) (owner : LockOwner) : Prop where
  namespace_pos : 0 < key.nameSpace.length
  label_pos : 0 < key.label.length
  owner_pos : 0 < owner.length
  namespace_le : key.nameSpace.length ≤ u16Max
  label_le : key.label.length ≤ u16Max
  owner_le : owner.length ≤ u16Max
  sum_le : key.nameSpace.length + key.label.length + owner.length ≤ l.payloadMax

theorem validateEntry_ok {l : Layout} {key : LockKey} {owner : LockOwner}
    (h : validateEntry l key owner = .ok ()) : Fits l key owner := by
  have hlt := l.payload_lt
  unfold validateEntry validateKey at h
  split at h
  · cases h
  rename_i hkey
  split at hkey
  · cases hkey
  rename_i hnamespace
  split at hkey
  · cases hkey
  rename_i hlabel
  split at h
  · cases h
  rename_i howner
  split at h
  · cases h
  rename_i hsizes
  rw [List.isEmpty_iff] at hnamespace hlabel howner
  simp only [not_or, Nat.not_lt, saturatingAdd, gt_iff_lt] at hsizes
  obtain ⟨h1, h2, h3, h4⟩ := hsizes
  refine ⟨length_pos_iff.mpr hnamespace, length_pos_iff.mpr hlabel,
    length_pos_iff.mpr howner, h1, h2, h3, ?_⟩
  omega

end

inductive SlotState where
  | empty
  | occupied
  | tombstone
  deriving DecidableEq, Repr

structure LockStateSlot where
  state : SlotState
  namespaceLen : Nat
  keyLen : Nat
  ownerLen : Nat
  keyHash : Nat
  lockId : Nat
  stateRevision : Nat
  acquiredAtMs : Nat
  expiresAtMs : Nat
  payload : List UInt8

namespace LockStateSlot

def empty (l : Layout) : LockStateSlot where
  state := .empty
  namespaceLen := 0
  keyLen := 0
  ownerLen := 0
  keyHash := 0
  lockId := 0
  stateRevision := 0
  acquiredAtMs := 0
  expiresAtMs := 0
  payload := replicate l.payloadMax 0

variable (slot : LockStateSlot)

def namespaceBytes : List UInt8 := slot.payload.take slot.namespaceLen

def keyBytes : List UInt8 := (slot.payload.drop slot.namespaceLen).take slot.keyLen

def owner : List UInt8 := (slot.payload.drop (slot.namespaceLen + slot.keyLen)).take slot.ownerLen

def isMatch (hash : Nat) (key : LockKey) : Bool :=
  slot.state = .occupied && slot.keyHash = hash && slot.namespaceBytes = key.nameSpace &&
    slot.keyBytes = key.label

def lease : LockLease where
  lockId := slot.lockId
  key := ⟨slot.namespaceBytes, slot.keyBytes⟩
  owner := slot.owner
  acquiredAtMs := slot.acquiredAtMs
  expiresAtMs := slot.expiresAtMs
  stateRevision := slot.stateRevision

def write (l : Layout) (hash : Nat) (lease : LockLease) : LockStateSlot where
  state := .occupied
  namespaceLen := lease.key.nameSpace.length % 2 ^ 16
  keyLen := lease.key.label.length % 2 ^ 16
  ownerLen := lease.owner.length % 2 ^ 16
  keyHash := hash
  lockId := lease.lockId
  stateRevision := lease.stateRevision
  acquiredAtMs := lease.acquiredAtMs
  expiresAtMs := lease.expiresAtMs
  payload := lease.key.nameSpace ++ lease.key.label ++ lease.owner ++ replicate (l.payloadMax -
    (lease.key.nameSpace.length + lease.key.label.length + lease.owner.length)) 0

def tombstone : LockStateSlot := { slot with state := .tombstone }

theorem lease_write {l : Layout} {hash : Nat} {lease : LockLease}
    (h : Fits l lease.key lease.owner) : (write l hash lease).lease = lease := by
  have hmod : ∀ {n : Nat}, n ≤ u16Max → n % 2 ^ 16 = n := fun hn =>
    Nat.mod_eq_of_lt (Nat.lt_of_le_of_lt hn (by decide))
  obtain ⟨lockId, ⟨nameSpace, label⟩, holder, acquiredAtMs, expiresAtMs, stateRevision⟩ := lease
  simp only [write, LockStateSlot.lease, namespaceBytes, keyBytes, owner, hmod h.namespace_le,
    hmod h.label_le, hmod h.owner_le]
  congr 1
  · congr 1
    · rw [append_assoc, append_assoc, take_left]
    · rw [append_assoc, append_assoc, drop_left, take_left]
  · rw [← length_append, append_assoc, drop_left, take_left]

end LockStateSlot

end OrbitLock
