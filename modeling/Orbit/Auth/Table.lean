import Orbit.Auth.Token
import Mathlib.Logic.Function.Basic

/-! The table of sessions and of consumed tokens: slots of two banks, of which the revision says which
one is current, written one at a time under a lock.  The hash and the cipher that protect the records
are parameters. -/

namespace OrbitAuth

open Orbit.Atomic (leBytes)

/-- Four words of a keyed hash. -/
structure Mac where
  first : UInt64
  second : UInt64
  third : UInt64
  fourth : UInt64
  deriving DecidableEq

abbrev StoreKey := Mac

def Mac.words (m : Mac) : List UInt64 := [m.first, m.second, m.third, m.fourth]

/-- `SESSION`, `REVOKED` and `CONSUMED`. -/
def statusSession : UInt64 := 1
def statusRevoked : UInt64 := 2
def statusConsumed : UInt64 := 3

structure Record where
  key : StoreKey
  subject : Mac
  createdAt : UInt64
  expiresAt : UInt64
  generation : UInt64
  status : UInt64
  deriving DecidableEq

def recordWords : Nat := 12
def bankWords : Nat := 17

def Record.words (r : Record) : List UInt64 :=
  r.key.words ++ r.subject.words ++ [r.createdAt, r.expiresAt, r.generation, r.status]

def Record.check (r : Record) : Result Record :=
  if (r.status ≠ statusSession ∧ r.status ≠ statusRevoked ∧ r.status ≠ statusConsumed) ∨
      r.expiresAt ≤ r.createdAt ∨
      (r.status = statusConsumed ∧ (r.subject ≠ ⟨0, 0, 0, 0⟩ ∨ r.generation ≠ 0)) then
    .error .policyUnavailable
  else .ok r

def Record.fromWords : List UInt64 → Result Record
  | [k0, k1, k2, k3, s0, s1, s2, s3, createdAt, expiresAt, generation, status] =>
    Record.check ⟨⟨k0, k1, k2, k3⟩, ⟨s0, s1, s2, s3⟩, createdAt, expiresAt, generation, status⟩
  | _ => .error .policyUnavailable

inductive StateProtection where
  | blake3
  | encrypted
  | unprotected
  deriving DecidableEq

def StateProtection.id : StateProtection → Nat
  | .blake3 => 1
  | .encrypted => 2
  | .unprotected => 3

/-- A nonce of the cipher. -/
structure Nonce where
  first : UInt64
  second : UInt64
  third : UInt64

def Nonce.words (n : Nonce) : List UInt64 := [n.first, n.second, n.third]

/-- The keyed hash and the cipher, under the key of the table: they take associated data and the words
of a record. -/
structure StateCrypto where
  tag : List UInt8 → List UInt64 → Mac
  encrypt : List UInt64 → List UInt8 → List UInt64 → Option (List UInt64 × List UInt64)
  decrypt : List UInt64 → List UInt8 → List UInt64 → List UInt64 → Option (List UInt64)

structure RecordProtection where
  policy : StateProtection
  crypto : StateCrypto

def authStateKind : Nat := 198

def RecordProtection.context (p : RecordProtection) (index revision : Nat) : List UInt8 :=
  utf8 "orbit-auth/v4/state-record" ++ leBytes 1 authStateKind ++ leBytes 8 p.policy.id ++
    leBytes 8 index ++ leBytes 8 revision

/-- `encode`, with the random bytes that the operating system gives, if it does. -/
def RecordProtection.encode (p : RecordProtection) (index revision : Nat) (record : Record)
    (nonce : Option Nonce) : Result (List UInt64) :=
  match p.policy with
  | .blake3 =>
    .ok (record.words ++ (p.crypto.tag (p.context index revision) record.words).words ++ [0])
  | .encrypted =>
    match nonce with
    | none => .error .randomness
    | some nonce =>
      match p.crypto.encrypt nonce.words (p.context index revision) record.words with
      | none => .error .policyUnavailable
      | some (text, tag) => .ok (nonce.words ++ text ++ tag)
  | .unprotected => .ok (record.words ++ [0, 0, 0, 0, 0])

def RecordProtection.decode (p : RecordProtection) (index revision : Nat) (wire : List UInt64) :
    Result Record :=
  match p.policy with
  | .blake3 =>
    if (p.crypto.tag (p.context index revision) (wire.take 12)).words ≠ (wire.drop 12).take 4 ∨
        (wire.drop 16).any (· ≠ 0) then .error .policyUnavailable
    else Record.fromWords (wire.take 12)
  | .encrypted =>
    match p.crypto.decrypt (wire.take 3) (p.context index revision) ((wire.drop 3).take 12)
      (wire.drop 15) with
    | none => .error .policyUnavailable
    | some text => Record.fromWords text
  | .unprotected =>
    if (wire.drop 12).any (· ≠ 0) then .error .policyUnavailable
    else Record.fromWords (wire.take 12)

/-- `banks` holds the words of both banks. -/
structure StateSlot where
  revision : Nat
  banks : Nat → Nat → UInt64

def StateSlot.empty : StateSlot := ⟨0, fun _ _ => 0⟩

def StateSlot.wire (s : StateSlot) (revision : Nat) : List UInt64 :=
  (List.range bankWords).map (s.banks (revision &&& 1))

structure Snapshot where
  index : Nat
  revision : Nat
  record : Record
  wire : List UInt64

def StateSlot.read (p : RecordProtection) (index : Nat) (s : StateSlot) : Result (Option Snapshot) :=
  if s.revision = 0 then .ok none
  else (p.decode index s.revision (s.wire s.revision)).map fun record =>
    some ⟨index, s.revision, record, s.wire s.revision⟩

def overwritten (bank : Nat → UInt64) (wire : List UInt64) : Nat → UInt64 :=
  fun i => wire.getD i (bank i)

/-- `store`, under the lock. -/
def StateSlot.store (p : RecordProtection) (record : Record) (index : Nat) (nonce : Option Nonce)
    (s : StateSlot) : Result StateSlot := do
  let _ ← Record.fromWords record.words
  if 2 ^ 64 ≤ s.revision + 1 then .error .policyUnavailable
  else do
    let wire ← p.encode index (s.revision + 1) record nonce
    .ok ⟨s.revision + 1, Function.update s.banks ((s.revision + 1) &&& 1)
      (overwritten (s.banks ((s.revision + 1) &&& 1)) wire)⟩

structure StateTable where
  capacity : Nat
  capacity_pos : 0 < capacity
  slots : Nat → StateSlot

def StateTable.setSlot (t : StateTable) (index : Nat) (s : StateSlot) : StateTable :=
  { t with slots := Function.update t.slots index s }

/-- The slots of a key, in the order in which they are probed. -/
def probePath (capacity : Nat) (key : StoreKey) : List Nat :=
  (List.range capacity).map fun offset => (key.first.toNat + offset) % 2 ^ 64 % capacity

variable (p : RecordProtection)

def findIn (t : StateTable) (key : StoreKey) : List Nat → Result (Option Snapshot)
  | [] => .ok none
  | index :: rest =>
    match (t.slots index).read p index with
    | .error e => .error e
    | .ok none => .ok none
    | .ok (some snapshot) =>
      if snapshot.record.key = key then .ok (some snapshot) else findIn t key rest

def StateTable.find (t : StateTable) (key : StoreKey) : Result (Option Snapshot) :=
  findIn p t key (probePath t.capacity key)

def sessionsIn (t : StateTable) (subject : Mac) (now : UInt64) : List Nat → Result (List Snapshot)
  | [] => .ok []
  | index :: rest =>
    match (t.slots index).read p index with
    | .error e => .error e
    | .ok none => sessionsIn t subject now rest
    | .ok (some snapshot) =>
      if snapshot.record.status = statusSession ∧ snapshot.record.subject = subject ∧
          now < snapshot.record.expiresAt then
        if now < snapshot.record.createdAt then .error .notYetValid
        else (sessionsIn t subject now rest).map (snapshot :: ·)
      else sessionsIn t subject now rest

def StateTable.subjectSessions (t : StateTable) (subject : Mac) (now : UInt64) :
    Result (List Snapshot) :=
  sessionsIn p t subject now (List.range t.capacity)

/-- The random bytes of every store: each call stores into a slot once at most. -/
abbrev Randomness := Nat → Nat → Option Nonce

def StateTable.storeAt (t : StateTable) (index : Nat) (record : Record) (getrandom : Randomness) :
    Result StateTable :=
  ((t.slots index).store p record index (getrandom index (t.slots index).revision)).map
    (t.setSlot index)

def reusableIn (t : StateTable) (now : UInt64) : List Nat → Result (Option Nat)
  | [] => .ok none
  | index :: rest =>
    match (t.slots index).read p index with
    | .error e => .error e
    | .ok none => .ok (some index)
    | .ok (some old) =>
      if old.record.expiresAt ≤ now then .ok (some index) else reusableIn t now rest

def StateTable.insert (t : StateTable) (record : Record) (now : UInt64) (getrandom : Randomness) :
    Result StateTable :=
  match reusableIn p t now (probePath t.capacity record.key) with
  | .error e => .error e
  | .ok none => .error .stateFull
  | .ok (some index) => t.storeAt p index record getrandom

end OrbitAuth
