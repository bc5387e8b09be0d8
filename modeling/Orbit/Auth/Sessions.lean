import Orbit.Auth.Table
import Mathlib.Data.PNat.Basic

/-! Sessions of a fleet: records of a table that name their subject, in its realm and under its issuer,
by a keyed hash. -/

namespace OrbitAuth

/-- The derivation of keys, and the keyed hash that names sessions and subjects. -/
structure FleetCrypto where
  derive : SecretKey → List UInt8 → List UInt8
  mac : List UInt8 → List UInt8 → Mac

structure FleetAuth where
  crypto : FleetCrypto
  stateKey : List UInt8
  protection : RecordProtection
  realm : Label
  issuer : Label

theorem fleetState_length : (utf8 "orbit-auth/v2/fleet-state").length < 2 ^ 64 := by decide +kernel

theorem sessionName_length : (utf8 "session").length < 2 ^ 64 := by decide +kernel

theorem subjectName_length : (utf8 "subject").length < 2 ^ 64 := by decide +kernel

theorem id_length (id : Vector UInt8 16) : id.toList.length < 2 ^ 64 := by
  rw [Vector.length_toList]
  exact Nat.lt_of_lt_of_le (Nat.lt_succ_self 16) (Nat.le_of_ble_eq_true rfl)

def FleetAuth.new (crypto : FleetCrypto) (fleet : Slice) (authority : Authority)
    (stateKey : SecretKey) (protection : RecordProtection) : FleetAuth where
  crypto := crypto
  stateKey := crypto.derive stateKey (context [⟨_, fleetState_length⟩, fleet, authority.realm.slice,
    authority.issuer.slice])
  protection := protection
  realm := authority.realm
  issuer := authority.issuer

def FleetAuth.sessionKey (auth : FleetAuth) (id : Vector UInt8 16) : StoreKey :=
  auth.crypto.mac auth.stateKey (context [⟨_, sessionName_length⟩, ⟨id.toList, id_length id⟩])

def FleetAuth.subjectTag (auth : FleetAuth) (subject : Label) : Mac :=
  auth.crypto.mac auth.stateKey (context [⟨_, subjectName_length⟩, subject.slice])

structure Session where
  binding : SessionBinding
  subject : String
  createdAt : UInt64
  expiresAt : UInt64
  realm : Label
  issuer : Label

def FleetAuth.handle (auth : FleetAuth) (id : Vector UInt8 16) (subject : String) (record : Record) :
    Session where
  binding := ⟨id, record.generation⟩
  subject := subject
  createdAt := record.createdAt
  expiresAt := record.expiresAt
  realm := auth.realm
  issuer := auth.issuer

variable (p : RecordProtection)

def StateTable.revokeEach (getrandom : Randomness) : List Snapshot → StateTable →
    StateTable × Result Unit
  | [], t => (t, .ok ())
  | session :: rest, t =>
    match t.storeAt p session.index { session.record with status := statusRevoked } getrandom with
    | .error e => (t, .error e)
    | .ok t => t.revokeEach getrandom rest

/-- The order in which sessions have to go. -/
def Snapshot.goesBefore (a b : Snapshot) : Bool :=
  a.record.createdAt < b.record.createdAt ||
    (a.record.createdAt == b.record.createdAt && a.index ≤ b.index)

def excess (live : List Snapshot) (limit : ℕ+) : List Snapshot :=
  (live.mergeSort Snapshot.goesBefore).take (live.length - ((limit : Nat) - 1))

/-- What `create` does under the lock. -/
def StateTable.createLocked (t : StateTable) (record : Record) (now : UInt64) (limit : Option ℕ+)
    (getrandom : Randomness) : StateTable × Result Unit :=
  match t.find p record.key with
  | .error e => (t, .error e)
  | .ok (some _) => (t, .error .invalidInput)
  | .ok none =>
    match limit.elim (.ok []) fun _ => t.subjectSessions p record.subject now with
    | .error e => (t, .error e)
    | .ok live =>
      match t.insert p record now getrandom with
      | .error e => (t, .error e)
      | .ok t => limit.elim (t, .ok ()) fun limit => t.revokeEach p getrandom (excess live limit)

/-- `create`, with the identity that the operating system gives, if it does, and whether the lock can
be taken. -/
def FleetAuth.create (auth : FleetAuth) (subject : String) (now expiresAt : UInt64)
    (limit : Option ℕ+) (id : Option (Vector UInt8 16)) (locks : Bool) (getrandom : Randomness)
    (t : StateTable) : StateTable × Result Session :=
  if h : validLabel subject = true ∧ now < expiresAt then
    match id with
    | none => (t, .error .randomness)
    | some id =>
      if locks then
        let record : Record := ⟨auth.sessionKey id, auth.subjectTag ⟨subject, h.1⟩, now, expiresAt, 0,
          statusSession⟩
        let r := t.createLocked auth.protection record now limit getrandom
        (r.1, r.2.map fun _ => auth.handle id subject record)
      else (t, .error .policyUnavailable)
  else (t, .error .invalidInput)

end OrbitAuth
