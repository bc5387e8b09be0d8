import Mathlib.Data.Finset.Card
import Orbit.Atomic.Buffer
import Orbit.Codec.Base64

/-! Encrypted tokens: an authority issues them under the active key of its ring, in the scope of one
audience and purpose, and a validator of an authority accepts them in the scope of its own.  The
cipher, the derivation of keys and the encoding of principals are parameters. -/

namespace OrbitAuth

open Orbit.Atomic (leBytes leValue slice)

inductive Error where
  | invalidInput
  | duplicateKey
  | missingActiveKey
  | randomness
  | invalidToken
  | tokenTooLarge
  | expired
  | notYetValid
  | missingCapability
  | revoked
  | replayed
  | policyUnavailable
  | stateFull
  | incompatibleLayout
  | incompatibleProtection
  deriving DecidableEq, Repr

abbrev Result (α : Type) := Except Error α

def maxTokenLen : Nat := 16 * 1024
def headerLen : Nat := 4 + 24
def tagLen : Nat := 16
def maxLabelLen : Nat := 256
def maxCapabilities : Nat := 64

/-- A byte string in memory, whose length is a word. -/
structure Slice where
  bytes : List UInt8
  length_lt : bytes.length < 2 ^ 64
  deriving DecidableEq

def utf8 (value : String) : List UInt8 := value.toByteArray.data.toList

def beBytes (width value : Nat) : List UInt8 := (leBytes width value).reverse

def beValue (bytes : List UInt8) : Nat := leValue bytes.reverse

/-- `char::is_control` -/
def isControl (c : Char) : Bool := c.toNat < 0x20 || (0x7f ≤ c.toNat && c.toNat < 0xa0)

def validLabel (value : String) : Bool :=
  !value.isEmpty && decide (value.utf8ByteSize ≤ maxLabelLen) && !value.toList.any isControl

/-- A realm, an issuer, an audience or a capability. -/
structure Label where
  value : String
  valid : validLabel value = true
  deriving DecidableEq

theorem utf8_length (value : String) : (utf8 value).length = value.utf8ByteSize := by
  rw [utf8, Array.length_toList]
  exact String.size_toByteArray

theorem utf8_injective : Function.Injective utf8 := fun a b h => by
  rw [← String.toByteArray_inj]
  exact congrArg ByteArray.mk (Array.toList_inj.mp h)

theorem validLabel_length {value : String} (h : validLabel value = true) :
    value.utf8ByteSize ≤ maxLabelLen := by
  unfold validLabel at h
  exact of_decide_eq_true (Bool.and_eq_true_iff.mp (Bool.and_eq_true_iff.mp h).1).2

def Label.slice (label : Label) : Slice where
  bytes := utf8 label.value
  length_lt := by
    rw [utf8_length]
    exact Nat.lt_of_le_of_lt (validLabel_length label.valid) (by decide)

inductive Purpose where
  | session
  | refresh
  | access
  | webSocket
  | internal
  deriving DecidableEq, Repr

def Purpose.name : Purpose → String
  | session => "session"
  | refresh => "refresh"
  | access => "access"
  | webSocket => "websocket"
  | internal => "internal"

def Purpose.slice (purpose : Purpose) : Slice where
  bytes := utf8 purpose.name
  length_lt := by cases purpose <;> decide +kernel

structure Claims where
  subject : String
  audience : Label
  purpose : Purpose
  capabilities : Finset Label
  issuedAt : UInt64
  notBefore : UInt64
  expiresAt : UInt64
  deriving DecidableEq

def Claims.checkShape (claims : Claims) : Result Unit :=
  if !validLabel claims.subject || decide (claims.capabilities.card > maxCapabilities) ||
      decide (claims.issuedAt > claims.notBefore) ||
      decide (claims.notBefore ≥ claims.expiresAt) then
    .error .invalidInput
  else .ok ()

structure SessionBinding where
  id : Vector UInt8 16
  generation : UInt64
  deriving DecidableEq

structure Principal where
  realm : String
  issuer : String
  jti : Vector UInt8 16
  session : Option SessionBinding
  claims : Claims
  deriving DecidableEq

/-- Expected recipient and use. -/
structure Validation where
  audience : Label
  purpose : Purpose
  requiredCapabilities : Finset Label

abbrev Hook := Principal → UInt64 → Result Unit

abbrev KeyId := UInt32
abbrev SecretKey := Vector UInt8 32

/-- The active key and the keys that are retained, each under an id of its own. -/
structure Keyring where
  active : KeyId
  keys : List (KeyId × SecretKey)
  distinct : (keys.map Prod.fst).Nodup
  retained : (keys.lookup active).isSome = true

def Keyring.new (active : KeyId) (keys : List (KeyId × SecretKey)) : Result Keyring :=
  if hdistinct : (keys.map Prod.fst).Nodup then
    if hretained : (keys.lookup active).isSome = true then
      .ok ⟨active, keys, hdistinct, hretained⟩
    else .error .missingActiveKey
  else .error .duplicateKey

def Keyring.get (ring : Keyring) (id : KeyId) : Option SecretKey := ring.keys.lookup id

def Keyring.activeKey (ring : Keyring) : SecretKey := (ring.get ring.active).get ring.retained

def context (parts : List Slice) : List UInt8 :=
  parts.flatMap fun part => beBytes 8 part.bytes.length ++ part.bytes

def tokenContext : Slice := ⟨utf8 "orbit-auth/v1/xchacha20poly1305", by decide +kernel⟩

def KeyId.slice (id : KeyId) : Slice :=
  ⟨beBytes 4 id.toNat, by rw [beBytes, List.length_reverse, Orbit.Atomic.leBytes_length]; decide⟩

def tokenScope (realm issuer audience : Label) (purpose : Purpose) (id : KeyId) : List UInt8 :=
  context [tokenContext, realm.slice, issuer.slice, audience.slice, purpose.slice, KeyId.slice id]

/-- The derivation of keys, the cipher, on a key, a nonce, associated data and a message, and the JSON
encoding of principals. -/
structure Crypto (Key : Type) where
  derive : SecretKey → List UInt8 → Key
  encrypt : Key → List UInt8 → List UInt8 → List UInt8 → Option (List UInt8)
  decrypt : Key → List UInt8 → List UInt8 → List UInt8 → Option (List UInt8)
  toJson : Principal → Option (List UInt8)
  fromJson : List UInt8 → Option Principal

structure Authority where
  realm : Label
  issuer : Label
  keyring : Keyring

structure Validator (Key : Type) where
  realm : Label
  issuer : Label
  validation : Validation
  keys : List (KeyId × Key)

def tokenPrefix : List UInt8 := utf8 "oa1."

/-- The length of the text of a token, as it is checked before the message is encrypted. -/
def wireLen (plaintext : List UInt8) : Nat :=
  tokenPrefix.length + ((headerLen + tagLen + plaintext.length) * 4 + 2) / 3

section

variable {Key : Type} (crypto : Crypto Key)

def Authority.scope (authority : Authority) (audience : Label) (purpose : Purpose) (id : KeyId) :
    List UInt8 := tokenScope authority.realm authority.issuer audience purpose id

def Authority.principal (authority : Authority) (claims : Claims) (session : Option SessionBinding)
    (jti : Vector UInt8 16) : Principal where
  realm := authority.realm.value
  issuer := authority.issuer.value
  jti := jti
  session := session
  claims := claims

/-- `issue_bound`, with the random bytes that the operating system gives, if it does. -/
def Authority.issueBound (authority : Authority) (claims : Claims)
    (session : Option SessionBinding) (jti : Option (Vector UInt8 16))
    (nonce : Option (Vector UInt8 24)) : Result (List UInt8) := do
  claims.checkShape
  let jti ← jti.elim (.error .randomness) .ok
  let nonce ← nonce.elim (.error .randomness) .ok
  let id := authority.keyring.active
  let info := authority.scope claims.audience claims.purpose id
  let key := crypto.derive authority.keyring.activeKey info
  let principal := authority.principal claims session jti
  let plaintext ← (crypto.toJson principal).elim (.error .invalidInput) .ok
  if wireLen plaintext > maxTokenLen then .error .tokenTooLarge
  else do
    let ciphertext ←
      (crypto.encrypt key nonce.toList info plaintext).elim (.error .invalidToken) .ok
    let wire := beBytes 4 id.toNat ++ nonce.toList ++ ciphertext
    .ok (tokenPrefix ++ Orbit.Base64.encode wire)

def Authority.validator (authority : Authority) (validation : Validation) : Validator Key where
  realm := authority.realm
  issuer := authority.issuer
  validation := validation
  keys := authority.keyring.keys.map fun entry =>
    (entry.1, crypto.derive entry.2
      (authority.scope validation.audience validation.purpose entry.1))

def checkSize (token : List UInt8) : Result Unit :=
  if token.length > maxTokenLen then .error .tokenTooLarge
  else if token.isEmpty then .error .invalidToken
  else .ok ()

def stripPrefix (token : List UInt8) : Option (List UInt8) :=
  if token.take tokenPrefix.length = tokenPrefix then some (token.drop tokenPrefix.length) else none

def Validator.decrypt (validator : Validator Key) (token : List UInt8) : Result Principal := do
  checkSize token
  let encoded ← (stripPrefix token).elim (.error .invalidToken) .ok
  let wire ← (Orbit.Base64.decode encoded).elim (.error .invalidToken) .ok
  if wire.length < headerLen + tagLen then .error .invalidToken
  else do
    let id := UInt32.ofNat (beValue (wire.take 4))
    let key ← (validator.keys.lookup id).elim (.error .invalidToken) .ok
    let info := tokenScope validator.realm validator.issuer validator.validation.audience
      validator.validation.purpose id
    let nonce := slice wire 4 24
    let plaintext ←
      (crypto.decrypt key nonce info (wire.drop headerLen)).elim (.error .invalidToken) .ok
    (crypto.fromJson plaintext).elim (.error .invalidToken) .ok

/-- Every static check but the credential's own expiry. -/
def Validator.checkLapsed (validator : Validator Key) (principal : Principal) (now : UInt64) :
    Result Unit :=
  let claims := principal.claims
  match claims.checkShape with
  | .error _ => .error .invalidToken
  | .ok () =>
    if principal.realm ≠ validator.realm.value ∨ principal.issuer ≠ validator.issuer.value ∨
        claims.audience ≠ validator.validation.audience ∨
        claims.purpose ≠ validator.validation.purpose then
      .error .invalidToken
    else if now < claims.notBefore ∨ now < claims.issuedAt then .error .notYetValid
    else if ¬ validator.validation.requiredCapabilities ⊆ claims.capabilities then
      .error .missingCapability
    else .ok ()

def Validator.check (validator : Validator Key) (principal : Principal) (now : UInt64) :
    Result Unit := do
  validator.checkLapsed principal now
  if now ≥ principal.claims.expiresAt then .error .expired else .ok ()

def Validator.validate (validator : Validator Key) (token : List UInt8) (now : UInt64) (hook : Hook) :
    Result Principal := do
  let principal ← validator.decrypt crypto token
  validator.check principal now
  hook principal now
  .ok principal

end

end OrbitAuth
