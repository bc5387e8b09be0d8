import Orbit.Auth.Acceptance
import Mathlib.Data.Finset.Sort
import Mathlib.Data.String.Basic

/-! Validation with a cache of principals.  An entry is looked up under a keyed hash of the token, whose
key is made of all that a validator is prepared with; every check is repeated for an entry that is found. -/

namespace OrbitAuth

/-- The hash and the keyed hash. -/
structure Hashes where
  sha256 : List UInt8 → SecretKey
  hmac : SecretKey → List UInt8 → SecretKey

abbrev CacheKey := SecretKey

def cacheLabel : Slice := ⟨utf8 "cache", by decide +kernel⟩

def cachePolicy : Slice := ⟨utf8 "orbit-auth/v1/cache-policy", by decide +kernel⟩

variable (crypto : Crypto SecretKey) (hashes : Hashes)

/-- The keys in the order of their ids. -/
def Keyring.ordered (ring : Keyring) : List (KeyId × SecretKey) :=
  ring.keys.mergeSort fun a b => a.1.toNat ≤ b.1.toNat

def Authority.cacheInfo (authority : Authority) (id : KeyId) : List UInt8 :=
  context [cacheLabel, authority.realm.slice, authority.issuer.slice, KeyId.slice id]

def Authority.seedInput (authority : Authority) : List UInt8 :=
  utf8 "orbit-auth/v1/cache-keyring" ++ authority.keyring.ordered.flatMap fun entry =>
    beBytes 4 entry.1.toNat ++ (crypto.derive entry.2 (authority.cacheInfo entry.1)).toList

def Authority.cacheSeed (authority : Authority) : SecretKey :=
  hashes.sha256 (authority.seedInput crypto)

def Label.Before (a b : Label) : Prop := a.value ≤ b.value

instance : DecidableRel Label.Before := fun a b => inferInstanceAs (Decidable (a.value ≤ b.value))

instance : IsTrans Label Label.Before := ⟨fun _ _ _ hab hbc => String.le_trans hab hbc⟩

theorem Label.before_antisymm (a b : Label) (hab : a.Before b) (hba : b.Before a) : a = b := by
  obtain ⟨value, hvalid⟩ := a
  obtain ⟨value', hvalid'⟩ := b
  obtain rfl : value = value' := String.le_antisymm hab hba
  rfl

instance : Std.Antisymm Label.Before := ⟨Label.before_antisymm⟩

instance : Std.Total Label.Before := ⟨fun a b => String.le_total a.value b.value⟩

/-- The required capabilities, in their order. -/
def Validation.capabilities (validation : Validation) : List Label :=
  validation.requiredCapabilities.sort Label.Before

/-- What the secret is a keyed hash of: the parts one after the other. -/
def Validation.policyInput (validation : Validation) : List UInt8 :=
  context [cachePolicy, validation.audience.slice, validation.purpose.slice] ++
    validation.capabilities.flatMap fun capability => context [capability.slice]

/-- A validator and the secret of its part of the cache. -/
structure CachingValidator extends Validator SecretKey where
  cacheSecret : SecretKey

def Authority.cachingValidator (authority : Authority) (validation : Validation) :
    CachingValidator where
  toValidator := authority.validator crypto validation
  cacheSecret := hashes.hmac (authority.cacheSeed crypto hashes) validation.policyInput

def CachingValidator.cacheKey (validator : CachingValidator) (token : List UInt8) :
    Result CacheKey := do
  checkSize token
  .ok (hashes.hmac validator.cacheSecret token)

structure CachedPrincipal where
  key : CacheKey
  principal : Principal
  cachedAt : UInt64
  validUntil : UInt64

structure Duration where
  secs : UInt64
  nanos : UInt32

/-- `saturating_add` -/
def saturatingAdd (a b : UInt64) : UInt64 :=
  if a.toNat + b.toNat < 2 ^ 64 then a + b else .ofNat (2 ^ 64 - 1)

/-- Swapped entries, a clock that has gone back and a shortened time to live are rejected. -/
def CachedPrincipal.usable (entry : CachedPrincipal) (key : CacheKey) (now ttl : UInt64) : Bool :=
  entry.key = key && entry.cachedAt ≤ now && now < entry.validUntil &&
    now < saturatingAdd entry.cachedAt ttl

abbrev StatefulHook (S : Type) := Principal → UInt64 → S → Result Unit × S

section

variable {S : Type}

def ask (hook : StatefulHook S) (principal : Principal) (now : UInt64) (s : S) :
    Result Principal × S :=
  ((hook principal now s).1.map fun _ => principal, (hook principal now s).2)

def Validator.checkAndAsk (validator : Validator SecretKey) (principal : Principal) (now : UInt64)
    (hook : StatefulHook S) (s : S) : Result Principal × S :=
  match validator.check principal now with
  | .error e => (.error e, s)
  | .ok () => ask hook principal now s

/-- `validate`, with the state of the hook. -/
def Validator.validateWith (validator : Validator SecretKey) (token : List UInt8) (now : UInt64)
    (hook : StatefulHook S) (s : S) : Result Principal × S :=
  match validator.decrypt crypto token with
  | .error e => (.error e, s)
  | .ok principal => validator.checkAndAsk principal now hook s

/-- What a validation with the cache has done. -/
structure Cached (S : Type) where
  result : Result Principal
  state : S
  inserted : Option CachedPrincipal

def CachingValidator.validateCached (validator : CachingValidator) (token : List UInt8)
    (now : UInt64) (get : CacheKey → Option CachedPrincipal) (ttl : Duration)
    (hook : StatefulHook S) (s : S) : Cached S :=
  let plain := validator.validateWith crypto token now hook s
  if ttl.secs = 0 then ⟨plain.1, plain.2, none⟩
  else
    match validator.cacheKey hashes token with
    | .error e => ⟨.error e, s, none⟩
    | .ok key =>
      match (get key).filter fun entry => entry.usable key now ttl.secs with
      | some entry =>
        let asked := validator.checkAndAsk entry.principal now hook s
        ⟨asked.1, asked.2, none⟩
      | none =>
        match plain.1 with
        | .error e => ⟨.error e, plain.2, none⟩
        | .ok principal =>
          let later := saturatingAdd now ttl.secs
          ⟨.ok principal, plain.2, some
            { key
              principal
              cachedAt := now
              validUntil :=
                if later ≤ principal.claims.expiresAt then later else principal.claims.expiresAt }⟩

/-- The strings that are hashed, and the keys that are derived. -/
structure Hashed where
  derived : SecretKey → List UInt8 → Prop
  hashed : List UInt8 → Prop
  maced : SecretKey → List UInt8 → Prop

/-- What a validation hashes is among them. -/
structure Hashed.Covers (h : Hashed) (authority : Authority) (validation : Validation)
    (token : List UInt8) : Prop where
  derived : ∀ entry ∈ authority.keyring.keys, h.derived entry.2 (authority.cacheInfo entry.1)
  seed : h.hashed (authority.seedInput crypto)
  policy : h.maced (authority.cacheSeed crypto hashes) validation.policyInput
  token : h.maced (authority.cachingValidator crypto hashes validation).cacheSecret token

/-- No two of them have the same hash. -/
structure Hashed.Injective (h : Hashed) : Prop where
  derive : ∀ secret info secret' info', h.derived secret info → h.derived secret' info' →
    crypto.derive secret info = crypto.derive secret' info' → secret = secret' ∧ info = info'
  sha256 : ∀ a b, h.hashed a → h.hashed b → hashes.sha256 a = hashes.sha256 b → a = b
  hmac : ∀ key data key' data', h.maced key data → h.maced key' data' →
    hashes.hmac key data = hashes.hmac key' data' → key = key' ∧ data = data'

/-- The entries that validations have inserted, of any validators, hooks and times, when the cache
returns no others. -/
inductive Inserted (h : Hashed) : List CachedPrincipal → Prop where
  | empty : Inserted h []
  | insert {entries : List CachedPrincipal} {entry : CachedPrincipal} {S : Type}
    (authority : Authority) (validation : Validation) (token : List UInt8) (now : UInt64)
    (get : CacheKey → Option CachedPrincipal) (ttl : Duration) (hook : StatefulHook S) (s : S)
    (hentries : Inserted h entries) (hcovers : h.Covers crypto hashes authority validation token)
    (hget : ∀ key entry, get key = some entry → entry ∈ entries)
    (hinsert : ((authority.cachingValidator crypto hashes validation).validateCached crypto hashes
      token now get ttl hook s).inserted = some entry) : Inserted h (entry :: entries)

end

end OrbitAuth
