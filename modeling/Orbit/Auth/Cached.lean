import Orbit.Auth.Caching

/-! Validation with the cache is validation: entries are found by those validators only that would have
made them, and every check is made again. -/

namespace OrbitAuth

open Option

variable {crypto : Crypto SecretKey} {hashes : Hashes} {h : Hashed} {authority authority' : Authority}
  {validation validation' : Validation} {token token' : List UInt8} {now : UInt64}
  {entries : List CachedPrincipal} {entry : CachedPrincipal}

theorem lookup_iff {ring : List (KeyId × SecretKey)} (hdistinct : (ring.map Prod.fst).Nodup)
    (id : KeyId) (key : SecretKey) : ring.lookup id = some key ↔ (id, key) ∈ ring := by
  induction ring with
  | nil => simp
  | cons first rest ih =>
    obtain ⟨id', key'⟩ := first
    rw [List.map_cons, List.nodup_cons] at hdistinct
    rw [List.lookup_cons]
    cases hid : id == id' with
    | true =>
      obtain rfl := eq_of_beq hid
      constructor
      · intro hkey
        obtain rfl := Option.some.inj hkey
        exact List.mem_cons_self
      · intro hmem
        rcases List.mem_cons.mp hmem with heq | hmem
        · exact congrArg some (Prod.mk.inj heq).2.symm
        · exact absurd (List.mem_map_of_mem hmem) hdistinct.1
    | false =>
      refine (ih hdistinct.2).trans ⟨List.mem_cons_of_mem _, fun hmem => ?_⟩
      rcases List.mem_cons.mp hmem with heq | hmem
      · obtain rfl := (Prod.mk.inj heq).1
        rw [beq_self_eq_true] at hid
        cases hid
      · exact hmem

theorem ordered_perm (ring : Keyring) : ring.ordered.Perm ring.keys := List.mergeSort_perm ..

theorem get_eq {ring ring' : Keyring} (heq : ring.ordered = ring'.ordered) (id : KeyId) :
    ring.get id = ring'.get id := by
  have hperm : ring.keys.Perm ring'.keys :=
    (ordered_perm ring).symm.trans (heq ▸ ordered_perm ring')
  refine ext fun key => ?_
  rw [Keyring.get, Keyring.get, lookup_iff ring.distinct, lookup_iff ring'.distinct, hperm.mem_iff]

theorem flatMap_injective {α : Type} {f : α → List UInt8} {n : Nat} (hpos : 0 < n)
    (hlength : ∀ a, (f a).length = n) (hinj : Function.Injective f) {l l' : List α}
    (heq : l.flatMap f = l'.flatMap f) : l = l' := by
  induction l generalizing l' with
  | nil =>
    cases l' with
    | nil => rfl
    | cons a rest =>
      have hsum := congrArg List.length heq
      rw [List.flatMap_nil, List.flatMap_cons, List.length_append, hlength] at hsum
      simp at hsum
      omega
  | cons a rest ih =>
    cases l' with
    | nil =>
      have hsum := congrArg List.length heq
      rw [List.flatMap_nil, List.flatMap_cons, List.length_append, hlength] at hsum
      simp at hsum
      omega
    | cons b rest' =>
      rw [List.flatMap_cons, List.flatMap_cons] at heq
      obtain ⟨hhead, htail⟩ := List.append_inj heq ((hlength a).trans (hlength b).symm)
      rw [hinj hhead, ih htail]

def keyBytes (entry : KeyId × SecretKey) : List UInt8 := beBytes 4 entry.1.toNat ++ entry.2.toList

theorem keyBytes_length (entry : KeyId × SecretKey) : (keyBytes entry).length = 36 := by
  rw [keyBytes, List.length_append, beBytes_length, Vector.length_toList]

theorem keyBytes_injective : Function.Injective keyBytes := by
  rintro ⟨id, key⟩ ⟨id', key'⟩ heq
  obtain ⟨hid, hkey⟩ := List.append_inj heq (by rw [beBytes_length, beBytes_length])
  obtain rfl : id = id' := UInt32.toNat_inj.mp (beBytes_inj id.toNat_lt id'.toNat_lt hid)
  obtain rfl : key = key' := Vector.toList_inj.mp hkey
  rfl

def Authority.cacheKeys (crypto : Crypto SecretKey) (authority : Authority) :
    List (KeyId × SecretKey) :=
  authority.keyring.ordered.map fun entry =>
    (entry.1, crypto.derive entry.2 (authority.cacheInfo entry.1))

theorem seedInput_eq (authority : Authority) : authority.seedInput crypto =
    utf8 "orbit-auth/v1/cache-keyring" ++ (authority.cacheKeys crypto).flatMap keyBytes := by
  rw [Authority.seedInput, Authority.cacheKeys, List.flatMap_map]
  rfl

theorem cacheInfo_injective {id id' : KeyId} (heq : authority.cacheInfo id = authority'.cacheInfo id') :
    authority.realm = authority'.realm ∧ authority.issuer = authority'.issuer ∧ id = id' := by
  have hparts := context_injective heq
  simp only [List.cons.injEq, and_true] at hparts
  obtain ⟨-, hrealm, hissuer, hid⟩ := hparts
  exact ⟨Label.slice_injective hrealm, Label.slice_injective hissuer, KeyId.slice_injective hid⟩

theorem policyInput_eq (validation : Validation) : validation.policyInput =
    context ([cachePolicy, validation.audience.slice, validation.purpose.slice] ++
      validation.capabilities.map Label.slice) := by
  rw [Validation.policyInput, context, context, List.flatMap_append, List.flatMap_map]
  congr 2
  funext capability
  exact List.append_nil _

theorem policyInput_injective (heq : validation.policyInput = validation'.policyInput) :
    validation.audience = validation'.audience ∧ validation.purpose = validation'.purpose ∧
      validation.requiredCapabilities = validation'.requiredCapabilities := by
  rw [policyInput_eq, policyInput_eq] at heq
  have hparts := context_injective heq
  simp only [List.cons_append, List.nil_append, List.cons.injEq, true_and] at hparts
  obtain ⟨haudience, hpurpose, hcapabilities⟩ := hparts
  have hsorted : validation.capabilities = validation'.capabilities :=
    Label.slice_injective.list_map hcapabilities
  refine ⟨Label.slice_injective haudience, Purpose.slice_injective hpurpose, ?_⟩
  rw [← Finset.sort_toFinset validation.requiredCapabilities Label.Before]
  rw [← Finset.sort_toFinset validation'.requiredCapabilities Label.Before]
  exact congrArg List.toFinset hsorted

theorem derived_eq (hinj : h.Injective crypto hashes) {ring ring' : List (KeyId × SecretKey)}
    (hring : ∀ entry ∈ ring, h.derived entry.2 (authority.cacheInfo entry.1))
    (hring' : ∀ entry ∈ ring', h.derived entry.2 (authority'.cacheInfo entry.1))
    (heq : (ring.map fun entry => (entry.1, crypto.derive entry.2 (authority.cacheInfo entry.1))) =
      ring'.map fun entry => (entry.1, crypto.derive entry.2 (authority'.cacheInfo entry.1))) :
    ring = ring' ∧ ∀ entry ∈ ring, authority.cacheInfo entry.1 = authority'.cacheInfo entry.1 := by
  induction ring generalizing ring' with
  | nil =>
    obtain rfl := List.map_eq_nil_iff.mp heq.symm
    exact ⟨rfl, fun _ hentry => absurd hentry List.not_mem_nil⟩
  | cons first rest ih =>
    cases ring' with
    | nil => cases heq
    | cons first' rest' =>
      rw [List.map_cons, List.map_cons] at heq
      obtain ⟨hfirst, hrest⟩ := List.cons.inj heq
      obtain ⟨hid, hderived⟩ := Prod.mk.inj hfirst
      obtain ⟨hkey, hinfo⟩ := hinj.derive _ _ _ _ (hring _ List.mem_cons_self)
        (hring' _ List.mem_cons_self) hderived
      obtain ⟨rfl, hall⟩ := ih (fun entry hentry => hring entry (List.mem_cons_of_mem _ hentry))
        (fun entry hentry => hring' entry (List.mem_cons_of_mem _ hentry)) hrest
      obtain rfl : first = first' := Prod.ext hid hkey
      refine ⟨rfl, fun entry hentry => ?_⟩
      rcases List.mem_cons.mp hentry with rfl | hentry
      · exact hinfo
      · exact hall entry hentry

theorem seed_injective (hinj : h.Injective crypto hashes)
    (hcovers : h.Covers crypto hashes authority validation token)
    (hcovers' : h.Covers crypto hashes authority' validation' token')
    (heq : authority.cacheSeed crypto hashes = authority'.cacheSeed crypto hashes) :
    authority.realm = authority'.realm ∧ authority.issuer = authority'.issuer ∧
      authority.keyring.ordered = authority'.keyring.ordered := by
  have hinput := hinj.sha256 _ _ hcovers.seed hcovers'.seed heq
  rw [seedInput_eq, seedInput_eq] at hinput
  have hkeys : authority.cacheKeys crypto = authority'.cacheKeys crypto :=
    flatMap_injective (by decide) keyBytes_length keyBytes_injective (List.append_cancel_left hinput)
  obtain ⟨hordered, hinfo⟩ := derived_eq hinj
    (fun entry hentry => hcovers.derived entry ((ordered_perm _).mem_iff.mp hentry))
    (fun entry hentry => hcovers'.derived entry ((ordered_perm _).mem_iff.mp hentry)) hkeys
  obtain ⟨key, hkey⟩ := isSome_iff_exists.mp authority.keyring.retained
  have hmem := (ordered_perm authority.keyring).mem_iff.mpr
    ((lookup_iff authority.keyring.distinct _ _).mp hkey)
  obtain ⟨hrealm, hissuer, -⟩ := cacheInfo_injective (hinfo _ hmem)
  exact ⟨hrealm, hissuer, hordered⟩

theorem decrypt_congr {validator validator' : Validator SecretKey}
    (hrealm : validator.realm = validator'.realm) (hissuer : validator.issuer = validator'.issuer)
    (haudience : validator.validation.audience = validator'.validation.audience)
    (hpurpose : validator.validation.purpose = validator'.validation.purpose)
    (hkeys : ∀ id, validator.keys.lookup id = validator'.keys.lookup id) :
    validator.decrypt crypto token = validator'.decrypt crypto token := by
  unfold Validator.decrypt
  simp only [hrealm, hissuer, haudience, hpurpose, hkeys]

theorem cacheKey_injective (hinj : h.Injective crypto hashes)
    (hcovers : h.Covers crypto hashes authority validation token)
    (hcovers' : h.Covers crypto hashes authority' validation' token')
    (heq : hashes.hmac (authority.cachingValidator crypto hashes validation).cacheSecret token =
      hashes.hmac (authority'.cachingValidator crypto hashes validation').cacheSecret token') :
    (authority.validator crypto validation).decrypt crypto token =
      (authority'.validator crypto validation').decrypt crypto token' := by
  obtain ⟨hsecret, rfl⟩ := hinj.hmac _ _ _ _ hcovers.token hcovers'.token heq
  obtain ⟨hseed, hpolicy⟩ := hinj.hmac _ _ _ _ hcovers.policy hcovers'.policy hsecret
  obtain ⟨hrealm, hissuer, hordered⟩ := seed_injective hinj hcovers hcovers' hseed
  obtain ⟨haudience, hpurpose, -⟩ := policyInput_injective hpolicy
  refine decrypt_congr hrealm hissuer haudience hpurpose fun id => ?_
  have hlookup : ∀ (authority : Authority) (validation : Validation),
      (authority.validator crypto validation).keys.lookup id =
        (authority.keyring.get id).map fun secret => crypto.derive secret
          (authority.scope validation.audience validation.purpose id) := fun authority validation =>
    lookup_map (fun id secret => crypto.derive secret
      (authority.scope validation.audience validation.purpose id)) authority.keyring.keys id
  rw [hlookup, hlookup, get_eq hordered, Authority.scope, Authority.scope, hrealm, hissuer,
    haudience, hpurpose]

section

variable {S : Type} {hook : StatefulHook S} {s : S} {ttl : Duration}
  {get : CacheKey → Option CachedPrincipal} {validator : CachingValidator}
  {principal principal' : Principal} {key : CacheKey}

theorem ask_ok (hok : (ask hook principal now s).1 = .ok principal') : principal = principal' := by
  unfold ask at hok
  cases hanswer : (hook principal now s).1 with
  | error e =>
    rw [hanswer] at hok
    cases hok
  | ok _ =>
    rw [hanswer] at hok
    exact Except.ok.inj hok

theorem validateWith_ok {validator : Validator SecretKey}
    (hok : (validator.validateWith crypto token now hook s).1 = .ok principal) :
    validator.decrypt crypto token = .ok principal := by
  unfold Validator.validateWith at hok
  cases hdecrypt : validator.decrypt crypto token with
  | error e =>
    rw [hdecrypt] at hok
    cases hok
  | ok principal' =>
    simp only [hdecrypt, Validator.checkAndAsk] at hok
    cases hcheck : validator.check principal' now with
    | error e =>
      rw [hcheck] at hok
      cases hok
    | ok _ =>
      rw [hcheck] at hok
      rw [ask_ok hok]

theorem validateWith_checkSize {validator : Validator SecretKey} {e : Error}
    (hsize : checkSize token = .error e) :
    validator.validateWith crypto token now hook s = (.error e, s) := by
  unfold Validator.validateWith Validator.decrypt
  rw [hsize]
  rfl

/-- A validation with the cache is one without, and may insert what it has accepted, or it uses the entry
that the cache has under the key of the token. -/
theorem validateCached_cases (validator : CachingValidator) (token : List UInt8) (now : UInt64)
    (get : CacheKey → Option CachedPrincipal) (ttl : Duration) (hook : StatefulHook S) (s : S) :
    let cached := validator.validateCached crypto hashes token now get ttl hook s
    let plain := validator.validateWith crypto token now hook s
    let key := hashes.hmac validator.cacheSecret token
    (cached.result = plain.1 ∧ cached.state = plain.2 ∧
      ∀ entry, cached.inserted = some entry → plain.1 = .ok entry.principal ∧
        entry.key = key ∧ entry.validUntil ≤ entry.principal.claims.expiresAt) ∨
    ∃ entry, get key = some entry ∧ entry.usable key now ttl.secs = true ∧
      cached.result = (validator.checkAndAsk entry.principal now hook s).1 ∧
      cached.state = (validator.checkAndAsk entry.principal now hook s).2 ∧
      cached.inserted = none := by
  intro cached plain key
  have hcached : cached = validator.validateCached crypto hashes token now get ttl hook s := rfl
  unfold CachingValidator.validateCached at hcached
  dsimp only at hcached
  by_cases hsecs : ttl.secs = 0
  · rw [if_pos hsecs] at hcached
    exact .inl ⟨congrArg Cached.result hcached, congrArg Cached.state hcached, fun entry hentry => by
      rw [hcached] at hentry
      cases hentry⟩
  rw [if_neg hsecs] at hcached
  cases hsize : checkSize token with
  | error e =>
    have hkey : validator.cacheKey hashes token = .error e := by
      rw [CachingValidator.cacheKey, hsize]
      rfl
    rw [hkey] at hcached
    have hplain : plain = (.error e, s) := validateWith_checkSize hsize
    rw [hplain, hcached]
    exact .inl ⟨rfl, rfl, fun entry hentry => by cases hentry⟩
  | ok _ =>
    have hkey : validator.cacheKey hashes token = .ok key := by
      rw [CachingValidator.cacheKey, hsize]
      rfl
    rw [hkey] at hcached
    dsimp only at hcached
    cases hfound : (get key).filter fun entry => entry.usable key now ttl.secs with
    | some entry =>
      rw [hfound] at hcached
      obtain ⟨hget, husable⟩ := filter_eq_some_iff.mp hfound
      exact .inr ⟨entry, hget, husable, congrArg Cached.result hcached,
        congrArg Cached.state hcached, congrArg Cached.inserted hcached⟩
    | none =>
      rw [hfound] at hcached
      dsimp only at hcached
      refine .inl ?_
      cases hplain : plain.1 with
      | error e =>
        rw [show (validator.validateWith crypto token now hook s).1 = .error e from hplain] at hcached
        rw [hcached]
        exact ⟨rfl, rfl, fun entry hentry => by cases hentry⟩
      | ok principal =>
        rw [show (validator.validateWith crypto token now hook s).1 = .ok principal from hplain]
          at hcached
        rw [hcached]
        refine ⟨rfl, rfl, fun entry hentry => ?_⟩
        obtain rfl := Option.some.inj hentry
        refine ⟨rfl, rfl, ?_⟩
        dsimp only
        split
        · assumption
        · exact UInt64.le_refl _

/-- The entry is what a validation has made of a token. -/
structure CachedPrincipal.Sound (crypto : Crypto SecretKey) (hashes : Hashes) (h : Hashed)
    (entry : CachedPrincipal) (authority : Authority) (validation : Validation)
    (token : List UInt8) : Prop where
  covers : h.Covers crypto hashes authority validation token
  key : entry.key =
    hashes.hmac (authority.cachingValidator crypto hashes validation).cacheSecret token
  decrypted : (authority.validator crypto validation).decrypt crypto token = .ok entry.principal
  bounded : entry.validUntil ≤ entry.principal.claims.expiresAt

theorem inserted_sound (hentries : Inserted crypto hashes h entries) (hmem : entry ∈ entries) :
    ∃ authority validation token, entry.Sound crypto hashes h authority validation token := by
  induction hentries with
  | empty => exact absurd hmem List.not_mem_nil
  | insert authority validation token now get ttl hook s _ hcovers _ hinsert ih =>
    rcases List.mem_cons.mp hmem with rfl | hmem
    · rcases validateCached_cases (authority.cachingValidator crypto hashes validation) token now get
        ttl hook s with ⟨-, -, hplain⟩ | ⟨_, -, -, -, -, hnone⟩
      · obtain ⟨hok, hkey, hbounded⟩ := hplain entry hinsert
        exact ⟨authority, validation, token, hcovers, hkey, validateWith_ok hok, hbounded⟩
      · rw [hnone] at hinsert
        cases hinsert
    · exact ih hmem

theorem CachedPrincipal.Sound.decrypt_eq (hinj : h.Injective crypto hashes)
    (hcovers : h.Covers crypto hashes authority validation token)
    (hsound : entry.Sound crypto hashes h authority' validation' token')
    (hkey : entry.key =
      hashes.hmac (authority.cachingValidator crypto hashes validation).cacheSecret token) :
    (authority.validator crypto validation).decrypt crypto token = .ok entry.principal := by
  rw [cacheKey_injective hinj hcovers hsound.covers (hkey.symm.trans hsound.key), hsound.decrypted]

theorem usable_iff {ttl : UInt64} : entry.usable key now ttl = true ↔
    entry.key = key ∧ entry.cachedAt ≤ now ∧ now < entry.validUntil ∧
      now < saturatingAdd entry.cachedAt ttl := by
  simp only [CachedPrincipal.usable, Bool.and_eq_true, decide_eq_true_eq, and_assoc]

/-- An entry of the present: not of a later clock, nor of a principal that has expired. -/
def CachedPrincipal.timely (entry : CachedPrincipal) (now : UInt64) : Bool :=
  entry.cachedAt ≤ now && now < entry.principal.claims.expiresAt

theorem CachedPrincipal.Sound.timely {ttl : UInt64}
    (hsound : entry.Sound crypto hashes h authority validation token)
    (husable : entry.usable key now ttl = true) : entry.timely now = true := by
  obtain ⟨-, hcached, hvalid, -⟩ := usable_iff.mp husable
  rw [CachedPrincipal.timely, Bool.and_eq_true, decide_eq_true_eq, decide_eq_true_eq]
  exact ⟨hcached, UInt64.lt_of_lt_of_le hvalid hsound.bounded⟩

theorem validateCached_timely
    (hget : ∀ key entry, get key = some entry →
      ∃ authority validation token, entry.Sound crypto hashes h authority validation token) :
    validator.validateCached crypto hashes token now
        (fun key => (get key).filter fun entry => entry.timely now) ttl hook s =
      validator.validateCached crypto hashes token now get ttl hook s := by
  have hfilter : ∀ key, ((get key).filter fun entry => entry.timely now).filter
      (fun entry => entry.usable key now ttl.secs) =
        (get key).filter fun entry => entry.usable key now ttl.secs := by
    intro key
    cases hentry : get key with
    | none => rfl
    | some entry =>
      obtain ⟨_, _, _, hsound⟩ := hget key entry hentry
      cases husable : entry.usable key now ttl.secs with
      | true => rw [filter_some, if_pos (hsound.timely husable)]
      | false =>
        cases htimely : entry.timely now with
        | true => rw [filter_some, if_pos htimely]
        | false =>
          rw [filter_some, htimely, filter_some, husable]
          rfl
  unfold CachingValidator.validateCached
  simp only [hfilter]

def logged (hook : StatefulHook S) : StatefulHook (S × List (Principal × UInt64)) :=
  fun principal now s =>
    ((hook principal now s.1).1, (hook principal now s.1).2, s.2 ++ [(principal, now)])

theorem validateWith_stateless {validator : Validator SecretKey} (hook : Hook) :
    (validator.validateWith crypto token now (fun principal now s => (hook principal now, s)) s).1 =
      validator.validate crypto token now hook := by
  unfold Validator.validateWith Validator.validate
  cases validator.decrypt crypto token with
  | error e => rfl
  | ok principal =>
    dsimp only
    unfold Validator.checkAndAsk
    rw [ok_bind]
    cases validator.check principal now with
    | error e => rfl
    | ok _ =>
      rw [ok_bind]
      unfold ask
      dsimp only
      cases hook principal now with
      | error e => rfl
      | ok _ => rfl

theorem validateWith_log {validator : Validator SecretKey} (log : List (Principal × UInt64)) :
    (∀ principal, validator.decrypt crypto token = .ok principal →
      validator.check principal now = .ok () →
      (validator.validateWith crypto token now (logged hook) (s, log)).2.2 =
        log ++ [(principal, now)]) ∧
    ((∀ principal, validator.decrypt crypto token = .ok principal →
      validator.check principal now ≠ .ok ()) →
      (validator.validateWith crypto token now (logged hook) (s, log)).2.2 = log) := by
  constructor
  · intro principal hdecrypt hcheck
    simp only [Validator.validateWith, hdecrypt, Validator.checkAndAsk, hcheck, ask, logged]
  · intro hfails
    cases hdecrypt : validator.decrypt crypto token with
    | error e => simp only [Validator.validateWith, hdecrypt]
    | ok principal =>
      cases hcheck : validator.check principal now with
      | error e => simp only [Validator.validateWith, hdecrypt, Validator.checkAndAsk, hcheck]
      | ok _ => exact absurd hcheck (hfails principal hdecrypt)

theorem validateCached_eq (now : UInt64) (ttl : Duration) (hook : StatefulHook S) (s : S)
    (hinj : h.Injective crypto hashes) (hcovers : h.Covers crypto hashes authority validation token)
    (hget : ∀ key entry, get key = some entry →
      ∃ authority validation token, entry.Sound crypto hashes h authority validation token) :
    let validator := authority.cachingValidator crypto hashes validation
    let cached := validator.validateCached crypto hashes token now get ttl hook s
    let plain := validator.validateWith crypto token now hook s
    cached.result = plain.1 ∧ cached.state = plain.2 := by
  intro validator cached plain
  rcases validateCached_cases validator token now get ttl hook s with
    ⟨hresult, hstate, -⟩ | ⟨entry, hentry, husable, hresult, hstate, -⟩
  · exact ⟨hresult, hstate⟩
  · obtain ⟨_, _, _, hsound⟩ := hget _ entry hentry
    have hdecrypt : validator.decrypt crypto token = .ok entry.principal :=
      hsound.decrypt_eq hinj hcovers (usable_iff.mp husable).1
    have hplain : plain = validator.checkAndAsk entry.principal now hook s := by
      change validator.validateWith crypto token now hook s = _
      simp only [Validator.validateWith, hdecrypt]
    rw [hplain]
    exact ⟨hresult, hstate⟩

/-- With a cache that returns only entries that validations have inserted, a validation returns what it
would without, leaves the state of the hook as it would be, and asks the hook once if the token passes
the checks and not at all otherwise; entries of a later clock, or of principals that have expired, are
as good as none. -/
theorem cached_validation_equals_plain (crypto : Crypto SecretKey) (hashes : Hashes) (h : Hashed)
    (hinj : h.Injective crypto hashes) (entries : List CachedPrincipal)
    (hentries : Inserted crypto hashes h entries) (authority : Authority) (validation : Validation)
    (token : List UInt8) (now : UInt64) (get : CacheKey → Option CachedPrincipal) (ttl : Duration)
    (hcovers : h.Covers crypto hashes authority validation token)
    (hget : ∀ key entry, get key = some entry → entry ∈ entries) :
    let validator := authority.cachingValidator crypto hashes validation
    (∀ (S : Type) (hook : StatefulHook S) (s : S),
      let cached := validator.validateCached crypto hashes token now get ttl hook s
      let plain := validator.validateWith crypto token now hook s
      cached.result = plain.1 ∧ cached.state = plain.2 ∧
      validator.validateCached crypto hashes token now
        (fun key => (get key).filter fun entry => entry.timely now) ttl hook s = cached ∧
      let log := (validator.validateCached crypto hashes token now get ttl (logged hook)
        (s, [])).state.2
      (∀ principal, validator.decrypt crypto token = .ok principal →
        validator.check principal now = .ok () → log = [(principal, now)]) ∧
      ((∀ principal, validator.decrypt crypto token = .ok principal →
        validator.check principal now ≠ .ok ()) → log = [])) ∧
    ∀ (S : Type) (hook : Hook) (s : S),
      (validator.validateCached crypto hashes token now get ttl
        (fun principal now s => (hook principal now, s)) s).result =
      validator.validate crypto token now hook := by
  intro validator
  have hfound : ∀ key entry, get key = some entry → ∃ authority validation token,
      entry.Sound crypto hashes h authority validation token := fun key entry hentry =>
    inserted_sound hentries (hget key entry hentry)
  refine ⟨fun S hook s => ?_, fun S hook s => ?_⟩
  · obtain ⟨hresult, hstate⟩ := validateCached_eq now ttl hook s hinj hcovers hfound
    obtain ⟨-, hlog⟩ := validateCached_eq now ttl (logged hook) (s, []) hinj hcovers hfound
    refine ⟨hresult, hstate, validateCached_timely hfound, ?_⟩
    rw [hlog]
    exact validateWith_log []
  · rw [(validateCached_eq now ttl _ s hinj hcovers hfound).1]
    exact validateWith_stateless hook

end

def sealedSample : List UInt8 := jsonSample ++ List.replicate tagLen 0

def tokenSample : List UInt8 :=
  tokenPrefix ++ Orbit.Base64.encode (beBytes 4 7 ++ List.replicate 24 0 ++ sealedSample)

def Crypto.cachingSample : Crypto SecretKey where
  derive secret _ := secret
  encrypt _ _ _ plaintext := some (plaintext ++ List.replicate tagLen 0)
  decrypt _ _ _ ciphertext := if ciphertext = sealedSample then some jsonSample else none
  toJson principal := if principal = .sample then some jsonSample else none
  fromJson plaintext := if plaintext = jsonSample then some .sample else none

def Hashes.sample : Hashes where
  sha256 _ := Vector.replicate 32 0
  hmac _ data := if data = tokenSample then Vector.replicate 32 2 else Vector.replicate 32 1

def Validation.sample : Validation := ⟨.sample, .access, ∅⟩

def Hashed.sample : Hashed where
  derived secret info := secret = Vector.replicate 32 1 ∧ info = Authority.sample.cacheInfo 7
  hashed data := data = Authority.sample.seedInput .cachingSample
  maced key data :=
    key = Authority.sample.cacheSeed .cachingSample .sample ∧ data = Validation.sample.policyInput ∨
    key = (Authority.sample.cachingValidator .cachingSample .sample .sample).cacheSecret ∧
      data = tokenSample

theorem policyInput_sample : Validation.sample.policyInput ≠ tokenSample := by
  intro heq
  have hhead := congrArg List.head? heq
  rw [Validation.policyInput, context, tokenSample] at hhead
  revert hhead
  decide +kernel

theorem covers_sample :
    Hashed.sample.Covers .cachingSample .sample .sample .sample tokenSample where
  derived entry hentry := by
    obtain rfl := List.mem_singleton.mp hentry
    exact ⟨rfl, rfl⟩
  seed := rfl
  policy := .inl ⟨rfl, rfl⟩
  token := .inr ⟨rfl, rfl⟩

theorem injective_sample : Hashed.sample.Injective .cachingSample .sample where
  derive secret info secret' info' h h' _ := ⟨h.1.trans h'.1.symm, h.2.trans h'.2.symm⟩
  sha256 a b ha hb _ := ha.trans hb.symm
  hmac key data key' data' h h' heq := by
    have hne : Hashes.sample.hmac (Authority.sample.cacheSeed .cachingSample .sample)
        Validation.sample.policyInput ≠ Hashes.sample.hmac
          (Authority.sample.cachingValidator .cachingSample .sample .sample).cacheSecret
            tokenSample := by
      simp only [Hashes.sample, if_neg policyInput_sample, if_true]
      decide
    rcases h with ⟨rfl, rfl⟩ | ⟨rfl, rfl⟩ <;> rcases h' with ⟨rfl, rfl⟩ | ⟨rfl, rfl⟩
    · exact ⟨rfl, rfl⟩
    · exact absurd heq hne
    · exact absurd heq.symm hne
    · exact ⟨rfl, rfl⟩

/-- The second time the principal comes out of the cache, and the hook is asked again. -/
theorem cached_validation_equals_plain_sample :
    let validator := Authority.sample.cachingValidator .cachingSample .sample .sample
    let hook : StatefulHook Nat := fun _ _ s => (.ok (), s + 1)
    let first := validator.validateCached .cachingSample .sample tokenSample 5 (fun _ => none) ⟨60, 0⟩
      hook 0
    let second := validator.validateCached .cachingSample .sample tokenSample 6
      (fun _ => first.inserted) ⟨60, 0⟩ hook first.state
    first.inserted.isSome = true ∧ second.inserted = none ∧ second.result = .ok .sample ∧
      second.state = 2 := by
  intro validator hook first second
  have hinserted : first.inserted.isSome = true := by decide +kernel
  obtain ⟨entry, hentry⟩ := isSome_iff_exists.mp hinserted
  have hentries : Inserted .cachingSample .sample .sample [entry] :=
    .insert .sample .sample tokenSample 5 (fun _ => none) ⟨60, 0⟩ hook 0 .empty covers_sample
      (fun _ _ hnone => by cases hnone) hentry
  obtain ⟨hresult, hstate, -⟩ := (cached_validation_equals_plain .cachingSample .sample .sample
    injective_sample [entry] hentries .sample .sample tokenSample 6 (fun _ => first.inserted) ⟨60, 0⟩
    covers_sample fun _ found hfound => List.mem_singleton.mpr
      (Option.some.inj (hfound.symm.trans hentry))).1 Nat hook first.state
  refine ⟨hinserted, by decide +kernel, ?_, ?_⟩
  · rw [hresult]
    decide +kernel
  · rw [hstate]
    decide +kernel

end OrbitAuth
