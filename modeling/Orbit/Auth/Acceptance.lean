import Orbit.Auth.Token

/-! A token is accepted exactly where it was issued for: under a key ring that retains the key it was
issued with, and in the scope of its realm, issuer, audience and purpose. -/

namespace OrbitAuth

open Option
open Orbit.Atomic (leBytes leBytes_length leValue leValue_leBytes slice)

theorem beBytes_length (width value : Nat) : (beBytes width value).length = width := by
  rw [beBytes, List.length_reverse, leBytes_length]

theorem beValue_beBytes {width value : Nat} (h : value < 256 ^ width) :
    beValue (beBytes width value) = value := by
  rw [beValue, beBytes, List.reverse_reverse, leValue_leBytes h]

theorem beBytes_inj {width a b : Nat} (ha : a < 256 ^ width) (hb : b < 256 ^ width)
    (h : beBytes width a = beBytes width b) : a = b := by
  rw [← beValue_beBytes ha, h, beValue_beBytes hb]

theorem context_injective : Function.Injective context := by
  intro parts parts' h
  induction parts generalizing parts' with
  | nil =>
    cases parts' with
    | nil => rfl
    | cons part' rest' =>
      have hlength := congrArg List.length h
      simp only [context, List.flatMap_nil, List.flatMap_cons, List.length_nil, List.length_append,
        beBytes_length] at hlength
      omega
  | cons part rest ih =>
    cases parts' with
    | nil =>
      have hlength := congrArg List.length h
      simp only [context, List.flatMap_nil, List.flatMap_cons, List.length_nil, List.length_append,
        beBytes_length] at hlength
      omega
    | cons part' rest' =>
      simp only [context, List.flatMap_cons, List.append_assoc] at h
      obtain ⟨hhead, htail⟩ := List.append_inj h (by rw [beBytes_length, beBytes_length])
      have hlength : part.bytes.length = part'.bytes.length :=
        beBytes_inj part.length_lt part'.length_lt hhead
      obtain ⟨hbytes, hrest⟩ := List.append_inj htail hlength
      have hpart : part = part' := by
        obtain ⟨bytes, hlt⟩ := part
        obtain ⟨bytes', hlt'⟩ := part'
        cases hbytes
        rfl
      rw [hpart, ih hrest]

theorem Label.slice_injective : Function.Injective Label.slice := by
  rintro ⟨value, hvalid⟩ ⟨value', hvalid'⟩ h
  have hvalue : value = value' := utf8_injective (congrArg Slice.bytes h)
  subst hvalue
  rfl

theorem Purpose.slice_injective : Function.Injective Purpose.slice := by
  intro a b h
  have hname : a.name = b.name := utf8_injective (congrArg Slice.bytes h)
  revert hname
  cases a <;> cases b <;> decide

theorem KeyId.slice_injective : Function.Injective KeyId.slice := fun a b h =>
  UInt32.toNat_inj.mp (beBytes_inj a.toNat_lt b.toNat_lt (congrArg Slice.bytes h))

theorem tokenScope_injective {realm issuer audience realm' issuer' audience' : Label}
    {purpose purpose' : Purpose} {id id' : KeyId}
    (h : tokenScope realm issuer audience purpose id =
      tokenScope realm' issuer' audience' purpose' id') :
    realm = realm' ∧ issuer = issuer' ∧ audience = audience' ∧ purpose = purpose' ∧ id = id' := by
  have hparts := context_injective h
  simp only [List.cons.injEq, and_true] at hparts
  obtain ⟨-, hrealm, hissuer, haudience, hpurpose, hid⟩ := hparts
  exact ⟨Label.slice_injective hrealm, Label.slice_injective hissuer,
    Label.slice_injective haudience, Purpose.slice_injective hpurpose, KeyId.slice_injective hid⟩

/-- An ideal cipher opens what it encrypted, and what it `made` opens only under the key, the nonce and
the associated data that it was made with; no two secrets or contexts have the same key; and principals
are read back from their encoding. -/
structure Crypto.Ideal {Key : Type} (crypto : Crypto Key)
    (made : Key → List UInt8 → List UInt8 → List UInt8 → Prop) : Prop where
  derive : ∀ secret info secret' info', crypto.derive secret info = crypto.derive secret' info' →
    secret = secret' ∧ info = info'
  json : ∀ principal plaintext, crypto.toJson principal = some plaintext →
    crypto.fromJson plaintext = some principal
  length : ∀ key nonce aad plaintext ciphertext,
    crypto.encrypt key nonce aad plaintext = some ciphertext →
      ciphertext.length = plaintext.length + tagLen
  opens : ∀ key nonce aad plaintext ciphertext,
    crypto.encrypt key nonce aad plaintext = some ciphertext →
      crypto.decrypt key nonce aad ciphertext = some plaintext
  only : ∀ key nonce aad plaintext ciphertext, made key nonce aad plaintext →
    crypto.encrypt key nonce aad plaintext = some ciphertext →
      ∀ key' nonce' aad' plaintext', crypto.decrypt key' nonce' aad' ciphertext = some plaintext' →
        key' = key ∧ nonce' = nonce ∧ aad' = aad

section

variable {Key : Type} {crypto : Crypto Key}
  {made : Key → List UInt8 → List UInt8 → List UInt8 → Prop} {authority issuer : Authority}
  {claims : Claims} {session : Option SessionBinding} {jti : Vector UInt8 16}
  {nonce : Vector UInt8 24} {token plaintext : List UInt8} {validation : Validation}
  {now : UInt64} {hook : Hook} {principal : Principal} {validator : Validator Key}

/-- The encryption that issues a token is one of those that were made. -/
def Authority.Makes (crypto : Crypto Key) (made : Key → List UInt8 → List UInt8 → List UInt8 → Prop)
    (authority : Authority) (claims : Claims) (session : Option SessionBinding)
    (jti : Vector UInt8 16) (nonce : Vector UInt8 24) : Prop :=
  let info := authority.scope claims.audience claims.purpose authority.keyring.active
  ∀ plaintext, crypto.toJson (authority.principal claims session jti) = some plaintext →
    made (crypto.derive authority.keyring.activeKey info) nonce.toList info plaintext

variable {α : Type} {ciphertext : List UInt8}

theorem bind_eq_ok {β : Type} {x : Result α} {f : α → Result β} {b : β} :
    (x >>= f) = .ok b ↔ ∃ a, x = .ok a ∧ f a = .ok b := by
  cases x with
  | error e => exact ⟨fun h => (nomatch h), fun ⟨_, h, _⟩ => (nomatch h)⟩
  | ok a =>
    constructor
    · exact fun h => ⟨a, rfl, h⟩
    · rintro ⟨_, ⟨⟩, h⟩
      exact h

theorem ok_bind {β : Type} {a : α} {f : α → Result β} : ((.ok a : Result α) >>= f) = f a := rfl

theorem elim_eq_ok {o : Option α} {e : Error} {a : α} :
    o.elim (.error e) .ok = (.ok a : Result α) ↔ o = some a := by
  cases o with
  | none => exact ⟨fun h => (nomatch h), fun h => (nomatch h)⟩
  | some b =>
    constructor
    · rintro ⟨⟩
      rfl
    · rintro ⟨⟩
      rfl

theorem ite_error_eq_ok {p : Prop} [Decidable p] {e : Error} {x : Result α} {a : α} :
    (if p then .error e else x) = (.ok a : Result α) ↔ ¬ p ∧ x = .ok a := by
  by_cases hp : p
  · rw [if_pos hp]
    exact ⟨fun h => (nomatch h), fun h => absurd hp h.1⟩
  · rw [if_neg hp]
    exact ⟨fun h => ⟨hp, h⟩, fun h => h.2⟩

/-- What is in a token. -/
structure Issued (crypto : Crypto Key) (authority : Authority) (claims : Claims)
    (session : Option SessionBinding) (jti : Vector UInt8 16) (nonce : Vector UInt8 24)
    (plaintext ciphertext token : List UInt8) : Prop where
  shape : claims.checkShape = .ok ()
  json : crypto.toJson (authority.principal claims session jti) = some plaintext
  fits : wireLen plaintext ≤ maxTokenLen
  sealed : crypto.encrypt (crypto.derive authority.keyring.activeKey
      (authority.scope claims.audience claims.purpose authority.keyring.active)) nonce.toList
      (authority.scope claims.audience claims.purpose authority.keyring.active) plaintext =
    some ciphertext
  text : token = tokenPrefix ++ Orbit.Base64.encode
    (beBytes 4 authority.keyring.active.toNat ++ nonce.toList ++ ciphertext)

theorem issued_of_ok
    (h : authority.issueBound crypto claims session (some jti) (some nonce) = .ok token) :
    ∃ plaintext ciphertext, Issued crypto authority claims session jti nonce plaintext ciphertext
      token := by
  unfold Authority.issueBound at h
  obtain ⟨⟨⟩, hshape, h⟩ := bind_eq_ok.mp h
  obtain ⟨_, ⟨⟩, h⟩ := bind_eq_ok.mp h
  obtain ⟨_, ⟨⟩, h⟩ := bind_eq_ok.mp h
  obtain ⟨plaintext, hjson, h⟩ := bind_eq_ok.mp h
  obtain ⟨hfits, h⟩ := ite_error_eq_ok.mp h
  obtain ⟨ciphertext, hsealed, h⟩ := bind_eq_ok.mp h
  cases h
  exact ⟨plaintext, ciphertext, hshape, elim_eq_ok.mp hjson, Nat.le_of_not_lt hfits,
    elim_eq_ok.mp hsealed, rfl⟩

theorem Issued.length (hideal : crypto.Ideal made)
    (h : Issued crypto authority claims session jti nonce plaintext ciphertext token) :
    token.length = wireLen plaintext := by
  have hlength := hideal.length _ _ _ _ _ h.sealed
  rw [h.text, List.length_append, Orbit.Base64.encode_length, List.length_append, List.length_append,
    beBytes_length, Vector.length_toList, hlength, wireLen, headerLen]
  have hsum : 4 + 24 + (plaintext.length + tagLen) = 4 + 24 + tagLen + plaintext.length := by omega
  rw [hsum]

theorem Issued.checkSize (hideal : crypto.Ideal made)
    (h : Issued crypto authority claims session jti nonce plaintext ciphertext token) :
    checkSize token = .ok () := by
  unfold OrbitAuth.checkSize
  have hfits := h.fits
  rw [← h.length hideal] at hfits
  have hnonempty : ¬ token.isEmpty = true := by
    rw [List.isEmpty_iff, h.text, List.append_eq_nil_iff]
    exact fun hnil => absurd hnil.1 (by decide +kernel)
  rw [if_neg (Nat.not_lt.mpr hfits), if_neg hnonempty]

theorem lookup_map {β γ : Type} (f : KeyId → β → γ) (entries : List (KeyId × β)) (id : KeyId) :
    (entries.map fun entry => (entry.1, f entry.1 entry.2)).lookup id =
      (entries.lookup id).map (f id) := by
  induction entries with
  | nil => rfl
  | cons entry rest ih =>
    rw [List.map_cons, List.lookup_cons, List.lookup_cons]
    cases heq : id == entry.1 with
    | true =>
      rw [eq_of_beq heq]
      rfl
    | false => exact ih

/-- What a validator makes of an issued token: it opens the message with the key that it has under the
id in the header, in its own scope. -/
theorem Issued.decrypt_iff (hideal : crypto.Ideal made)
    (h : Issued crypto authority claims session jti nonce plaintext ciphertext token) :
    ((issuer.validator crypto validation).decrypt crypto token = .ok principal ↔
      ∃ secret message, issuer.keyring.get authority.keyring.active = some secret ∧
        crypto.decrypt (crypto.derive secret
          (issuer.scope validation.audience validation.purpose authority.keyring.active))
          nonce.toList
          (issuer.scope validation.audience validation.purpose authority.keyring.active)
          ciphertext = some message ∧
        crypto.fromJson message = some principal) := by
  have hlength := hideal.length _ _ _ _ _ h.sealed
  have hstrip : stripPrefix token = some (Orbit.Base64.encode
      (beBytes 4 authority.keyring.active.toNat ++ nonce.toList ++ ciphertext)) := by
    rw [stripPrefix, h.text, List.take_left, if_pos rfl, List.drop_left]
  have hid : UInt32.ofNat (beValue ((beBytes 4 authority.keyring.active.toNat ++ nonce.toList ++
      ciphertext).take 4)) = authority.keyring.active := by
    rw [List.append_assoc, List.take_left' (beBytes_length 4 _),
      beValue_beBytes authority.keyring.active.toNat_lt, UInt32.ofNat_toNat]
  have hnonce : slice (beBytes 4 authority.keyring.active.toNat ++ nonce.toList ++ ciphertext) 4 24 =
      nonce.toList := by
    rw [slice, List.append_assoc, List.drop_left' (beBytes_length 4 _),
      List.take_left' nonce.length_toList]
  have hbody : (beBytes 4 authority.keyring.active.toNat ++ nonce.toList ++ ciphertext).drop
      headerLen = ciphertext := by
    refine List.drop_left' ?_
    rw [List.length_append, beBytes_length, nonce.length_toList, headerLen]
  have hlong : ¬ (beBytes 4 authority.keyring.active.toNat ++ nonce.toList ++ ciphertext).length <
      headerLen + tagLen := by
    rw [List.length_append, List.length_append, beBytes_length, nonce.length_toList, hlength,
      headerLen]
    omega
  have hkey : (issuer.validator crypto validation).keys.lookup authority.keyring.active =
      (issuer.keyring.get authority.keyring.active).map fun secret => crypto.derive secret
        (issuer.scope validation.audience validation.purpose authority.keyring.active) :=
    lookup_map (fun id secret => crypto.derive secret
      (issuer.scope validation.audience validation.purpose id)) issuer.keyring.keys _
  have hdecrypt : (issuer.validator crypto validation).decrypt crypto token =
      ((issuer.validator crypto validation).keys.lookup authority.keyring.active).elim
          (.error .invalidToken) .ok >>= fun key =>
        (crypto.decrypt key nonce.toList
          (issuer.scope validation.audience validation.purpose authority.keyring.active)
          ciphertext).elim (.error .invalidToken) .ok >>= fun message =>
        (crypto.fromJson message).elim (.error .invalidToken) .ok := by
    unfold Validator.decrypt
    rw [h.checkSize hideal, hstrip, ok_bind, elim_some, ok_bind, Orbit.Base64.decode_encode,
      elim_some, ok_bind, if_neg hlong, hid, hnonce, hbody]
    rfl
  rw [hdecrypt, hkey]
  constructor
  · intro hok
    obtain ⟨key, hlookup, hrest⟩ := bind_eq_ok.mp hok
    obtain ⟨message, hopen, hjson⟩ := bind_eq_ok.mp hrest
    obtain ⟨secret, hsecret, rfl⟩ := map_eq_some_iff.mp (elim_eq_ok.mp hlookup)
    exact ⟨secret, message, hsecret, elim_eq_ok.mp hopen, elim_eq_ok.mp hjson⟩
  · rintro ⟨secret, message, hsecret, hopen, hjson⟩
    rw [hsecret, map_some, elim_some]
    refine bind_eq_ok.mpr ⟨_, rfl, bind_eq_ok.mpr ⟨message, ?_, ?_⟩⟩
    · rw [hopen]
      rfl
    · rw [hjson]
      rfl

theorem shape_times (h : claims.checkShape = .ok ()) : claims.issuedAt ≤ claims.notBefore := by
  have hshape := (ite_error_eq_ok.mp h).1
  simp only [Bool.or_eq_true, decide_eq_true_eq, not_or] at hshape
  exact UInt64.not_lt.mp hshape.1.2

theorem checkLapsed_iff (hshape : principal.claims.checkShape = .ok ()) :
    validator.checkLapsed principal now = .ok () ↔
      (principal.realm = validator.realm.value ∧ principal.issuer = validator.issuer.value ∧
        principal.claims.audience = validator.validation.audience ∧
        principal.claims.purpose = validator.validation.purpose) ∧
      (principal.claims.notBefore ≤ now ∧ principal.claims.issuedAt ≤ now) ∧
        validator.validation.requiredCapabilities ⊆ principal.claims.capabilities := by
  unfold Validator.checkLapsed
  dsimp only
  rw [hshape]
  dsimp only
  rw [ite_error_eq_ok, ite_error_eq_ok, ite_error_eq_ok]
  simp only [not_or, ne_eq, not_not, UInt64.not_lt, and_true]

theorem check_iff (hshape : principal.claims.checkShape = .ok ()) :
    validator.check principal now = .ok () ↔
      (principal.realm = validator.realm.value ∧ principal.issuer = validator.issuer.value ∧
        principal.claims.audience = validator.validation.audience ∧
        principal.claims.purpose = validator.validation.purpose) ∧
      (principal.claims.notBefore ≤ now ∧ now < principal.claims.expiresAt) ∧
        validator.validation.requiredCapabilities ⊆ principal.claims.capabilities := by
  unfold Validator.check
  rw [bind_eq_ok]
  simp only [checkLapsed_iff hshape, ite_error_eq_ok, ge_iff_le, UInt64.not_le, and_true,
    exists_const]
  have hissued := shape_times hshape
  constructor
  · rintro ⟨⟨hscope, ⟨hafter, -⟩, hneeds⟩, hbefore⟩
    exact ⟨hscope, ⟨hafter, hbefore⟩, hneeds⟩
  · rintro ⟨hscope, ⟨hafter, hbefore⟩, hneeds⟩
    exact ⟨⟨hscope, ⟨hafter, UInt64.le_trans hissued hafter⟩, hneeds⟩, hbefore⟩

theorem principal_check_iff (hshape : claims.checkShape = .ok ()) :
    (issuer.validator crypto validation).check (authority.principal claims session jti) now =
        .ok () ↔
      (authority.realm.value = issuer.realm.value ∧ authority.issuer.value = issuer.issuer.value ∧
        claims.audience = validation.audience ∧ claims.purpose = validation.purpose) ∧
      (claims.notBefore ≤ now ∧ now < claims.expiresAt) ∧
        validation.requiredCapabilities ⊆ claims.capabilities := by
  have hissued : (authority.principal claims session jti).claims.checkShape = .ok () := hshape
  exact check_iff hissued

theorem Issued.opens_iff (hideal : crypto.Ideal made)
    (hmade : authority.Makes crypto made claims session jti nonce)
    (h : Issued crypto authority claims session jti nonce plaintext ciphertext token) :
    (issuer.validator crypto validation).decrypt crypto token = .ok principal ↔
      issuer.keyring.get authority.keyring.active = some authority.keyring.activeKey ∧
        authority.realm = issuer.realm ∧ authority.issuer = issuer.issuer ∧
        claims.audience = validation.audience ∧ claims.purpose = validation.purpose ∧
        principal = authority.principal claims session jti := by
  rw [h.decrypt_iff hideal]
  constructor
  · rintro ⟨secret, message, hsecret, hopen, hjson⟩
    obtain ⟨hkey, -, hinfo⟩ := hideal.only _ _ _ _ _ (hmade plaintext h.json) h.sealed _ _ _ _ hopen
    obtain ⟨hsame, -⟩ := hideal.derive _ _ _ _ hkey
    obtain ⟨hrealm, hissuer, haudience, hpurpose, -⟩ := tokenScope_injective hinfo
    subst hsame
    have hmessage := hideal.opens _ _ _ _ _ h.sealed
    rw [hinfo] at hopen
    rw [hmessage] at hopen
    cases hopen
    rw [hideal.json _ _ h.json] at hjson
    exact ⟨hsecret, hrealm.symm, hissuer.symm, haudience.symm, hpurpose.symm,
      (Option.some.inj hjson).symm⟩
  · rintro ⟨hsecret, hrealm, hissuer, haudience, hpurpose, rfl⟩
    refine ⟨authority.keyring.activeKey, plaintext, hsecret, ?_, hideal.json _ _ h.json⟩
    rw [← haudience, ← hpurpose]
    unfold Authority.scope
    rw [← hrealm, ← hissuer]
    exact hideal.opens _ _ _ _ _ h.sealed

theorem Issued.validate_iff (hideal : crypto.Ideal made)
    (hmade : authority.Makes crypto made claims session jti nonce)
    (h : Issued crypto authority claims session jti nonce plaintext ciphertext token) :
    (issuer.validator crypto validation).validate crypto token now hook = .ok principal ↔
      issuer.keyring.get authority.keyring.active = some authority.keyring.activeKey ∧
        authority.realm = issuer.realm ∧ authority.issuer = issuer.issuer ∧
        claims.audience = validation.audience ∧ claims.purpose = validation.purpose ∧
        validation.requiredCapabilities ⊆ claims.capabilities ∧
        claims.notBefore ≤ now ∧ now < claims.expiresAt ∧
        principal = authority.principal claims session jti ∧ hook principal now = .ok () := by
  unfold Validator.validate
  rw [bind_eq_ok]
  constructor
  · rintro ⟨opened, hopened, hrest⟩
    obtain ⟨⟨⟩, hcheck, hrest⟩ := bind_eq_ok.mp hrest
    obtain ⟨⟨⟩, hhook, hrest⟩ := bind_eq_ok.mp hrest
    cases hrest
    obtain ⟨hsecret, hrealm, hissuer, haudience, hpurpose, rfl⟩ := (h.opens_iff hideal hmade).mp hopened
    obtain ⟨-, ⟨hafter, hbefore⟩, hneeds⟩ := (principal_check_iff h.shape).mp hcheck
    exact ⟨hsecret, hrealm, hissuer, haudience, hpurpose, hneeds, hafter, hbefore, rfl, hhook⟩
  · rintro ⟨hsecret, hrealm, hissuer, haudience, hpurpose, hneeds, hafter, hbefore, rfl, hhook⟩
    refine ⟨_, (h.opens_iff hideal hmade).mpr ⟨hsecret, hrealm, hissuer, haudience, hpurpose, rfl⟩,
      bind_eq_ok.mpr ⟨(), (principal_check_iff h.shape).mpr ⟨⟨?_, ?_, haudience, hpurpose⟩, ⟨hafter, hbefore⟩,
        hneeds⟩, bind_eq_ok.mpr ⟨(), hhook, rfl⟩⟩⟩
    · exact congrArg Label.value hrealm
    · exact congrArg Label.value hissuer

/-- A token is accepted with the claims and the binding that it was issued with, and by those
validators only that were made for it: of an authority of the same realm and issuer that retains the
key, for the same audience and purpose, and for capabilities that were claimed, within the time of the
token and as the hook lets it.  Every token that is issued is short enough to be read, and neither lists
of byte strings nor scopes are mistaken for one another. -/
theorem token_accepted_where_issued {Key : Type} (crypto : Crypto Key)
    (made : Key → List UInt8 → List UInt8 → List UInt8 → Prop) (hideal : crypto.Ideal made) :
    (∀ (authority issuer : Authority) (claims : Claims) (session : Option SessionBinding)
        (jti : Vector UInt8 16) (nonce : Vector UInt8 24) (token : List UInt8)
        (validation : Validation) (now : UInt64) (hook : Hook) (principal : Principal),
      authority.issueBound crypto claims session (some jti) (some nonce) = .ok token →
      authority.Makes crypto made claims session jti nonce →
      ((issuer.validator crypto validation).validate crypto token now hook = .ok principal ↔
        issuer.keyring.get authority.keyring.active = some authority.keyring.activeKey ∧
          authority.realm = issuer.realm ∧ authority.issuer = issuer.issuer ∧
          claims.audience = validation.audience ∧ claims.purpose = validation.purpose ∧
          validation.requiredCapabilities ⊆ claims.capabilities ∧
          claims.notBefore ≤ now ∧ now < claims.expiresAt ∧
          principal = authority.principal claims session jti ∧ hook principal now = .ok ())) ∧
    (∀ (authority : Authority) (claims : Claims) (session : Option SessionBinding)
        (jti : Vector UInt8 16) (nonce : Vector UInt8 24) (token : List UInt8),
      authority.issueBound crypto claims session (some jti) (some nonce) = .ok token →
        checkSize token = .ok ()) ∧
    Function.Injective context ∧
    ∀ (realm issuer audience realm' issuer' audience' : Label) (purpose purpose' : Purpose)
        (id id' : KeyId),
      tokenScope realm issuer audience purpose id =
          tokenScope realm' issuer' audience' purpose' id' →
        realm = realm' ∧ issuer = issuer' ∧ audience = audience' ∧ purpose = purpose' ∧ id = id' := by
  refine ⟨fun authority issuer claims session jti nonce token validation now hook principal hissue
    hmade => ?_, fun authority claims session jti nonce token hissue => ?_, context_injective,
    fun _ _ _ _ _ _ _ _ _ _ => tokenScope_injective⟩
  · obtain ⟨plaintext, ciphertext, h⟩ := issued_of_ok hissue
    exact h.validate_iff hideal hmade
  · obtain ⟨plaintext, ciphertext, h⟩ := issued_of_ok hissue
    exact h.checkSize hideal

end

def Label.sample : Label := ⟨"api", by decide +kernel⟩

def Claims.sample : Claims where
  subject := "ann"
  audience := .sample
  purpose := .access
  capabilities := {.sample}
  issuedAt := 1
  notBefore := 1
  expiresAt := 9

def Authority.sample : Authority where
  realm := .sample
  issuer := .sample
  keyring :=
    { active := 7
      keys := [(7, Vector.replicate 32 1)]
      distinct := by decide
      retained := by decide }

def Principal.sample : Principal :=
  Authority.sample.principal .sample none (Vector.replicate 16 0)

def jsonSample : List UInt8 :=
  utf8 ("\x7b\"realm\":\"api\",\"issuer\":\"api\",\"jti\":[0,0,0,0,0,0,0,0,0,0,0,0,0,0,0,0]," ++
    "\"claims\":\x7b\"subject\":\"ann\",\"audience\":\"api\",\"purpose\":\"access\"," ++
    "\"capabilities\":[\"api\"],\"issued_at\":1,\"not_before\":1,\"expires_at\":9\x7d\x7d")

def Seal.sample : (SecretKey × List UInt8) × List UInt8 × List UInt8 :=
  let info := Authority.sample.scope .sample .access 7
  ((Vector.replicate 32 1, info), List.replicate 24 0, info)

def tagSample (place : (SecretKey × List UInt8) × List UInt8 × List UInt8) : List UInt8 :=
  List.replicate tagLen (if place = Seal.sample then 0 else 1)

def Crypto.sample : Crypto (SecretKey × List UInt8) where
  derive secret info := (secret, info)
  encrypt key nonce aad plaintext := some (plaintext ++ tagSample (key, nonce, aad))
  decrypt key nonce aad ciphertext :=
    if ciphertext.drop (ciphertext.length - tagLen) = tagSample (key, nonce, aad) then
      some (ciphertext.take (ciphertext.length - tagLen))
    else none
  toJson principal := if principal = .sample then some jsonSample else none
  fromJson plaintext := if plaintext = jsonSample then some .sample else none

theorem tagSample_length (place : (SecretKey × List UInt8) × List UInt8 × List UInt8) :
    (tagSample place).length = tagLen := List.length_replicate

theorem ideal_sample : Crypto.sample.Ideal fun key nonce aad _ => (key, nonce, aad) = Seal.sample where
  derive _ _ _ _ h := Prod.mk.inj h
  json principal plaintext h := by
    obtain ⟨hsample, hjson⟩ := ite_none_right_eq_some.mp h
    rw [← Option.some.inj hjson, hsample]
    simp only [Crypto.sample, if_true]
  length key nonce aad plaintext ciphertext h := by
    cases h
    rw [List.length_append, tagSample_length]
  opens key nonce aad plaintext ciphertext h := by
    cases h
    have hlength : (plaintext ++ tagSample (key, nonce, aad)).length - tagLen = plaintext.length := by
      rw [List.length_append, tagSample_length, Nat.add_sub_cancel]
    simp only [Crypto.sample, hlength, List.drop_left, List.take_left, if_true]
  only key nonce aad plaintext ciphertext hmade h key' nonce' aad' plaintext' hopen := by
    cases h
    have hlength : (plaintext ++ tagSample (key, nonce, aad)).length - tagLen = plaintext.length := by
      rw [List.length_append, tagSample_length, Nat.add_sub_cancel]
    simp only [Crypto.sample, hlength, List.drop_left] at hopen
    obtain ⟨htag, -⟩ := ite_none_right_eq_some.mp hopen
    have hsame : (key', nonce', aad') = Seal.sample := by
      by_contra hne
      rw [hmade, tagSample, tagSample, if_pos rfl, if_neg hne] at htag
      exact absurd htag (by decide)
    have hall := hsame.trans hmade.symm
    simp only [Prod.mk.injEq] at hall
    exact hall

theorem token_accepted_where_issued_sample : ∃ token,
    Authority.sample.issueBound .sample .sample none (some (Vector.replicate 16 0))
        (some (Vector.replicate 24 0)) = .ok token ∧
      (Authority.sample.validator .sample ⟨.sample, .access, ∅⟩).validate .sample token 5
        (fun _ _ => .ok ()) = .ok .sample := by
  have hissue : ∃ token, Authority.sample.issueBound .sample .sample none
      (some (Vector.replicate 16 0)) (some (Vector.replicate 24 0)) = .ok token := by
    have hjson : Crypto.sample.toJson (Authority.sample.principal .sample none
        (Vector.replicate 16 0)) = some jsonSample := by
      have hprincipal : Authority.sample.principal .sample none (Vector.replicate 16 0) = .sample := rfl
      rw [hprincipal]
      simp only [Crypto.sample, if_true]
    have hshape : Claims.sample.checkShape = .ok () := by decide +kernel
    have hfits : ¬ wireLen jsonSample > maxTokenLen := by decide +kernel
    unfold Authority.issueBound
    simp only [hshape, ok_bind, elim_some, hjson, if_neg hfits]
    exact ⟨_, rfl⟩
  obtain ⟨token, hissue⟩ := hissue
  refine ⟨token, hissue, ((token_accepted_where_issued .sample _ ideal_sample).1 .sample .sample
    .sample none _ _ token ⟨.sample, .access, ∅⟩ 5 (fun _ _ => .ok ()) .sample hissue ?_).mpr ?_⟩
  · intro plaintext _
    rfl
  · exact ⟨rfl, rfl, rfl, rfl, rfl, Finset.empty_subset _, by decide, by decide, rfl, rfl⟩

end OrbitAuth
