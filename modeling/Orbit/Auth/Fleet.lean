import Orbit.Auth.Sessions

/-! What a fleet does with its sessions, one call after the other: a call that writes has the lock of the
table, and a check reads the table when nobody writes, or a view that its handle has kept. -/

namespace OrbitAuth

/-! ### Checks -/

def Record.checkLive (r : Record) (now : UInt64) : Result Unit :=
  if r.status = statusRevoked then .error .revoked
  else if r.status ≠ statusSession then .error .policyUnavailable
  else if r.expiresAt ≤ now then .error .expired
  else if now < r.createdAt then .error .notYetValid
  else .ok ()

def Record.checkMetadata (r : Record) (principal : Principal) (now : UInt64) : Result Unit := do
  r.checkLive now
  if principal.claims.issuedAt < r.createdAt ∨ r.expiresAt < principal.claims.expiresAt then
    .error .invalidToken
  else
    match principal.session with
    | none => .error .invalidToken
    | some binding =>
      if principal.claims.purpose = .refresh ∧ binding.generation ≠ r.generation then
        .error .replayed
      else .ok ()

def Record.checkRecord (r : Record) (subject : Mac) (principal : Principal) (now : UInt64) :
    Result Unit :=
  if r.subject ≠ subject then .error .invalidToken else r.checkMetadata principal now

/-- A principal whose shape a validator has checked. -/
structure Shaped extends Principal where
  shape : claims.checkShape = .ok ()

theorem valid_of_shape {claims : Claims} (h : claims.checkShape = .ok ()) :
    validLabel claims.subject = true := by
  unfold Claims.checkShape at h
  split at h
  · cases h
  · rename_i hshape
    simp only [Bool.or_eq_true, not_or, Bool.not_eq_true, Bool.not_eq_false'] at hshape
    exact hshape.1.1.1

def Shaped.subject (principal : Shaped) : Label :=
  ⟨principal.claims.subject, valid_of_shape principal.shape⟩

/-- A session as a handle has found it in the table, and whose it is. -/
structure SessionView where
  snapshot : Snapshot
  subject : String

def StateTable.unchanged (p : RecordProtection) (t : StateTable) (s : Snapshot) : Bool :=
  if s.index < t.capacity then
    match p.policy with
    | .unprotected => (t.slots s.index).revision = s.revision
    | .blake3 | .encrypted => (t.slots s.index).revision ≠ 0 &&
        (t.slots s.index).revision = s.revision && (t.slots s.index).wire s.revision = s.wire
  else false

namespace FleetAuth

variable (auth : FleetAuth)

def checkScopeLapsed (principal : Principal) (now : UInt64) : Result Unit :=
  if principal.realm ≠ auth.realm.value ∨ principal.issuer ≠ auth.issuer.value then
    .error .invalidToken
  else if now < principal.claims.notBefore ∨ now < principal.claims.issuedAt then
    .error .notYetValid
  else .ok ()

def checkScope (principal : Principal) (now : UInt64) : Result Unit := do
  auth.checkScopeLapsed principal now
  if principal.claims.expiresAt ≤ now then .error .expired else .ok ()

/-- What is found in the table when no view of the session is left. -/
def checkFound (t : StateTable) (id : Vector UInt8 16) (principal : Shaped) (now : UInt64) :
    Result Unit × Option SessionView :=
  match t.find auth.protection (auth.sessionKey id) with
  | .error e => (.error e, none)
  | .ok none => (.error .revoked, none)
  | .ok (some snapshot) =>
    match snapshot.record.checkRecord (auth.subjectTag principal.subject) principal.toPrincipal now with
    | .error e => (.error e, none)
    | .ok () => (.ok (), some ⟨snapshot, principal.claims.subject⟩)

/-- `check_session`, with the view that the handle has of the session. -/
def checkSession (t : StateTable) (view : Option SessionView) (id : Vector UInt8 16)
    (principal : Shaped) (now : UInt64) : Result Unit × Option SessionView :=
  match view with
  | some v =>
    if t.unchanged auth.protection v.snapshot then
      if v.subject ≠ principal.claims.subject then (.error .invalidToken, some v)
      else (v.snapshot.record.checkMetadata principal.toPrincipal now, some v)
    else auth.checkFound t id principal now
  | none => auth.checkFound t id principal now

/-- `check`, or `check_lapsed`. -/
def check (lapsed : Bool) (t : StateTable) (view : Option SessionView) (id : Vector UInt8 16)
    (principal : Shaped) (now : UInt64) : Result Unit × Option SessionView :=
  match if lapsed then auth.checkScopeLapsed principal.toPrincipal now
    else auth.checkScope principal.toPrincipal now with
  | .error e => (.error e, view)
  | .ok () => auth.checkSession t view id principal now

def session (t : StateTable) (id : Vector UInt8 16) (subject : String) (now : UInt64) :
    Result Session :=
  if h : validLabel subject = true then
    match t.find auth.protection (auth.sessionKey id) with
    | .error e => .error e
    | .ok none => .error .revoked
    | .ok (some snapshot) =>
      if snapshot.record.subject ≠ auth.subjectTag ⟨subject, h⟩ then .error .invalidInput
      else (snapshot.record.checkLive now).map fun _ => auth.handle id subject snapshot.record
  else .error .invalidInput

end FleetAuth

/-! ### Writes -/

section

variable (p : RecordProtection)

/-- `write`, which fails where the lock cannot be taken. -/
def StateTable.write {α : Type} (t : StateTable) (locks : Bool)
    (f : StateTable → StateTable × Result α) : StateTable × Result α :=
  if locks then f t else (t, .error .policyUnavailable)

/-- The record of the key is found, and what `next` makes of it is stored, if it is to be stored. -/
def StateTable.rewrite (key : StoreKey) (getrandom : Randomness)
    (next : Record → Result (Record × Bool)) (t : StateTable) : StateTable × Result Record :=
  match t.find p key with
  | .error e => (t, .error e)
  | .ok none => (t, .error .revoked)
  | .ok (some s) =>
    match next s.record with
    | .error e => (t, .error e)
    | .ok (record, false) => (t, .ok record)
    | .ok (record, true) =>
      match t.storeAt p s.index record getrandom with
      | .error e => (t, .error e)
      | .ok t => (t, .ok record)

def StateTable.extendEach (getrandom : Randomness) : List (Snapshot × UInt64) → StateTable →
    StateTable × Result Nat
  | [], t => (t, .ok 0)
  | (session, target) :: rest, t =>
    if session.record.expiresAt < target then
      match t.storeAt p session.index { session.record with expiresAt := target } getrandom with
      | .error e => (t, .error e)
      | .ok t =>
        let r := t.extendEach getrandom rest
        (r.1, r.2.map (· + 1))
    else t.extendEach getrandom rest

end

def Record.revoked (now : UInt64) (r : Record) : Result (Record × Bool) :=
  if r.status ≠ statusSession ∧ r.status ≠ statusRevoked then .error .policyUnavailable
  else if now < r.createdAt then .error .notYetValid
  else .ok ({ r with status := statusRevoked }, true)

def Record.extended (subject : Mac) (now expiresAt : UInt64) (r : Record) : Result (Record × Bool) :=
  if r.subject ≠ subject then .error .invalidInput
  else do
    r.checkLive now
    if expiresAt < r.expiresAt then .error .invalidInput
    else .ok ({ r with expiresAt }, decide (r.expiresAt < expiresAt))

def Record.refreshed (subject : Mac) (principal : Principal) (now expiresAt : UInt64) (r : Record) :
    Result (Record × Bool) := do
  r.checkRecord subject principal now
  if expiresAt < r.expiresAt then .error .invalidInput
  else if r.generation.toNat + 1 < 2 ^ 64 then
    .ok ({ r with generation := r.generation + 1, expiresAt }, true)
  else .error .policyUnavailable

theorem replayName_length : (utf8 "replay").length < 2 ^ 64 := by decide +kernel

namespace FleetAuth

variable (auth : FleetAuth) {Key : Type}

def replayKey (jti : Vector UInt8 16) : StoreKey :=
  auth.crypto.mac auth.stateKey (context [⟨_, replayName_length⟩, ⟨jti.toList, id_length jti⟩])

def revokeSession (id : Vector UInt8 16) (now : UInt64) (locks : Bool) (getrandom : Randomness)
    (t : StateTable) : StateTable × Result Unit :=
  let r := t.write locks (StateTable.rewrite auth.protection (auth.sessionKey id) getrandom
    (Record.revoked now))
  (r.1, r.2.map fun _ => ())

def revokeSubjectSessions (subject : String) (now : UInt64) (locks : Bool) (getrandom : Randomness)
    (t : StateTable) : StateTable × Result Nat :=
  if h : validLabel subject = true then
    t.write locks fun t =>
      match t.subjectSessions auth.protection (auth.subjectTag ⟨subject, h⟩) now with
      | .error e => (t, .error e)
      | .ok live =>
        let r := t.revokeEach auth.protection getrandom live
        (r.1, r.2.map fun _ => live.length)
  else (t, .error .invalidInput)

def extendSession (id : Vector UInt8 16) (subject : String) (now expiresAt : UInt64) (locks : Bool)
    (getrandom : Randomness) (t : StateTable) : StateTable × Result Session :=
  if h : now < expiresAt ∧ validLabel subject = true then
    let r := t.write locks (StateTable.rewrite auth.protection (auth.sessionKey id) getrandom
      (Record.extended (auth.subjectTag ⟨subject, h.2⟩) now expiresAt))
    (r.1, r.2.map fun record => auth.handle id subject record)
  else (t, .error .invalidInput)

def extendSubjectSessions (subject : String) (now : UInt64) (horizon : UInt64 → UInt64 → UInt64)
    (locks : Bool) (getrandom : Randomness) (t : StateTable) : StateTable × Result Nat :=
  if h : validLabel subject = true then
    t.write locks fun t =>
      match t.subjectSessions auth.protection (auth.subjectTag ⟨subject, h⟩) now with
      | .error e => (t, .error e)
      | .ok live =>
        let targets := live.map fun session =>
          (session, horizon session.record.createdAt session.record.expiresAt)
        if targets.any fun (session, target) => target < session.record.expiresAt || target ≤ now then
          (t, .error .invalidInput)
        else t.extendEach auth.protection getrandom targets
  else (t, .error .invalidInput)

/-- `refresh`; the hook is what the session is checked with before the lock is taken. -/
def refresh (crypto : Crypto Key) (validator : Validator Key) (token : List UInt8)
    (now expiresAt : UInt64) (hook : Hook) (locks : Bool) (getrandom : Randomness) (t : StateTable) :
    StateTable × Result Session :=
  if validator.validation.purpose ≠ .refresh then (t, .error .invalidInput)
  else
    match validator.validate crypto token now hook with
    | .error e => (t, .error e)
    | .ok principal =>
      match principal.session with
      | none => (t, .error .invalidToken)
      | some binding =>
        if h : principal.claims.checkShape = .ok () then
          let r := t.write locks (StateTable.rewrite auth.protection (auth.sessionKey binding.id) getrandom
            (Record.refreshed (auth.subjectTag ⟨_, valid_of_shape h⟩) principal now expiresAt))
          (r.1, r.2.map fun record => auth.handle binding.id principal.claims.subject record)
        -- `validate` has checked the shape
        else (t, .error .invalidToken)

/-- What the guard against replays checks of the session, under the lock. -/
def checkBound (t : StateTable) (principal : Shaped) (now : UInt64) : Result Unit :=
  match principal.session with
  | none => .ok ()
  | some binding =>
    match t.find auth.protection (auth.sessionKey binding.id) with
    | .error e => .error e
    | .ok none => .error .revoked
    | .ok (some s) => s.record.checkRecord (auth.subjectTag principal.subject) principal.toPrincipal now

/-- `check` of the guard against replays. -/
def consume (principal : Shaped) (now : UInt64) (locks : Bool) (getrandom : Randomness)
    (t : StateTable) : StateTable × Result Unit :=
  match auth.checkScope principal.toPrincipal now with
  | .error e => (t, .error e)
  | .ok () =>
    t.write locks fun t =>
      match auth.checkBound t principal now with
      | .error e => (t, .error e)
      | .ok () =>
        match t.find auth.protection (auth.replayKey principal.jti) with
        | .error e => (t, .error e)
        | .ok (some _) => (t, .error .replayed)
        | .ok none =>
          match t.insert auth.protection ⟨auth.replayKey principal.jti, ⟨0, 0, 0, 0⟩, now,
            principal.claims.expiresAt, 0, statusConsumed⟩ now getrandom with
          | .error e => (t, .error e)
          | .ok t => (t, .ok ())

end FleetAuth

/-! ### Runs -/

/-- A table, and the views that each handle has kept of sessions. -/
structure AuthWorld where
  table : StateTable
  views : Nat × Vector UInt8 16 → Option SessionView

inductive AuthCall (Key : Type) where
  | create (subject : String) (now expiresAt : UInt64) (limit : Option ℕ+)
    (id : Option (Vector UInt8 16)) (locks : Bool) (getrandom : Randomness)
  | revoke (id : Vector UInt8 16) (now : UInt64) (locks : Bool) (getrandom : Randomness)
  | revokeSubject (subject : String) (now : UInt64) (locks : Bool) (getrandom : Randomness)
  | extend (id : Vector UInt8 16) (subject : String) (now expiresAt : UInt64) (locks : Bool)
    (getrandom : Randomness)
  | extendSubject (subject : String) (now : UInt64) (horizon : UInt64 → UInt64 → UInt64) (locks : Bool)
    (getrandom : Randomness)
  | refresh (validator : Validator Key) (token : List UInt8) (now expiresAt : UInt64) (hook : Hook)
    (locks : Bool) (getrandom : Randomness)
  | consume (principal : Shaped) (now : UInt64) (locks : Bool) (getrandom : Randomness)
  | check (handle : Nat) (lapsed : Bool) (principal : Shaped) (now : UInt64)
  /-- `clear_local`, or a view has to go because there are too many. -/
  | forgets (handle : Nat) (id : Vector UInt8 16)

section

variable {Key : Type} (crypto : Crypto Key) (auth : FleetAuth)

def AuthWorld.act (w : AuthWorld) : AuthCall Key → AuthWorld
  | .create subject now expiresAt limit id locks getrandom =>
    { w with table := (auth.create subject now expiresAt limit id locks getrandom w.table).1 }
  | .revoke id now locks getrandom =>
    { w with table := (auth.revokeSession id now locks getrandom w.table).1 }
  | .revokeSubject subject now locks getrandom =>
    { w with table := (auth.revokeSubjectSessions subject now locks getrandom w.table).1 }
  | .extend id subject now expiresAt locks getrandom =>
    { w with table := (auth.extendSession id subject now expiresAt locks getrandom w.table).1 }
  | .extendSubject subject now horizon locks getrandom =>
    { w with table := (auth.extendSubjectSessions subject now horizon locks getrandom w.table).1 }
  | .refresh validator token now expiresAt hook locks getrandom =>
    { w with
      table := (auth.refresh crypto validator token now expiresAt hook locks getrandom w.table).1 }
  | .consume principal now locks getrandom =>
    { w with table := (auth.consume principal now locks getrandom w.table).1 }
  | .check handle lapsed principal now =>
    match principal.session with
    | none => w
    | some binding =>
      { w with
        views := Function.update w.views (handle, binding.id)
          (auth.check lapsed w.table (w.views (handle, binding.id)) binding.id principal now).2 }
  | .forgets handle id => { w with views := Function.update w.views (handle, id) none }

def AuthWorld.run (w : AuthWorld) (calls : List (AuthCall Key)) : AuthWorld :=
  calls.foldl (·.act crypto auth) w

def AuthWorld.zeroed (capacity : Nat) (h : 0 < capacity) : AuthWorld where
  table := ⟨capacity, h, fun _ => .empty⟩
  views _ := none

/-- The clock of the call. -/
def AuthCall.now : AuthCall Key → UInt64
  | .create _ now .. | .revoke _ now .. | .revokeSubject _ now .. | .extend _ _ now ..
  | .extendSubject _ now .. | .refresh _ _ now .. | .consume _ now .. | .check _ _ _ now => now
  | .forgets .. => 0

/-- The key under which the call may insert a record. -/
def AuthCall.draws : AuthCall Key → Option StoreKey
  | .create _ _ _ _ id _ _ => id.map auth.sessionKey
  | .consume principal .. => some (auth.replayKey principal.jti)
  | _ => none

end

end OrbitAuth
