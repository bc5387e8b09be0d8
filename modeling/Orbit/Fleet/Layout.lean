import Orbit.Client.Sections

/-! The options of a fleet of client pools on one key, and the table that its processes share: one
resource of capacity one for each registered client.  Every operation of the table is one step. -/

namespace FleetPool

open ClientPool (PoolOptions)

/-- Code-first operating policy for one fleet profile.  Durations are nanoseconds. -/
structure FleetPoolOptions where
  minIdle : Nat
  maxIdle : Nat
  maxLive : Nat
  maxConcurrency : Nat
  maxWaiting : Nat
  attempts : Nat
  acquireTimeout : Option Nat
  idleTimeout : Option Nat
  maxLifetime : Option Nat
  deriving DecidableEq, Repr

inductive OptionsError where
  | pool (error : ClientPool.OptionsError)
  | zeroAttempts
  deriving DecidableEq, Repr

namespace FleetPoolOptions

variable (options : FleetPoolOptions)

/-- The policy as the options of one pool: `validate` checks the same bounds. -/
def bounds : PoolOptions where
  minIdle := options.minIdle
  maxIdle := options.maxIdle
  maxLive := options.maxLive
  maxConcurrency := options.maxConcurrency
  maxWaiting := options.maxWaiting
  acquireTimeout := options.acquireTimeout
  idleTimeout := options.idleTimeout
  maxLifetime := options.maxLifetime

def validate : Except OptionsError Unit :=
  match options.bounds.validate with
  | .error e => .error (.pool e)
  | .ok _ => if options.attempts = 0 then .error .zeroAttempts else .ok ()

def localOptions : PoolOptions where
  minIdle := 0
  maxIdle := options.maxLive
  maxLive := options.maxLive
  maxConcurrency := options.maxLive
  maxWaiting := options.maxWaiting
  acquireTimeout := options.acquireTimeout
  idleTimeout := options.idleTimeout
  maxLifetime := options.maxLifetime

theorem localOptions_validate (h : options.validate = .ok ()) :
    options.localOptions.validate = .ok () := by
  have hbounds : options.bounds.validate = .ok () := by
    unfold validate at h
    split at h
    · cases h
    · rename_i hok
      exact hok
  unfold PoolOptions.validate at hbounds ⊢
  split at hbounds
  · cases hbounds
  rename_i hlive
  split at hbounds
  · cases hbounds
  split at hbounds
  · cases hbounds
  have hlive' : ¬options.localOptions.maxLive = 0 := hlive
  have hconcurrency : ¬options.localOptions.maxConcurrency = 0 := hlive
  rw [if_neg hlive', if_neg hconcurrency, if_neg]
  · exact hbounds
  · intro horder
    rcases horder with hlt | hlt
    · exact absurd hlt (Nat.not_lt_zero _)
    · exact absurd hlt (Nat.lt_irrefl _)

end FleetPoolOptions

/-- The options of a fleet pool that was made, and the last instant its platform can name. -/
structure Config where
  options : FleetPoolOptions
  lastInstant : Nat
  valid : options.validate = .ok ()

def Config.local (c : Config) : ClientPool.Config where
  options := c.options.localOptions
  lastInstant := c.lastInstant
  valid := c.options.localOptions_validate c.valid

/-- The unit of a resource. -/
inductive Occupancy where
  | free
  | reserved (fence : Nat)
  | active
  deriving DecidableEq, Repr

/-- A resource is known by its position; an id is never used again. -/
structure Resource where
  owner : Nat
  registered : Bool
  occupancy : Occupancy
  fence : Nat
  deriving DecidableEq, Repr

structure Lease where
  id : Nat
  fence : Nat
  deriving DecidableEq, Repr

/-- The resources of the key and its ledgers of free units, live resources and creations. -/
structure Table where
  resources : List Resource
  available : Nat
  live : Nat
  creating : Nat
  deriving DecidableEq, Repr

namespace Table

def init : Table where
  resources := []
  available := 0
  live := 0
  creating := 0

variable (t : Table)

def live? (id : Nat) : Option Resource :=
  match t.resources[id]? with
  | some resource => if resource.registered then some resource else none
  | none => none

/-- `register_active`. -/
def registerActive (owner : Nat) : Nat × Table :=
  (t.resources.length, { t with
    resources := t.resources ++ [⟨owner, true, .active, 0⟩]
    live := t.live + 1 })

def unregister (node id : Nat) : Table :=
  match t.live? id with
  | none => t
  | some resource =>
    if resource.owner ≠ node then t
    else { t with
      resources := t.resources.set id { resource with registered := false }
      available := if resource.occupancy = .free then t.available - 1 else t.available
      live := t.live - 1 }

def reserve (id : Nat) : Option Lease × Table :=
  match t.live? id with
  | none => (none, t)
  | some resource =>
    if t.available = 0 ∨ resource.occupancy ≠ .free then (none, t)
    else (some ⟨id, resource.fence + 1⟩, { t with
      resources := t.resources.set id
        { resource with occupancy := .reserved (resource.fence + 1), fence := resource.fence + 1 }
      available := t.available - 1 })

def cancelReservation (lease : Lease) : Table :=
  match t.resources[lease.id]? with
  | none => t
  | some resource =>
    if resource.occupancy ≠ .reserved lease.fence then t
    else { t with
      resources := t.resources.set lease.id { resource with occupancy := .free }
      available := t.available + 1 }

/-- The owner takes a lease: the unit is active, or the call fails. -/
def accept (node : Nat) (lease : Lease) : Bool × Table :=
  match t.live? lease.id with
  | none => (false, t)
  | some resource =>
    if resource.owner ≠ node ∨ resource.occupancy ≠ .reserved lease.fence then (false, t)
    else (true, { t with
      resources := t.resources.set lease.id { resource with occupancy := .active } })

def retains (maxIdle : Option Nat) : Bool :=
  match maxIdle with
  | none => true
  | some limit => decide (t.available < limit)

/-- The end of an execution: whether its unit was retained. -/
def finish (id : Nat) (maxIdle : Option Nat) : Bool × Table :=
  match t.live? id with
  | none => (false, t)
  | some resource =>
    if t.retains maxIdle then
      (true, { t with
        resources := t.resources.set id { resource with
          occupancy := if resource.occupancy = .active then .free else resource.occupancy }
        available := t.available + 1 })
    else (false, t)

def claimCreate (maxLive : Nat) : Bool × Table :=
  if t.live + t.creating < maxLive then (true, { t with creating := t.creating + 1 })
  else (false, t)

def dropCreation : Table := { t with creating := t.creating - 1 }

/-- A creation is claimed only while the idle floor is short. -/
def claimWarm (maxLive minIdle : Nat) : Bool × Table :=
  let claimed := t.claimCreate maxLive
  if claimed.1 then
    if claimed.2.available + claimed.2.creating > minIdle then (false, claimed.2.dropCreation)
    else claimed
  else claimed

end Table

end FleetPool
