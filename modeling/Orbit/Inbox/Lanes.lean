import Orbit.Atomic.Copy
import Orbit.Inbox.Layout

/-! Joining and leaving a link: a lane is won, cleared, given an identity and checked against the
other lanes of the same name; it is given up by taking the identity back.  The history keeps who
holds which lane, what each lane advertises, and which lanes a scan is looking at. -/

namespace OrbitInbox

open Orbit.Atomic List Function

def writeInterest (entry : Nat) (bits : Nat → Nat) : InboxM Unit := do
  let seq ← load (.interestSeq entry)
  store (.interestSeq entry) (seq ||| 1)
  go (range interestWords)
  store (.interestSeq entry) (((seq ||| 1) + 1) % 2 ^ 32)
where
  go : List Nat → InboxM Unit
    | [] => return ()
    | word :: rest => do
      store (.interestBits entry word) (bits word)
      go rest

def clearInterest (entry : Nat) : InboxM Unit := writeInterest entry fun _ => 0

variable (g : Geometry)

/-- Discard the completed work of a lane's earlier owner, at most `capacity` positions. -/
def drainLane (lane : Nat) : Nat → InboxM (Except Error Unit)
  | 0 => return .ok ()
  | n + 1 => do
    let position ← load (.read lane)
    let reserve ← load (.reserve lane)
    if reserve ≤ position then return .ok ()
    else
      let seq ← load (.seq lane (g.slot position))
      if position < seq then
        -- the previous reader released this turn but died before publishing head
        let claim ← load (.claim lane (g.slot position))
        if claim &&& 3 = claimCommitted ∨ claim &&& 3 = claimCancelled then
          match ← intentForClaim g claim with
          | .error e => return .error e
          | .ok intent =>
            if intent.position = position then
              match ← consumeFrame g lane position claim with
              | .error e => return .error e
              | .ok () => drainLane lane n
            else
              store (.read lane) (position + 1)
              drainLane lane n
        else
          store (.read lane) (position + 1)
          drainLane lane n
      else
        let claim ← load (.claim lane (g.slot position))
        if claim &&& 3 = claimCommitted ∨ claim &&& 3 = claimCancelled then
          match ← consumeFrame g lane position claim with
          | .error e => return .error e
          | .ok () => drainLane lane n
        else return .ok ()

/-- The turns of a lane that was never used. -/
def initializeLane (lane : Nat) : List Nat → InboxM Unit
  | [] => store (.initialized lane) 1
  | position :: rest => do
    store (.seq lane (g.slot position)) position
    initializeLane lane rest

def resetLane (lane : Nat) : InboxM (Except Error Unit) := do
  let epoch ← load (.epoch lane)
  if 2 ^ 64 ≤ epoch + 1 then return .error (.malformed "inbox lane generation exhausted")
  else
    let initialized ← load (.initialized lane)
    if initialized = 0 then
      initializeLane g lane (range g.capacity)
      clearIdentity lane (epoch + 1)
      return .ok ()
    else
      match ← drainLane g lane g.capacity with
      | .error e => return .error e
      | .ok () =>
        clearIdentity lane (epoch + 1)
        return .ok ()
where
  clearIdentity (lane nextEpoch : Nat) : InboxM Unit := do
    store (.serviceLen lane) 0
    store (.epoch lane) nextEpoch
    store (.roleLen lane) 0
    clearInterest lane

/-- A lane's identity must fit it: a name and a role tag, neither empty, neither truncated. -/
def checkIdentity (service role : List UInt8) : Except Error Unit :=
  if service = [] ∨ laneNameMax < service.length then
    .error (.malformed "service name does not fit a lane")
  else if role = [] ∨ laneRoleMax < role.length ∨ ¬role.all (· < 128) then
    .error (.malformed "role tag does not fit a lane")
  else .ok ()

/-- Write a lane's identity: the bytes first, the role's length before the name's. -/
def publishIdentity (lane : Nat) (service role : List UInt8) (incarnation pid : Nat) :
    InboxM Unit := do
  copyIn (.service lane) 0 service
  copyIn (.role lane) 0 role
  store (.roleLen lane) (role.length % 2 ^ 8)
  store (.serviceLen lane) (service.length % 2 ^ 8)
  mark (.published lane ⟨service, role⟩)
  store (.incarnation lane) incarnation
  store (.pid lane) pid
  let _ ← fetchAdd 64 .directory 1

def releaseLane (lane : Nat) : InboxM Unit := do
  store (.consumers lane) 0
  mark (.withdrawn lane)
  store (.serviceLen lane) 0
  store (.roleLen lane) 0
  clearInterest lane
  let _ ← fetchAdd 64 .directory 1

/-- `String::from_utf8`. -/
def fromUtf8 (bytes : List UInt8) : Option (List UInt8) :=
  if (ByteArray.mk bytes.toArray).validateUTF8 then some bytes else none

def roleOf (lane : Nat) : InboxM (Option (List UInt8)) := do
  let len ← load (.roleLen lane)
  mark (.answered lane)
  if len = 0 ∨ laneRoleMax < len then return none
  else
    let bytes ← copyOut (.role lane) 0 len
    return fromUtf8 bytes

def serves (lane : Nat) (service : List UInt8) : InboxM Bool := do
  let len ← load (.serviceLen lane)
  if len ≠ service.length ∨ laneNameMax < len then return false
  else
    mark (.look lane)
    let name ← copyOut (.service lane) 0 len
    if name = service then return true
    else
      mark (.leave lane)
      return false

def serving (service : List UInt8) : List Nat → InboxM (List Nat)
  | [] => return []
  | lane :: rest => do
    let found ← serves lane service
    let others ← serving service rest
    return if found then lane :: others else others

def unnamedRole : List UInt8 :=
  [97, 110, 32, 117, 110, 110, 97, 109, 101, 100, 32, 114, 111, 108, 101]

def leaveAll : List Nat → InboxM Unit
  | [] => return ()
  | lane :: rest => do
    mark (.leave lane)
    leaveAll rest

/-- A lane of those that serves `service` for another role, as an error. -/
def refuseFrom (service role : List UInt8) (own : Option Nat) : List Nat → InboxM (Except Error Unit)
  | [] => return .ok ()
  | lane :: rest => do
    if some lane = own then
      mark (.leave lane)
      refuseFrom service role own rest
    else
      let consumers ← load (.consumers lane)
      if consumers = 0 then
        mark (.leave lane)
        refuseFrom service role own rest
      else
        mark (.ask lane)
        let heldBy := (← roleOf lane).getD []
        if heldBy = role then
          mark (.leave lane)
          refuseFrom service role own rest
        else
          leaveAll (lane :: rest)
          let pid ← load (.pid lane)
          return .error (.roleConflict service role (if heldBy = [] then unnamedRole else heldBy)
            lane pid)

def refuseOtherRole (service role : List UInt8) (own : Option Nat) :
    InboxM (Except Error Unit) := do
  let found ← serving service (range g.lanes)
  refuseFrom service role own found

/-- The walk of `join` over the lanes.  `holdFails` is on which lanes the attempt to take the hold
is an error. -/
def joinFrom (service role : List UInt8) (incarnation pid : Nat) (holdFails : Nat → Bool) :
    List Nat → InboxM (Except Error Nat)
  | [] => return .error .noLane
  | lane :: rest => do
    let consumers ← load (.consumers lane)
    if consumers ≠ 0 then joinFrom service role incarnation pid holdFails rest
    else if holdFails lane then return .error .io
    else
      let held ← compareExchange (.hold lane) 0 1
      if !held then joinFrom service role incarnation pid holdFails rest
      else
        let won ← compareExchange (.consumers lane) 0 1
        if !won then
          store (.hold lane) 0
          joinFrom service role incarnation pid holdFails rest
        else
          mark (.won lane)
          match ← resetLane g lane with
          | .error e =>
            store (.hold lane) 0
            return .error e
          | .ok () =>
            publishIdentity lane service role incarnation pid
            match ← refuseOtherRole g service role (some lane) with
            | .error conflict =>
              releaseLane lane
              mark .refused
              store (.hold lane) 0
              return .error conflict
            | .ok () =>
              mark (.joined lane)
              return .ok lane

def join (service role : List UInt8) (incarnation pid : Nat) (holdFails : Nat → Bool) :
    InboxM (Except Error Nat) :=
  match checkIdentity service role with
  | .error e => return .error e
  | .ok () => do
    match ← refuseOtherRole g service role none with
    | .error conflict =>
      mark .refused
      return .error conflict
    | .ok () => joinFrom g service role incarnation pid holdFails (range g.lanes)

inductive Call where
  | join (identity : Identity) (incarnation pid : Nat) (holdFails : Nat → Bool)
  /-- The owner of a lane gives it up, and then its hold. -/
  | release (lane : Nat)

/-- What the history keeps of one lane. -/
structure LaneLog where
  /-- Joins that won the lane and have not given it up. -/
  holders : List Nat
  /-- The identity published last, until the lane is won again. -/
  last : Option Identity
  /-- While the lane is claimed and published: how many publications there were before it. -/
  advert : Option Nat
  /-- The join of the lane has returned it, and its release has not begun. -/
  joined : Bool

/-- What the history keeps of one call. -/
structure Asked where
  identity : Option Identity
  /-- A lane was claimed for the same name by another role at some moment of the call. -/
  seen : Bool
  /-- The call returned `RoleConflict`. -/
  refused : Bool

structure History where
  lane : Nat → LaneLog
  looking : Nat → Nat
  asking : Nat → Nat
  published : Nat
  calls : List Asked

def History.init : History := ⟨fun _ => ⟨[], none, none, false⟩, fun _ => 0, fun _ => 0, 0, []⟩

def Identity.conflicts (a b : Identity) : Prop := a.service = b.service ∧ a.role ≠ b.role

instance (a b : Identity) : Decidable (a.conflicts b) := inferInstanceAs (Decidable (_ ∧ _))

def LaneLog.opposes (log : LaneLog) (identity : Identity) : Bool :=
  log.advert.isSome && log.last.any fun other => identity.conflicts other

def History.setLane (h : History) (lane : Nat) (log : LaneLog) : History :=
  { h with lane := update h.lane lane log }

def Asked.notice (other : Identity) (asked : Asked) : Asked :=
  { asked with seen := asked.seen || asked.identity.any fun identity => identity.conflicts other }

def record (thread : Nat) (event : Event) (h : History) : History :=
  match event with
  | .won lane =>
    h.setLane lane { h.lane lane with holders := thread :: (h.lane lane).holders, last := none }
  | .published lane identity =>
    { h.setLane lane { h.lane lane with last := some identity, advert := some h.published } with
      published := h.published + 1
      calls := h.calls.map (Asked.notice identity) }
  | .withdrawn lane => h.setLane lane { h.lane lane with advert := none, holders := [] }
  | .joined lane => h.setLane lane { h.lane lane with joined := true }
  | .refused =>
    { h with calls := h.calls.modify thread fun asked => { asked with refused := true } }
  | .look lane => { h with looking := update h.looking lane (h.looking lane + 1) }
  | .leave lane => { h with looking := update h.looking lane (h.looking lane - 1) }
  | .ask lane => { h with asking := update h.asking lane (h.asking lane + 1) }
  | .answered lane => { h with asking := update h.asking lane (h.asking lane - 1) }

/-- A join begins at any time; a release only on a lane that a join has returned. -/
def begins : Call → History → Option History
  | .join identity _ _ _, h =>
    some { h with calls := h.calls ++
      [⟨some identity, (range g.lanes).any fun l => (h.lane l).opposes identity, false⟩] }
  | .release lane, h =>
    if (h.lane lane).joined then
      some { h.setLane lane { h.lane lane with joined := false } with
        calls := h.calls ++ [⟨none, false, false⟩] }
    else none

def inboxSys : Sys Addr Event Call History where
  body
    | .join identity incarnation pid holdFails => do
      let _ ← join g identity.service identity.role incarnation pid holdFails
    | .release lane => do
      releaseLane lane
      store (.hold lane) 0
  begins := begins g
  record thread _ := record thread

def inboxStart : Config Addr Event Call History := ⟨fun _ => 0, .init, []⟩

/-- While a scan looks at a lane, the lane does not change hands: it is not won while a scan that
found its name there is not done with it, and its role is not taken back between a scan's finding
it claimed and asking for the role. `P` says whether the condition is asked for. -/
def undisturbed (P : Prop) : Discipline Addr Call History where
  begin _ _ _ := True
  write _ _ place old new h _ :=
    match place with
    | .consumers lane => old = 0 → new = 1 → P → h.looking lane = 0 ∧ h.asking lane = 0
    | .roleLen lane => new = 0 → P → h.asking lane = 0
    | _ => True

end OrbitInbox
