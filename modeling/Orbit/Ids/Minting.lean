import Orbit.Ring.Layout

/-! The ids of a fleet.  A process draws ids of a kind from a counter of its own, and the frames that
it publishes take theirs from the write position of a lane, which outlives the process.  The steps are
the accesses of the counters, the positions and the locks around them. -/

namespace OrbitIds

open OrbitRing (RingSpec RingTopology NetIds counterSize)

/-- The kind byte of an `OrbitTyped`. -/
abbrev Kind := Fin (2 ^ 8)

def wordSize : Nat := 2 ^ 64

/-- A fleet: how ids are packed, how many node lanes it has, where its rings live, and the ring of each
kind. -/
structure FleetSpec where
  ids : NetIds
  fleetCapacity : Nat
  fleetCapacity_lt : fleetCapacity < 2 ^ 16
  shm : Bool
  ring : Kind → RingSpec

def FleetSpec.lane (spec : FleetSpec) (kind : Kind) (node : Nat) : Nat :=
  match (spec.ring kind).topology with
  | .shared | .sharedOrdered => 0
  | .perNode => node

def FleetSpec.regional (spec : FleetSpec) (kind : Kind) : Bool :=
  spec.shm && (spec.ring kind).topology = .sharedOrdered

/-- `next_id`, `publish` and `publish_batch`, the latter two with the lengths of their payloads and
whether readers are notified afterwards. -/
inductive Op where
  | nextId (kind : Kind)
  | publish (kind : Kind) (payload : Nat) (notified : Bool)
  | publishBatch (kind : Kind) (payloads : List Nat) (notified : Bool)
  deriving DecidableEq, Repr

def Op.kind : Op → Kind
  | nextId kind | publish kind _ _ | publishBatch kind _ _ => kind

/-- The call draws an id and publishes nothing. -/
def Op.draws : Op → Bool
  | nextId _ => true
  | publish _ _ _ | publishBatch _ _ _ => false

def Op.notified : Op → Bool
  | nextId _ => false
  | publish _ _ notified | publishBatch _ _ notified => notified

/-- How many positions a call claims: none if its payloads do not fit. -/
def Op.positions (r : RingSpec) : Op → Nat
  | nextId _ => 0
  | publish _ payload _ => if payload > r.payloadCapacity then 0 else 1
  | publishBatch _ payloads _ =>
    if payloads.length > r.capacity ∨ payloads.any (· > r.payloadCapacity) then 0
    else payloads.length

/-- Where a call stands. -/
inductive Stage where
  | ready
  | locked
  | ordered
  | loaded (start : Nat)
  | stored (start : Nat)
  | unlocked (start : Nat)
  | written (start : Nat)
  | done
  deriving DecidableEq, Repr

structure Call where
  member : Nat
  op : Op
  stage : Stage
  deriving DecidableEq, Repr

/-- A process in the fleet: its node, its counters, and the calls that hold its write locks. -/
structure Member where
  node : Nat
  live : Bool
  idCounter : Kind → Nat
  writeLock : Kind → Nat → Option Nat

/-- An id that was returned: where its counter comes from, and the fields it is made of. -/
structure Minted where
  published : Bool
  kind : Kind
  node : Nat
  counter : Nat
  deriving DecidableEq, Repr

def Minted.id (ids : NetIds) (minted : Minted) : Nat :=
  ids.make minted.kind minted.node minted.counter

structure World where
  writePos : Kind → Nat → Nat
  region : Kind → Option Nat
  members : List Member
  calls : List Call
  minted : List Minted

def World.init : World where
  writePos _ _ := 0
  region _ := none
  members := []
  calls := []
  minted := []

def World.returned (spec : FleetSpec) (w : World) (kind : Kind) : List Nat :=
  (w.minted.filter fun minted => minted.kind = kind).map (Minted.id spec.ids)

def Member.setLock (m : Member) (kind : Kind) (lane : Nat) (holder : Option Nat) : Member :=
  { m with
    writeLock := Function.update m.writeLock kind (Function.update (m.writeLock kind) lane holder) }

def Member.draw (m : Member) (kind : Kind) : Member :=
  { m with idCounter := Function.update m.idCounter kind ((m.idCounter kind + 1) % wordSize) }

def World.setStage (w : World) (me : Nat) (call : Call) (stage : Stage) : World :=
  { w with calls := w.calls.set me { call with stage } }

def World.setMember (w : World) (p : Nat) (m : Member) : World :=
  { w with members := w.members.set p m }

def World.setPos (w : World) (kind : Kind) (lane value : Nat) : World :=
  { w with writePos := Function.update w.writePos kind (Function.update (w.writePos kind) lane value) }

def World.setRegion (w : World) (kind : Kind) (holder : Option Nat) : World :=
  { w with region := Function.update w.region kind holder }

def World.mint (w : World) (minted : List Minted) : World := { w with minted := w.minted ++ minted }

section

variable (spec : FleetSpec)

/-- The ids of the frames from `start` on. -/
def framesFrom (kind : Kind) (node start count : Nat) : List Minted :=
  (List.range' start count).map fun counter => ⟨true, kind, node, counter⟩

def World.step (w : World) (me : Nat) (call : Call) (m : Member) : Option World :=
  let kind := call.op.kind
  let lane := spec.lane kind m.node
  let count := call.op.positions (spec.ring kind)
  match call.stage with
  | .ready =>
    if call.op.draws then
      some (((w.setMember call.member (m.draw kind)).setStage me call .done).mint
        [⟨false, kind, m.node, m.idCounter kind⟩])
    -- an error, a panic, or an empty batch
    else if count = 0 then some (w.setStage me call .done)
    else if (spec.ring kind).topology = .shared then
      some ((w.setPos kind lane ((w.writePos kind lane + count) % wordSize)).setStage me call
        (.written (w.writePos kind lane)))
    else if m.writeLock kind lane = none then
      some ((w.setMember call.member (m.setLock kind lane (some me))).setStage me call .locked)
    else none
  | .locked =>
    if spec.regional kind then
      if w.region kind = none then some ((w.setRegion kind (some me)).setStage me call .ordered)
      else none
    else some (w.setStage me call (.loaded (w.writePos kind lane)))
  | .ordered => some (w.setStage me call (.loaded (w.writePos kind lane)))
  | .loaded start =>
    some ((w.setPos kind lane ((start + count) % wordSize)).setStage me call (.stored start))
  | .stored start =>
    if spec.regional kind then some ((w.setRegion kind none).setStage me call (.unlocked start))
    else some (w.setStage me call (.unlocked start))
  | .unlocked start =>
    some ((w.setMember call.member (m.setLock kind lane none)).setStage me call (.written start))
  | .written start => some ((w.setStage me call .done).mint (framesFrom kind m.node start count))
  | .done => none

/-- The operating system refuses: the lock of the region, or the notification of the readers. -/
def World.fails (w : World) (me : Nat) (call : Call) (m : Member) : Option World :=
  let kind := call.op.kind
  match call.stage with
  | .locked =>
    if spec.regional kind then
      some ((w.setMember call.member (m.setLock kind (spec.lane kind m.node) none)).setStage me call
        .done)
    else none
  | .written _ => if spec.shm && call.op.notified then some (w.setStage me call .done) else none
  | _ => none

/-- A process is gone: its calls are over, and the system takes its locks of regions back. -/
def World.leave (w : World) (p : Nat) (m : Member) : World :=
  { w with
    region kind := (w.region kind).filter fun me => w.calls[me]?.any fun call => call.member ≠ p
    members := w.members.set p { m with live := false }
    calls := w.calls.map fun call => if call.member = p then { call with stage := .done } else call }

inductive Action where
  | join (node : Nat)
  | leave (member : Nat)
  | call (member : Nat) (op : Op)
  | step (call : Nat)
  | fails (call : Nat)
  deriving DecidableEq, Repr

def World.next (w : World) : Action → Option World
  | .join node =>
    if node < spec.fleetCapacity then
      some { w with members := w.members ++ [⟨node, true, fun _ => 0, fun _ _ => none⟩] }
    else none
  | .leave p => w.members[p]?.map (w.leave p)
  | .call p op => do
    let m ← w.members[p]?
    if m.live then some { w with calls := w.calls ++ [⟨p, op, .ready⟩] } else none
  | .step me => do
    let call ← w.calls[me]?
    let m ← w.members[call.member]?
    w.step spec me call m
  | .fails me => do
    let call ← w.calls[me]?
    let m ← w.members[call.member]?
    w.fails spec me call m

def World.exec (w : World) (action : Action) : World := (w.next spec action).getD w

def World.upTo (w : World) (call : Call) (m : Member) : Nat :=
  let kind := call.op.kind
  let count := call.op.positions (spec.ring kind)
  match call.stage with
  | .ready =>
    if call.op.draws then m.idCounter kind + 1
    else if (spec.ring kind).topology = .shared then w.writePos kind (spec.lane kind m.node) + count
    else 0
  | .loaded start => start + count
  | _ => 0

/-- Processes that live at the same time have different nodes, a fleet in memory has one process, and
every counter is in the range that ids are made for. -/
def World.Promised (w : World) : Action → Prop
  | .join node =>
    (∀ m ∈ w.members, m.live = true → m.node ≠ node) ∧ (spec.shm = false → w.members = [])
  | .step me => ∀ call ∈ w.calls[me]?, ∀ m ∈ w.members[call.member]?,
      w.upTo spec call m ≤ counterSize
  | _ => True

/-- An id that is drawn is beyond those that other processes of the node drew and is no position that
the node has published at, and the positions that a call publishes at are beyond the ids that processes
of the node drew. -/
def World.KeepsApart (w : World) (call : Call) (m : Member) : Prop :=
  let kind := call.op.kind
  match call.stage with
  | .ready => call.op.draws = true →
    (∀ other ∈ w.members, other.node = m.node → other.idCounter kind ≤ m.idCounter kind) ∧
      (⟨true, kind, m.node, m.idCounter kind⟩ : Minted) ∉ w.minted
  | .written start => ∀ other ∈ w.members, other.node = m.node → other.idCounter kind ≤ start
  | _ => True

def World.Apart (w : World) : Action → Prop
  | .step me => ∀ call ∈ w.calls[me]?, ∀ m ∈ w.members[call.member]?, w.KeepsApart call m
  | _ => True

end

end OrbitIds
