import Orbit.Inbox.Lanes
import Orbit.Stream.World

/-! A link segment and the body streams of its fleet, as whole operations of any number of processes
find them: the lanes with the kernel's hold on each, the stream table, and which owners died with
their lane claimed.  What an operation meets outside of these comes with it. -/

namespace OrbitSegment

open Orbit.Atomic
open OrbitInbox (Identity checkIdentity)

inductive Error where
  | inbox (error : OrbitInbox.Error)
  | stream (error : OrbitStream.Error)

/-- A segment's two tables: a lane of the inbox and a node of the streams have one index. -/
structure Geometry where
  inbox : OrbitInbox.Geometry
  streams : OrbitStream.Geometry
  lanes_eq : inbox.lanes = streams.fleetCapacity

structure Lane where
  consumers : Nat
  pid : Nat
  incarnation : Nat
  service : List UInt8
  role : List UInt8
  /-- The process that has the lane's kernel lock. -/
  hold : Option Nat

structure Reclaimed where
  lane : Nat
  incarnation : Nat
  pid : Nat

structure Process where
  pid : Nat
  alive : Bool

/-- An owner that died while its lane was claimed, and whether a join has succeeded since. -/
structure Grave where
  lane : Nat
  incarnation : Nat
  joined : Bool

structure World where
  lane : Nat → Lane
  processes : List Process
  streams : OrbitStream.World
  graves : List Grave

/-- What an operation meets outside the world: the frames in each queue, how the recovery of the
producers and the opening of the stream table end, where taking a hold is an error, and how the
queue of a lane is reset. -/
structure Surroundings where
  depth : Nat → Nat
  producers : Except OrbitInbox.Error Unit
  holdFails : Nat → Bool
  streams : Nat → Except OrbitStream.Error Unit
  reset : Nat → Except OrbitInbox.Error Unit

/-- The end of an operation: its result, and the world it leaves. -/
abbrev Done (α : Type) := Except Error α × World

/-- `?`: an error ends the operation where it stands. -/
def Done.andThen {α β : Type} (r : Done α) (next : α → World → Done β) : Done β :=
  match r.1 with
  | .ok a => next a r.2
  | .error e => (.error e, r.2)

variable (g : Geometry)

/-- `release_lane`: the owner's stamp stays. -/
def Lane.released (lane : Lane) : Lane := { lane with consumers := 0, service := [], role := [] }

/-- The identity after `reset_lane`, which leaves presence and stamp alone. -/
def Lane.cleared (lane : Lane) : Lane := { lane with service := [], role := [] }

/-- The last process incarnation on a lane, including one withdrawn while its accepted exchanges
drain. -/
def Lane.lastOwner (lane : Lane) : Option (Nat × Nat) :=
  if lane.pid = 0 then none else some (lane.pid, lane.incarnation)

def Lane.servedBy (lane : Lane) : Option (List UInt8) :=
  if lane.role = [] then none else some lane.role

def World.setLane (w : World) (l : Nat) (lane : Lane) : World :=
  { w with lane := Function.update w.lane l lane }

/-- Take the hold of a lane for as long as the operation lasts: whether it was free. -/
def World.tryHold (w : World) (around : Surroundings) (l : Nat) : Except Error Bool :=
  if around.holdFails l then .error (.inbox .io) else .ok (w.lane l).hold.isNone

def resetLane (around : Surroundings) (l : Nat) (w : World) : Done Unit :=
  match around.reset l with
  | .ok () => (.ok (), w.setLane l (w.lane l).cleared)
  | .error e => (.error (.inbox e), w)

def retireLane (around : Surroundings) (l : Nat) (w : World) : Done Unit :=
  if (w.lane l).consumers ≠ 0 then
    (.error (.inbox (.malformed "retiring an advertised inbox lane")), w)
  else resetLane around l w

def reclaim (l : Nat) (w : World) : Option Reclaimed × World :=
  if (w.lane l).consumers = 0 then (none, w)
  else (some ⟨l, (w.lane l).incarnation, (w.lane l).pid⟩, w.setLane l (w.lane l).released)

def World.endStreams (w : World) (lane incarnation : Nat) : World :=
  { w with
    streams := OrbitStream.exec w.streams
      (.nodeDead lane incarnation : OrbitStream.Op g.streams) }

def recoverStreams (around : Surroundings) (gone : Reclaimed) (w : World) : Done Unit :=
  match around.streams gone.lane with
  | .ok () => (.ok (), w.endStreams g gone.lane gone.incarnation)
  | .error e => (.error (.stream e), w)

/-- The callback of `reclaim_if_gone`. -/
def recoverNothing (_ : Reclaimed) (w : World) : Done Unit := (.ok (), w)

def goneFrom (l : Nat) (w : World) : Option Reclaimed :=
  (reclaim l w).1.or <| (w.lane l).lastOwner.map fun owner => ⟨l, owner.2, owner.1⟩

/-- Take back a lane if its hold is free and it is still claimed or retains queued work after
withdrawal. -/
def recoverLane (recover : Reclaimed → World → Done Unit) (around : Surroundings) (l : Nat)
    (w : World) : Done (Option Reclaimed) :=
  if (w.lane l).consumers = 0 ∧ around.depth l = 0 then (.ok none, w)
  else
    match w.tryHold around l with
    | .error e => (.error e, w)
    | .ok false => (.ok none, w)
    | .ok true =>
      let gone := goneFrom l w
      let recovered : Done Unit :=
        match gone with
        | some owner => recover owner (reclaim l w).2
        | none => (.ok (), (reclaim l w).2)
      recovered.andThen fun _ w => (retireLane around l w).andThen fun _ w => (.ok gone, w)

def recoverEach (recover : Reclaimed → World → Done Unit) (around : Surroundings) :
    List Nat → World → Done (List Reclaimed)
  | [], w => (.ok [], w)
  | l :: rest, w => (recoverLane recover around l w).andThen fun gone w =>
    (recoverEach recover around rest w).andThen fun more w => (.ok (gone.toList ++ more), w)

def recoverAbandoned (around : Surroundings) (w : World) : Done (List Reclaimed) :=
  match around.producers with
  | .error e => (.error (.inbox e), w)
  | .ok () => recoverEach (recoverStreams g around) around (List.range g.inbox.lanes) w

def reclaimIfGone (around : Surroundings) (l : Nat) (w : World) : Done (Option Reclaimed) :=
  if g.inbox.lanes ≤ l then (.error (.inbox (.malformed "lane is outside the table")), w)
  else recoverLane recoverNothing around l w

def reclaimOwned (around : Surroundings) (pid incarnation : Nat) :
    List Nat → World → Done (List Reclaimed)
  | [], w => (.ok [], w)
  | l :: rest, w =>
    if (w.lane l).lastOwner ≠ some (pid, incarnation) then
      reclaimOwned around pid incarnation rest w
    else
      match w.tryHold around l with
      | .error e => (.error e, w)
      | .ok false => reclaimOwned around pid incarnation rest w
      | .ok true =>
        (retireLane around l ((reclaim l w).2.endStreams g l incarnation)).andThen fun _ w =>
          (reclaimOwned around pid incarnation rest w).andThen fun more w =>
            (.ok (⟨l, incarnation, pid⟩ :: more), w)

/-- Recover only lanes last owned by this exact process incarnation, with a callback that ends the
sides it is told of. -/
def reclaimProcess (around : Surroundings) (pid incarnation : Nat) (w : World) :
    Done (List Reclaimed) :=
  match around.producers with
  | .error e => (.error (.inbox e), w)
  | .ok () => reclaimOwned g around pid incarnation (List.range g.inbox.lanes) w

def World.opposed (w : World) (id : Identity) (own : Option Nat) : Option Nat :=
  (List.range g.inbox.lanes).find? fun l =>
    (w.lane l).service = id.service ∧ some l ≠ own ∧ (w.lane l).consumers ≠ 0 ∧
      (w.lane l).servedBy.getD [] ≠ id.role

def refuseOtherRole (id : Identity) (own : Option Nat) (w : World) : Except Error Unit :=
  match w.opposed g id own with
  | none => .ok ()
  | some l =>
    let heldBy := (w.lane l).servedBy.getD []
    .error (.inbox (.roleConflict id.service id.role
      (if heldBy = [] then OrbitInbox.unnamedRole else heldBy) l (w.lane l).pid))

def recoverLast (around : Surroundings) (l : Nat) (w : World) : Done Unit :=
  match (w.lane l).lastOwner with
  | some owner => recoverStreams g around ⟨l, owner.2, owner.1⟩ w
  | none => (.ok (), w)

def claimLane (around : Surroundings) (process pid : Nat) (id : Identity) (incarnation l : Nat)
    (w : World) : Done Nat :=
  (resetLane around l (w.setLane l { w.lane l with consumers := 1 })).andThen fun _ w =>
    let claimed : Lane := ⟨1, pid, incarnation, id.service, id.role, none⟩
    match refuseOtherRole g id (some l) (w.setLane l claimed) with
    | .error e => (.error e, w.setLane l claimed.released)
    | .ok () => (.ok l, w.setLane l { claimed with hold := some process })

/-- The walk of `join` over the lanes. -/
def joinFrom (around : Surroundings) (process pid : Nat) (id : Identity) (incarnation : Nat) :
    List Nat → World → Done Nat
  | [], w => (.error (.inbox .noLane), w)
  | l :: rest, w =>
    if (w.lane l).consumers ≠ 0 then joinFrom around process pid id incarnation rest w
    else
      match w.tryHold around l with
      | .error e => (.error e, w)
      | .ok false => joinFrom around process pid id incarnation rest w
      | .ok true =>
        (recoverLast g around l w).andThen fun _ =>
          claimLane g around process pid id incarnation l

def pidOf (w : World) (process : Nat) : Nat := (w.processes[process]?.map Process.pid).getD 0

def join (recovery claim : Surroundings) (process : Nat) (id : Identity) (incarnation : Nat)
    (w : World) : Done Nat :=
  (recoverAbandoned g recovery w).andThen fun _ w =>
    match checkIdentity id.service id.role, refuseOtherRole g id none w with
    | .error e, _ => (.error (.inbox e), w)
    | .ok (), .error e => (.error e, w)
    | .ok (), .ok () =>
      joinFrom g claim process (pidOf w process) id incarnation (List.range g.inbox.lanes) w

/-- `LinkSegment::open` on a segment that is there: `first` and `second` are how this mapping's
registration as a producer ends. -/
def openSegment (first second : Except OrbitInbox.Error Unit) (around : Surroundings) (w : World) :
    Done Unit :=
  match first with
  | .ok () => (.ok (), w)
  | .error .inboxFull => (recoverAbandoned g around w).andThen fun _ w =>
    (second.mapError .inbox, w)
  | .error e => (.error (.inbox e), w)

def isFarLane (far : List UInt8 → Bool) (w : World) (l : Nat) : Bool :=
  decide ((w.lane l).consumers ≠ 0) && (w.lane l).servedBy.any far

def farLanes (far : List UInt8 → Bool) (w : World) : List Nat :=
  (List.range g.inbox.lanes).filter (isFarLane far w)

/-- Whether a writer may choose this lane: it has a consumer, and room. -/
def accepts (around : Surroundings) (w : World) (l : Nat) : Bool :=
  decide ((w.lane l).consumers ≠ 0) && decide (around.depth l < g.inbox.capacity)

/-- `LinkEvents::send`: `written` is how the frame's encoding and writing ends when a lane is ready. -/
def send (far : List UInt8 → Bool) (written : Except OrbitInbox.Error Unit) (around : Surroundings)
    (w : World) : Done Unit :=
  if (farLanes g far w).any (accepts g around w) then (written.mapError .inbox, w)
  else (recoverEach recoverNothing around (farLanes g far w) w).andThen fun _ w =>
    (.error (.inbox .noLane), w)

/-- What a live process does. -/
inductive Call where
  | openSegment (first second : Except OrbitInbox.Error Unit) (around : Surroundings)
  | join (id : Identity) (incarnation : Nat) (recovery claim : Surroundings)
  | recoverAbandoned (around : Surroundings)
  | reclaimIfGone (lane : Nat) (around : Surroundings)
  | send (far : List UInt8 → Bool) (written : Except OrbitInbox.Error Unit) (around : Surroundings)
  | reclaimProcess (pid incarnation : Nat) (around : Surroundings)
  | releaseLane (lane : Nat)
  /-- The hold goes once the lane is released. -/
  | dropHold (lane : Nat)

inductive Op where
  | spawn (pid : Nat)
  | dies (process : Nat)
  | call (process : Nat) (call : Call)
  | stream (op : OrbitStream.Op g.streams)

def Grave.outlived (grave : Grave) : Grave := { grave with joined := true }

def call (process : Nat) (w : World) : Call → World
  | .openSegment first second around => (openSegment g first second around w).2
  | .join id incarnation recovery claim =>
    let r := join g recovery claim process id incarnation w
    match r.1 with
    | .ok _ => { r.2 with graves := r.2.graves.map Grave.outlived }
    | .error _ => r.2
  | .recoverAbandoned around => (recoverAbandoned g around w).2
  | .reclaimIfGone lane around => (reclaimIfGone g around lane w).2
  | .send far written around => (send g far written around w).2
  | .reclaimProcess pid incarnation around => (reclaimProcess g around pid incarnation w).2
  | .releaseLane l =>
    if (w.lane l).hold = some process then w.setLane l (w.lane l).released else w
  | .dropHold l =>
    if (w.lane l).hold = some process ∧ (w.lane l).consumers = 0 then
      w.setLane l { w.lane l with hold := none }
    else w

/-- A process dies: the kernel drops its holds, and the lanes it had claimed stay as they are. -/
def World.bury (w : World) (process : Nat) : World where
  lane l := if (w.lane l).hold = some process then { w.lane l with hold := none } else w.lane l
  processes := w.processes.modify process fun p => { p with alive := false }
  streams := w.streams
  graves := w.graves ++ ((List.range g.inbox.lanes).filter fun l =>
    (w.lane l).hold = some process ∧ (w.lane l).consumers ≠ 0).map fun l =>
      ⟨l, (w.lane l).incarnation, false⟩

def World.alive (w : World) (process : Nat) : Bool := w.processes[process]?.any Process.alive

def exec (w : World) : Op g → World
  | .spawn pid => { w with processes := w.processes ++ [⟨pid, true⟩] }
  | .dies process => w.bury g process
  | .call process c => if w.alive process then call g process w c else w
  | .stream op => { w with streams := OrbitStream.exec w.streams op }

def World.init : World := ⟨fun _ => ⟨0, 0, 0, [], [], none⟩, [], .init, []⟩

end OrbitSegment
