import Orbit.Atomic.Prog
import Orbit.Atomic.Word

/-! The shared words of a link's inbox table: its lanes with the identity of whoever holds them, the
slots of each lane's queue, and the registry of producers with their records. -/

namespace OrbitInbox

open Orbit.Atomic

def laneNameMax : Nat := 47
def laneRoleMax : Nat := 8

def interestWords : Nat := 7

def claimFree : Nat := 0
def claimReserved : Nat := 1
def claimCommitted : Nat := 2
def claimCancelled : Nat := 3

/-- A table's geometry, as its opener has validated it. -/
structure Geometry where
  lanes : Nat
  capacity : Nat
  payloadCapacity : Nat
  lanes_lt : lanes < 2 ^ 16
  capacity_pow : isPowerOfTwo capacity = true
  capacity_lt : capacity < 2 ^ 32
  payload_pos : 0 < payloadCapacity
  payload_lt : payloadCapacity < 2 ^ 32

inductive Error where
  | malformed (text : String)
  | inboxFull
  | frameTooLarge
  | noLane
  | io
  | roleConflict (name role heldBy : List UInt8) (lane pid : Nat)
deriving DecidableEq, Repr

/-- The shared words, and the kernel's lock on each lane. -/
inductive Addr where
  | directory
  | reserve (lane : Nat)
  | read (lane : Nat)
  | consumers (lane : Nat)
  | incarnation (lane : Nat)
  | epoch (lane : Nat)
  | initialized (lane : Nat)
  | service (lane index : Nat)
  | serviceLen (lane : Nat)
  | pid (lane : Nat)
  | role (lane index : Nat)
  | roleLen (lane : Nat)
  | interestSeq (entry : Nat)
  | interestBits (entry word : Nat)
  | seq (lane slot : Nat)
  | claim (lane slot : Nat)
  | len (lane slot : Nat)
  | payload (lane slot index : Nat)
  | recordSeq (record : Nat)
  | recordPosition (record : Nat)
  | recordIncarnation (record : Nat)
  | recordGeneration (record : Nat)
  | recordLane (record : Nat)
  | recordFlags (record : Nat)
  | hold (lane : Nat)
deriving DecidableEq

/-- What a lane says of its holder. -/
structure Identity where
  service : List UInt8
  role : List UInt8
deriving DecidableEq, Repr

/-- What the history of a run keeps of the lanes: which a join has won, published, given up and
returned, and which lanes a scan is looking at. -/
inductive Event where
  | won (lane : Nat)
  | published (lane : Nat) (identity : Identity)
  | withdrawn (lane : Nat)
  | joined (lane : Nat)
  | refused
  /-- A scan has found the length of its name on a lane. -/
  | look (lane : Nat)
  /-- A scan has found a lane of its name claimed and is about to load the length of its role. -/
  | ask (lane : Nat)
  | answered (lane : Nat)
  /-- A scan is done with a lane. -/
  | leave (lane : Nat)

abbrev InboxM := Prog Addr Event

variable (g : Geometry)

def Geometry.slot (position : Nat) : Nat := position &&& (g.capacity - 1)

structure Intent where
  position : Nat
  incarnation : Nat
  generation : Nat
  lane : Nat

/-- `Record::snapshot`: the intent of a record, unless it is being rewritten. -/
def snapshot (record : Nat) : InboxM (Option Intent) := do
  let before ← load (.recordSeq record)
  if before &&& 1 ≠ 0 then return none
  else
    let position ← load (.recordPosition record)
    let incarnation ← load (.recordIncarnation record)
    let generation ← load (.recordGeneration record)
    let lane ← load (.recordLane record)
    let after ← load (.recordSeq record)
    return if before = after then some ⟨position, incarnation, generation, lane⟩ else none

def recordIndex (claim : Nat) : Except Error Nat :=
  if claim >>> 2 = 0 then .error (.malformed "inbox claim has no producer")
  else if claim >>> 2 - 1 ≥ 2 * g.lanes * g.capacity then
    .error (.malformed "inbox claim producer is outside registry")
  else .ok (claim >>> 2 - 1)

def intentForClaim (claim : Nat) : InboxM (Except Error Intent) :=
  match recordIndex g claim with
  | .error e => return .error e
  | .ok record => do
    match ← snapshot record with
    | none => return .error (.malformed "referenced inbox intent is unstable")
    | some intent => return .ok intent

/-- The reader's release of a position: the next turn, a free claim, then the head. -/
def consumeFrame (lane position claim : Nat) : InboxM (Except Error Unit) :=
  if 2 ^ 64 ≤ position + g.capacity then return .error (.malformed "inbox position exhausted")
  else
    match recordIndex g claim with
    | .error e => return .error e
    | .ok _ => do
      store (.seq lane (g.slot position)) (position + g.capacity)
      store (.claim lane (g.slot position)) claimFree
      store (.read lane) (position + 1)
      return .ok ()

end OrbitInbox
