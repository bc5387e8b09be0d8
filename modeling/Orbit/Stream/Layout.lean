import Orbit.Atomic.Prog
import Orbit.Atomic.Word

/-! The words of a stream table: for every slot its state and generation, who holds each side, and
the positions, flags and bytes of its two directions.  Doorbells, bitmaps, wakers and change counts
tell waiters to look again; they decide nothing here and are left out. -/

namespace OrbitStream

open Orbit.Atomic

def slotEmpty : Nat := 0
def slotLive : Nat := 1
def slotExhausted : Nat := 2

def sideFree : Nat := 0
def sideClaimed : Nat := 1
def sideReleased : Nat := 2
def sideDead : Nat := 3

/-- The writer committed its last byte; what is buffered still drains. -/
def flagFin : Nat := 1
/-- The writer abandoned the direction; buffered bytes are discarded. -/
def flagReset : Nat := 2
/-- The reader is gone; nothing written here will ever be read. -/
def flagReaderGone : Nat := 4
def flagCloseWatch : Nat := 8

def slotBits : Nat := 16
def generationBits : Nat := 40 - slotBits
def generationMask : Nat := 2 ^ generationBits - 1
def generationLimit : Nat := generationMask

/-- `u16::MAX`: the owner of a side nobody has taken. -/
def nobody : Nat := 2 ^ 16 - 1

/-- Which end of a stream a handle holds.  The creator holds `a`.  A direction goes by the side that
writes it: `directions[0]` carries A to B. -/
inductive Side where
  | a
  | b
  deriving DecidableEq, Repr

namespace Side

def other : Side → Side
  | a => b
  | b => a

@[simp] theorem other_other (side : Side) : side.other.other = side := by
  cases side <;> rfl

@[simp] theorem other_ne (side : Side) : side.other ≠ side := by
  cases side <;> decide

@[simp] theorem ne_other (side : Side) : side ≠ side.other := by
  cases side <;> decide

theorem eq_other {side side' : Side} (h : side ≠ side') : side = side'.other := by
  cases side <;> cases side' <;> simp_all [other]

theorem forall_iff {p : Side → Prop} : (∀ side, p side) ↔ p a ∧ p b :=
  ⟨fun h => ⟨h a, h b⟩, fun h side => by cases side; exacts [h.1, h.2]⟩

theorem exists_iff {p : Side → Prop} : (∃ side, p side) ↔ p a ∨ p b :=
  ⟨fun ⟨side, h⟩ => by cases side; exacts [.inl h, .inr h], fun h => h.elim (⟨a, ·⟩) (⟨b, ·⟩)⟩

instance (p : Side → Prop) [DecidablePred p] : Decidable (∀ side, p side) :=
  decidable_of_iff _ forall_iff.symm

instance (p : Side → Prop) [DecidablePred p] : Decidable (∃ side, p side) :=
  decidable_of_iff _ exists_iff.symm

def writeDirection (side : Side) : Side := side

def readDirection (side : Side) : Side := side.other

end Side

/-- The address of one stream: the fields of its net id, whose counter is the slot and the
generation. -/
structure StreamId where
  kind : Nat
  node : Nat
  slot : Nat
  generation : Nat
  deriving DecidableEq, Repr

/-- One end of a stream, in the form that crosses a setup channel. -/
structure Ticket where
  id : StreamId
  side : Side
  epoch : Nat
  deriving DecidableEq, Repr

/-- The errors of streams and exchanges.  `malformedId` is `Malformed` with the text of a net id. -/
inductive Error where
  | stale (id : StreamId)
  | alreadyClaimed (ticket : Ticket)
  | full (capacity : Nat)
  | payloadFull (requestedSlots : Nat)
  | payloadTooLarge (len capacity : Nat)
  | malformed (text : String)
  | malformedId (id : StreamId)
  | closed
  | reset
  | peerGone
  | wouldBlock
  deriving DecidableEq

/-- Which segment a table uses, and how big its lanes and rings are. -/
structure StreamSpec where
  kind : Nat
  laneCapacity : Nat
  bufferBytes : Nat
  deriving DecidableEq, Repr

def StreamSpec.validate (spec : StreamSpec) : Except Error Unit :=
  if spec.laneCapacity = 0 ∨ spec.bufferBytes = 0 ∨ !isPowerOfTwo spec.laneCapacity ∨
      !isPowerOfTwo spec.bufferBytes ∨ spec.laneCapacity > 2 ^ slotBits ∨
      spec.bufferBytes > 2 ^ 32 - 1 then
    .error (.malformed (s!"stream spec kind={spec.kind} lane_capacity={spec.laneCapacity} " ++
      s!"buffer_bytes={spec.bufferBytes}: both are powers of two, a lane holds at most " ++
      s!"{2 ^ slotBits} streams and a ring at most {2 ^ 32 - 1} bytes"))
  else .ok ()

/-- An opened table: a validated spec and the number of nodes of its fleet. -/
structure Geometry where
  spec : StreamSpec
  fleetCapacity : Nat
  valid : spec.validate = .ok ()
  fleet_lt : fleetCapacity < 2 ^ 16

namespace Geometry

variable (g : Geometry)

def laneCapacity : Nat := g.spec.laneCapacity
def bufferBytes : Nat := g.spec.bufferBytes
def totalSlots : Nat := g.fleetCapacity * g.laneCapacity

theorem valid_parts : g.laneCapacity ≠ 0 ∧ g.bufferBytes ≠ 0 ∧ isPowerOfTwo g.laneCapacity = true ∧
    isPowerOfTwo g.bufferBytes = true ∧ g.laneCapacity ≤ 2 ^ slotBits ∧
    g.bufferBytes ≤ 2 ^ 32 - 1 := by
  have h := not_of_accepted g.valid
  simp only [not_or, Bool.not_eq_true', Bool.not_eq_false, Nat.not_lt, gt_iff_lt] at h
  exact h

theorem lane_pos : 0 < g.laneCapacity := Nat.pos_of_ne_zero g.valid_parts.1

theorem buffer_pos : 0 < g.bufferBytes := Nat.pos_of_ne_zero g.valid_parts.2.1

theorem buffer_pow : isPowerOfTwo g.bufferBytes = true := g.valid_parts.2.2.2.1

theorem buffer_lt : g.bufferBytes < 2 ^ 32 := by
  have h := g.valid_parts.2.2.2.2.2
  omega

end Geometry

/-- The shared words of a table, and the two process-local ones of a lane's allocation lock. -/
inductive Addr where
  | epoch
  | state (slot : Nat)
  | generation (slot : Nat)
  | claimed (slot : Nat) (side : Side)
  | node (slot : Nat) (side : Side)
  | incarnation (slot : Nat) (side : Side)
  | head (slot : Nat) (direction : Side)
  | flags (slot : Nat) (direction : Side)
  /-- The free space an atomic writer waits for; zero means no exact wait. -/
  | exactNeeded (slot : Nat) (direction : Side)
  | tail (slot : Nat) (direction : Side)
  | byte (slot : Nat) (direction : Side) (index : Nat)
  /-- The mutex over a node's lane. -/
  | allocate (node : Nat)
  /-- Where the lane's next search starts. -/
  | hint (node : Nat)
  deriving DecidableEq

/-- One held side, with the node and the incarnation of the process that holds it. -/
structure Handle where
  node : Nat
  incarnation : Nat
  index : Nat
  id : StreamId
  side : Side
  deriving DecidableEq, Repr

/-- What the history of a run keeps: the handles that `create` and `open` return, the bytes that are
published to the reader of a direction, and the bytes that leave its ring. -/
inductive Event where
  | held (handle : Handle)
  | accepted (bytes : List UInt8)
  | returned (bytes : List UInt8)
  | wrote (len : Nat) (result : Except Error Nat)
  | wroteExact (len : Nat) (result : Except Error Unit)
  | flagged
  | read (len : Nat) (result : Except Error (List UInt8))
  | readExact (len : Nat) (result : Except Error (List UInt8))

abbrev StreamM := Prog Addr Event

/-- `Slot::is`: live in this generation. -/
def isGeneration (slot generation : Nat) : StreamM Bool := do
  let state ← load (.state slot)
  if state = slotLive then
    let current ← load (.generation slot)
    return current == generation
  else return false

/-- `Direction::clear`. -/
def clear (slot : Nat) (direction : Side) : StreamM Unit := do
  store (.head slot direction) 0
  store (.tail slot direction) 0
  store (.flags slot direction) 0
  store (.exactNeeded slot direction) 0

/-- Under the lane owner's allocation lock.  `none` marks the slot exhausted. -/
def install (slot creator incarnation : Nat) : StreamM (Option Nat) := do
  let generation ← load (.generation slot)
  if generation ≥ generationLimit then
    store (.state slot) slotExhausted
    return none
  let generation := generation + 1
  store (.claimed slot .a) sideClaimed
  store (.claimed slot .b) sideFree
  store (.node slot .a) creator
  store (.node slot .b) nobody
  store (.incarnation slot .a) incarnation
  store (.incarnation slot .b) 0
  clear slot .a
  clear slot .b
  store (.generation slot) generation
  store (.state slot) slotLive
  return some generation

end OrbitStream
