import Orbit.Stream.Layout

/-! The words of a payload arena, and what names a run of its slots.  Credit words and wakers tell
waiting producers to look again; they decide nothing here and are left out. -/

namespace OrbitExchange

open Orbit.Atomic

abbrev StreamId := OrbitStream.StreamId

abbrev Error := OrbitStream.Error

def slotFree : Nat := 0
def slotReserved : Nat := 1
def slotLive : Nat := 2
def slotReading : Nat := 3
def slotReclaiming : Nat := 4

/-- Geometry of one fleet-wide payload arena: the slots of each node's lane, and the bytes of one
slot. -/
structure PayloadArenaSpec where
  kind : Nat
  slotsPerNode : Nat
  slotSize : Nat
  deriving DecidableEq, Repr

def PayloadArenaSpec.validate (spec : PayloadArenaSpec) : Except Error Unit :=
  if spec.slotsPerNode = 0 ∨ spec.slotSize = 0 ∨ !isPowerOfTwo spec.slotsPerNode ∨
      !isPowerOfTwo spec.slotSize ∨ spec.slotsPerNode > 2 ^ 32 - 1 ∨ spec.slotSize > 2 ^ 32 - 1 then
    .error (.malformed (s!"payload arena kind={spec.kind} slots_per_node={spec.slotsPerNode} " ++
      s!"slot_size={spec.slotSize}: both geometry values must be non-zero powers of two " ++
      "fitting u32"))
  else .ok ()

/-- An opened arena: a validated spec and the number of nodes of its fleet. -/
structure Geometry where
  spec : PayloadArenaSpec
  fleetCapacity : Nat
  valid : spec.validate = .ok ()
  fleet_lt : fleetCapacity < 2 ^ 16

namespace Geometry

variable (g : Geometry)

def slotsPerNode : Nat := g.spec.slotsPerNode
def slotSize : Nat := g.spec.slotSize
def totalSlots : Nat := g.fleetCapacity * g.slotsPerNode

theorem valid_parts : g.slotsPerNode ≠ 0 ∧ g.slotSize ≠ 0 ∧ isPowerOfTwo g.slotsPerNode = true ∧
    isPowerOfTwo g.slotSize = true ∧ g.slotsPerNode ≤ 2 ^ 32 - 1 ∧ g.slotSize ≤ 2 ^ 32 - 1 := by
  have h := not_of_accepted g.valid
  simp only [not_or, Bool.not_eq_true', Bool.not_eq_false, Nat.not_lt, gt_iff_lt] at h
  exact h

theorem lane_pos : 0 < g.slotsPerNode := Nat.pos_of_ne_zero g.valid_parts.1

theorem size_pos : 0 < g.slotSize := Nat.pos_of_ne_zero g.valid_parts.2.1

theorem lane_pow : isPowerOfTwo g.slotsPerNode = true := g.valid_parts.2.2.1

theorem lane_lt : g.slotsPerNode < 2 ^ 32 := by
  have h := g.valid_parts.2.2.2.2.1
  omega

end Geometry

/-- A process that has opened the arena: its node and its incarnation. -/
structure Process (g : Geometry) where
  node : Fin g.fleetCapacity
  incarnation : Nat
  deriving DecidableEq

/-- The shared words of an arena, and two of each process: the mutex of its allocations, and where
its next search starts. -/
inductive Addr where
  | nextGeneration
  | state (slot : Nat)
  | allocationFirst (slot : Nat)
  | generation (slot : Nat)
  | producerIncarnation (slot : Nat)
  | readerNode (slot : Nat)
  | readerIncarnation (slot : Nat)
  /-- A byte of the payload area; the bytes of a slot follow each other. -/
  | byte (index : Nat)
  | allocation (node incarnation : Nat)
  | hint (node incarnation : Nat)
  deriving DecidableEq

/-- The two byte flows of an exchange. -/
inductive Flow where
  | aToB
  | bToA
  deriving DecidableEq, Repr

/-- What a descriptor says of the run of slots that a publication takes. -/
structure Coordinates where
  allocationGeneration : Nat
  firstSlot : Nat
  slotCount : Nat
  payloadLen : Nat
  arenaKind : Nat
  ownerNode : Nat
  deriving DecidableEq, Repr

/-- One immutable payload publication. -/
structure ChunkDescriptor extends Coordinates where
  exchange : StreamId
  flow : Flow
  chunkId : Nat
  deriving DecidableEq, Repr

variable {g : Geometry}

/-- A reservation that is not published yet, or is given up. -/
structure Publication (g : Geometry) where
  arena : Process g
  first : Nat
  count : Nat
  payloadLen : Nat
  generation : Nat
  deriving DecidableEq

/-- A published run that a reader holds. -/
structure PayloadChunk (g : Geometry) where
  arena : Process g
  first : Nat
  count : Nat
  len : Nat
  generation : Nat
  descriptor : ChunkDescriptor
  deriving DecidableEq

/-- `as u32` of the local slot, of the count and of the length. -/
def Publication.coordinates (publication : Publication g) : Coordinates where
  allocationGeneration := publication.generation
  firstSlot := publication.first % g.slotsPerNode % 2 ^ 32
  slotCount := publication.count % 2 ^ 32
  payloadLen := publication.payloadLen % 2 ^ 32
  arenaKind := g.spec.kind
  ownerNode := publication.arena.node

/-- What the history of a run keeps: when a search begins and fails, every change of a slot's state
and of a payload byte, and who comes to hold a run of slots. -/
inductive Event (g : Geometry) where
  | search (node : Nat)
  | full (node count : Nat)
  | state (slot value : Nat)
  | byte (index value : Nat)
  | reserved (publication : Publication g)
  | written (publication : Publication g)
  | madeLive (publication : Publication g)
  | taken (descriptor : ChunkDescriptor)
  | held (chunk : PayloadChunk g)

abbrev ArenaM (g : Geometry) := Prog Addr (Event g)

def setState (slot value : Nat) : ArenaM g Unit := do
  store (.state slot) value
  mark (.state slot value)

/-! The operations of a payload arena: reserving a run of slots, shortening, publishing and giving it
back, reading a published run, and reclaiming the runs of a dead process. -/

def requiredSlots (g : Geometry) (payloadLen : Nat) : Except Error Nat :=
  if payloadLen = 0 then .error (.malformed "an empty payload needs no arena allocation")
  else
    let count := (payloadLen + g.slotSize - 1) / g.slotSize
    if count > g.slotsPerNode then
      .error (.payloadTooLarge payloadLen (g.slotsPerNode * g.slotSize))
    else .ok count

/-- Whether the `n` slots from `first` on are all found free. -/
def runFree (first : Nat) : Nat → ArenaM g Bool
  | 0 => return true
  | n + 1 => do
    let state ← load (.state first)
    if state = slotFree then runFree (first + 1) n else return false

/-- The first candidate whose run is free, in the order of the offsets. -/
def findRun (laneStart hint count : Nat) : List Nat → ArenaM g (Option Nat)
  | [] => return none
  | offset :: rest => do
    let candidate := (hint + offset) &&& (g.slotsPerNode - 1)
    if candidate + count ≤ g.slotsPerNode then
      if ← runFree (laneStart + candidate) count then return some candidate
      else findRun laneStart hint count rest
    else findRun laneStart hint count rest

def setStates (value first : Nat) : Nat → ArenaM g Unit
  | 0 => return ()
  | n + 1 => do
    setState first value
    setStates value (first + 1) n

/-- The metadata of the `n` slots from `slot` on. -/
def stampSlots (first generation incarnation slot : Nat) : Nat → ArenaM g Unit
  | 0 => return ()
  | n + 1 => do
    store (.allocationFirst slot) first
    store (.generation slot) generation
    store (.producerIncarnation slot) incarnation
    store (.readerNode slot) OrbitStream.nobody
    store (.readerIncarnation slot) 0
    stampSlots first generation incarnation (slot + 1) n

def nextGeneration : ArenaM g Nat := do
  let generation ← fetchAdd 64 .nextGeneration 1
  if generation = 0 then fetchAdd 64 .nextGeneration 1
  else return generation

/-- `reserve` once the number of slots is known, under the process's lock. -/
def Process.reserveSlots (p : Process g) (payloadLen count : Nat) :
    ArenaM g (Except Error (Publication g)) := do
  acquire (.allocation p.node p.incarnation)
  mark (.search p.node)
  let hint ← load (.hint p.node p.incarnation)
  let laneStart := p.node * g.slotsPerNode
  match ← findRun laneStart hint count (List.range g.slotsPerNode) with
  | none =>
    mark (.full p.node count)
    release (.allocation p.node p.incarnation)
    return .error (.payloadFull count)
  | some candidate =>
    let first := laneStart + candidate
    setStates slotReserved first count
    let generation ← nextGeneration
    stampSlots first generation p.incarnation first count
    setState first slotReserved
    store (.hint p.node p.incarnation) ((candidate + count) &&& (g.slotsPerNode - 1))
    release (.allocation p.node p.incarnation)
    return .ok ⟨p, first, count, payloadLen, generation⟩

def Process.reserve (p : Process g) (payloadLen : Nat) :
    ArenaM g (Except Error (Publication g)) := do
  match requiredSlots g payloadLen with
  | .error e => return .error e
  | .ok count => p.reserveSlots payloadLen count

/-- Whether the `n` slots from `first` on are all found in the generation. -/
def runOf (generation first : Nat) : Nat → ArenaM g Bool
  | 0 => return true
  | n + 1 => do
    let current ← load (.generation first)
    if current = generation then runOf generation (first + 1) n else return false

/-- `Arena::release`: the slots after the first become free, and then the first. -/
def releaseRun (first count generation : Nat) : ArenaM g Unit := do
  if ← runOf generation first count then
    setStates slotFree (first + 1) (count - 1)
    setState first slotFree
  else return ()

/-- A write of one byte through `as_mut_slice`. -/
def Publication.write (publication : Publication g) (offset : Nat) (value : UInt8) :
    ArenaM g Unit := do
  let index := publication.first * g.slotSize + offset
  store (.byte index) value.toNat
  mark (.byte index value.toNat)

def Publication.truncate (publication : Publication g) (payloadLen : Nat) :
    ArenaM g (Except Error (Publication g)) := do
  if payloadLen = 0 ∨ payloadLen > publication.payloadLen then
    return .error (.malformed (s!"committed payload length {payloadLen} is outside reserved " ++
      s!"capacity {publication.payloadLen}"))
  else
    match requiredSlots g payloadLen with
    | .error e => return .error e
    | .ok count =>
      if count < publication.count then
        setStates slotFree (publication.first + count) (publication.count - count)
        return .ok { publication with count, payloadLen }
      else return .ok { publication with payloadLen }

def Publication.makeLive (publication : Publication g) : ArenaM g Unit :=
  setState publication.first slotLive

def Publication.drop (publication : Publication g) : ArenaM g Unit :=
  releaseRun publication.first publication.count publication.generation

/-- Whether the `n` slots from `first` on are all found reserved. -/
def runReserved (first : Nat) : Nat → ArenaM g Bool
  | 0 => return true
  | n + 1 => do
    let state ← load (.state first)
    if state = slotReserved then runReserved (first + 1) n else return false

/-- The descriptor names a run inside a lane, with a length that needs all of it. -/
def ChunkDescriptor.Within (descriptor : ChunkDescriptor) (g : Geometry) : Prop :=
  descriptor.ownerNode < g.totalSlots / g.slotsPerNode ∧ descriptor.slotCount ≠ 0 ∧
    descriptor.firstSlot + descriptor.slotCount ≤ g.slotsPerNode ∧ descriptor.payloadLen ≠ 0 ∧
    descriptor.payloadLen ≤ descriptor.slotCount * g.slotSize ∧
    ¬(descriptor.slotCount > 1 ∧ descriptor.payloadLen ≤ (descriptor.slotCount - 1) * g.slotSize)

instance (descriptor : ChunkDescriptor) (g : Geometry) : Decidable (descriptor.Within g) :=
  inferInstanceAs (Decidable (_ ∧ _))

def staleChunk : Error := .malformed "chunk allocation is stale or already consumed"

/-- The checks of the generations and of the later slots, and the claim of the first slot. -/
def Process.readRun (p : Process g) (descriptor : ChunkDescriptor) (first : Nat) :
    ArenaM g (Except Error (PayloadChunk g)) := do
  let count := descriptor.slotCount
  let generation := descriptor.allocationGeneration
  if !(← runOf generation first count) then return .error staleChunk
  if !(← runReserved (first + 1) (count - 1)) then return .error staleChunk
  if ← compareExchange (.state first) slotLive slotReading then
    mark (.state first slotReading)
    mark (.taken descriptor)
    store (.readerIncarnation first) p.incarnation
    store (.readerNode first) p.node
    return .ok ⟨p, first, count, descriptor.payloadLen, generation, descriptor⟩
  else return .error staleChunk

def Process.read (p : Process g) (descriptor : ChunkDescriptor) :
    ArenaM g (Except Error (PayloadChunk g)) := do
  if descriptor.arenaKind ≠ g.spec.kind then
    return .error (.malformed (s!"chunk names payload arena kind {descriptor.arenaKind}, opened " ++
      s!"kind is {g.spec.kind}"))
  else if descriptor.Within g then
    p.readRun descriptor (descriptor.ownerNode * g.slotsPerNode + descriptor.firstSlot)
  else return .error (.malformed "chunk descriptor is outside its payload lane")

def PayloadChunk.drop (chunk : PayloadChunk g) : ArenaM g Unit :=
  releaseRun chunk.first chunk.count chunk.generation

theorem exists_offset (hint : Nat) {candidate : Nat} (hlt : candidate < g.slotsPerNode) :
    ∃ offset ∈ List.range g.slotsPerNode, (hint + offset) &&& (g.slotsPerNode - 1) = candidate := by
  have hpos := g.lane_pos
  refine ⟨(candidate + (g.slotsPerNode - hint % g.slotsPerNode)) % g.slotsPerNode,
    List.mem_range.mpr (Nat.mod_lt _ hpos), ?_⟩
  have hmod : hint % g.slotsPerNode < g.slotsPerNode := Nat.mod_lt _ hpos
  rw [and_mask g.lane_pow, Nat.add_mod_mod, ← Nat.mod_add_mod]
  have hsum : hint % g.slotsPerNode + (candidate + (g.slotsPerNode - hint % g.slotsPerNode)) =
      candidate + g.slotsPerNode := by omega
  rw [hsum, Nat.add_mod_right, Nat.mod_eq_of_lt hlt]

end OrbitExchange
