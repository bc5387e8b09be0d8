import Orbit.Ring.Layout
import Orbit.Table.Segment

/-! The layout of a shared-memory ring, in checked arithmetic: the header, a header for each lane
and the slots of the lanes. -/

namespace OrbitRing

open Orbit.Atomic Orbit.Table

def slotHeaderSize : Nat := 32
def headerSize : Nat := 64
def laneHeaderSize : Nat := 64
def slotAlignment : Nat := 64

def require (c : Prop) [Decidable c] (message : String) : Except String Unit :=
  if c then .ok () else .error message

/-- `checked_add` and `checked_mul`, with the error of an overflow. -/
def fits (message : String) (n : Nat) : Except String Nat := do
  require (n < 2 ^ 64) message
  return n

def laneCountFor (topology : RingTopology) (fleetCapacity : Nat) : Except String Nat := do
  require (fleetCapacity ≠ 0) "ShmRing fleet capacity must be > 0"
  return match topology with
    | .shared | .sharedOrdered => 1
    | .perNode => fleetCapacity

def checkedLayout (capacity payloadCapacity : Nat) (topology : RingTopology)
    (fleetCapacity : Nat) : Except String (Nat × Nat × Nat) := do
  require (capacity ≠ 0) "ShmRing capacity must be > 0"
  require (isPowerOfTwo capacity) "ShmRing capacity must be a power of two"
  require (payloadCapacity ≤ 2 ^ 32 - 1) "ShmRing payload capacity must fit in u32"
  let unaligned ← fits "ShmRing slot size overflow" (slotHeaderSize + payloadCapacity)
  let sum ← fits "ShmRing slot stride overflow" (unaligned + (slotAlignment - 1))
  let slotStride := alignDown sum slotAlignment
  require (slotStride ≤ 2 ^ 32 - 1) "ShmRing slot stride must fit in u32"
  let laneCount ← laneCountFor topology fleetCapacity
  let laneHeadersSize ← fits "ShmRing lane header size overflow" (laneCount * laneHeaderSize)
  let slotsOffset ← fits "ShmRing slots offset overflow" (headerSize + laneHeadersSize)
  let slotsPerLane ← fits "ShmRing lane size overflow" (capacity * slotStride)
  let slotsSize ← fits "ShmRing slots size overflow" (laneCount * slotsPerLane)
  let segmentSize ← fits "ShmRing segment size overflow" (slotsOffset + slotsSize)
  return (slotStride, slotsOffset, segmentSize)

variable {β : Type} {b : β}

theorem require_bind {c : Prop} [Decidable c] {message : String} {f : Unit → Except String β} :
    require c message >>= f = .ok b ↔ c ∧ f () = .ok b := by
  unfold require
  split
  · rename_i h
    exact (and_iff_right h).symm
  · rename_i h
    exact ⟨fun hb => (by cases hb), fun hb => absurd hb.1 h⟩

theorem fits_bind {message : String} {n : Nat} {f : Nat → Except String β} :
    fits message n >>= f = .ok b ↔ n < 2 ^ 64 ∧ f n = .ok b := by
  rw [fits, bind_assoc, require_bind, pure_bind]

/-- The checks that are not of an overflow. -/
def Accepted (capacity payloadCapacity fleetCapacity : Nat) : Prop :=
  capacity ≠ 0 ∧ isPowerOfTwo capacity ∧ payloadCapacity ≤ 2 ^ 32 - 1 ∧
    64 * ceilDiv (32 + payloadCapacity) 64 ≤ 2 ^ 32 - 1 ∧ fleetCapacity ≠ 0

def laneCount (topology : RingTopology) (fleetCapacity : Nat) : Nat :=
  match topology with
  | .shared | .sharedOrdered => 1
  | .perNode => fleetCapacity

def sizeMeant (capacity payloadCapacity : Nat) (topology : RingTopology)
    (fleetCapacity : Nat) : Nat :=
  64 + laneCount topology fleetCapacity * 64 + laneCount topology fleetCapacity *
    (capacity * (64 * ceilDiv (32 + payloadCapacity) 64))

variable {capacity payloadCapacity fleetCapacity : Nat} {topology : RingTopology}

theorem laneCountFor_bind {f : Nat → Except String β} :
    laneCountFor topology fleetCapacity >>= f = .ok b ↔
      fleetCapacity ≠ 0 ∧ f (laneCount topology fleetCapacity) = .ok b := by
  unfold laneCountFor
  rw [bind_assoc, require_bind]
  rfl

theorem laneCount_pos (h : fleetCapacity ≠ 0) : 0 < laneCount topology fleetCapacity := by
  cases topology
  · exact Nat.one_pos
  · exact Nat.pos_of_ne_zero h
  · exact Nat.one_pos

theorem checkedLayout_eq_ok {layout : Nat × Nat × Nat} :
    checkedLayout capacity payloadCapacity topology fleetCapacity = .ok layout ↔
      Accepted capacity payloadCapacity fleetCapacity ∧
      sizeMeant capacity payloadCapacity topology fleetCapacity < 2 ^ 64 ∧
      (64 * ceilDiv (32 + payloadCapacity) 64, 64 + laneCount topology fleetCapacity * 64,
        sizeMeant capacity payloadCapacity topology fleetCapacity) = layout := by
  have hstride : payloadCapacity ≤ 2 ^ 32 - 1 → alignDown (32 + payloadCapacity + 63) 64 =
      64 * ceilDiv (32 + payloadCapacity) 64 := fun h => by
    rw [show alignDown _ 64 = alignDown _ (2 ^ 6) from rfl, alignDown_eq (by decide) (by omega),
      ceilDiv_eq (by decide)]
    omega
  simp only [checkedLayout, require_bind, fits_bind, laneCountFor_bind]
  simp only [slotHeaderSize, headerSize, laneHeaderSize, slotAlignment]
  constructor
  · rintro ⟨hcapacity, hpow, hpayload, -, -, hfits, hfleet, -, -, -, -, hsize, hlayout⟩
    rw [hstride hpayload] at hfits hsize hlayout
    exact ⟨⟨hcapacity, hpow, hpayload, hfits, hfleet⟩, hsize, Except.ok.inj hlayout⟩
  · rintro ⟨⟨hcapacity, hpow, hpayload, hfits, hfleet⟩, hsize, rfl⟩
    have hlanes : capacity * (64 * ceilDiv (32 + payloadCapacity) 64) ≤
        laneCount topology fleetCapacity * (capacity * (64 * ceilDiv (32 + payloadCapacity) 64)) :=
      Nat.le_mul_of_pos_left _ (laneCount_pos hfleet)
    rw [sizeMeant] at hsize
    rw [hstride hpayload]
    exact ⟨hcapacity, hpow, hpayload, by omega, by omega, hfits, hfleet,
      by omega, by omega, by omega, by omega, hsize, rfl⟩

/-- What an attached ring works with. -/
structure Mapping where
  capacity : Nat
  laneCount : Nat
  slotStride : Nat
  slotsOffset : Nat
  segmentSize : Nat

namespace Mapping

variable (m : Mapping)

def laneHeaders : Rows := ⟨headerSize, m.laneCount, laneHeaderSize, 64⟩
def lanes : Rows := ⟨m.slotsOffset, m.laneCount, m.capacity * m.slotStride, 64⟩

/-- `slot_ptr` is a row of them. -/
def slots (lane : Nat) : Rows := ⟨m.lanes.row lane, m.capacity, m.slotStride, 64⟩

def payloadPtr (lane index : Nat) : Nat := word ((m.slots lane).row index + slotHeaderSize)

/-- The lane headers and the slots are apart and in the segment, and each slot has room for its
header and a payload. -/
structure Exact (payloadCapacity : Nat) : Prop where
  segment : Segment headerSize [m.laneHeaders, m.lanes] m.segmentSize
  lane : ∀ lane < m.laneCount, Segment (m.lanes.row lane) [m.slots lane]
    (m.lanes.row lane + m.capacity * m.slotStride)
  slot : ∀ lane < m.laneCount, ∀ index < m.capacity,
    Segment ((m.slots lane).row index + slotHeaderSize)
      [⟨m.payloadPtr lane index, 1, payloadCapacity, 1⟩]
      ((m.slots lane).row index + m.slotStride)

end Mapping

theorem checkedLayout_exact {layout : Nat × Nat × Nat}
    (h : checkedLayout capacity payloadCapacity topology fleetCapacity = .ok layout) :
    Mapping.Exact ⟨capacity, laneCount topology fleetCapacity, layout.1, layout.2.1, layout.2.2⟩
      payloadCapacity := by
  obtain ⟨-, hfits, rfl⟩ := checkedLayout_eq_ok.mp h
  generalize hm : Mapping.mk _ _ _ _ _ = m
  have hoffset : m.slotsOffset = 64 + m.laneCount * 64 := by rw [← hm]
  have hend : m.segmentSize = m.slotsOffset + m.laneCount * (m.capacity * m.slotStride) := by
    rw [← hm, sizeMeant]
  have hstride : 64 ∣ m.slotStride ∧ slotHeaderSize + payloadCapacity ≤ m.slotStride := by
    have heq : m.slotStride = 64 * ceilDiv (32 + payloadCapacity) 64 := by rw [← hm]
    rw [heq, slotHeaderSize, ceilDiv_eq (by decide)]
    omega
  have hsize : m.segmentSize < 2 ^ 64 := by rwa [← hm]
  have hsegment : Segment headerSize [m.laneHeaders, m.lanes] m.segmentSize := by
    refine .of_laid ?_ hsize
    have hlanes : 64 ∣ m.capacity * m.slotStride := Dvd.dvd.mul_left hstride.1 _
    simp only [Rows.Laid, Rows.area, Area.stop, Mapping.laneHeaders, Mapping.lanes, hoffset, hend,
      headerSize, laneHeaderSize]
    omega
  have hlane : ∀ lane < m.laneCount, Segment (m.lanes.row lane) [m.slots lane]
      (m.lanes.row lane + m.capacity * m.slotStride) ∧
      m.lanes.row lane + m.capacity * m.slotStride < 2 ^ 64 := by
    intro lane hlt
    have hmem : m.lanes ∈ [m.laneHeaders, m.lanes] := by simp
    have halign : 64 ∣ m.lanes.row lane := (hsegment.row _ hmem lane hlt).2.2
    have hend : m.lanes.row lane + m.capacity * m.slotStride < 2 ^ 64 :=
      (hsegment.row_le hmem hlt).trans_lt hsize
    refine ⟨.of_laid ⟨Nat.le_refl _, halign, hstride.1, Nat.le_refl _⟩ hend, hend⟩
  refine ⟨hsegment, fun lane hlt => (hlane lane hlt).1, fun lane hlt index hindex => ?_⟩
  obtain ⟨hslots, hend⟩ := hlane lane hlt
  have hstop : (m.slots lane).row index + m.slotStride < 2 ^ 64 :=
    (hslots.row_le (List.mem_singleton_self _) hindex).trans_lt hend
  refine .of_laid ?_ hstop
  simp only [Rows.Laid, Rows.area, Area.stop, Mapping.payloadPtr]
  rw [word_eq (by omega)]
  omega

end OrbitRing
