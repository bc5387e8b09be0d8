import Orbit.Exchange.Arena
import Orbit.Table.Segment

/-! The segment of a payload arena: its areas and where the words of each are. -/

namespace OrbitExchange

open Orbit.Atomic Orbit.Table

def headerSize : Nat := 64
def creditWordSize : Nat := 64
def slotMetaSize : Nat := 40

structure Offsets where
  totalSlots : Nat
  credits : Nat
  metadata : Nat
  payload : Nat
  segmentSize : Nat

namespace Geometry

variable (g : Geometry)

/-- `Geometry::new`. -/
def offsets (w : Nat → Nat) : Offsets :=
  let totalSlots := w (g.fleetCapacity * g.slotsPerNode)
  let credits := headerSize
  let metadata := w (credits + w (g.fleetCapacity * creditWordSize))
  let payload := nextMultiple w (w (metadata + w (totalSlots * slotMetaSize))) 64
  let segmentSize := w (payload + w (totalSlots * g.slotSize))
  { totalSlots, credits, metadata, payload, segmentSize }

def layout : Offsets := g.offsets word

def creditCount : Nat := g.layout.totalSlots / g.slotsPerNode

def credits : Rows := ⟨g.layout.credits, g.creditCount, creditWordSize, 64⟩
def metadata : Rows := ⟨g.layout.metadata, g.layout.totalSlots, slotMetaSize, 8⟩
def payload : Rows := ⟨g.layout.payload, g.layout.totalSlots, g.slotSize, 1⟩

def tables : List Rows := [g.credits, g.metadata, g.payload]

/-- The offsets are the ones meant, and whatever an arena looks at is in its own area. -/
structure Exact : Prop where
  offsets : g.layout = g.offsets id
  nodes : g.creditCount = g.fleetCapacity
  segment : Segment headerSize g.tables g.layout.segmentSize

/-- The bytes that the areas take, over all the numbers there are. -/
def bytes : Nat :=
  64 * (1 + g.fleetCapacity + ceilDiv (5 * (g.fleetCapacity * g.slotsPerNode)) 8) +
    g.fleetCapacity * g.slotsPerNode * g.slotSize

theorem segmentSize_id : (g.offsets id).segmentSize = g.bytes := by
  simp only [offsets, id, bytes, headerSize, creditWordSize, slotMetaSize, nextMultiple_id,
    ceilDiv_eq (m := 8) (by decide)]
  omega

theorem layout_eq (h : g.bytes < 2 ^ 64) : g.layout = g.offsets id := by
  have hfleet := g.fleet_lt
  rw [bytes, ceilDiv_eq (by decide)] at h
  simp (disch := omega) only [layout, offsets, id, headerSize, creditWordSize, slotMetaSize,
    nextMultiple_word, nextMultiple_id, word_eq]

theorem exact (h : g.bytes < 2 ^ 64) : g.Exact := by
  have hlayout := g.layout_eq h
  have hnodes : g.creditCount = g.fleetCapacity := by
    rw [creditCount, hlayout]
    exact Nat.mul_div_cancel _ g.lane_pos
  refine ⟨hlayout, hnodes, .of_laid ?_ (word_lt _)⟩
  simp only [tables, Rows.Laid, Rows.area, Area.stop, credits, metadata, payload, hnodes, hlayout]
  simp only [offsets, id, headerSize, creditWordSize, slotMetaSize, nextMultiple_id]
  omega

theorem Exact.bytes_lt (h : g.Exact) : g.bytes < 2 ^ 64 := by
  rw [← segmentSize_id, ← h.offsets]
  exact word_lt _

end Geometry

end OrbitExchange
