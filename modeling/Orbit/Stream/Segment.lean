import Orbit.Stream.Layout
import Orbit.Table.Segment

/-! The segment of a stream table: its areas and where the words of each are.  The bounds on a lane
and on a buffer keep every offset within a word. -/

namespace OrbitStream

open Orbit.Atomic Orbit.Table

def headerSize : Nat := 64
def doorbellSize : Nat := 64
def slotSize : Nat := 448

structure Offsets where
  totalSlots : Nat
  bitmapWords : Nat
  doorbells : Nat
  pending : Nat
  offers : Nat
  slots : Nat
  buffers : Nat
  segmentSize : Nat

namespace Geometry

variable (g : Geometry)

/-- `Geometry::new`. -/
def offsets (w : Nat → Nat) : Offsets :=
  let totalSlots := w (g.fleetCapacity * g.laneCapacity)
  let bitmapWords := ceilDiv totalSlots 64
  let bitmapBytes := w (w (g.fleetCapacity * bitmapWords) * 8)
  let doorbells := headerSize
  let pending := w (doorbells + w (g.fleetCapacity * doorbellSize))
  let offers := w (pending + bitmapBytes)
  let slots := nextMultiple w (w (offers + bitmapBytes)) 64
  let buffers := w (slots + w (totalSlots * slotSize))
  let segmentSize := w (buffers + w (w (totalSlots * 2) * g.bufferBytes))
  { totalSlots, bitmapWords, doorbells, pending, offers, slots, buffers, segmentSize }

def layout : Offsets := g.offsets word

def doorbells : Rows := ⟨g.layout.doorbells, g.fleetCapacity, doorbellSize, 64⟩

/-- `pending_word` and `offer_word` are their cells, of a node and a word. -/
def pendingWords : Rows := ⟨g.layout.pending, g.fleetCapacity * g.layout.bitmapWords, 8, 8⟩
def offerWords : Rows := ⟨g.layout.offers, g.fleetCapacity * g.layout.bitmapWords, 8, 8⟩

def slots : Rows := ⟨g.layout.slots, g.layout.totalSlots, slotSize, 64⟩

/-- `buffer_offset` is a cell, of a slot and a direction. -/
def buffers : Rows := ⟨g.layout.buffers, g.layout.totalSlots * 2, g.bufferBytes, 1⟩

def tables : List Rows := [g.doorbells, g.pendingWords, g.offerWords, g.slots, g.buffers]

/-- The offsets are the ones meant, and whatever a table looks at is in its own area. -/
structure Exact : Prop where
  offsets : g.layout = g.offsets id
  segment : Segment headerSize g.tables g.layout.segmentSize
  pending : g.pendingWords.Cells g.fleetCapacity g.layout.bitmapWords
  offer : g.offerWords.Cells g.fleetCapacity g.layout.bitmapWords
  buffer : g.buffers.Cells g.layout.totalSlots 2

theorem bounds : g.fleetCapacity * g.laneCapacity ≤ 2 ^ 32 - 2 ^ 16 ∧
    g.fleetCapacity * ((g.fleetCapacity * g.laneCapacity + 63) / 64) ≤ 2 ^ 42 ∧
    g.fleetCapacity * g.laneCapacity * 2 * g.bufferBytes ≤ 2 ^ 64 - 2 ^ 48 := by
  have hfleet := g.fleet_lt
  have htotal : g.fleetCapacity * g.laneCapacity ≤ 2 ^ 32 - 2 ^ 16 :=
    calc g.fleetCapacity * g.laneCapacity ≤ (2 ^ 16 - 1) * 2 ^ slotBits :=
          Nat.mul_le_mul (by omega) g.valid_parts.2.2.2.2.1
      _ ≤ 2 ^ 32 - 2 ^ 16 := by decide
  refine ⟨htotal, ?_, ?_⟩
  · calc g.fleetCapacity * ((g.fleetCapacity * g.laneCapacity + 63) / 64)
        ≤ 2 ^ 16 * 2 ^ 26 := Nat.mul_le_mul (by omega) (by omega)
      _ ≤ 2 ^ 42 := by decide
  · calc g.fleetCapacity * g.laneCapacity * 2 * g.bufferBytes
        ≤ (2 ^ 32 - 2 ^ 16) * 2 * 2 ^ 31 :=
          Nat.mul_le_mul (Nat.mul_le_mul_right _ htotal) (power_le g.buffer_pow g.buffer_lt)
      _ ≤ 2 ^ 64 - 2 ^ 48 := by decide

theorem layout_eq : g.layout = g.offsets id := by
  have hfleet := g.fleet_lt
  obtain ⟨htotal, hbitmap, hbuffers⟩ := g.bounds
  simp (disch := omega) only [layout, offsets, id, headerSize, doorbellSize, slotSize,
    nextMultiple_word, nextMultiple_id, ceilDiv_eq (m := 64) (by decide), word_eq, Nat.reduceSub]

theorem exact : g.Exact := by
  have hfits : g.layout.segmentSize < 2 ^ 64 := word_lt _
  have hsegment : Segment headerSize g.tables g.layout.segmentSize := by
    refine .of_laid ?_ hfits
    simp only [tables, Rows.Laid, Rows.area, Area.stop, doorbells, pendingWords, offerWords, slots,
      buffers, layout_eq]
    simp only [offsets, id, headerSize, doorbellSize, slotSize, nextMultiple_id]
    omega
  exact ⟨g.layout_eq, hsegment,
    hsegment.cells hfits (by simp [tables]) (Nat.succ_pos _) rfl,
    hsegment.cells hfits (by simp [tables]) (Nat.succ_pos _) rfl,
    hsegment.cells hfits (by simp [tables]) g.buffer_pos rfl⟩

end Geometry

end OrbitStream
