import Orbit.Inbox.Layout
import Orbit.Table.Segment

/-! The segment of an inbox table: the lanes with their slots, the watchers, the interest entries
and the registry of producers, which is found from the end. -/

namespace OrbitInbox

open Orbit.Atomic Orbit.Table

/-- Five words of 32 bits, one of 64 and the padding come to more than one line. -/
def tableHeaderSize : Nat := 128
def laneHeaderSize : Nat := 128
def slotHeaderSize : Nat := 64
def watcherHeaderSize : Nat := 64
def interestEntrySize : Nat := 64
def ownerSize : Nat := 64
def recordSize : Nat := 64

structure Offsets where
  slotBytes : Nat
  laneBytes : Nat
  watchers : Nat
  interest : Nat
  segmentBytes : Nat
  owners : Nat
  records : Nat

namespace Geometry

variable (g : Geometry)

/-- `InboxGeometry::segment_bytes` and where the address helpers of a table start from. -/
def offsets (w : Nat → Nat) : Offsets :=
  let slotBytes := alignDown (w (w (slotHeaderSize + g.payloadCapacity) + 63)) 64
  let laneBytes := w (laneHeaderSize + w (g.capacity * slotBytes))
  let watchers := w (tableHeaderSize + w (g.lanes * laneBytes))
  let interest := w (tableHeaderSize + w (g.lanes * w (laneBytes + watcherHeaderSize)))
  let registryBytes := w (w (2 * g.lanes) * w (ownerSize + w (g.capacity * recordSize)))
  let perLane := w (w (laneBytes + watcherHeaderSize) + 2 * interestEntrySize)
  let segmentBytes := w (w (tableHeaderSize + w (g.lanes * perLane)) + registryBytes)
  let owners := wrappingSub segmentBytes registryBytes
  let records := w (owners + w (w (2 * g.lanes) * ownerSize))
  { slotBytes, laneBytes, watchers, interest, segmentBytes, owners, records }

def layout : Offsets := g.offsets word

def laneRows : Rows := ⟨tableHeaderSize, g.lanes, g.layout.laneBytes, 64⟩
def watchers : Rows := ⟨g.layout.watchers, g.lanes, watcherHeaderSize, 64⟩
def interests : Rows := ⟨g.layout.interest, 2 * g.lanes, interestEntrySize, 64⟩
def owners : Rows := ⟨g.layout.owners, 2 * g.lanes, ownerSize, 64⟩
def records : Rows := ⟨g.layout.records, 2 * g.lanes * g.capacity, recordSize, 64⟩

def slots (lane : Nat) : Rows :=
  ⟨word (g.laneRows.row lane + laneHeaderSize), g.capacity, g.layout.slotBytes, 64⟩

/-- `slot_base`: a position is masked to the row of its slot. -/
def slotBase (lane position : Nat) : Nat := (g.slots lane).row (g.slot position)

def payload (lane position : Nat) : Rows :=
  ⟨word (g.slotBase lane position + slotHeaderSize), 1, g.payloadCapacity, 1⟩

def tables : List Rows := [g.laneRows, g.watchers, g.interests, g.owners, g.records]

/-- The offsets are the ones meant, and whatever a table looks at is in its own area. -/
structure Exact : Prop where
  offsets : g.layout = g.offsets id
  segment : Segment tableHeaderSize g.tables g.layout.segmentBytes
  lane : ∀ lane < g.lanes, Segment (g.laneRows.row lane + laneHeaderSize) [g.slots lane]
    (g.laneRows.row lane + g.layout.laneBytes)
  slot : ∀ position, g.slot position < g.capacity
  payload : ∀ lane < g.lanes, ∀ position,
    Segment (g.slotBase lane position + slotHeaderSize) [g.payload lane position]
      (g.slotBase lane position + g.layout.slotBytes)

/-- The slots of a lane, in lines of 64 bytes. -/
def slotLines : Nat := g.capacity * (1 + ceilDiv g.payloadCapacity 64)

def lines : Nat := 2 + g.lanes * (5 + g.slotLines) + 2 * g.lanes * (1 + g.capacity)

theorem slotLines_le : 64 * g.slotLines ≤ 2 ^ 63 + 2 ^ 37 := by
  have hcapacity := power_le g.capacity_pow g.capacity_lt
  have hpayload := g.payload_lt
  have hlines : g.slotLines ≤ 2 ^ 31 * (1 + 2 ^ 26) := by
    refine Nat.mul_le_mul hcapacity ?_
    rw [ceilDiv_eq (by decide)]
    omega
  omega

theorem offsets_eq {w : Nat → Nat} (hw : ∀ n, n < 2 ^ 64 ∨ n ≤ 64 * g.lines → w n = n) :
    g.offsets w =
      { slotBytes := 64 * (1 + ceilDiv g.payloadCapacity 64)
        laneBytes := 64 * (2 + g.slotLines)
        watchers := 64 * (2 + g.lanes * (2 + g.slotLines))
        interest := 64 * (2 + g.lanes * (3 + g.slotLines))
        segmentBytes := 64 * g.lines
        owners := 64 * (2 + g.lanes * (5 + g.slotLines))
        records := 64 * (2 + g.lanes * (5 + g.slotLines) + 2 * g.lanes) } := by
  have hpayload := g.payload_lt
  have hslots := g.slotLines_le
  have hlanes := g.lanes_lt
  have hcapacity := g.capacity_lt
  have hexpand : ∀ k, g.lanes * (k + g.slotLines) = g.lanes * k + g.lanes * g.slotLines :=
    fun k => Nat.mul_add _ _ _
  have htwo := hexpand 2
  have hthree := hexpand 3
  have hfive := hexpand 5
  have hregistry := Nat.mul_add (2 * g.lanes) 1 g.capacity
  have hlines : g.lines = 2 + g.lanes * (5 + g.slotLines) + 2 * g.lanes * (1 + g.capacity) := rfl
  have hmul : ∀ n m, n * (64 * m) = 64 * (n * m) := fun n m => Nat.mul_left_comm n 64 m
  have hslotBytes : alignDown (w (w (64 + g.payloadCapacity) + 63)) 64 =
      64 * (1 + ceilDiv g.payloadCapacity 64) := by
    rw [hw (64 + _) (by omega), hw _ (by omega),
      show alignDown _ 64 = alignDown _ (2 ^ 6) from rfl, alignDown_eq (by decide) (by omega),
      ceilDiv_eq (by decide)]
    omega
  have hlane : w (128 + w (g.capacity * (64 * (1 + ceilDiv g.payloadCapacity 64)))) =
      64 * (2 + g.slotLines) := by
    rw [hmul, ← slotLines, hw (64 * _) (by omega), hw _ (by omega)]
    omega
  have hinner : w (64 * (2 + g.slotLines) + 64) = 64 * (3 + g.slotLines) := by
    rw [hw _ (by omega)]
    omega
  have hperLane : w (64 * (3 + g.slotLines) + 2 * 64) = 64 * (5 + g.slotLines) := by
    rw [hw _ (by omega)]
    omega
  have hafter : ∀ k ≤ 5, w (128 + w (g.lanes * (64 * (k + g.slotLines)))) =
      64 * (2 + g.lanes * (k + g.slotLines)) := by
    intro k hk
    have hle : g.lanes * (k + g.slotLines) ≤ g.lanes * (5 + g.slotLines) :=
      Nat.mul_le_mul_left _ (by omega)
    rw [hmul, hw (64 * _) (by omega), hw _ (by omega)]
    omega
  have hregistryBytes : w (w (2 * g.lanes) * w (64 + w (g.capacity * 64))) =
      64 * (2 * g.lanes * (1 + g.capacity)) := by
    rw [hw (2 * _) (by omega), hw (_ * 64) (by omega), hw (64 + _) (by omega),
      show 64 + g.capacity * 64 = 64 * (1 + g.capacity) by omega, hmul, hw _ (by omega)]
  have hsegment : w (64 * (2 + g.lanes * (5 + g.slotLines)) +
      64 * (2 * g.lanes * (1 + g.capacity))) = 64 * g.lines := by
    rw [hw _ (by omega)]
    omega
  have howners : wrappingSub (64 * g.lines) (64 * (2 * g.lanes * (1 + g.capacity))) =
      64 * (2 + g.lanes * (5 + g.slotLines)) := by
    rw [wrappingSub, if_pos (by omega)]
    omega
  have hrecords : w (64 * (2 + g.lanes * (5 + g.slotLines)) + w (w (2 * g.lanes) * 64)) =
      64 * (2 + g.lanes * (5 + g.slotLines) + 2 * g.lanes) := by
    rw [hw (2 * _) (by omega), hw (_ * 64) (by omega), hw _ (by omega)]
    omega
  simp only [offsets, tableHeaderSize, laneHeaderSize, slotHeaderSize, watcherHeaderSize,
    interestEntrySize, ownerSize, recordSize, hslotBytes, hlane, hinner, hperLane, hregistryBytes,
    hafter 2 (by decide), hafter 3 (by decide), hafter 5 (by decide), hsegment, howners, hrecords]

theorem exact (h : g.lines < 2 ^ 58) : g.Exact := by
  have hmeant := g.offsets_eq (w := word) (fun n hn => word_eq (by omega))
  rw [← layout] at hmeant
  have hfits : g.layout.segmentBytes < 2 ^ 64 := word_lt _
  have hexpand : ∀ k, g.lanes * (k + g.slotLines) = g.lanes * k + g.lanes * g.slotLines :=
    fun k => Nat.mul_add _ _ _
  have hsegment : Segment tableHeaderSize g.tables g.layout.segmentBytes := by
    refine .of_laid ?_ hfits
    have htwo := hexpand 2
    have hthree := hexpand 3
    have hfive := hexpand 5
    have hregistry := Nat.mul_add (2 * g.lanes) 1 g.capacity
    have hlanes := Nat.mul_left_comm g.lanes 64 (2 + g.slotLines)
    simp only [tables, Rows.Laid, Rows.area, Area.stop, laneRows, watchers, interests, owners,
      records, hmeant, tableHeaderSize, watcherHeaderSize, interestEntrySize, ownerSize,
      recordSize, lines]
    omega
  have hslot : ∀ position, g.slot position < g.capacity := fun position => by
    rw [Geometry.slot, and_mask g.capacity_pow]
    exact Nat.mod_lt _ (power_pos g.capacity_pow)
  have hlaneBytes : g.layout.laneBytes = laneHeaderSize + g.capacity * g.layout.slotBytes := by
    simp only [hmeant, laneHeaderSize, slotLines]
    rw [Nat.mul_left_comm g.capacity]
    omega
  have hslotBytes : 64 ∣ g.layout.slotBytes ∧
      slotHeaderSize + g.payloadCapacity ≤ g.layout.slotBytes := by
    simp only [hmeant, slotHeaderSize, ceilDiv_eq (m := 64) (by decide)]
    omega
  have hlane : ∀ lane < g.lanes, Segment (g.laneRows.row lane + laneHeaderSize) [g.slots lane]
      (g.laneRows.row lane + g.layout.laneBytes) ∧
      g.laneRows.row lane + g.layout.laneBytes < 2 ^ 64 := by
    intro lane hlt
    have hmem : g.laneRows ∈ g.tables := by simp [tables]
    have haligned : 64 ∣ g.laneRows.row lane := (hsegment.row _ hmem lane hlt).2.2
    have hend : g.laneRows.row lane + g.layout.laneBytes < 2 ^ 64 :=
      (hsegment.row_le hmem hlt).trans_lt hfits
    refine ⟨.of_laid ?_ hend, hend⟩
    simp only [Rows.Laid, Rows.area, Area.stop, slots, hlaneBytes, laneHeaderSize] at hend ⊢
    rw [word_eq (by omega)]
    omega
  refine ⟨?_, hsegment, fun lane hlt => (hlane lane hlt).1, hslot, fun lane hlt position => ?_⟩
  · rw [hmeant, g.offsets_eq (w := id) (fun _ _ => rfl)]
  · obtain ⟨hslots, hend⟩ := hlane lane hlt
    have hbase : g.slotBase lane position + g.layout.slotBytes < 2 ^ 64 :=
      (hslots.row_le (List.mem_singleton_self _) (hslot position)).trans_lt hend
    refine .of_laid ?_ hbase
    simp only [Rows.Laid, Rows.area, Area.stop, payload]
    rw [word_eq (by omega)]
    omega

theorem Exact.lines_lt (h : g.Exact) : g.lines < 2 ^ 58 := by
  have hsize : (g.offsets id).segmentBytes = 64 * g.lines := by
    rw [g.offsets_eq (w := id) (fun _ _ => rfl)]
  have hlt : (g.offsets id).segmentBytes < 2 ^ 64 := by
    rw [← h.offsets]
    exact word_lt _
  omega

end Geometry

end OrbitInbox
