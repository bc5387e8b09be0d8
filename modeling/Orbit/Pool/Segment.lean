import Orbit.Pool.Layout
import Orbit.Table.Segment

/-! The segment of a pool table: eight areas, one after the other, and where the words of each are.
The offsets are those of the source when `w` keeps what a machine word does, and the ones that are
meant when it keeps everything. -/

namespace OrbitPool

open Orbit.Atomic Orbit.Table

def headerSize : Nat := 64
def doorbellSize : Nat := 64
def keySlotSize : Nat := 64
def resourceSlotSize : Nat := 128 + 16 * pendingReservations

structure Offsets where
  totalResources : Nat
  /-- Words in a resource bitmap (key members). -/
  memberWords : Nat
  /-- Words in a key bitmap (pending, interest). -/
  keyWords : Nat
  /-- Bytes from one key slot to the next: the slot plus its members. -/
  keyStride : Nat
  doorbells : Nat
  pending : Nat
  interest : Nat
  claims : Nat
  admissions : Nat
  keys : Nat
  resources : Nat
  segmentSize : Nat

namespace Geometry

variable (g : Geometry)

/-- `Geometry::new`. -/
def offsets (w : Nat → Nat) : Offsets :=
  let totalResources := w (g.fleetCapacity * g.laneCapacity)
  let memberWords := ceilDiv totalResources 64
  let keyWords := ceilDiv g.keyCapacity 64
  let keyStride := nextMultiple w (w (keySlotSize + w (memberWords * 8))) 64
  let keyBitmapBytes := w (w (g.fleetCapacity * keyWords) * 8)
  let doorbells := headerSize
  let pending := w (doorbells + w (g.fleetCapacity * doorbellSize))
  let interest := w (pending + keyBitmapBytes)
  let claims := nextMultiple w (w (interest + keyBitmapBytes)) 64
  let claimsBytes := w (w (g.fleetCapacity * g.keyCapacity) * 4)
  let admissions := w (claims + claimsBytes)
  let admissionsBytes :=
    w (w (w (g.spec.fleetConcurrency.toNat * g.fleetCapacity) * g.keyCapacity) * 4)
  let keys := nextMultiple w (w (admissions + admissionsBytes)) 64
  let resources := w (keys + w (g.keyCapacity * keyStride))
  let segmentSize := w (resources + w (totalResources * resourceSlotSize))
  { totalResources, memberWords, keyWords, keyStride, doorbells, pending, interest, claims,
    admissions, keys, resources, segmentSize }

def layout : Offsets := g.offsets word

def doorbells : Rows := ⟨g.layout.doorbells, g.fleetCapacity, doorbellSize, 64⟩

/-- `pending_word` and `interest_word` are their cells, of a node and a word. -/
def pendingWords : Rows := ⟨g.layout.pending, g.fleetCapacity * g.layout.keyWords, 8, 8⟩
def interestWords : Rows := ⟨g.layout.interest, g.fleetCapacity * g.layout.keyWords, 8, 8⟩

def claims : Rows := ⟨g.layout.claims, g.fleetCapacity * g.keyCapacity, 4, 4⟩

/-- There are none unless the spec counts admissions. -/
def admissions : Rows :=
  ⟨g.layout.admissions, g.spec.fleetConcurrency.toNat * (g.fleetCapacity * g.keyCapacity), 4, 4⟩

def keys : Rows := ⟨g.layout.keys, g.keyCapacity, g.layout.keyStride, 64⟩
def resources : Rows := ⟨g.layout.resources, g.layout.totalResources, resourceSlotSize, 64⟩

def members (index : Nat) : Rows :=
  ⟨word (g.keys.row index + keySlotSize), g.layout.memberWords, 8, 8⟩

def tables : List Rows :=
  [g.doorbells, g.pendingWords, g.interestWords, g.claims, g.admissions, g.keys, g.resources]

/-- The offsets are the ones meant, and whatever a table looks at is in its own area. -/
structure Exact : Prop where
  offsets : g.layout = g.offsets id
  segment : Segment headerSize g.tables g.layout.segmentSize
  pending : g.pendingWords.Cells g.fleetCapacity g.layout.keyWords
  interest : g.interestWords.Cells g.fleetCapacity g.layout.keyWords
  claims : g.claims.Cells g.fleetCapacity g.keyCapacity
  admissions : g.spec.fleetConcurrency = true →
    g.admissions.Cells g.fleetCapacity g.keyCapacity
  members : ∀ index < g.keyCapacity, Segment (g.keys.row index + keySlotSize) [g.members index]
    (g.keys.row index + g.layout.keyStride)

/-- The lines of 64 bytes that the areas take, over all the numbers there are. -/
def lines : Nat :=
  1 + g.fleetCapacity + ceilDiv (g.fleetCapacity * ceilDiv g.keyCapacity 64) 4 +
    ceilDiv ((1 + g.spec.fleetConcurrency.toNat) * (g.fleetCapacity * g.keyCapacity)) 16 +
    g.keyCapacity * (1 + ceilDiv (g.fleetCapacity * g.laneCapacity) 512) +
    6 * (g.fleetCapacity * g.laneCapacity)

theorem offsets_eq {w : Nat → Nat} (hw : ∀ n, n < 2 ^ 64 ∨ n ≤ 64 * g.lines → w n = n) :
    g.offsets w =
      let bitmap := g.fleetCapacity * ceilDiv g.keyCapacity 64
      let cells := g.fleetCapacity * g.keyCapacity
      let claims := 64 * (1 + g.fleetCapacity + ceilDiv bitmap 4)
      let keys := claims + 64 * ceilDiv ((1 + g.spec.fleetConcurrency.toNat) * cells) 16
      let keyStride := 64 * (1 + ceilDiv (g.fleetCapacity * g.laneCapacity) 512)
      { totalResources := g.fleetCapacity * g.laneCapacity
        memberWords := ceilDiv (g.fleetCapacity * g.laneCapacity) 64
        keyWords := ceilDiv g.keyCapacity 64
        keyStride
        doorbells := 64
        pending := 64 + g.fleetCapacity * 64
        interest := 64 + g.fleetCapacity * 64 + bitmap * 8
        claims
        admissions := claims + cells * 4
        keys
        resources := keys + g.keyCapacity * keyStride
        segmentSize := 64 * g.lines } := by
  have hfleet := g.fleet_lt
  have htotal : g.fleetCapacity * g.laneCapacity < 2 ^ 32 := g.totalResources_lt
  have hmul := Nat.mul_left_comm g.keyCapacity 64
    (1 + (g.fleetCapacity * g.laneCapacity + 511) / 512)
  have hstride : (64 + (g.fleetCapacity * g.laneCapacity + 63) / 64 * 8 + 63) / 64 * 64 =
      64 * (1 + (g.fleetCapacity * g.laneCapacity + 511) / 512) := by omega
  have hnext : ∀ n, (n + 63) / 64 * 64 < 2 ^ 64 ∨ (n + 63) / 64 * 64 ≤ 64 * g.lines →
      nextMultiple w n 64 = (n + 63) / 64 * 64 := fun n h => nextMultiple_of (by decide) (hw _ h)
  have hlines : g.lines =
      1 + g.fleetCapacity + (g.fleetCapacity * ((g.keyCapacity + 63) / 64) + 3) / 4 +
        (g.fleetCapacity * g.keyCapacity +
          g.spec.fleetConcurrency.toNat * (g.fleetCapacity * g.keyCapacity) + 15) / 16 +
        g.keyCapacity * (1 + (g.fleetCapacity * g.laneCapacity + 511) / 512) +
        6 * (g.fleetCapacity * g.laneCapacity) := by
    rw [lines, ceilDiv_eq (m := 4) (by decide), ceilDiv_eq (m := 16) (by decide),
      ceilDiv_eq (m := 64) (by decide), ceilDiv_eq (m := 512) (by decide), Nat.add_mul,
      Nat.one_mul]
  cases hconcurrency : g.spec.fleetConcurrency
  all_goals
    simp only [hconcurrency, Bool.toNat_true, Bool.toNat_false, Nat.zero_mul, Nat.one_mul] at hlines
    simp (disch := omega) only [offsets, hconcurrency, headerSize, doorbellSize, keySlotSize,
      resourceSlotSize, pendingReservations, Bool.toNat_true, Bool.toNat_false, Nat.zero_mul,
      Nat.one_mul, Nat.add_mul, Nat.reduceSub, hw, hnext, hstride,
      ceilDiv_eq (m := 4) (by decide), ceilDiv_eq (m := 16) (by decide),
      ceilDiv_eq (m := 64) (by decide), ceilDiv_eq (m := 512) (by decide)]
    rw [Offsets.mk.injEq]
    omega

theorem exact (h : g.lines < 2 ^ 58) : g.Exact := by
  have hmeant := g.offsets_eq (w := word) (fun n hn => word_eq (by omega))
  rw [← layout] at hmeant
  have hfits : g.layout.segmentSize < 2 ^ 64 := word_lt _
  have hsegment : Segment headerSize g.tables g.layout.segmentSize := by
    refine .of_laid ?_ hfits
    have hkeys := Nat.mul_left_comm g.keyCapacity 64
      (1 + ceilDiv (g.fleetCapacity * g.laneCapacity) 512)
    simp only [tables, Rows.area, Rows.Laid, Area.stop, doorbells, pendingWords, interestWords,
      claims, admissions, keys, resources, hmeant, headerSize, doorbellSize, resourceSlotSize,
      pendingReservations, lines, ceilDiv_eq (m := 4) (by decide),
      ceilDiv_eq (m := 16) (by decide), Nat.add_mul, Nat.one_mul]
    omega
  refine ⟨?_, hsegment, ?_, ?_, ?_, ?_, ?_⟩
  · rw [hmeant, g.offsets_eq (w := id) (fun _ _ => rfl)]
  · exact hsegment.cells hfits (by simp [tables]) (Nat.succ_pos _) rfl
  · exact hsegment.cells hfits (by simp [tables]) (Nat.succ_pos _) rfl
  · exact hsegment.cells hfits (by simp [tables]) (Nat.succ_pos _) rfl
  · intro hconcurrency
    refine hsegment.cells hfits (by simp [tables]) (Nat.succ_pos _) ?_
    rw [admissions, hconcurrency, Bool.toNat_true, Nat.one_mul]
  · intro index hindex
    have hmem : g.keys ∈ g.tables := by simp [tables]
    have halign : 64 ∣ g.keys.row index := (hsegment.row _ hmem index hindex).2.2
    have hstop : g.keys.row index + g.layout.keyStride < 2 ^ 64 :=
      (hsegment.row_le hmem hindex).trans_lt hfits
    refine .of_laid ?_ hstop
    have hstride : g.layout.keyStride =
          64 * (1 + ceilDiv (g.fleetCapacity * g.laneCapacity) 512) ∧
        g.layout.memberWords = ceilDiv (g.fleetCapacity * g.laneCapacity) 64 := by
      rw [hmeant]
      exact ⟨rfl, rfl⟩
    rw [ceilDiv_eq (by decide), ceilDiv_eq (m := 64) (by decide)] at hstride
    simp only [Rows.Laid, Rows.area, Area.stop, members, keySlotSize]
    rw [word_eq (by omega)]
    omega

/-- The offsets are exact for just the capacities whose lines a word counts the bytes of. -/
theorem exact_iff : g.Exact ↔ g.lines < 2 ^ 58 := by
  refine ⟨fun h => ?_, g.exact⟩
  have hsize : (g.offsets id).segmentSize = 64 * g.lines := by
    rw [g.offsets_eq (w := id) (fun _ _ => rfl)]
  have hlt : (g.offsets id).segmentSize < 2 ^ 64 := by
    rw [← h.offsets]
    exact word_lt _
  omega

theorem wide_valid : PoolSpec.validate ⟨0, 2 ^ 62, 1, false, false⟩ = .ok () := by decide

/-- A table of one node and `2 ^ 62` keys. -/
def wide : Geometry := ⟨⟨0, 2 ^ 62, 1, false, false⟩, 1, wide_valid, one_lt_u16⟩

/-- It is accepted, and its claims, keys and resources begin at the same byte. -/
theorem wide_not_exact : ¬ wide.Exact ∧ wide.layout.claims = wide.layout.keys ∧
    wide.layout.keys = wide.layout.resources := by
  refine ⟨fun h => ?_, by decide, by decide⟩
  exact absurd (congrArg Offsets.resources h.offsets) (by decide)

end Geometry

end OrbitPool
