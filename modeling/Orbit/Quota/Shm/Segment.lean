import Orbit.Quota.Contract
import Orbit.Table.Segment

/-! The layout of a quota table's mapping, in checked arithmetic: the header, the shards, the
owners, their matrix of pins and the slots, each with two key buffers and, under guard, two recency
words. -/

namespace OrbitQuota.Shm

open Orbit.Atomic Orbit.Table

def headerSize : Nat := 256
def shardSize : Nat := 64
def ownerSize : Nat := 64
def slotSize : Nat := 128

structure Layout where
  shards : Nat
  owners : Nat
  pins : Nat
  slots : Nat
  slotStride : Nat
  recency : Nat
  size : Nat
  deriving DecidableEq

def align (value alignment : Nat) : Option Nat := do
  let sum ← checked (value + (alignment - 1))
  return alignDown sum alignment

namespace Layout

variable (g : Geometry) (owners : Nat) (retention : Retention)

/-- The additions and products of `Layout::with_retention`. -/
def compute : Option Layout := do
  let shards := headerSize
  let shardBytes ← checked (g.shards * shardSize)
  let ownerOffset ← checked (shards + shardBytes)
  let ownerBytes ← checked (owners * ownerSize)
  let pins ← checked (ownerOffset + ownerBytes)
  let cells ← checked (owners * g.slots)
  let pinBytes ← checked (cells * 8)
  let pinsEnd ← checked (pins + pinBytes)
  let slots ← align pinsEnd 64
  let keyBytes ← checked (2 * g.keyBytes)
  let keysEnd ← checked (slotSize + keyBytes)
  let recency ← align keysEnd 16
  let stop ← if retention = .guard then do
      let recencyBytes ← checked (2 * 16)
      checked (recency + recencyBytes)
    else pure keysEnd
  let slotStride ← align stop 64
  let slotsBytes ← checked (g.slots * slotStride)
  let size ← checked (slots + slotsBytes)
  return { shards, owners := ownerOffset, pins, slots, slotStride, recency, size }

/-- `Layout::with_retention`, which also refuses what is too large for an `isize`. -/
def withRetention : Option Layout :=
  match compute g owners retention with
  | none => none
  | some layout => if 2 ^ 63 - 1 < layout.size then none else some layout

def meant : Layout :=
  let ownerOffset := headerSize + g.shards * shardSize
  let pins := ownerOffset + owners * ownerSize
  let slots := 64 * (4 + g.shards + owners + ceilDiv (owners * g.slots) 8)
  let recency := 16 * (8 + ceilDiv g.keyBytes 8)
  let slotStride :=
    64 * (if retention = .guard then ceilDiv (10 + ceilDiv g.keyBytes 8) 4
      else 2 + ceilDiv g.keyBytes 32)
  { shards := headerSize, owners := ownerOffset, pins, slots, slotStride, recency
    size := slots + g.slots * slotStride }

variable {g owners retention} {layout : Layout}

theorem align_bind {β : Type} {f : Nat → Option β} {b : β} {value k : Nat} (hk : k ≤ 64) :
    align value (2 ^ k) >>= f = some b ↔ value + (2 ^ k - 1) < 2 ^ 64 ∧
      f ((value + (2 ^ k - 1)) / 2 ^ k * 2 ^ k) = some b := by
  rw [align, bind_assoc, checked_bind]
  exact and_congr_right fun h => by rw [pure_bind, alignDown_eq hk h]

theorem compute_some : compute g owners retention = some layout ↔
    (meant g owners retention).size < 2 ^ 64 ∧ meant g owners retention = layout := by
  have hline : ∀ {value f}, align value 64 >>= f = some layout ↔
      value + 63 < 2 ^ 64 ∧ f ((value + 63) / 64 * 64) = some layout :=
    align_bind (k := 6) (by decide)
  have hword : ∀ {value f}, align value 16 >>= f = some layout ↔
      value + 15 < 2 ^ 64 ∧ f ((value + 15) / 16 * 16) = some layout :=
    align_bind (k := 4) (by decide)
  have hslots : (256 + g.shards * 64 + owners * 64 + owners * g.slots * 8 + 63) / 64 * 64 =
      64 * (4 + g.shards + owners + ceilDiv (owners * g.slots) 8) := by
    rw [ceilDiv_eq (m := 8) (by decide)]
    omega
  have hrecency : (128 + 2 * g.keyBytes + 15) / 16 * 16 = 16 * (8 + ceilDiv g.keyBytes 8) := by
    rw [ceilDiv_eq (m := 8) (by decide)]
    omega
  have hstrict : (128 + 2 * g.keyBytes + 63) / 64 * 64 = 64 * (2 + ceilDiv g.keyBytes 32) := by
    rw [ceilDiv_eq (m := 32) (by decide)]
    omega
  have hguard : (16 * (8 + ceilDiv g.keyBytes 8) + 2 * 16 + 63) / 64 * 64 =
      64 * ceilDiv (10 + ceilDiv g.keyBytes 8) 4 := by
    rw [ceilDiv_eq (m := 4) (by decide)]
    omega
  have hrow : ∀ stride, stride ≤ g.slots * stride := fun stride =>
    Nat.le_mul_of_pos_left stride g.slots_pos
  have hstrictRow := hrow (64 * (2 + ceilDiv g.keyBytes 32))
  have hguardRow := hrow (64 * ceilDiv (10 + ceilDiv g.keyBytes 8) 4)
  -- Every result on the way is at most the size.
  cases retention
  all_goals
    simp only [compute, meant, checked_bind, pure_bind, hline, hword, reduceCtorEq,
      if_false, if_true, headerSize, shardSize, ownerSize, slotSize, hslots, hrecency, hstrict,
      hguard]
    simp only [Option.pure_def, Option.some.injEq, ← and_assoc]
    refine and_congr_left fun _ => ⟨fun h => h.2, fun h => ?_⟩
    omega

variable (g owners) (layout)

def shardRows : Rows := ⟨layout.shards, g.shards, shardSize, 64⟩
def ownerRows : Rows := ⟨layout.owners, owners, ownerSize, 64⟩

/-- `counter` is a cell, of an owner and a slot. -/
def counters : Rows := ⟨layout.pins, owners * g.slots, 8, 8⟩

def slotRows : Rows := ⟨layout.slots, g.slots, layout.slotStride, 64⟩

def tables : List Rows :=
  [layout.shardRows g, layout.ownerRows owners, layout.counters g owners, layout.slotRows g]

/-- `key_ptr`: the two key buffers that follow the header of a slot. -/
def keyBuffers (index : Nat) : Rows :=
  ⟨word ((layout.slotRows g).row index + slotSize), 2, g.keyBytes, 1⟩

/-- `last_seen`: the two words of the times at which the banks were last used. -/
def recencyWords (index : Nat) : Rows :=
  ⟨word ((layout.slotRows g).row index + layout.recency), 2, 16, 16⟩

def banks (retention : Retention) (index : Nat) : List Rows :=
  if retention = .guard then [layout.keyBuffers g index, layout.recencyWords g index]
  else [layout.keyBuffers g index]

/-- Whatever a table looks at is in its own area. -/
structure Exact (retention : Retention) : Prop where
  segment : Segment headerSize (layout.tables g owners) layout.size
  counter : (layout.counters g owners).Cells owners g.slots
  slot : ∀ index < g.slots, Segment ((layout.slotRows g).row index + slotSize)
    (layout.banks g retention index) ((layout.slotRows g).row index + layout.slotStride)

variable {g owners layout}

theorem withRetention_some (h : withRetention g owners retention = some layout) :
    layout = meant g owners retention ∧ layout.size ≤ 2 ^ 63 - 1 := by
  unfold withRetention at h
  split at h
  · cases h
  · rename_i computed hcompute
    split at h
    · cases h
    · rename_i hsize
      cases h
      exact ⟨(compute_some.mp hcompute).2.symm, Nat.not_lt.mp hsize⟩

theorem withRetention_exact (h : withRetention g owners retention = some layout) :
    layout.Exact g owners retention := by
  obtain ⟨hmeant, hsize⟩ := withRetention_some h
  have hfits : layout.size < 2 ^ 64 := by omega
  have hkeys : slotSize + 2 * g.keyBytes ≤ layout.slotStride ∧ 64 ∣ layout.slotStride := by
    rw [hmeant]
    cases retention
    all_goals
      simp only [meant, reduceCtorEq, if_false, if_true, slotSize,
        ceilDiv_eq (m := 4) (by decide), ceilDiv_eq (m := 8) (by decide),
        ceilDiv_eq (m := 32) (by decide)]
      omega
  have hsegment : Segment headerSize (layout.tables g owners) layout.size := by
    refine .of_laid ?_ hfits
    have hline := hkeys.2
    simp only [tables, Rows.Laid, Rows.area, Area.stop, shardRows, ownerRows, counters, slotRows,
      hline, true_and]
    simp only [hmeant, meant, headerSize, shardSize, ownerSize, ceilDiv_eq (m := 8) (by decide)]
    omega
  refine ⟨hsegment, hsegment.cells hfits (by simp [tables]) (Nat.succ_pos _) rfl, ?_⟩
  intro index hindex
  have hmem : layout.slotRows g ∈ layout.tables g owners := by simp [tables]
  have halign : 64 ∣ (layout.slotRows g).row index := (hsegment.row _ hmem index hindex).2.2
  have hstop : (layout.slotRows g).row index + layout.slotStride < 2 ^ 64 :=
    (hsegment.row_le hmem hindex).trans_lt hfits
  refine .of_laid ?_ hstop
  have hslot : word ((layout.slotRows g).row index + slotSize) =
      (layout.slotRows g).row index + slotSize := word_eq (by omega)
  cases retention
  · simp only [banks, reduceCtorEq, if_false, Rows.Laid, Rows.area, Area.stop, keyBuffers, hslot]
    omega
  · have hrecency : 16 ∣ layout.recency ∧ slotSize + 2 * g.keyBytes ≤ layout.recency ∧
        layout.recency + 2 * 16 ≤ layout.slotStride := by
      simp only [hmeant, meant, if_true, slotSize, ceilDiv_eq (m := 4) (by decide),
        ceilDiv_eq (m := 8) (by decide)]
      omega
    simp only [banks, if_true, Rows.Laid, Rows.area, Area.stop, keyBuffers, recencyWords, hslot]
    rw [word_eq (by omega)]
    omega

end Layout

end OrbitQuota.Shm
