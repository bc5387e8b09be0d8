import Orbit.Atomic.Word
import Mathlib.Algebra.Order.Ring.Nat

/-! Arrays in a segment.  Offsets are computed in words of 64 bits: a function takes what a word
keeps of a result, which is all of it where the numbers are meant. -/

namespace Orbit.Table

open Orbit.Atomic

def word (n : Nat) : Nat := n % 2 ^ 64

/-- `div_ceil`, which cannot overflow. -/
def ceilDiv (n m : Nat) : Nat := if n % m = 0 then n / m else n / m + 1

/-- `checked_add` and `checked_mul`, of what the operation comes to. -/
def checked (n : Nat) : Option Nat := if n < 2 ^ 64 then some n else none

/-- `next_multiple_of`. -/
def nextMultiple (w : Nat → Nat) (n m : Nat) : Nat := if n % m = 0 then n else w (n + (m - n % m))

/-- `n & !(m - 1)`, for a power of two. -/
def alignDown (n m : Nat) : Nat := n &&& (2 ^ 64 - m)

def wrappingSub (n m : Nat) : Nat := if m ≤ n then n - m else n + 2 ^ 64 - m

def pairAt (w : Nat → Nat) (i columns j : Nat) : Nat := w (w (i * columns) + j)

variable {i j n m rows columns : Nat}

theorem word_eq (h : n < 2 ^ 64) : word n = n := Nat.mod_eq_of_lt h

theorem word_lt (n : Nat) : word n < 2 ^ 64 := Nat.mod_lt _ (by decide)

theorem checked_bind {β : Type} {f : Nat → Option β} {b : β} :
    checked n >>= f = some b ↔ n < 2 ^ 64 ∧ f n = some b := by
  unfold checked
  split
  · rename_i h
    exact (and_iff_right h).symm
  · rename_i h
    exact ⟨fun hb => (by cases hb), fun hb => absurd hb.1 h⟩

theorem power_pos (hpow : isPowerOfTwo n) : 0 < n := by
  rw [eq_of_beq hpow]
  exact Nat.two_pow_pos _

theorem power_le {k : Nat} (hpow : isPowerOfTwo n) (hlt : n < 2 ^ (k + 1)) : n ≤ 2 ^ k := by
  rw [eq_of_beq hpow] at hlt ⊢
  exact Nat.pow_le_pow_right (by decide)
    (Nat.lt_succ_iff.mp ((Nat.pow_lt_pow_iff_right (by decide)).mp hlt))

theorem ceilDiv_eq (hm : 0 < m) (n : Nat) : ceilDiv n m = (n + (m - 1)) / m := by
  have hdiv := Nat.div_add_mod n m
  have hmod := Nat.mod_lt n hm
  unfold ceilDiv
  split
  · rename_i h
    rw [show n + (m - 1) = m * (n / m) + (m - 1) by omega, Nat.mul_add_div hm,
      Nat.div_eq_of_lt (show m - 1 < m by omega), Nat.add_zero]
  · rw [show n + (m - 1) = m * (n / m) + (m + (n % m - 1)) by omega, Nat.mul_add_div hm,
      Nat.add_div_left _ hm, Nat.div_eq_of_lt (show n % m - 1 < m by omega)]

theorem nextMultiple_of {w : Nat → Nat} (hm : 0 < m)
    (hw : w ((n + (m - 1)) / m * m) = (n + (m - 1)) / m * m) :
    nextMultiple w n m = (n + (m - 1)) / m * m := by
  have hdiv := Nat.div_add_mod' n m
  have hmod := Nat.mod_lt n hm
  rw [← ceilDiv_eq hm] at hw ⊢
  unfold nextMultiple
  unfold ceilDiv at hw ⊢
  split
  · omega
  · rename_i hne
    rw [if_neg hne] at hw
    rwa [show n + (m - n % m) = (n / m + 1) * m by rw [Nat.succ_mul]; omega]

theorem nextMultiple_word (h : (n + 63) / 64 * 64 < 2 ^ 64) :
    nextMultiple word n 64 = (n + 63) / 64 * 64 := nextMultiple_of (by decide) (word_eq h)

theorem nextMultiple_id : nextMultiple id n 64 = (n + 63) / 64 * 64 :=
  nextMultiple_of (by decide) rfl

theorem alignDown_eq {k : Nat} (hk : k ≤ 64) (hn : n < 2 ^ 64) :
    alignDown n (2 ^ k) = n / 2 ^ k * 2 ^ k := by
  have hmask : 2 ^ 64 - 2 ^ k = 2 ^ k * (2 ^ (64 - k) - 1) := by
    rw [Nat.mul_sub, ← Nat.pow_add, Nat.add_sub_of_le hk, Nat.mul_one]
  apply Nat.eq_of_testBit_eq
  intro i
  rw [alignDown, hmask, Nat.mul_comm (n / 2 ^ k), Nat.testBit_and, Nat.testBit_two_pow_mul,
    Nat.testBit_two_pow_mul, Nat.testBit_two_pow_sub_one, Nat.testBit_div_two_pow]
  by_cases hlow : k ≤ i
  · rw [Nat.sub_add_cancel hlow]
    by_cases hhigh : i < 64
    · simp [hlow, show i - k < 64 - k by omega]
    · rw [Nat.testBit_lt_two_pow (hn.trans_le (Nat.pow_le_pow_right (by decide) (by omega)))]
      simp
  · simp [hlow]

theorem pairAt_lt (hi : i < rows) (hj : j < columns) : i * columns + j < rows * columns :=
  calc i * columns + j < (i + 1) * columns := by rw [Nat.succ_mul]; omega
    _ ≤ rows * columns := Nat.mul_le_mul_right _ hi

theorem pairAt_inj {i' j' : Nat} (hj : j < columns) (hj' : j' < columns)
    (h : i * columns + j = i' * columns + j') : i = i' ∧ j = j' := by
  have hmod := congrArg (· % columns) h
  simp only [Nat.mul_add_mod_self_right, Nat.mod_eq_of_lt hj, Nat.mod_eq_of_lt hj'] at hmod
  refine ⟨Nat.eq_of_mul_eq_mul_right (Nat.zero_lt_of_lt hj) ?_, hmod⟩
  omega

theorem pairAt_word (hi : i < rows) (hj : j < columns) (hfits : rows * columns < 2 ^ 64) :
    pairAt word i columns j = i * columns + j := by
  have hpair := pairAt_lt hi hj
  rw [pairAt, word_eq (n := i * columns) (by omega), word_eq (by omega)]

/-- A range of the bytes of a segment. -/
structure Area where
  offset : Nat
  len : Nat

namespace Area

def stop (a : Area) : Nat := a.offset + a.len

/-- The part lies in the area, and where its words can be accessed. -/
def Holds (a : Area) (align : Nat) (part : Area) : Prop :=
  a.offset ≤ part.offset ∧ part.stop ≤ a.stop ∧ align ∣ part.offset

def Apart (a b : Area) : Prop := a.stop ≤ b.offset ∨ b.stop ≤ a.offset

end Area

/-- An array in a segment. -/
structure Rows where
  offset : Nat
  count : Nat
  stride : Nat
  align : Nat

namespace Rows

variable (t : Rows)

def area : Area := ⟨t.offset, t.count * t.stride⟩

/-- Where row `i` starts, as it is computed. -/
def row (i : Nat) : Nat := word (t.offset + word (i * t.stride))

def Cells (rows columns : Nat) : Prop :=
  ∀ i < rows, ∀ j < columns, pairAt word i columns j < t.count ∧
    ∀ i' < rows, ∀ j' < columns, pairAt word i columns j = pairAt word i' columns j' →
      i = i' ∧ j = j'

/-- Arrays one after the other up to `final`, each where its words can be accessed. -/
def Laid : Nat → List Rows → Nat → Prop
  | start, [], final => start ≤ final
  | start, t :: rest, final =>
    start ≤ t.offset ∧ t.align ∣ t.offset ∧ t.align ∣ t.stride ∧ Laid t.area.stop rest final

variable {tables : List Rows} {start final : Nat}

theorem Laid.le (h : Laid start tables final) : start ≤ final := by
  induction tables generalizing start with
  | nil => exact h
  | cons t rest ih => exact (h.1.trans (Nat.le_add_right _ _)).trans (ih h.2.2.2)

theorem Laid.within (h : Laid start tables final) : ∀ t ∈ tables,
    (start ≤ t.offset ∧ t.area.stop ≤ final) ∧ t.align ∣ t.offset ∧ t.align ∣ t.stride := by
  induction tables generalizing start with
  | nil => exact fun _ hmem => absurd hmem List.not_mem_nil
  | cons t rest ih =>
    obtain ⟨hstart, hoffset, hstride, hrest⟩ := h
    intro u hmem
    rcases List.mem_cons.mp hmem with rfl | hmem
    · exact ⟨⟨hstart, hrest.le⟩, hoffset, hstride⟩
    · obtain ⟨⟨hle, hfinal⟩, haligned⟩ := ih hrest u hmem
      exact ⟨⟨(hstart.trans (Nat.le_add_right _ _)).trans hle, hfinal⟩, haligned⟩

theorem Laid.apart (h : Laid start tables final) :
    tables.Pairwise fun a b => a.area.stop ≤ b.offset := by
  induction tables generalizing start with
  | nil => exact .nil
  | cons t rest ih => exact .cons (fun u hmem => (h.2.2.2.within u hmem).1.1) (ih h.2.2.2)

end Rows

/-- Arrays one after the other between two offsets: none has a byte of another, nor a row of
another row, and each row is found in its array and where its words can be accessed. -/
structure Segment (start : Nat) (tables : List Rows) (final : Nat) : Prop where
  apart : tables.Pairwise fun a b => a.area.stop ≤ b.offset
  within : ∀ t ∈ tables, start ≤ t.offset ∧ t.area.stop ≤ final
  row : ∀ t ∈ tables, ∀ i < t.count, t.area.Holds t.align ⟨t.row i, t.stride⟩
  rows : ∀ t ∈ tables, ∀ i < t.count, ∀ j < t.count, i ≠ j →
    Area.Apart ⟨t.row i, t.stride⟩ ⟨t.row j, t.stride⟩

namespace Segment

variable {start final : Nat} {tables : List Rows} {t : Rows}

theorem row_eq (hi : i < t.count) (hfits : t.area.stop < 2 ^ 64) :
    t.row i = t.offset + i * t.stride ∧ i * t.stride + t.stride ≤ t.count * t.stride := by
  have hrow : i * t.stride + t.stride ≤ t.count * t.stride := by
    rw [← Nat.succ_mul]
    exact Nat.mul_le_mul_right _ hi
  simp only [Area.stop, Rows.area] at hfits
  rw [Rows.row, word_eq (n := i * t.stride) (by omega), word_eq (by omega)]
  exact ⟨rfl, hrow⟩

theorem of_laid (hlaid : Rows.Laid start tables final) (hfits : final < 2 ^ 64) :
    Segment start tables final := by
  have hstop : ∀ t ∈ tables, t.area.stop < 2 ^ 64 := fun t hmem =>
    (hlaid.within t hmem).1.2.trans_lt hfits
  refine ⟨hlaid.apart, fun t hmem => (hlaid.within t hmem).1, fun t hmem i hi => ?_,
    fun t hmem i hi j hj hne => ?_⟩
  · obtain ⟨hrow, hle⟩ := row_eq hi (hstop t hmem)
    obtain ⟨-, hoffset, hstride⟩ := hlaid.within t hmem
    rw [hrow]
    refine ⟨Nat.le_add_right _ _, ?_, Nat.dvd_add hoffset (Dvd.dvd.mul_left hstride i)⟩
    simp only [Area.stop, Rows.area]
    omega
  · have hlt : ∀ {i j : Nat}, i < j → i * t.stride + t.stride ≤ j * t.stride := fun h => by
      rw [← Nat.succ_mul]
      exact Nat.mul_le_mul_right _ h
    rw [(row_eq hi (hstop t hmem)).1, (row_eq hj (hstop t hmem)).1]
    simp only [Area.Apart, Area.stop]
    rcases Nat.lt_or_gt_of_ne hne with h | h
    · have hle := hlt h
      omega
    · have hle := hlt h
      omega

theorem row_le (h : Segment start tables final) (hmem : t ∈ tables) (hi : i < t.count) :
    t.row i + t.stride ≤ final :=
  (h.row t hmem i hi).2.1.trans (h.within t hmem).2

theorem cells (h : Segment start tables final) (hfits : final < 2 ^ 64) (hmem : t ∈ tables)
    (hpos : 0 < t.stride) (hcount : t.count = rows * columns) : t.Cells rows columns := by
  have hlt : rows * columns < 2 ^ 64 := by
    rw [← hcount]
    exact ((Nat.le_mul_of_pos_right _ hpos).trans (Nat.le_add_left _ t.offset)).trans_lt
      ((h.within t hmem).2.trans_lt hfits)
  intro i hi j hj
  rw [pairAt_word hi hj hlt, hcount]
  refine ⟨pairAt_lt hi hj, fun i' hi' j' hj' heq => ?_⟩
  rw [pairAt_word hi' hj' hlt] at heq
  exact pairAt_inj hj hj' heq

end Segment

end Orbit.Table
