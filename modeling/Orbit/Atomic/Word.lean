import Mathlib.Algebra.Group.Nat.Defs
import Mathlib.Data.Nat.Log
import Mathlib.Data.List.Basic
import Mathlib.Data.Nat.Bitwise

/-! Words of 64 bits, as the positions of a ring use them: sums and differences that wrap, and
masks by a power of two. -/

namespace Orbit.Atomic

def isPowerOfTwo (n : Nat) : Bool := n == 2 ^ Nat.log2 n

theorem and_mask {n : Nat} (h : isPowerOfTwo n) (x : Nat) : x &&& (n - 1) = x % n := by
  rw [eq_of_beq h, Nat.and_two_pow_sub_one_eq_mod]

theorem not_of_accepted {ε : Type} {c : Prop} [Decidable c] {e : ε}
    (h : (if c then .error e else .ok () : Except ε Unit) = .ok ()) : ¬c := by
  intro hc
  rw [if_pos hc] at h
  cases h

theorem isPowerOfTwo_one : isPowerOfTwo 1 = true := by decide

theorem one_lt_u16 : 1 < 2 ^ 16 := by decide

theorem two_lt_u16 : 2 < 2 ^ 16 := by decide

theorem u32_pos : 0 < 2 ^ 32 := by decide

theorem one_lt_u32 : 1 < 2 ^ 32 := by decide

/-- `u64` addition and subtraction, which wrap. -/
def add64 (a b : Nat) : Nat := (a + b) % 2 ^ 64
def sub64 (a b : Nat) : Nat := (a + (2 ^ 64 - b % 2 ^ 64)) % 2 ^ 64

theorem add64_count (count n : Nat) : add64 (count % 2 ^ 64) n = (count + n) % 2 ^ 64 := by
  rw [add64, Nat.mod_add_mod]

theorem sub64_count {head tail : Nat} (hle : tail ≤ head) (hlt : head - tail < 2 ^ 64) :
    sub64 (head % 2 ^ 64) (tail % 2 ^ 64) = head - tail := by
  have h1 := Nat.div_add_mod head (2 ^ 64)
  have h2 := Nat.div_add_mod tail (2 ^ 64)
  have h3 := Nat.mod_lt head (show 0 < 2 ^ 64 by decide)
  have h4 := Nat.mod_lt tail (show 0 < 2 ^ 64 by decide)
  rw [sub64, Nat.mod_mod]
  omega

theorem mask_count {n : Nat} (h : isPowerOfTwo n) (hle : n ≤ 2 ^ 64) (count : Nat) :
    count % 2 ^ 64 &&& (n - 1) = count % n := by
  have hn : n = 2 ^ Nat.log2 n := eq_of_beq h
  have hlog : Nat.log2 n ≤ 64 := by
    rw [hn] at hle
    exact (Nat.pow_le_pow_iff_right (by decide)).mp hle
  rw [and_mask h, Nat.mod_mod_of_dvd]
  rw [hn]
  exact Nat.pow_dvd_pow 2 hlog

/-! Words of bits: setting one, clearing some, and taking the lowest. -/

variable {v bits b i : Nat}

theorem testBit_set (v b i : Nat) : (v ||| 2 ^ b).testBit i = (v.testBit i || decide (b = i)) := by
  rw [Nat.testBit_or, Nat.testBit_two_pow]

theorem testBit_clear (v bits i : Nat) :
    (v ^^^ (v &&& bits)).testBit i = (v.testBit i && !bits.testBit i) := by
  rw [Nat.testBit_xor, Nat.testBit_and]
  cases v.testBit i <;> cases bits.testBit i <;> rfl

/-- How many of the low bits of a word of 64 bits are clear. -/
def trailingZeros (v : Nat) : Nat := ((List.range 64).find? fun i => v.testBit i).getD 64

def clearLowest (v : Nat) : Nat := v &&& (v - 1)

theorem testBit_clearLowest_of (hset : v.testBit b = true)
    (hlow : ∀ j < b, v.testBit j = false) (i : Nat) :
    (clearLowest v).testBit i = (v.testBit i && decide (i ≠ b)) := by
  unfold clearLowest
  induction b generalizing v i with
  | zero =>
    have hodd : v % 2 = 1 := by simpa using hset
    cases i with
    | zero =>
      simp [Nat.testBit_zero, hodd]
      omega
    | succ i =>
      have hhalf : (v - 1) / 2 = v / 2 := by omega
      rw [Nat.testBit_and, Nat.testBit_succ, Nat.testBit_succ, hhalf]
      simp
  | succ b ih =>
    have heven : v % 2 = 0 := by
      have := hlow 0 (Nat.succ_pos b)
      simpa using this
    rw [Nat.testBit_succ] at hset
    have hpos : v / 2 ≠ 0 := by
      intro hzero
      rw [hzero, Nat.zero_testBit] at hset
      cases hset
    cases i with
    | zero => simp [Nat.testBit_zero, heven]
    | succ i =>
      have hhalf : (v - 1) / 2 = v / 2 - 1 := by omega
      have hrest := ih hset (fun j hj => by
        have := hlow (j + 1) (by omega)
        rwa [Nat.testBit_succ] at this) i
      rw [Nat.testBit_and] at hrest ⊢
      rw [Nat.testBit_succ, Nat.testBit_succ, hhalf, hrest]
      simp

theorem testBit_clearLowest (hb : b < 64) (hset : v.testBit b = true) :
    (clearLowest v).testBit b = decide (b ≠ trailingZeros v) := by
  obtain ⟨low, hfind⟩ : ∃ low, (List.range 64).find? (fun i => v.testBit i) = some low := by
    refine Option.isSome_iff_exists.mp (List.find?_isSome.mpr ⟨b, ?_, hset⟩)
    exact List.mem_range.mpr hb
  have hlow : v.testBit low = true := List.find?_some (p := fun i => v.testBit i) hfind
  have hbelow : ∀ j < low, v.testBit j = false := by
    intro j hj
    rw [List.find?_range_eq_some] at hfind
    simpa using hfind.2.2 j hj
  rw [testBit_clearLowest_of hlow hbelow, hset, Bool.true_and, trailingZeros, hfind,
    Option.getD_some]

end Orbit.Atomic
