import Mathlib.Algebra.Group.Nat.Defs
import Mathlib.Data.List.Basic

/-! Buffers of bytes with little-endian words at fixed offsets. -/

namespace Orbit.Atomic

open List

/-- The `width` low bytes of `value`, the lowest first. -/
def leBytes : Nat → Nat → List UInt8
  | 0, _ => []
  | width + 1, value => UInt8.ofNat value :: leBytes width (value / 256)

/-- The number whose bytes these are, the lowest first. -/
def leValue : List UInt8 → Nat
  | [] => 0
  | byte :: rest => byte.toNat + 256 * leValue rest

theorem leBytes_length (width value : Nat) : (leBytes width value).length = width := by
  induction width generalizing value with
  | zero => rfl
  | succ width ih => rw [leBytes, length_cons, ih]

theorem leValue_leBytes {width value : Nat} (h : value < 256 ^ width) :
    leValue (leBytes width value) = value := by
  induction width generalizing value with
  | zero => simp only [Nat.pow_zero, Nat.lt_one_iff] at h; simp [leBytes, leValue, h]
  | succ width ih =>
    rw [Nat.pow_succ] at h
    rw [leBytes, leValue, ih (Nat.div_lt_of_lt_mul (by omega)), UInt8.toNat_ofNat']
    omega

variable {buffer bytes : List UInt8} {offset : Nat}

theorem leBytes_leValue {width : Nat} (h : bytes.length = width) :
    leBytes width (leValue bytes) = bytes := by
  subst h
  induction bytes with
  | nil => rfl
  | cons byte rest ih =>
    have hbyte := byte.toNat_lt
    have hrest : (byte.toNat + 256 * leValue rest) / 256 = leValue rest := by omega
    rw [leValue, length_cons, leBytes, hrest, ih]
    congr 1
    apply UInt8.toNat_inj.mp
    rw [UInt8.toNat_ofNat']
    omega

theorem leValue_lt (bytes : List UInt8) : leValue bytes < 256 ^ bytes.length := by
  induction bytes with
  | nil => exact Nat.one_pos
  | cons byte rest ih =>
    have hbyte := byte.toNat_lt
    rw [leValue, length_cons, Nat.pow_succ]
    omega

/-- The buffer with the bytes in place of those from `offset` on. -/
def patch : List UInt8 → Nat → List UInt8 → List UInt8
  | [], _, _ => []
  | byte :: rest, offset + 1, bytes => byte :: patch rest offset bytes
  | _ :: rest, 0, new :: bytes => new :: patch rest 0 bytes
  | byte :: rest, 0, [] => byte :: rest

/-- The `n` bytes from `offset` on. -/
def slice (buffer : List UInt8) (offset n : Nat) : List UInt8 := (buffer.drop offset).take n

def byteAt (buffer : List UInt8) (index : Nat) : UInt8 := (slice buffer index 1).headD 0

@[simp] theorem patch_length (buffer : List UInt8) (offset : Nat) (bytes : List UInt8) :
    (patch buffer offset bytes).length = buffer.length := by
  induction buffer generalizing offset bytes with
  | nil => rfl
  | cons byte rest ih =>
    cases offset with
    | succ offset => simp [patch, ih]
    | zero =>
      cases bytes with
      | nil => rfl
      | cons new bytes => simp [patch, ih]

theorem getElem?_patch {i : Nat} (h : offset + bytes.length ≤ buffer.length) :
    (patch buffer offset bytes)[i]? =
      if offset ≤ i ∧ i < offset + bytes.length then bytes[i - offset]? else buffer[i]? := by
  induction buffer generalizing offset bytes i with
  | nil =>
    simp only [length_nil, Nat.le_zero, Nat.add_eq_zero_iff, length_eq_zero_iff] at h
    simp [patch, h.2]
  | cons byte rest ih =>
    rw [length_cons] at h
    cases offset with
    | succ offset =>
      cases i with
      | zero => simp [patch]
      | succ i =>
        have hle : offset + bytes.length ≤ rest.length := by omega
        rw [patch, getElem?_cons_succ, ih hle, getElem?_cons_succ, Nat.add_sub_add_right]
        refine if_congr ?_ rfl rfl
        omega
    | zero =>
      cases bytes with
      | nil => simp [patch]
      | cons new bytes =>
        rw [length_cons] at h
        cases i with
        | zero => simp [patch]
        | succ i =>
          have hle : 0 + bytes.length ≤ rest.length := by omega
          rw [patch, getElem?_cons_succ, ih hle, length_cons, getElem?_cons_succ,
            Nat.sub_zero, Nat.sub_zero, getElem?_cons_succ]
          refine if_congr ?_ rfl rfl
          omega

theorem getElem?_slice (buffer : List UInt8) (offset n i : Nat) :
    (slice buffer offset n)[i]? = if i < n then buffer[offset + i]? else none := by
  rw [slice, getElem?_take, getElem?_drop]

theorem drop_slice (buffer : List UInt8) (offset n : Nat) :
    buffer.drop offset = slice buffer offset n ++ buffer.drop (offset + n) := by
  unfold slice
  rw [← drop_drop, take_append_drop]

theorem slice_length {n : Nat} (h : offset + n ≤ buffer.length) :
    (slice buffer offset n).length = n := by
  unfold slice
  rw [length_take, length_drop]
  omega

theorem leBytes_slice {n : Nat} (h : offset + n ≤ buffer.length) :
    leBytes n (leValue (slice buffer offset n)) = slice buffer offset n :=
  leBytes_leValue (slice_length h)

theorem slice_patch (h : offset + bytes.length ≤ buffer.length) :
    slice (patch buffer offset bytes) offset bytes.length = bytes := by
  refine ext_getElem? fun i => ?_
  rw [getElem?_slice, getElem?_patch h]
  split
  · rw [if_pos (by omega), Nat.add_sub_cancel_left]
  · rw [getElem?_eq_none (by omega)]

theorem slice_patch_other {offset' n : Nat} (h : offset + bytes.length ≤ buffer.length)
    (hother : offset' + n ≤ offset ∨ offset + bytes.length ≤ offset') :
    slice (patch buffer offset bytes) offset' n = slice buffer offset' n := by
  refine ext_getElem? fun i => ?_
  rw [getElem?_slice, getElem?_slice, getElem?_patch h]
  split
  · rw [if_neg (by omega)]
  · rfl

end Orbit.Atomic
