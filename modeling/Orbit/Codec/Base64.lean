import Mathlib.Data.List.Basic

/-! Base 64 with the alphabet that is safe in URLs and file names, and without padding. -/

namespace Orbit.Base64

open List Option

/-- The digits of three bytes at a time, and those of what is left. -/
def digits : List UInt8 → List Nat
  | [] => []
  | [a] => [a.toNat / 4, a.toNat % 4 * 16]
  | [a, b] => [a.toNat / 4, a.toNat % 4 * 16 + b.toNat / 16, b.toNat % 16 * 4]
  | a :: b :: c :: rest =>
    a.toNat / 4 :: (a.toNat % 4 * 16 + b.toNat / 16) :: (b.toNat % 16 * 4 + c.toNat / 64) ::
      c.toNat % 64 :: digits rest

/-- The bytes of four digits at a time.  Bits that no byte takes have to be zero. -/
def bytes : List Nat → Option (List UInt8)
  | [] => some []
  | [_] => none
  | [x, y] => if y % 16 = 0 then some [UInt8.ofNat (x * 4 + y / 16)] else none
  | [x, y, z] =>
    if z % 4 = 0 then
      some [UInt8.ofNat (x * 4 + y / 16), UInt8.ofNat (y % 16 * 16 + z / 4)]
    else none
  | x :: y :: z :: w :: rest =>
    (bytes rest).map fun rest =>
      UInt8.ofNat (x * 4 + y / 16) :: UInt8.ofNat (y % 16 * 16 + z / 4) ::
        UInt8.ofNat (z % 4 * 64 + w) :: rest

/-- `A` to `Z`, `a` to `z`, `0` to `9`, `-` and `_`. -/
def symbol (digit : Nat) : UInt8 :=
  if digit < 26 then UInt8.ofNat (65 + digit)
  else if digit < 52 then UInt8.ofNat (71 + digit)
  else if digit < 62 then UInt8.ofNat (digit - 4)
  else if digit = 62 then 45
  else 95

def digit (symbol : UInt8) : Option Nat :=
  let code := symbol.toNat
  if 65 ≤ code ∧ code ≤ 90 then some (code - 65)
  else if 97 ≤ code ∧ code ≤ 122 then some (code - 71)
  else if 48 ≤ code ∧ code ≤ 57 then some (code + 4)
  else if code = 45 then some 62
  else if code = 95 then some 63
  else none

def encode (input : List UInt8) : List UInt8 := (digits input).map symbol

def decode (input : List UInt8) : Option (List UInt8) := (input.mapM digit).bind bytes

example : encode "light w".toByteArray.data.toList = "bGlnaHQgdw".toByteArray.data.toList := by
  decide +kernel

theorem digit_symbol {n : Nat} (h : n < 64) : digit (symbol n) = some n := by
  decide +revert

theorem digits_lt {input : List UInt8} : ∀ n ∈ digits input, n < 64 := by
  induction input using digits.induct with
  | case1 => exact fun _ h => nomatch h
  | case2 a =>
    have := a.toNat_lt
    simp only [digits, mem_cons, not_mem_nil, or_false]
    rintro n (rfl | rfl) <;> omega
  | case3 a b =>
    have := a.toNat_lt
    have := b.toNat_lt
    simp only [digits, mem_cons, not_mem_nil, or_false]
    rintro n (rfl | rfl | rfl) <;> omega
  | case4 a b c rest ih =>
    have := a.toNat_lt
    have := b.toNat_lt
    have := c.toNat_lt
    simp only [digits, mem_cons]
    rintro n (rfl | rfl | rfl | rfl | h)
    · omega
    · omega
    · omega
    · omega
    · exact ih n h

theorem byte_eq {n : Nat} {a : UInt8} (h : n = a.toNat) : UInt8.ofNat n = a := by
  rw [h, UInt8.ofNat_toNat]

theorem bytes_digits (input : List UInt8) : bytes (digits input) = some input := by
  induction input using digits.induct with
  | case1 => rfl
  | case2 a =>
    rw [digits, bytes, if_pos (by omega), byte_eq (a := a) (by omega)]
  | case3 a b =>
    have := b.toNat_lt
    rw [digits, bytes, if_pos (by omega), byte_eq (a := a) (by omega), byte_eq (a := b) (by omega)]
  | case4 a b c rest ih =>
    have := b.toNat_lt
    have := c.toNat_lt
    rw [digits, bytes, ih, map_some, byte_eq (a := a) (by omega),
      byte_eq (a := b) (by omega), byte_eq (a := c) (by omega)]

theorem mapM_digit {ns : List Nat} (h : ∀ n ∈ ns, n < 64) :
    (ns.map symbol).mapM digit = some ns := by
  induction ns with
  | nil => rfl
  | cons n ns ih =>
    rw [map_cons, mapM_cons, digit_symbol (h n mem_cons_self),
      ih fun n hn => h n (mem_cons_of_mem _ hn)]
    rfl

theorem decode_encode (input : List UInt8) : decode (encode input) = some input := by
  rw [decode, encode, mapM_digit digits_lt, bind_some, bytes_digits]

theorem encode_length (input : List UInt8) :
    (encode input).length = (input.length * 4 + 2) / 3 := by
  rw [encode, length_map]
  induction input using digits.induct with
  | case1 => rfl
  | case2 a => rw [digits, length_cons, length_singleton, length_singleton]
  | case3 a b => simp only [digits, length_cons, length_nil]
  | case4 a b c rest ih =>
    simp only [digits, length_cons, ih]
    omega

end Orbit.Base64
