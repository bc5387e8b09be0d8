import Mathlib.Data.List.Basic

/-! Texts put together from parts with separators between them, and numbers in decimal. -/

namespace Orbit.Separated

open List

section

variable {α : Type} [DecidableEq α] {c : α} {a a' b b' p : List α}

def rsplitOnce (c : α) : List α → Option (List α × List α)
  | [] => none
  | x :: rest =>
    match rsplitOnce c rest with
    | some (front, back) => some (x :: front, back)
    | none => if x = c then some ([], rest) else none

theorem rsplitOnce_none (h : c ∉ a) : rsplitOnce c a = none := by
  induction a with
  | nil => rfl
  | cons x rest ih =>
    rw [mem_cons, not_or] at h
    rw [rsplitOnce, ih h.2, if_neg (Ne.symm h.1)]

theorem rsplitOnce_append (h : c ∉ b) : rsplitOnce c (a ++ c :: b) = some (a, b) := by
  induction a with
  | nil => rw [nil_append, rsplitOnce, rsplitOnce_none h, if_pos rfl]
  | cons x rest ih => rw [cons_append, rsplitOnce, ih]

theorem last_inj (h : a ++ c :: b = a' ++ c :: b') (hb : c ∉ b) (hb' : c ∉ b') :
    a = a' ∧ b = b' := by
  have heq := congrArg (rsplitOnce c) h
  rw [rsplitOnce_append hb, rsplitOnce_append hb'] at heq
  exact Prod.mk.inj (Option.some.inj heq)

omit [DecidableEq α] in
theorem span_inj {P : α → Prop} (h : a ++ b = a' ++ b') (ha : ∀ x ∈ a, P x) (ha' : ∀ x ∈ a', P x)
    (hb : ∀ x ∈ b.head?, ¬P x) (hb' : ∀ x ∈ b'.head?, ¬P x) : a = a' ∧ b = b' := by
  induction a generalizing a' with
  | nil =>
    cases a' with
    | nil => exact ⟨rfl, h⟩
    | cons y rest' =>
      rw [nil_append] at h
      exact absurd (ha' y mem_cons_self) (hb y (by rw [h]; rfl))
  | cons x rest ih =>
    cases a' with
    | nil =>
      rw [nil_append] at h
      exact absurd (ha x mem_cons_self) (hb' x (by rw [← h]; rfl))
    | cons y rest' =>
      obtain ⟨rfl, htail⟩ := List.cons.inj h
      obtain ⟨rfl, hrest⟩ := ih htail (fun z hz => ha z (mem_cons_of_mem _ hz))
        fun z hz => ha' z (mem_cons_of_mem _ hz)
      exact ⟨rfl, hrest⟩

omit [DecidableEq α] in
theorem prefix_append_cases (h : p <+: a ++ b) : p <+: a ∨ ∃ r, p = a ++ r ∧ r <+: b := by
  rcases prefix_or_prefix_of_prefix h (prefix_append a b) with hp | ⟨r, rfl⟩
  · exact .inl hp
  · exact .inr ⟨r, rfl, (prefix_append_right_inj a).mp h⟩

end

def decimal (n : Nat) : List Char := Nat.toDigits 10 n

theorem decimal_inj {n m : Nat} (h : decimal n = decimal m) : n = m := by
  have hvalue := congrArg (fun digits => Nat.ofDigitChars 10 digits 0) h
  rwa [decimal, decimal, Nat.ofDigitChars_ten_toDigits, Nat.ofDigitChars_ten_toDigits] at hvalue

theorem isDigit_of_mem_decimal {n : Nat} {c : Char} (h : c ∈ decimal n) : c.isDigit = true :=
  Nat.isDigit_of_mem_toDigits (by decide) (by decide) h

theorem not_mem_decimal {n : Nat} {c : Char} (h : c.isDigit = false) : c ∉ decimal n := by
  intro hmem
  rw [isDigit_of_mem_decimal hmem] at h
  cases h

/-- Parsing a number that is less than `limit`: a sign may stand before the digits. -/
def parse (limit : Nat) (text : List Char) : Option Nat :=
  let digits := if text.head? = some '+' then text.tail else text
  if digits.isEmpty || !digits.all Char.isDigit then none
  else if Nat.ofDigitChars 10 digits 0 < limit then some (Nat.ofDigitChars 10 digits 0)
  else none

theorem parse_decimal {limit n : Nat} (h : n < limit) : parse limit (decimal n) = some n := by
  have hsign : (decimal n).head? ≠ some '+' := fun hplus =>
    not_mem_decimal rfl (mem_of_mem_head? hplus)
  have hsome : (decimal n).isEmpty = false := isEmpty_eq_false_iff.mpr Nat.toDigits_ne_nil
  have hall : (decimal n).all Char.isDigit = true :=
    all_eq_true.mpr fun _ hmem => isDigit_of_mem_decimal hmem
  have hvalue : Nat.ofDigitChars 10 (decimal n) 0 = n := Nat.ofDigitChars_ten_toDigits
  simp only [parse, if_neg hsign, hsome, hall, hvalue, if_pos h]
  rfl

end Orbit.Separated
