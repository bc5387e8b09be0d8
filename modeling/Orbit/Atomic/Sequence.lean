import Mathlib.Algebra.Group.Nat.Defs
import Mathlib.Data.List.Basic

/-! Sequences of whole operations, one after the other. -/

namespace Orbit.Atomic

variable {S O : Type} {exec : S → O → S} {ok : S → O → Prop}

/-- Every operation of the sequence meets the condition in the state it finds. -/
def Meets (exec : S → O → S) (ok : S → O → Prop) : S → List O → Prop
  | _, [] => True
  | s, op :: rest => ok s op ∧ Meets exec ok (exec s op) rest

instance [∀ s op, Decidable (ok s op)] (s : S) (ops : List O) : Decidable (Meets exec ok s ops) :=
  match ops with
  | [] => isTrue trivial
  | op :: rest =>
    have : Decidable (Meets exec ok (exec s op) rest) := instDecidableMeets (exec s op) rest
    inferInstanceAs (Decidable (_ ∧ _))

variable {I : S → Prop} {s : S} {ops : List O}

theorem Meets.holds (hstep : ∀ s op, I s → ok s op → I (exec s op)) (hs : I s)
    (h : Meets exec ok s ops) : I (ops.foldl exec s) := by
  induction ops generalizing s with
  | nil => exact hs
  | cons op rest ih => exact ih (hstep s op hs h.1) h.2

theorem Meets.take (h : Meets exec ok s ops) (n : Nat) : Meets exec ok s (ops.take n) := by
  induction ops generalizing s n with
  | nil => simpa using h
  | cons first rest ih =>
    cases n with
    | zero => trivial
    | succ n => exact ⟨h.1, ih h.2 n⟩

theorem Meets.and {given : S → O → Prop} (hgiven : Meets exec given s ops) (h : Meets exec ok s ops) :
    Meets exec (fun s op => given s op ∧ ok s op) s ops := by
  induction ops generalizing s with
  | nil => trivial
  | cons op rest ih => exact ⟨⟨hgiven.1, h.1⟩, ih hgiven.2 h.2⟩

theorem Meets.append {op : O} (h : Meets exec ok s ops) (hop : ok (ops.foldl exec s) op) :
    Meets exec ok s (ops ++ [op]) := by
  induction ops generalizing s with
  | nil => exact ⟨hop, trivial⟩
  | cons first rest ih => exact ⟨h.1, ih h.2 hop⟩

theorem Meets.iff_of {given ok' : S → O → Prop}
    (hstep : ∀ s op, I s → given s op → I (exec s op) ∧ (ok s op ↔ ok' s op)) (hs : I s)
    (hgiven : Meets exec given s ops) : Meets exec ok s ops ↔ Meets exec ok' s ops := by
  induction ops generalizing s with
  | nil => exact Iff.rfl
  | cons op rest ih =>
    obtain ⟨hnext, hiff⟩ := hstep s op hs hgiven.1
    exact and_congr hiff (ih hnext hgiven.2)

/-- In a sequence whose operations are as they are promised to be, a condition that keeps an invariant
is met all along just when what it is there for holds in every state. -/
theorem meets_iff_within {given : S → O → Prop} {Q : S → Prop}
    (hstep : ∀ s op, I s → given s op → ok s op → I (exec s op)) (hholds : ∀ s, I s → Q s)
    (hneeds : ∀ s op, I s → given s op → Q (exec s op) → ok s op) (hgiven : Meets exec given s ops)
    (hs : I s) : (∀ n, Q ((ops.take n).foldl exec s)) ↔ Meets exec ok s ops := by
  induction ops generalizing s with
  | nil => exact ⟨fun _ => trivial, fun _ n => by rw [List.take_nil]; exact hholds s hs⟩
  | cons op rest ih =>
    constructor
    · intro h
      have hop := hneeds s op hs hgiven.1 (h 1)
      exact ⟨hop, (ih hgiven.2 (hstep s op hs hgiven.1 hop)).mp fun n => h (n + 1)⟩
    · intro h n
      cases n with
      | zero => exact hholds s hs
      | succ n => exact (ih hgiven.2 (hstep s op hs hgiven.1 h.1)).mpr h.2 n

theorem meets_iff {Q : S → Prop} (hstep : ∀ s op, I s → ok s op → I (exec s op))
    (hholds : ∀ s, I s → Q s) (hneeds : ∀ s op, I s → Q (exec s op) → ok s op) (ops : List O)
    (hs : I s) : (∀ n, Q ((ops.take n).foldl exec s)) ↔ Meets exec ok s ops := by
  constructor
  · intro h
    induction ops generalizing s with
    | nil => trivial
    | cons op rest ih =>
      have hop := hneeds s op hs (h 1)
      exact ⟨hop, ih (hstep s op hs hop) fun n => h (n + 1)⟩
  · exact fun h n => hholds _ ((h.take n).holds hstep hs)

theorem foldl_holds (hstep : ∀ s op, I s → I (exec s op)) (ops : List O) (hs : I s) :
    I (ops.foldl exec s) := by
  induction ops generalizing s with
  | nil => exact hs
  | cons op rest ih => exact ih (hstep s op hs)

end Orbit.Atomic
