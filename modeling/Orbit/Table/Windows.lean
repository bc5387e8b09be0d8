import Mathlib.Data.Finset.Card
import Mathlib.Data.Finset.Filter
import Mathlib.Algebra.Group.Nat.Defs

/-! Windows of a ring, and the spans that stand in their way.  A sweep that is stopped goes on
behind the furthest span that stopped it, and at the end of the ring it starts again at zero: it
passes no free window, and no span stops it twice on its way to one. -/

namespace Orbit.Table

abbrev Span := Nat × Nat

/-- The span reaches into the window of the length. -/
def Meets (span : Span) (position len : Nat) : Prop := position < span.2 ∧ span.1 < position + len

instance (span : Span) (position len : Nat) : Decidable (Meets span position len) :=
  inferInstanceAs (Decidable (_ ∧ _))

def wrap (bytes len position : Nat) : Nat :=
  if bytes < position % bytes + len then 0 else position % bytes

variable {ι : Type} {P : Finset ι} {span : ι → Span} {bytes len position past q : Nat} {i : ι}

theorem wrap_fits (hlen : len ≤ bytes) (position : Nat) : wrap bytes len position + len ≤ bytes := by
  unfold wrap
  split
  · omega
  · omega

def Free (P : Finset ι) (span : ι → Span) (len q : Nat) : Prop := ∀ i ∈ P, ¬ Meets (span i) q len

theorem Free.passed (hfree : Free P span len q) (hi : i ∈ P) (hmeets : Meets (span i) position len)
    (hq : position ≤ q) : (span i).2 ≤ q := by
  by_contra hlt
  refine hfree i hi ⟨Nat.lt_of_not_le hlt, ?_⟩
  have := hmeets.2
  omega

/-- The spans that may stop the sweep on its way from the position to the free window. -/
def ahead (P : Finset ι) (span : ι → Span) (q position : Nat) : Finset ι :=
  P.filter fun i =>
    if position ≤ q then position < (span i).2 ∧ (span i).2 ≤ q
    else position < (span i).2 ∨ (span i).2 ≤ q

end Orbit.Table
