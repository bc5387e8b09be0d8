import Mathlib.Order.Lattice
import Mathlib.Order.Defs.LinearOrder
import Mathlib.Data.List.Basic

/-! Ranges that are taken one after the other.  Each one begins where the last one ended, so together
they are all that there is up to the end, and no two of them have anything in common. -/

namespace Orbit.Table

open List

variable {α : Type}

theorem mem_set_some {ranges : List (Option (α × α))} {i : Nat} {new r : α × α}
    (h : some r ∈ ranges.set i (some new)) : r = new ∨ some r ∈ ranges := by
  rcases mem_or_eq_of_mem_set h with hmem | heq
  · exact .inr hmem
  · exact .inl (Option.some.inj heq)

variable [LinearOrder α]

/-- The ranges of the list make up what comes after `start`, up to `final`. -/
structure Tiles (start final : α) (ranges : List (Option (α × α))) : Prop where
  le : start ≤ final
  within : ∀ r, some r ∈ ranges → start ≤ r.1 ∧ r.1 < r.2 ∧ r.2 ≤ final
  covers : ∀ x, start < x → x ≤ final → ∃ r, some r ∈ ranges ∧ r.1 < x ∧ x ≤ r.2
  apart : ∀ (i j : Nat) (r r' : α × α), i ≠ j → ranges[i]? = some (some r) →
    ranges[j]? = some (some r') → r.2 ≤ r'.1 ∨ r'.2 ≤ r.1

namespace Tiles

variable {start final next : α} {ranges : List (Option (α × α))} {i : Nat}

theorem nil (start : α) : Tiles start start [] where
  le := le_refl start
  within _ h := by simp at h
  covers x hlt hle := absurd hlt (not_lt_of_ge hle)
  apart _ _ _ _ _ h := by simp at h

theorem skip (h : Tiles start final ranges) : Tiles start final (ranges ++ [none]) where
  le := h.le
  within r hr := h.within r (by simpa using hr)
  covers x hlt hle := by
    obtain ⟨r, hr, hin⟩ := h.covers x hlt hle
    exact ⟨r, mem_append_left _ hr, hin⟩
  apart i j r r' hne hi hj := by
    have hold : ∀ {i : Nat} {r : α × α}, (ranges ++ [none])[i]? = some (some r) →
        ranges[i]? = some (some r) := by
      intro i r hi
      rcases Nat.lt_trichotomy i ranges.length with hlt | rfl | hgt
      · rwa [getElem?_append_left hlt] at hi
      · simp at hi
      · rw [getElem?_eq_none (by simp; omega)] at hi
        cases hi
    exact h.apart i j r r' hne (hold hi) (hold hj)

theorem extend (h : Tiles start final ranges) (hi : ranges[i]? = some none) (hlt : final < next) :
    Tiles start next (ranges.set i (some (final, next))) where
  le := h.le.trans hlt.le
  within r hr := by
    rcases mem_set_some hr with rfl | hr
    · exact ⟨h.le, hlt, le_refl next⟩
    · obtain ⟨hstart, hr, hfinal⟩ := h.within r hr
      exact ⟨hstart, hr, hfinal.trans hlt.le⟩
  covers x hstart hle := by
    have hlength : i < ranges.length := (List.getElem?_eq_some_iff.mp hi).1
    rcases le_or_gt x final with hold | hnew
    · obtain ⟨r, hr, hin⟩ := h.covers x hstart hold
      obtain ⟨j, hj⟩ := mem_iff_getElem?.mp hr
      have hne : i ≠ j := by
        rintro rfl
        rw [hi] at hj
        cases hj
      refine ⟨r, mem_of_getElem? (i := j) ?_, hin⟩
      rw [getElem?_set_ne hne]
      exact hj
    · exact ⟨(final, next), mem_set hlength _, hnew, hle⟩
  apart j k r r' hne hj hk := by
    have hcases : ∀ {j : Nat} {r : α × α}, (ranges.set i (some (final, next)))[j]? = some (some r) →
        j = i ∧ r = (final, next) ∨ j ≠ i ∧ ranges[j]? = some (some r) := by
      intro j r hj
      by_cases hij : i = j
      · subst hij
        rw [getElem?_set_self (List.getElem?_eq_some_iff.mp hi).1] at hj
        exact .inl ⟨rfl, (Option.some.inj (Option.some.inj hj)).symm⟩
      · rw [getElem?_set_ne hij] at hj
        exact .inr ⟨fun h => hij h.symm, hj⟩
    rcases hcases hj with ⟨rfl, rfl⟩ | ⟨-, hold⟩ <;> rcases hcases hk with ⟨rfl, rfl⟩ | ⟨-, hold'⟩
    · exact absurd rfl hne
    · exact .inr (h.within r' (mem_of_getElem? hold')).2.2
    · exact .inl (h.within r (mem_of_getElem? hold)).2.2
    · exact h.apart j k r r' hne hold hold'

end Tiles

end Orbit.Table
