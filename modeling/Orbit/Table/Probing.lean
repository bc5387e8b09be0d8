import Mathlib.Data.List.Basic
import Mathlib.Logic.Function.Basic

/-! Tables with open addressing.  A key has a path of slots; a probe follows it up to a slot that
stops it.  A slot that gives its key up goes on letting probes pass. -/

namespace Orbit.Table

open List Function

/-- How the slots of a table are read, and the slots that the probe of a key goes through. -/
structure Probing (S K : Type) where
  stops : S → Bool
  key : S → Option K
  path : K → List Nat
  key_of_stops : ∀ s, stops s → key s = none

variable {S K : Type} (P : Probing S K)

/-- A probe along the path gets as far as the slot. -/
def Reaches (slots : Nat → S) (path : List Nat) (i : Nat) : Prop :=
  ∃ before after, path = before ++ i :: after ∧ ∀ j ∈ before, P.stops (slots j) = false

/-- Every key is in one slot at most, where its probe gets. -/
structure Probed (slots : Nat → S) : Prop where
  reaches : ∀ i k, P.key (slots i) = some k → Reaches P slots (P.path k) i
  unique : ∀ i j k, P.key (slots i) = some k → P.key (slots j) = some k → i = j

/-- The first slot that matches, unless the probe is stopped before. -/
def probe (stops isMatch : S → Bool) (slots : Nat → S) : List Nat → Option Nat
  | [] => none
  | i :: rest =>
    if stops (slots i) then none
    else if isMatch (slots i) then some i
    else probe stops isMatch slots rest

variable {P} {slots : Nat → S} {path before rest : List Nat} {i j : Nat} {k : K} {s : S}
  {isMatch : S → Bool}

theorem probe_some (h : probe P.stops isMatch slots path = some i) :
    isMatch (slots i) ∧ i ∈ path := by
  induction path with
  | nil => cases h
  | cons first rest ih =>
    rw [probe] at h
    split at h
    · cases h
    split at h
    · rename_i hmatch
      cases h
      exact ⟨hmatch, mem_cons_self⟩
    · obtain ⟨hmatch, hmem⟩ := ih h
      exact ⟨hmatch, mem_cons_of_mem _ hmem⟩

theorem Reaches.probe (h : Reaches P slots path i) (hstops : P.stops (slots i) = false)
    (hmatch : isMatch (slots i)) (honly : ∀ j, isMatch (slots j) → j = i) :
    probe P.stops isMatch slots path = some i := by
  obtain ⟨before, after, rfl, hbefore⟩ := h
  induction before with
  | nil =>
    rw [nil_append, Orbit.Table.probe, hstops, if_neg Bool.false_ne_true, if_pos hmatch]
  | cons first before ih =>
    rw [cons_append, Orbit.Table.probe, hbefore first mem_cons_self,
      if_neg Bool.false_ne_true]
    split
    · rename_i hfirst
      exact congrArg some (honly first hfirst)
    · exact ih fun j hj => hbefore j (mem_cons_of_mem _ hj)

theorem Reaches.mem_before (h : Reaches P slots (before ++ i :: rest) j)
    (hstops : P.stops (slots i)) (hne : P.stops (slots j) = false) : j ∈ before := by
  obtain ⟨before', after, heq, hbefore⟩ := h
  rcases append_eq_append_iff.mp heq with ⟨middle, rfl, hrest⟩ | ⟨middle, rfl, hrest⟩
  · cases middle with
    | nil =>
      rw [nil_append] at hrest
      cases hrest
      rw [hstops] at hne
      cases hne
    | cons first middle =>
      cases hrest
      have hpass := hbefore i (mem_append_right _ mem_cons_self)
      rw [hstops] at hpass
      cases hpass
  · cases middle with
    | nil =>
      rw [nil_append] at hrest
      cases hrest
      rw [hstops] at hne
      cases hne
    | cons first middle =>
      cases hrest
      exact mem_append_right _ mem_cons_self

theorem Reaches.mem (h : Reaches P slots path i) : i ∈ path := by
  obtain ⟨before, after, rfl, -⟩ := h
  exact mem_append_right _ mem_cons_self

theorem Reaches.mono {slots' : Nat → S} (h : Reaches P slots path i)
    (hpass : ∀ j, P.stops (slots j) = false → P.stops (slots' j) = false) :
    Reaches P slots' path i := by
  obtain ⟨before, after, heq, hbefore⟩ := h
  exact ⟨before, after, heq, fun j hj => hpass j (hbefore j hj)⟩

theorem key_stops (h : P.key s = some k) : P.stops s = false := by
  cases hstops : P.stops s with
  | false => rfl
  | true =>
    rw [P.key_of_stops s hstops] at h
    cases h

theorem Probed.shrink {slots' : Nat → S} (h : Probed P slots)
    (hkey : ∀ i k, P.key (slots' i) = some k → P.key (slots i) = some k)
    (hpass : ∀ j, P.stops (slots j) = false → P.stops (slots' j) = false) : Probed P slots' where
  reaches i k hk := (h.reaches i k (hkey i k hk)).mono hpass
  unique i j k hi hj := h.unique i j k (hkey i k hi) (hkey j k hj)

theorem Probed.insert (h : Probed P slots) (hkey : P.key s = some k)
    (hnone : ∀ j, P.key (slots j) ≠ some k) (hreaches : Reaches P slots (P.path k) i) :
    Probed P (update slots i s) := by
  have hpass : ∀ j, P.stops (slots j) = false → P.stops (update slots i s j) = false := by
    intro j hj
    by_cases hij : j = i
    · subst hij
      rw [update_self]
      exact key_stops hkey
    · rw [update_of_ne hij]
      exact hj
  have hcases : ∀ j k', P.key (update slots i s j) = some k' →
      j = i ∧ k' = k ∨ j ≠ i ∧ P.key (slots j) = some k' := by
    intro j k' hj
    by_cases hij : j = i
    · subst hij
      rw [update_self, hkey] at hj
      exact .inl ⟨rfl, (Option.some.inj hj).symm⟩
    · rw [update_of_ne hij] at hj
      exact .inr ⟨hij, hj⟩
  constructor
  · intro j k' hj
    rcases hcases j k' hj with ⟨rfl, rfl⟩ | ⟨-, hj⟩
    · exact hreaches.mono hpass
    · exact (h.reaches j k' hj).mono hpass
  · intro j j' k' hj hj'
    rcases hcases j k' hj with ⟨rfl, rfl⟩ | ⟨-, hold⟩
    · rcases hcases j' k' hj' with ⟨rfl, -⟩ | ⟨-, hold'⟩
      · rfl
      · exact absurd hold' (hnone j')
    · rcases hcases j' k' hj' with ⟨rfl, rfl⟩ | ⟨-, hold'⟩
      · exact absurd hold (hnone j)
      · exact h.unique j j' k' hold hold'

theorem Probed.rewrite (h : Probed P slots) (hold : P.key (slots i) = some k)
    (hkey : P.key s = some k) : Probed P (update slots i s) := by
  refine h.shrink (fun j k' hj => ?_) (fun j hj => ?_)
  · by_cases hij : j = i
    · subst hij
      rw [update_self, hkey] at hj
      rw [hold, hj]
    · rwa [update_of_ne hij] at hj
  · by_cases hij : j = i
    · subst hij
      rw [update_self]
      exact key_stops hkey
    · rwa [update_of_ne hij]

end Orbit.Table
