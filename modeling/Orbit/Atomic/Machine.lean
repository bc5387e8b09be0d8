import Mathlib.Data.List.Basic

/-! Machines whose actions are the atomic steps of several parties.  An action that is not enabled
makes nothing of a state. -/

namespace Orbit.Atomic

variable {S A : Type} {step : S → A → Option S} {ok : S → A → Prop} {start : S → Prop} {s s' : S}

/-- The states that the actions reach when each of them meets the condition. -/
inductive Reached (step : S → A → Option S) (ok : S → A → Prop) (start : S → Prop) : S → Prop where
  | start {s : S} (h : start s) : Reached step ok start s
  | step {s s' : S} (a : A) (h : Reached step ok start s) (hok : ok s a)
      (hstep : step s a = some s') : Reached step ok start s'

/-- What holds at the start and is kept by every action that meets the condition holds in every
state that is reached. -/
theorem Reached.holds {I : S → Prop} (h : Reached step ok start s) (hstart : ∀ s, start s → I s)
    (hkept : ∀ s a s', I s → ok s a → step s a = some s' → I s') : I s := by
  induction h with
  | start h => exact hstart _ h
  | step a _ hok hstep ih => exact hkept _ a _ ih hok hstep

def anyAction (_ : S) (_ : A) : Prop := True

instance (s : S) (a : A) : Decidable (anyAction s a) := inferInstanceAs (Decidable True)

section

variable [∀ s a, Decidable (ok s a)]

/-- The state after the actions, one after the other, when each is enabled and meets the
condition. -/
def actAll (step : S → A → Option S) (ok : S → A → Prop) [∀ s a, Decidable (ok s a)] :
    S → List A → Option S
  | s, [] => some s
  | s, a :: rest =>
    if ok s a then
      match step s a with
      | some s => actAll step ok s rest
      | none => none
    else none

theorem Reached.actAll {l : List A} (h : Reached step ok start s)
    (hact : actAll step ok s l = some s') : Reached step ok start s' := by
  induction l generalizing s with
  | nil =>
    cases hact
    exact h
  | cons a rest ih =>
    obtain ⟨hok, hrest⟩ := Option.ite_none_right_eq_some.mp hact
    split at hrest
    · exact ih (.step a h hok ‹_›) hrest
    · cases hrest

theorem Reached.exists_of_actAll {l : List A} {Q : S → Bool} (h : Reached step ok start s)
    (hact : (Orbit.Atomic.actAll step ok s l).any Q = true) :
    ∃ s', Reached step ok start s' ∧ Q s' = true := by
  obtain ⟨s', hs', hQ⟩ := (Option.any_eq_true _ _).mp hact
  exact ⟨s', h.actAll hs', hQ⟩

end

end Orbit.Atomic
