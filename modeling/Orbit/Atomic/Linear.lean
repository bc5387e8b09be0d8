import Mathlib.Algebra.Group.Nat.Defs
import Mathlib.Data.List.Basic
import Mathlib.Data.List.Flatten
import Mathlib.Data.List.Nodup

/-! Histories of calls on one object, and the sequential orders that explain them. -/

namespace Orbit.Atomic

open List

variable {Op Res S : Type}

/-- What happens to a call, which goes by a number.  `point` is the step at which the call takes
effect, which nobody outside the object sees. -/
inductive Event (Op Res : Type) where
  | call (id : Nat) (op : Op)
  | point (id : Nat) (op : Op) (res : Res)
  | ret (id : Nat) (res : Res)
  deriving DecidableEq

/-- A call that took effect, and what it answers. -/
structure Effect (Op Res : Type) where
  id : Nat
  op : Op
  res : Res
  deriving DecidableEq

def Event.id : Event Op Res → Nat
  | .call id _ | .point id _ _ | .ret id _ => id

def Event.seen : Event Op Res → Bool
  | .call _ _ | .ret _ _ => true
  | .point _ _ _ => false

def Event.effect : Event Op Res → Option (Effect Op Res)
  | .point id op res => some ⟨id, op, res⟩
  | .call _ _ | .ret _ _ => none

def Event.called : Event Op Res → Option Nat
  | .call id _ => some id
  | .point _ _ _ | .ret _ _ => none

def history (trace : List (Event Op Res)) : List (Event Op Res) := trace.filter Event.seen

/-- The calls of a trace in the order in which they took effect. -/
def effects (trace : List (Event Op Res)) : List (Effect Op Res) := trace.filterMap Event.effect

def Replays (step : S → Op → Res → S → Prop) : S → List (Effect Op Res) → S → Prop
  | s, [], s' => s' = s
  | s, effect :: rest, s' => ∃ mid, step s effect.op effect.res mid ∧ Replays step mid rest s'

theorem Replays.append {step : S → Op → Res → S → Prop} {s mid s' : S}
    {order rest : List (Effect Op Res)} (h : Replays step s order mid)
    (hrest : Replays step mid rest s') : Replays step s (order ++ rest) s' := by
  induction order generalizing s with
  | nil =>
    cases h
    exact hrest
  | cons effect order ih =>
    obtain ⟨next, hstep, h⟩ := h
    exact ⟨next, hstep, ih h⟩

theorem Replays.split {step : S → Op → Res → S → Prop} {s s' : S}
    {order rest : List (Effect Op Res)} (h : Replays step s (order ++ rest) s') :
    ∃ mid, Replays step s order mid ∧ Replays step mid rest s' := by
  induction order generalizing s with
  | nil => exact ⟨s, rfl, h⟩
  | cons effect order ih =>
    obtain ⟨next, hstep, h⟩ := h
    obtain ⟨mid, hfirst, hrest⟩ := ih h
    exact ⟨mid, ⟨next, hstep, hfirst⟩, hrest⟩

/-- A trace in which every call is made once, takes effect once at most after that and returns
with the answer of its effect. -/
inductive Traced : List (Event Op Res) → Prop where
  | nil : Traced []
  | call {trace : List (Event Op Res)} {id : Nat} {op : Op} (h : Traced trace)
      (hfresh : ∀ event ∈ trace, event.id ≠ id) : Traced (trace ++ [.call id op])
  | point {trace : List (Event Op Res)} {id : Nat} {op : Op} {res : Res} (h : Traced trace)
      (hcall : .call id op ∈ trace) (hfirst : ∀ op res, .point id op res ∉ trace) :
      Traced (trace ++ [.point id op res])
  | ret {trace : List (Event Op Res)} {id : Nat} {op : Op} {res : Res} (h : Traced trace)
      (hpoint : .point id op res ∈ trace) : Traced (trace ++ [.ret id res])

section

variable {trace : List (Event Op Res)} {id : Nat} {op : Op} {res : Res}

@[simp] theorem history_append (trace rest : List (Event Op Res)) :
    history (trace ++ rest) = history trace ++ history rest := filter_append ..

@[simp] theorem effects_append (trace rest : List (Event Op Res)) :
    effects (trace ++ rest) = effects trace ++ effects rest := filterMap_append ..

@[simp] theorem history_call : history [(.call id op : Event Op Res)] = [.call id op] := rfl
@[simp] theorem history_point : history [(.point id op res : Event Op Res)] = [] := rfl
@[simp] theorem history_ret : history [(.ret id res : Event Op Res)] = [.ret id res] := rfl
@[simp] theorem effects_call : effects [(.call id op : Event Op Res)] = [] := rfl
@[simp] theorem effects_point : effects [(.point id op res : Event Op Res)] = [⟨id, op, res⟩] := rfl
@[simp] theorem effects_ret : effects [(.ret id res : Event Op Res)] = [] := rfl

theorem mem_effects {effect : Effect Op Res} :
    effect ∈ effects trace ↔ .point effect.id effect.op effect.res ∈ trace := by
  rw [effects, mem_filterMap]
  constructor
  · rintro ⟨event, hmem, heffect⟩
    cases event with
    | point id op res =>
      cases heffect
      exact hmem
    | call id op => cases heffect
    | ret id res => cases heffect
  · intro hmem
    exact ⟨_, hmem, rfl⟩

theorem ret_mem_history : .ret id res ∈ history trace ↔ .ret id res ∈ trace := by
  simp [history, Event.seen]

namespace Traced

theorem ret_pointed (h : Traced trace) (hmem : .ret id res ∈ trace) :
    ∃ op, .point id op res ∈ trace := by
  induction h with
  | nil => cases hmem
  | call h hfresh ih | point h hcall hfirst ih =>
    simp only [mem_append, mem_singleton, reduceCtorEq, or_false] at hmem
    obtain ⟨op, hop⟩ := ih hmem
    exact ⟨op, mem_append_left _ hop⟩
  | @ret trace id' op' res' h hpoint ih =>
    rcases mem_append.mp hmem with hmem | hmem
    · obtain ⟨op, hop⟩ := ih hmem
      exact ⟨op, mem_append_left _ hop⟩
    · rw [mem_singleton] at hmem
      cases hmem
      exact ⟨op', mem_append_left _ hpoint⟩

theorem once (h : Traced trace) : ((effects trace).map Effect.id).Nodup := by
  induction h with
  | nil => exact nodup_nil
  | call h hfresh ih | ret h hpoint ih => simpa using ih
  | @point trace id op res h hcall hfirst ih =>
    rw [effects_append, effects_point, map_append, nodup_append]
    refine ⟨ih, by simp, ?_⟩
    intro a ha b hb heq
    obtain ⟨effect, heffect, rfl⟩ := mem_map.mp ha
    rw [map_singleton, mem_singleton] at hb
    rw [hb] at heq
    have hpoint := mem_effects.mp heffect
    rw [heq] at hpoint
    exact hfirst _ _ hpoint

theorem pair_sublist {α : Type} {l : List α} {a b c : α} (h : [a, b].Sublist (l ++ [c])) :
    [a, b].Sublist l ∨ a ∈ l ∧ b = c := by
  obtain ⟨l₁, l₂, heq, h₁, h₂⟩ := sublist_append_iff.mp h
  rcases sublist_singleton.mp h₂ with rfl | rfl
  · left
    rw [append_nil] at heq
    rw [heq]
    exact h₁
  · right
    rcases l₁ with _ | ⟨x, l₁⟩
    · cases heq
    · cases l₁ with
      | nil =>
        cases heq
        exact ⟨singleton_sublist.mp h₁, rfl⟩
      | cons y l₁ => simp at heq

theorem ordered (h : Traced trace) {first second : Effect Op Res} (hfirst : first ∈ effects trace)
    (hsecond : second ∈ effects trace) {op : Op}
    (hpair : [.ret first.id res, .call second.id op].Sublist (history trace)) :
    [first, second].Sublist (effects trace) := by
  induction h with
  | nil => cases hfirst
  | @call trace id op' h hfresh ih =>
    simp only [effects_append, effects_call, append_nil, history_append, history_call]
      at hfirst hsecond hpair ⊢
    rcases pair_sublist hpair with hpair | ⟨-, heq⟩
    · exact ih hfirst hsecond hpair
    · cases heq
      exact absurd rfl (hfresh _ (mem_effects.mp hsecond))
  | @point trace id op' res' h hcall hnone ih =>
    simp only [effects_append, effects_point, history_append, history_point, append_nil,
      mem_append, mem_singleton] at hfirst hsecond hpair ⊢
    have hret : .ret first.id res ∈ trace := ret_mem_history.mp (hpair.subset (by simp))
    obtain ⟨op'', hpointed⟩ := h.ret_pointed hret
    rcases hfirst with hfirst | rfl
    · rcases hsecond with hsecond | rfl
      · exact (ih hfirst hsecond hpair).trans (sublist_append_left _ _)
      · exact (singleton_sublist.mpr hfirst).append (List.Sublist.refl [_])
    · exact absurd hpointed (hnone _ _)
  | @ret trace id op' res' h hpoint ih =>
    simp only [effects_append, effects_ret, append_nil, history_append, history_ret]
      at hfirst hsecond hpair ⊢
    rcases pair_sublist hpair with hpair | ⟨-, heq⟩
    · exact ih hfirst hsecond hpair
    · cases heq

end Traced

end

section

variable {step : S → Op → Res → S → Prop} {s : S} {done order : List (Effect Op Res)}

end

end Orbit.Atomic
