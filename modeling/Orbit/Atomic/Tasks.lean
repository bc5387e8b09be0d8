import Mathlib.Algebra.GroupWithZero.Nat
import Mathlib.Data.List.Basic

/-! Sums over the tasks of a system in which one task at a time takes a step. -/

namespace Orbit.Atomic

open List

variable {T : Type}

theorem getElem?_concat {tasks : List T} {new task : T} {i : Nat}
    (h : (tasks ++ [new])[i]? = some task) :
    tasks[i]? = some task ∨ i = tasks.length ∧ task = new := by
  rcases Nat.lt_trichotomy i tasks.length with hlt | rfl | hgt
  · exact .inl (by rwa [getElem?_append_left hlt] at h)
  · rw [getElem?_concat_length] at h
    exact .inr ⟨rfl, (Option.some.inj h).symm⟩
  · rw [getElem?_eq_none (by rw [length_append, length_singleton]; omega)] at h
    cases h

def total (f : T → Nat) (tasks : List T) : Nat := (tasks.map f).sum

@[simp] theorem total_nil (f : T → Nat) : total f [] = 0 := rfl

@[simp] theorem total_cons (f : T → Nat) (task : T) (tasks : List T) :
    total f (task :: tasks) = f task + total f tasks := by
  simp [total]

@[simp] theorem total_append (f : T → Nat) (tasks tasks' : List T) :
    total f (tasks ++ tasks') = total f tasks + total f tasks' := by
  simp [total]

theorem total_add (f f' : T → Nat) (tasks : List T) :
    total (fun task => f task + f' task) tasks = total f tasks + total f' tasks := by
  induction tasks with
  | nil => rfl
  | cons task tasks ih =>
    rw [total_cons, total_cons, total_cons, ih]
    omega

def totalBut (f : T → Nat) (tasks : List T) (i : Nat) : Nat := total f (tasks.eraseIdx i)

theorem total_eq {tasks : List T} {i : Nat} {task : T} (h : tasks[i]? = some task) (f : T → Nat) :
    total f tasks = f task + totalBut f tasks i := by
  induction tasks generalizing i with
  | nil => cases h
  | cons first rest ih =>
    cases i with
    | zero =>
      cases h
      rfl
    | succ i =>
      have hrest : total f rest = f task + totalBut f rest i := ih (by simpa using h)
      rw [total_cons, hrest, totalBut, totalBut, eraseIdx_cons_succ, total_cons]
      omega

theorem total_set {tasks : List T} {i : Nat} {task : T} (h : tasks[i]? = some task) (f : T → Nat)
    (task' : T) : total f (tasks.set i task') = f task' + totalBut f tasks i := by
  induction tasks generalizing i with
  | nil => cases h
  | cons first rest ih =>
    cases i with
    | zero => rfl
    | succ i =>
      have hrest : total f (rest.set i task') = f task' + totalBut f rest i := ih (by simpa using h)
      rw [set_cons_succ, total_cons, hrest, totalBut, totalBut, eraseIdx_cons_succ,
        total_cons]
      omega

theorem total_mono {f f' : T → Nat} (h : ∀ task, f task ≤ f' task) (tasks : List T) :
    total f tasks ≤ total f' tasks := by
  induction tasks with
  | nil => exact Nat.le_refl _
  | cons first rest ih =>
    have := h first
    rw [total_cons, total_cons]
    omega

theorem total_eq_zero {f : T → Nat} {tasks : List T} (h : ∀ task ∈ tasks, f task = 0) :
    total f tasks = 0 := by
  induction tasks with
  | nil => rfl
  | cons first rest ih =>
    rw [total_cons, h first mem_cons_self, ih fun task htask =>
      h task (mem_cons_of_mem _ htask)]

theorem le_total {tasks : List T} {task : T} (h : task ∈ tasks) (f : T → Nat) :
    f task ≤ total f tasks := by
  obtain ⟨i, hi⟩ := getElem?_of_mem h
  rw [total_eq hi f]
  exact Nat.le_add_right _ _

end Orbit.Atomic
