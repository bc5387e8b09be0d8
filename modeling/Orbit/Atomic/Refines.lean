import Orbit.Atomic.Prog
import Orbit.Atomic.Sequence

/-! Refinement of values by words.  A program over words computes what a function of values does,
when it keeps the words that stand for them in step; and two machines that are kept in step give the
same results. -/

namespace Orbit.Atomic

section

variable {A E V α β : Type} [DecidableEq A] {R : V → Mem A → Prop} {v v' v'' : V}

/-- Run on words that stand for `v`, the program returns `result` and leaves words that stand for
`v'`. -/
def Computes (R : V → Mem A → Prop) (v : V) (p : Prog A E α) (result : α) (v' : V) : Prop :=
  ∀ mem, R v mem → (p.run mem).1 = result ∧ R v' (p.run mem).2

theorem Computes.ret (v : V) (value : α) : Computes R v (Prog.ret value : Prog A E α) value v :=
  fun _ hmem => ⟨rfl, hmem⟩

theorem Computes.bind {p : Prog A E α} {f : α → Prog A E β} {a : α} {b : β}
    (hp : Computes R v p a v') (hf : Computes R v' (f a) b v'') :
    Computes R v (p >>= f) b v'' := by
  intro mem hmem
  obtain ⟨hvalue, hmem'⟩ := hp mem hmem
  rw [Prog.run_bind, hvalue]
  exact hf _ hmem'

theorem Computes.load {place : A} {value : Nat} (h : ∀ mem, R v mem → mem place = value) :
    Computes R v (load place : Prog A E Nat) value v :=
  fun mem hmem => ⟨h mem hmem, hmem⟩

theorem Computes.store {place : A} {value : Nat}
    (h : ∀ mem, R v mem → R v' (Function.update mem place value)) :
    Computes R v (store place value : Prog A E Unit) () v' :=
  fun mem hmem => ⟨rfl, h mem hmem⟩

theorem Computes.acquire {lock : A} (h : ∀ mem, R v mem → R v' (Function.update mem lock 1)) :
    Computes R v (acquire lock : Prog A E Unit) () v' :=
  fun mem hmem => ⟨rfl, h mem hmem⟩

theorem Computes.release {lock : A} (h : ∀ mem, R v mem → R v' (Function.update mem lock 0)) :
    Computes R v (release lock : Prog A E Unit) () v' :=
  .store h

end

section

variable {S S' O Out : Type}

def results (step : S → O → Out × S) : S → List O → List Out
  | _, [] => []
  | s, op :: rest => (step s op).1 :: results step (step s op).2 rest

theorem results_eq_iff {step : S → O → Out × S} {step' : S' → O → Out × S'}
    {given ok : S → O → Prop} {Sim : S → S' → Prop}
    (hstep : ∀ s s' op, Sim s s' → given s op → Sim (step s op).2 (step' s' op).2)
    (hout : ∀ s s' op, Sim s s' → given s op → ((step s op).1 = (step' s' op).1 ↔ ok s op))
    {s : S} {s' : S'} {ops : List O} (hsim : Sim s s')
    (hgiven : Meets (fun s op => (step s op).2) given s ops) :
    results step s ops = results step' s' ops ↔ Meets (fun s op => (step s op).2) ok s ops := by
  induction ops generalizing s s' with
  | nil => exact ⟨fun _ => trivial, fun _ => rfl⟩
  | cons op rest ih =>
    rw [results, results, List.cons.injEq, hout s s' op hsim hgiven.1,
      ih (hstep s s' op hsim hgiven.1) hgiven.2]
    exact Iff.rfl

end

end Orbit.Atomic
