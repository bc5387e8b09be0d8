import Mathlib.Logic.Function.Basic
import Mathlib.Algebra.Group.Nat.Defs

/-! Programs over shared words.  A program is a tree of atomic accesses: each node names one word,
says how the word changes, and continues with the value it found there.  `Prog.run` executes a
program alone, from its first access to its result; `Orbit.Atomic.Threads` interleaves any number
of programs, one access at a time. -/

namespace Orbit.Atomic

/-- Shared memory: a word at every address. -/
abbrev Mem (A : Type) := A → Nat

/-- A program over the words at addresses `A` that returns a value of type `α`.  `access` reads
the word at `place`, replaces it with `change` of it (`none` leaves it alone) and continues with
the value read: loads, stores, compare-and-swaps and fetch-and-updates are all of this form.
`acquire` waits until the mutex word is 0 and makes it 1.  `mark` records an event of type `E` in
the history of the run; it reads and writes no word and takes no time of its own. -/
inductive Prog (A E α : Type) : Type where
  | ret (value : α)
  | access (place : A) (change : Nat → Option Nat) (next : Nat → Prog A E α)
  | acquire (lock : A) (next : Prog A E α)
  | mark (event : E) (next : Prog A E α)

namespace Prog

variable {A E α β : Type}

/-- `p`, then `f` of its result. -/
def bind : Prog A E α → (α → Prog A E β) → Prog A E β
  | ret value, f => f value
  | access place change next, f => access place change fun v => (next v).bind f
  | acquire lock next, f => acquire lock (next.bind f)
  | mark event next, f => mark event (next.bind f)

instance : Monad (Prog A E) where
  pure := ret
  bind := bind

@[simp] theorem pure_eq (value : α) : (pure value : Prog A E α) = ret value := rfl

@[simp] theorem ret_bind (value : α) (f : α → Prog A E β) : (ret value >>= f) = f value := rfl

@[simp] theorem access_bind (place : A) (change : Nat → Option Nat) (next : Nat → Prog A E α)
    (f : α → Prog A E β) :
    (access place change next >>= f) = access place change fun v => next v >>= f := rfl

@[simp] theorem acquire_bind (lock : A) (next : Prog A E α) (f : α → Prog A E β) :
    (acquire lock next >>= f) = acquire lock (next >>= f) := rfl

@[simp] theorem mark_bind (event : E) (next : Prog A E α) (f : α → Prog A E β) :
    (mark event next >>= f) = mark event (next >>= f) := rfl

theorem bind_ret (p : Prog A E α) : (p >>= ret) = p := by
  induction p with
  | ret => rfl
  | access place change next ih => simp [ih]
  | acquire lock next ih => simp [ih]
  | mark event next ih => simp [ih]

theorem bind_assoc {γ : Type} (p : Prog A E α) (f : α → Prog A E β) (g : β → Prog A E γ) :
    (p >>= f >>= g) = p >>= fun a => f a >>= g := by
  induction p with
  | ret => rfl
  | access place change next ih => simp [ih]
  | acquire lock next ih => simp [ih]
  | mark event next ih => simp [ih]

instance : LawfulMonad (Prog A E) :=
  LawfulMonad.mk' _ (fun p => bind_ret p) (fun _ _ => rfl) bind_assoc

end Prog

section Accesses

variable {A E : Type}

/-- The value of the word at `place`. -/
def load (place : A) : Prog A E Nat :=
  .access place (fun _ => none) .ret

/-- The word at `place` becomes `value`. -/
def store (place : A) (value : Nat) : Prog A E Unit :=
  .access place (fun _ => some value) fun _ => .ret ()

/-- The word at `place` becomes `value`; the result is the value it had. -/
def swap (place : A) (value : Nat) : Prog A E Nat :=
  .access place (fun _ => some value) .ret

/-- The word at `place` becomes `update` of it, if that is a value.  The result says whether it
did. -/
def tryUpdate (place : A) (update : Nat → Option Nat) : Prog A E Bool :=
  .access place update fun v => .ret (update v).isSome

/-- The word at `place` becomes `new` if it is `current`; the result says whether it did. -/
def compareExchange (place : A) (current new : Nat) : Prog A E Bool :=
  .access place (fun v => if v = current then some new else none) fun v => .ret (v == current)

/-- The word at `place`, of `bits` bits, becomes the wrapped sum with `amount`; the result is the
value it had. -/
def fetchAdd (bits : Nat) (place : A) (amount : Nat) : Prog A E Nat :=
  .access place (fun v => some ((v + amount) % 2 ^ bits)) .ret

/-- The word at `place` becomes its bitwise or with `mask`; the result is the value it had. -/
def fetchOr (place : A) (mask : Nat) : Prog A E Nat :=
  .access place (fun v => some (v ||| mask)) .ret

/-- The bits of `mask` are cleared in the word at `place`; the result is the value it had. -/
def fetchClear (place : A) (mask : Nat) : Prog A E Nat :=
  .access place (fun v => some (v ^^^ (v &&& mask))) .ret

/-- Take the mutex at `lock`. -/
def acquire (lock : A) : Prog A E Unit := .acquire lock (.ret ())

/-- Give the mutex at `lock` back. -/
def release (lock : A) : Prog A E Unit := store lock 0

def mark (event : E) : Prog A E Unit := .mark event (.ret ())

end Accesses

section Run

variable {A E α β : Type} [DecidableEq A]

/-- Memory after a change of the word at `place`. -/
def Mem.put (mem : Mem A) (place : A) : Option Nat → Mem A
  | some value => Function.update mem place value
  | none => mem

@[simp] theorem Mem.put_none (mem : Mem A) (place : A) : mem.put place none = mem := rfl

@[simp] theorem Mem.put_some (mem : Mem A) (place : A) (value : Nat) :
    mem.put place (some value) = Function.update mem place value := rfl

theorem Mem.put_apply_ne (mem : Mem A) {place a : A} (change : Option Nat) (h : a ≠ place) :
    mem.put place change a = mem a := by
  cases change with
  | none => rfl
  | some value => exact Function.update_of_ne h _ _

def Prog.run : Prog A E α → Mem A → α × Mem A
  | .ret value, mem => (value, mem)
  | .access place change next, mem => (next (mem place)).run (mem.put place (change (mem place)))
  | .acquire lock next, mem => next.run (Function.update mem lock 1)
  | .mark _ next, mem => next.run mem

@[simp] theorem Prog.run_ret (value : α) (mem : Mem A) :
    (Prog.ret value : Prog A E α).run mem = (value, mem) := rfl

@[simp] theorem Prog.run_pure (value : α) (mem : Mem A) :
    (pure value : Prog A E α).run mem = (value, mem) := rfl

@[simp] theorem Prog.run_bind (p : Prog A E α) (f : α → Prog A E β) (mem : Mem A) :
    (p >>= f).run mem = (f (p.run mem).1).run (p.run mem).2 := by
  induction p generalizing mem with
  | ret => rfl
  | access place change next ih => exact ih _ _
  | acquire lock next ih => exact ih _
  | mark event next ih => exact ih _

@[simp] theorem run_load (place : A) (mem : Mem A) :
    (load place : Prog A E Nat).run mem = (mem place, mem) := rfl

theorem run_load_bind (place : A) (f : Nat → Prog A E β) (mem : Mem A) :
    (load place >>= f).run mem = (f (mem place)).run mem := rfl

@[simp] theorem run_store (place : A) (value : Nat) (mem : Mem A) :
    (store place value : Prog A E Unit).run mem = ((), Function.update mem place value) := rfl

@[simp] theorem run_swap (place : A) (value : Nat) (mem : Mem A) :
    (swap place value : Prog A E Nat).run mem = (mem place, Function.update mem place value) := rfl

@[simp] theorem run_tryUpdate (place : A) (update : Nat → Option Nat) (mem : Mem A) :
    (tryUpdate place update : Prog A E Bool).run mem =
      ((update (mem place)).isSome, mem.put place (update (mem place))) := rfl

@[simp] theorem run_compareExchange (place : A) (current new : Nat) (mem : Mem A) :
    (compareExchange place current new : Prog A E Bool).run mem =
      (mem place == current, mem.put place (if mem place = current then some new else none)) := rfl

@[simp] theorem run_fetchAdd (bits : Nat) (place : A) (amount : Nat) (mem : Mem A) :
    (fetchAdd bits place amount : Prog A E Nat).run mem =
      (mem place, Function.update mem place ((mem place + amount) % 2 ^ bits)) := rfl

@[simp] theorem run_fetchOr (place : A) (mask : Nat) (mem : Mem A) :
    (fetchOr place mask : Prog A E Nat).run mem =
      (mem place, Function.update mem place (mem place ||| mask)) := rfl

@[simp] theorem run_fetchClear (place : A) (mask : Nat) (mem : Mem A) :
    (fetchClear place mask : Prog A E Nat).run mem =
      (mem place, Function.update mem place (mem place ^^^ (mem place &&& mask))) := rfl

@[simp] theorem run_acquire (lock : A) (mem : Mem A) :
    (acquire lock : Prog A E Unit).run mem = ((), Function.update mem lock 1) := rfl

@[simp] theorem run_release (lock : A) (mem : Mem A) :
    (release lock : Prog A E Unit).run mem = ((), Function.update mem lock 0) := rfl

@[simp] theorem run_mark (event : E) (mem : Mem A) :
    (mark event : Prog A E Unit).run mem = ((), mem) := rfl

end Run

section Within

variable {A E α β : Type} {P Q : A → Prop}

/-- Every word the program may change satisfies `P`. -/
def Prog.Within (P : A → Prop) : Prog A E α → Prop
  | .ret _ => True
  | .access place change next => (P place ∨ ∀ v, change v = none) ∧ ∀ v, (next v).Within P
  | .acquire lock next => P lock ∧ next.Within P
  | .mark _ next => next.Within P

/-- Every result the program may return satisfies `Q`. -/
def Prog.Results (Q : α → Prop) : Prog A E α → Prop
  | .ret value => Q value
  | .access _ _ next => ∀ v, (next v).Results Q
  | .acquire _ next | .mark _ next => next.Results Q

namespace Prog.Results

variable {Q : α → Prop} {R : β → Prop}

theorem bind {p : Prog A E α} {f : α → Prog A E β} (hp : p.Results Q)
    (hf : ∀ a, Q a → (f a).Results R) : (p >>= f).Results R := by
  induction p with
  | ret value => exact hf value hp
  | access place change next ih => exact fun v => ih v (hp v)
  | acquire lock next ih => exact ih hp
  | mark event next ih => exact ih hp

theorem any (p : Prog A E α) : p.Results fun _ => True := by
  induction p with
  | ret => trivial
  | access place change next ih => exact ih
  | acquire lock next ih => exact ih
  | mark event next ih => exact ih

end Prog.Results

namespace Prog.Within

theorem ret (value : α) : (Prog.ret value : Prog A E α).Within P := trivial

theorem bind_results {R : α → Prop} {p : Prog A E α} {f : α → Prog A E β} (hp : p.Within P)
    (hr : p.Results R) (hf : ∀ a, R a → (f a).Within P) : (p >>= f).Within P := by
  induction p with
  | ret value => exact hf value hr
  | access place change next ih => exact ⟨hp.1, fun v => ih v (hp.2 v) (hr v)⟩
  | acquire lock next ih => exact ⟨hp.1, ih hp.2 hr⟩
  | mark event next ih => exact ih hp hr

theorem bind {p : Prog A E α} {f : α → Prog A E β} (hp : p.Within P)
    (hf : ∀ a, (f a).Within P) : (p >>= f).Within P :=
  hp.bind_results (.any p) fun a _ => hf a

theorem mono {p : Prog A E α} (hp : p.Within P) (h : ∀ a, P a → Q a) : p.Within Q := by
  induction p with
  | ret => trivial
  | access place change next ih => exact ⟨hp.1.imp_left (h _), fun v => ih v (hp.2 v)⟩
  | acquire lock next ih => exact ⟨h _ hp.1, ih hp.2⟩
  | mark event next ih => exact ih hp

theorem run_eq [DecidableEq A] {p : Prog A E α} (hp : p.Within P) (mem : Mem A) {a : A}
    (ha : ¬P a) : (p.run mem).2 a = mem a := by
  induction p generalizing mem with
  | ret => rfl
  | access place change next ih =>
    rw [Prog.run, ih _ (hp.2 _)]
    rcases hp.1 with h | h
    · exact Mem.put_apply_ne _ _ fun e => ha (e ▸ h)
    · rw [h, Mem.put_none]
  | acquire lock next ih =>
    rw [Prog.run, ih hp.2]
    have hne : a ≠ lock := fun e => ha (e ▸ hp.1)
    exact Function.update_of_ne hne _ _
  | mark event next ih => exact ih hp _

end Prog.Within

theorem within_load (place : A) : (load place : Prog A E Nat).Within P :=
  ⟨.inr fun _ => rfl, fun _ => trivial⟩

theorem within_mark (event : E) : (mark event : Prog A E Unit).Within P := trivial

section

variable {place : A} (h : P place)
include h

theorem within_access {change : Nat → Option Nat} {next : Nat → Prog A E α}
    (hnext : ∀ v, (next v).Within P) : (Prog.access place change next).Within P :=
  ⟨.inl h, hnext⟩

theorem within_store (value : Nat) : (store place value : Prog A E Unit).Within P :=
  within_access h fun _ => trivial

theorem within_swap (value : Nat) : (swap place value : Prog A E Nat).Within P :=
  within_access h fun _ => trivial

theorem within_tryUpdate (update : Nat → Option Nat) :
    (tryUpdate place update : Prog A E Bool).Within P :=
  within_access h fun _ => trivial

theorem within_compareExchange (current new : Nat) :
    (compareExchange place current new : Prog A E Bool).Within P :=
  within_access h fun _ => trivial

theorem within_fetchAdd (bits amount : Nat) :
    (fetchAdd bits place amount : Prog A E Nat).Within P :=
  within_access h fun _ => trivial

theorem within_fetchOr (mask : Nat) : (fetchOr place mask : Prog A E Nat).Within P :=
  within_access h fun _ => trivial

theorem within_fetchClear (mask : Nat) : (fetchClear place mask : Prog A E Nat).Within P :=
  within_access h fun _ => trivial

theorem within_acquire : (acquire place : Prog A E Unit).Within P := ⟨h, trivial⟩

theorem within_release : (release place : Prog A E Unit).Within P := within_store h 0

end

end Within

section Quiet

variable {A E α β : Type} {P : A → Prop}

/-- The program takes no mutex, records no event and changes only words that satisfy `P`. -/
def Prog.Quiet (P : A → Prop) : Prog A E α → Prop
  | .ret _ => True
  | .access place change next => (P place ∨ ∀ v, change v = none) ∧ ∀ v, (next v).Quiet P
  | .acquire .. | .mark .. => False

namespace Prog.Quiet

theorem ret (value : α) : (Prog.ret value : Prog A E α).Quiet P := trivial

theorem bind {p : Prog A E α} {f : α → Prog A E β} (hp : p.Quiet P) (hf : ∀ a, (f a).Quiet P) :
    (p >>= f).Quiet P := by
  induction p with
  | ret value => exact hf value
  | access place change next ih => exact ⟨hp.1, fun v => ih v (hp.2 v)⟩
  | acquire | mark => exact hp.elim

end Prog.Quiet

theorem quiet_load (place : A) : (load place : Prog A E Nat).Quiet P :=
  ⟨.inr fun _ => rfl, fun _ => trivial⟩

theorem quiet_store {place : A} (h : P place) (value : Nat) :
    (store place value : Prog A E Unit).Quiet P :=
  ⟨.inl h, fun _ => trivial⟩

theorem quiet_fetchAdd {place : A} (h : P place) (bits amount : Nat) :
    (fetchAdd bits place amount : Prog A E Nat).Quiet P :=
  ⟨.inl h, fun _ => trivial⟩

end Quiet

end Orbit.Atomic
