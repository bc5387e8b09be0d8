import Orbit.Atomic.Threads

/-! Programs that may fail, and that count what they spend.  A `Work` is given a tally and returns a
result or an error, with the tally it leaves; an error ends it at once, but for what has to be
cleaned up.  `Works` is `Safe` for them: a share for each result, and one for failure. -/

namespace Orbit.Atomic

/-- A program over the words at addresses `A` that is given a tally of type `B` and may fail. -/
def Work (A E B Err α : Type) := B → Prog A E (Except Err α × B)

namespace Work

variable {A E B Err α β : Type}

/-- `w`, then `f` of its result, unless `w` fails. -/
def bind (w : Work A E B Err α) (f : α → Work A E B Err β) : Work A E B Err β := fun b =>
  w b >>= fun r =>
    match r.1 with
    | .ok a => f a r.2
    | .error e => .ret (.error e, r.2)

instance : Monad (Work A E B Err) where
  pure a := fun b => .ret (.ok a, b)
  bind := bind

def fail (e : Err) : Work A E B Err α := fun b => .ret (.error e, b)

def tally (step : B → Except Err α × B) : Work A E B Err α := fun b => .ret (step b)

def of (value : Except Err α) : Work A E B Err α := fun b => .ret (value, b)

/-- A program that neither fails nor spends. -/
def lift (p : Prog A E α) : Work A E B Err α := fun b => p >>= fun a => .ret (.ok a, b)

/-- `w`, and `cleanup` after it whether or not it fails. -/
def always (w : Work A E B Err α) (cleanup : Prog A E Unit) : Work A E B Err α := fun b =>
  w b >>= fun r => cleanup >>= fun _ => .ret r

/-- `w`, and `cleanup` after it if it fails. -/
def onFailure (w : Work A E B Err α) (cleanup : Prog A E Unit) : Work A E B Err α := fun b =>
  w b >>= fun r =>
    match r.1 with
    | .ok _ => .ret r
    | .error _ => cleanup >>= fun _ => .ret r

/-- The program of a call that starts with the tally `b`; its result goes to the caller. -/
def toProg (w : Work A E B Err α) (b : B) : Prog A E Unit := w b >>= fun _ => .ret ()

end Work

section Rules

variable {A E B C H M Err α β : Type} [AddCommMonoid M] [DecidableEq A]
variable (S : Sys A E C H) (D : Discipline A C H) (I : M → H → Mem A → Prop)

/-- A call may go on with the work and the share `m`, whatever its tally: up to a result and a share
that satisfy `Q`, or up to an error and a share that satisfies `F`. -/
def Works (t : Nat) (call : C) (w : Work A E B Err α) (Q : α → M → Prop) (F : M → Prop) (m : M) :
    Prop :=
  ∀ b, Safe S D I t call (w b)
    (fun r m' => match r.1 with
      | .ok a => Q a m'
      | .error _ => F m') m

variable {S D I} {t : Nat} {call : C} {w : Work A E B Err α} {Q R : α → M → Prop} {F G : M → Prop}
  {m : M}

theorem Works.pure {a : α} (h : Q a m) : Works S D I t call (pure a : Work A E B Err α) Q F m :=
  fun _ => h

theorem Works.fail {e : Err} (h : F m) : Works S D I t call (Work.fail e : Work A E B Err α) Q F m :=
  fun _ => h

theorem Works.tally {step : B → Except Err α × B} (hok : ∀ b a, (step b).1 = .ok a → Q a m)
    (hfail : F m) : Works S D I t call (Work.tally step : Work A E B Err α) Q F m := by
  intro b
  show match (step b).1 with
    | .ok a => Q a m
    | .error _ => F m
  split
  · rename_i a ha
    exact hok b a ha
  · exact hfail

theorem Works.of {value : Except Err α} (hok : ∀ a, value = .ok a → Q a m) (hfail : F m) :
    Works S D I t call (Work.of value : Work A E B Err α) Q F m :=
  .tally (fun _ => hok) hfail

theorem Works.mono (hw : Works S D I t call w Q F m) (hQ : ∀ a m, Q a m → R a m)
    (hF : ∀ m, F m → G m) : Works S D I t call w R G m := by
  intro b
  refine (hw b).mono fun r m' => ?_
  split
  · exact hQ _ m'
  · exact hF m'

theorem Works.bind {f : α → Work A E B Err β} {Q : β → M → Prop}
    (hw : Works S D I t call w (fun a m' => Works S D I t call (f a) Q F m') F m) :
    Works S D I t call (w >>= f) Q F m := by
  intro b
  refine Safe.bind ((hw b).mono fun r m' hr => ?_)
  obtain ⟨e | a, b'⟩ := r
  · exact hr
  · exact hr b'

theorem Works.lift {p : Prog A E α} (hp : Safe S D I t call p Q m) :
    Works S D I t call (Work.lift p : Work A E B Err α) Q F m :=
  fun _ => Safe.bind (hp.mono fun _ _ h => h)

theorem Works.always {cleanup : Prog A E Unit}
    (hw : Works S D I t call w (fun a m' => Safe S D I t call cleanup (fun _ => Q a) m')
      (fun m' => Safe S D I t call cleanup (fun _ => F) m') m) :
    Works S D I t call (w.always cleanup) Q F m := by
  intro b
  refine Safe.bind ((hw b).mono fun r m' hr => ?_)
  obtain ⟨e | a, b'⟩ := r
  · exact Safe.bind (Safe.mono hr fun _ _ h => h)
  · exact Safe.bind (Safe.mono hr fun _ _ h => h)

theorem Works.onFailure {cleanup : Prog A E Unit}
    (hw : Works S D I t call w Q (fun m' => Safe S D I t call cleanup (fun _ => F) m') m) :
    Works S D I t call (w.onFailure cleanup) Q F m := by
  intro b
  refine Safe.bind ((hw b).mono fun r m' hr => ?_)
  obtain ⟨e | a, b'⟩ := r
  · exact Safe.bind (Safe.mono hr fun _ _ h => h)
  · exact hr

theorem Works.frame (extra : M) (hw : Works S D I t call w Q F m) :
    Works S D I t call w (fun a m' => ∃ m, Q a m ∧ m' = m + extra) (fun m' => ∃ m, F m ∧ m' = m + extra)
      (m + extra) := by
  intro b
  refine ((hw b).frame extra).mono fun r m' => ?_
  rintro ⟨m1, h1, rfl⟩
  split at h1
  · exact ⟨m1, h1, rfl⟩
  · exact ⟨m1, h1, rfl⟩

theorem Works.toProg (hw : Works S D I t call w Q F m) (b : B) :
    Safe S D I t call (w.toProg b) (fun _ _ => True) m :=
  Safe.bind ((hw b).mono fun _ _ _ => trivial)

def WorksOn (S : Sys A E C H) (D : Discipline A C H) (I : M → H → Mem A → Prop) (t : Nat) (call : C)
    (w : Work A E B Err α) (Q : α → M → Prop) (F : M → Prop) (others : M) (h : H) (mem : Mem A) :
    Prop :=
  ∀ b, Goes S D I t call (w b)
    (fun r m' => match r.1 with
      | .ok a => Q a m'
      | .error _ => F m') others h mem

variable {others : M} {h : H} {mem : Mem A} {place : A} {P : A → Prop}

theorem Works.goes (hw : Works S D I t call w Q F m) (hI : I (m + others) h mem) :
    WorksOn S D I t call w Q F others h mem :=
  fun b => (hw b).goes hI

section Accesses

variable {Q : β → M → Prop}

theorem Works.load_bind {f : Nat → Work A E B Err β}
    (hf : ∀ others h mem, I (m + others) h mem →
      WorksOn S D I t call (f (mem place)) Q F others h mem) :
    Works S D I t call (Work.lift (load place) >>= f) Q F m :=
  fun b others h mem hI _ => hf others h mem hI b

theorem Works.store_bind {value : Nat} {f : Unit → Work A E B Err β}
    (hf : ∀ others h mem, I (m + others) h mem → D.write t call place (mem place) value h mem →
      WorksOn S D I t call (f ()) Q F others h (Function.update mem place value)) :
    Works S D I t call (Work.lift (store place value) >>= f) Q F m :=
  fun b others h mem hI hw => hf others h mem hI (hw value rfl) b

theorem Works.compareExchange_bind {current new : Nat} {f : Bool → Work A E B Err β}
    (hyes : ∀ others h mem, I (m + others) h mem → mem place = current →
      D.write t call place (mem place) new h mem →
      WorksOn S D I t call (f true) Q F others h (Function.update mem place new))
    (hno : ∀ others h mem, I (m + others) h mem → mem place ≠ current →
      WorksOn S D I t call (f false) Q F others h mem) :
    Works S D I t call (Work.lift (compareExchange place current new) >>= f) Q F m := by
  intro b others h mem hI hw
  show Goes S D I t call (f (mem place == current) b) _ others h
    (mem.put place (if mem place = current then some new else none))
  by_cases heq : mem place = current
  · rw [if_pos heq, beq_iff_eq.mpr heq]
    exact hyes others h mem hI heq (hw new (if_pos heq)) b
  · rw [if_neg heq, beq_eq_false_iff_ne.mpr heq]
    exact hno others h mem hI heq b

theorem WorksOn.mark_bind {event : E} {f : Unit → Work A E B Err β}
    (hf : WorksOn S D I t call (f ()) Q F others (S.record t call event h) mem) :
    WorksOn S D I t call (Work.lift (mark event) >>= f) Q F others h mem :=
  fun b => hf b

end Accesses

/-- Whatever its tally, the work records nothing and changes only words that satisfy `P`. -/
def Work.Quiet (P : A → Prop) (w : Work A E B Err α) : Prop := ∀ b, (w b).Quiet P

namespace Work.Quiet

omit [AddCommMonoid M] [DecidableEq A]

theorem pure (a : α) : (pure a : Work A E B Err α).Quiet P := fun _ => trivial

theorem fail (e : Err) : (fail e : Work A E B Err α).Quiet P := fun _ => trivial

theorem tally (step : B → Except Err α × B) : (tally step : Work A E B Err α).Quiet P :=
  fun _ => trivial

theorem of (value : Except Err α) : (of value : Work A E B Err α).Quiet P := fun _ => trivial

theorem bind {w : Work A E B Err α} {f : α → Work A E B Err β} (hw : w.Quiet P)
    (hf : ∀ a, (f a).Quiet P) : (w >>= f).Quiet P := by
  intro b
  refine Prog.Quiet.bind (hw b) fun r => ?_
  obtain ⟨e | a, b'⟩ := r
  · exact trivial
  · exact hf a b'

theorem lift {p : Prog A E α} (hp : p.Quiet P) : (lift p : Work A E B Err α).Quiet P :=
  fun _ => .bind hp fun _ => trivial

end Work.Quiet

theorem Works.quiet (hw : w.Quiet P)
    (hkeep : ∀ others h mem place value, P place → I (m + others) h mem →
      I (m + others) h (Function.update mem place value))
    (hQ : ∀ a, Q a m) (hF : F m) : Works S D I t call w Q F m :=
  fun b => .quiet (hw b) hkeep fun r => by
    split
    · exact hQ _
    · exact hF

end Rules

end Orbit.Atomic
