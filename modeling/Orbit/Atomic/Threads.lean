import Orbit.Atomic.Prog
import Mathlib.Algebra.BigOperators.Group.List.Basic

/-! Interleaved programs.  A system says which program each call runs and what a run's history
keeps; a configuration is the memory, the history and the calls begun so far.  Any call may begin
at any time, and any unfinished call may make its next access.  `Safe` is the proof rule: each call
carries a share of ghost tokens, every access keeps an invariant that speaks about the memory, the
history and all shares together, and `Reach.holds` concludes that every reachable configuration
satisfies the invariant. -/

namespace Orbit.Atomic

open List Function Option

/-- Calls `C` with the programs they run over the words at `A`, and histories `H` of the events
`E` they record.  `begins` is the history once a call has begun, if the history so far lets it
begin; `record` is told which thread made the call. -/
structure Sys (A E C H : Type) where
  body : C → Prog A E Unit
  begins : C → H → Option H
  record : Nat → C → E → H → H

/-- A call and what is left of its program. -/
structure Thread (A E C : Type) where
  call : C
  rest : Prog A E Unit

/-- The memory, the history and every call begun so far, in the order in which they began. -/
structure Config (A E C H : Type) where
  mem : Mem A
  hist : H
  threads : List (Thread A E C)

/-- What the scheduler does next. -/
inductive Action (C : Type) where
  | begin (call : C)
  | step (thread : Nat)

variable {A E C H : Type}

def settle {α : Type} (record : E → H → H) : Prog A E α → H → Prog A E α × H
  | .mark event next, h => settle record next (record event h)
  | p, h => (p, h)

section Run

variable [DecidableEq A]

def Sys.next (S : Sys A E C H) (s : Config A E C H) : Action C → Option (Config A E C H)
  | .begin call =>
    (S.begins call s.hist).map fun h =>
      let p := settle (S.record s.threads.length call) (S.body call) h
      { s with hist := p.2, threads := s.threads ++ [⟨call, p.1⟩] }
  | .step t =>
    match s.threads[t]? with
    | some ⟨call, .access place change next⟩ =>
      let p := settle (S.record t call) (next (s.mem place)) s.hist
      some {
        mem := s.mem.put place (change (s.mem place))
        hist := p.2
        threads := s.threads.set t ⟨call, p.1⟩ }
    | some ⟨call, .acquire lock next⟩ =>
      if s.mem lock = 0 then
        let p := settle (S.record t call) next s.hist
        some {
          mem := update s.mem lock 1
          hist := p.2
          threads := s.threads.set t ⟨call, p.1⟩ }
      else none
    | _ => none

end Run

/-- A condition on the steps of a run: which calls begin, and which changes of a word a thread's
call makes.  `write` is given the thread, its call, the place, and the word before and after. -/
structure Discipline (A C H : Type) where
  begin : C → H → Mem A → Prop
  write : Nat → C → A → Nat → Nat → H → Mem A → Prop

def Discipline.free : Discipline A C H := ⟨fun _ _ _ => True, fun _ _ _ _ _ _ _ => True⟩

def Discipline.Allows (D : Discipline A C H) (s : Config A E C H) : Action C → Prop
  | .begin call => D.begin call s.hist s.mem
  | .step t => ∀ call place change next,
      s.threads[t]? = some ⟨call, .access place change next⟩ →
      ∀ new, change (s.mem place) = some new →
        D.write t call place (s.mem place) new s.hist s.mem

/-- The configurations that runs from `init` reach, all of whose actions meet the condition. -/
inductive Reach [DecidableEq A] (S : Sys A E C H) (D : Discipline A C H)
    (init : Config A E C H) : Config A E C H → Prop
  | start : Reach S D init init
  | step {s s' : Config A E C H} (action : Action C) : Reach S D init s → D.Allows s action →
      S.next s action = some s' → Reach S D init s'

instance (call : C) (h : H) (mem : Mem A) :
    Decidable ((Discipline.free : Discipline A C H).begin call h mem) :=
  inferInstanceAs (Decidable True)

instance (t : Nat) (call : C) (place : A) (old new : Nat) (h : H) (mem : Mem A) :
    Decidable ((Discipline.free : Discipline A C H).write t call place old new h mem) :=
  inferInstanceAs (Decidable True)

section Checked

variable (D : Discipline A C H) [∀ c h mem, Decidable (D.begin c h mem)]
  [∀ t c a old new h mem, Decidable (D.write t c a old new h mem)]

def Discipline.allows (s : Config A E C H) : Action C → Bool
  | .begin call => D.begin call s.hist s.mem
  | .step t =>
    match s.threads[t]? with
    | some ⟨call, .access place change _⟩ =>
      match change (s.mem place) with
      | some new => D.write t call place (s.mem place) new s.hist s.mem
      | none => true
    | _ => true

theorem Discipline.allows_iff (s : Config A E C H) (action : Action C) :
    D.allows s action = true ↔ D.Allows s action := by
  cases action with
  | begin call => exact decide_eq_true_iff
  | step t =>
    simp only [allows, Allows]
    constructor
    · intro h call place change next ht new hnew
      rw [ht] at h
      simpa [hnew] using h
    · intro h
      split
      · rename_i call place change next ht
        split
        · rename_i new hnew
          exact decide_eq_true (h call place change next ht new hnew)
        · rfl
      · rfl

/-- The configuration after a sequence of actions, if each is possible in its turn and meets the
condition. -/
def Discipline.runs [DecidableEq A] (S : Sys A E C H) :
    Config A E C H → List (Action C) → Option (Config A E C H)
  | s, [] => some s
  | s, a :: rest => if D.allows s a then (S.next s a).bind fun s' => Discipline.runs S s' rest else none

theorem Reach.of_runs [DecidableEq A] {S : Sys A E C H} {init s s' : Config A E C H}
    {actions : List (Action C)} (h : Reach S D init s) (hr : D.runs S s actions = some s') :
    Reach S D init s' := by
  induction actions generalizing s with
  | nil => cases hr; exact h
  | cons a rest ih =>
    unfold Discipline.runs at hr
    split at hr
    · rename_i hallows
      obtain ⟨s1, h1, hr⟩ := bind_eq_some_iff.mp hr
      exact ih (h.step a ((D.allows_iff s a).mp hallows) h1) hr
    · cases hr

theorem Reach.exists_of_runs [DecidableEq A] {S : Sys A E C H} {init : Config A E C H}
    {actions : List (Action C)} {P : Config A E C H → Bool}
    (hr : (D.runs S init actions).any P = true) : ∃ s, Reach S D init s ∧ P s = true := by
  rw [Option.any_eq_true] at hr
  obtain ⟨s, hs, hp⟩ := hr
  exact ⟨s, Reach.start.of_runs D hs, hp⟩

end Checked

section Runs

variable [DecidableEq A] {S : Sys A E C H} {D : Discipline A C H} {init s s' : Config A E C H}

theorem Reach.trans (h : Reach S D init s) (h' : Reach S D s s') : Reach S D init s' := by
  induction h' with
  | start => exact h
  | step action _ hallows hnext ih => exact ih.step action hallows hnext

omit [DecidableEq A] in
theorem settle_related {α : Type} {record : E → H → H} {R : H → H → Prop} (hrefl : ∀ h, R h h)
    (htrans : ∀ h1 h2 h3, R h1 h2 → R h2 h3 → R h1 h3) (hrecord : ∀ e h, R h (record e h))
    (p : Prog A E α) (h : H) : R h (settle record p h).2 := by
  induction p generalizing h with
  | ret | access | acquire => exact hrefl h
  | mark event next ih => exact htrans _ _ _ (hrecord event h) (ih _)

theorem Reach.related {R : H → H → Prop} (hrefl : ∀ h, R h h)
    (htrans : ∀ h1 h2 h3, R h1 h2 → R h2 h3 → R h1 h3)
    (hrecord : ∀ t call e h, R h (S.record t call e h))
    (hbegins : ∀ call h h', S.begins call h = some h' → R h h') (hs : Reach S D init s) :
    R init.hist s.hist := by
  have hsettle : ∀ t call (p : Prog A E Unit) h, R h (settle (S.record t call) p h).2 :=
    fun t call p h => settle_related hrefl htrans (hrecord t call) p h
  induction hs with
  | start => exact hrefl _
  | step action _ _ hnext ih =>
    refine htrans _ _ _ ih ?_
    cases action with
    | begin call =>
      obtain ⟨h, hb, rfl⟩ := map_eq_some_iff.mp hnext
      exact htrans _ _ _ (hbegins call _ h hb) (hsettle ..)
    | step t =>
      simp only [Sys.next] at hnext
      split at hnext
      · cases hnext
        exact hsettle ..
      · split at hnext
        · cases hnext
          exact hsettle ..
        · cases hnext
      · cases hnext

end Runs

section Safe

variable {M : Type} [AddCommMonoid M] [DecidableEq A]
variable (S : Sys A E C H) (D : Discipline A C H) (I : M → H → Mem A → Prop)

/-- A call of thread `t` has just made an access, and the other calls have the shares `others`: with
the events it records now it has a share that keeps the invariant, and with that share it may go on
in the same way after each access that meets the condition, up to a result and a share that satisfy
`Q`. -/
def Goes {α : Type} (t : Nat) (call : C) : Prog A E α → (α → M → Prop) → M → H → Mem A → Prop
  | .ret value, Q, others, h, mem => ∃ m, I (m + others) h mem ∧ Q value m
  | .access place change next, Q, others, h, mem => ∃ m, I (m + others) h mem ∧
      ∀ others h mem, I (m + others) h mem →
        (∀ new, change (mem place) = some new → D.write t call place (mem place) new h mem) →
        Goes t call (next (mem place)) Q others h (mem.put place (change (mem place)))
  | .acquire lock next, Q, others, h, mem => ∃ m, I (m + others) h mem ∧
      ∀ others h mem, I (m + others) h mem → mem lock = 0 →
        Goes t call next Q others h (update mem lock 1)
  | .mark event next, Q, others, h, mem => Goes t call next Q others (S.record t call event h) mem

/-- A call of thread `t` may go on with the program and the share `m`, whatever shares the other
calls have. -/
def Safe {α : Type} (t : Nat) (call : C) : Prog A E α → (α → M → Prop) → M → Prop
  | .ret value, Q, m => Q value m
  | .access place change next, Q, m => ∀ others h mem, I (m + others) h mem →
      (∀ new, change (mem place) = some new → D.write t call place (mem place) new h mem) →
      Goes S D I t call (next (mem place)) Q others h (mem.put place (change (mem place)))
  | .acquire lock next, Q, m => ∀ others h mem, I (m + others) h mem → mem lock = 0 →
      Goes S D I t call next Q others h (update mem lock 1)
  | .mark event next, Q, m => ∀ others h mem, I (m + others) h mem →
      Goes S D I t call next Q others (S.record t call event h) mem

variable {S D I} {done : M → Prop} {α β : Type} {t : Nat} {call : C}

variable {p : Prog A E α} {Q : α → M → Prop} {m others : M} {h : H} {mem : Mem A} {place : A}
  {shares : List M} {s : Config A E C H}

theorem Safe.goes (hp : Safe S D I t call p Q m) (hI : I (m + others) h mem) :
    Goes S D I t call p Q others h mem := by
  cases p with
  | ret | access | acquire => exact ⟨m, hI, hp⟩
  | mark event next => exact hp others h mem hI

theorem Goes.mono {R : α → M → Prop} (hp : Goes S D I t call p Q others h mem)
    (hQ : ∀ a m, Q a m → R a m) : Goes S D I t call p R others h mem := by
  induction p generalizing others h mem with
  | ret value =>
    obtain ⟨m, hI, hm⟩ := hp
    exact ⟨m, hI, hQ value m hm⟩
  | access place change next ih =>
    obtain ⟨m, hI, hm⟩ := hp
    exact ⟨m, hI, fun others h mem hI hw => ih _ (hm others h mem hI hw)⟩
  | acquire lock next ih =>
    obtain ⟨m, hI, hm⟩ := hp
    exact ⟨m, hI, fun others h mem hI hfree => ih (hm others h mem hI hfree)⟩
  | mark event next ih => exact ih hp

theorem Safe.mono {R : α → M → Prop} (hp : Safe S D I t call p Q m) (hQ : ∀ a m, Q a m → R a m) :
    Safe S D I t call p R m := by
  cases p with
  | ret value => exact hQ value m hp
  | access => exact fun others h mem hI hw => (hp others h mem hI hw).mono hQ
  | acquire => exact fun others h mem hI hfree => (hp others h mem hI hfree).mono hQ
  | mark => exact fun others h mem hI => (hp others h mem hI).mono hQ

theorem Goes.bind {f : α → Prog A E β} {Q : β → M → Prop}
    (hp : Goes S D I t call p (fun a m => Safe S D I t call (f a) Q m) others h mem) :
    Goes S D I t call (p >>= f) Q others h mem := by
  induction p generalizing others h mem with
  | ret value =>
    obtain ⟨m, hI, hm⟩ := hp
    exact hm.goes hI
  | access place change next ih =>
    obtain ⟨m, hI, hm⟩ := hp
    exact ⟨m, hI, fun others h mem hI hw => ih _ (hm others h mem hI hw)⟩
  | acquire lock next ih =>
    obtain ⟨m, hI, hm⟩ := hp
    exact ⟨m, hI, fun others h mem hI hfree => ih (hm others h mem hI hfree)⟩
  | mark event next ih => exact ih hp

theorem Safe.bind {f : α → Prog A E β} {Q : β → M → Prop}
    (hp : Safe S D I t call p (fun a m' => Safe S D I t call (f a) Q m') m) :
    Safe S D I t call (p >>= f) Q m := by
  cases p with
  | ret value => exact hp
  | access => exact fun others h mem hI hw => (hp others h mem hI hw).bind
  | acquire => exact fun others h mem hI hfree => (hp others h mem hI hfree).bind
  | mark => exact fun others h mem hI => (hp others h mem hI).bind

theorem Goes.frame {extra : M} (hp : Goes S D I t call p Q (extra + others) h mem) :
    Goes S D I t call p (fun a m' => ∃ m, Q a m ∧ m' = m + extra) others h mem := by
  induction p generalizing others h mem with
  | ret value =>
    obtain ⟨m, hI, hm⟩ := hp
    exact ⟨m + extra, by rwa [add_assoc], m, hm, rfl⟩
  | access place change next ih =>
    obtain ⟨m, hI, hm⟩ := hp
    refine ⟨m + extra, by rwa [add_assoc], fun others h mem hI hw => ?_⟩
    rw [add_assoc] at hI
    exact ih _ (hm _ h mem hI hw)
  | acquire lock next ih =>
    obtain ⟨m, hI, hm⟩ := hp
    refine ⟨m + extra, by rwa [add_assoc], fun others h mem hI hfree => ?_⟩
    rw [add_assoc] at hI
    exact ih (hm _ h mem hI hfree)
  | mark event next ih => exact ih hp

theorem Safe.frame (extra : M) (hp : Safe S D I t call p Q m) :
    Safe S D I t call p (fun a m' => ∃ m, Q a m ∧ m' = m + extra) (m + extra) := by
  cases p with
  | ret value => exact ⟨m, hp, rfl⟩
  | access =>
    intro others h mem hI hw
    rw [add_assoc] at hI
    exact (hp _ h mem hI hw).frame
  | acquire =>
    intro others h mem hI hfree
    rw [add_assoc] at hI
    exact (hp _ h mem hI hfree).frame
  | mark =>
    intro others h mem hI
    rw [add_assoc] at hI
    exact (hp _ h mem hI).frame

theorem Safe.load {Q : Nat → M → Prop} (h : ∀ v, Q v m) : Safe S D I t call (load place) Q m :=
  fun _ _ mem hI _ => ⟨m, hI, h (mem place)⟩

theorem Safe.load_bind {f : Nat → Prog A E α} (hf : ∀ others h mem, I (m + others) h mem →
      Goes S D I t call (f (mem place)) Q others h mem) :
    Safe S D I t call (Atomic.load place >>= f) Q m :=
  fun others h mem hI _ => hf others h mem hI

theorem Safe.store_bind {value : Nat} {f : Unit → Prog A E α}
    (hf : ∀ others h mem, I (m + others) h mem → D.write t call place (mem place) value h mem →
      Goes S D I t call (f ()) Q others h (update mem place value)) :
    Safe S D I t call (store place value >>= f) Q m :=
  fun others h mem hI hw => hf others h mem hI (hw value rfl)

theorem Safe.swap_bind {value : Nat} {f : Nat → Prog A E α}
    (hf : ∀ others h mem, I (m + others) h mem → D.write t call place (mem place) value h mem →
      Goes S D I t call (f (mem place)) Q others h (update mem place value)) :
    Safe S D I t call (swap place value >>= f) Q m :=
  fun others h mem hI hw => hf others h mem hI (hw value rfl)

theorem Safe.fetchAdd_bind {bits amount : Nat} {f : Nat → Prog A E α}
    (hf : ∀ others h mem, I (m + others) h mem →
      D.write t call place (mem place) ((mem place + amount) % 2 ^ bits) h mem →
      Goes S D I t call (f (mem place)) Q others h
        (update mem place ((mem place + amount) % 2 ^ bits))) :
    Safe S D I t call (fetchAdd bits place amount >>= f) Q m :=
  fun others h mem hI hw => hf others h mem hI (hw _ rfl)

theorem Safe.compareExchange_bind {current new : Nat} {f : Bool → Prog A E α}
    (hyes : ∀ others h mem, I (m + others) h mem → mem place = current →
      D.write t call place (mem place) new h mem →
      Goes S D I t call (f true) Q others h (update mem place new))
    (hno : ∀ others h mem, I (m + others) h mem → mem place ≠ current →
      Goes S D I t call (f false) Q others h mem) :
    Safe S D I t call (compareExchange place current new >>= f) Q m := by
  intro others h mem hI hw
  show Goes S D I t call (f (mem place == current)) Q others h
    (mem.put place (if mem place = current then some new else none))
  by_cases heq : mem place = current
  · rw [if_pos heq, beq_iff_eq.mpr heq]
    exact hyes others h mem hI heq (hw new (if_pos heq))
  · rw [if_neg heq, beq_eq_false_iff_ne.mpr heq]
    exact hno others h mem hI heq

theorem Goes.mark_bind {event : E} {f : Unit → Prog A E α}
    (hf : Goes S D I t call (f ()) Q others (S.record t call event h) mem) :
    Goes S D I t call (mark event >>= f) Q others h mem :=
  hf

/-- A quiet program keeps the invariant and its share, where the words it changes play no part in
the invariant. -/
theorem Safe.quiet {P : A → Prop} (hp : p.Quiet P)
    (hkeep : ∀ others h mem place value, P place → I (m + others) h mem →
      I (m + others) h (update mem place value)) (hQ : ∀ a, Q a m) :
    Safe S D I t call p Q m := by
  induction p with
  | ret value => exact hQ value
  | access place change next ih =>
    intro others h mem hI _
    refine (ih _ (hp.2 _)).goes ?_
    cases hv : change (mem place) with
    | none => exact hI
    | some value =>
      obtain hplace | hnone := hp.1
      · exact hkeep _ _ _ place value hplace hI
      · rw [hnone] at hv
        cases hv
  | acquire | mark => exact hp.elim

theorem Goes.settle (hp : Goes S D I t call p Q others h mem) :
    ∃ m, I (m + others) (settle (S.record t call) p h).2 mem ∧
      Safe S D I t call (Atomic.settle (S.record t call) p h).1 Q m := by
  induction p generalizing h with
  | ret | access | acquire => exact hp
  | mark event next ih => exact ih hp

/-- Each call has a share with which it may go on, up to a share that satisfies `done`, and the
shares together satisfy the invariant. -/
def Shares (S : Sys A E C H) (D : Discipline A C H) (I : M → H → Mem A → Prop) (done : M → Prop)
    (s : Config A E C H) (shares : List M) : Prop :=
  shares.length = s.threads.length ∧ I shares.sum s.hist s.mem ∧
    ∀ t thread m, s.threads[t]? = some thread → shares[t]? = some m →
      Safe S D I t thread.call thread.rest (fun _ => done) m

theorem sum_eq_add_eraseIdx {t : Nat} (h : shares[t]? = some m) :
    shares.sum = m + (shares.eraseIdx t).sum := by
  induction shares generalizing t with
  | nil => simp at h
  | cons a rest ih =>
    cases t with
    | zero => simp at h; simp [h]
    | succ t =>
      rw [getElem?_cons_succ] at h
      rw [eraseIdx_cons_succ, sum_cons, sum_cons, ih h]
      exact add_left_comm _ _ _

theorem sum_set {t : Nat} (m' : M) (h : shares[t]? = some m) :
    (shares.set t m').sum = m' + (shares.eraseIdx t).sum := by
  have ht : t < shares.length := (List.getElem?_eq_some_iff.mp h).1
  rw [sum_eq_add_eraseIdx (getElem?_set_self ht), eraseIdx_set_eq]

theorem Shares.sum_over (hs : Shares S D I (· = 0) s shares)
    (hover : ∀ thread ∈ s.threads, ∃ value, thread.rest = .ret value) : shares.sum = 0 := by
  have hzero : ∀ m ∈ shares, m = 0 := by
    intro m hm
    obtain ⟨t, ht⟩ := getElem?_of_mem hm
    have hlt : t < s.threads.length := hs.1 ▸ (List.getElem?_eq_some_iff.mp ht).1
    have hsafe := hs.2.2 t _ m (getElem?_eq_getElem hlt) ht
    obtain ⟨value, hrest⟩ := hover _ (getElem_mem hlt)
    rw [hrest] at hsafe
    exact hsafe
  clear hs
  induction shares with
  | nil => rfl
  | cons m rest ih =>
    rw [sum_cons, hzero m mem_cons_self, zero_add]
    exact ih fun m' hm' => hzero m' (mem_cons_of_mem m hm')

theorem Shares.exchange (hs : Shares S D I done s shares) {t : Nat} {thread : Thread A E C}
    (ht : s.threads[t]? = some thread) (hm : shares[t]? = some m) {p : Prog A E Unit}
    (hp : Goes S D I t thread.call p (fun _ => done) (shares.eraseIdx t).sum s.hist mem) :
    ∃ shares', Shares S D I done
      { mem := mem
        hist := (settle (S.record t thread.call) p s.hist).2
        threads := s.threads.set t
          ⟨thread.call, (settle (S.record t thread.call) p s.hist).1⟩ } shares' := by
  obtain ⟨m2, hI2, hp2⟩ := hp.settle
  have hlt : t < shares.length := (List.getElem?_eq_some_iff.mp hm).1
  refine ⟨shares.set t m2, by simp [hs.1], ?_, ?_⟩
  · rw [sum_set m2 hm]
    exact hI2
  · intro t' thread' m' ht' hm'
    by_cases heq : t' = t
    · subst heq
      rw [getElem?_set_self (hs.1 ▸ hlt)] at ht'
      rw [getElem?_set_self hlt] at hm'
      cases ht'
      cases hm'
      exact hp2
    · rw [getElem?_set_ne (Ne.symm heq)] at ht' hm'
      exact hs.2.2 t' thread' m' ht' hm'

theorem Shares.append (hs : Shares S D I done s shares) {call : C} {mc : M}
    (hI : I (mc + shares.sum) h s.mem)
    (hp : Safe S D I s.threads.length call (S.body call) (fun _ => done) mc) :
    ∃ shares', Shares S D I done
      { s with
        hist := (settle (S.record s.threads.length call) (S.body call) h).2
        threads := s.threads ++
          [⟨call, (settle (S.record s.threads.length call) (S.body call) h).1⟩] } shares' := by
  obtain ⟨m2, hI2, hp2⟩ := (hp.goes hI).settle
  refine ⟨shares ++ [m2], by simp [hs.1], ?_, ?_⟩
  · rw [sum_append, sum_singleton, add_comm]
    exact hI2
  · intro t thread m ht hm
    rcases Nat.lt_trichotomy t s.threads.length with hlt | heq | hgt
    · rw [getElem?_append_left hlt] at ht
      rw [getElem?_append_left (hs.1 ▸ hlt)] at hm
      exact hs.2.2 t thread m ht hm
    · subst heq
      rw [getElem?_append_right (Nat.le_refl _), Nat.sub_self] at ht
      rw [← hs.1, getElem?_append_right (Nat.le_refl _), Nat.sub_self] at hm
      cases ht
      cases hm
      exact hp2
    · rw [getElem?_eq_none (by simp; omega)] at ht
      cases ht

theorem Shares.next {s' : Config A E C H} (hs : Shares S D I done s shares)
    (hbegin : ∀ call h', D.begin call s.hist s.mem → S.begins call s.hist = some h' →
      ∃ mc, I (mc + shares.sum) h' s.mem ∧
        Safe S D I s.threads.length call (S.body call) (fun _ => done) mc) {action : Action C}
    (hallows : D.Allows s action) (hnext : S.next s action = some s') :
    ∃ shares', Shares S D I done s' shares' := by
  cases action with
  | begin call =>
    obtain ⟨h, hb, rfl⟩ := map_eq_some_iff.mp hnext
    obtain ⟨mc, hI, hp⟩ := hbegin call h hallows hb
    exact hs.append hI hp
  | step t =>
    simp only [Sys.next] at hnext
    split at hnext
    · rename_i call place change next ht
      cases hnext
      have hlt := (List.getElem?_eq_some_iff.mp ht).1
      obtain ⟨m, hm⟩ : ∃ m, shares[t]? = some m :=
        ⟨_, getElem?_eq_getElem (hs.1.symm ▸ hlt)⟩
      exact hs.exchange ht hm (hs.2.2 t _ m ht hm (shares.eraseIdx t).sum s.hist s.mem
        (sum_eq_add_eraseIdx hm ▸ hs.2.1) (hallows call place change next ht))
    · rename_i call lock next ht
      split at hnext
      · rename_i hfree
        cases hnext
        have hlt := (List.getElem?_eq_some_iff.mp ht).1
        obtain ⟨m, hm⟩ : ∃ m, shares[t]? = some m :=
          ⟨_, getElem?_eq_getElem (hs.1.symm ▸ hlt)⟩
        exact hs.exchange ht hm (hs.2.2 t _ m ht hm (shares.eraseIdx t).sum s.hist s.mem
          (sum_eq_add_eraseIdx hm ▸ hs.2.1) hfree)
      · cases hnext
    · cases hnext

theorem Reach.holds (hinit : I 0 h mem)
    (hbegin : ∀ t call h h' mem m, I m h mem → D.begin call h mem → S.begins call h = some h' →
      ∃ mc, I (mc + m) h' mem ∧ Safe S D I t call (S.body call) (fun _ => done) mc)
    (hs : Reach S D ⟨mem, h, []⟩ s) : ∃ shares, Shares S D I done s shares := by
  induction hs with
  | start => exact ⟨[], rfl, hinit, by simp⟩
  | @step s _ action _ hallows hnext ih =>
    obtain ⟨shares, hshares⟩ := ih
    exact hshares.next (fun call h' => hbegin s.threads.length call s.hist h' s.mem _ hshares.2.1)
      hallows hnext

end Safe

section Counted

variable [DecidableEq A] {S : Sys A E C H} {D D' : Discipline A C H} {count : H → Nat}

omit [DecidableEq A] in
theorem settle_counted {α : Type} {t : Nat} {call : C}
    (hrecord : ∀ t call e h, count (S.record t call e h) = count h) (p : Prog A E α) (h : H) :
    count (settle (S.record t call) p h).2 = count h := by
  induction p generalizing h with
  | ret | access | acquire => rfl
  | mark event next ih => exact (ih _).trans (hrecord t call event h)

theorem Reach.counted {init s : Config A E C H}
    (hbegins : ∀ call h h', S.begins call h = some h' → count h' = count h + 1)
    (hrecord : ∀ t call e h, count (S.record t call e h) = count h)
    (hinit : count init.hist = init.threads.length) (hs : Reach S D init s) :
    count s.hist = s.threads.length := by
  induction hs with
  | start => exact hinit
  | @step s _ action _ _ hnext ih =>
    cases action with
    | begin call =>
      obtain ⟨h, hb, rfl⟩ := map_eq_some_iff.mp hnext
      simp only [settle_counted hrecord, hbegins call _ h hb, ih, length_append,
        length_singleton]
    | step t =>
      simp only [Sys.next] at hnext
      split at hnext
      · cases hnext
        simp only [settle_counted hrecord, ih, length_set]
      · split at hnext
        · cases hnext
          simp only [settle_counted hrecord, ih, length_set]
        · cases hnext
      · cases hnext

theorem Reach.holds_counted {M : Type} [AddCommMonoid M] {I : M → H → Mem A → Prop}
    {done : M → Prop} {mem : Mem A} {h : H} (hinit : I 0 h mem) (hzero : count h = 0)
    (hbegins : ∀ call h h', S.begins call h = some h' → count h' = count h + 1)
    (hrecord : ∀ t call e h, count (S.record t call e h) = count h)
    (hbegin : ∀ call h h' mem m, I m h mem → D.begin call h mem → S.begins call h = some h' →
      ∃ mc, I (mc + m) h' mem ∧ Safe S D I (count h) call (S.body call) (fun _ => done) mc)
    {s : Config A E C H} (hs : Reach S D ⟨mem, h, []⟩ s) : ∃ shares, Shares S D I done s shares := by
  induction hs with
  | start => exact ⟨[], rfl, hinit, by simp⟩
  | @step s _ action hreach hallows hnext ih =>
    obtain ⟨shares, hshares⟩ := ih
    have hcount := hreach.counted hbegins hrecord hzero
    refine hshares.next (fun call h' hb hcall => ?_) hallows hnext
    rw [← hcount]
    exact hbegin call s.hist h' s.mem _ hshares.2.1 hb hcall

theorem Reach.mono {init s : Config A E C H}
    (hbegin : ∀ call h mem, D.begin call h mem → D'.begin call h mem)
    (hwrite : ∀ t call place old new h mem, D.write t call place old new h mem →
      D'.write t call place old new h mem)
    (hs : Reach S D init s) : Reach S D' init s := by
  induction hs with
  | start => exact .start
  | step action _ hallows hnext ih =>
    refine ih.step action ?_ hnext
    cases action with
    | begin call => exact hbegin call _ _ hallows
    | step t =>
      exact fun call place change next ht new hnew =>
        hwrite t call place _ new _ _ (hallows call place change next ht new hnew)

end Counted

end Orbit.Atomic
