import Orbit.Client.Physical
import Orbit.Client.Promptness

/-! Shutdown is final and obeys each request's policy. -/

open Orbit.Atomic
open List hiding drop

namespace ClientPool

def Stage.unreserved : Stage → Bool
  | top .acquire _ | listen .acquire _ | look .acquire _ _ | parked .acquire _ | createLook
  | idleLook _ => true
  | _ => false

/-- The call ends with this outcome, or has. -/
def Stage.endsWith (outcome : Outcome) : Stage → Prop
  | leaving _ outcome' | notify (done outcome') | done outcome' => outcome' = outcome
  | _ => False

/-- The acquisition is refused, unless its caller's token, its deadline or the drop of its future
ends it first. -/
def Refused (t : Task) (now : Nat) : Prop :=
  t.stage.endsWith .closed ∨ (t.cancelled = true ∧ t.stage.endsWith .cancelled) ∨
    (due t.deadline now = true ∧ t.stage.endsWith .timeout) ∨ t.stage.endsWith .dropped

section

variable {c : Config} {p : Pool} {t : Task}

theorem act_unreserved (me : Nat) (choice : Choice) (hstopped : Stopped p.state)
    (h : t.stage.unreserved = true) :
    (act c me t choice p).1.unreserved = true ∨
      Refused { t with stage := (act c me t choice p).1 } p.now := by
  unfold act
  cases hstage : t.stage <;> rw [hstage] at h <;> dsimp only
  case top waiting entered =>
    cases waiting
    case untilOpen => cases h
    cases hcancelled : t.cancelled
    · exact Or.inl rfl
    · exact Or.inr (Or.inr (Or.inl ⟨rfl, rfl⟩))
  case listen waiting entered =>
    cases waiting
    · exact Or.inl rfl
    · cases h
  case look waiting entered seen =>
    cases waiting
    · dsimp only [lookTurn]
      rw [Stopped.acquireTurn (hstopped.pruned (c := c))]
      exact Or.inr (Or.inl rfl)
    · cases h
  case parked waiting seen =>
    cases waiting
    case untilOpen => cases h
    unfold waitEnds
    cases choice <;> dsimp only
    case go => by_cases hwoken : seen < p.changed <;> simp only [hwoken, if_true, if_false] <;>
        exact Or.inl rfl
    case interrupt =>
      cases hcancelled : t.cancelled
      · exact Or.inl rfl
      · exact Or.inr (Or.inr (Or.inl ⟨rfl, rfl⟩))
    case timeout =>
      cases hdue : due t.deadline p.now
      · exact Or.inl rfl
      · exact Or.inr (Or.inr (Or.inr (Or.inl ⟨hdue, rfl⟩)))
    case drop => exact Or.inr (Or.inr (Or.inr (Or.inr rfl)))
    all_goals exact Or.inl rfl
  case createLook =>
    rw [Stopped.createTurn hstopped.pruned]
    exact Or.inr (Or.inl rfl)
  case idleLook predicate =>
    rw [Stopped.idleTurn hstopped.pruned]
    exact Or.inr (Or.inl rfl)
  all_goals cases h

theorem act_endsWith {outcome : Outcome} (me : Nat) (choice : Choice)
    (h : t.stage.endsWith outcome) : (act c me t choice p).1.endsWith outcome := by
  unfold act
  cases hstage : t.stage <;> rw [hstage] at h <;> dsimp only
  case leaving entered outcome' => cases entered <;> exact h
  case notify next =>
    cases next
    case done outcome' => exact h
    all_goals cases h
  case done outcome' => exact h
  all_goals cases h

end

/-- What holds in `w'`, which comes after `w`, in which admission has stopped. -/
structure Ends (c : Config) (w w' : World) : Prop where
  halts : Halts c w'
  ended : w'.pool.state.status.ended = true
  live_le : w'.pool.state.live ≤ w.pool.state.live
  refused : ∀ (i : Nat) (t : Task), w.tasks[i]? = some t → t.stage.unreserved = true →
    ∃ t', w'.tasks[i]? = some t' ∧ (t'.stage.unreserved = true ∨ Refused t' w'.pool.now)

section

variable {c : Config} {w w' : World}

theorem Refused.mono {t : Task} {now now' : Nat} (h : Refused t now) (hle : now ≤ now') :
    Refused t now' := by
  rcases h with h | h | ⟨hdue, h⟩ | h
  · exact Or.inl h
  · exact Or.inr (Or.inl h)
  · refine Or.inr (Or.inr (Or.inl ⟨?_, h⟩))
    unfold due at hdue ⊢
    cases hdeadline : t.deadline with
    | none =>
      rw [hdeadline] at hdue
      cases hdue
    | some deadline =>
      rw [hdeadline] at hdue
      dsimp only at hdue ⊢
      rw [decide_eq_true_eq] at hdue ⊢
      omega
  · exact Or.inr (Or.inr (Or.inr h))

theorem Refused.step {t : Task} {p : Pool} {now : Nat} (h : Refused t now) (me : Nat)
    (choice : Choice) : Refused { t with stage := (act c me t choice p).1 } now := by
  rcases h with h | ⟨hcancelled, h⟩ | ⟨hdue, h⟩ | h
  · exact Or.inl (act_endsWith me choice h)
  · exact Or.inr (Or.inl ⟨hcancelled, act_endsWith me choice h⟩)
  · exact Or.inr (Or.inr (Or.inl ⟨hdue, act_endsWith me choice h⟩))
  · exact Or.inr (Or.inr (Or.inr (act_endsWith me choice h)))

theorem act_now (me : Nat) (t : Task) (choice : Choice) (p : Pool) :
    (act c me t choice p).2.now = p.now := by
  cases hsignals : t.stage.signals with
  | false => exact (act_plain (c := c) (p := p) me choice hsignals).now
  | true =>
    unfold act
    cases hstage : t.stage with
    | registering entry created =>
      rcases register_cases c me t.policy p with ⟨-, hregister⟩ | ⟨-, -, hregister⟩ |
          ⟨-, -, hregister⟩ <;> dsimp only <;> rw [hregister]
      rfl
    | drain => rfl
    | drainLook seen =>
      dsimp only
      cases drainTurn c p.now p.state with
      | mk result s => cases result <;> rfl
    | unregister registration entry => cases registration <;> rfl
    | cancelTokens tokens next => cases tokens <;> rfl
    | _ => simp [hstage, Stage.signals] at hsignals

theorem Ends.stepTask {i : Nat} {t : Task} (h : Ends c w w') (hi : w'.tasks[i]? = some t)
    (choice : Choice) : Ends c w (stepTask c w' i t choice) := by
  have hstopped := h.halts.stopped h.ended
  constructor
  · exact h.halts.stepTask hi choice
  · exact (act_stopped i choice hstopped).1
  · exact Nat.le_trans (act_live_le i choice hstopped) h.live_le
  · intro k u hk hunreserved
    obtain ⟨u', hu', hcases⟩ := h.refused k u hk hunreserved
    have hnow : (ClientPool.stepTask c w' i t choice).pool.now = w'.pool.now :=
      act_now i t choice w'.pool
    rw [stepTask_get hi, hnow]
    by_cases hik : i = k
    · subst hik
      rw [hi] at hu'
      cases hu'
      refine ⟨_, if_pos rfl, ?_⟩
      rcases hcases with hstill | hrefused
      · exact act_unreserved i choice hstopped hstill
      · exact Or.inr (hrefused.step i choice)
    · exact ⟨u', by rw [if_neg hik, hu'], hcases⟩

theorem Ends.exec (h : Ends c w w') (op : Op) : Ends c w (exec c w' op) := by
  apply exec_cases c h
  · intro call
    refine ⟨h.halts.exec (.begin call), h.ended, h.live_le, ?_⟩
    intro k u hk hunreserved
    obtain ⟨u', hu', hcases⟩ := h.refused k u hk hunreserved
    exact ⟨u', getElem?_begin hu' _, hcases⟩
  · exact fun i t choice hi => h.stepTask hi choice
  · intro i t hi
    have hhalts := h.halts.exec (.cancel i)
    rw [ClientPool.exec, hi] at hhalts
    refine ⟨hhalts, h.ended, h.live_le, ?_⟩
    intro k u hk hunreserved
    obtain ⟨u', hu', hcases⟩ := h.refused k u hk hunreserved
    dsimp only
    by_cases hik : i = k
    · subst hik
      rw [hi] at hu'
      cases hu'
      obtain ⟨hlt, -⟩ := List.getElem?_eq_some_iff.mp hi
      refine ⟨t.cancel, getElem?_set_self hlt, ?_⟩
      rcases hcases with hstill | hclosed | ⟨hcancelled, hends⟩ | hdue | hdropped
      · exact Or.inl hstill
      · exact Or.inr (Or.inl hclosed)
      · refine Or.inr (Or.inr (Or.inl ⟨?_, hends⟩))
        rw [Task.cancel, hcancelled, Bool.true_or]
      · exact Or.inr (Or.inr (Or.inr (Or.inl hdue)))
      · exact Or.inr (Or.inr (Or.inr (Or.inr hdropped)))
    · exact ⟨u', by rw [getElem?_set_ne hik, hu'], hcases⟩
  · intro duration
    refine ⟨h.halts.exec (.tick duration), h.ended, h.live_le, ?_⟩
    intro k u hk hunreserved
    obtain ⟨u', hu', hcases⟩ := h.refused k u hk hunreserved
    refine ⟨u', hu', hcases.imp_right fun hrefused => hrefused.mono (Nat.le_add_right _ _)⟩

theorem run_append (c : Config) (ops ops' : List Op) :
    run c (ops ++ ops') = ops'.foldl (ClientPool.exec c) (run c ops) :=
  foldl_append

end

section

variable {c : Config} {w : World}

theorem Exact.empty (h : Exact c w) (hlive : w.pool.state.live = 0) :
    w.pool.state.idle = [] ∧ total (fun t => t.stage.creates) w.tasks = 0 ∧
      total (fun t => t.stage.units) w.tasks = 0 := by
  have hledger := h.fits.live
  exact ⟨eq_nil_of_length_eq_zero (by omega), by omega, by omega⟩

end

section

variable (c : Config)

def actAll (me : Nat) (choices : List Choice) (t : Task) (p : Pool) : Task × Pool :=
  choices.foldl (fun x choice =>
    ({ x.1 with stage := (act c me x.1 choice x.2).1 }, (act c me x.1 choice x.2).2)) (t, p)

end

end ClientPool
