import Orbit.Client.Shutdown

/-! A call that waits for a change is woken, has nothing to wait for yet, or is about to be
notified. -/

open Orbit.Atomic

namespace ClientPool

def PoolState.isPaused : PoolState → Bool
  | paused _ => true
  | opened | draining | closed => false

/-- The pool has nothing for an acquirer: neither an admission nor a refusal. -/
def Quiet (c : Config) (s : State) : Prop :=
  s.status.isPaused = true ∨ (s.status = .opened ∧
    (c.options.maxConcurrency ≤ s.inFlight ∨ (s.idle = [] ∧ c.options.maxLive ≤ s.live)))

/-- The call has changed the pool and calls `notify_waiters` before it waits or ends. -/
def Stage.owes : Stage → Bool
  | notify _ => true
  | drop _ next | cancelTokens _ next | closeAdmission next => next.owes
  | _ => false

section

variable {c : Config} {s : State} {entered : Bool}

theorem Quiet.prune (h : Quiet c s) (now : Nat) : Quiet c (pruneExpired c now s).2 := by
  rcases h with h | ⟨hopened, hflight | ⟨hidle, hlive⟩⟩
  · exact Or.inl h
  · exact Or.inr ⟨hopened, Or.inl hflight⟩
  · refine Or.inr ⟨hopened, Or.inr ?_⟩
    dsimp only [pruneExpired, State.subLive]
    rw [hidle]
    exact ⟨rfl, hlive⟩

theorem enter_quiet (h : Quiet c s) : Quiet c (enter c entered s).2 := by
  unfold enter
  split
  · exact h
  split
  · exact h
  · exact h

theorem acquireTurn_quiet (h : Quiet c s) : Quiet c (acquireTurn c entered s).2 := by
  unfold acquireTurn
  rcases h with h | ⟨hopened, h⟩
  · cases hstatus : s.status with
    | paused reason => exact enter_quiet (Or.inl h)
    | _ =>
      rw [hstatus] at h
      cases h
  · rw [hopened]
    have hquiet : Quiet c (enter c entered s).2 := enter_quiet (Or.inr ⟨hopened, h⟩)
    rcases h with hflight | ⟨hidle, hlive⟩
    · rw [if_pos hflight]
      exact hquiet
    · dsimp only
      split
      · exact hquiet
      · rw [hidle]
        dsimp only
        rw [if_neg (Nat.not_lt_of_le hlive)]
        exact hquiet

theorem createTurn_quiet (h : Quiet c s) : Quiet c (createTurn c s).2 := by
  unfold createTurn
  split
  · exact h
  split
  · exact h
  split
  · exact h
  case isFalse hstatus hlive hflight =>
    rcases h with h | ⟨-, h | h⟩
    · rw [not_not.mp hstatus] at h
      cases h
    · exact absurd h hflight
    · exact absurd h.2 hlive

theorem idleTurn_quiet (h : Quiet c s) (predicate : Nat → Bool) :
    Quiet c (idleTurn c predicate s).2 := by
  unfold idleTurn
  split
  · exact h
  split
  · exact h
  case isFalse hstatus hflight =>
    rcases h with h | ⟨-, h | h⟩
    · rw [not_not.mp hstatus] at h
      cases h
    · exact absurd h hflight
    · rw [h.1]
      exact Or.inr ⟨not_not.mp hstatus, Or.inr h⟩

theorem reserveWarmCreate_quiet (h : Quiet c s) : Quiet c (reserveWarmCreate c s).2 := by
  unfold reserveWarmCreate
  split
  · exact h
  case isFalse hroom =>
    obtain ⟨hstatus, hroom⟩ := not_or.mp hroom
    rcases h with h | ⟨hopened, h | h⟩
    · rw [not_not.mp hstatus] at h
      cases h
    · exact Or.inr ⟨hopened, Or.inl h⟩
    · exact absurd h.2 (not_or.mp hroom).2

theorem openTurn_quiet (h : Quiet c s) : Quiet c (openTurn c entered s).2 := by
  unfold openTurn
  split
  · cases entered <;> exact h
  · exact enter_quiet h
  · exact h
  · exact h

end

variable {c : Config} {p : Pool} {t : Task}

theorem register_quiet (h : Quiet c p.state) (me : Nat) (policy : ActiveRequestPolicy) :
    Quiet c (register c me policy p).2.state := by
  unfold register registerActive
  dsimp only
  split
  · exact h
  split
  · split <;> exact h
  · split <;> exact h

theorem takeDue_quiet {s : State} (h : Quiet c s) (now : Nat) :
    Quiet c (takeDueCancellations c now s).2 := by
  unfold takeDueCancellations
  split <;> exact h

theorem act_quiet (me : Nat) (choice : Choice) (h : Quiet c p.state) :
    Quiet c (act c me t choice p).2.state ∨ (act c me t choice p).1.owes = true := by
  unfold act
  cases t.stage <;> dsimp only
  case look waiting entered seen =>
    cases waiting
    · exact Or.inl (acquireTurn_quiet (h.prune p.now))
    · exact Or.inl (openTurn_quiet h)
  case leaving entered outcome =>
    cases entered
    · exact Or.inl h
    · exact Or.inr rfl
  case createLook => exact Or.inl (createTurn_quiet (h.prune p.now))
  case idleLook predicate => exact Or.inl (idleTurn_quiet (h.prune p.now) predicate)
  case discardLook predicate =>
    cases discardIdleTurn predicate p.state with
    | mk found s =>
      cases found
      · exact Or.inl h
      · exact Or.inr rfl
  case reserved admitted => cases choice <;> exact Or.inl h
  case creating admitted =>
    cases operationEnds t p choice with
    | none => exact Or.inl h
    | some ending => cases ending <;> exact Or.inl h
  case registering entry created => exact Or.inl (register_quiet h me t.policy)
  case finishing entry registration => exact Or.inr rfl
  case returning entry now => exact Or.inr rfl
  case runPrune => exact Or.inl (h.prune p.now)
  case runReserve => exact Or.inl (reserveWarmCreate_quiet h)
  case warmFinish entry => exact Or.inr rfl
  case close => exact Or.inr rfl
  case drain => exact Or.inr rfl
  case drainLook seen =>
    rcases drainTurn_cases c p.now p.state with ⟨-, hturn⟩ | ⟨-, hturn⟩
    · rw [hturn]
      exact Or.inr rfl
    · rw [hturn]
      exact Or.inl (takeDue_quiet h p.now)
  case pause reason => exact Or.inr rfl
  case resume =>
    unfold resumeTurn
    cases p.state.status with
    | paused reason => exact Or.inr rfl
    | _ => exact Or.inl h
  case unregister registration entry =>
    cases registration
    · exact Or.inl h
    · exact Or.inr rfl
  case retire next => exact Or.inr rfl
  case failedCreate admitted next => exact Or.inr rfl
  case drop clients next => cases clients <;> exact Or.inl h
  case cancelTokens tokens next => cases tokens <;> exact Or.inl h
  all_goals exact Or.inl h

theorem act_paused (me : Nat) (choice : Choice) (h : p.state.status.isPaused = true) :
    (act c me t choice p).2.state.status.isPaused = true ∨
      (act c me t choice p).1.owes = true := by
  cases hgoverns : t.stage.governs with
  | false =>
    rw [act_status me choice hgoverns]
    exact Or.inl h
  | true =>
    unfold act
    cases hstage : t.stage <;> rw [hstage] at hgoverns <;> dsimp only
    case drainLook seen =>
      rcases drainTurn_cases c p.now p.state with ⟨-, hturn⟩ | ⟨-, hturn⟩
      · rw [hturn]
        exact Or.inr rfl
      · rw [hturn]
        exact Or.inl ((takeDue_keeps c p.now p.state).1.symm ▸ h)
    case resume =>
      unfold resumeTurn
      cases hstatus : p.state.status <;> rw [hstatus] at h
      case paused reason => exact Or.inr rfl
      all_goals cases h
    case close | drain | pause => exact Or.inr rfl
    all_goals cases hgoverns

section

variable {c : Config} {s : State} {entered : Bool}

theorem pruned_live {p : Pool} (h : p.state.idle = []) :
    (p.pruned c).state.live = p.state.live := by
  dsimp only [Pool.pruned, pruneExpired, State.subLive]
  rw [h]
  rfl

theorem enter_live : (enter c entered s).2.live = s.live := by
  unfold enter
  split
  · rfl
  split <;> rfl

theorem leave_live : (leave entered s).live = s.live := by
  cases entered <;> rfl

theorem acquireTurn_live_le (c : Config) (entered : Bool) (s : State) :
    s.live ≤ (acquireTurn c entered s).2.live := by
  unfold acquireTurn
  split
  · exact Nat.le_refl _
  · exact Nat.le_refl _
  · exact Nat.le_of_eq enter_live.symm
  split
  · exact Nat.le_of_eq enter_live.symm
  split
  · simp only [leave_live, Nat.le_refl]
  split
  · simp only [leave_live, reserveCreate]
    omega
  · exact Nat.le_of_eq enter_live.symm

theorem openTurn_live : (openTurn c entered s).2.live = s.live := by
  unfold openTurn
  split
  · exact leave_live
  · exact enter_live
  · rfl
  · rfl

theorem createTurn_live_le (c : Config) (s : State) : s.live ≤ (createTurn c s).2.live := by
  unfold createTurn
  split
  · exact Nat.le_refl _
  split
  · exact Nat.le_refl _
  split
  · exact Nat.le_refl _
  · exact Nat.le_succ _

theorem idleTurn_live {predicate : Nat → Bool} : (idleTurn c predicate s).2.live = s.live := by
  unfold idleTurn
  split
  · rfl
  split
  · rfl
  split <;> rfl

end

theorem act_live (me : Nat) (choice : Choice) (hidle : p.state.idle = []) :
    p.state.live ≤ (act c me t choice p).2.state.live ∨
      (act c me t choice p).1.owes = true := by
  have hpruned := pruned_live (c := c) hidle
  unfold act
  cases t.stage <;> dsimp only
  case look waiting entered seen =>
    cases waiting
    · exact Or.inl (hpruned.symm ▸ acquireTurn_live_le c entered (p.pruned c).state)
    · exact Or.inl (Nat.le_of_eq openTurn_live.symm)
  case leaving entered outcome => cases entered <;> exact Or.inl (Nat.le_refl _)
  case createLook => exact Or.inl (hpruned.symm ▸ createTurn_live_le c (p.pruned c).state)
  case idleLook predicate =>
    exact Or.inl (hpruned.symm ▸ Nat.le_of_eq idleTurn_live.symm)
  case discardLook predicate =>
    rw [discardIdleTurn, hidle]
    exact Or.inl (Nat.le_refl _)
  case reserved admitted => cases choice <;> exact Or.inl (Nat.le_refl _)
  case creating admitted =>
    cases operationEnds t p choice with
    | none => exact Or.inl (Nat.le_refl _)
    | some ending => cases ending <;> exact Or.inl (Nat.le_refl _)
  case registering entry created =>
    exact Or.inl (Nat.le_of_eq (register_live c me t.policy p).symm)
  case runPrune => exact Or.inl (Nat.le_of_eq hpruned.symm)
  case runReserve =>
    unfold reserveWarmCreate
    split
    · exact Or.inl (Nat.le_refl _)
    · exact Or.inl (Nat.le_succ _)
  case finishing | returning | warmFinish | close | drain | pause | retire | failedCreate =>
    exact Or.inr rfl
  case drainLook seen =>
    rcases drainTurn_cases c p.now p.state with ⟨-, hturn⟩ | ⟨-, hturn⟩
    · rw [hturn]
      exact Or.inr rfl
    · rw [hturn]
      exact Or.inl (Nat.le_of_eq (takeDue_live c p.now p.state).symm)
  case resume =>
    unfold resumeTurn
    cases p.state.status <;> exact Or.inl (Nat.le_refl _)
  case unregister registration entry => cases registration <;> exact Or.inl (Nat.le_refl _)
  case drop clients next => cases clients <;> exact Or.inl (Nat.le_refl _)
  case cancelTokens tokens next => cases tokens <;> exact Or.inl (Nat.le_refl _)
  all_goals exact Or.inl (Nat.le_refl _)

def Stage.saw : Stage → Nat
  | look _ _ seen | parked _ seen | runDeadline seen | runParked seen _ | drainLook seen
  | drainParked seen _ | maintainLook seen | maintainParked seen => seen
  | retire next | failedCreate _ next | notify next | drop _ next
  | cancelTokens _ next | closeAdmission next => next.saw
  | _ => 0

theorem lookTurn_changed {waiting : Waiting} {entered : Bool} :
    (lookTurn c waiting entered p).2.changed = p.changed := by
  cases waiting <;> rfl

theorem register_changed {me : Nat} {policy : ActiveRequestPolicy} :
    (register c me policy p).2.changed = p.changed := by
  unfold register
  split
  · rfl
  · dsimp only
    split <;> rfl

theorem act_saw (me : Nat) (choice : Choice) (h : t.stage.saw ≤ p.changed) :
    (act c me t choice p).1.saw ≤ (act c me t choice p).2.changed ∧
      p.changed ≤ (act c me t choice p).2.changed := by
  have hkept {n : Nat} (hn : n ≤ p.changed) : n ≤ p.changed ∧ p.changed ≤ p.changed :=
    ⟨hn, Nat.le_refl _⟩
  unfold act
  cases hstage : t.stage <;> rw [hstage] at h <;> dsimp only
  case top waiting entered => cases t.cancelled <;> exact hkept (Nat.zero_le _)
  case listen | runListen | drainListen | maintainListen => exact hkept (Nat.le_refl _)
  case look waiting entered seen =>
    rw [lookTurn_changed]
    cases (lookTurn c waiting entered p).1 <;> first | exact hkept h | exact hkept (Nat.zero_le _)
  case parked waiting seen =>
    cases waitEnds t.cancelled seen t.deadline p choice with
    | none => exact hkept h
    | some ending => cases ending <;> exact hkept (Nat.zero_le _)
  case leaving entered outcome => cases entered <;> exact hkept (Nat.zero_le _)
  case createLook => cases (createTurn c (p.pruned c).state).1 <;> exact hkept (Nat.zero_le _)
  case idleLook predicate =>
    cases (idleTurn c predicate (p.pruned c).state).1 <;> exact hkept (Nat.zero_le _)
  case discardLook predicate =>
    cases discardIdleTurn predicate p.state with
    | mk found s => cases found <;> exact hkept (Nat.zero_le _)
  case reserved admitted =>
    cases choice <;> dsimp only
    case interrupt | shut =>
      cases operationEnds t p _ with
      | none => exact hkept (Nat.zero_le _)
      | some ending => cases admitted <;> cases ending <;> exact hkept (Nat.zero_le _)
    all_goals exact hkept (Nat.zero_le _)
  case creating admitted =>
    cases operationEnds t p choice with
    | none => exact hkept (Nat.zero_le _)
    | some ending => cases admitted <;> cases ending <;> exact hkept (Nat.zero_le _)
  case recycling entry =>
    cases operationEnds t p choice with
    | none => exact hkept (Nat.zero_le _)
    | some ending => cases ending <;> exact hkept (Nat.zero_le _)
  case registering entry created =>
    rw [register_changed]
    cases (register c me t.policy p).1 <;> cases created <;> exact hkept (Nat.zero_le _)
  case leased entry registration => cases choice <;> exact hkept (Nat.zero_le _)
  case returning entry now =>
    cases (returnEntry c now entry p.state).1 <;> exact hkept (Nat.zero_le _)
  case runTop => cases t.cancelled <;> exact hkept (Nat.zero_le _)
  case runStats => cases p.state.status.ended <;> exact hkept (Nat.zero_le _)
  case runReserve => cases (reserveWarmCreate c p.state).1 <;> exact hkept (Nat.zero_le _)
  case warmFinish entry =>
    cases (finishWarmCreate c entry p.state).1 <;> exact hkept (Nat.zero_le _)
  case runParked seen deadline =>
    cases waitEnds t.cancelled seen deadline p choice with
    | none => exact hkept h
    | some ending => cases ending <;> exact hkept (Nat.zero_le _)
  case drainLook seen =>
    cases drainTurn c p.now p.state with
    | mk result s =>
      cases result
      · exact hkept (Nat.zero_le _)
      · exact hkept h
  case drainParked seen deadline =>
    cases waitEnds false seen deadline p choice with
    | none => exact hkept h
    | some ending => cases ending <;> exact hkept (Nat.zero_le _)
  case resume => cases (resumeTurn p.state).1 <;> exact hkept (Nat.zero_le _)
  case cancelActive => cases p.state.status.ended <;> exact hkept (Nat.zero_le _)
  case maintainLook seen =>
    cases p.state.status <;> first | exact hkept h | exact hkept (Nat.zero_le _)
  case maintainParked seen =>
    cases waitEnds t.cancelled seen none p choice with
    | none => exact hkept h
    | some ending => cases ending <;> first | exact hkept h | exact hkept (Nat.zero_le _)
  case unregister registration entry =>
    cases registration <;> cases entry <;> exact hkept (Nat.zero_le _)
  case notify next => exact ⟨Nat.le_succ_of_le h, Nat.le_succ _⟩
  case drop clients next => cases clients <;> exact hkept h
  case cancelTokens tokens next => cases tokens <;> exact hkept h
  case runDeadline | retire | failedCreate | closeAdmission => exact hkept h
  all_goals exact hkept (Nat.zero_le _)

theorem act_owes (me : Nat) (choice : Choice) (h : t.stage.owes = true) :
    (act c me t choice p).1.owes = true ∨ p.changed < (act c me t choice p).2.changed := by
  unfold act
  cases hstage : t.stage <;> rw [hstage] at h <;> dsimp only
  case notify next => exact Or.inr (Nat.lt_succ_self _)
  case drop clients next => cases clients <;> exact Or.inl h
  case cancelTokens tokens next => cases tokens <;> exact Or.inl h
  case closeAdmission next => exact Or.inl h
  all_goals cases h

inductive Need where
  | offer
  | opening
  | emptying

/-- What the call waits for does not hold. -/
def Need.Unmet (c : Config) (s : State) : Need → Prop
  | offer => Quiet c s
  | opening => s.status.isPaused = true
  | emptying => Stopped s ∧ 0 < s.live

def Stage.awaits : Stage → Option (Need × Nat)
  | parked .acquire seen => some (.offer, seen)
  | parked .untilOpen seen | maintainParked seen => some (.opening, seen)
  | drainParked seen _ => some (.emptying, seen)
  | retire next | failedCreate _ next | notify next | drop _ next
  | cancelTokens _ next | closeAdmission next => next.awaits
  | _ => none

theorem saw_of_awaits {stage : Stage} {need : Need} {seen : Nat}
    (h : stage.awaits = some (need, seen)) : stage.saw = seen := by
  induction stage with
  | parked waiting seen' => cases waiting <;> cases h <;> rfl
  | drainParked seen' deadline => cases h; rfl
  | maintainParked seen' => cases h; rfl
  | retire next ih | failedCreate _ next ih | notify next ih
  | drop _ next ih | cancelTokens _ next ih | closeAdmission next ih => exact ih h
  | _ => cases h

theorem act_unmet {need : Need} (me : Nat) (choice : Choice) (h : need.Unmet c p.state) :
    need.Unmet c (act c me t choice p).2.state ∨ (act c me t choice p).1.owes = true := by
  cases need with
  | offer => exact act_quiet me choice h
  | opening => exact act_paused me choice h
  | emptying =>
    rcases act_live me choice h.1.2 with hlive | howes
    · exact Or.inl ⟨act_stopped me choice h.1, Nat.lt_of_lt_of_le h.2 hlive⟩
    · exact Or.inr howes

theorem acquireTurn_waits {s : State} {entered : Bool} (h : (acquireTurn c entered s).1 = .wait) :
    Quiet c (acquireTurn c entered s).2 := by
  unfold acquireTurn at h ⊢
  cases hstatus : s.status with
  | draining | closed =>
    rw [hstatus] at h
    cases h
  | paused reason =>
    apply enter_quiet
    rw [Quiet, hstatus]
    exact Or.inl rfl
  | opened =>
    rw [hstatus] at h
    dsimp only at h ⊢
    by_cases hflight : s.inFlight ≥ c.options.maxConcurrency
    · rw [if_pos hflight]
      exact enter_quiet (Or.inr ⟨hstatus, Or.inl hflight⟩)
    · rw [if_neg hflight] at h ⊢
      cases hidle : s.idle with
      | cons entry idle =>
        rw [hidle] at h
        cases h
      | nil =>
        rw [hidle] at h
        dsimp only at h ⊢
        by_cases hlive : s.live < c.options.maxLive
        · rw [if_pos hlive] at h
          cases h
        · rw [if_neg hlive]
          exact enter_quiet (Or.inr ⟨hstatus, Or.inr ⟨hidle, Nat.le_of_not_lt hlive⟩⟩)

theorem openTurn_waits {s : State} {entered : Bool} (h : (openTurn c entered s).1 = .wait) :
    (openTurn c entered s).2.status.isPaused = true := by
  rw [openTurn_status]
  unfold openTurn at h
  cases hstatus : s.status with
  | paused reason => rfl
  | opened | draining | closed =>
    rw [hstatus] at h
    cases h

theorem act_awaits {need : Need} {seen : Nat} (me : Nat) (choice : Choice)
    (hknows : t.stage.Knows p.state) (hstopped : p.state.status.ended = true → Stopped p.state)
    (h : (act c me t choice p).1.awaits = some (need, seen)) :
    t.stage.awaits = some (need, seen) ∨ need.Unmet c (act c me t choice p).2.state := by
  unfold act at h ⊢
  cases hstage : t.stage <;> rw [hstage] at h hknows <;> dsimp only at h ⊢
  case look waiting entered seen =>
    cases waiting <;> dsimp only [lookTurn, Pool.withState] at h ⊢
    · cases haction : (acquireTurn c entered (p.pruned c).state).1 <;> rw [haction] at h <;>
        cases h
      exact Or.inr (acquireTurn_waits haction)
    · cases haction : (openTurn c entered p.state).1 <;> rw [haction] at h <;> cases h
      exact Or.inr (openTurn_waits haction)
  case top waiting entered => cases hc : t.cancelled <;> rw [hc] at h <;> cases h
  case parked waiting seen =>
    cases hends : waitEnds t.cancelled seen t.deadline p choice with
    | none =>
      rw [hends] at h
      exact Or.inl h
    | some ending =>
      rw [hends] at h
      cases ending <;> cases h
  case leaving entered outcome => cases entered <;> cases h
  case createLook =>
    cases haction : (createTurn c (p.pruned c).state).1 <;> rw [haction] at h <;> cases h
  case idleLook predicate =>
    cases haction : (idleTurn c predicate (p.pruned c).state).1 <;> rw [haction] at h <;> cases h
  case discardLook predicate =>
    cases hfound : discardIdleTurn predicate p.state with
    | mk found s =>
      rw [hfound] at h
      cases found <;> cases h
  case reserved admitted =>
    cases choice <;> dsimp only at h
    case interrupt | shut =>
      cases hends : operationEnds t p _ with
      | none =>
        rw [hends] at h
        cases h
      | some ending =>
        rw [hends] at h
        cases admitted <;> cases ending <;> cases h
    all_goals cases h
  case creating admitted =>
    cases hends : operationEnds t p choice with
    | none =>
      rw [hends] at h
      cases h
    | some ending =>
      rw [hends] at h
      cases admitted <;> cases ending <;> cases h
  case recycling entry =>
    cases hends : operationEnds t p choice with
    | none =>
      rw [hends] at h
      cases h
    | some ending =>
      rw [hends] at h
      cases ending <;> cases h
  case registering entry created =>
    cases hregistered : (register c me t.policy p).1 <;> rw [hregistered] at h <;>
      cases created <;> cases h
  case leased entry registration => cases choice <;> cases h
  case runTop => cases hc : t.cancelled <;> rw [hc] at h <;> cases h
  case runStats => cases hended : p.state.status.ended <;> rw [hended] at h <;> cases h
  case runReserve =>
    cases hreserved : (reserveWarmCreate c p.state).1 <;> rw [hreserved] at h <;> cases h
  case runParked seen deadline =>
    cases hends : waitEnds t.cancelled seen deadline p choice with
    | none =>
      rw [hends] at h
      cases h
    | some ending =>
      rw [hends] at h
      cases ending <;> cases h
  case drainLook seen =>
    rcases drainTurn_cases c p.now p.state with ⟨hlive, hturn⟩ | ⟨hlive, hturn⟩
    · rw [hturn] at h
      cases h
    · rw [hturn] at h ⊢
      cases h
      obtain ⟨hstatus, hidle⟩ := takeDue_keeps c p.now p.state
      have hstop := hstopped hknows
      refine Or.inr ⟨⟨hstatus ▸ hstop.1, hidle ▸ hstop.2⟩, ?_⟩
      exact takeDue_live c p.now p.state ▸ Nat.pos_of_ne_zero hlive
  case drainParked seen deadline =>
    cases hends : waitEnds false seen deadline p choice with
    | none =>
      rw [hends] at h
      exact Or.inl h
    | some ending =>
      rw [hends] at h
      cases ending <;> cases h
  case resume => cases hresumed : (resumeTurn p.state).1 <;> rw [hresumed] at h <;> cases h
  case cancelActive => cases hended : p.state.status.ended <;> rw [hended] at h <;> cases h
  case maintainLook seen =>
    cases hstatus : p.state.status <;> rw [hstatus] at h <;> cases h
    exact Or.inr (by rw [Need.Unmet, hstatus]; rfl)
  case maintainParked seen =>
    cases hends : waitEnds t.cancelled seen none p choice with
    | none =>
      rw [hends] at h
      exact Or.inl h
    | some ending =>
      rw [hends] at h
      cases ending <;> first | exact Or.inl h | cases h
  case unregister registration entry => cases registration <;> cases entry <;> cases h
  case drop clients next => cases clients <;> exact Or.inl h
  case cancelTokens tokens next => cases tokens <;> exact Or.inl h
  case retire | failedCreate | notify | closeAdmission => exact Or.inl h
  case warmFinish entry =>
    cases hkept : (finishWarmCreate c entry p.state).1 <;> rw [hkept] at h <;> cases h
  case returning entry now =>
    cases hkept : (returnEntry c now entry p.state).1 <;> rw [hkept] at h <;> cases h
  all_goals cases h

/-- A call has changed the pool and is about to notify. -/
def World.notifying (w : World) : Prop := ∃ t ∈ w.tasks, t.stage.owes = true

/-- What is waited for is not there, the notified future is woken, or a notification is due. -/
def Awake (c : Config) (w : World) (need : Need) (seen : Nat) : Prop :=
  seen < w.pool.changed ∨ need.Unmet c w.pool.state ∨ w.notifying

structure Wakes (c : Config) (w : World) : Prop where
  halts : Halts c w
  saw : ∀ t ∈ w.tasks, t.stage.saw ≤ w.pool.changed
  awake : ∀ t ∈ w.tasks, ∀ need seen, t.stage.awaits = some (need, seen) →
    Awake c w need seen

section

variable {c : Config} {w : World} {i : Nat} {t : Task} {need : Need} {seen : Nat}

theorem notifying_of_step (hi : w.tasks[i]? = some t) (choice : Choice)
    (howes : (act c i t choice w.pool).1.owes = true) :
    (stepTask c w i t choice).notifying :=
  ⟨_, mem_stepTask hi choice, howes⟩

theorem Awake.stepTask (h : Awake c w need seen) (hsaw : seen ≤ w.pool.changed)
    (hchanged : w.pool.changed ≤ (act c i t choice w.pool).2.changed)
    (hi : w.tasks[i]? = some t) :
    Awake c (stepTask c w i t choice) need seen := by
  rcases h with h | h | ⟨t', ht', howes⟩
  · exact Or.inl (Nat.lt_of_lt_of_le h hchanged)
  · rcases act_unmet i choice h with hafter | hafter
    · exact Or.inr (Or.inl hafter)
    · exact Or.inr (Or.inr (notifying_of_step hi choice hafter))
  · by_cases hne : t' = t
    · subst hne
      rcases act_owes (c := c) (p := w.pool) i choice howes with hafter | hafter
      · exact Or.inr (Or.inr (notifying_of_step hi choice hafter))
      · exact Or.inl (Nat.lt_of_le_of_lt hsaw hafter)
    · exact Or.inr (Or.inr ⟨t', mem_stepTask_of_ne hi choice ht' hne, howes⟩)

theorem Wakes.stepTask (h : Wakes c w) (hi : w.tasks[i]? = some t) (choice : Choice) :
    Wakes c (stepTask c w i t choice) := by
  have ht : t ∈ w.tasks := List.mem_of_getElem? hi
  obtain ⟨hsaw, hchanged⟩ := act_saw (c := c) i choice (h.saw t ht)
  have hother : ∀ t' ∈ w.tasks, ∀ need seen, t'.stage.awaits = some (need, seen) →
      Awake c (ClientPool.stepTask c w i t choice) need seen := by
    intro t' ht' need seen hawaits
    apply (h.awake t' ht' need seen hawaits).stepTask _ hchanged hi
    rw [← saw_of_awaits hawaits]
    exact h.saw t' ht'
  constructor
  · exact h.halts.stepTask hi choice
  · intro t' ht'
    rcases mem_set_cases ht' with rfl | ht'
    · exact hsaw
    · exact Nat.le_trans (h.saw t' ht') hchanged
  · intro t' ht' need seen hawaits
    rcases mem_set_cases ht' with rfl | ht'
    · rcases act_awaits i choice (h.halts.knows t ht) h.halts.stopped hawaits with hbefore | hunmet
      · exact hother t ht need seen hbefore
      · exact Or.inr (Or.inl hunmet)
    · exact hother t' ht' need seen hawaits

theorem Call.task_saw (c : Config) (now : Nat) (call : Call) :
    (call.task c now).stage.saw = 0 ∧ (call.task c now).stage.awaits = none := by
  cases call with
  | acquire policy | acquireCancellable policy =>
    rcases Call.acquireTask_stage c now policy _ with h | h
    · rw [Call.task, h]
      exact ⟨rfl, rfl⟩
    · rw [Call.task, h]
      exact ⟨rfl, rfl⟩
  | _ => exact ⟨rfl, rfl⟩

theorem Wakes.begin (h : Wakes c w) (call : Call) :
    Wakes c { w with tasks := w.tasks ++ [call.task c w.pool.now] } := by
  obtain ⟨hsaw, hawaits⟩ := call.task_saw c w.pool.now
  constructor
  · exact h.halts.exec (.begin call)
  · intro t ht
    rcases List.mem_append.mp ht with ht | ht
    · exact h.saw t ht
    · rw [List.mem_singleton.mp ht, hsaw]
      exact Nat.zero_le _
  · intro t ht need seen hneed
    rcases List.mem_append.mp ht with ht | ht
    · rcases h.awake t ht need seen hneed with hwoken | hunmet | ⟨t', ht', howes⟩
      · exact Or.inl hwoken
      · exact Or.inr (Or.inl hunmet)
      · exact Or.inr (Or.inr ⟨t', List.mem_append_left _ ht', howes⟩)
    · rw [List.mem_singleton.mp ht, hawaits] at hneed
      cases hneed

theorem Wakes.cancel (h : Wakes c w) (hi : w.tasks[i]? = some t) :
    Wakes c { w with tasks := w.tasks.set i t.cancel } := by
  obtain ⟨hlt, -⟩ := List.getElem?_eq_some_iff.mp hi
  have ht : t ∈ w.tasks := List.mem_of_getElem? hi
  have hnotifying : w.notifying → World.notifying
      { w with tasks := w.tasks.set i t.cancel } := by
    rintro ⟨t', ht', howes⟩
    obtain ⟨j, hj⟩ := List.getElem?_of_mem ht'
    by_cases hij : i = j
    · subst hij
      rw [hi] at hj
      cases hj
      exact ⟨_, List.mem_set hlt _, howes⟩
    · exact ⟨t', List.mem_of_getElem? (i := j) (by rw [List.getElem?_set_ne hij, hj]), howes⟩
  constructor
  · have hhalts := h.halts.exec (.cancel i)
    rw [ClientPool.exec, hi] at hhalts
    exact hhalts
  · intro t' ht'
    rcases mem_set_cases ht' with rfl | ht'
    · exact h.saw t ht
    · exact h.saw t' ht'
  · have hawake : ∀ t' ∈ w.tasks, ∀ need seen, t'.stage.awaits = some (need, seen) →
        Awake c { w with tasks := w.tasks.set i t.cancel }
          need seen := by
      intro t' ht' need seen hneed
      rcases h.awake t' ht' need seen hneed with hwoken | hunmet | hdue
      · exact Or.inl hwoken
      · exact Or.inr (Or.inl hunmet)
      · exact Or.inr (Or.inr (hnotifying hdue))
    intro t' ht' need seen hneed
    rcases mem_set_cases ht' with rfl | ht'
    · exact hawake t ht need seen hneed
    · exact hawake t' ht' need seen hneed

end

theorem Wakes.init (c : Config) : Wakes c .init where
  halts := Halts.init c
  saw := fun t ht => by cases ht
  awake := fun t ht => by cases ht

theorem Wakes.exec {w : World} (h : Wakes c w) (op : Op) : Wakes c (exec c w op) := by
  apply exec_cases c h
  · exact fun call => h.begin call
  · exact fun i t choice hi => h.stepTask hi choice
  · exact fun i t hi => h.cancel hi
  · exact fun duration => ⟨h.halts.exec (.tick duration), h.saw, h.awake⟩

theorem wakes_run (c : Config) (ops : List Op) : Wakes c (run c ops) :=
  foldl_holds (fun _ op h => h.exec op) ops (Wakes.init c)

/-- At every moment a parked acquirer is woken, or the pool offers it nothing, or the call that
made it an offer is about to notify; likewise for a parked drain while a client is live and for a
parked wait for an opening while the pool is paused.  A step that turns what a parked call waits
for true is followed by a notification of its call, which no step of the call skips. -/
theorem parked_awake (c : Config) (ops : List Op) :
    let w := run c ops
    (∀ t ∈ w.tasks, ∀ seen, t.stage = .parked .acquire seen →
      seen < w.pool.changed ∨ Quiet c w.pool.state ∨ w.notifying) ∧
    (∀ t ∈ w.tasks, ∀ seen,
      t.stage = .parked .untilOpen seen ∨ t.stage = .maintainParked seen →
      seen < w.pool.changed ∨ w.pool.state.status.isPaused = true ∨ w.notifying) ∧
    (∀ t ∈ w.tasks, ∀ seen deadline, t.stage = .drainParked seen deadline →
      seen < w.pool.changed ∨ 0 < w.pool.state.live ∨ w.notifying) ∧
    (∀ i t choice, w.tasks[i]? = some t → ∀ need : Need, need.Unmet c w.pool.state →
      need.Unmet c (act c i t choice w.pool).2.state ∨
        (act c i t choice w.pool).1.owes = true) ∧
    (∀ i t choice, w.tasks[i]? = some t → t.stage.owes = true →
      (act c i t choice w.pool).1.owes = true ∨
        w.pool.changed < (act c i t choice w.pool).2.changed) := by
  have h := wakes_run c ops
  refine ⟨?_, ?_, ?_, ?_, ?_⟩
  · intro t ht seen hstage
    exact h.awake t ht .offer seen (by rw [hstage]; rfl)
  · intro t ht seen hstage
    apply h.awake t ht .opening seen
    rcases hstage with hstage | hstage <;> rw [hstage] <;> rfl
  · intro t ht seen deadline hstage
    rcases h.awake t ht .emptying seen (by rw [hstage]; rfl) with hwoken | hunmet | hdue
    · exact Or.inl hwoken
    · exact Or.inr (Or.inl hunmet.2)
    · exact Or.inr (Or.inr hdue)
  · intro i t choice _ need hunmet
    exact act_unmet i choice hunmet
  · intro i t choice _ howes
    exact act_owes i choice howes

end ClientPool
