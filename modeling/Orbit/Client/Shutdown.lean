import Orbit.Client.Ledger

/-! The end of a pool: no admission after it, and the cancellations each request's policy allows. -/

open Orbit.Atomic

namespace ClientPool

/-- Once admission has stopped nothing is idle. -/
def Stopped (s : State) : Prop := s.status.ended = true ∧ s.idle = []

section

variable {c : Config} {s : State} {entered : Bool}

theorem enter_status : (enter c entered s).2.status = s.status := by
  unfold enter
  split
  · rfl
  split <;> rfl

theorem leave_status : (leave entered s).status = s.status := by
  cases entered <;> rfl

theorem acquireTurn_status : (acquireTurn c entered s).2.status = s.status := by
  unfold acquireTurn
  split
  · rfl
  · rfl
  · exact enter_status
  split
  · exact enter_status
  split
  · exact leave_status
  split
  · exact leave_status
  · exact enter_status

theorem openTurn_status : (openTurn c entered s).2.status = s.status := by
  unfold openTurn
  split
  · exact leave_status
  · exact enter_status
  · rfl
  · rfl

theorem createTurn_status : (createTurn c s).2.status = s.status := by
  unfold createTurn
  split
  · rfl
  split
  · rfl
  split <;> rfl

theorem idleTurn_status {predicate : Nat → Bool} :
    (idleTurn c predicate s).2.status = s.status := by
  unfold idleTurn
  split
  · rfl
  split
  · rfl
  split <;> rfl

theorem Stopped.prune (h : Stopped s) (now : Nat) : Stopped (pruneExpired c now s).2 := by
  refine ⟨h.1, ?_⟩
  dsimp only [pruneExpired, State.subLive]
  rw [h.2]
  rfl

theorem Stopped.pruned {p : Pool} (h : Stopped p.state) : Stopped (p.pruned c).state :=
  h.prune p.now

theorem Stopped.acquireTurn (h : Stopped s) : acquireTurn c entered s = (.closed, s) := by
  unfold ClientPool.acquireTurn
  cases hstatus : s.status with
  | draining => rfl
  | closed => rfl
  | opened | paused =>
    have hended := h.1
    rw [hstatus] at hended
    cases hended

theorem Stopped.openTurn (h : Stopped s) : openTurn c entered s = (.closed, s) := by
  unfold ClientPool.openTurn
  cases hstatus : s.status with
  | draining => rfl
  | closed => rfl
  | opened | paused =>
    have hended := h.1
    rw [hstatus] at hended
    cases hended

theorem Stopped.not_opened (h : Stopped s) : s.status ≠ .opened := by
  intro hopened
  have hended := h.1
  rw [hopened] at hended
  cases hended

theorem Stopped.createTurn (h : Stopped s) : createTurn c s = (.closed, s) := if_pos h.not_opened

theorem Stopped.idleTurn (h : Stopped s) (predicate : Nat → Bool) :
    idleTurn c predicate s = (.closed, s) :=
  if_pos h.not_opened

theorem Stopped.reserveWarmCreate (h : Stopped s) : reserveWarmCreate c s = (false, s) :=
  if_pos (Or.inl h.not_opened)

end

theorem register_keeps (c : Config) (me : Nat) (policy : ActiveRequestPolicy) (p : Pool) :
    (register c me policy p).2.state.status = p.state.status ∧
      (register c me policy p).2.state.idle = p.state.idle := by
  unfold register registerActive
  dsimp only
  split
  · exact ⟨rfl, rfl⟩
  split
  · split <;> exact ⟨rfl, rfl⟩
  · split <;> exact ⟨rfl, rfl⟩

theorem takeDue_keeps (c : Config) (now : Nat) (s : State) :
    (takeDueCancellations c now s).2.status = s.status ∧
      (takeDueCancellations c now s).2.idle = s.idle := by
  unfold takeDueCancellations
  split <;> exact ⟨rfl, rfl⟩

theorem register_live (c : Config) (me : Nat) (policy : ActiveRequestPolicy) (p : Pool) :
    (register c me policy p).2.state.live = p.state.live := by
  unfold register registerActive
  dsimp only
  split
  · rfl
  split
  · split <;> rfl
  · split <;> rfl

theorem takeDue_live (c : Config) (now : Nat) (s : State) :
    (takeDueCancellations c now s).2.live = s.live := by
  unfold takeDueCancellations
  split <;> rfl

theorem drainTurn_cases (c : Config) (now : Nat) (s : State) :
    (s.live = 0 ∧ drainTurn c now s = (none, { s with status := .closed })) ∨
    (s.live ≠ 0 ∧ drainTurn c now s =
      (some ((takeDueCancellations c now s).1,
          nextActiveCancellationDeadline c (takeDueCancellations c now s).2),
        (takeDueCancellations c now s).2)) := by
  unfold drainTurn
  by_cases hlive : s.live = 0
  · exact Or.inl ⟨hlive, if_pos hlive⟩
  · exact Or.inr ⟨hlive, if_neg hlive⟩

theorem drainFirst_stopped (c : Config) (now : Nat) (s : State) :
    Stopped (drainFirst c now s).2.2 := by
  obtain ⟨hstatus, hidle⟩ := takeDue_keeps c (s.drainStarted.getD now)
    (retireIdle (beginDrain now s)).2
  refine ⟨?_, hidle⟩
  dsimp only [drainFirst]
  rw [hstatus]
  dsimp only [retireIdle, beginDrain, State.subLive]
  split <;> rfl

variable {c : Config} {p : Pool} {t : Task}

theorem Stopped.drainTurn {s : State} (h : Stopped s) (now : Nat) :
    Stopped (drainTurn c now s).2 := by
  rcases drainTurn_cases c now s with ⟨-, hturn⟩ | ⟨-, hturn⟩
  · rw [hturn]
    exact ⟨rfl, h.2⟩
  · rw [hturn]
    obtain ⟨hstatus, hidle⟩ := takeDue_keeps c now s
    exact ⟨hstatus.symm ▸ h.1, hidle.symm ▸ h.2⟩

theorem act_stopped (me : Nat) (choice : Choice) (h : Stopped p.state) :
    Stopped (act c me t choice p).2.state := by
  unfold act
  cases t.stage <;> dsimp only
  case look waiting entered seen =>
    cases waiting
    · dsimp only [lookTurn]
      rw [Stopped.acquireTurn (h.pruned (c := c))]
      exact h.pruned
    · dsimp only [lookTurn]
      rw [h.openTurn]
      exact h
  case leaving entered outcome => cases entered <;> exact h
  case createLook =>
    rw [Stopped.createTurn h.pruned]
    exact h.pruned
  case idleLook predicate =>
    rw [Stopped.idleTurn h.pruned]
    exact h.pruned
  case discardLook predicate =>
    rw [discardIdleTurn, h.2]
    exact h
  case reserved admitted => cases choice <;> exact h
  case creating admitted =>
    cases operationEnds t p choice with
    | none => exact h
    | some ending => cases ending <;> exact h
  case registering entry created =>
    obtain ⟨hstatus, hidle⟩ := register_keeps c me t.policy p
    exact ⟨hstatus ▸ h.1, hidle ▸ h.2⟩
  case finishing entry registration => exact h
  case returning entry now =>
    unfold returnEntry
    dsimp only
    split
    case isTrue hkept =>
      have hnot := hkept.1
      rw [show (p.state.subInFlight 1).status = p.state.status from rfl, h.1] at hnot
      cases hnot
    case isFalse => exact h
  case runPrune => exact h.prune p.now
  case runReserve =>
    rw [h.reserveWarmCreate]
    exact h
  case warmFinish entry =>
    unfold finishWarmCreate
    dsimp only
    split
    case isTrue => exact h
    case isFalse hkept => exact absurd (Or.inl h.1) hkept
  case close => exact ⟨rfl, rfl⟩
  case drain => exact drainFirst_stopped c p.now p.state
  case drainLook seen =>
    have hturn := h.drainTurn (c := c) p.now
    cases hresult : drainTurn c p.now p.state with
    | mk result s =>
      rw [hresult] at hturn
      cases result <;> exact hturn
  case pause reason =>
    rw [pauseTurn, if_pos h.1]
    exact h
  case resume =>
    unfold resumeTurn
    cases hstatus : p.state.status with
    | paused reason =>
      have hended := h.1
      rw [hstatus] at hended
      cases hended
    | _ => exact h
  case unregister registration entry => cases registration <;> exact h
  case failedCreate admitted next => cases admitted <;> exact h
  case drop clients next => cases clients <;> exact h
  case cancelTokens tokens next => cases tokens <;> exact h
  all_goals exact h

def Stage.governs : Stage → Bool
  | close | drain | drainLook _ | pause _ | resume => true
  | _ => false

theorem act_status (me : Nat) (choice : Choice) (h : t.stage.governs = false) :
    (act c me t choice p).2.state.status = p.state.status := by
  unfold act
  cases hstage : t.stage <;> rw [hstage] at h <;> dsimp only
  case look waiting entered seen =>
    cases waiting
    · exact acquireTurn_status (s := (p.pruned c).state)
    · exact openTurn_status
  case leaving entered outcome => cases entered <;> rfl
  case createLook => exact createTurn_status (s := (p.pruned c).state)
  case idleLook predicate => exact idleTurn_status (s := (p.pruned c).state)
  case discardLook predicate =>
    unfold discardIdleTurn
    cases takeIdle predicate p.state.idle <;> rfl
  case reserved admitted => cases choice <;> rfl
  case creating admitted =>
    cases operationEnds t p choice with
    | none => rfl
    | some ending => cases ending <;> rfl
  case registering entry created => exact (register_keeps c me t.policy p).1
  case returning entry now =>
    unfold returnEntry
    dsimp only
    split <;> rfl
  case runReserve =>
    unfold reserveWarmCreate
    split <;> rfl
  case warmFinish entry =>
    unfold finishWarmCreate
    dsimp only
    split <;> rfl
  case unregister registration entry => cases registration <;> rfl
  case failedCreate admitted next => cases admitted <;> rfl
  case drop clients next => cases clients <;> rfl
  case cancelTokens tokens next => cases tokens <;> rfl
  case close | drain | drainLook | pause | resume => cases h
  all_goals rfl

/-- Closing and draining empty the queue in the section that stops admission, and drain closes a
pool without clients. -/
theorem act_stops (me : Nat) (choice : Choice) (hempty : p.state.live = 0 → p.state.idle = [])
    (h : (act c me t choice p).2.state.status.ended = true) :
    p.state.status.ended = true ∨ Stopped (act c me t choice p).2.state := by
  cases hgoverns : t.stage.governs with
  | false => exact Or.inl (act_status me choice hgoverns ▸ h)
  | true =>
    unfold act at h ⊢
    cases hstage : t.stage <;> rw [hstage] at hgoverns h <;> dsimp only at h ⊢
    case close => exact Or.inr ⟨rfl, rfl⟩
    case drain => exact Or.inr (drainFirst_stopped c p.now p.state)
    case drainLook seen =>
      rcases drainTurn_cases c p.now p.state with ⟨hlive, hturn⟩ | ⟨-, hturn⟩
      · rw [hturn]
        exact Or.inr ⟨rfl, hempty hlive⟩
      · rw [hturn] at h
        exact Or.inl ((takeDue_keeps c p.now p.state).1 ▸ h)
    case pause reason =>
      cases hended : p.state.status.ended with
      | true => exact Or.inl rfl
      | false =>
        rw [pauseTurn, hended] at h
        cases h
    case resume =>
      unfold resumeTurn at h
      cases hstatus : p.state.status <;> rw [hstatus] at h
      case draining | closed => exact Or.inl rfl
      case opened => cases hstatus ▸ h
      case paused reason => cases h
    all_goals cases hgoverns

theorem act_live_le (me : Nat) (choice : Choice) (h : Stopped p.state) :
    (act c me t choice p).2.state.live ≤ p.state.live := by
  have hpruned : (p.pruned c).state.live ≤ p.state.live := Nat.sub_le _ _
  unfold act
  cases t.stage <;> dsimp only
  case look waiting entered seen =>
    cases waiting <;> dsimp only [lookTurn]
    · rw [Stopped.acquireTurn (h.pruned (c := c))]
      exact hpruned
    · rw [h.openTurn]
      exact Nat.le_refl _
  case leaving entered outcome => cases entered <;> exact Nat.le_refl _
  case createLook =>
    rw [Stopped.createTurn h.pruned]
    exact hpruned
  case idleLook predicate =>
    rw [Stopped.idleTurn h.pruned]
    exact hpruned
  case discardLook predicate =>
    rw [discardIdleTurn, h.2]
    exact Nat.le_refl _
  case reserved admitted => cases choice <;> exact Nat.le_refl _
  case creating admitted =>
    cases operationEnds t p choice with
    | none => exact Nat.le_refl _
    | some ending => cases ending <;> exact Nat.le_refl _
  case registering entry created => exact Nat.le_of_eq (register_live c me t.policy p)
  case returning entry now =>
    unfold returnEntry
    dsimp only
    split
    · exact Nat.le_refl _
    · exact Nat.sub_le _ _
  case runPrune => exact hpruned
  case runReserve =>
    rw [h.reserveWarmCreate]
    exact Nat.le_refl _
  case warmFinish entry =>
    unfold finishWarmCreate
    dsimp only
    split
    · exact Nat.sub_le _ _
    · exact Nat.le_refl _
  case close => exact Nat.sub_le _ _
  case drain =>
    dsimp only [Pool.withState, drainFirst]
    rw [takeDue_live]
    exact Nat.sub_le _ _
  case drainLook seen =>
    rcases drainTurn_cases c p.now p.state with ⟨-, hturn⟩ | ⟨-, hturn⟩
    · rw [hturn]
      exact Nat.le_refl _
    · rw [hturn]
      exact Nat.le_of_eq (takeDue_live c p.now p.state)
  case pause reason =>
    unfold pauseTurn
    split <;> exact Nat.le_refl _
  case resume =>
    unfold resumeTurn
    cases p.state.status <;> exact Nat.le_refl _
  case unregister registration entry => cases registration <;> exact Nat.le_refl _
  case retire next => exact Nat.sub_le _ _
  case failedCreate admitted next => cases admitted <;> exact Nat.sub_le _ _
  case drop clients next => cases clients <;> exact Nat.le_refl _
  case cancelTokens tokens next => cases tokens <;> exact Nat.le_refl _
  all_goals exact Nat.le_refl _

def Outcome.Knows (s : State) : Outcome → Prop
  | drained => s.status.ended = true ∧ s.live = 0
  | _ => True

/-- What a call that drains knows: admission has stopped. -/
def Stage.Knows (s : State) : Stage → Prop
  | drainListen | drainLook _ | drainParked _ _ => s.status.ended = true
  | leaving _ outcome | done outcome => outcome.Knows s
  | retire next | failedCreate _ next | notify next | drop _ next
  | cancelTokens _ next | closeAdmission next => next.Knows s
  | _ => True

theorem Stage.Knows.mono {s s' : State} (hended : s.status.ended = true → s'.status.ended = true)
    (hlive : s.status.ended = true → s'.live ≤ s.live) {stage : Stage} (h : stage.Knows s) :
    stage.Knows s' := by
  induction stage with
  | drainListen | drainLook | drainParked => exact hended h
  | leaving entered outcome | done outcome =>
    cases outcome
    case drained => exact ⟨hended h.1, by have := hlive h.1; have := h.2; omega⟩
    all_goals trivial
  | retire next ih | failedCreate _ next ih | notify next ih
  | drop _ next ih | cancelTokens _ next ih | closeAdmission next ih => exact ih h
  | _ => trivial

theorem act_knows (me : Nat) (choice : Choice) (h : t.stage.Knows p.state)
    (hended : p.state.status.ended = true → Stopped p.state) :
    (act c me t choice p).1.Knows (act c me t choice p).2.state := by
  have hkept : t.stage.Knows (act c me t choice p).2.state :=
    h.mono (fun he => (act_stopped me choice (hended he)).1)
      (fun he => act_live_le me choice (hended he))
  unfold act at hkept ⊢
  cases hstage : t.stage <;> rw [hstage] at hkept <;> dsimp only at hkept ⊢
  case top waiting entered => cases t.cancelled <;> trivial
  case look waiting entered seen => cases (lookTurn c waiting entered p).1 <;> trivial
  case parked waiting seen =>
    cases waitEnds t.cancelled seen t.deadline p choice with
    | none => trivial
    | some ending => cases ending <;> trivial
  case leaving entered outcome => cases entered <;> exact hkept
  case createLook => cases (createTurn c (p.pruned c).state).1 <;> trivial
  case idleLook predicate => cases (idleTurn c predicate (p.pruned c).state).1 <;> trivial
  case discardLook predicate =>
    cases discardIdleTurn predicate p.state with
    | mk found s => cases found <;> trivial
  case reserved admitted =>
    cases choice <;> dsimp only
    case interrupt | shut =>
      cases operationEnds t p _ with
      | none => trivial
      | some ending => cases admitted <;> cases ending <;> trivial
    all_goals trivial
  case creating admitted =>
    cases operationEnds t p choice with
    | none => trivial
    | some ending => cases admitted <;> cases ending <;> trivial
  case recycling entry =>
    cases operationEnds t p choice with
    | none => trivial
    | some ending => cases ending <;> trivial
  case registering entry created =>
    cases (register c me t.policy p).1 <;> cases created <;> trivial
  case leased entry registration => cases choice <;> trivial
  case returning entry now => cases (returnEntry c now entry p.state).1 <;> trivial
  case runTop => cases t.cancelled <;> trivial
  case runStats => cases p.state.status.ended <;> trivial
  case runReserve => cases (reserveWarmCreate c p.state).1 <;> trivial
  case warmFinish entry => cases (finishWarmCreate c entry p.state).1 <;> trivial
  case runParked seen deadline =>
    cases waitEnds t.cancelled seen deadline p choice with
    | none => trivial
    | some ending => cases ending <;> trivial
  case drain => exact (drainFirst_stopped c p.now p.state).1
  case drainLook seen =>
    rcases drainTurn_cases c p.now p.state with ⟨hlive, hturn⟩ | ⟨-, hturn⟩
    · rw [hturn]
      exact ⟨rfl, hlive⟩
    · rw [hturn] at hkept ⊢
      exact hkept
  case drainParked seen deadline =>
    cases waitEnds false seen deadline p choice with
    | none => exact hkept
    | some ending => cases ending <;> first | exact hkept | trivial
  case resume => cases (resumeTurn p.state).1 <;> trivial
  case cancelActive => cases p.state.status.ended <;> trivial
  case maintainLook seen => cases p.state.status <;> trivial
  case maintainParked seen =>
    cases waitEnds t.cancelled seen none p choice with
    | none => trivial
    | some ending => cases ending <;> trivial
  case unregister registration entry => cases registration <;> cases entry <;> trivial
  case drop clients next => cases clients <;> exact hkept
  case cancelTokens tokens next => cases tokens <;> exact hkept
  case drainListen | retire | failedCreate | notify | closeAdmission | done => exact hkept
  all_goals trivial

/-- The counters are exact, and nothing is idle once admission has stopped. -/
structure Halts (c : Config) (w : World) : Prop where
  exact : Exact c w
  stopped : w.pool.state.status.ended = true → Stopped w.pool.state
  knows : ∀ t ∈ w.tasks, t.stage.Knows w.pool.state

theorem Call.task_knows (c : Config) (now : Nat) (call : Call) (s : State) :
    (call.task c now).stage.Knows s := by
  cases call with
  | acquire policy | acquireCancellable policy =>
    rcases Call.acquireTask_stage c now policy _ with h | h
    · rw [Call.task, h]
      trivial
    · rw [Call.task, h]
      trivial
  | _ => trivial

theorem Halts.stepTask {w : World} {i : Nat} (h : Halts c w) (hi : w.tasks[i]? = some t)
    (choice : Choice) : Halts c (stepTask c w i t choice) := by
  constructor
  · exact h.exact.stepTask hi choice
  · intro hended
    have hempty : w.pool.state.live = 0 → w.pool.state.idle = [] := by
      intro hlive
      have hledger := h.exact.fits.live
      exact List.eq_nil_of_length_eq_zero (by omega)
    rcases act_stops i choice hempty hended with hbefore | hafter
    · exact act_stopped i choice (h.stopped hbefore)
    · exact hafter
  · intro t' ht'
    rcases mem_set_cases ht' with rfl | hother
    · exact act_knows i choice (h.knows t (List.mem_of_getElem? hi)) h.stopped
    · exact (h.knows t' hother).mono (fun he => (act_stopped i choice (h.stopped he)).1)
        (fun he => act_live_le i choice (h.stopped he))

theorem Halts.exec {w : World} (h : Halts c w) (op : Op) : Halts c (exec c w op) := by
  apply exec_cases c h
  · intro call
    refine ⟨h.exact.begin call, h.stopped, fun t ht => ?_⟩
    rcases List.mem_append.mp ht with ht | ht
    · exact h.knows t ht
    · rw [List.mem_singleton.mp ht]
      exact call.task_knows c w.pool.now _
  · exact fun i t choice hi => h.stepTask hi choice
  · intro i t hi
    refine ⟨h.exact.cancel hi, h.stopped, fun t' ht' => ?_⟩
    rcases mem_set_cases ht' with rfl | hother
    · exact h.knows t (List.mem_of_getElem? hi)
    · exact h.knows t' hother
  · exact fun duration => ⟨⟨h.exact.fits, h.exact.placed⟩, h.stopped, h.knows⟩

theorem Halts.init (c : Config) : Halts c .init where
  exact := Exact.init c
  stopped := fun h => by cases h
  knows := fun t ht => by cases ht

end ClientPool
