import Orbit.Client.Shutdown

/-! The registrations of leases and the tokens that drain cancels. -/

open Orbit.Atomic
open List hiding drop

namespace ClientPool

namespace Stage

def registration : Stage → Option Nat
  | finishing _ registration | leased _ registration | unregister registration _ => registration
  | retire next | failedCreate _ next | notify next | drop _ next | cancelTokens _ next
  | closeAdmission next => next.registration
  | _ => none

def dueTokens : Stage → List Nat
  | cancelTokens tokens next => tokens ++ next.dueTokens
  | retire next | failedCreate _ next | notify next | drop _ next
  | closeAdmission next => next.dueTokens
  | _ => []

def leasing : Stage → Bool
  | finishing _ _ | leased _ _ => true
  | retire next | failedCreate _ next | notify next | drop _ next
  | cancelTokens _ next | closeAdmission next => next.leasing
  | _ => false

def mayRegister : Stage → Nat
  | top _ _ | listen _ _ | look _ _ _ | parked _ _ | createLook | idleLook _ | reserved true
  | creating true | recycling _ | registering _ _ => 1
  | retire next | failedCreate _ next | notify next | drop _ next
  | cancelTokens _ next | closeAdmission next => next.mayRegister
  | _ => 0

def signals : Stage → Bool
  | registering _ _ | unregister (some _) _ | drain | drainLook _ | cancelTokens (_ :: _) _ => true
  | _ => false

end Stage

/-- The stages of a call before and after a step that has nothing to do with registrations. -/
structure Like (stage stage' : Stage) : Prop where
  registration : stage'.registration = stage.registration
  dueTokens : stage'.dueTokens = stage.dueTokens
  leasing : stage'.leasing = true → stage.leasing = true
  mayRegister : stage'.mayRegister ≤ stage.mayRegister

/-- The sections that keep the table, the next id and the start of drain. -/
structure SameTable (s s' : State) : Prop where
  table : s'.drainCancellations = s.drainCancellations
  next : s'.nextActiveId = s.nextActiveId
  started : s'.drainStarted = s.drainStarted

section

variable {c : Config} {s : State} {entered : Bool}

theorem SameTable.refl (s : State) : SameTable s s := ⟨rfl, rfl, rfl⟩

theorem SameTable.trans {s s' s'' : State} (h : SameTable s s') (h' : SameTable s' s'') :
    SameTable s s'' :=
  ⟨h'.table.trans h.table, h'.next.trans h.next, h'.started.trans h.started⟩

theorem leave_same : SameTable s (leave entered s) := by
  cases entered <;> exact ⟨rfl, rfl, rfl⟩

theorem enter_same : SameTable s (enter c entered s).2 := by
  unfold enter
  split
  · exact ⟨rfl, rfl, rfl⟩
  split <;> exact ⟨rfl, rfl, rfl⟩

theorem acquireTurn_same : SameTable s (acquireTurn c entered s).2 := by
  unfold acquireTurn
  split
  · exact .refl s
  · exact .refl s
  · exact enter_same
  split
  · exact enter_same
  split
  · cases entered <;> exact ⟨rfl, rfl, rfl⟩
  split
  · cases entered <;> exact ⟨rfl, rfl, rfl⟩
  · exact enter_same

theorem openTurn_same : SameTable s (openTurn c entered s).2 := by
  unfold openTurn
  split
  · exact leave_same
  · exact enter_same
  · exact .refl s
  · exact .refl s

theorem createTurn_same : SameTable s (createTurn c s).2 := by
  unfold createTurn
  split
  · exact .refl s
  split
  · exact .refl s
  split <;> exact ⟨rfl, rfl, rfl⟩

theorem idleTurn_same {predicate : Nat → Bool} : SameTable s (idleTurn c predicate s).2 := by
  unfold idleTurn
  split
  · exact .refl s
  split
  · exact .refl s
  split <;> exact ⟨rfl, rfl, rfl⟩

end

/-- A step that has nothing to do with registrations and tokens. -/
structure Plain (stage stage' : Stage) (p p' : Pool) : Prop where
  like : Like stage stage'
  table : SameTable p.state p'.state
  cancelled : p'.cancelled = p.cancelled
  now : p'.now = p.now

theorem afterLook_like {waiting : Waiting} {entered : Bool} {seen : Nat} {action : Action} :
    Like (.look waiting entered seen) (afterLook waiting entered seen action) := by
  cases action <;> constructor <;>
    first | rfl | exact id | exact Nat.le_refl _ | exact Nat.zero_le _

theorem afterTurn_like {stage : Stage} {action : Action} (hr : stage.registration = none)
    (hd : stage.dueTokens = []) (hm : stage.mayRegister = 1) : Like stage (afterTurn action) := by
  constructor
  · rw [hr]
    cases action <;> rfl
  · rw [hd]
    cases action <;> rfl
  · cases action <;> exact fun h => by cases h
  · rw [hm]
    cases action <;> first | exact Nat.le_refl _ | exact Nat.zero_le _

theorem act_plain {c : Config} {p : Pool} {t : Task} (me : Nat) (choice : Choice)
    (h : t.stage.signals = false) :
    Plain t.stage (act c me t choice p).1 p (act c me t choice p).2 := by
  have hpruned : SameTable p.state (p.pruned c).state := ⟨rfl, rfl, rfl⟩
  have hstays {stage stage' : Stage} (hlike : Like stage stage') : Plain stage stage' p p :=
    ⟨hlike, .refl _, rfl, rfl⟩
  unfold act
  cases hstage : t.stage <;> rw [hstage] at h <;> dsimp only
  case top waiting entered =>
    cases t.cancelled
    · exact hstays ⟨rfl, rfl, id, Nat.le_refl _⟩
    · exact hstays ⟨rfl, rfl, id, Nat.zero_le _⟩
  case look waiting entered seen =>
    cases waiting
    · exact ⟨afterLook_like, hpruned.trans acquireTurn_same, rfl, rfl⟩
    · exact ⟨afterLook_like, openTurn_same, rfl, rfl⟩
  case parked waiting seen =>
    cases waitEnds t.cancelled seen t.deadline p choice with
    | none => exact hstays ⟨rfl, rfl, id, Nat.le_refl _⟩
    | some ending =>
      cases ending
      case woken => exact hstays ⟨rfl, rfl, id, Nat.le_refl _⟩
      all_goals exact hstays ⟨rfl, rfl, id, Nat.zero_le _⟩
  case leaving entered outcome =>
    cases entered <;> exact ⟨⟨rfl, rfl, id, Nat.le_refl _⟩, ⟨rfl, rfl, rfl⟩, rfl, rfl⟩
  case createLook =>
    exact ⟨afterTurn_like rfl rfl rfl, hpruned.trans createTurn_same, rfl, rfl⟩
  case idleLook predicate =>
    exact ⟨afterTurn_like rfl rfl rfl, hpruned.trans idleTurn_same, rfl, rfl⟩
  case discardLook predicate =>
    unfold discardIdleTurn
    cases takeIdle predicate p.state.idle <;>
      exact ⟨⟨rfl, rfl, id, Nat.le_refl _⟩, ⟨rfl, rfl, rfl⟩, rfl, rfl⟩
  case reserved admitted =>
    cases choice <;> dsimp only
    case go => cases admitted <;> exact hstays ⟨rfl, rfl, id, Nat.le_refl _⟩
    case interrupt | shut =>
      cases operationEnds t p _ with
      | none => exact hstays ⟨rfl, rfl, id, Nat.le_refl _⟩
      | some ending =>
        cases admitted <;> cases ending <;> exact hstays ⟨rfl, rfl, id, Nat.zero_le _⟩
    all_goals exact hstays ⟨rfl, rfl, id, Nat.le_refl _⟩
  case creating admitted =>
    cases operationEnds t p choice with
    | none => exact hstays ⟨rfl, rfl, id, Nat.le_refl _⟩
    | some ending =>
      cases admitted <;> cases ending
      case true.ok => exact ⟨⟨rfl, rfl, id, Nat.le_refl _⟩, .refl _, rfl, rfl⟩
      case false.ok => exact ⟨⟨rfl, rfl, id, Nat.zero_le _⟩, .refl _, rfl, rfl⟩
      all_goals exact hstays ⟨rfl, rfl, id, Nat.zero_le _⟩
  case recycling entry =>
    cases operationEnds t p choice with
    | none => exact hstays ⟨rfl, rfl, id, Nat.le_refl _⟩
    | some ending =>
      cases ending
      case ok => exact hstays ⟨rfl, rfl, id, Nat.le_refl _⟩
      all_goals exact hstays ⟨rfl, rfl, id, Nat.zero_le _⟩
  case finishing entry registration =>
    exact ⟨⟨rfl, rfl, id, Nat.le_refl _⟩, ⟨rfl, rfl, rfl⟩, rfl, rfl⟩
  case leased entry registration =>
    cases choice
    case drop | discard => exact hstays ⟨rfl, rfl, fun _ => rfl, Nat.le_refl _⟩
    all_goals exact hstays ⟨rfl, rfl, id, Nat.le_refl _⟩
  case returning entry now =>
    unfold returnEntry
    dsimp only
    split <;> exact ⟨⟨rfl, rfl, id, Nat.le_refl _⟩, ⟨rfl, rfl, rfl⟩, rfl, rfl⟩
  case runTop => cases t.cancelled <;> exact hstays ⟨rfl, rfl, id, Nat.le_refl _⟩
  case runPrune => exact ⟨⟨rfl, rfl, id, Nat.le_refl _⟩, hpruned, rfl, rfl⟩
  case runStats => cases p.state.status.ended <;> exact hstays ⟨rfl, rfl, id, Nat.le_refl _⟩
  case runReserve =>
    unfold reserveWarmCreate
    split <;> exact ⟨⟨rfl, rfl, id, Nat.le_refl _⟩, ⟨rfl, rfl, rfl⟩, rfl, rfl⟩
  case warmFinish entry =>
    unfold finishWarmCreate
    dsimp only
    split <;> exact ⟨⟨rfl, rfl, id, Nat.le_refl _⟩, ⟨rfl, rfl, rfl⟩, rfl, rfl⟩
  case runParked seen deadline =>
    cases waitEnds t.cancelled seen deadline p choice with
    | none => exact hstays ⟨rfl, rfl, id, Nat.le_refl _⟩
    | some ending => cases ending <;> exact hstays ⟨rfl, rfl, id, Nat.le_refl _⟩
  case drainParked seen deadline =>
    cases waitEnds false seen deadline p choice with
    | none => exact hstays ⟨rfl, rfl, id, Nat.le_refl _⟩
    | some ending => cases ending <;> exact hstays ⟨rfl, rfl, id, Nat.le_refl _⟩
  case pause reason =>
    unfold pauseTurn
    split <;> exact ⟨⟨rfl, rfl, id, Nat.le_refl _⟩, ⟨rfl, rfl, rfl⟩, rfl, rfl⟩
  case resume =>
    unfold resumeTurn
    cases p.state.status <;>
      exact ⟨⟨rfl, rfl, id, Nat.le_refl _⟩, ⟨rfl, rfl, rfl⟩, rfl, rfl⟩
  case cancelActive =>
    cases p.state.status.ended <;> exact hstays ⟨rfl, rfl, id, Nat.le_refl _⟩
  case maintainLook seen =>
    cases p.state.status <;> exact hstays ⟨rfl, rfl, id, Nat.le_refl _⟩
  case maintainParked seen =>
    cases waitEnds t.cancelled seen none p choice with
    | none => exact hstays ⟨rfl, rfl, id, Nat.le_refl _⟩
    | some ending => cases ending <;> exact hstays ⟨rfl, rfl, id, Nat.le_refl _⟩
  case failedCreate admitted next =>
    cases admitted <;> exact ⟨⟨rfl, rfl, id, Nat.le_refl _⟩, ⟨rfl, rfl, rfl⟩, rfl, rfl⟩
  case unregister registration entry =>
    cases registration
    · cases entry <;> exact hstays ⟨rfl, rfl, id, Nat.le_refl _⟩
    · cases h
  case drop clients next =>
    cases clients <;> exact ⟨⟨rfl, rfl, id, Nat.le_refl _⟩, .refl _, rfl, rfl⟩
  case cancelTokens tokens next =>
    cases tokens
    · exact hstays ⟨rfl, rfl, id, Nat.le_refl _⟩
    · cases h
  case registering | drain | drainLook => cases h
  all_goals exact ⟨⟨rfl, rfl, id, Nat.le_refl _⟩, ⟨rfl, rfl, rfl⟩, rfl, rfl⟩

section

variable {c : Config} {w : World} {i : Nat} {t : Task}

/-- The policy of call `k` lets a drain cancel it at `instant`. -/
def Due (c : Config) (w : World) (k instant : Nat) : Prop :=
  ∃ started t, w.pool.state.drainStarted = some started ∧ w.tasks[k]? = some t ∧
    dueAt c started instant t.policy = true

variable {k started : Nat} {entry : Entry} {created : Bool}

theorem dueAt_mono {c : Config} {now now' : Nat} {policy : ActiveRequestPolicy}
    (h : dueAt c started now policy = true) (hle : now ≤ now') :
    dueAt c started now' policy = true := by
  cases policy with
  | preserve => cases h
  | cancelOnDrain grace =>
    cases grace with
    | none => rfl
    | some grace =>
      unfold dueAt at h ⊢
      dsimp only at h ⊢
      cases hdeadline : c.checkedAdd started grace with
      | none =>
        rw [hdeadline] at h
        cases h
      | some deadline =>
        rw [hdeadline] at h
        dsimp only at h ⊢
        rw [decide_eq_true_eq] at h ⊢
        omega

/-- Every registration is its lease's, and every token that was or will be cancelled was due. -/
structure Signals (c : Config) (w : World) : Prop where
  began : ∀ started, w.pool.state.drainStarted = some started → started ≤ w.pool.now
  listed : ∀ id a, (id, a) ∈ w.pool.state.drainCancellations →
    ∃ t, w.tasks[a.token]? = some t ∧ t.policy = a.policy ∧ t.stage.registration = some id
  prompt : w.pool.state.drainStarted ≠ none →
    ∀ id a, (id, a) ∈ w.pool.state.drainCancellations → a.policy ≠ .cancelOnDrain none
  pending : ∀ t ∈ w.tasks, ∀ k ∈ t.stage.dueTokens, Due c w k w.pool.now
  cancelled : ∀ k instant, (k, instant) ∈ w.pool.cancelled → Due c w k instant

theorem due_of_step {instant : Nat} {t' : Task} (hi : w.tasks[i]? = some t) (choice : Choice)
    (hstarted : (act c i t choice w.pool).2.state.drainStarted = some started)
    (hk : w.tasks[k]? = some t') (hdue : dueAt c started instant t'.policy = true) :
    Due c (stepTask c w i t choice) k instant := by
  by_cases hik : i = k
  · subst hik
    rw [hi] at hk
    cases hk
    exact ⟨started, { t with stage := (act c i t choice w.pool).1 }, hstarted,
      by rw [stepTask_get hi, if_pos rfl], hdue⟩
  · exact ⟨started, t', hstarted, by rw [stepTask_get hi, if_neg hik, hk], hdue⟩

theorem Due.stepTask {instant : Nat} (h : Due c w k instant) (hi : w.tasks[i]? = some t)
    (choice : Choice) (hstarted : ∀ started, w.pool.state.drainStarted = some started →
      (act c i t choice w.pool).2.state.drainStarted = some started) :
    Due c (stepTask c w i t choice) k instant := by
  obtain ⟨started, t', hbegan, hk, hdue⟩ := h
  exact due_of_step hi choice (hstarted started hbegan) hk hdue

theorem Signals.of_step (h : Signals c w) (hi : w.tasks[i]? = some t) (choice : Choice)
    {stage : Stage} {p : Pool} (hact : act c i t choice w.pool = (stage, p))
    (hnow : p.now = w.pool.now)
    (hstarted : ∀ started, w.pool.state.drainStarted = some started →
      p.state.drainStarted = some started)
    (hbegan : ∀ started, p.state.drainStarted = some started → started ≤ w.pool.now)
    (hlisted : ∀ id a, (id, a) ∈ p.state.drainCancellations →
      (a.token = i ∧ a.policy = t.policy ∧ stage.registration = some id) ∨
      (a.token ≠ i ∧ (id, a) ∈ w.pool.state.drainCancellations))
    (hprompt : p.state.drainStarted ≠ none →
      ∀ id a, (id, a) ∈ p.state.drainCancellations → a.policy ≠ .cancelOnDrain none)
    (hpending : ∀ k ∈ stage.dueTokens, k ∈ t.stage.dueTokens ∨
      Due c (stepTask c w i t choice) k w.pool.now)
    (hcancelled : ∀ k instant, (k, instant) ∈ p.cancelled →
      (k, instant) ∈ w.pool.cancelled ∨ Due c (stepTask c w i t choice) k instant) :
    Signals c (stepTask c w i t choice) := by
  have hpool : (ClientPool.stepTask c w i t choice).pool = p := by
    rw [ClientPool.stepTask, hact]
  have hkept {k instant : Nat} (hdue : Due c w k instant) :
      Due c (ClientPool.stepTask c w i t choice) k instant :=
    hdue.stepTask hi choice (by rw [hact]; exact hstarted)
  have hstage : (act c i t choice w.pool).1 = stage := by rw [hact]
  constructor
  · rw [hpool, hnow]
    exact hbegan
  · rw [hpool]
    intro id a hmem
    rw [stepTask_get hi, hstage]
    rcases hlisted id a hmem with ⟨htoken, hpolicy, hregistration⟩ | ⟨htoken, hmem⟩
    · exact ⟨_, if_pos htoken.symm, hpolicy.symm, hregistration⟩
    · rw [if_neg (Ne.symm htoken)]
      exact h.listed id a hmem
  · rw [hpool]
    exact hprompt
  · intro t' ht' k hk
    rw [hpool, hnow]
    rcases mem_set_cases ht' with rfl | hother
    · rcases hpending k (by rw [← hstage]; exact hk) with hbefore | hdue
      · exact hkept (h.pending t (mem_of_getElem? hi) k hbefore)
      · exact hdue
    · exact hkept (h.pending t' hother k hk)
  · rw [hpool]
    intro k instant hmem
    rcases hcancelled k instant hmem with hbefore | hdue
    · exact hkept (h.cancelled k instant hbefore)
    · exact hdue

theorem Signals.listed_cases (h : Signals c w) (hi : w.tasks[i]? = some t) {id : Nat}
    {a : ActiveCancellation} (hmem : (id, a) ∈ w.pool.state.drainCancellations) :
    (a.token = i ∧ a.policy = t.policy ∧ t.stage.registration = some id) ∨
      (a.token ≠ i ∧ (id, a) ∈ w.pool.state.drainCancellations) := by
  by_cases htoken : a.token = i
  · obtain ⟨t', ht', hpolicy, hregistration⟩ := h.listed id a hmem
    rw [htoken, hi] at ht'
    cases ht'
    exact Or.inl ⟨htoken, hpolicy.symm, hregistration⟩
  · exact Or.inr ⟨htoken, hmem⟩

theorem Signals.plain (h : Signals c w) (hi : w.tasks[i]? = some t) (choice : Choice)
    (hsignals : t.stage.signals = false) : Signals c (stepTask c w i t choice) := by
  have hplain := act_plain (c := c) (p := w.pool) i choice hsignals
  obtain ⟨hlike, htable, hcancelled, hnow⟩ := hplain
  have hact : act c i t choice w.pool =
      ((act c i t choice w.pool).1, (act c i t choice w.pool).2) := rfl
  apply h.of_step hi choice hact hnow
  · intro started hstarted
    rw [htable.started, hstarted]
  · rw [htable.started]
    exact h.began
  · rw [htable.table, hlike.registration]
    exact fun id a hmem => h.listed_cases hi hmem
  · rw [htable.started, htable.table]
    exact h.prompt
  · rw [hlike.dueTokens]
    exact fun k hk => Or.inl hk
  · rw [hcancelled]
    exact fun k instant hmem => Or.inl hmem

theorem Signals.cancelToken (h : Signals c w) (hi : w.tasks[i]? = some t) (choice : Choice)
    {token : Nat} {tokens : List Nat} {next : Stage}
    (hstage : t.stage = .cancelTokens (token :: tokens) next) :
    Signals c (stepTask c w i t choice) := by
  have hact : act c i t choice w.pool = (.cancelTokens tokens next,
      { w.pool with cancelled := (token, w.pool.now) :: w.pool.cancelled }) := by
    rw [act, hstage]
  have hdue : Due c w token w.pool.now := by
    apply h.pending t (mem_of_getElem? hi)
    rw [hstage]
    exact mem_cons_self
  apply h.of_step hi choice hact rfl
  · exact fun started hstarted => hstarted
  · exact h.began
  · intro id a hmem
    have hcases := h.listed_cases hi hmem
    rwa [hstage] at hcases
  · exact h.prompt
  · intro k hk
    rw [hstage]
    exact Or.inl (mem_cons_of_mem _ hk)
  · intro k instant hmem
    rcases mem_cons.mp hmem with heq | hmem
    · cases heq
      exact Or.inr (hdue.stepTask hi choice (by rw [hact]; exact fun _ h => h))
    · exact Or.inl hmem

theorem Signals.unregister (h : Signals c w) (hi : w.tasks[i]? = some t) (choice : Choice)
    {id : Nat} {entry : Option Entry} (hstage : t.stage = .unregister (some id) entry) :
    Signals c (stepTask c w i t choice) := by
  have hact : act c i t choice w.pool =
      (.notify (afterLease entry), w.pool.withState (unregisterActive id w.pool.state)) := by
    rw [act, hstage]
  apply h.of_step hi choice hact rfl
  · exact fun started hstarted => hstarted
  · exact h.began
  · intro id' a hmem
    obtain ⟨hmem, hne⟩ := mem_filter.mp hmem
    rcases h.listed_cases hi hmem with ⟨-, -, hregistration⟩ | hother
    · rw [hstage] at hregistration
      cases hregistration
      rw [bne_self_eq_false] at hne
      cases hne
    · exact Or.inr hother
  · exact fun hstarted id' a hmem => h.prompt hstarted id' a (mem_filter.mp hmem).1
  · intro k hk
    cases entry <;> cases hk
  · exact fun k instant hmem => Or.inl hmem

theorem takeDue_spec (c : Config) (now : Nat) {s : State} (h : s.drainStarted = some started) :
    takeDueCancellations c now s =
      ((s.drainCancellations.filter fun active => dueAt c started now active.2.policy).map
          fun active => active.2.token,
        { s with drainCancellations :=
          s.drainCancellations.filter fun active => !dueAt c started now active.2.policy }) := by
  rw [takeDueCancellations, h]

theorem Signals.due_taken (h : Signals c w) {now : Nat}
    (hk : k ∈ (w.pool.state.drainCancellations.filter fun active =>
      dueAt c started now active.2.policy).map fun active => active.2.token) :
    ∃ t, w.tasks[k]? = some t ∧ dueAt c started now t.policy = true := by
  obtain ⟨⟨id, a⟩, hmem, rfl⟩ := mem_map.mp hk
  obtain ⟨hmem, hdue⟩ := mem_filter.mp hmem
  obtain ⟨t, ht, hpolicy, -⟩ := h.listed id a hmem
  exact ⟨t, ht, hpolicy ▸ hdue⟩

theorem drainFirst_spec (c : Config) (now : Nat) (s : State) :
    (drainFirst c now s).2.1 = (s.drainCancellations.filter fun active =>
        dueAt c (s.drainStarted.getD now) (s.drainStarted.getD now) active.2.policy).map
          (fun active => active.2.token) ∧
    (drainFirst c now s).2.2.drainCancellations = s.drainCancellations.filter (fun active =>
        !dueAt c (s.drainStarted.getD now) (s.drainStarted.getD now) active.2.policy) ∧
    (drainFirst c now s).2.2.drainStarted = some (s.drainStarted.getD now) := by
  have hspec := takeDue_spec c (s.drainStarted.getD now)
    (s := (retireIdle (beginDrain now s)).2) rfl
  dsimp only [drainFirst]
  rw [hspec]
  exact ⟨rfl, rfl, rfl⟩

theorem not_none_of_not_due {now : Nat} {policy : ActiveRequestPolicy}
    (h : (!dueAt c started now policy) = true) : policy ≠ .cancelOnDrain none := by
  rintro rfl
  cases h

theorem Signals.started_le (h : Signals c w) :
    w.pool.state.drainStarted.getD w.pool.now ≤ w.pool.now := by
  cases hstarted : w.pool.state.drainStarted with
  | none => exact Nat.le_refl _
  | some started => exact h.began started hstarted

theorem Signals.drain (h : Signals c w) (hi : w.tasks[i]? = some t) (choice : Choice)
    (hstage : t.stage = .drain) : Signals c (stepTask c w i t choice) := by
  obtain ⟨hdue, htable, hstarted⟩ := drainFirst_spec c w.pool.now w.pool.state
  have hact : act c i t choice w.pool =
      (.drop (drainFirst c w.pool.now w.pool.state).1 (.cancelTokens
        (drainFirst c w.pool.now w.pool.state).2.1 (.closeAdmission (.notify .drainListen))),
        w.pool.withState (drainFirst c w.pool.now w.pool.state).2.2) := by
    rw [act, hstage]
  have hbegun : (act c i t choice w.pool).2.state.drainStarted =
      some (w.pool.state.drainStarted.getD w.pool.now) := by
    rw [hact]
    exact hstarted
  apply h.of_step hi choice hact rfl
  · intro started hbefore
    rw [Pool.withState, hstarted, hbefore]
    rfl
  · intro started hafter
    rw [Pool.withState, hstarted] at hafter
    cases hafter
    exact h.started_le
  · intro id a hmem
    rw [Pool.withState, htable] at hmem
    have hcases := h.listed_cases hi (mem_filter.mp hmem).1
    rw [hstage] at hcases
    rcases hcases with ⟨-, -, hnone⟩ | hother
    · cases hnone
    · exact Or.inr ⟨hother.1, (mem_filter.mp hmem).1⟩
  · intro _ id a hmem
    rw [Pool.withState, htable] at hmem
    exact not_none_of_not_due (mem_filter.mp hmem).2
  · intro k hk
    rw [Stage.dueTokens, Stage.dueTokens, hdue] at hk
    rcases mem_append.mp hk with hk | hk
    · obtain ⟨t', ht', hdue'⟩ := h.due_taken hk
      exact Or.inr (due_of_step hi choice hbegun ht' (dueAt_mono hdue' h.started_le))
    · cases hk
  · exact fun k instant hmem => Or.inl hmem

theorem Signals.drainLook (h : Signals c w) (hi : w.tasks[i]? = some t) (choice : Choice)
    {seen : Nat} (hstage : t.stage = .drainLook seen) : Signals c (stepTask c w i t choice) := by
  rcases drainTurn_cases c w.pool.now w.pool.state with ⟨-, hturn⟩ | ⟨-, hturn⟩
  · have hact : act c i t choice w.pool = (.notify (.done .drained),
        w.pool.withState { w.pool.state with status := .closed }) := by
      rw [act, hstage]
      dsimp only
      rw [hturn]
    apply h.of_step hi choice hact rfl
    · exact fun started hstarted => hstarted
    · exact h.began
    · intro id a hmem
      have hcases := h.listed_cases hi hmem
      rwa [hstage] at hcases
    · exact h.prompt
    · intro k hk
      cases hk
    · exact fun k instant hmem => Or.inl hmem
  · have hact : act c i t choice w.pool =
        (.cancelTokens (takeDueCancellations c w.pool.now w.pool.state).1 (.drainParked seen
          (nextActiveCancellationDeadline c (takeDueCancellations c w.pool.now w.pool.state).2)),
          w.pool.withState (takeDueCancellations c w.pool.now w.pool.state).2) := by
      rw [act, hstage]
      dsimp only
      rw [hturn]
    cases hstarted : w.pool.state.drainStarted with
    | none =>
      have hnothing : takeDueCancellations c w.pool.now w.pool.state = ([], w.pool.state) := by
        rw [takeDueCancellations, hstarted]
      rw [hnothing] at hact
      apply h.of_step hi choice hact rfl
      · exact fun started hstarted => hstarted
      · exact h.began
      · intro id a hmem
        have hcases := h.listed_cases hi hmem
        rwa [hstage] at hcases
      · exact h.prompt
      · intro k hk
        cases hk
      · exact fun k instant hmem => Or.inl hmem
    | some started =>
      have hspec := takeDue_spec c w.pool.now hstarted
      rw [hspec] at hact
      have hbegun : (act c i t choice w.pool).2.state.drainStarted = some started := by
        rw [hact]
        exact hstarted
      apply h.of_step hi choice hact rfl
      · exact fun started hstarted => hstarted
      · exact h.began
      · intro id a hmem
        have hcases := h.listed_cases hi (mem_filter.mp hmem).1
        rw [hstage] at hcases
        rcases hcases with ⟨-, -, hnone⟩ | hother
        · cases hnone
        · exact Or.inr ⟨hother.1, (mem_filter.mp hmem).1⟩
      · intro _ id a hmem
        exact not_none_of_not_due (mem_filter.mp hmem).2
      · intro k hk
        rw [Stage.dueTokens] at hk
        rcases mem_append.mp hk with hk | hk
        · obtain ⟨t', ht', hdue'⟩ := h.due_taken hk
          exact Or.inr (due_of_step hi choice hbegun ht' hdue')
        · cases hk
      · exact fun k instant hmem => Or.inl hmem

theorem register_cases (c : Config) (me : Nat) (policy : ActiveRequestPolicy) (p : Pool) :
    (policy = .preserve ∧ register c me policy p = (none, p)) ∨
    (policy ≠ .preserve ∧ (∃ started, p.state.drainStarted = some started ∧
        dueAt c started p.now policy = true) ∧
      register c me policy p = (none, { p with
        state := { p.state with nextActiveId := (p.state.nextActiveId + 1) % 2 ^ 64 }
        cancelled := (me, p.now) :: p.cancelled })) ∨
    (policy ≠ .preserve ∧ cancelNow c p.now p.state policy = false ∧
      register c me policy p = (some p.state.nextActiveId, p.withState { p.state with
        nextActiveId := (p.state.nextActiveId + 1) % 2 ^ 64
        drainCancellations := (p.state.nextActiveId, { policy, token := me }) ::
          p.state.drainCancellations.filter fun active =>
            active.1 != p.state.nextActiveId })) := by
  by_cases hpolicy : policy = .preserve
  · exact Or.inl ⟨hpolicy, if_pos hpolicy⟩
  right
  unfold register
  rw [if_neg hpolicy]
  cases hnow : cancelNow c p.now p.state policy with
  | true =>
    refine Or.inl ⟨hpolicy, ?_, ?_⟩
    · unfold cancelNow at hnow
      cases hstarted : p.state.drainStarted with
      | none =>
        rw [hstarted] at hnow
        cases hnow
      | some started =>
        rw [hstarted] at hnow
        exact ⟨started, rfl, hnow⟩
    · have hactive : registerActive c p.now policy me p.state =
          (none, { p.state with nextActiveId := (p.state.nextActiveId + 1) % 2 ^ 64 }) :=
        if_pos hnow
      rw [hactive]
      rfl
  | false =>
    refine Or.inr ⟨hpolicy, rfl, ?_⟩
    have hactive : registerActive c p.now policy me p.state = (some p.state.nextActiveId,
        { p.state with
          nextActiveId := (p.state.nextActiveId + 1) % 2 ^ 64
          drainCancellations := (p.state.nextActiveId, { policy, token := me }) ::
            p.state.drainCancellations.filter fun active =>
              active.1 != p.state.nextActiveId }) :=
      if_neg (by rw [show cancelNow c p.now { p.state with
        nextActiveId := (p.state.nextActiveId + 1) % 2 ^ 64 } policy = false from hnow]; decide)
    rw [hactive]
    rfl

def registered (entry : Entry) (created : Bool) (registration : Option Nat) : Stage :=
  notifyIf registration.isSome
    (if created then .finishing entry registration else .leased entry registration)

theorem registered_registration {registration : Option Nat} :
    (registered entry created registration).registration = registration := by
  cases registration <;> cases created <;> rfl

theorem registered_dueTokens {registration : Option Nat} :
    (registered entry created registration).dueTokens = [] := by
  cases registration <;> cases created <;> rfl

theorem act_registering {p : Pool} (hstage : t.stage = .registering entry created) (choice : Choice) :
    act c i t choice p = (registered entry created (register c i t.policy p).1,
      (register c i t.policy p).2) := by
  rw [act, hstage]
  rfl

theorem Signals.register (h : Signals c w) (hi : w.tasks[i]? = some t) (choice : Choice)
    (hstage : t.stage = .registering entry created) : Signals c (stepTask c w i t choice) := by
  have hact := act_registering (c := c) (i := i) (p := w.pool) hstage choice
  have hnothing {k : Nat} {registration : Option Nat}
      (hk : k ∈ (registered entry created registration).dueTokens) : False := by
    rw [registered_dueTokens] at hk
    cases hk
  have hnotmine {id : Nat} {a : ActiveCancellation}
      (hmem : (id, a) ∈ w.pool.state.drainCancellations) :
      a.token ≠ i ∧ (id, a) ∈ w.pool.state.drainCancellations := by
    have hcases := h.listed_cases hi hmem
    rw [hstage] at hcases
    rcases hcases with ⟨-, -, hnone⟩ | hother
    · cases hnone
    · exact hother
  rcases register_cases c i t.policy w.pool with ⟨-, hregister⟩ |
      ⟨-, ⟨started, hstarted, hdue⟩, hregister⟩ | ⟨hpolicy, hlater, hregister⟩
  · rw [hregister] at hact
    apply h.of_step hi choice hact rfl
    · exact fun started hstarted => hstarted
    · exact h.began
    · exact fun id a hmem => Or.inr (hnotmine hmem)
    · exact h.prompt
    · exact fun k hk => (hnothing hk).elim
    · exact fun k instant hmem => Or.inl hmem
  · rw [hregister] at hact
    apply h.of_step hi choice hact rfl
    · exact fun started hstarted => hstarted
    · exact h.began
    · exact fun id a hmem => Or.inr (hnotmine hmem)
    · exact h.prompt
    · exact fun k hk => (hnothing hk).elim
    · intro k instant hmem
      rcases mem_cons.mp hmem with heq | hmem
      · cases heq
        exact Or.inr (due_of_step hi choice (by rw [hact]; exact hstarted) hi hdue)
      · exact Or.inl hmem
  · rw [hregister] at hact
    apply h.of_step hi choice hact rfl
    · exact fun started hstarted => hstarted
    · exact h.began
    · intro id a hmem
      rcases mem_cons.mp hmem with heq | hmem
      · cases heq
        exact Or.inl ⟨rfl, rfl, registered_registration⟩
      · exact Or.inr (hnotmine (mem_filter.mp hmem).1)
    · intro hstarted id a hmem
      rcases mem_cons.mp hmem with heq | hmem
      · cases heq
        obtain ⟨started, hsome⟩ := Option.ne_none_iff_exists'.mp hstarted
        rintro hnone
        rw [cancelNow, show w.pool.state.drainStarted = some started from hsome] at hlater
        rw [show t.policy = .cancelOnDrain none from hnone] at hlater
        cases hlater
      · exact h.prompt hstarted id a (mem_filter.mp hmem).1
    · exact fun k hk => (hnothing hk).elim
    · exact fun k instant hmem => Or.inl hmem

theorem Signals.stepTask (h : Signals c w) (hi : w.tasks[i]? = some t) (choice : Choice) :
    Signals c (stepTask c w i t choice) := by
  cases hsignals : t.stage.signals with
  | false => exact h.plain hi choice hsignals
  | true =>
    cases hstage : t.stage with
    | registering entry created => exact h.register hi choice hstage
    | drain => exact h.drain hi choice hstage
    | drainLook seen => exact h.drainLook hi choice hstage
    | unregister registration entry =>
      cases registration with
      | some id => exact h.unregister hi choice hstage
      | none =>
        rw [hstage] at hsignals
        cases hsignals
    | cancelTokens tokens next =>
      cases tokens with
      | cons token tokens => exact h.cancelToken hi choice hstage
      | nil =>
        rw [hstage] at hsignals
        cases hsignals
    | _ =>
      rw [hstage] at hsignals
      cases hsignals

theorem Call.task_signals (c : Config) (now : Nat) (call : Call) :
    (call.task c now).stage.registration = none ∧ (call.task c now).stage.dueTokens = [] ∧
      (call.task c now).stage.leasing = false ∧ (call.task c now).stage.mayRegister ≤ 1 := by
  cases call with
  | acquire policy | acquireCancellable policy =>
    rcases Call.acquireTask_stage c now policy _ with h | h
    · rw [Call.task, h]
      exact ⟨rfl, rfl, rfl, Nat.le_refl _⟩
    · rw [Call.task, h]
      exact ⟨rfl, rfl, rfl, Nat.zero_le _⟩
  | _ => exact ⟨rfl, rfl, rfl, by first | exact Nat.le_refl _ | exact Nat.zero_le _⟩

theorem getElem?_begin {t' : Task} (hk : w.tasks[k]? = some t') (task : Task) :
    (w.tasks ++ [task])[k]? = some t' := by
  obtain ⟨hlt, -⟩ := List.getElem?_eq_some_iff.mp hk
  rw [getElem?_append_left hlt, hk]

theorem Signals.begin (h : Signals c w) (call : Call) :
    Signals c { w with tasks := w.tasks ++ [call.task c w.pool.now] } := by
  have hkept {k instant : Nat} (hdue : Due c w k instant) :
      Due c { w with tasks := w.tasks ++ [call.task c w.pool.now] } k instant := by
    obtain ⟨started, t', hstarted, hk, hdue⟩ := hdue
    exact ⟨started, t', hstarted, getElem?_begin hk _, hdue⟩
  constructor
  · exact h.began
  · intro id a hmem
    obtain ⟨t', ht', hlisted⟩ := h.listed id a hmem
    exact ⟨t', getElem?_begin ht' _, hlisted⟩
  · exact h.prompt
  · intro t' ht' k hk
    rcases mem_append.mp ht' with ht' | ht'
    · exact hkept (h.pending t' ht' k hk)
    · rw [mem_singleton.mp ht', (call.task_signals c w.pool.now).2.1] at hk
      cases hk
  · exact fun k instant hmem => hkept (h.cancelled k instant hmem)

theorem getElem?_cancel {t' : Task} (hi : w.tasks[i]? = some t) (hk : w.tasks[k]? = some t') :
    ∃ t'' : Task,
      (w.tasks.set i t.cancel)[k]? = some t'' ∧
        t''.policy = t'.policy ∧ t''.stage = t'.stage := by
  obtain ⟨hlt, -⟩ := List.getElem?_eq_some_iff.mp hi
  by_cases hik : i = k
  · subst hik
    rw [hi] at hk
    cases hk
    exact ⟨_, getElem?_set_self hlt, rfl, rfl⟩
  · exact ⟨t', by rw [getElem?_set_ne hik, hk], rfl, rfl⟩

theorem Signals.cancel (h : Signals c w) (hi : w.tasks[i]? = some t) :
    Signals c { w with tasks := w.tasks.set i t.cancel } := by
  have hkept {k instant : Nat} (hdue : Due c w k instant) :
      Due c { w with tasks := w.tasks.set i t.cancel } k instant := by
    obtain ⟨started, t', hstarted, hk, hdue⟩ := hdue
    obtain ⟨t'', ht'', hpolicy, -⟩ := getElem?_cancel hi hk
    exact ⟨started, t'', hstarted, ht'', hpolicy.symm ▸ hdue⟩
  constructor
  · exact h.began
  · intro id a hmem
    obtain ⟨t', ht', hpolicy, hregistration⟩ := h.listed id a hmem
    obtain ⟨t'', ht'', hpolicy', hstage⟩ := getElem?_cancel hi ht'
    exact ⟨t'', ht'', hpolicy'.trans hpolicy, hstage.symm ▸ hregistration⟩
  · exact h.prompt
  · intro t' ht' k hk
    rcases mem_set_cases ht' with rfl | ht'
    · exact hkept (h.pending t (mem_of_getElem? hi) k hk)
    · exact hkept (h.pending t' ht' k hk)
  · exact fun k instant hmem => hkept (h.cancelled k instant hmem)

theorem Signals.tick (h : Signals c w) (duration : Nat) :
    Signals c { w with pool := { w.pool with now := w.pool.now + duration } } := by
  constructor
  · exact fun started hstarted => Nat.le_add_right_of_le (h.began started hstarted)
  · exact h.listed
  · exact h.prompt
  · intro t' ht' k hk
    obtain ⟨started, t'', hstarted, hk', hdue⟩ := h.pending t' ht' k hk
    exact ⟨started, t'', hstarted, hk', dueAt_mono hdue (Nat.le_add_right _ _)⟩
  · exact h.cancelled

end

theorem Signals.init (c : Config) : Signals c .init where
  began := fun started h => by cases h
  listed := fun id a h => by cases h
  prompt := fun h => absurd rfl h
  pending := fun t h => by cases h
  cancelled := fun k instant h => by cases h

theorem Signals.exec {c : Config} {w : World} (h : Signals c w) (op : Op) :
    Signals c (exec c w op) := by
  apply exec_cases c h
  · exact fun call => h.begin call
  · exact fun i t choice hi => h.stepTask hi choice
  · exact fun i t hi => h.cancel hi
  · exact fun duration => h.tick duration

end ClientPool
