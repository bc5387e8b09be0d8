import Orbit.Client.Ledger

/-! The clients that physically exist: a retirement that gives its unit back before it drops the
client lets a creator exceed the limit. -/

open Orbit.Atomic
open List hiding drop

namespace ClientPool

def Stage.physical : Stage → Nat
  | creating _ => 1
  | stage => stage.clients.length

def Stage.retired (stage : Stage) : Nat := stage.clients.length - (stage.creates + stage.units)

def Stage.claims (stage : Stage) : Nat := max stage.clients.length (stage.creates + stage.units)

theorem Stage.claims_eq (stage : Stage) :
    stage.claims = stage.creates + stage.units + stage.retired := by
  unfold claims retired
  omega

theorem Stage.physical_le (stage : Stage) : stage.physical ≤ stage.claims := by
  cases stage with
  | creating admitted => exact Nat.le_refl _
  | _ => exact Nat.le_max_left _ _

def World.physical (w : World) : Nat :=
  w.pool.state.idle.length + total (fun t => t.stage.physical) w.tasks

def World.retired (w : World) : Nat := total (fun t => t.stage.retired) w.tasks

/-- The pool as the next section of a call finds it: an acquirer prunes first. -/
def Pool.seenBy (c : Config) (p : Pool) : Stage → Pool
  | .look .acquire _ _ | .createLook | .idleLook _ => p.pruned c
  | _ => p

def reserves : Stage → Stage → Bool
  | .reserved _, _ => false
  | _, .reserved _ => true
  | _, _ => false

/-- A step that reserves a creation finds room for it beside the live clients and the retired
ones. -/
def RoomForRetired (c : Config) (w : World) : Op → Prop
  | .step i choice => ∀ t, w.tasks[i]? = some t →
    reserves t.stage (act c i t choice w.pool).1 = true →
      (w.pool.seenBy c t.stage).state.live + w.retired < c.options.maxLive
  | _ => True

section

variable {c : Config} {s : State} {seen : Nat} {waiting : Waiting} {entered : Bool}

theorem afterLook_claims (waiting : Waiting) (entered : Bool) (seen : Nat) (action : Action) :
    (afterLook waiting entered seen action).claims =
      (afterLook waiting entered seen action).clients.length +
        (reserves (.look waiting entered seen) (afterLook waiting entered seen action)).toNat := by
  cases action <;> rfl

theorem afterTurn_claims (action : Action) :
    (afterTurn action).claims = (afterTurn action).clients.length +
      (reserves .createLook (afterTurn action)).toNat := by
  cases action <;> rfl

theorem leave_idle : (leave entered s).idle = s.idle := by
  cases entered <;> rfl

theorem enter_idle : (enter c entered s).2.idle = s.idle := by
  unfold enter
  split
  · rfl
  split <;> rfl

theorem openTurn_idle : (openTurn c entered s).2.idle = s.idle := by
  unfold openTurn
  split
  · exact leave_idle
  · exact enter_idle
  · rfl
  · rfl

theorem length_eq_of_perm {s s' : State} {moved : List Nat}
    (h : (s'.clients ++ moved).Perm s.clients) :
    s'.idle.length + moved.length = s.idle.length := by
  have hlength := h.length_eq
  rwa [length_append, State.clients, State.clients, length_map, length_map]
    at hlength

end

theorem claims_mono {stage stage' : Stage}
    (hclients : stage'.clients.length ≤ stage.clients.length)
    (hunits : stage'.creates + stage'.units ≤ stage.creates + stage.units) :
    stage'.claims ≤ stage.claims := by
  unfold Stage.claims
  omega

theorem drainFirst_idle (c : Config) (now : Nat) (s : State) :
    (drainFirst c now s).2.2.idle = [] := by
  unfold drainFirst takeDueCancellations
  dsimp only
  split <;> rfl

theorem act_claims {c : Config} {p : Pool} {t : Task} (me : Nat) (choice : Choice) :
    (act c me t choice p).2.state.idle.length + (act c me t choice p).1.claims ≤
      (p.seenBy c t.stage).state.idle.length + t.stage.claims +
        (reserves t.stage (act c me t choice p).1).toNat := by
  unfold act
  cases hstage : t.stage <;> dsimp only
  case top waiting entered => cases t.cancelled <;> exact Nat.le_refl _
  case look waiting entered seen =>
    cases waiting
    case acquire =>
      have hlength := length_eq_of_perm
        (acquireTurn_perm c (p.pruned c).state .acquire entered seen)
      have hclaims := afterLook_claims .acquire entered seen
        (acquireTurn c entered (p.pruned c).state).1
      dsimp only [lookTurn, Pool.withState, Pool.seenBy]
      omega
    case untilOpen =>
      have hclaims := afterLook_claims .untilOpen entered seen (openTurn c entered p.state).1
      rw [(openTurn_clients .untilOpen seen).2, length_nil] at hclaims
      dsimp only [lookTurn, Pool.withState, Pool.seenBy]
      rw [openTurn_idle]
      omega
  case parked waiting seen =>
    cases waitEnds t.cancelled seen t.deadline p choice with
    | none => exact Nat.le_refl _
    | some ending => cases ending <;> exact Nat.le_refl _
  case leaving entered outcome => cases entered <;> exact Nat.le_refl _
  case createLook =>
    have hclaims := afterTurn_claims (createTurn c (p.pruned c).state).1
    have hidle := congrArg List.length (createTurn_clients (c := c) (s := (p.pruned c).state)).1
    rw [createTurn_clients.2, length_nil] at hclaims
    rw [State.clients, State.clients, length_map, length_map] at hidle
    dsimp only [Pool.withState, Pool.seenBy]
    omega
  case idleLook predicate =>
    have hlength := length_eq_of_perm (idleTurn_perm (c := c) (s := (p.pruned c).state) predicate)
    have hclaims := afterTurn_claims (idleTurn c predicate (p.pruned c).state).1
    have hreserves : reserves (.idleLook predicate)
        (afterTurn (idleTurn c predicate (p.pruned c).state).1) =
        reserves .createLook (afterTurn (idleTurn c predicate (p.pruned c).state).1) := by
      cases (idleTurn c predicate (p.pruned c).state).1 <;> rfl
    dsimp only [Pool.withState, Pool.seenBy]
    rw [hreserves]
    omega
  case discardLook predicate =>
    unfold discardIdleTurn
    cases hfound : takeIdle predicate p.state.idle with
    | none => exact Nat.le_refl _
    | some found => exact Nat.le_of_eq (takeIdle_perm hfound).length_eq.symm
  case reserved admitted =>
    cases choice <;> dsimp only
    case interrupt | shut =>
      cases operationEnds t p _ with
      | none => exact Nat.le_refl _
      | some ending => cases admitted <;> cases ending <;> exact Nat.le_refl _
    all_goals exact Nat.le_refl _
  case creating admitted =>
    cases operationEnds t p choice with
    | none => exact Nat.le_refl _
    | some ending => cases admitted <;> cases ending <;> exact Nat.le_refl _
  case recycling entry =>
    cases operationEnds t p choice with
    | none => exact Nat.le_refl _
    | some ending => cases ending <;> exact Nat.le_refl _
  case registering entry created =>
    have hclients := congrArg List.length (register_clients (c := c) (p := p) me t.policy).1
    rw [State.clients, State.clients, length_map, length_map] at hclients
    rw [hclients]
    cases (register c me t.policy p).1.isSome <;> cases created <;> exact Nat.le_refl _
  case leased entry registration => cases choice <;> exact Nat.le_refl _
  case returning entry now =>
    unfold returnEntry
    dsimp only
    split
    · exact Nat.le_of_eq (length_append)
    · exact Nat.le_refl _
  case runTop => cases t.cancelled <;> exact Nat.le_refl _
  case runPrune => exact length_filter_le _ _
  case runStats => cases p.state.status.ended <;> exact Nat.le_refl _
  case runReserve =>
    unfold reserveWarmCreate
    split <;> exact Nat.le_refl _
  case warmFinish entry =>
    unfold finishWarmCreate
    dsimp only
    split
    · exact Nat.le_refl _
    · exact Nat.le_of_eq (length_append)
  case runParked seen deadline =>
    cases waitEnds t.cancelled seen deadline p choice with
    | none => exact Nat.le_refl _
    | some ending => cases ending <;> exact Nat.le_refl _
  case close =>
    have hclaims : (Stage.drop (p.state.idle.map Entry.client)
        (.closeAdmission (.notify (.done .finished)))).claims ≤ p.state.idle.length := by
      simp [Stage.claims, Stage.clients, Stage.creates, Stage.units]
    dsimp only [closeTurn, retireIdle, Pool.seenBy, Pool.withState, State.subLive]
    rw [length_nil]
    omega
  case drain =>
    have hidle : (drainFirst c p.now p.state).2.2.idle = [] := drainFirst_idle c p.now p.state
    have hclaims : (Stage.drop (p.state.idle.map Entry.client)
        (.cancelTokens (drainFirst c p.now p.state).2.1
          (.closeAdmission (.notify .drainListen)))).claims ≤ p.state.idle.length := by
      simp [Stage.claims, Stage.clients, Stage.creates, Stage.units]
    dsimp only [Pool.seenBy, Pool.withState]
    rw [hidle, length_nil, Nat.zero_add]
    exact Nat.le_add_right_of_le (Nat.le_add_right_of_le hclaims)
  case drainLook seen =>
    have hclients := congrArg List.length (drainTurn_clients c p.now p.state)
    rw [State.clients, State.clients, length_map, length_map] at hclients
    cases hresult : drainTurn c p.now p.state with
    | mk result s =>
      rw [hresult] at hclients
      cases result <;> exact Nat.le_of_eq hclients
  case drainParked seen deadline =>
    cases waitEnds false seen deadline p choice with
    | none => exact Nat.le_refl _
    | some ending => cases ending <;> exact Nat.le_refl _
  case pause reason =>
    unfold pauseTurn
    split <;> exact Nat.le_refl _
  case resume =>
    unfold resumeTurn
    split <;> exact Nat.le_refl _
  case cancelActive => cases p.state.status.ended <;> exact Nat.le_refl _
  case maintainLook seen => cases p.state.status <;> exact Nat.le_refl _
  case maintainParked seen =>
    cases waitEnds t.cancelled seen none p choice with
    | none => exact Nat.le_refl _
    | some ending => cases ending <;> exact Nat.le_refl _
  case unregister registration entry =>
    cases registration <;> cases entry <;> exact Nat.le_refl _
  case retire next =>
    have hle : (Stage.notify next).claims ≤ (Stage.retire next).claims :=
      claims_mono (Nat.le_refl _) (Nat.le_succ _)
    exact Nat.le_add_right_of_le (Nat.add_le_add_left hle _)
  case failedCreate admitted next =>
    have hidle : (finishCreate false admitted p.state).idle = p.state.idle := by
      cases admitted <;> rfl
    dsimp only [Pool.withState]
    rw [hidle]
    have hle : (Stage.notify next).claims ≤ (Stage.failedCreate admitted next).claims := by
      apply claims_mono
      · exact Nat.le_refl _
      · exact Nat.add_le_add_right (Nat.le_succ _) _
    exact Nat.le_add_right_of_le (Nat.add_le_add_left hle _)
  case drop clients next =>
    cases clients with
    | nil => exact Nat.le_add_right _ _
    | cons first clients =>
      apply Nat.le_add_right_of_le
      apply Nat.add_le_add_left
      exact claims_mono (Nat.le_succ _) (Nat.le_refl _)
  case cancelTokens tokens next => cases tokens <;> exact Nat.le_add_right _ _
  case notify next => exact Nat.le_add_right _ _
  case closeAdmission next => exact Nat.le_add_right _ _
  all_goals exact Nat.le_refl _

def World.claimed (w : World) : Nat :=
  w.pool.state.idle.length + total (fun t => t.stage.claims) w.tasks

theorem World.physical_le (w : World) : w.physical ≤ w.claimed :=
  Nat.add_le_add_left (total_mono (fun t => t.stage.physical_le) w.tasks) _

section

variable {c : Config} {w : World} {i : Nat} {t : Task}

theorem Exact.seenBy (h : Exact c w) (stage : Stage) :
    (w.pool.seenBy c stage).state.live + w.retired =
      (w.pool.seenBy c stage).state.idle.length + total (fun t => t.stage.claims) w.tasks := by
  have hfits : Fits c (w.pool.seenBy c stage).state (total (fun t => t.stage.creates) w.tasks)
      (total (fun t => t.stage.units) w.tasks) (total (fun t => t.stage.flights) w.tasks)
      (total (fun t => t.stage.waits) w.tasks) := by
    unfold Pool.seenBy
    split
    · exact h.fits.prune w.pool.now
    · exact h.fits.prune w.pool.now
    · exact h.fits.prune w.pool.now
    · exact h.fits
  have hlive := hfits.live
  simp only [Stage.claims_eq, total_add]
  unfold World.retired
  omega

theorem seenBy_idle_le (c : Config) (p : Pool) (stage : Stage) :
    (p.seenBy c stage).state.idle.length ≤ p.state.idle.length := by
  unfold Pool.seenBy
  split
  · exact length_filter_le _ _
  · exact length_filter_le _ _
  · exact length_filter_le _ _
  · exact Nat.le_refl _

theorem claimed_stepTask (h : Exact c w) (hclaimed : w.claimed ≤ c.options.maxLive)
    (hi : w.tasks[i]? = some t) (choice : Choice)
    (hroom : RoomForRetired c w (.step i choice)) :
    (stepTask c w i t choice).claimed ≤ c.options.maxLive := by
  have hstep := act_claims (c := c) (p := w.pool) (t := t) i choice
  have hseen := h.seenBy t.stage
  have hidle := seenBy_idle_le c w.pool t.stage
  unfold World.claimed at hclaimed ⊢
  rw [total_eq hi] at hclaimed hseen
  simp only [stepTask, total_set hi]
  cases hreserves : reserves t.stage (act c i t choice w.pool).1 with
  | false =>
    rw [hreserves, Bool.toNat_false] at hstep
    omega
  | true =>
    rw [hreserves, Bool.toNat_true] at hstep
    have := hroom t hi hreserves
    omega

theorem claimed_exec (h : Exact c w) (hclaimed : w.claimed ≤ c.options.maxLive) (op : Op)
    (hroom : RoomForRetired c w op) : (exec c w op).claimed ≤ c.options.maxLive := by
  cases op with
  | begin call =>
    obtain ⟨hcreates, hunits, -, -, hclients⟩ := call.task_empty c w.pool.now
    have hnothing : (call.task c w.pool.now).stage.claims = 0 := by
      rw [Stage.claims, hcreates, hunits, hclients]
      rfl
    simp only [exec, World.claimed, total_append, total_cons, total_nil, hnothing]
    exact hclaimed
  | step i choice =>
    rw [exec]
    cases hi : w.tasks[i]? with
    | none => exact hclaimed
    | some t => exact claimed_stepTask h hclaimed hi choice hroom
  | cancel i =>
    rw [exec]
    cases hi : w.tasks[i]? with
    | none => exact hclaimed
    | some t =>
      simp only [World.claimed, total_eq hi] at hclaimed
      simp only [World.claimed, total_set hi]
      exact hclaimed
  | tick duration => exact hclaimed

end

instance (c : Config) (w : World) (op : Op) : Decidable (RoomForRetired c w op) :=
  match op with
  | .begin _ | .cancel _ | .tick _ => isTrue trivial
  | .step i choice =>
    match hi : w.tasks[i]? with
    | none => isTrue fun t ht => by rw [hi] at ht; cases ht
    | some t =>
      decidable_of_iff (reserves t.stage (act c i t choice w.pool).1 = true →
          (w.pool.seenBy c t.stage).state.live + w.retired < c.options.maxLive)
        ⟨fun h t' ht => by rw [hi] at ht; cases ht; exact h, fun h => h t hi⟩

/-- In a run whose reservations all find room for the retired clients too, no more clients than
`max_live` ever exist. -/
theorem physical_le_run {c : Config} {ops : List Op}
    (hops : Meets (exec c) (RoomForRetired c) .init ops) (n : Nat) :
    (run c (ops.take n)).physical ≤ c.options.maxLive := by
  have hholds : Exact c (run c (ops.take n)) ∧
      (run c (ops.take n)).claimed ≤ c.options.maxLive := by
    apply Meets.holds (I := fun w => Exact c w ∧ w.claimed ≤ c.options.maxLive) _ _
      (hops.take n)
    · exact fun w op h hroom => ⟨h.1.exec op, claimed_exec h.1 h.2 op hroom⟩
    · exact ⟨Exact.init c, Nat.zero_le _⟩
  exact Nat.le_trans (World.physical_le _) hholds.2

/-- A pool of one client that keeps none idle. -/
def oneClient : Config where
  options :=
    { minIdle := 0, maxIdle := 0, maxLive := 1, maxConcurrency := 2, maxWaiting := 1
      acquireTimeout := none, idleTimeout := none, maxLifetime := none }
  lastInstant := 1000
  valid := by decide

/-- One call takes this many steps that wait for nothing. -/
def steps (i n : Nat) : List Op := replicate n (.step i .go)

def createAndReturn : List Op :=
  .begin (.acquire .preserve) :: steps 0 4 ++ .step 0 .ok :: steps 0 3 ++ .step 0 .drop :: steps 0 3

/-- The client of the returned lease still exists when the next acquirer's creation has begun. -/
theorem physical_exceeds :
    ¬(run oneClient (createAndReturn ++ .begin (.acquire .preserve) :: steps 1 4)).physical ≤
      oneClient.options.maxLive := by
  decide

/-- Once the retired client is dropped the next creation finds room. -/
theorem physical_le_run_returned :
    (run oneClient ((createAndReturn ++ steps 0 4 ++ .begin (.acquire .preserve) ::
      steps 1 4).take 20)).physical ≤ 1 :=
  physical_le_run (c := oneClient) (by decide) 20

end ClientPool
