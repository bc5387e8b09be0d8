import Orbit.Client.Cancellation

/-! A request that is cancelled at once on drain is: its registration stands until a drain takes
its token, as long as the registration ids have not gone round. -/

open Orbit.Atomic List Option

namespace ClientPool

/-- The token of call `k` was cancelled, or a drain is about to cancel it. -/
def Signalled (w : World) (k : Nat) : Prop :=
  (∃ instant, (k, instant) ∈ w.pool.cancelled) ∨ ∃ t ∈ w.tasks, k ∈ t.stage.dueTokens

/-- A lease that drain cancels at once is registered before the drain and signalled after it. -/
def Standing (w : World) (k : Nat) (t : Task) : Prop :=
  (w.pool.state.drainStarted = none ∧ ∃ id, t.stage.registration = some id ∧
    (id, { policy := .cancelOnDrain none, token := k }) ∈ w.pool.state.drainCancellations) ∨
  (w.pool.state.drainStarted ≠ none ∧ Signalled w k)

structure Prompt (c : Config) (w : World) : Prop where
  signals : Signals c w
  room : w.pool.state.nextActiveId + total (fun t => t.stage.mayRegister) w.tasks ≤
    w.tasks.length
  below : ∀ (k : Nat) (t : Task) id, w.tasks[k]? = some t → t.stage.registration = some id →
    id < w.pool.state.nextActiveId
  apart : ∀ (k k' : Nat) (t t' : Task) id, w.tasks[k]? = some t → w.tasks[k']? = some t' →
    t.stage.registration = some id → t'.stage.registration = some id → k = k'
  standing : ∀ (k : Nat) (t : Task), w.tasks[k]? = some t → t.policy = .cancelOnDrain none →
    t.stage.leasing = true → Standing w k t

section

variable {c : Config} {w : World} {i : Nat} {t : Task}

theorem Signalled.stepTask {k : Nat} (h : Signalled w k) (hi : w.tasks[i]? = some t)
    (choice : Choice)
    (hcancelled : ∀ x ∈ w.pool.cancelled, x ∈ (act c i t choice w.pool).2.cancelled)
    (hdue : ∀ k ∈ t.stage.dueTokens, k ∈ (act c i t choice w.pool).1.dueTokens ∨
      ∃ instant, (k, instant) ∈ (act c i t choice w.pool).2.cancelled) :
    Signalled (stepTask c w i t choice) k := by
  rcases h with ⟨instant, hmem⟩ | ⟨t', ht', hk⟩
  · exact Or.inl ⟨instant, hcancelled _ hmem⟩
  · by_cases hne : t' = t
    · subst hne
      rcases hdue k hk with hafter | hafter
      · exact Or.inr ⟨_, mem_stepTask hi choice, hafter⟩
      · exact Or.inl hafter
    · exact Or.inr ⟨t', mem_stepTask_of_ne hi choice ht' hne, hk⟩

theorem Prompt.of_step (h : Prompt c w) (hi : w.tasks[i]? = some t) (choice : Choice)
    {stage : Stage} {p : Pool} (hact : act c i t choice w.pool = (stage, p))
    (hroom : p.state.nextActiveId + stage.mayRegister ≤
      w.pool.state.nextActiveId + t.stage.mayRegister)
    (hnext : w.pool.state.nextActiveId ≤ p.state.nextActiveId)
    (hregistration : ∀ id, stage.registration = some id → t.stage.registration = some id ∨
      (id = w.pool.state.nextActiveId ∧ p.state.nextActiveId = w.pool.state.nextActiveId + 1))
    (hown : t.policy = .cancelOnDrain none → stage.leasing = true →
      Standing (stepTask c w i t choice) i { t with stage := stage })
    (hothers : ∀ k t', i ≠ k → w.tasks[k]? = some t' → Standing w k t' →
      Standing (stepTask c w i t choice) k t') :
    Prompt c (stepTask c w i t choice) := by
  have hpool : (stepTask c w i t choice).pool = p := by
    rw [stepTask, hact]
  have hstage : (act c i t choice w.pool).1 = stage := by rw [hact]
  have hbelow {k id : Nat} {t' : Task} (hk : w.tasks[k]? = some t')
      (hid : t'.stage.registration = some id) : id < p.state.nextActiveId :=
    Nat.lt_of_lt_of_le (h.below k t' id hk hid) hnext
  constructor
  · exact h.signals.stepTask hi choice
  · have hbefore := h.room
    rw [total_eq hi] at hbefore
    rw [hpool]
    simp only [stepTask, total_set hi, length_set, hstage]
    omega
  · intro k t' id hk hid
    rw [stepTask_get hi, hstage] at hk
    rw [hpool]
    split at hk
    · cases hk
      rcases hregistration id hid with hbefore | ⟨hnew, hlater⟩
      · exact hbelow hi hbefore
      · omega
    · exact hbelow hk hid
  · intro k k' t' t'' id hk hk' hid hid'
    rw [stepTask_get hi, hstage] at hk hk'
    have hmine {j : Nat} {u : Task} (hij : i ≠ j) (hj : w.tasks[j]? = some u)
        (hmine : stage.registration = some id) (hother : u.stage.registration = some id) :
        False := by
      rcases hregistration id hmine with hbefore | ⟨hnew, -⟩
      · exact hij (h.apart i j t u id hi hj hbefore hother)
      · have := h.below j u id hj hother
        omega
    split at hk <;> split at hk'
    case isTrue.isTrue h1 h2 => exact h1.symm.trans h2
    case isTrue.isFalse h1 h2 =>
      cases hk
      exact (hmine h2 hk' hid hid').elim
    case isFalse.isTrue h1 h2 =>
      cases hk'
      exact (hmine h1 hk hid' hid).elim
    case isFalse.isFalse => exact h.apart k k' t' t'' id hk hk' hid hid'
  · intro k t' hk hpolicy hleasing
    rw [stepTask_get hi, hstage] at hk
    split at hk
    case isTrue hik =>
      subst hik
      cases hk
      exact hown hpolicy hleasing
    case isFalse hik => exact hothers k t' hik hk (h.standing k t' hk hpolicy hleasing)

theorem Standing.keep {k : Nat} {t' t'' : Task} (h : Standing w k t')
    (hi : w.tasks[i]? = some t) (choice : Choice) {stage : Stage} {p : Pool}
    (hact : act c i t choice w.pool = (stage, p))
    (hregistration : t''.stage.registration = t'.stage.registration)
    (htable : ∀ id, t'.stage.registration = some id →
      (id, { policy := .cancelOnDrain none, token := k }) ∈ w.pool.state.drainCancellations →
      (id, { policy := .cancelOnDrain none, token := k }) ∈ p.state.drainCancellations)
    (hstarted : p.state.drainStarted = w.pool.state.drainStarted)
    (hcancelled : ∀ x ∈ w.pool.cancelled, x ∈ p.cancelled)
    (hdue : ∀ k ∈ t.stage.dueTokens, k ∈ stage.dueTokens ∨
      ∃ instant, (k, instant) ∈ p.cancelled) :
    Standing (stepTask c w i t choice) k t'' := by
  have hpool : (stepTask c w i t choice).pool = p := by
    rw [stepTask, hact]
  rcases h with ⟨hnone, id, hid, hmem⟩ | ⟨hsome, hsignalled⟩
  · left
    rw [hpool, hstarted, hregistration]
    exact ⟨hnone, id, hid, htable id hid hmem⟩
  · right
    rw [hpool, hstarted]
    refine ⟨hsome, hsignalled.stepTask hi choice ?_ ?_⟩
    · rw [hact]
      exact hcancelled
    · rw [hact]
      exact hdue

theorem Prompt.plain (h : Prompt c w) (hi : w.tasks[i]? = some t) (choice : Choice)
    (hsignals : t.stage.signals = false) : Prompt c (stepTask c w i t choice) := by
  obtain ⟨hlike, htable, hcancelled, -⟩ := act_plain (c := c) (p := w.pool) i choice hsignals
  have hact : act c i t choice w.pool =
      ((act c i t choice w.pool).1, (act c i t choice w.pool).2) := rfl
  have hkeep {k : Nat} {t' t'' : Task} (hstands : Standing w k t')
      (hregistration : t''.stage.registration = t'.stage.registration) :
      Standing (ClientPool.stepTask c w i t choice) k t'' := by
    apply hstands.keep hi choice hact hregistration
    · rw [htable.table]
      exact fun id hid hmem => hmem
    · exact htable.started
    · rw [hcancelled]
      exact fun x hx => hx
    · rw [hlike.dueTokens]
      exact fun k hk => Or.inl hk
  apply h.of_step hi choice hact
  · rw [htable.next]
    exact Nat.add_le_add_left hlike.mayRegister _
  · exact Nat.le_of_eq htable.next.symm
  · rw [hlike.registration]
    exact fun id hid => Or.inl hid
  · intro hpolicy hleasing
    exact hkeep (h.standing i t hi hpolicy (hlike.leasing hleasing)) hlike.registration
  · exact fun k t' _ _ hstands => hkeep hstands rfl

theorem Prompt.cancelToken (h : Prompt c w) (hi : w.tasks[i]? = some t) (choice : Choice)
    {token : Nat} {tokens : List Nat} {next : Stage}
    (hstage : t.stage = .cancelTokens (token :: tokens) next) :
    Prompt c (stepTask c w i t choice) := by
  have hact : act c i t choice w.pool = (.cancelTokens tokens next,
      { w.pool with cancelled := (token, w.pool.now) :: w.pool.cancelled }) := by
    rw [act, hstage]
  have hkeep {k : Nat} {t' t'' : Task} (hstands : Standing w k t')
      (hregistration : t''.stage.registration = t'.stage.registration) :
      Standing (ClientPool.stepTask c w i t choice) k t'' := by
    apply hstands.keep hi choice hact hregistration
    · exact fun id hid hmem => hmem
    · rfl
    · exact fun x hx => mem_cons_of_mem _ hx
    · intro k hk
      rw [hstage] at hk
      rcases mem_cons.mp hk with rfl | hk
      · exact Or.inr ⟨w.pool.now, mem_cons_self⟩
      · exact Or.inl hk
  apply h.of_step hi choice hact
  · rw [hstage]
    exact Nat.le_refl _
  · exact Nat.le_refl _
  · rw [hstage]
    exact fun id hid => Or.inl hid
  · intro hpolicy hleasing
    exact hkeep (h.standing i t hi hpolicy (hstage.symm ▸ hleasing)) (by rw [hstage]; rfl)
  · exact fun k t' _ _ hstands => hkeep hstands rfl

theorem Prompt.unregister (h : Prompt c w) (hi : w.tasks[i]? = some t) (choice : Choice)
    {id : Nat} {entry : Option Entry} (hstage : t.stage = .unregister (some id) entry) :
    Prompt c (stepTask c w i t choice) := by
  have hact : act c i t choice w.pool =
      (.notify (afterLease entry), w.pool.withState (unregisterActive id w.pool.state)) := by
    rw [act, hstage]
  apply h.of_step hi choice hact
  · rw [hstage]
    cases entry <;> exact Nat.le_refl _
  · exact Nat.le_refl _
  · intro id' hid
    cases entry <;> cases hid
  · intro _ hleasing
    cases entry <;> cases hleasing
  · intro k t' hik hk hstands
    apply hstands.keep hi choice hact rfl
    · intro id' hid hmem
      apply mem_filter.mpr
      refine ⟨hmem, ?_⟩
      rw [bne_iff_ne]
      rintro rfl
      exact hik (h.apart i k t t' id' hi hk (by rw [hstage]; rfl) hid)
    · rfl
    · exact fun x hx => hx
    · intro k hk
      rw [hstage] at hk
      cases hk

theorem Prompt.drain (h : Prompt c w) (hi : w.tasks[i]? = some t) (choice : Choice)
    (hstage : t.stage = .drain) : Prompt c (stepTask c w i t choice) := by
  obtain ⟨hdue, htable, hstarted⟩ := drainFirst_spec c w.pool.now w.pool.state
  have hnext : (drainFirst c w.pool.now w.pool.state).2.2.nextActiveId =
      w.pool.state.nextActiveId := by
    dsimp only [drainFirst]
    rw [takeDue_spec c _ (s := (retireIdle (beginDrain w.pool.now w.pool.state)).2) rfl]
    rfl
  have hact : act c i t choice w.pool =
      (.drop (drainFirst c w.pool.now w.pool.state).1 (.cancelTokens
        (drainFirst c w.pool.now w.pool.state).2.1 (.closeAdmission (.notify .drainListen))),
        w.pool.withState (drainFirst c w.pool.now w.pool.state).2.2) := by
    rw [act, hstage]
  apply h.of_step hi choice hact
  · rw [Pool.withState, hnext]
    exact Nat.le_add_right _ _
  · exact Nat.le_of_eq hnext.symm
  · intro id hid
    cases hid
  · intro _ hleasing
    cases hleasing
  · intro k t' hik hk hstands
    right
    have hpool : (stepTask c w i t choice).pool.state.drainStarted ≠ none := by
      rw [stepTask, hact]
      dsimp only [Pool.withState]
      rw [hstarted]
      exact some_ne_none _
    refine ⟨hpool, ?_⟩
    rcases hstands with ⟨hnone, id, hid, hmem⟩ | ⟨-, hsignalled⟩
    · refine Or.inr ⟨_, mem_stepTask hi choice, ?_⟩
      rw [hact, Stage.dueTokens, Stage.dueTokens, hdue]
      apply mem_append_left
      exact List.mem_map.mpr ⟨_, mem_filter.mpr ⟨hmem, rfl⟩, rfl⟩
    · apply hsignalled.stepTask hi choice
      · rw [hact]
        exact fun x hx => hx
      · intro k hk
        rw [hstage] at hk
        cases hk

theorem Prompt.drainLook (h : Prompt c w) (hi : w.tasks[i]? = some t) (choice : Choice)
    {seen : Nat} (hstage : t.stage = .drainLook seen) : Prompt c (stepTask c w i t choice) := by
  obtain ⟨stage, s, hact, hnext, hstarted, htable, hregistration, hleasing, hregister⟩ :
      ∃ stage s, act c i t choice w.pool = (stage, w.pool.withState s) ∧
        s.nextActiveId = w.pool.state.nextActiveId ∧
        s.drainStarted = w.pool.state.drainStarted ∧
        (w.pool.state.drainStarted = none →
          s.drainCancellations = w.pool.state.drainCancellations) ∧
        stage.registration = none ∧ stage.leasing = false ∧ stage.mayRegister = 0 := by
    rcases drainTurn_cases c w.pool.now w.pool.state with ⟨-, hturn⟩ | ⟨-, hturn⟩
    · refine ⟨.notify (.done .drained), { w.pool.state with status := .closed }, ?_, rfl, rfl,
        fun _ => rfl, rfl, rfl, rfl⟩
      rw [act, hstage]
      dsimp only
      rw [hturn]
    · refine ⟨.cancelTokens (takeDueCancellations c w.pool.now w.pool.state).1
        (.drainParked seen (nextActiveCancellationDeadline c
          (takeDueCancellations c w.pool.now w.pool.state).2)),
        (takeDueCancellations c w.pool.now w.pool.state).2, ?_, ?_, ?_, ?_, rfl, rfl, rfl⟩
      · rw [act, hstage]
        dsimp only
        rw [hturn]
      · unfold takeDueCancellations
        split <;> rfl
      · unfold takeDueCancellations
        split <;> rfl
      · intro hnone
        rw [takeDueCancellations, hnone]
  apply h.of_step hi choice hact
  · rw [hregister, Pool.withState, hnext]
    exact Nat.le_add_right _ _
  · exact Nat.le_of_eq hnext.symm
  · rw [hregistration]
    intro id hid
    cases hid
  · rw [hleasing]
    intro _ hfalse
    cases hfalse
  · intro k t' hik hk hstands
    have hpool : (stepTask c w i t choice).pool = w.pool.withState s := by
      rw [stepTask, hact]
    rcases hstands with ⟨hnone, hlisted⟩ | ⟨hsome, hsignalled⟩
    · left
      rw [hpool, Pool.withState, hstarted, htable hnone]
      exact ⟨hnone, hlisted⟩
    · right
      rw [hpool, Pool.withState, hstarted]
      refine ⟨hsome, hsignalled.stepTask hi choice ?_ ?_⟩
      · rw [hact]
        exact fun x hx => hx
      · intro k hk
        rw [hstage] at hk
        cases hk

theorem registered_mayRegister {entry : Entry} {created : Bool} {registration : Option Nat} :
    (registered entry created registration).mayRegister = 0 := by
  cases registration <;> cases created <;> rfl

theorem Prompt.register (h : Prompt c w) (hi : w.tasks[i]? = some t) (choice : Choice)
    (hfew : w.tasks.length < 2 ^ 64) {entry : Entry} {created : Bool}
    (hstage : t.stage = .registering entry created) : Prompt c (stepTask c w i t choice) := by
  have hact := act_registering (c := c) (i := i) (p := w.pool) hstage choice
  have hnothing : t.stage.dueTokens = [] := by rw [hstage]; rfl
  have hcount : (w.pool.state.nextActiveId + 1) % 2 ^ 64 = w.pool.state.nextActiveId + 1 := by
    apply Nat.mod_eq_of_lt
    have hroom := h.room
    have hone : t.stage.mayRegister = 1 := by rw [hstage]; rfl
    have hle : t.stage.mayRegister ≤ total (fun t => t.stage.mayRegister) w.tasks :=
      le_total (mem_of_getElem? hi) (fun t => t.stage.mayRegister)
    omega
  have hmay : t.stage.mayRegister = 1 := by rw [hstage]; rfl
  rcases register_cases c i t.policy w.pool with ⟨hpreserve, hregister⟩ |
      ⟨-, ⟨started, hstarted, -⟩, hregister⟩ | ⟨-, hlater, hregister⟩
  · rw [hregister] at hact
    apply h.of_step hi choice hact
    · rw [registered_mayRegister]
      exact Nat.add_le_add_left (Nat.zero_le _) _
    · exact Nat.le_refl _
    · rw [registered_registration]
      intro id hid
      cases hid
    · intro hnone
      rw [hpreserve] at hnone
      cases hnone
    · intro k t' hik hk hstands
      apply hstands.keep hi choice hact rfl
      · exact fun id hid hmem => hmem
      · rfl
      · exact fun x hx => hx
      · rw [hnothing]
        intro k hk
        cases hk
  · rw [hregister] at hact
    apply h.of_step hi choice hact
    · rw [registered_mayRegister, hmay]
      exact Nat.le_of_eq hcount
    · dsimp only
      rw [hcount]
      exact Nat.le_succ _
    · rw [registered_registration]
      intro id hid
      cases hid
    · intro _ _
      right
      rw [stepTask, hact]
      refine ⟨?_, Or.inl ⟨w.pool.now, mem_cons_self⟩⟩
      dsimp only
      rw [hstarted]
      exact some_ne_none _
    · intro k t' hik hk hstands
      apply hstands.keep hi choice hact rfl
      · exact fun id hid hmem => hmem
      · rfl
      · exact fun x hx => mem_cons_of_mem _ hx
      · rw [hnothing]
        intro k hk
        cases hk
  · rw [hregister] at hact
    apply h.of_step hi choice hact
    · rw [registered_mayRegister, hmay]
      exact Nat.le_of_eq hcount
    · dsimp only [Pool.withState]
      rw [hcount]
      exact Nat.le_succ _
    · rw [registered_registration]
      intro id hid
      cases hid
      exact Or.inr ⟨rfl, hcount⟩
    · intro hpolicy _
      left
      rw [stepTask, hact]
      constructor
      · cases hstarted : w.pool.state.drainStarted with
        | none => exact hstarted
        | some started =>
          rw [cancelNow, hstarted, show t.policy = .cancelOnDrain none from hpolicy] at hlater
          cases hlater
      · refine ⟨w.pool.state.nextActiveId, by dsimp only; exact registered_registration, ?_⟩
        rw [show t.policy = .cancelOnDrain none from hpolicy]
        exact mem_cons_self
    · intro k t' hik hk hstands
      apply hstands.keep hi choice hact rfl
      · intro id hid hmem
        apply mem_cons_of_mem
        apply mem_filter.mpr
        refine ⟨hmem, ?_⟩
        rw [bne_iff_ne]
        exact Nat.ne_of_lt (h.below k t' id hk hid)
      · rfl
      · exact fun x hx => hx
      · rw [hnothing]
        intro k hk
        cases hk

theorem Prompt.stepTask (h : Prompt c w) (hi : w.tasks[i]? = some t) (choice : Choice)
    (hfew : w.tasks.length < 2 ^ 64) : Prompt c (stepTask c w i t choice) := by
  cases hsignals : t.stage.signals with
  | false => exact h.plain hi choice hsignals
  | true =>
    cases hstage : t.stage with
    | registering entry created => exact h.register hi choice hfew hstage
    | drain => exact h.drain hi choice hstage
    | drainLook seen => exact h.drainLook hi choice hstage
    | unregister registration entry =>
      cases registration with
      | some id => exact h.unregister hi choice hstage
      | none =>
        rw [hstage] at hsignals
        cases hsignals
    | cancelTokens tokens next =>
      cases tokens with
      | cons token tokens => exact h.cancelToken hi choice hstage
      | nil =>
        rw [hstage] at hsignals
        cases hsignals
    | _ =>
      rw [hstage] at hsignals
      cases hsignals

theorem Signalled.mono {w' : World} {k : Nat} (h : Signalled w k)
    (hcancelled : w'.pool.cancelled = w.pool.cancelled)
    (htasks : ∀ t ∈ w.tasks, ∃ t' ∈ w'.tasks, t'.stage = t.stage) : Signalled w' k := by
  rcases h with ⟨instant, hmem⟩ | ⟨t, ht, hk⟩
  · exact Or.inl ⟨instant, hcancelled.symm ▸ hmem⟩
  · obtain ⟨t', ht', hstage⟩ := htasks t ht
    exact Or.inr ⟨t', ht', hstage.symm ▸ hk⟩

theorem Prompt.begin (h : Prompt c w) (call : Call) :
    Prompt c { w with tasks := w.tasks ++ [call.task c w.pool.now] } := by
  obtain ⟨hregistration, -, hleasing, hregister⟩ := call.task_signals c w.pool.now
  have hcases {k : Nat} {t' : Task}
      (hk : (w.tasks ++ [call.task c w.pool.now])[k]? = some t') :
      w.tasks[k]? = some t' ∨ t' = call.task c w.pool.now := by
    rw [getElem?_append] at hk
    split at hk
    · exact Or.inl hk
    · exact Or.inr (mem_singleton.mp (mem_of_getElem? hk))
  constructor
  · exact h.signals.begin call
  · simp only [total_append, total_cons, total_nil, length_append, length_singleton]
    have hroom := h.room
    omega
  · intro k t' id hk hid
    rcases hcases hk with hold | rfl
    · exact h.below k t' id hold hid
    · rw [hregistration] at hid
      cases hid
  · intro k k' t' t'' id hk hk' hid hid'
    rcases hcases hk with hold | rfl
    · rcases hcases hk' with hold' | rfl
      · exact h.apart k k' t' t'' id hold hold' hid hid'
      · rw [hregistration] at hid'
        cases hid'
    · rw [hregistration] at hid
      cases hid
  · intro k t' hk hpolicy hleases
    rcases hcases hk with hold | rfl
    · rcases h.standing k t' hold hpolicy hleases with hbefore | ⟨hsome, hsignalled⟩
      · exact Or.inl hbefore
      · exact Or.inr ⟨hsome, hsignalled.mono rfl
          fun t ht => ⟨t, mem_append_left _ ht, rfl⟩⟩
    · rw [hleasing] at hleases
      cases hleases

theorem Prompt.cancel (h : Prompt c w) (hi : w.tasks[i]? = some t) :
    Prompt c { w with tasks := w.tasks.set i t.cancel } := by
  have hcases {k : Nat} {t' : Task}
      (hk : (w.tasks.set i t.cancel)[k]? = some t') :
      ∃ u, w.tasks[k]? = some u ∧ t'.stage = u.stage ∧ t'.policy = u.policy := by
    rw [getElem?_set] at hk
    split at hk
    case isTrue hik =>
      subst hik
      split at hk
      · cases hk
        exact ⟨t, hi, rfl, rfl⟩
      · cases hk
    case isFalse => exact ⟨t', hk, rfl, rfl⟩
  constructor
  · exact h.signals.cancel hi
  · have hroom := h.room
    rw [total_eq hi] at hroom
    simp only [total_set hi, length_set]
    exact hroom
  · intro k t' id hk hid
    obtain ⟨u, hu, hstage, -⟩ := hcases hk
    exact h.below k u id hu (hstage ▸ hid)
  · intro k k' t' t'' id hk hk' hid hid'
    obtain ⟨u, hu, hstage, -⟩ := hcases hk
    obtain ⟨u', hu', hstage', -⟩ := hcases hk'
    exact h.apart k k' u u' id hu hu' (hstage ▸ hid) (hstage' ▸ hid')
  · intro k t' hk hpolicy hleases
    obtain ⟨u, hu, hstage, hsame⟩ := hcases hk
    rcases h.standing k u hu (hsame ▸ hpolicy) (hstage ▸ hleases) with
      ⟨hnone, hlisted⟩ | ⟨hsome, hsignalled⟩
    · exact Or.inl ⟨hnone, hstage.symm ▸ hlisted⟩
    · refine Or.inr ⟨hsome, hsignalled.mono rfl fun t' ht' => ?_⟩
      obtain ⟨j, hj⟩ := getElem?_of_mem ht'
      obtain ⟨t'', ht'', -, hsame'⟩ := getElem?_cancel hi hj
      exact ⟨t'', mem_of_getElem? ht'', hsame'⟩

theorem Prompt.tick (h : Prompt c w) (duration : Nat) :
    Prompt c { w with pool := { w.pool with now := w.pool.now + duration } } := by
  constructor
  · exact h.signals.tick duration
  · exact h.room
  · exact h.below
  · exact h.apart
  · exact h.standing

end

theorem Prompt.init (c : Config) : Prompt c .init where
  signals := Signals.init c
  room := Nat.le_refl _
  below := fun k t id h => by cases h
  apart := fun k k' t t' id h => by cases h
  standing := fun k t h => by cases h

end ClientPool
