import Orbit.Cell.Coming

/-! The steps of the calls that wake.  A call that gives the waiters a reason is on its way to the wake until it
has woken them, and the recovery of a writer that has died takes its place. -/

namespace OrbitCell.Waits

open Orbit.Atomic List Function

variable {kind : Kind} {textMax : Nat} {w w' : World} {i : Nat} {owner token : UInt64} {wait : Wait}
  {waiter : Waiter} {call : Call} {stage : Stage} {task task' : Task} {late : Bool}

theorem visits_bumps (call : Call) : call.Visits kind .bumps := by cases call <;> trivial

theorem visits_wakes (call : Call) : call.Visits kind .wakes := by cases call <;> trivial

theorem visits_done (call : Call) : call.Visits kind .done := by cases call <;> trivial

theorem visits_after (call : Call) : call.Visits kind call.after := by cases call <;> trivial

variable {stage' : Stage} {slot' : Slot}

theorem not_writing_waits : ¬Task.Writing ⟨owner, .waits wait waiter⟩ := by
  rintro ⟨bytes, append, stage, hwork, -⟩
  cases hwork

theorem Inv.calls (h : Inv kind w) (hi : w.tasks[i]? = some ⟨owner, .calls call stage⟩)
    (htasks : w'.tasks = w.tasks.set i ⟨owner, .calls call stage'⟩) (hdead : w'.dead = w.dead)
    (hwaiters : w'.slot.waiters = w.slot.waiters) (hvisits : call.Visits kind stage')
    (hwriters : Writers w')
    (hhears : ∀ task ∈ w.tasks, ∀ wait waiter, task.work = .waits wait waiter →
      w.Hears kind task.owner wait waiter → w'.Hears kind task.owner wait waiter) : Inv kind w' where
  count := by
    have hold := total_eq hi Task.registered
    have hnew := total_set hi Task.registered ⟨owner, .calls call stage'⟩
    rw [hwaiters, h.count, htasks, hold, hnew]
    rfl
  hears task hmem wait waiter hwork := by
    rcases mem_of_mem_set (htasks ▸ hmem) with rfl | hmem
    · cases hwork
    · exact hhears task hmem wait waiter hwork (h.hears task hmem wait waiter hwork)
  visits task hmem call' stage₁ hwork := by
    rcases mem_of_mem_set (htasks ▸ hmem) with rfl | hmem
    · cases hwork
      exact hvisits
    · exact h.visits task hmem call' stage₁ hwork
  writers := hwriters
  recovers task hmem token stage₁ hwork := by
    rw [hdead]
    rcases mem_of_mem_set (htasks ▸ hmem) with rfl | hmem
    · cases hwork
      exact h.recovers _ (mem_of_getElem? hi) token stage rfl
    · exact h.recovers task hmem token stage₁ hwork

/-- What else a call does to a slot whose words for waiters it leaves as they are. -/
structure Slot.Same (slot slot' : Slot) : Prop where
  retired : slot'.retired = slot.retired
  changes : slot'.changes = slot.changes
  committed : slot'.committed = slot.committed
  writer : slot'.writer = slot.writer
  sequence : slot'.sequence = slot.sequence
  waiters : slot'.waiters = slot.waiters

theorem Slot.Same.refl (slot : Slot) : slot.Same slot := ⟨rfl, rfl, rfl, rfl, rfl, rfl⟩

theorem Slot.Same.version {slot : Slot} (h : slot.Same slot') (kind : Kind) :
    slot'.version kind = slot.version kind := by
  cases kind with
  | scalar => exact congrArg UInt32.toUInt64 h.changes
  | text => exact h.committed

theorem Comes.other {reason : Reason} {other : Task} (hother : other.Comes w late reason)
    (hi : w.tasks[i]? = some ⟨owner, .calls call stage⟩)
    (htasks : w'.tasks = w.tasks.set i ⟨owner, .calls call stage'⟩) (hdead : w'.dead = w.dead)
    (hwriter : w'.slot.writer = w.slot.writer)
    (hrecovers : ∀ token, Task.Recovers late token ⟨owner, .calls call stage'⟩ →
      Task.Recovers late token ⟨owner, .calls call stage⟩) : other.Comes w' late reason := by
  refine Comes.keep hother hdead fun _ _ howns hrecovered => ⟨hwriter.trans howns, fun hnow => ?_⟩
  exact hrecovered (Recovered.of_set hnow htasks hi hdead rfl (hrecovers _))

theorem Comes.self {reason : Reason} (h : Task.Comes w late reason ⟨owner, .calls call stage⟩)
    (hi : w.tasks[i]? = some ⟨owner, .calls call stage⟩)
    (htasks : w'.tasks = w.tasks.set i ⟨owner, .calls call stage'⟩) (hdead : w'.dead = w.dead)
    (halive : w.dead owner = false)
    (hstage : stage.Bumps call reason ∨ late = true ∧ stage = .wakes →
      stage'.Bumps call reason ∨ late = true ∧ stage' = .wakes) :
    Task.Comes w' late reason ⟨owner, .calls call stage'⟩ := by
  obtain ⟨call₁, stage₁, hwork, hbumps, hrelied⟩ := h
  cases hwork
  refine ⟨call, stage', rfl, hstage hbumps, ?_⟩
  cases call with
  | write bytes append => exact .inl ((congrFun hdead owner).trans halive)
  | recover token => exact hrelied.elim
  | _ => trivial

theorem Coming.step {reason : Reason} (h : w.Coming late reason)
    (hi : w.tasks[i]? = some ⟨owner, .calls call stage⟩)
    (htasks : w'.tasks = w.tasks.set i ⟨owner, .calls call stage'⟩) (hdead : w'.dead = w.dead)
    (halive : w.dead owner = false) (hwriter : w'.slot.writer = w.slot.writer)
    (hrecovers : ∀ token, Task.Recovers late token ⟨owner, .calls call stage'⟩ →
      Task.Recovers late token ⟨owner, .calls call stage⟩)
    (hstage : stage.Bumps call reason ∨ late = true ∧ stage = .wakes →
      stage'.Bumps call reason ∨ late = true ∧ stage' = .wakes) : w'.Coming late reason :=
  Coming.set h hi htasks
    (fun _ _ _ _ hother => Comes.other hother hi htasks hdead hwriter hrecovers)
    fun hself => Comes.self hself hi htasks hdead halive hstage

theorem coming_all (w' : World) (hi : w.tasks[i]? = some ⟨owner, .calls call stage⟩)
    (htasks : w'.tasks = w.tasks.set i ⟨owner, .calls call stage'⟩) (hdead : w'.dead = w.dead)
    (halive : w.dead owner = false) (hcall : ∀ token, call ≠ .recover token)
    (hstage : ∀ reason, stage'.Bumps call reason) (reason : Reason) : w'.Coming false reason := by
  refine ⟨_, htasks ▸ self_mem_set hi, call, stage', rfl, .inl (hstage reason), ?_⟩
  cases call with
  | write bytes append => exact .inl ((congrFun hdead owner).trans halive)
  | recover token => exact absurd rfl (hcall token)
  | _ => trivial

theorem Writing.of_calls (hwriting : ∀ bytes append, call = .write bytes append →
    stage'.writing = true → stage.writing = true)
    (h : Task.Writing ⟨owner, .calls call stage'⟩) : Task.Writing ⟨owner, .calls call stage⟩ := by
  obtain ⟨bytes, append, stage₁, hwork, hstage⟩ := h
  cases hwork
  exact ⟨bytes, append, stage, rfl, hwriting bytes append rfl hstage⟩

theorem Inv.passes (h : Inv kind w) (hi : w.tasks[i]? = some ⟨owner, .calls call stage⟩)
    (halive : w.dead owner = false) (hsame : w.slot.Same slot') (hvisits : call.Visits kind stage')
    (hrecovers : ∀ late token, Task.Recovers late token ⟨owner, .calls call stage'⟩ →
      Task.Recovers late token ⟨owner, .calls call stage⟩)
    (hbumps : ∀ reason, stage.Bumps call reason → stage'.Bumps call reason) (hwakes : stage ≠ .wakes)
    (hcounts : stage ≠ .counts)
    (hwriting : ∀ bytes append, call = .write bytes append →
      stage'.writing = true → stage.writing = true) :
    Inv kind (w.move i owner slot' (.calls call stage')) := by
  have hcoming : ∀ late reason, w.Coming late reason →
      (w.move i owner slot' (.calls call stage')).Coming late reason := fun late reason hold =>
    Coming.step hold hi rfl rfl halive hsame.writer (hrecovers late) fun hstage =>
      .inl (hbumps reason (hstage.resolve_right fun hlate => hwakes hlate.2))
  have hkept : Kept kind w (w.move i owner slot' (.calls call stage')) :=
    ⟨.inl (hsame.version kind), fun hretired => .inl (hsame.retired ▸ hretired), fun _ hflag => .inl hflag,
      hsame.sequence, fun _ hdead => hdead, hcoming false⟩
  refine h.calls hi rfl rfl hsame.waiters hvisits ?_ fun task _ wait waiter _ hears => ?_
  · refine h.writers.set hi rfl rfl hsame.writer rfl (Writing.of_calls hwriting) ?_
    intro bytes append stage₁ hwork
    cases hwork
    exact ⟨stage, rfl⟩
  · refine hkept.hears (fun _ hshown => ?_) (fun _ _ => hcoming true) hears
    refine Shown.keep hshown (hsame.version kind) hsame.retired (fun hdead => hdead) fun hcounting =>
      Counting.set hcounting hi rfl fun hwork => ?_
    cases hwork
    exact hcounts rfl

theorem Inv.gives (h : Inv kind w) (hi : w.tasks[i]? = some ⟨owner, .calls call stage⟩)
    (halive : w.dead owner = false) (hcall : ∀ token, call ≠ .recover token)
    (hvisits : call.Visits kind stage') (hstage : ∀ reason, stage'.Bumps call reason)
    (hwriter : slot'.writer = w.slot.writer) (hsequence : slot'.sequence = w.slot.sequence)
    (hwaiters : slot'.waiters = w.slot.waiters)
    (hwriting : ∀ bytes append, call = .write bytes append →
      stage'.writing = true → stage.writing = true)
    (hshown : ∀ task ∈ w.tasks, ∀ wait waiter, task.work = .waits wait waiter → waiter.unseen = true →
      w.Shown kind task.owner wait →
        (w.move i owner slot' (.calls call stage')).Shown kind task.owner wait) :
    Inv kind (w.move i owner slot' (.calls call stage')) := by
  have hall := coming_all (w.move i owner slot' (.calls call stage')) hi rfl rfl halive hcall
    hstage
  refine h.calls hi rfl rfl hwaiters hvisits ?_ fun task hmem wait waiter hwork hears => ?_
  · refine h.writers.set hi rfl rfl hwriter rfl (Writing.of_calls hwriting) ?_
    intro bytes append stage₁ hwork
    cases hwork
    exact ⟨stage, rfl⟩
  · have hkept : Kept kind w (w.move i owner slot' (.calls call stage')) :=
      .of_all hall rfl hsequence rfl
    exact hkept.hears (hshown task hmem wait waiter hwork)
      (fun _ _ reason _ => Coming.mono (hall reason)) hears

theorem Inv.raises {flag : Nat} (h : Inv kind w)
    (hi : w.tasks[i]? = some ⟨owner, .calls (.wake (some flag)) .flags⟩) :
    Inv kind (({ w with flags := update w.flags flag true } : World).move i owner w.slot
      (.calls (.wake (some flag)) .looks)) := by
  generalize hw : ({ w with flags := update w.flags flag true } : World).move i owner w.slot
    (.calls (.wake (some flag)) .looks) = w'
  have htasks : w'.tasks = w.tasks.set i ⟨owner, .calls (.wake (some flag)) .looks⟩ := by
    rw [← hw]
    rfl
  have hdead : w'.dead = w.dead := by
    rw [← hw]
    rfl
  have hslot : w'.slot = w.slot := by
    rw [← hw]
    rfl
  have hcoming : ∀ late reason, w.Coming late reason → w'.Coming late reason := by
    intro late reason hold
    refine Coming.set hold hi htasks (fun _ _ _ _ hother => Comes.other hother hi htasks hdead
      (congrArg Slot.writer hslot) fun token hrecovers => ?_) fun hself => ?_
    · rcases hrecovers with hwork | ⟨-, hwork⟩ <;> cases hwork
    · obtain ⟨call, stage, hwork, hbumps | ⟨-, hwakes⟩, -⟩ := hself
      · cases hwork
        exact hbumps.elim
      · cases hwork
        cases hwakes
  have hkept : Kept kind w w' := by
    refine ⟨.inl (hslot ▸ rfl), fun hretired => .inl (hslot ▸ hretired), fun f hflag => ?_,
      hslot ▸ rfl, fun _ halive => hdead ▸ halive, hcoming false⟩
    by_cases hf : f = flag
    · subst hf
      exact .inr ⟨_, htasks ▸ self_mem_set hi, .wake (some f), .looks, rfl, .inl ⟨f, rfl, rfl⟩, trivial⟩
    · refine .inl ?_
      rw [← hw] at hflag
      change update w.flags flag true f = true at hflag
      rwa [update_of_ne hf] at hflag
  refine h.calls hi htasks hdead (hslot ▸ rfl) trivial ?_ fun task _ wait waiter _ hears => ?_
  · refine h.writers.set hi htasks hdead (hslot ▸ rfl) rfl ?_ ?_
    · rintro ⟨bytes, append, stage, hwork, -⟩
      cases hwork
    · intro bytes append stage hwork
      cases hwork
  · refine hkept.hears (fun _ hshown => ?_) (fun _ _ => hcoming true) hears
    refine Shown.keep hshown (hslot ▸ rfl) (hslot ▸ rfl) (fun halive => hdead ▸ halive)
      fun hcounting => Counting.set hcounting hi htasks fun hwork => ?_
    cases hwork

theorem unregistered_of_total {tasks : List Task} (h : total Task.registered tasks = 0)
    (hmem : task ∈ tasks) (hwork : task.work = .waits wait waiter) : waiter.registered = false := by
  have hle := le_total hmem Task.registered
  rw [Task.registered, hwork] at hle
  cases hregistered : waiter.registered with
  | false => rfl
  | true =>
    simp only [hregistered, if_true] at hle
    omega

theorem Hears.unregistered (h : w.Hears kind owner wait waiter) (hregistered : waiter.registered = false)
    (hshown : w.Shown kind owner wait → w'.Shown kind owner wait) : w'.Hears kind owner wait waiter := by
  cases waiter with
  | loads => exact hshown h
  | registers => exact hshown h
  | interrupts => trivial
  | looks => trivial
  | done reply => trivial
  | _ => cases hregistered

theorem Inv.ignores (h : Inv kind w) (hi : w.tasks[i]? = some ⟨owner, .calls call .announces⟩)
    (hzero : w.slot.waiters = 0) (hvisits : call.Visits kind stage')
    (hwriting : ∀ bytes append, call = .write bytes append →
      stage'.writing = true → Stage.announces.writing = true) :
    Inv kind (w.move i owner w.slot (.calls call stage')) := by
  have hnone : total Task.registered w.tasks = 0 := by
    rw [← h.count, hzero]
    rfl
  refine h.calls hi rfl rfl rfl hvisits ?_ fun task hmem wait waiter hwork hears => ?_
  · refine h.writers.set hi rfl rfl rfl rfl (Writing.of_calls hwriting) ?_
    intro bytes append stage₁ hwork
    cases hwork
    exact ⟨.announces, rfl⟩
  · refine Hears.unregistered hears (unregistered_of_total hnone hmem hwork) fun hshown => ?_
    refine Shown.keep hshown rfl rfl (fun hdead => hdead) fun hcounting =>
      Counting.set hcounting hi rfl fun hwork => ?_
    cases hwork

theorem bump_le (slot : Slot) : slot.sequence.toNat ≤ slot.bump.sequence.toNat := by
  by_cases hlast : slot.sequence = lastSequence
  · exact Nat.le_of_eq (by rw [Slot.bump, if_pos hlast])
  · have hne : slot.sequence.toNat ≠ lastSequence.toNat := fun heq => hlast (UInt32.toNat_inj.mp heq)
    have hlt := slot.sequence.toNat_lt
    have hnat : lastSequence.toNat = 4294967295 := rfl
    simp only [Slot.bump, if_neg hlast, UInt32.toNat_add, UInt32.reduceToNat]
    omega

theorem bump_ne {slot : Slot} {observed : UInt32} (hle : observed.toNat ≤ slot.sequence.toNat)
    (hlast : observed ≠ lastSequence) : slot.bump.sequence ≠ observed := by
  intro heq
  by_cases hend : slot.sequence = lastSequence
  · simp only [Slot.bump, if_pos hend] at heq
    exact hlast (heq.symm.trans hend)
  · have hne : slot.sequence.toNat ≠ lastSequence.toNat := fun heq => hend (UInt32.toNat_inj.mp heq)
    have hlt := slot.sequence.toNat_lt
    have hnat : lastSequence.toNat = 4294967295 := rfl
    simp only [Slot.bump, if_neg hend] at heq
    rw [← heq] at hle
    simp only [UInt32.toNat_add, UInt32.reduceToNat] at hle
    omega

theorem Inv.bumps (h : Inv kind w) (hi : w.tasks[i]? = some ⟨owner, .calls call .bumps⟩)
    (halive : w.dead owner = false) :
    Inv kind (w.move i owner w.slot.bump (.calls call .wakes)) := by
  have hwriting : ∀ bytes append, call = .write bytes append →
      Stage.wakes.writing = true → Stage.bumps.writing = true := fun _ _ _ h => h
  have hcovered : ∀ {observed : UInt32} {reason : Reason}, observed.toNat ≤ w.slot.sequence.toNat →
      (w.move i owner w.slot.bump (.calls call .wakes)).Covered observed reason := fun hle hlast =>
    .inl (bump_ne hle hlast)
  refine h.calls hi rfl rfl rfl (visits_wakes call) ?_ fun task hmem wait waiter hwork hears => ?_
  · refine h.writers.set hi rfl rfl rfl rfl (Writing.of_calls hwriting) ?_
    intro bytes append stage₁ hwork
    cases hwork
    exact ⟨.bumps, rfl⟩
  · have hshown : w.Shown kind task.owner wait →
        (w.move i owner w.slot.bump (.calls call .wakes)).Shown kind task.owner wait := by
      refine fun hshown => Shown.keep hshown ?_ rfl (fun hdead => hdead) fun hcounting =>
        Counting.set hcounting hi rfl fun hwork => (by cases hwork)
      cases kind <;> rfl
    have hle := bump_le w.slot
    cases waiter with
    | loads => exact hshown hears
    | registers => exact hshown hears
    | observes => exact hshown hears
    | checksState observed => exact Nat.le_trans hears hle
    | checksVersion observed =>
      exact ⟨Nat.le_trans hears.1 hle, fun _ _ => .inr (hcovered hears.1)⟩
    | checksInterrupt observed =>
      exact ⟨Nat.le_trans hears.1 hle, fun _ => hcovered hears.1, fun _ => hcovered hears.1⟩
    | parks observed =>
      exact ⟨Nat.le_trans hears.1 hle, hears.2.1, fun _ _ => hcovered hears.1⟩
    | parked observed =>
      intro reason hdue
      have hold : w.Due kind wait reason := by
        cases reason with
        | changed => cases kind <;> exact hdue
        | released => exact hdue
        | interrupted flag => exact hdue
      refine Coming.step (hears reason hold) hi rfl rfl halive rfl (fun token hrecovers => ?_)
        fun _ => .inr ⟨rfl, rfl⟩
      rcases hrecovers with hwork | ⟨hlate, -⟩
      · cases hwork
      · cases hlate
    | _ => trivial

theorem woken_calls {call : Call} {stage : Stage} : task.woken.work = .calls call stage ↔
    task.work = .calls call stage := by
  obtain ⟨owner, work⟩ := task
  cases work with
  | waits wait waiter =>
    constructor
    · intro hwork
      cases hwork
    · intro hwork
      cases hwork
  | calls call' stage' => rfl

theorem woken_owner (task : Task) : task.woken.owner = task.owner := by
  obtain ⟨owner, work⟩ := task
  cases work <;> rfl

theorem woken_registered (task : Task) : task.woken.registered = task.registered := by
  obtain ⟨owner, work⟩ := task
  cases work with
  | waits wait waiter => cases waiter <;> rfl
  | calls call stage => rfl

theorem not_parked_woken {observed : UInt32} : task.woken.work ≠ .waits wait (.parked observed) := by
  obtain ⟨owner, work⟩ := task
  cases work with
  | waits wait waiter => cases waiter <;> exact fun hwork => (by cases hwork)
  | calls call stage => exact fun hwork => (by cases hwork)

def World.wakeAll (w : World) : World := { w with tasks := w.tasks.map Task.woken }

theorem wakeAll_getElem? {task : Task} (hi : w.tasks[i]? = some task) :
    w.wakeAll.tasks[i]? = some task.woken := by
  change (w.tasks.map Task.woken)[i]? = _
  rw [getElem?_map, hi]
  rfl

theorem mem_wakeAll (h : task ∈ w.wakeAll.tasks) : ∃ old ∈ w.tasks, task = old.woken := by
  obtain ⟨old, hmem, heq⟩ := mem_map.mp h
  exact ⟨old, hmem, heq.symm⟩

theorem wakeAll_recovered : w.wakeAll.Recovered late token ↔ w.Recovered late token := by
  constructor
  · rintro ⟨task, hmem, halive, hrecovers⟩
    obtain ⟨old, hold, rfl⟩ := mem_wakeAll hmem
    refine ⟨old, hold, woken_owner old ▸ halive, ?_⟩
    rwa [Task.Recovers, woken_calls, woken_calls] at hrecovers
  · rintro ⟨task, hmem, halive, hrecovers⟩
    refine ⟨task.woken, mem_map_of_mem hmem, (woken_owner task).symm ▸ halive, ?_⟩
    rwa [Task.Recovers, woken_calls, woken_calls]

theorem wakeAll_coming {reason : Reason} (h : w.Coming late reason) : w.wakeAll.Coming late reason := by
  obtain ⟨task, hmem, call, stage, hwork, hstage, hrelied⟩ := h
  refine ⟨task.woken, mem_map_of_mem hmem, call, stage, woken_calls.mpr hwork, hstage, ?_⟩
  rw [woken_owner]
  cases call with
  | write bytes append =>
    exact hrelied.imp_right fun hrelied => ⟨hrelied.1, fun hnow => hrelied.2 (wakeAll_recovered.mp hnow)⟩
  | recover token => exact hrelied.elim
  | _ => trivial

theorem writing_woken (h : task.woken.Writing) : task.Writing := by
  obtain ⟨bytes, append, stage, hwork, hstage⟩ := h
  exact ⟨bytes, append, stage, woken_calls.mp hwork, hstage⟩

theorem Inv.wakeAll (h : Inv kind w) : Inv kind w.wakeAll where
  count := by
    change _ = total Task.registered (w.tasks.map Task.woken)
    rw [total, map_map, show Task.registered ∘ Task.woken = Task.registered from
      funext woken_registered]
    exact h.count
  hears task hmem wait waiter hwork := by
    obtain ⟨⟨owner, work⟩, hold, rfl⟩ := mem_wakeAll hmem
    cases work with
    | calls call stage => cases hwork
    | waits wait' waiter' =>
      cases hwork
      have hears := h.hears _ hold wait waiter' rfl
      have hkept : Kept kind w w.wakeAll := ⟨.inl rfl, fun hretired => .inl hretired,
        fun _ hflag => .inl hflag, rfl, fun _ hdead => hdead, fun _ => wakeAll_coming⟩
      have hkeeps : w.wakeAll.Hears kind owner wait waiter' := by
        refine hkept.hears (fun _ hshown => ?_) (fun _ _ _ => wakeAll_coming) hears
        refine Shown.keep hshown rfl rfl (fun hdead => hdead) fun hcounting => ?_
        obtain ⟨task, hmem, hwork⟩ := hcounting
        exact ⟨task.woken, mem_map_of_mem hmem, woken_calls.mpr hwork⟩
      cases waiter' with
      | parked observed => trivial
      | _ => exact hkeeps
  visits task hmem call stage hwork := by
    obtain ⟨old, hold, rfl⟩ := mem_wakeAll hmem
    exact h.visits old hold call stage (woken_calls.mp hwork)
  writers := by
    refine ⟨fun task hmem hwriting halive => ?_, fun task hmem bytes append stage hwork => ?_,
      fun j k task task' hj hk hwriting hwriting' howner howner' => ?_⟩
    · obtain ⟨old, hold, rfl⟩ := mem_wakeAll hmem
      rw [woken_owner] at halive ⊢
      exact h.writers.writes old hold (writing_woken hwriting) halive
    · obtain ⟨old, hold, rfl⟩ := mem_wakeAll hmem
      rw [woken_owner]
      exact h.writers.nonzero old hold bytes append stage (woken_calls.mp hwork)
    · obtain ⟨old, hold, rfl⟩ := Option.map_eq_some_iff.mp ((getElem?_map ..).symm.trans hj)
      obtain ⟨old', hold', rfl⟩ := Option.map_eq_some_iff.mp ((getElem?_map ..).symm.trans hk)
      rw [woken_owner] at howner howner'
      exact h.writers.alone j k old old' hold hold' (writing_woken hwriting) (writing_woken hwriting') howner
        howner'
  recovers task hmem token stage hwork := by
    obtain ⟨old, hold, rfl⟩ := mem_wakeAll hmem
    exact h.recovers old hold token stage (woken_calls.mp hwork)

theorem Inv.wakes (h : Inv kind w) (hi : w.tasks[i]? = some ⟨owner, .calls call .wakes⟩)
    (halive : w.dead owner = false) :
    Inv kind (w.wakeAll.move i owner w.slot (.calls call call.after)) := by
  have hi' : w.wakeAll.tasks[i]? = some ⟨owner, .calls call .wakes⟩ := wakeAll_getElem? hi
  have hwriting : ∀ bytes append, call = .write bytes append →
      call.after.writing = true → Stage.wakes.writing = true := fun _ _ _ _ => rfl
  have hcoming : ∀ reason, w.wakeAll.Coming false reason →
      (w.wakeAll.move i owner w.slot (.calls call call.after)).Coming false reason := by
    refine fun reason hold => Coming.step hold hi' rfl rfl halive rfl (fun token hrecovers => ?_)
      fun hstage => ?_
    · rcases hrecovers with hwork | ⟨-, hwork⟩
      · cases call <;> cases hwork
        exact .inr ⟨rfl, rfl⟩
      · cases call <;> cases hwork
    · rcases hstage with hbumps | ⟨hlate, -⟩
      · exact hbumps.elim
      · cases hlate
  have hkept : Kept kind w.wakeAll (w.wakeAll.move i owner w.slot (.calls call call.after)) :=
    ⟨.inl rfl, fun hretired => .inl hretired, fun _ hflag => .inl hflag, rfl, fun _ hdead => hdead, hcoming⟩
  refine h.wakeAll.calls hi' rfl rfl rfl (visits_after call) ?_ fun task hmem wait waiter hwork hears => ?_
  · refine h.wakeAll.writers.set hi' rfl rfl rfl rfl (Writing.of_calls hwriting) ?_
    intro bytes append stage₁ hwork
    cases hwork
    exact ⟨.wakes, rfl⟩
  · refine hkept.hears (fun _ hshown => ?_) (fun observed hparked => ?_) hears
    · refine Shown.keep hshown rfl rfl (fun hdead => hdead) fun hcounting =>
        Counting.set hcounting hi' rfl fun hwork => ?_
      cases hwork
    · obtain ⟨old, -, rfl⟩ := mem_wakeAll hmem
      exact absurd (hparked ▸ hwork) not_parked_woken

theorem Inv.rewrites {writer : UInt64} (h : Inv kind w)
    (hi : w.tasks[i]? = some ⟨owner, .calls call stage⟩) (hvisits : call.Visits kind stage')
    (hwriters : Writers (w.move i owner { w.slot with writer } (.calls call stage')))
    (hother : ∀ late j other, j ≠ i → w.tasks[j]? = some other → other.Writing →
      w.slot.writer = other.owner → ¬w.Recovered late other.owner → writer = other.owner)
    (hrecovers : ∀ late token, ¬Task.Recovers late token ⟨owner, .calls call stage'⟩)
    (hbumps : ∀ reason, ¬stage.Bumps call reason) (hwakes : stage ≠ .wakes) (hcounts : stage ≠ .counts) :
    Inv kind (w.move i owner { w.slot with writer } (.calls call stage')) := by
  have hcoming : ∀ late reason, w.Coming late reason →
      (w.move i owner { w.slot with writer } (.calls call stage')).Coming late reason := by
    intro late reason hold
    refine Coming.set hold hi rfl (fun j other hne hj hcomes => ?_) fun hself => ?_
    · refine Comes.keep hcomes rfl fun hwriting _ howns hrecovered => ⟨?_, fun hnow => ?_⟩
      · exact hother late j other hne hj hwriting howns hrecovered
      · exact hrecovered (Recovered.of_set hnow rfl hi rfl rfl fun hself =>
          absurd hself (hrecovers late _))
    · obtain ⟨call₁, stage₁, hwork, hstage, -⟩ := hself
      cases hwork
      rcases hstage with hbump | ⟨-, hwake⟩
      · exact absurd hbump (hbumps reason)
      · exact absurd hwake hwakes
  have hversion : ({ w.slot with writer } : Slot).version kind = w.slot.version kind := by
    cases kind <;> rfl
  have hkept : Kept kind w (w.move i owner { w.slot with writer } (.calls call stage')) :=
    ⟨.inl hversion, fun hretired => .inl hretired, fun _ hflag => .inl hflag, rfl, fun _ hdead => hdead,
      hcoming false⟩
  refine h.calls hi rfl rfl rfl hvisits hwriters fun task _ wait waiter _ hears => ?_
  refine hkept.hears (fun _ hshown => ?_) (fun _ _ => hcoming true) hears
  refine Shown.keep hshown hversion rfl (fun hdead => hdead) fun hcounting =>
    Counting.set hcounting hi rfl fun hwork => ?_
  cases hwork
  exact hcounts rfl

theorem Writers.nonzero_set {other : Task} (h : Writers w) (hi : w.tasks[i]? = some task)
    (hother : other ∈ w.tasks.set i task') (howner : task'.owner = task.owner)
    (hwrite : ∀ bytes append stage, task'.work = .calls (.write bytes append) stage →
      ∃ stage, task.work = .calls (.write bytes append) stage) {bytes : List UInt8} {append : Bool} {stage : Stage}
    (hwork : other.work = .calls (.write bytes append) stage) : other.owner ≠ 0 := by
  rcases mem_of_mem_set hother with rfl | hother
  · obtain ⟨stage, hwork⟩ := hwrite bytes append stage hwork
    exact howner ▸ h.nonzero task (mem_of_getElem? hi) bytes append stage hwork
  · exact h.nonzero other hother bytes append stage hwork

theorem Inv.claims {bytes : List UInt8} {append : Bool} (h : Inv kind w)
    (hi : w.tasks[i]? = some ⟨owner, .calls (.write bytes append) .claims⟩)
    (halive : w.dead owner = false) (hzero : w.slot.writer = 0) (hkind : kind = .text) :
    Inv kind (w.move i owner { w.slot with writer := owner } (.calls (.write bytes append) .prepares)) := by
  have hfree : ∀ {other : Task}, other ∈ w.tasks → other.Writing → other.owner ≠ owner := by
    rintro other hmem hwriting rfl
    rw [h.writers.free hzero hmem hwriting] at halive
    cases halive
  refine h.rewrites hi hkind ?_ (fun _ j other _ hj hwriting howns _ => ?_) ?_ ?_ ?_ ?_
  · refine ⟨fun other hmem hwriting hlive => ?_, fun other hmem bytes' append' stage hwork => ?_,
      fun j k other other' hj hk hwriting hwriting' howner howner' => ?_⟩
    · rcases mem_of_mem_set hmem with rfl | hmem
      · rfl
      · cases (h.writers.free hzero hmem hwriting).symm.trans hlive
    · refine h.writers.nonzero_set hi hmem rfl (fun b a stage hwork => ?_) hwork
      cases hwork
      exact ⟨.claims, rfl⟩
    · rcases set_cases hi hj with ⟨rfl, -⟩ | ⟨-, hj⟩
      · rcases set_cases hi hk with ⟨rfl, -⟩ | ⟨-, hk⟩
        · rfl
        · exact absurd howner' (hfree (mem_of_getElem? hk) hwriting')
      · exact absurd howner (hfree (mem_of_getElem? hj) hwriting)
  · exact absurd (howns.symm.trans hzero) (Writing.nonzero h.writers (mem_of_getElem? hj) hwriting)
  · rintro late token (hwork | ⟨-, hwork⟩) <;> cases hwork
  · exact fun reason hbumps => hbumps.elim
  · exact fun heq => by cases heq
  · exact fun heq => by cases heq

theorem Writers.clear {call : Call} (h : Writers w) (hi : w.tasks[i]? = some ⟨owner, .calls call stage⟩)
    (hdone : ∀ j other, j ≠ i → w.tasks[j]? = some other → other.Writing →
      w.dead other.owner = false → False) :
    Writers (w.move i owner { w.slot with writer := 0 } (.calls call .done)) := by
  have hself : ¬Task.Writing ⟨owner, .calls call .done⟩ := by
    rintro ⟨bytes, append, stage₁, hwork, hwriting⟩
    cases hwork
    cases hwriting
  have hnonzero : ∀ {j : Nat} {other : Task},
      (w.move i owner { w.slot with writer := 0 } (.calls call .done)).tasks[j]? = some other →
        other.Writing → other.owner ≠ 0 := by
    intro j other hj hwriting
    rcases set_cases hi hj with ⟨-, rfl⟩ | ⟨-, hj⟩
    · exact absurd hwriting hself
    · exact Writing.nonzero h (mem_of_getElem? hj) hwriting
  refine ⟨fun other hmem hwriting halive => ?_, fun other hmem bytes append stage hwork => ?_,
    fun j k other other' hj hk hwriting hwriting' howner howner' => ?_⟩
  · obtain ⟨j, hj⟩ := mem_iff_getElem?.mp hmem
    rcases set_cases hi hj with ⟨-, rfl⟩ | ⟨hne, hj⟩
    · exact absurd hwriting hself
    · exact (hdone j other hne hj hwriting halive).elim
  · refine h.nonzero_set hi hmem rfl (fun b a stage hwork => ?_) hwork
    cases hwork
    exact ⟨_, rfl⟩
  · exact absurd howner (hnonzero hj hwriting)

theorem Inv.frees {bytes : List UInt8} {append : Bool} (h : Inv kind w)
    (hi : w.tasks[i]? = some ⟨owner, .calls (.write bytes append) .frees⟩)
    (halive : w.dead owner = false) :
    Inv kind (w.move i owner { w.slot with writer := 0 } (.calls (.write bytes append) .done)) := by
  have hself : Task.Writing ⟨owner, .calls (.write bytes append) .frees⟩ := ⟨_, _, _, rfl, rfl⟩
  have howns := h.writers.writes _ (mem_of_getElem? hi) hself halive
  have hother : ∀ j other, j ≠ i → w.tasks[j]? = some other → other.Writing →
      w.slot.writer = other.owner → False := fun j other hne hj hwriting howner =>
    hne (h.writers.alone j i other _ hj hi hwriting hself howner.symm howns.symm)
  refine h.rewrites hi trivial ?_ (fun _ j other hne hj hwriting howner _ => ?_) ?_ ?_ ?_ ?_
  · exact h.writers.clear hi fun j other hne hj hwriting hlive => hother j other hne hj hwriting
      (h.writers.writes other (mem_of_getElem? hj) hwriting hlive)
  · exact (hother j other hne hj hwriting howner).elim
  · rintro late token (hwork | ⟨-, hwork⟩) <;> cases hwork
  · exact fun reason hbumps => hbumps.elim
  · exact fun heq => by cases heq
  · exact fun heq => by cases heq

theorem Inv.clears (h : Inv kind w) (hi : w.tasks[i]? = some ⟨owner, .calls (.recover token) .clears⟩)
    (halive : w.dead owner = false) (htoken : w.slot.writer = token) :
    Inv kind (w.move i owner { w.slot with writer := 0 } (.calls (.recover token) .done)) := by
  have hmem := mem_of_getElem? hi
  refine h.rewrites hi trivial ?_ (fun late j other _ _ _ howns hrecovered => ?_) ?_ ?_ ?_ ?_
  · refine h.writers.clear hi fun j other _ hj hwriting hlive => ?_
    have howner := h.writers.writes other (mem_of_getElem? hj) hwriting hlive
    rw [← howner, htoken, h.recovers _ hmem token _ rfl] at hlive
    cases hlive
  · refine absurd ⟨_, hmem, halive, .inl ?_⟩ hrecovered
    rw [← howns, htoken]
  · rintro late token (hwork | ⟨-, hwork⟩) <;> cases hwork
  · exact fun reason hbumps => hbumps.elim
  · exact fun heq => by cases heq
  · exact fun heq => by cases heq

theorem Inv.dismisses (h : Inv kind w) (hi : w.tasks[i]? = some ⟨owner, .calls call .looks⟩)
    (hretired : w.slot.retired = true) : Inv kind (w.move i owner w.slot (.calls call .done)) := by
  have hkeeps : ∀ late reason, (∀ flag, reason ≠ .interrupted flag) → w.Coming late reason →
      (w.move i owner w.slot (.calls call .done)).Coming late reason := by
    intro late reason hreason hold
    refine Coming.set hold hi rfl (fun _ _ _ _ hother => ?_) fun hself => ?_
    · refine Comes.other hother hi rfl rfl rfl fun token hrecovers => ?_
      rcases hrecovers with hwork | ⟨-, hwork⟩ <;> cases hwork
    · obtain ⟨call₁, stage₁, hwork, hstage, -⟩ := hself
      cases hwork
      rcases hstage with ⟨flag, -, heq⟩ | ⟨-, hwakes⟩
      · exact absurd heq (hreason flag)
      · cases hwakes
  have hall : ∀ late reason, w.Coming late .released →
      (w.move i owner w.slot (.calls call .done)).Coming late reason := fun late reason hold =>
    Coming.released (hkeeps late .released (fun _ heq => by cases heq) hold) reason
  have hcovered : ∀ {observed : UInt32} {reason : Reason}, w.Covered observed .released →
      (w.move i owner w.slot (.calls call .done)).Covered observed reason := fun hcovered hlast =>
    (hcovered hlast).imp_right (hall false _)
  refine h.calls hi rfl rfl rfl (visits_done call) ?_ fun task _ wait waiter _ hears => ?_
  · refine h.writers.set hi rfl rfl rfl rfl (Writing.of_calls fun _ _ _ hwriting => ?_) ?_
    · cases hwriting
    · intro bytes append stage₁ hwork
      cases hwork
      exact ⟨.looks, rfl⟩
  · have hshown : w.Shown kind task.owner wait →
        (w.move i owner w.slot (.calls call .done)).Shown kind task.owner wait := fun hshown =>
      Shown.keep hshown rfl rfl (fun hdead => hdead) fun hcounting =>
        Counting.set hcounting hi rfl fun hwork => (by cases hwork)
    cases waiter with
    | loads => exact hshown hears
    | registers => exact hshown hears
    | observes => exact hshown hears
    | checksState observed => exact hears
    | checksVersion observed =>
      exact ⟨hears.1, fun halive hnow => (hears.2 halive hnow).imp_right hcovered⟩
    | checksInterrupt observed =>
      exact ⟨hears.1, fun _ => hcovered (hears.2.2 hretired), fun hnow => hcovered (hears.2.2 hnow)⟩
    | parks observed => exact ⟨hears.1, hears.2.1, fun _ _ => hcovered (hears.2.2 .released hretired)⟩
    | parked observed => exact fun reason _ => hall true reason (hears .released hretired)
    | _ => trivial

end OrbitCell.Waits
