import Orbit.Cell.Waits

/-! The wakes that are coming, and what a waiter has to hear of each reason that there is to wake. -/

namespace OrbitCell.Waits

open Orbit.Atomic List

variable {kind : Kind} {textMax : Nat} {w w' : World} {i : Nat} {owner token : UInt64} {wait : Wait}
  {waiter : Waiter} {call : Call} {stage : Stage} {task task' : Task} {late : Bool}

inductive Reason where
  | changed
  | released
  | interrupted (flag : Nat)

def World.Due (kind : Kind) (w : World) (wait : Wait) : Reason → Prop
  | .changed => w.slot.version kind ≠ wait.since
  | .released => w.slot.retired = true
  | .interrupted flag => wait.interrupt = some flag ∧ w.flags flag = true

/-- A call at the stage, with the reason that it gives, is going to increment the sequence if there are
waiters. -/
def Stage.Bumps (call : Call) (reason : Reason) : Stage → Prop
  | .announces => True
  | .bumps => True
  | .counts => call = .release
  | .looks => ∃ flag, call = .wake (some flag) ∧ reason = .interrupted flag
  | _ => False

/-- The task is a recovery of the writer that has incremented the sequence, or, if it is `late`, has woken. -/
def Task.Recovers (late : Bool) (token : UInt64) (task : Task) : Prop :=
  task.work = .calls (.recover token) .clears ∨
    late = false ∧ task.work = .calls (.recover token) .wakes

def World.Recovered (w : World) (late : Bool) (token : UInt64) : Prop :=
  ∃ task ∈ w.tasks, w.dead task.owner = false ∧ task.Recovers late token

/-- The call goes on: for a writer that has died a recovery is going to. -/
def Call.Relied (w : World) (late : Bool) (owner : UInt64) : Call → Prop
  | .write .. => w.dead owner = false ∨ w.slot.writer = owner ∧ ¬w.Recovered late owner
  | .recover _ => False
  | _ => True

/-- The task is going to increment the sequence, or, if it is `late`, at least to wake. -/
def Task.Comes (w : World) (late : Bool) (reason : Reason) (task : Task) : Prop :=
  ∃ call stage, task.work = .calls call stage ∧
    (stage.Bumps call reason ∨ late = true ∧ stage = .wakes) ∧ call.Relied w late task.owner

def World.Coming (w : World) (late : Bool) (reason : Reason) : Prop :=
  ∃ task ∈ w.tasks, task.Comes w late reason

def World.Counting (w : World) : Prop := ∃ task ∈ w.tasks, task.work = .calls .release .counts

def World.Covered (w : World) (observed : UInt32) (reason : Reason) : Prop :=
  observed ≠ lastSequence → w.slot.sequence ≠ observed ∨ w.Coming false reason

def Waiter.registered : Waiter → Bool
  | .interrupts => false
  | .looks => false
  | .loads => false
  | .registers => false
  | .done _ => false
  | _ => true

def World.Shown (kind : Kind) (w : World) (owner : UInt64) (wait : Wait) : Prop :=
  kind = .scalar → w.dead owner = false → w.slot.retired = true →
    w.slot.version kind ≠ wait.since ∨ w.Counting

def World.Hears (kind : Kind) (w : World) (owner : UInt64) (wait : Wait) : Waiter → Prop
  | .loads => w.Shown kind owner wait
  | .registers => w.Shown kind owner wait
  | .observes => w.Shown kind owner wait
  | .checksState observed => observed.toNat ≤ w.slot.sequence.toNat
  | .checksVersion observed =>
    observed.toNat ≤ w.slot.sequence.toNat ∧ (w.dead owner = false → w.slot.retired = true →
      kind = .scalar ∧ w.slot.version kind ≠ wait.since ∨ w.Covered observed .released)
  | .checksInterrupt observed =>
    observed.toNat ≤ w.slot.sequence.toNat ∧
      (w.slot.version kind ≠ wait.since → w.Covered observed .changed) ∧
        (w.slot.retired = true → w.Covered observed .released)
  | .parks observed =>
    observed.toNat ≤ w.slot.sequence.toNat ∧ observed ≠ lastSequence ∧
      ∀ reason, w.Due kind wait reason → w.Covered observed reason
  | .parked _ => ∀ reason, w.Due kind wait reason → w.Coming true reason
  | _ => True

def Call.Visits (kind : Kind) : Call → Stage → Prop
  | .store _, .looks => True
  | .store _, .stores => True
  | .store _, .counts => True
  | .store _, .announces => True
  | .write .., .looks => kind = .text
  | .write .., .claims => kind = .text
  | .write .., .prepares => kind = .text
  | .write .., .fills _ => kind = .text
  | .write .., .commits _ => kind = .text
  | .write .., .announces => True
  | .write .., .frees => True
  | .release, .looks => True
  | .release, .retires => True
  | .release, .counts => True
  | .release, .announces => True
  | .wake flag, .flags => flag.isSome = true
  | .wake _, .looks => True
  | .recover _, .checks => True
  | .recover _, .relays => True
  | .recover _, .clears => True
  | _, .bumps => True
  | _, .wakes => True
  | _, .done => True
  | _, _ => False

def Stage.writing : Stage → Bool
  | .prepares => true
  | .fills _ => true
  | .commits _ => true
  | .announces => true
  | .bumps => true
  | .wakes => true
  | .frees => true
  | _ => false

def Task.Writing (task : Task) : Prop :=
  ∃ bytes append stage, task.work = .calls (.write bytes append) stage ∧ stage.writing = true

def Task.registered (task : Task) : Nat :=
  match task.work with
  | .waits _ waiter => if waiter.registered then 1 else 0
  | .calls .. => 0

/-- A writer that is alive has the slot, and no two tasks have it. -/
structure Writers (w : World) : Prop where
  writes : ∀ task ∈ w.tasks, task.Writing → w.dead task.owner = false → w.slot.writer = task.owner
  nonzero : ∀ task ∈ w.tasks, ∀ bytes append stage, task.work = .calls (.write bytes append) stage →
    task.owner ≠ 0
  alone : ∀ (i j : Nat) (task task' : Task), w.tasks[i]? = some task → w.tasks[j]? = some task' →
    task.Writing → task'.Writing → task.owner = w.slot.writer → task'.owner = w.slot.writer → i = j

structure Inv (kind : Kind) (w : World) : Prop where
  count : w.slot.waiters.toNat = total Task.registered w.tasks
  hears : ∀ task ∈ w.tasks, ∀ wait waiter, task.work = .waits wait waiter →
    w.Hears kind task.owner wait waiter
  visits : ∀ task ∈ w.tasks, ∀ call stage, task.work = .calls call stage → call.Visits kind stage
  writers : Writers w
  recovers : ∀ task ∈ w.tasks, ∀ token stage, task.work = .calls (.recover token) stage →
    w.dead token = true

theorem bumps_released (h : stage.Bumps call .released) (reason : Reason) :
    stage.Bumps call reason := by
  cases stage with
  | looks =>
    obtain ⟨flag, -, hreason⟩ := h
    cases hreason
  | announces => trivial
  | bumps => trivial
  | counts => exact h
  | _ => exact h.elim

theorem Coming.released (h : w.Coming late .released) (reason : Reason) : w.Coming late reason := by
  obtain ⟨task, htask, call, stage, hwork, hstage, hrelied⟩ := h
  exact ⟨task, htask, call, stage, hwork, hstage.imp_left fun hbumps => bumps_released hbumps reason,
    hrelied⟩

theorem Recovered.early (h : w.Recovered true token) : w.Recovered false token := by
  obtain ⟨task, htask, halive, hclears | ⟨hlate, -⟩⟩ := h
  · exact ⟨task, htask, halive, .inl hclears⟩
  · cases hlate

variable {reason : Reason} {tasks : List Task}

theorem Coming.mono (h : w.Coming false reason) : w.Coming true reason := by
  obtain ⟨task, htask, call, stage, hwork, hstage, hrelied⟩ := h
  refine ⟨task, htask, call, stage, hwork, hstage.imp_right fun hlate => (by cases hlate.1), ?_⟩
  cases call with
  | write bytes append => exact hrelied.imp_right fun h => ⟨h.1, fun hlate => h.2 (Recovered.early hlate)⟩
  | recover token => exact hrelied.elim
  | _ => trivial

theorem mem_set_of_ne {j : Nat} {other : Task} (hj : tasks[j]? = some other) (hne : j ≠ i) :
    other ∈ tasks.set i task' :=
  mem_of_getElem? (i := j) ((getElem?_set_ne (Ne.symm hne)).trans hj)

theorem self_mem_set (hi : tasks[i]? = some task) : task' ∈ tasks.set i task' :=
  mem_set (List.getElem?_eq_some_iff.mp hi).1 _

theorem mem_of_mem_set {other : Task} (h : other ∈ tasks.set i task') :
    other = task' ∨ other ∈ tasks := by
  rcases mem_or_eq_of_mem_set h with hmem | heq
  · exact .inr hmem
  · exact .inl heq

theorem Coming.set (h : w.Coming late reason) (hi : w.tasks[i]? = some task)
    (htasks : w'.tasks = w.tasks.set i task')
    (hother : ∀ j other, j ≠ i → w.tasks[j]? = some other → other.Comes w late reason →
      other.Comes w' late reason) (hself : task.Comes w late reason → task'.Comes w' late reason) :
    w'.Coming late reason := by
  obtain ⟨other, hmem, hcomes⟩ := h
  obtain ⟨j, hj⟩ := mem_iff_getElem?.mp hmem
  by_cases hij : j = i
  · subst hij
    obtain rfl := Option.some.inj (hj.symm.trans hi)
    exact ⟨task', htasks ▸ self_mem_set hi, hself hcomes⟩
  · exact ⟨other, htasks ▸ mem_set_of_ne hj hij, hother j other hij hj hcomes⟩

theorem Recovered.of_set (h : w'.Recovered late token) (htasks : w'.tasks = w.tasks.set i task')
    (hi : w.tasks[i]? = some task) (hdead : w'.dead = w.dead) (howner : task'.owner = task.owner)
    (hself : task'.Recovers late token → task.Recovers late token) : w.Recovered late token := by
  obtain ⟨other, hmem, halive, hrecovers⟩ := h
  rw [hdead] at halive
  rcases mem_of_mem_set (htasks ▸ hmem) with rfl | hmem
  · exact ⟨task, mem_of_getElem? hi, howner ▸ halive, hself hrecovers⟩
  · exact ⟨other, hmem, halive, hrecovers⟩

theorem writing_of_bumps {bytes : List UInt8} {append : Bool}
    (h : stage.Bumps (.write bytes append) reason ∨ late = true ∧ stage = .wakes) :
    stage.writing = true := by
  rcases h with hbumps | ⟨-, rfl⟩
  · cases stage with
    | announces => rfl
    | bumps => rfl
    | counts => cases hbumps
    | looks =>
      obtain ⟨flag, hcall, -⟩ := hbumps
      cases hcall
    | _ => exact hbumps.elim
  · rfl

theorem Comes.keep (h : task.Comes w late reason) (hdead : w'.dead = w.dead)
    (hwriter : task.Writing → w.dead task.owner = true → w.slot.writer = task.owner →
      ¬w.Recovered late task.owner → w'.slot.writer = task.owner ∧ ¬w'.Recovered late task.owner) :
    task.Comes w' late reason := by
  obtain ⟨call, stage, hwork, hstage, hrelied⟩ := h
  refine ⟨call, stage, hwork, hstage, ?_⟩
  cases call with
  | write bytes append =>
    cases halive : w.dead task.owner with
    | false => exact .inl (hdead ▸ halive)
    | true =>
      rcases hrelied with halive' | ⟨howns, hrecovered⟩
      · rw [halive] at halive'
        cases halive'
      · exact .inr (hwriter ⟨bytes, append, stage, hwork, writing_of_bumps hstage⟩ halive howns
          hrecovered)
  | recover token => exact hrelied
  | _ => trivial

/-- What is kept of a reason, unless a wake is coming for it. -/
structure Kept (kind : Kind) (w w' : World) : Prop where
  version : w'.slot.version kind = w.slot.version kind ∨ ∀ reason, w'.Coming false reason
  retired : w'.slot.retired = true → w.slot.retired = true ∨ ∀ reason, w'.Coming false reason
  flags : ∀ flag, w'.flags flag = true → w.flags flag = true ∨ w'.Coming false (.interrupted flag)
  sequence : w'.slot.sequence = w.slot.sequence
  dead : ∀ owner, w'.dead owner = false → w.dead owner = false
  coming : ∀ reason, w.Coming false reason → w'.Coming false reason

theorem Kept.covered {observed : UInt32} (h : Kept kind w w') (hcovered : w.Covered observed reason) :
    w'.Covered observed reason := fun hlast => by
  rw [h.sequence]
  exact (hcovered hlast).imp_right (h.coming reason)

theorem Kept.due (h : Kept kind w w') (hdue : w'.Due kind wait reason) :
    w.Due kind wait reason ∨ w'.Coming false reason := by
  cases reason with
  | changed =>
    rcases h.version with hsame | hall
    · left
      change w.slot.version kind ≠ wait.since
      rw [← hsame]
      exact hdue
    · exact .inr (hall _)
  | released => exact (h.retired hdue).imp_right fun hall => hall _
  | interrupted flag => exact (h.flags flag hdue.2).imp_left fun hflag => ⟨hdue.1, hflag⟩

theorem Kept.hears (h : Kept kind w w')
    (hshown : waiter.unseen = true → w.Shown kind owner wait → w'.Shown kind owner wait)
    (hlate : ∀ observed, waiter = .parked observed → ∀ reason, w.Coming true reason →
      w'.Coming true reason)
    (hhears : w.Hears kind owner wait waiter) : w'.Hears kind owner wait waiter := by
  cases waiter with
  | loads => exact hshown rfl hhears
  | registers => exact hshown rfl hhears
  | observes => exact hshown rfl hhears
  | checksState observed =>
    change observed.toNat ≤ w'.slot.sequence.toNat
    rw [h.sequence]
    exact hhears
  | checksVersion observed =>
    obtain ⟨hle, hreleased⟩ := hhears
    refine ⟨h.sequence ▸ hle, fun halive hretired => ?_⟩
    rcases h.version with hsame | hall
    · rcases h.retired hretired with hold | hall
      · rcases hreleased (h.dead owner halive) hold with ⟨hscalar, hversion⟩ | hcovered
        · exact .inl ⟨hscalar, hsame ▸ hversion⟩
        · exact .inr (h.covered hcovered)
      · exact .inr fun _ => .inr (hall _)
    · exact .inr fun _ => .inr (hall _)
  | checksInterrupt observed =>
    obtain ⟨hle, hchanged, hreleased⟩ := hhears
    refine ⟨h.sequence ▸ hle, fun hversion => ?_, fun hretired => ?_⟩
    · have hnow : w'.Due kind wait .changed := hversion
      rcases h.due hnow with hdue | hcoming
      · exact h.covered (hchanged hdue)
      · exact fun _ => .inr hcoming
    · have hnow : w'.Due kind wait .released := hretired
      rcases h.due hnow with hdue | hcoming
      · exact h.covered (hreleased hdue)
      · exact fun _ => .inr hcoming
  | parks observed =>
    obtain ⟨hle, hlast, hall⟩ := hhears
    refine ⟨h.sequence ▸ hle, hlast, fun reason hdue => ?_⟩
    rcases h.due hdue with hdue | hcoming
    · exact h.covered (hall reason hdue)
    · exact fun _ => .inr hcoming
  | parked observed =>
    intro reason hdue
    rcases h.due hdue with hdue | hcoming
    · exact hlate observed rfl reason (hhears reason hdue)
    · exact Coming.mono hcoming
  | _ => trivial

theorem Kept.of_all (hall : ∀ reason, w'.Coming false reason) (hflags : w'.flags = w.flags)
    (hsequence : w'.slot.sequence = w.slot.sequence) (hdead : w'.dead = w.dead) : Kept kind w w' where
  version := .inr hall
  retired _ := .inr hall
  flags _ h := .inl (hflags ▸ h)
  sequence := hsequence
  dead _ h := hdead ▸ h
  coming reason _ := hall reason

theorem Shown.keep (h : w.Shown kind owner wait)
    (hversion : w'.slot.version kind = w.slot.version kind) (hretired : w'.slot.retired = w.slot.retired)
    (hdead : w'.dead owner = false → w.dead owner = false) (hcounting : w.Counting → w'.Counting) :
    w'.Shown kind owner wait := by
  intro hscalar halive hnow
  rw [hversion]
  exact (h hscalar (hdead halive) (hretired ▸ hnow)).imp_right hcounting

theorem Counting.set (h : w.Counting) (hi : w.tasks[i]? = some task)
    (htasks : w'.tasks = w.tasks.set i task') (hself : task.work ≠ .calls .release .counts) :
    w'.Counting := by
  obtain ⟨other, hmem, hwork⟩ := h
  obtain ⟨j, hj⟩ := mem_iff_getElem?.mp hmem
  by_cases hij : j = i
  · subst hij
    obtain rfl := Option.some.inj (hj.symm.trans hi)
    exact absurd hwork hself
  · exact ⟨other, htasks ▸ mem_set_of_ne hj hij, hwork⟩

theorem set_cases {j : Nat} {other : Task} (hi : tasks[i]? = some task)
    (hj : (tasks.set i task')[j]? = some other) :
    j = i ∧ other = task' ∨ j ≠ i ∧ tasks[j]? = some other := by
  by_cases hij : j = i
  · subst hij
    rw [getElem?_set_self (List.getElem?_eq_some_iff.mp hi).1] at hj
    exact .inl ⟨rfl, (Option.some.inj hj).symm⟩
  · rw [getElem?_set_ne (Ne.symm hij)] at hj
    exact .inr ⟨hij, hj⟩

theorem Writers.set (h : Writers w) (hi : w.tasks[i]? = some task)
    (htasks : w'.tasks = w.tasks.set i task') (hdead : w'.dead = w.dead)
    (hwriter : w'.slot.writer = w.slot.writer) (howner : task'.owner = task.owner)
    (hwriting : task'.Writing → task.Writing)
    (hwrite : ∀ bytes append stage, task'.work = .calls (.write bytes append) stage →
      ∃ stage, task.work = .calls (.write bytes append) stage) : Writers w' := by
  have hmem := mem_of_getElem? hi
  have hold : ∀ {j : Nat} {other : Task}, w'.tasks[j]? = some other → other.Writing →
      ∃ old, w.tasks[j]? = some old ∧ old.Writing ∧ old.owner = other.owner := by
    intro j other hj hother
    rw [htasks] at hj
    rcases set_cases hi hj with ⟨rfl, rfl⟩ | ⟨-, hj⟩
    · exact ⟨task, hi, hwriting hother, howner.symm⟩
    · exact ⟨other, hj, hother, rfl⟩
  refine ⟨fun other hother hwrites halive => ?_, fun other hother bytes append stage hwork => ?_,
    fun j k other other' hj hk hwrites hwrites' hother hother' => ?_⟩
  · rw [hwriter]
    rw [hdead] at halive
    rcases mem_of_mem_set (htasks ▸ hother) with rfl | hother
    · rw [howner] at halive ⊢
      exact h.writes task hmem (hwriting hwrites) halive
    · exact h.writes other hother hwrites halive
  · rcases mem_of_mem_set (htasks ▸ hother) with rfl | hother
    · obtain ⟨stage, hwork⟩ := hwrite bytes append stage hwork
      exact howner ▸ h.nonzero task hmem bytes append stage hwork
    · exact h.nonzero other hother bytes append stage hwork
  · obtain ⟨old, hj, hwrites, hold₁⟩ := hold hj hwrites
    obtain ⟨old', hk, hwrites', hold₂⟩ := hold hk hwrites'
    rw [hwriter] at hother hother'
    exact h.alone j k old old' hj hk hwrites hwrites' (hold₁.trans hother) (hold₂.trans hother')

theorem Writing.nonzero (h : Writers w) (hmem : task ∈ w.tasks) (hwriting : task.Writing) :
    task.owner ≠ 0 := by
  obtain ⟨bytes, append, stage, hwork, -⟩ := hwriting
  exact h.nonzero task hmem bytes append stage hwork

theorem Writers.free (h : Writers w) (hzero : w.slot.writer = 0) (hmem : task ∈ w.tasks)
    (hwriting : task.Writing) : w.dead task.owner = true := by
  cases halive : w.dead task.owner with
  | true => rfl
  | false =>
    exact absurd ((h.writes task hmem hwriting halive).symm.trans hzero) (Writing.nonzero h hmem hwriting)

end OrbitCell.Waits
