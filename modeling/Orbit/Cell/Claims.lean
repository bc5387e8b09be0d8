import Orbit.Cell.Arithmetic
import Orbit.Table.Tiling

/-! Bounded claims partition the range: no sum overflows, a call that fails leaves nothing behind, the
value is the sum of what the others have added, and claims up to one limit take it range by range. -/

namespace OrbitCell

open Orbit.Table List

variable {call : CellCall} {current next amount limit v0 : Int64} {c0 : UInt32} {w : CellWorld}
  {task : CellTask} {stage : Stage} {i : Nat}

theorem exactly_some {n : Int} {v : Int64} (h : exactly n = some v) : v.toInt = n := by
  unfold exactly at h
  split at h
  · rename_i hrange
    rw [← Option.some.inj h]
    exact Int64.toInt_ofInt_of_le hrange.1 hrange.2
  · cases h

theorem exactly_of_inRange {n : Int} (h : InRange n) : ∃ v, exactly n = some v :=
  ⟨_, if_pos h⟩

theorem saturatingSub_toInt {a b : Int64} (h : b.toInt < a.toInt) :
    (saturatingSub a b).toInt = if a.toInt - b.toInt < 2 ^ 63 then a.toInt - b.toInt else 2 ^ 63 - 1 := by
  rw [saturatingSub, if_neg (by omega)]
  split
  · exact Int64.toInt_ofInt_of_le (by omega) (by omega)
  · rfl

theorem taken_bounds (hamount : 0 < amount) (hlimit : ¬limit ≤ current) :
    1 ≤ (taken amount limit current).toInt ∧
      (taken amount limit current).toInt ≤ amount.toInt ∧
        current.toInt + (taken amount limit current).toInt ≤ limit.toInt := by
  have hpos : 0 < amount.toInt := Int64.lt_iff_toInt_lt.mp hamount
  have hlt : current.toInt < limit.toInt := by
    rw [Int64.le_iff_toInt_le] at hlimit
    omega
  have hdistance := saturatingSub_toInt hlt
  rw [taken]
  split
  · rename_i hle
    rw [Int64.le_iff_toInt_le, hdistance] at hle
    split at hle <;> omega
  · rename_i hgt
    rw [Int64.le_iff_toInt_le, hdistance] at hgt
    rw [hdistance]
    split at hgt <;> split <;> omega

def CellCall.delta (call : CellCall) (current : Int64) : Int :=
  match call with
  | .fetchAdd amount => amount.toInt
  | .fetchSub amount => -amount.toInt
  | .addUntil amount limit => (taken amount limit current).toInt

def CellCall.Asks : CellCall → Prop
  | .fetchAdd _ => True
  | .fetchSub _ => True
  | .addUntil amount _ => 0 < amount

/-- The call has changed nothing so far, or for good. -/
def Stage.Quiet : Stage → Prop
  | .loading => True
  | .swapping .. => True
  | .announcing .. => False
  | .done reply => reply = .exhausted ∨ reply = .overflow ∨ reply = .stale
  | .panicked => False

theorem decide_cases (h : call.Asks) (current : Int64) :
    (∃ next, call.decide current = .swapping current next ∧
      next.toInt = current.toInt + call.delta current) ∨
    call.decide current = .done .overflow ∨
    call.decide current = .done .exhausted ∧ ∃ amount limit, call = .addUntil amount limit ∧
      limit ≤ current := by
  cases call with
  | fetchAdd amount =>
    cases hsum : checkedAdd current amount with
    | none => exact .inr (.inl (by simp only [CellCall.decide, hsum]))
    | some next =>
      exact .inl ⟨next, by simp only [CellCall.decide, hsum], exactly_some hsum⟩
  | fetchSub amount =>
    cases hsum : checkedSub current amount with
    | none => exact .inr (.inl (by simp only [CellCall.decide, hsum]))
    | some next =>
      exact .inl ⟨next, by simp only [CellCall.decide, hsum],
        (exactly_some hsum).trans (Int.sub_eq_add_neg ..)⟩
  | addUntil amount limit =>
    by_cases hlimit : limit ≤ current
    · exact .inr (.inr ⟨if_pos hlimit, amount, limit, rfl, hlimit⟩)
    · obtain ⟨hpos, -, hle⟩ := taken_bounds h hlimit
      have hlow := Int64.le_toInt current
      have hhigh := Int64.toInt_lt limit
      obtain ⟨after, hafter⟩ := exactly_of_inRange
        (n := current.toInt + (taken amount limit current).toInt) ⟨by omega, by omega⟩
      have hchecked : checkedAdd current (taken amount limit current) = some after := hafter
      refine .inl ⟨after, ?_, exactly_some hafter⟩
      simp only [CellCall.decide, if_neg hlimit, hchecked]

theorem finish_cases (h : call.decide current = .swapping current next) :
    (∀ amount limit, call ≠ .addUntil amount limit) ∧ call.finish current next = .done (.value next) ∨
      ∃ amount limit, call = .addUntil amount limit ∧
        call.finish current next = .done (.took (taken amount limit current) next) := by
  cases call with
  | fetchAdd amount =>
    cases hsum : checkedAdd current amount with
    | none =>
      simp only [CellCall.decide, hsum] at h
      cases h
    | some after =>
      simp only [CellCall.decide, hsum] at h
      cases h
      exact .inl ⟨fun _ _ h => (by cases h), by simp only [CellCall.finish, hsum]⟩
  | fetchSub amount =>
    cases hsum : checkedSub current amount with
    | none =>
      simp only [CellCall.decide, hsum] at h
      cases h
    | some after =>
      simp only [CellCall.decide, hsum] at h
      cases h
      exact .inl ⟨fun _ _ h => (by cases h), by simp only [CellCall.finish, hsum]⟩
  | addUntil amount limit => exact .inr ⟨amount, limit, rfl, rfl⟩

theorem claim_bounds (hamount : 0 < amount)
    (h : (CellCall.addUntil amount limit).decide current = .swapping current next) :
    next.toInt = current.toInt + (taken amount limit current).toInt ∧
      1 ≤ (taken amount limit current).toInt ∧
        (taken amount limit current).toInt ≤ amount.toInt ∧ next.toInt ≤ limit.toInt := by
  by_cases hlimit : limit ≤ current
  · simp only [CellCall.decide, if_pos hlimit] at h
    cases h
  · obtain ⟨hpos, hmost, hle⟩ := taken_bounds hamount hlimit
    cases hsum : checkedAdd current (taken amount limit current) with
    | none =>
      simp only [CellCall.decide, if_neg hlimit, hsum] at h
      cases h
    | some after =>
      simp only [CellCall.decide, if_neg hlimit, hsum] at h
      cases h
      have hnext := exactly_some hsum
      exact ⟨hnext, hpos, hmost, hnext ▸ hle⟩

def CellTask.delta (task : CellTask) : Int :=
  match task.stage with
  | .announcing current _ => task.call.delta current
  | .done (.value _) => task.call.delta 0
  | .done (.took taken _) => taken.toInt
  | _ => 0

def CellTask.counted (task : CellTask) : Bool :=
  match task.stage with
  | .done (.value _) => true
  | .done (.took ..) => true
  | _ => false

/-- A task is where its call can be. -/
inductive CellTask.Sound : CellTask → Prop where
  | loading {call : CellCall} (h : call.Asks) : Sound ⟨call, .loading⟩
  | swapping {call : CellCall} {current next : Int64} (h : call.Asks)
    (hdecide : call.decide current = .swapping current next) : Sound ⟨call, .swapping current next⟩
  | announcing {call : CellCall} {current next : Int64} (h : call.Asks)
    (hdecide : call.decide current = .swapping current next) : Sound ⟨call, .announcing current next⟩
  | value {call : CellCall} {current next : Int64} (h : ∀ amount limit, call ≠ .addUntil amount limit)
    (hdecide : call.decide current = .swapping current next) : Sound ⟨call, .done (.value next)⟩
  | took {amount limit current next : Int64} (h : 0 < amount)
    (hdecide : (CellCall.addUntil amount limit).decide current = .swapping current next) :
    Sound ⟨.addUntil amount limit, .done (.took (taken amount limit current) next)⟩
  | exhausted {amount limit : Int64} : Sound ⟨.addUntil amount limit, .done .exhausted⟩
  | overflow {call : CellCall} : Sound ⟨call, .done .overflow⟩
  | stale {call : CellCall} : Sound ⟨call, .done .stale⟩

theorem delta_eq (h : ∀ amount limit, call ≠ .addUntil amount limit) (current : Int64) :
    call.delta current = call.delta 0 := by
  cases call with
  | fetchAdd amount => rfl
  | fetchSub amount => rfl
  | addUntil amount limit => exact absurd rfl (h amount limit)

theorem Stage.Quiet.delta (h : stage.Quiet) (call : CellCall) : CellTask.delta ⟨call, stage⟩ = 0 := by
  cases stage with
  | loading => rfl
  | swapping => rfl
  | announcing => exact h.elim
  | done reply => rcases h with rfl | rfl | rfl <;> rfl
  | panicked => exact h.elim

theorem Stage.Quiet.counted (h : stage.Quiet) (call : CellCall) :
    CellTask.counted ⟨call, stage⟩ = false := by
  cases stage with
  | loading => rfl
  | swapping => rfl
  | announcing => exact h.elim
  | done reply => rcases h with rfl | rfl | rfl <;> rfl
  | panicked => exact h.elim

theorem decide_sound (h : call.Asks) (current : Int64) :
    (call.decide current).Quiet ∧ CellTask.Sound ⟨call, call.decide current⟩ ∧
      (call.decide current = .done .exhausted → ∃ amount limit, call = .addUntil amount limit ∧
        limit ≤ current) := by
  rcases decide_cases h current with ⟨next, hdecide, -⟩ | hdecide | ⟨hdecide, hexhausted⟩
  · rw [hdecide]
    exact ⟨trivial, .swapping h hdecide, fun h => by cases h⟩
  · rw [hdecide]
    exact ⟨.inr (.inl rfl), .overflow, fun h => by cases h⟩
  · obtain ⟨amount, limit, rfl, hle⟩ := hexhausted
    rw [hdecide]
    exact ⟨.inl rfl, .exhausted, fun _ => ⟨amount, limit, rfl, hle⟩⟩

/-- What a step of a task can do: nothing to the cell, a swap, or the count of one. -/
inductive Stepped (w : CellWorld) (i : Nat) (task : CellTask) : CellWorld → Prop where
  | rests : Stepped w i task w
  | quiet {stage : Stage} (hfrom : task.stage.Quiet) (hto : stage.Quiet)
    (hsound : CellTask.Sound ⟨task.call, stage⟩)
    (hexhausted : stage = .done .exhausted → ∃ amount limit, task.call = .addUntil amount limit ∧
      limit ≤ w.value) : Stepped w i task (w.goes i task stage)
  | swaps {next : Int64} (hfrom : task.stage = .swapping w.value next) (h : task.call.Asks)
    (hdecide : task.call.decide w.value = .swapping w.value next) :
    Stepped w i task { w with
      value := next, tasks := w.tasks.set i { task with stage := .announcing w.value next } }
  | counts {current next : Int64} (hfrom : task.stage = .announcing current next) (h : task.call.Asks)
    (hdecide : task.call.decide current = .swapping current next) :
    Stepped w i task { w with
      changes := w.changes + 1
      tasks := w.tasks.set i { task with stage := task.call.finish current next } }

theorem step_stepped (hsound : task.Sound) (spurious : Bool) :
    Stepped w i task (w.step i task spurious) := by
  cases hsound with
  | loading h =>
    obtain ⟨hquiet, hsound, hexhausted⟩ := decide_sound h w.value
    exact .quiet trivial hquiet hsound hexhausted
  | @swapping call current next h hdecide =>
    unfold CellWorld.step
    dsimp only
    split
    · rename_i hswap
      obtain ⟨rfl, -⟩ := hswap
      exact .swaps rfl h hdecide
    · obtain ⟨hquiet, hsound, hexhausted⟩ := decide_sound h w.value
      cases call with
      | fetchAdd amount => exact .quiet trivial hquiet hsound hexhausted
      | fetchSub amount => exact .quiet trivial hquiet hsound hexhausted
      | addUntil amount limit =>
        have hloading : CellTask.Sound ⟨.addUntil amount limit, .loading⟩ := .loading h
        exact .quiet trivial trivial hloading fun hstage => by cases hstage
  | announcing h hdecide => exact .counts rfl h hdecide
  | value => exact .rests
  | took => exact .rests
  | exhausted => exact .rests
  | overflow => exact .rests
  | stale => exact .rests

theorem finish_sound (h : call.Asks) (hdecide : call.decide current = .swapping current next) :
    CellTask.Sound ⟨call, call.finish current next⟩ ∧
      CellTask.delta ⟨call, call.finish current next⟩ = call.delta current ∧
        CellTask.counted ⟨call, call.finish current next⟩ = true := by
  rcases finish_cases hdecide with ⟨hfetch, hfinish⟩ | ⟨amount, limit, rfl, hfinish⟩
  · rw [hfinish]
    exact ⟨.value hfetch hdecide, (delta_eq hfetch current).symm, rfl⟩
  · rw [hfinish]
    exact ⟨.took h hdecide, rfl, rfl⟩

theorem sum_set {f : CellTask → Int} {tasks : List CellTask} {task : CellTask}
    (h : tasks[i]? = some task) (task' : CellTask) :
    ((tasks.set i task').map f).sum = (tasks.map f).sum - f task + f task' := by
  induction tasks generalizing i with
  | nil => cases h
  | cons first rest ih =>
    cases i with
    | zero =>
      obtain rfl := Option.some.inj h
      simp only [set_cons_zero, map_cons, sum_cons]
      omega
    | succ i =>
      have hrest := ih (i := i) h
      simp only [set_cons_succ, map_cons, sum_cons, hrest]
      omega

theorem count_set {f : CellTask → Bool} {tasks : List CellTask} {task : CellTask}
    (h : tasks[i]? = some task) (hf : f task = false) (task' : CellTask) :
    (tasks.set i task').countP f = tasks.countP f + if f task' then 1 else 0 := by
  induction tasks generalizing i with
  | nil => cases h
  | cons first rest ih =>
    cases i with
    | zero =>
      obtain rfl := Option.some.inj h
      simp [countP_cons, hf]
    | succ i =>
      have hrest := ih (i := i) h
      simp only [set_cons_succ, countP_cons, hrest]
      omega

structure SumInv (v0 : Int64) (c0 : UInt32) (w : CellWorld) : Prop where
  sound : ∀ task ∈ w.tasks, task.Sound
  value : w.value.toInt = v0.toInt + (w.tasks.map CellTask.delta).sum
  changes : w.changes = c0 + UInt32.ofNat (w.tasks.countP CellTask.counted)

theorem mem_set_task {tasks : List CellTask} {task task' : CellTask} (h : task' ∈ tasks.set i task) :
    task' = task ∨ task' ∈ tasks :=
  (mem_or_eq_of_mem_set h).symm

theorem SumInv.stepped {w' : CellWorld} (h : SumInv v0 c0 w) (hi : w.tasks[i]? = some task)
    (hstep : Stepped w i task w') : SumInv v0 c0 w' := by
  have hsound : ∀ task' : CellTask, task'.Sound → ∀ other ∈ w.tasks.set i task', other.Sound := by
    intro task' htask' other hother
    rcases mem_set_task hother with rfl | hother
    · exact htask'
    · exact h.sound other hother
  have hvalue := h.value
  have hchanges := h.changes
  obtain ⟨call, stage₀⟩ := task
  cases hstep with
  | rests => exact h
  | @quiet stage hfrom hto hnew hexhausted =>
    have hcount := count_set hi (hfrom.counted call) ⟨call, stage⟩
    refine ⟨hsound _ hnew, ?_, ?_⟩
    · change w.value.toInt = _ + ((w.tasks.set i ⟨call, stage⟩).map CellTask.delta).sum
      rw [sum_set hi, hfrom.delta call, hto.delta call]
      omega
    · change w.changes = c0 + UInt32.ofNat ((w.tasks.set i ⟨call, stage⟩).countP CellTask.counted)
      rw [hcount, hto.counted call]
      exact hchanges
  | @swaps next hfrom hasks hdecide =>
    obtain rfl : stage₀ = .swapping w.value next := hfrom
    obtain ⟨next', hdecide', hnext⟩ : ∃ next', call.decide w.value = .swapping w.value next' ∧
        next'.toInt = w.value.toInt + call.delta w.value := by
      rcases decide_cases hasks w.value with hswap | hfail | ⟨hfail, -⟩
      · exact hswap
      · rw [show call.decide w.value = _ from hdecide] at hfail
        cases hfail
      · rw [show call.decide w.value = _ from hdecide] at hfail
        cases hfail
    obtain rfl : next = next' := by
      rw [show call.decide w.value = _ from hdecide] at hdecide'
      cases hdecide'
      rfl
    have hdelta : CellTask.delta ⟨call, .announcing w.value next⟩ = call.delta w.value := rfl
    have hzero : CellTask.delta ⟨call, .swapping w.value next⟩ = 0 := rfl
    refine ⟨hsound _ (.announcing hasks hdecide), ?_, ?_⟩
    · dsimp only
      rw [sum_set hi, hdelta, hzero]
      omega
    · dsimp only
      rw [count_set hi rfl]
      exact hchanges
  | @counts current next hfrom hasks hdecide =>
    obtain rfl : stage₀ = .announcing current next := hfrom
    obtain ⟨hnew, hdelta, hcounted⟩ := finish_sound hasks hdecide
    have hold : CellTask.delta ⟨call, .announcing current next⟩ = call.delta current := rfl
    refine ⟨hsound _ hnew, ?_, ?_⟩
    · dsimp only at hdelta ⊢
      rw [sum_set hi, hdelta, hold]
      omega
    · dsimp only at hcounted ⊢
      rw [count_set hi rfl, hcounted, hchanges, if_pos rfl, UInt32.ofNat_add, UInt32.add_assoc]
      rfl

theorem start_sound (call : CellCall) (live : Bool) :
    (call.start live).Quiet ∧ CellTask.Sound ⟨call, call.start live⟩ ∧
      call.start live ≠ .done .exhausted := by
  have hlive : ∀ call : CellCall, call.Asks →
      (if live then Stage.loading else .done .stale).Quiet ∧
        CellTask.Sound ⟨call, if live then .loading else .done .stale⟩ ∧
          (if live then Stage.loading else .done .stale) ≠ .done .exhausted := by
    intro call h
    cases live with
    | false => exact ⟨.inr (.inr rfl), .stale, fun h => by cases h⟩
    | true => exact ⟨trivial, .loading h, fun h => by cases h⟩
  cases call with
  | fetchAdd amount => exact hlive _ trivial
  | fetchSub amount => exact hlive _ trivial
  | addUntil amount limit =>
    by_cases hamount : amount ≤ 0
    · have hstart : (CellCall.addUntil amount limit).start live = .done .overflow := if_pos hamount
      rw [hstart]
      exact ⟨.inr (.inl rfl), .overflow, fun h => by cases h⟩
    · have hstart : (CellCall.addUntil amount limit).start live =
          if live then .loading else .done .stale := if_neg hamount
      rw [hstart]
      exact hlive _ (Int64.not_le.mp hamount)

theorem SumInv.act (h : SumInv v0 c0 w) (a : CellAct) : SumInv v0 c0 (w.act a) := by
  cases a with
  | begin call live =>
    obtain ⟨hquiet, hsound, -⟩ := start_sound call live
    refine ⟨fun task htask => ?_, ?_, ?_⟩
    · rcases mem_append.mp htask with htask | htask
      · exact h.sound task htask
      · rw [mem_singleton.mp htask]
        exact hsound
    · change w.value.toInt = v0.toInt + ((w.tasks ++ [CellTask.mk call (call.start live)]).map
        CellTask.delta).sum
      rw [map_append, sum_append, map_singleton, sum_singleton,
        hquiet.delta call, Int.add_zero]
      exact h.value
    · change w.changes = c0 + UInt32.ofNat ((w.tasks ++ [CellTask.mk call (call.start live)]).countP
        CellTask.counted)
      rw [countP_append, countP_singleton, hquiet.counted call]
      exact h.changes
  | step i spurious =>
    unfold CellWorld.act
    dsimp only
    split
    · rename_i task hi
      exact h.stepped hi (step_stepped (h.sound task (mem_of_getElem? hi)) spurious)
    · exact h

theorem SumInv.run (h : SumInv v0 c0 w) (acts : List CellAct) : SumInv v0 c0 (w.run acts) := by
  induction acts generalizing w with
  | nil => exact h
  | cons a acts ih => exact ih (h.act a)

theorem start_inv (v0 : Int64) (c0 : UInt32) : SumInv v0 c0 (.start v0 c0) where
  sound _ h := absurd h not_mem_nil
  value := (Int.add_zero _).symm
  changes := (UInt32.add_zero c0).symm

def CellTask.Landed (task : CellTask) : Prop :=
  (∃ current next, task.stage = .announcing current next) ∨ task.counted = true

def CellTask.Failed (task : CellTask) : Prop :=
  task.stage = .done .exhausted ∨ task.stage = .done .overflow ∨ task.stage = .done .stale

theorem CellTask.Landed.not_failed (h : task.Landed) : ¬task.Failed := by
  obtain ⟨call, stage⟩ := task
  rintro (hfail | hfail | hfail) <;>
  · obtain rfl : stage = _ := hfail
    rcases h with ⟨current, next, h⟩ | h <;> cases h

theorem CellTask.Landed.act (h : SumInv v0 c0 w) (hi : w.tasks[i]? = some task) (hlanded : task.Landed)
    (a : CellAct) : ∃ task', (w.act a).tasks[i]? = some task' ∧ task'.Landed := by
  have hlt : i < w.tasks.length := (List.getElem?_eq_some_iff.mp hi).1
  cases a with
  | begin call live =>
    refine ⟨task, ?_, hlanded⟩
    change (w.tasks ++ [_])[i]? = _
    rw [getElem?_append_left hlt, hi]
  | step j spurious =>
    unfold CellWorld.act
    dsimp only
    split
    · rename_i other hj
      have hset : ∀ stage, i ≠ j → (w.tasks.set j { other with stage })[i]? = some task :=
        fun stage hne => by rw [getElem?_set_ne (Ne.symm hne), hi]
      by_cases hij : i = j
      · subst hij
        rw [hi] at hj
        obtain rfl := Option.some.inj hj
        have hstep := step_stepped (h.sound task (mem_of_getElem? hi)) spurious (w := w) (i := i)
        obtain ⟨call, stage₀⟩ := task
        generalize w.step i ⟨call, stage₀⟩ spurious = w' at hstep
        cases hstep with
        | rests => exact ⟨_, hi, hlanded⟩
        | quiet hfrom =>
          rcases hlanded with ⟨current, next, hstage⟩ | hcounted
          · obtain rfl : stage₀ = _ := hstage
            exact hfrom.elim
          · rw [hfrom.counted call] at hcounted
            cases hcounted
        | swaps hfrom =>
          obtain rfl : stage₀ = _ := hfrom
          rcases hlanded with ⟨current, next, hstage⟩ | hcounted
          · cases hstage
          · cases hcounted
        | counts hfrom hasks hdecide =>
          exact ⟨_, getElem?_set_self hlt, .inr (finish_sound hasks hdecide).2.2⟩
      · refine ⟨task, ?_, hlanded⟩
        have hstep := step_stepped (h.sound other (mem_of_getElem? hj)) spurious (w := w) (i := j)
        generalize w.step j other spurious = w' at hstep
        cases hstep with
        | rests => exact hi
        | quiet => exact hset _ hij
        | swaps => exact hset _ hij
        | counts => exact hset _ hij
    · exact ⟨task, hi, hlanded⟩

theorem CellTask.Landed.run (h : SumInv v0 c0 w) (hi : w.tasks[i]? = some task)
    (hlanded : task.Landed) (acts : List CellAct) :
    ∃ task', (w.run acts).tasks[i]? = some task' ∧ task'.Landed := by
  induction acts generalizing w task with
  | nil => exact ⟨task, hi, hlanded⟩
  | cons a acts ih =>
    obtain ⟨task', hi', hlanded'⟩ := CellTask.Landed.act h hi hlanded a
    exact ih (h.act a) hi' hlanded'

theorem changes_landed (h : SumInv v0 c0 w) {a : CellAct}
    (hchange : (w.act a).value ≠ w.value ∨ (w.act a).changes ≠ w.changes) :
    ∃ i spurious task, a = .step i spurious ∧ (w.act a).tasks[i]? = some task ∧ task.Landed := by
  cases a with
  | begin call live =>
    rcases hchange with hne | hne <;> exact absurd rfl hne
  | step i spurious =>
    cases hi : w.tasks[i]? with
    | none =>
      have hact : w.act (.step i spurious) = w := by
        unfold CellWorld.act
        dsimp only
        rw [hi]
      rw [hact] at hchange
      rcases hchange with hne | hne <;> exact absurd rfl hne
    | some task =>
      have hact : w.act (.step i spurious) = w.step i task spurious := by
        unfold CellWorld.act
        dsimp only
        rw [hi]
      have hlt : i < w.tasks.length := (List.getElem?_eq_some_iff.mp hi).1
      have hstep := step_stepped (h.sound task (mem_of_getElem? hi)) spurious (w := w) (i := i)
      rw [← hact] at hstep
      generalize w.act (.step i spurious) = w' at hstep hchange ⊢
      refine ⟨i, spurious, ?_⟩
      cases hstep with
      | rests => rcases hchange with hne | hne <;> exact absurd rfl hne
      | quiet => rcases hchange with hne | hne <;> exact absurd rfl hne
      | swaps => exact ⟨_, rfl, getElem?_set_self hlt, .inl ⟨_, _, rfl⟩⟩
      | counts hfrom hasks hdecide =>
        exact ⟨_, rfl, getElem?_set_self hlt, .inr (finish_sound hasks hdecide).2.2⟩

/-- The range that a claim has taken: what comes after the first number, up to the second. -/
def CellTask.claimed (task : CellTask) : Option (Int × Int) :=
  match task.stage with
  | .announcing current next => some (current.toInt, next.toInt)
  | .done (.took taken after) => some (after.toInt - taken.toInt, after.toInt)
  | _ => none

theorem Stage.Quiet.claimed (h : stage.Quiet) (call : CellCall) :
    CellTask.claimed ⟨call, stage⟩ = none := by
  cases stage with
  | loading => rfl
  | swapping => rfl
  | announcing => exact h.elim
  | done reply => rcases h with rfl | rfl | rfl <;> rfl
  | panicked => exact h.elim

/-- The tasks are claims up to the limit, and what they have taken is all there is between the first value
and the present one. -/
structure ClaimInv (v0 limit : Int64) (w : CellWorld) : Prop where
  calls : ∀ task ∈ w.tasks, ∃ amount, task.call = .addUntil amount limit
  tiles : Tiles v0.toInt w.value.toInt (w.tasks.map CellTask.claimed)
  bound : w.value.toInt ≤ v0.toInt ∨ w.value.toInt ≤ limit.toInt
  exhausted : ∀ task ∈ w.tasks, task.stage = .done .exhausted → limit ≤ w.value

theorem map_claimed_set {tasks : List CellTask} {task task' : CellTask} (hi : tasks[i]? = some task)
    (h : task'.claimed = task.claimed) :
    (tasks.set i task').map CellTask.claimed = tasks.map CellTask.claimed := by
  obtain ⟨hlt, hget⟩ := List.getElem?_eq_some_iff.mp hi
  have hlt' : i < (tasks.map CellTask.claimed).length := by rwa [length_map]
  have hsame : task'.claimed = (tasks.map CellTask.claimed)[i] := by
    rw [getElem_map, hget, h]
  rw [map_set, hsame, set_getElem_self]

theorem ClaimInv.stepped {w' : CellWorld} (h : ClaimInv v0 limit w) (hi : w.tasks[i]? = some task)
    (hstep : Stepped w i task w') : ClaimInv v0 limit w' := by
  obtain ⟨call, stage₀⟩ := task
  obtain ⟨amount, hcall⟩ := h.calls _ (mem_of_getElem? hi)
  obtain rfl : call = .addUntil amount limit := hcall
  have hcalls : ∀ stage, ∀ other ∈ w.tasks.set i ⟨.addUntil amount limit, stage⟩,
      ∃ amount, other.call = .addUntil amount limit := by
    intro stage other hother
    rcases mem_set_task hother with rfl | hother
    · exact ⟨amount, rfl⟩
    · exact h.calls other hother
  cases hstep with
  | rests => exact h
  | @quiet stage hfrom hto hsound hexhausted =>
    refine ⟨hcalls stage, ?_, h.bound, fun other hother hstage => ?_⟩
    · change Tiles v0.toInt w.value.toInt ((w.tasks.set i _).map CellTask.claimed)
      rw [map_claimed_set hi ((hto.claimed _).trans (hfrom.claimed _).symm)]
      exact h.tiles
    · rcases mem_set_task hother with rfl | hother
      · obtain ⟨amount', limit', heq, hle⟩ := hexhausted hstage
        cases heq
        exact hle
      · exact h.exhausted other hother hstage
  | @swaps next hfrom hasks hdecide =>
    obtain rfl : stage₀ = .swapping w.value next := hfrom
    obtain ⟨hnext, hpos, -, hlimit⟩ := claim_bounds hasks hdecide
    refine ⟨hcalls _, ?_, .inr hlimit, fun other hother hstage => ?_⟩
    · have hnone : (w.tasks.map CellTask.claimed)[i]? = some none := by
        rw [getElem?_map, hi]
        rfl
      have htiles := h.tiles.extend hnone (show w.value.toInt < next.toInt by omega)
      dsimp only
      rwa [map_set]
    · rcases mem_set_task hother with rfl | hother
      · cases hstage
      · have hle := h.exhausted other hother hstage
        rw [Int64.le_iff_toInt_le] at hle ⊢
        dsimp only
        omega
  | @counts current next hfrom hasks hdecide =>
    obtain rfl : stage₀ = .announcing current next := hfrom
    obtain ⟨hnext, -⟩ := claim_bounds hasks hdecide
    refine ⟨hcalls _, ?_, h.bound, fun other hother hstage => ?_⟩
    · have hclaimed : CellTask.claimed ⟨.addUntil amount limit,
          .done (.took (taken amount limit current) next)⟩ = some (current.toInt, next.toInt) := by
        change some (next.toInt - (taken amount limit current).toInt, next.toInt) = _
        rw [hnext, Int.add_sub_cancel]
      have htiles := h.tiles
      rw [← map_claimed_set hi hclaimed] at htiles
      exact htiles
    · rcases mem_set_task hother with rfl | hother
      · cases hstage
      · exact h.exhausted other hother hstage

theorem ClaimInv.act (h : ClaimInv v0 limit w) (hsum : SumInv v0 c0 w) {a : CellAct}
    (ha : ∀ call live, a = .begin call live → ∃ amount, call = .addUntil amount limit) :
    ClaimInv v0 limit (w.act a) := by
  cases a with
  | begin call live =>
    obtain ⟨amount, rfl⟩ := ha call live rfl
    obtain ⟨hquiet, -, hstart⟩ := start_sound (.addUntil amount limit) live
    refine ⟨fun task htask => ?_, ?_, h.bound, fun task htask hstage => ?_⟩
    · rcases mem_append.mp htask with htask | htask
      · exact h.calls task htask
      · rw [mem_singleton.mp htask]
        exact ⟨amount, rfl⟩
    · change Tiles v0.toInt w.value.toInt ((w.tasks ++ [CellTask.mk _ _]).map CellTask.claimed)
      rw [map_append, map_singleton, hquiet.claimed]
      exact h.tiles.skip
    · rcases mem_append.mp htask with htask | htask
      · exact h.exhausted task htask hstage
      · rw [mem_singleton.mp htask] at hstage
        exact absurd hstage hstart
  | step i spurious =>
    unfold CellWorld.act
    dsimp only
    split
    · rename_i task hi
      exact h.stepped hi (step_stepped (hsum.sound task (mem_of_getElem? hi)) spurious)
    · exact h

theorem ClaimInv.run (h : ClaimInv v0 limit w) (hsum : SumInv v0 c0 w) {acts : List CellAct}
    (hacts : ∀ call live, .begin call live ∈ acts → ∃ amount, call = .addUntil amount limit) :
    ClaimInv v0 limit (w.run acts) := by
  induction acts generalizing w with
  | nil => exact h
  | cons a acts ih =>
    refine ih (h.act hsum fun call live heq => ?_) (hsum.act a) fun call live hmem =>
      hacts call live (mem_cons_of_mem _ hmem)
    exact hacts call live (heq ▸ mem_cons_self)

/-- In every run no sum overflows, only calls that do not fail change the cell, and the value and the
count of changes are what they have added; and claims up to one limit do not pass it, take at least one
and at most what they ask for, range by range without a gap or an overlap, and find nothing left only when
the limit has been reached. -/
theorem bounded_claims_partition (v0 : Int64) (c0 : UInt32) (acts : List CellAct) :
    let w := (CellWorld.start v0 c0).run acts
    (∀ task ∈ w.tasks, task.stage ≠ .panicked) ∧
    (∀ before a after, acts = before ++ a :: after →
      let u := (CellWorld.start v0 c0).run before
      ((u.act a).value ≠ u.value ∨ (u.act a).changes ≠ u.changes) →
        ∃ i spurious task, a = .step i spurious ∧ w.tasks[i]? = some task ∧ ¬task.Failed) ∧
    w.value.toInt = v0.toInt + (w.tasks.map CellTask.delta).sum ∧
    w.changes = c0 + UInt32.ofNat (w.tasks.countP CellTask.counted) ∧
    ∀ limit : Int64, (∀ call live, .begin call live ∈ acts → ∃ amount, call = .addUntil amount limit) →
      (w.value.toInt ≤ v0.toInt ∨ w.value.toInt ≤ limit.toInt) ∧
      Tiles v0.toInt w.value.toInt (w.tasks.map CellTask.claimed) ∧
      ∀ task ∈ w.tasks,
        (∀ taken after, task.stage = .done (.took taken after) → ∃ amount,
          task.call = .addUntil amount limit ∧ 1 ≤ taken.toInt ∧ taken.toInt ≤ amount.toInt) ∧
        (task.stage = .done .exhausted → limit ≤ w.value) := by
  intro w
  have hsum : SumInv v0 c0 w := (start_inv v0 c0).run acts
  refine ⟨fun task htask hpanicked => ?_, fun before a after hacts => ?_, hsum.value,
    hsum.changes, fun limit hcalls => ?_⟩
  · have hsound := hsum.sound task htask
    obtain ⟨call, stage₀⟩ := task
    obtain rfl : stage₀ = .panicked := hpanicked
    cases hsound
  · intro u hchange
    have hu : SumInv v0 c0 u := (start_inv v0 c0).run before
    obtain ⟨i, spurious, task, rfl, hi, hlanded⟩ := changes_landed hu hchange
    obtain ⟨task', hi', hlanded'⟩ := CellTask.Landed.run (hu.act _) hi hlanded after
    refine ⟨i, spurious, task', rfl, ?_, hlanded'.not_failed⟩
    have hw : w = (u.act (.step i spurious)).run after := by
      change (CellWorld.start v0 c0).run acts = _
      rw [hacts]
      exact foldl_append
    rw [hw, hi']
  · have hstart : ClaimInv v0 limit (.start v0 c0) :=
      ⟨fun _ h => absurd h not_mem_nil, .nil _, .inl (Int.le_refl _),
        fun _ h => absurd h not_mem_nil⟩
    have hclaims : ClaimInv v0 limit w := hstart.run (start_inv v0 c0) hcalls
    refine ⟨hclaims.bound, hclaims.tiles, fun task htask => ⟨fun taken' after hstage => ?_,
      hclaims.exhausted task htask⟩⟩
    obtain ⟨amount, hcall⟩ := hclaims.calls task htask
    have hsound := hsum.sound task htask
    obtain ⟨call, stage₀⟩ := task
    obtain rfl : call = .addUntil amount limit := hcall
    obtain rfl : stage₀ = .done (.took taken' after) := hstage
    cases hsound with
    | took h hdecide =>
      obtain ⟨-, hpos, hmost, -⟩ := claim_bounds h hdecide
      exact ⟨amount, rfl, hpos, hmost⟩

end OrbitCell
