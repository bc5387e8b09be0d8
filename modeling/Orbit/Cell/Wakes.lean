import Orbit.Cell.Signals

/-! A waiter that is parked has nothing to wake for, or a wake is coming. -/

namespace OrbitCell.Waits

open Orbit.Atomic List Function Option

variable {kind : Kind} {textMax : Nat} {w w' : World} {i : Nat} {owner token : UInt64} {wait : Wait}
  {waiter : Waiter} {call : Call} {stage : Stage} {task task' : Task} {late : Bool}

variable {slot' : Slot} {stage' : Stage}

variable {waiter' : Waiter}

def Waiter.share (waiter : Waiter) : Nat := if waiter.registered then 1 else 0

theorem waits_recovered {slot : Slot} (hi : w.tasks[i]? = some ⟨owner, .waits wait waiter⟩)
    (h : (w.move i owner slot (.waits wait waiter')).Recovered late token) : w.Recovered late token := by
  refine Recovered.of_set h rfl hi rfl rfl fun hrecovers => ?_
  rcases hrecovers with hwork | ⟨-, hwork⟩ <;> cases hwork

theorem Inv.waits {waiters : UInt32} (h : Inv kind w)
    (hi : w.tasks[i]? = some ⟨owner, .waits wait waiter⟩)
    (hcount : waiters.toNat + waiter.share = w.slot.waiters.toNat + waiter'.share)
    (hnew : w.Hears kind owner wait waiter') :
    Inv kind (w.move i owner { w.slot with waiters } (.waits wait waiter')) := by
  have hcoming : ∀ late reason, w.Coming late reason →
      (w.move i owner { w.slot with waiters } (.waits wait waiter')).Coming late reason := by
    intro late reason hold
    refine Coming.set hold hi rfl (fun _ _ _ _ hother => ?_) fun hself => ?_
    · exact Comes.keep hother rfl fun _ _ howns hrecovered => ⟨howns, fun hnow =>
        hrecovered (waits_recovered hi hnow)⟩
    · obtain ⟨call, stage, hwork, -⟩ := hself
      cases hwork
  have hversion : ({ w.slot with waiters } : Slot).version kind = w.slot.version kind := by
    cases kind <;> rfl
  have hkept : Kept kind w (w.move i owner { w.slot with waiters } (.waits wait waiter')) :=
    ⟨.inl hversion, fun hretired => .inl hretired, fun _ hflag => .inl hflag, rfl, fun _ hdead => hdead,
      hcoming false⟩
  have hkeeps : ∀ {owner' : UInt64} {wait' : Wait} {waiter₁ : Waiter},
      w.Hears kind owner' wait' waiter₁ →
        (w.move i owner { w.slot with waiters } (.waits wait waiter')).Hears kind owner' wait' waiter₁ := by
    intro owner' wait' waiter₁ hears
    refine hkept.hears (fun _ hshown => ?_) (fun _ _ => hcoming true) hears
    exact Shown.keep hshown hversion rfl (fun hdead => hdead) fun hcounting =>
      Counting.set hcounting hi rfl fun hwork => (by cases hwork)
  refine ⟨?_, fun task hmem wait' waiter₁ hwork => ?_, fun task hmem call stage hwork => ?_, ?_,
    fun task hmem token stage hwork => ?_⟩
  · have hold := total_eq hi Task.registered
    have hset := total_set hi Task.registered ⟨owner, .waits wait waiter'⟩
    have htotal := h.count
    have hfrom : Task.registered ⟨owner, .waits wait waiter⟩ = waiter.share := rfl
    have hto : Task.registered ⟨owner, .waits wait waiter'⟩ = waiter'.share := rfl
    change waiters.toNat = total Task.registered (w.tasks.set i _)
    omega
  · rcases mem_of_mem_set hmem with rfl | hmem
    · cases hwork
      exact hkeeps hnew
    · exact hkeeps (h.hears task hmem wait' waiter₁ hwork)
  · rcases mem_of_mem_set hmem with rfl | hmem
    · cases hwork
    · exact h.visits task hmem call stage hwork
  · refine h.writers.set hi rfl rfl rfl rfl (fun hwriting => absurd hwriting not_writing_waits) ?_
    intro bytes append stage hwork
    cases hwork
  · rcases mem_of_mem_set hmem with rfl | hmem
    · cases hwork
    · exact h.recovers task hmem token stage hwork

theorem hears_settle (kind : Kind) (w : World) (owner : UInt64) (wait : Wait) {observed : UInt32}
    (hle : observed.toNat ≤ w.slot.sequence.toNat)
    (hall : ∀ reason, w.Due kind wait reason → w.Covered observed reason) :
    w.Hears kind owner wait (settle observed) ∧ (settle observed).share = 1 := by
  by_cases hlast : observed = lastSequence
  · rw [settle, if_pos hlast]
    exact ⟨trivial, rfl⟩
  · rw [settle, if_neg hlast]
    exact ⟨⟨hle, hlast, hall⟩, rfl⟩

theorem hears_turn (kind : Kind) (w : World) (owner : UInt64) (wait : Wait) :
    w.Hears kind owner wait wait.turn ∧ wait.turn.share = 0 := by
  unfold Wait.turn
  split
  · exact ⟨trivial, rfl⟩
  · exact ⟨trivial, rfl⟩

theorem waiter_step (h : w.Hears kind owner wait waiter) (halive : w.dead owner = false)
    (hfull : waiter = .registers → w.slot.waiters ≠ lastSequence)
    (hshare : waiter.share ≤ w.slot.waiters.toNat)
    (hstep : stepWaiter kind w.slot w.flags wait waiter = some (slot', waiter')) :
    ∃ waiters : UInt32, slot' = { w.slot with waiters } ∧
      waiters.toNat + waiter.share = w.slot.waiters.toNat + waiter'.share ∧
        w.Hears kind owner wait waiter' := by
  cases waiter with
  | interrupts =>
    unfold stepWaiter at hstep
    dsimp only at hstep
    split at hstep
    · obtain ⟨rfl, rfl⟩ := Prod.mk.inj (Option.some.inj hstep)
      refine ⟨w.slot.waiters, rfl, ?_, ?_⟩ <;> split <;> trivial
    · cases hstep
  | looks =>
    obtain ⟨rfl, rfl⟩ := Prod.mk.inj (Option.some.inj hstep)
    refine ⟨w.slot.waiters, rfl, ?_, ?_⟩
    · split <;> rfl
    · split
      · trivial
      · rename_i hlive
        exact fun _ _ hretired => absurd hretired hlive
  | loads =>
    obtain ⟨rfl, rfl⟩ := Prod.mk.inj (Option.some.inj hstep)
    refine ⟨w.slot.waiters, rfl, ?_, ?_⟩
    · split <;> rfl
    · split
      · trivial
      · exact h
  | registers =>
    obtain ⟨rfl, rfl⟩ := Prod.mk.inj (Option.some.inj hstep)
    refine ⟨w.slot.waiters + 1, rfl, ?_, h⟩
    have hne : w.slot.waiters.toNat ≠ lastSequence.toNat := fun heq =>
      hfull rfl (UInt32.toNat_inj.mp heq)
    have hlt := w.slot.waiters.toNat_lt
    have hnat : lastSequence.toNat = 4294967295 := rfl
    simp only [UInt32.toNat_add, UInt32.reduceToNat, Waiter.share, Waiter.registered]
    simp only [Bool.false_eq_true, if_false, if_true]
    omega
  | observes =>
    obtain ⟨rfl, rfl⟩ := Prod.mk.inj (Option.some.inj hstep)
    refine ⟨w.slot.waiters, rfl, ?_, ?_⟩
    · cases kind <;> rfl
    · cases kind with
      | text => exact Nat.le_refl _
      | scalar =>
        refine ⟨Nat.le_refl _, fun hlive hretired => ?_⟩
        rcases h rfl hlive hretired with hversion | ⟨task, hmem, hwork⟩
        · exact .inl ⟨rfl, hversion⟩
        · exact .inr fun _ => .inr ⟨task, hmem, .release, .counts, hwork, .inl rfl, trivial⟩
  | checksState observed =>
    obtain ⟨rfl, rfl⟩ := Prod.mk.inj (Option.some.inj hstep)
    refine ⟨w.slot.waiters, rfl, ?_, ?_⟩
    · split <;> rfl
    · split
      · trivial
      · rename_i hlive
        exact ⟨h, fun _ hretired => absurd hretired hlive⟩
  | checksVersion observed =>
    obtain ⟨rfl, rfl⟩ := Prod.mk.inj (Option.some.inj hstep)
    obtain ⟨hle, hreleased⟩ := h
    by_cases hversion : w.slot.version kind ≠ wait.since
    · rw [if_pos hversion]
      exact ⟨w.slot.waiters, rfl, rfl, trivial⟩
    · have hcovered : w.slot.retired = true → w.Covered observed .released := fun hretired =>
        (hreleased halive hretired).resolve_left fun hscalar => hversion hscalar.2
      rw [if_neg hversion]
      cases hinterrupt : wait.interrupt with
      | some flag =>
        exact ⟨w.slot.waiters, rfl, rfl, hle, fun hnow => absurd hnow hversion, hcovered⟩
      | none =>
        obtain ⟨hhears, hone⟩ := hears_settle kind w owner wait hle fun reason hdue => by
            cases reason with
            | changed => exact absurd hdue hversion
            | released => exact hcovered hdue
            | interrupted flag =>
              rw [World.Due, hinterrupt] at hdue
              cases hdue.1
        exact ⟨w.slot.waiters, rfl, congrArg _ hone.symm, hhears⟩
  | checksInterrupt observed =>
    obtain ⟨hle, hchanged, hreleased⟩ := h
    unfold stepWaiter at hstep
    dsimp only at hstep
    split at hstep
    · rename_i flag hinterrupt
      obtain ⟨rfl, rfl⟩ := Prod.mk.inj (Option.some.inj hstep)
      by_cases hflag : w.flags flag = true
      · rw [if_pos hflag]
        exact ⟨w.slot.waiters, rfl, rfl, trivial⟩
      · rw [if_neg hflag]
        obtain ⟨hhears, hone⟩ := hears_settle kind w owner wait hle fun reason hdue => by
            cases reason with
            | changed => exact hchanged hdue
            | released => exact hreleased hdue
            | interrupted flag' =>
              rw [World.Due, hinterrupt] at hdue
              obtain ⟨heq, hset⟩ := hdue
              cases heq
              exact absurd hset hflag
        exact ⟨w.slot.waiters, rfl, congrArg _ hone.symm, hhears⟩
    · cases hstep
  | parks observed =>
    obtain ⟨hle, hlast, hall⟩ := h
    obtain ⟨rfl, rfl⟩ := Prod.mk.inj (Option.some.inj hstep)
    refine ⟨w.slot.waiters, rfl, ?_, ?_⟩
    · split <;> rfl
    · split
      · rename_i hsame
        intro reason hdue
        exact Coming.mono ((hall reason hdue hlast).resolve_left fun hne => hne hsame)
      · trivial
  | parked observed => cases hstep
  | leaves reply =>
    obtain ⟨rfl, rfl⟩ := Prod.mk.inj (Option.some.inj hstep)
    have hpos : 1 ≤ w.slot.waiters.toNat := hshare
    have hdown : (w.slot.waiters - 1).toNat + 1 = w.slot.waiters.toNat := by
      have hlt := w.slot.waiters.toNat_lt
      simp only [UInt32.toNat_sub, UInt32.reduceToNat]
      omega
    refine ⟨w.slot.waiters - 1, rfl, ?_, ?_⟩
    · cases reply with
      | some reply => exact hdown
      | none =>
        change _ = w.slot.waiters.toNat + wait.turn.share
        rw [(hears_turn kind w owner wait).2]
        exact hdown
    · cases reply with
      | some reply => trivial
      | none => exact (hears_turn kind w owner wait).1
  | done reply => cases hstep

theorem Inv.share_le (h : Inv kind w) (hi : w.tasks[i]? = some ⟨owner, .waits wait waiter⟩) :
    waiter.share ≤ w.slot.waiters.toNat := by
  rw [h.count]
  exact le_total (mem_of_getElem? hi) Task.registered

theorem early_share {failed : Bool} (h : early failed waiter = some waiter') :
    waiter'.share = waiter.share ∧ w.Hears kind owner wait waiter' := by
  cases waiter with
  | parks observed =>
    cases h
    exact ⟨rfl, trivial⟩
  | parked observed =>
    cases h
    exact ⟨rfl, trivial⟩
  | _ => cases h

theorem Inv.begins {work : Work} (h : Inv kind w)
    (hwaits : ∀ wait waiter, work = .waits wait waiter → waiter = wait.turn)
    (hcalls : ∀ call stage, work = .calls call stage → stage = call.start ∧ call.Visits kind stage)
    (hwrite : ∀ bytes append stage, work = .calls (.write bytes append) stage → owner ≠ 0)
    (hrecover : ∀ token stage, work = .calls (.recover token) stage → w.dead token = true) :
    Inv kind { w with tasks := w.tasks ++ [⟨owner, work⟩] } := by
  generalize hw : ({ w with tasks := w.tasks ++ [⟨owner, work⟩] } : World) = w'
  have htasks : w'.tasks = w.tasks ++ [⟨owner, work⟩] := by
    rw [← hw]
  have hslot : w'.slot = w.slot := by
    rw [← hw]
  have hflags : w'.flags = w.flags := by
    rw [← hw]
  have hdead : w'.dead = w.dead := by
    rw [← hw]
  have hcases : ∀ {task : Task}, task ∈ w'.tasks → task ∈ w.tasks ∨ task = ⟨owner, work⟩ := by
    intro task hmem
    rw [htasks, mem_append, mem_singleton] at hmem
    exact hmem
  have hold : ∀ {task : Task}, task ∈ w.tasks → task ∈ w'.tasks := fun hmem =>
    htasks ▸ mem_append_left _ hmem
  have hrecovered : ∀ late token, w'.Recovered late token → w.Recovered late token := by
    rintro late token ⟨task, hmem, halive, hrecovers⟩
    rcases hcases hmem with hmem | rfl
    · exact ⟨task, hmem, hdead ▸ halive, hrecovers⟩
    · rcases hrecovers with hwork | ⟨-, hwork⟩ <;> cases (hcalls _ _ hwork).1
  have hcoming : ∀ late reason, w.Coming late reason → w'.Coming late reason := by
    rintro late reason ⟨task, hmem, hcomes⟩
    refine ⟨task, hold hmem, Comes.keep hcomes hdead fun _ _ howns hnow => ⟨hslot ▸ howns, ?_⟩⟩
    exact fun hlater => hnow (hrecovered late _ hlater)
  have hkept : Kept kind w w' := ⟨.inl (hslot ▸ rfl), fun hretired => .inl (hslot ▸ hretired),
    fun _ hflag => .inl (hflags ▸ hflag), hslot ▸ rfl, fun _ halive => hdead ▸ halive, hcoming false⟩
  have hwriting : ¬Task.Writing ⟨owner, work⟩ := by
    rintro ⟨bytes, append, stage, hwork, hstage⟩
    obtain ⟨rfl, -⟩ := hcalls _ _ hwork
    cases hstage
  refine ⟨?_, fun task hmem wait waiter hwork => ?_, fun task hmem call stage hwork => ?_,
    ⟨fun task hmem hwrites halive => ?_, fun task hmem bytes append stage hwork => ?_,
      fun j k task task' hj hk hwrites hwrites' howns howns' => ?_⟩,
    fun task hmem token stage hwork => ?_⟩
  · have hnew : Task.registered ⟨owner, work⟩ = 0 := by
      cases work with
      | calls call stage => rfl
      | waits wait waiter =>
        obtain rfl := hwaits wait waiter rfl
        exact (hears_turn kind w owner wait).2
    rw [htasks, total_append, total_cons, hnew, total_nil, hslot, h.count]
    rfl
  · rcases hcases hmem with hmem | rfl
    · refine hkept.hears (fun _ hshown => ?_) (fun _ _ => hcoming true) (h.hears task hmem wait waiter hwork)
      refine Shown.keep hshown (hslot ▸ rfl) (hslot ▸ rfl) (fun halive => hdead ▸ halive) ?_
      rintro ⟨other, hother, hcounts⟩
      exact ⟨other, hold hother, hcounts⟩
    · obtain rfl := hwaits wait waiter hwork
      exact (hears_turn kind w' owner wait).1
  · rcases hcases hmem with hmem | rfl
    · exact h.visits task hmem call stage hwork
    · exact (hcalls call stage hwork).2
  · rw [hdead] at halive
    rw [hslot]
    rcases hcases hmem with hmem | rfl
    · exact h.writers.writes task hmem hwrites halive
    · exact absurd hwrites hwriting
  · rcases hcases hmem with hmem | rfl
    · exact h.writers.nonzero task hmem bytes append stage hwork
    · exact hwrite bytes append stage hwork
  · rw [htasks] at hj hk
    rw [hslot] at howns howns'
    rcases getElem?_concat hj with hj | ⟨-, rfl⟩
    · rcases getElem?_concat hk with hk | ⟨-, rfl⟩
      · exact h.writers.alone j k task task' hj hk hwrites hwrites' howns howns'
      · exact absurd hwrites' hwriting
    · exact absurd hwrites hwriting
  · rw [hdead]
    rcases hcases hmem with hmem | rfl
    · exact h.recovers task hmem token stage hwork
    · exact hrecover token stage hwork

theorem Inv.dies (h : Inv kind w) (owner : UInt64) :
    Inv kind { w with dead := update w.dead owner true } := by
  generalize hw : ({ w with dead := update w.dead owner true } : World) = w'
  have htasks : w'.tasks = w.tasks := by
    rw [← hw]
  have hslot : w'.slot = w.slot := by
    rw [← hw]
  have hflags : w'.flags = w.flags := by
    rw [← hw]
  have hdead : ∀ other, w'.dead other = false → w.dead other = false := by
    intro other halive
    rw [← hw] at halive
    change update w.dead owner true other = false at halive
    by_cases heq : other = owner
    · subst heq
      rw [update_self] at halive
      cases halive
    · rwa [update_of_ne heq] at halive
  have hstays : ∀ other, w.dead other = true → w'.dead other = true := fun other hother => by
    cases halive : w'.dead other with
    | true => rfl
    | false => exact absurd hother (by rw [hdead other halive]; exact Bool.false_ne_true)
  have hrecovered : ∀ late token, w'.Recovered late token → w.Recovered late token := by
    rintro late token ⟨task, hmem, halive, hrecovers⟩
    exact ⟨task, htasks ▸ hmem, hdead _ halive, hrecovers⟩
  have hnobody : ∀ late token, w.dead token = false → ¬w.Recovered late token := by
    rintro late token halive ⟨task, hmem, -, hrecovers⟩
    have hgone : w.dead token = true := by
      rcases hrecovers with hwork | ⟨-, hwork⟩ <;> exact h.recovers task hmem token _ hwork
    rw [halive] at hgone
    cases hgone
  have hcoming : ∀ late reason, w.Coming late reason → w'.Coming late reason := by
    rintro late reason ⟨task, hmem, call, stage, hwork, hstage, hrelied⟩
    refine ⟨task, htasks ▸ hmem, call, stage, hwork, hstage, ?_⟩
    cases call with
    | write bytes append =>
      rcases hrelied with halive | ⟨howns, hnow⟩
      · have hwriting : task.Writing := ⟨bytes, append, stage, hwork, writing_of_bumps hstage⟩
        exact .inr ⟨hslot ▸ h.writers.writes task hmem hwriting halive, fun hlater =>
          hnobody late _ halive (hrecovered late _ hlater)⟩
      · exact .inr ⟨hslot ▸ howns, fun hlater => hnow (hrecovered late _ hlater)⟩
    | recover token => exact hrelied.elim
    | _ => trivial
  have hkept : Kept kind w w' := ⟨.inl (hslot ▸ rfl), fun hretired => .inl (hslot ▸ hretired),
    fun _ hflag => .inl (hflags ▸ hflag), hslot ▸ rfl, hdead, hcoming false⟩
  refine ⟨by rw [hslot, htasks]; exact h.count, fun task hmem wait waiter hwork => ?_,
    fun task hmem => h.visits task (htasks ▸ hmem),
    ⟨fun task hmem hwriting halive => ?_, fun task hmem => h.writers.nonzero task (htasks ▸ hmem),
      fun j k task task' hj hk hwriting hwriting' howns howns' => ?_⟩,
    fun task hmem token stage hwork => hstays _ (h.recovers task (htasks ▸ hmem) token stage hwork)⟩
  · refine hkept.hears (fun _ hshown => ?_) (fun _ _ => hcoming true)
      (h.hears task (htasks ▸ hmem) wait waiter hwork)
    refine Shown.keep hshown (hslot ▸ rfl) (hslot ▸ rfl) (hdead _) ?_
    rintro ⟨other, hother, hcounts⟩
    exact ⟨other, htasks ▸ hother, hcounts⟩
  · rw [hslot]
    exact h.writers.writes task (htasks ▸ hmem) hwriting (hdead _ halive)
  · rw [hslot] at howns howns'
    rw [htasks] at hj hk
    exact h.writers.alone j k task task' hj hk hwriting hwriting' howns howns'

theorem Inv.lowers (h : Inv kind w) (flag : Nat) :
    Inv kind { w with flags := update w.flags flag false } := by
  have hkept : Kept kind w { w with flags := update w.flags flag false } := by
    refine ⟨.inl rfl, fun hretired => .inl hretired, fun f hflag => .inl ?_, rfl, fun _ hdead => hdead,
      fun _ hcoming => hcoming⟩
    change update w.flags flag false f = true at hflag
    by_cases heq : f = flag
    · subst heq
      rw [update_self] at hflag
      cases hflag
    · rwa [update_of_ne heq] at hflag
  refine ⟨h.count, fun task hmem wait waiter hwork => ?_, h.visits, ⟨h.writers.writes,
    h.writers.nonzero, h.writers.alone⟩, h.recovers⟩
  exact hkept.hears (fun _ hshown => hshown) (fun _ _ _ hcoming => hcoming)
    (h.hears task hmem wait waiter hwork)

theorem effect_eq (hflags : stage ≠ .flags) (hwakes : stage ≠ .wakes) : w.effect call stage = w := by
  have hraise : call.raise w.flags stage = w.flags := by
    cases call with
    | wake flag =>
      cases flag with
      | none => rfl
      | some flag => cases stage <;> first | rfl | exact absurd rfl hflags
    | _ => rfl
  rw [World.effect, hraise, if_neg hwakes]

theorem effect_flags (flag : Nat) : w.effect (.wake (some flag)) .flags =
    { w with flags := update w.flags flag true } := by
  rw [World.effect, if_neg (by decide)]
  rfl

theorem effect_wakes (call : Call) : w.effect call .wakes = w.wakeAll := by
  rw [World.effect, if_pos rfl]
  cases call with
  | wake flag => cases flag <;> rfl
  | _ => rfl

theorem safe_registers (h : Safe kind w (.step i))
    (hi : w.tasks[i]? = some ⟨owner, .waits wait .registers⟩) : w.slot.waiters ≠ lastSequence := by
  unfold Safe World.safe at h
  dsimp only at h
  rw [hi] at h
  exact of_decide_eq_true h

theorem safe_counts (h : Safe .scalar w (.step i))
    (hi : w.tasks[i]? = some ⟨owner, .calls call .counts⟩) (hretired : w.slot.retired = true)
    (hmem : task ∈ w.tasks) (hwork : task.work = .waits wait waiter) (hunseen : waiter.unseen = true)
    (halive : w.dead task.owner = false) : (w.slot.changes + 1).toUInt64 ≠ wait.since := by
  unfold Safe World.safe at h
  dsimp only at h
  rw [hi] at h
  simp only [hretired, Bool.not_true, Bool.or_false, Bool.or_eq_true, decide_eq_true_eq,
    List.all_eq_true] at h
  rcases h with hkind | hall
  · cases hkind
  · have hpast := hall task hmem
    unfold World.pastOr at hpast
    rw [hwork] at hpast
    dsimp only at hpast
    rw [hunseen, halive, Bool.not_true, Bool.false_or, Bool.false_or] at hpast
    exact of_decide_eq_true hpast

theorem Inv.call_step (h : Inv kind w) (hi : w.tasks[i]? = some ⟨owner, .calls call stage⟩)
    (halive : w.dead owner = false) (hsafe : Safe kind w (.step i))
    (hstep : stepCall kind textMax w.slot owner call stage = some (slot', stage')) :
    Inv kind ((w.effect call stage).move i owner slot' (.calls call stage')) := by
  have hvisits := h.visits _ (mem_of_getElem? hi) call stage rfl
  have hsame := Slot.Same.refl w.slot
  cases stage with
  | flags =>
    cases hstep
    cases call with
    | wake flag =>
      cases flag with
      | none => cases hvisits
      | some flag =>
        rw [effect_flags]
        exact h.raises hi
    | _ => exact hvisits.elim
  | looks =>
    rw [effect_eq (by decide) (by decide)]
    cases hstep
    by_cases hretired : w.slot.retired = true
    · rw [if_pos hretired]
      exact h.dismisses hi hretired
    · rw [if_neg hretired]
      refine h.passes hi halive hsame ?_ (fun late token hrecovers => ?_) (fun reason hbumps => ?_)
        (by decide) (by decide) fun bytes append hcall hwriting => ?_
      · cases call with
        | recover token => exact hvisits.elim
        | write bytes append => exact hvisits
        | _ => trivial
      · cases call with
        | recover token => exact hvisits.elim
        | _ => rcases hrecovers with hwork | ⟨-, hwork⟩ <;> cases hwork
      · obtain ⟨flag, rfl, -⟩ := hbumps
        trivial
      · subst hcall
        cases hwriting
  | stores =>
    rw [effect_eq (by decide) (by decide)]
    cases call with
    | store f =>
      unfold stepCall at hstep
      dsimp only at hstep
      split at hstep
      · cases hstep
        refine h.passes hi halive ⟨rfl, rfl, rfl, rfl, rfl, rfl⟩ trivial ?_ (fun _ hbumps => hbumps.elim)
          (by decide) (by decide) fun _ _ hcall => by cases hcall
        rintro late token (hwork | ⟨-, hwork⟩) <;> cases hwork
      · cases hstep
        refine h.passes hi halive hsame trivial ?_ (fun _ hbumps => hbumps.elim)
          (by decide) (by decide) fun _ _ hcall => by cases hcall
        rintro late token (hwork | ⟨-, hwork⟩) <;> cases hwork
    | _ => exact hvisits.elim
  | counts =>
    rw [effect_eq (by decide) (by decide)]
    cases hstep
    refine h.gives hi halive ?_ ?_ (fun _ => trivial) rfl rfl rfl ?_ ?_
    · rintro token rfl
      exact hvisits.elim
    · cases call with
      | store f => trivial
      | release => trivial
      | _ => exact hvisits.elim
    · rintro bytes append rfl
      exact hvisits.elim
    · intro task hmem wait waiter hwork hunseen _ hscalar hlive hretired
      left
      subst hscalar
      exact safe_counts hsafe hi hretired hmem hwork hunseen hlive
  | claims =>
    rw [effect_eq (by decide) (by decide)]
    cases call with
    | write bytes append =>
      unfold stepCall at hstep
      dsimp only at hstep
      split at hstep
      · rename_i hzero
        cases hstep
        exact h.claims hi halive hzero hvisits
      · cases hstep
        refine h.passes hi halive hsame trivial ?_ (fun _ hbumps => hbumps.elim)
          (by decide) (by decide) fun _ _ _ hwriting => by cases hwriting
        rintro late token (hwork | ⟨-, hwork⟩) <;> cases hwork
    | _ => exact hvisits.elim
  | prepares =>
    rw [effect_eq (by decide) (by decide)]
    cases call with
    | write bytes append =>
      cases hstep
      refine h.passes hi halive hsame ?_ ?_ (fun _ hbumps => hbumps.elim)
        (by decide) (by decide) fun _ _ _ _ => rfl
      · split
        · exact hvisits
        · trivial
      · rintro late token (hwork | ⟨-, hwork⟩) <;> split at hwork <;> cases hwork
    | _ => exact hvisits.elim
  | fills before =>
    rw [effect_eq (fun heq => by cases heq) (fun heq => by cases heq)]
    cases call with
    | write bytes append =>
      unfold stepCall at hstep
      dsimp only at hstep
      split at hstep
      · cases hstep
        refine h.passes hi halive ⟨rfl, rfl, rfl, rfl, rfl, rfl⟩ ?_ ?_ (fun _ hbumps => hbumps.elim)
          (fun heq => by cases heq) (fun heq => by cases heq) fun _ _ _ _ => rfl
        · exact hvisits
        · rintro late token (hwork | ⟨-, hwork⟩) <;> cases hwork
      · cases hstep
        refine h.passes hi halive hsame trivial ?_ (fun _ hbumps => hbumps.elim)
          (fun heq => by cases heq) (fun heq => by cases heq) fun _ _ _ _ => rfl
        rintro late token (hwork | ⟨-, hwork⟩) <;> cases hwork
    | _ => exact hvisits.elim
  | commits next =>
    rw [effect_eq (fun heq => by cases heq) (fun heq => by cases heq)]
    cases hstep
    cases call with
    | write bytes append =>
      obtain rfl : kind = .text := hvisits
      refine h.gives hi halive (fun _ hcall => by cases hcall) trivial (fun _ => trivial) rfl rfl rfl
        (fun _ _ _ _ => rfl) ?_
      intro task _ wait waiter _ _ _ hscalar
      cases hscalar
    | _ => exact hvisits.elim
  | retires =>
    rw [effect_eq (by decide) (by decide)]
    cases hstep
    cases call with
    | release =>
      refine h.gives hi halive (fun _ hcall => by cases hcall) ?_ (fun reason => ?_) rfl rfl rfl
        (fun _ _ hcall => by cases hcall) ?_
      · cases kind <;> trivial
      · cases kind with
        | scalar => exact rfl
        | text => trivial
      · intro task _ wait waiter _ _ _ hscalar _ _
        subst hscalar
        exact .inr ⟨_, self_mem_set hi, rfl⟩
    | _ => exact hvisits.elim
  | announces =>
    rw [effect_eq (by decide) (by decide)]
    cases hstep
    by_cases hzero : w.slot.waiters = 0
    · rw [if_neg (fun hne => hne hzero)]
      exact h.ignores hi hzero (visits_after call) fun _ _ _ _ => rfl
    · rw [if_pos hzero]
      refine h.passes hi halive hsame (visits_bumps call) ?_ (fun _ _ => trivial)
        (by decide) (by decide) fun _ _ _ _ => rfl
      rintro late token (hwork | ⟨-, hwork⟩) <;> cases hwork
  | bumps =>
    rw [effect_eq (by decide) (by decide)]
    cases hstep
    exact h.bumps hi halive
  | wakes =>
    rw [effect_wakes]
    cases hstep
    exact h.wakes hi halive
  | frees =>
    rw [effect_eq (by decide) (by decide)]
    cases hstep
    cases call with
    | write bytes append => exact h.frees hi halive
    | _ => exact hvisits.elim
  | checks =>
    rw [effect_eq (by decide) (by decide)]
    cases call with
    | recover token =>
      cases hstep
      refine h.passes hi halive hsame ?_ ?_ (fun _ hbumps => hbumps.elim)
        (by decide) (by decide) fun _ _ hcall => by cases hcall
      · split <;> trivial
      · rintro late token' (hwork | ⟨-, hwork⟩) <;> split at hwork <;> cases hwork
    | _ => exact hvisits.elim
  | relays =>
    rw [effect_eq (by decide) (by decide)]
    cases call with
    | recover token =>
      cases hstep
      refine h.passes hi halive hsame trivial ?_ (fun _ hbumps => hbumps.elim)
        (by decide) (by decide) fun _ _ hcall => by cases hcall
      rintro late token' (hwork | ⟨-, hwork⟩) <;> cases hwork
    | _ => exact hvisits.elim
  | clears =>
    rw [effect_eq (by decide) (by decide)]
    cases call with
    | recover token =>
      unfold stepCall at hstep
      dsimp only at hstep
      split at hstep
      · rename_i htoken
        cases hstep
        exact h.clears hi halive htoken
      · cases hstep
        refine h.passes hi halive hsame trivial ?_ (fun _ hbumps => hbumps.elim)
          (by decide) (by decide) fun _ _ hcall => by cases hcall
        rintro late token' (hwork | ⟨-, hwork⟩) <;> cases hwork
    | _ => exact hvisits.elim
  | done => cases hstep

theorem Inv.step {a : Action} (h : Inv kind w) (hsafe : Safe kind w a)
    (hstep : Waits.step kind textMax w a = some w') : Inv kind w' := by
  cases a with
  | wait owner wait =>
    obtain ⟨-, hw⟩ := ite_none_left_eq_some.mp hstep
    cases hw
    refine h.begins (fun wait' waiter hwork => ?_) ?_ ?_ ?_
    · cases hwork
      rfl
    · intro call stage hwork
      cases hwork
    · intro bytes append stage hwork
      cases hwork
    · intro token stage hwork
      cases hwork
  | call owner call =>
    obtain ⟨hallowed, hw⟩ := ite_none_left_eq_some.mp hstep
    rw [Bool.or_eq_true, not_or, Bool.not_eq_true', Bool.not_eq_false] at hallowed
    cases hw
    refine h.begins ?_ (fun call' stage hwork => ?_) (fun bytes append stage hwork => ?_)
      fun token stage hwork => ?_
    · intro wait waiter hwork
      cases hwork
    · cases hwork
      refine ⟨rfl, ?_⟩
      cases call with
      | write bytes append =>
        have hkind : kind = .text := of_decide_eq_true (Bool.and_eq_true_iff.mp hallowed.2).1
        exact hkind
      | wake flag => cases flag <;> trivial
      | _ => trivial
    · cases hwork
      exact bne_iff_ne.mp (Bool.and_eq_true_iff.mp hallowed.2).2
    · cases hwork
      exact (Bool.and_eq_true_iff.mp hallowed.2).2
  | step i =>
    unfold Waits.step at hstep
    dsimp only at hstep
    split at hstep
    · rename_i owner work hi
      obtain ⟨halive, hwork⟩ := ite_none_left_eq_some.mp hstep
      rw [Bool.not_eq_true] at halive
      cases work with
      | waits wait waiter =>
        obtain ⟨⟨slot', waiter'⟩, hnext, rfl⟩ := map_eq_some_iff.mp hwork
        obtain ⟨waiters, rfl, hcount, hnew⟩ := waiter_step
          (h.hears _ (mem_of_getElem? hi) wait waiter rfl) halive
          (fun heq => safe_registers hsafe (heq ▸ hi)) (h.share_le hi) hnext
        exact h.waits hi hcount hnew
      | calls call stage =>
        obtain ⟨⟨slot', stage'⟩, hnext, rfl⟩ := map_eq_some_iff.mp hwork
        exact h.call_step hi halive hsafe hnext
    · cases hstep
  | early i failed =>
    unfold Waits.step at hstep
    dsimp only at hstep
    split at hstep
    · rename_i owner wait waiter hi
      obtain ⟨-, hwork⟩ := ite_none_left_eq_some.mp hstep
      obtain ⟨waiter', hnext, rfl⟩ := map_eq_some_iff.mp hwork
      obtain ⟨hshare, hnew⟩ := early_share hnext
      exact h.waits hi (by rw [hshare]) hnew
    · cases hstep
  | die owner =>
    cases hstep
    exact h.dies owner
  | clear flag =>
    cases hstep
    exact h.lowers flag

theorem Start.inv (h : Start w) : Inv kind w := by
  have hnone : ∀ {task : Task}, task ∉ w.tasks := by
    intro task hmem
    rw [h.tasks] at hmem
    cases hmem
  refine ⟨?_, fun task hmem => absurd hmem hnone, fun task hmem => absurd hmem hnone,
    ⟨fun task hmem => absurd hmem hnone, fun task hmem => absurd hmem hnone, fun i j task task' hi => ?_⟩,
    fun task hmem => absurd hmem hnone⟩
  · rw [h.tasks, h.waiters]
    rfl
  · exact absurd (mem_of_getElem? hi) hnone

theorem busy_of_comes {reason : Reason} (h : task.Comes w true reason) : w.busy task = true := by
  obtain ⟨call, stage, hwork, hstage, hrelied⟩ := h
  have hdone : stage ≠ .done := by
    rintro rfl
    rcases hstage with hbumps | ⟨-, hwakes⟩
    · exact hbumps.elim
    · cases hwakes
  unfold World.busy
  rw [hwork]
  dsimp only
  rw [decide_eq_true hdone, Bool.true_and]
  cases call with
  | write bytes append =>
    rcases hrelied with halive | ⟨howns, -⟩
    · dsimp only
      rw [halive]
      rfl
    · dsimp only
      rw [decide_eq_true howns, Bool.or_true]
  | recover token => exact hrelied.elim
  | _ => rfl

theorem due_iff : w.due kind wait = true ↔ ∃ reason, w.Due kind wait reason := by
  rw [World.due, Bool.or_eq_true, Bool.or_eq_true, decide_eq_true_eq, Option.any_eq_true]
  constructor
  · rintro ((hchanged | hreleased) | ⟨flag, hflag⟩)
    · exact ⟨.changed, hchanged⟩
    · exact ⟨.released, hreleased⟩
    · exact ⟨.interrupted flag, hflag⟩
  · rintro ⟨reason, hdue⟩
    cases reason with
    | changed => exact .inl (.inl hdue)
    | released => exact .inl (.inr hdue)
    | interrupted flag => exact .inr ⟨flag, hdue⟩

theorem Inv.nobody_lost (h : Inv kind w) : w.lost kind = false := by
  cases hlost : w.lost kind with
  | false => rfl
  | true =>
    obtain ⟨hquiet, hparked⟩ := Bool.and_eq_true_iff.mp hlost
    obtain ⟨task, hmem, hmisses⟩ := List.any_eq_true.mp hparked
    obtain ⟨owner, work⟩ := task
    dsimp only at hmisses
    split at hmisses
    · rename_i wait observed
      obtain ⟨reason, hdue⟩ := due_iff.mp hmisses
      obtain ⟨other, hother, hcomes⟩ := h.hears _ hmem wait _ rfl reason hdue
      have hidle := List.all_eq_true.mp hquiet other hother
      rw [busy_of_comes hcomes] at hidle
      cases hidle
    · cases hmisses

theorem wake_frame {flag : Option Nat} (hi : w.tasks[i]? = some ⟨owner, .calls (.wake flag) stage⟩)
    (hvisits : (Call.wake flag).Visits kind stage)
    (hstep : step kind textMax w (.step i) = some w') :
    w'.slot.value = w.slot.value ∧ w'.slot.banks = w.slot.banks ∧
      w'.slot.version kind = w.slot.version kind := by
  unfold Waits.step at hstep
  dsimp only at hstep
  rw [hi] at hstep
  obtain ⟨-, hwork⟩ := ite_none_left_eq_some.mp hstep
  obtain ⟨⟨slot', stage'⟩, hnext, rfl⟩ := map_eq_some_iff.mp hwork
  change slot'.value = _ ∧ slot'.banks = _ ∧ slot'.version kind = _
  cases stage with
  | flags => cases hnext; exact ⟨rfl, rfl, rfl⟩
  | looks => cases hnext; exact ⟨rfl, rfl, rfl⟩
  | bumps =>
    cases hnext
    refine ⟨rfl, rfl, ?_⟩
    cases kind <;> rfl
  | wakes => cases hnext; exact ⟨rfl, rfl, rfl⟩
  | done => cases hnext
  | _ => exact hvisits.elim

/-- In every run without such a count, no waiter is left parked with something to return for when nobody is
within a call that wakes; and waking the waiters changes neither the value nor its version. -/
theorem no_cell_wake_lost (kind : Kind) (textMax : Nat) (w : World)
    (h : Reached (step kind textMax) (Safe kind) Start w) :
    w.lost kind = false ∧
    ∀ i owner flag stage w', w.tasks[i]? = some ⟨owner, .calls (.wake flag) stage⟩ →
      step kind textMax w (.step i) = some w' →
        w'.slot.value = w.slot.value ∧ w'.slot.banks = w.slot.banks ∧
          w'.slot.version kind = w.slot.version kind := by
  have hinv : Inv kind w := h.holds (fun _ => Start.inv) fun _ _ _ hinv hsafe hstep =>
    hinv.step hsafe hstep
  refine ⟨hinv.nobody_lost, fun i owner flag stage w' hi hstep => ?_⟩
  exact wake_frame hi (hinv.visits _ (mem_of_getElem? hi) _ _ rfl) hstep

/-- A waiter parks; a writer dies after it has committed and before it wakes; it is recovered. -/
def recovered : List Action :=
  [.wait 2 ⟨0, none⟩, .step 0, .step 0, .step 0, .step 0, .step 0, .step 0, .step 0,
    .call 3 (.write [104, 105] false), .step 1, .step 1, .step 1, .step 1, .step 1, .die 3,
    .call 2 (.recover 3), .step 2, .step 2, .step 2, .step 2, .step 2]

/-- The waiter has been woken, and the slot has no writer. -/
theorem no_cell_wake_lost_recovered : ∃ w, Reached (step .text 240) (Safe .text) Start w ∧
    w.slot.version .text = 3 ∧ w.slot.writer = 0 ∧ w.lost .text = false := by
  have hrun : (actAll (step .text 240) (Safe .text) .new recovered).any
      (fun w => decide (w.slot.version .text = 3 ∧ w.slot.writer = 0)) = true := by decide +kernel
  obtain ⟨w, hw, hfacts⟩ := (Reached.start start_new).exists_of_actAll hrun
  obtain ⟨hversion, hwriter⟩ := of_decide_eq_true hfacts
  exact ⟨w, hw, hversion, hwriter, (no_cell_wake_lost .text 240 w hw).1⟩

/-- A waiter for the first change sees the cell live; the cell is released, and nobody is counted; the
waiter finds the count that it waits on, and parks. -/
def released : List Action :=
  [.wait 2 ⟨1, none⟩, .step 0, .call 3 .release, .step 1, .step 1, .step 1, .step 1, .step 0, .step 0,
    .step 0, .step 0, .step 0]

/-- The release of a scalar cell is lost on a waiter for the number that the release counts to. -/
theorem release_unseen : Start .new ∧
    (actAll (step .scalar 240) anyAction .new released).any (World.lost .scalar) = true :=
  ⟨start_new, by decide +kernel⟩

end OrbitCell.Waits
