import Orbit.Pool.Keys
import Orbit.Atomic.Sequence

/-! Whole operations of any number of processes on one table.  Beside the table, a world keeps the
values callers hold: the leases `reserve` has returned, the live execution guards and the two kinds
of permits.  An operation names a guard or a permit by its position; a lease is plain data and any
lease may be presented. -/

namespace OrbitPool

open Orbit.Atomic

inductive Op (g : Geometry) where
  | register (p : Pool g) (key : Key) (capacity : UInt32) (now : Nat)
  | registerActive (p : Pool g) (key : Key) (capacity : UInt32) (now : Nat)
  | unregister (p : Pool g) (id : ResourceId)
  | drain (p : Pool g) (id : ResourceId)
  | reconcile (p : Pool g) (id : ResourceId) (active : UInt32) (grace now : Nat)
  | reserve (p : Pool g) (id : ResourceId) (now : Nat)
  | cancelReservation (p : Pool g) (lease : Lease)
  | accept (p : Pool g) (lease : Lease)
  | complete (execution : Nat)
  | completeIdle (execution : Nat) (maxIdle : UInt32)
  | claimCreate (p : Pool g) (key : Key) (maxLive : UInt32)
  | dropCreation (permit : Nat)
  | admitKey (p : Pool g) (key : Key) (maxConcurrency : UInt32)
  | dropAdmission (permit : Nat)
  | nodeDead (node : Fin g.fleetCapacity) (incarnation : Nat)

structure World (g : Geometry) where
  mem : Mem Addr
  /-- The leases `reserve` has returned, and those a call of `accept` or `cancel_reservation`
  succeeded with. -/
  returned : List Lease
  spent : List Lease
  executions : List Execution
  /-- The permits not yet dropped, each with the key it was claimed for. -/
  creations : List (Key × Permit g)
  admissions : List (Key × Permit g)
  /-- The nodes a death report has named. -/
  reported : List (Fin g.fleetCapacity)

variable {g : Geometry}

def World.init (g : Geometry) : World g where
  mem := fun _ => 0
  returned := []
  spent := []
  executions := []
  creations := []
  admissions := []
  reported := []

def keep {α β : Type} (result : Except Error α) (value : α → β) (list : List β) : List β :=
  match result with
  | .ok a => value a :: list
  | .error _ => list

def exec (w : World g) : Op g → World g
  | .register p key capacity now =>
    { w with mem := ((p.register key capacity.toNat now).run w.mem).2 }
  | .registerActive p key capacity now =>
    let r := (p.registerActive key capacity.toNat now).run w.mem
    { w with mem := r.2, executions := (r.1.toOption.bind Prod.snd).toList ++ w.executions }
  | .unregister p id => { w with mem := ((p.unregister id).run w.mem).2 }
  | .drain p id => { w with mem := ((p.drain id).run w.mem).2 }
  | .reconcile p id active grace now =>
    { w with mem := ((p.reconcile id active.toNat grace now).run w.mem).2 }
  | .reserve p id now =>
    let r := (p.reserve id now).run w.mem
    { w with mem := r.2, returned := keep r.1 (fun lease => lease) w.returned }
  | .cancelReservation p lease =>
    let r := (p.cancelReservation lease).run w.mem
    { w with mem := r.2, spent := keep r.1 (fun _ => lease) w.spent }
  | .accept p lease =>
    let r := (p.accept lease).run w.mem
    { w with
      mem := r.2
      spent := keep r.1 (fun _ => lease) w.spent
      executions := keep r.1 (fun execution => execution) w.executions }
  | .complete n =>
    match w.executions[n]? with
    | some execution =>
      { w with
        mem := ((execution.complete g).run w.mem).2
        executions := w.executions.eraseIdx n }
    | none => w
  | .completeIdle n maxIdle =>
    match w.executions[n]? with
    | some execution =>
      { w with
        mem := ((execution.completeIdle g maxIdle.toNat).run w.mem).2
        executions := w.executions.eraseIdx n }
    | none => w
  | .claimCreate p key maxLive =>
    let r := (p.claimCreate key maxLive.toNat).run w.mem
    { w with mem := r.2, creations := keep r.1 (key, ·) w.creations }
  | .dropCreation n =>
    match w.creations[n]? with
    | some (_, permit) =>
      { w with mem := (permit.dropCreation.run w.mem).2, creations := w.creations.eraseIdx n }
    | none => w
  | .admitKey p key maxConcurrency =>
    let r := (p.admitKey key maxConcurrency.toNat).run w.mem
    { w with mem := r.2, admissions := keep r.1 (key, ·) w.admissions }
  | .dropAdmission n =>
    match w.admissions[n]? with
    | some (_, permit) =>
      { w with mem := (permit.dropAdmission.run w.mem).2, admissions := w.admissions.eraseIdx n }
    | none => w
  | .nodeDead node incarnation =>
    { w with
      mem := ((nodeDead g node incarnation).run w.mem).2
      reported := node :: w.reported }

def run (g : Geometry) (ops : List (Op g)) : World g := ops.foldl exec (World.init g)

def Op.touches : Op g → Part → Prop
  | .register .. , part | .registerActive .. , part =>
    part = .locks ∨ part = .available ∨ part = .members ∨ part = .counts ∨
      ∃ i, part = .slot i ∨ part = .lease i
  | .unregister p id, part =>
    part = .available ∨ part = .members ∨ part = .counts ∨
      ∃ i, p.locate id = .ok i ∧ part = .slot i
  | .drain p id, part => ∃ i, p.locate id = .ok i ∧ part = .slot i
  | .reconcile p id _ _ _, part | .reserve p id _, part =>
    part = .available ∨ ∃ i, p.locate id = .ok i ∧ part = .lease i
  | .cancelReservation p lease, part =>
    part = .available ∨ ∃ i, p.locate lease.id = .ok i ∧ part = .lease i
  | .accept p lease, part => ∃ i, p.locate lease.id = .ok i ∧ part = .lease i
  | .complete _, part | .completeIdle _ _, part => part = .available ∨ ∃ i, part = .lease i
  | .claimCreate .. , part => part = .locks ∨ part = .counts ∨ part = .claims
  | .dropCreation _, part => part = .counts ∨ part = .claims
  | .admitKey .. , part => part = .locks ∨ part = .admitted ∨ part = .admissions
  | .dropAdmission _, part => part = .admitted ∨ part = .admissions
  | .nodeDead .. , part =>
    part = .available ∨ part = .members ∨ part = .counts ∨ part = .claims ∨ part = .admitted ∨
      part = .admissions ∨ ∃ i, part = .slot i

theorem Op.touches_ne_keys (op : Op g) (a : Addr) (h : op.touches a.part) : a.part ≠ .keys := by
  intro hkeys
  rw [hkeys] at h
  cases op <;> simp [Op.touches] at h

theorem keyStep_registerInner {mem : Mem Addr} (hk : KeyTable g mem) (p : Pool g) (key : Key)
    (capacity : Nat) (active : Bool) (now : Nat) :
    KeyStep g (fun a => a.part = .locks ∨ a.part = .available ∨ a.part = .members ∨
      a.part = .counts ∨ ∃ i, a.part = .slot i ∨ a.part = .lease i) mem
      ((p.registerInner key capacity active now).run mem).2 := by
  refine .after_keyIndex hk p key _ (fun index => ?_) (fun a ha => .inl ha) ?_
  · refine .bind (within_allocate p key index capacity now (fun a i ha => ?_)
      fun a ha => .inl ha) fun allocated => ?_
    · exact .inr (.inr (.inr (.inr ⟨i, a.part_of_slot? ha⟩)))
    cases allocated with
    | error e => exact .ret _
    | ok slot =>
      refine .bind (within_publish p index capacity active slot.1 slot.2 (by simp +contextual) ?_)
        fun _ => .ret _
      rintro a (ha | ha | ha) <;> simp [ha]
  · rintro a (ha | ha | ha | ha | ⟨i, ha | ha⟩) <;> simp [ha]

theorem exec_keyStep {w : World g} (hk : KeyTable g w.mem) (op : Op g) :
    KeyStep g (fun a => op.touches a.part) w.mem (exec w op).mem := by
  have hkeys := op.touches_ne_keys
  have hself : KeyStep g (fun a => op.touches a.part) w.mem w.mem := .refl hk
  cases op with
  | register p key capacity now =>
    simp only [exec, Pool.register]
    split
    · exact hself
    · rw [Prog.run_bind]
      have h := keyStep_registerInner hk p key capacity.toNat false now
      cases ((p.registerInner key capacity.toNat false now).run w.mem).1 with
      | error e => exact h
      | ok r => exact h
  | registerActive p key capacity now =>
    simp only [exec, Pool.registerActive]
    split
    · exact hself
    · exact keyStep_registerInner hk p key capacity.toNat true now
  | unregister p id =>
    refine hself.run (within_unregister p id (fun i hi a ha => ?_) fun a ha => ?_) hkeys
    · exact .inr (.inr (.inr ⟨i, hi, ha⟩))
    · rcases ha with ha | ha | ha <;> simp [Op.touches, ha]
  | drain p id => exact hself.run (within_drain p id fun i hi a ha => ⟨i, hi, ha⟩) hkeys
  | reconcile p id active grace now =>
    exact hself.run (within_reconcile p id _ _ _ (fun a ha => .inl ha)
      fun i hi a ha => .inr ⟨i, hi, ha⟩) hkeys
  | reserve p id now =>
    exact hself.run (within_reserve p id now (fun a ha => .inl ha)
      fun i hi a ha => .inr ⟨i, hi, ha⟩) hkeys
  | cancelReservation p lease =>
    exact hself.run (within_cancelReservation p lease (fun a ha => .inl ha)
      fun i hi a ha => .inr ⟨i, hi, ha⟩) hkeys
  | accept p lease => exact hself.run (within_accept p lease fun i hi a ha => ⟨i, hi, ha⟩) hkeys
  | complete n =>
    simp only [exec]
    split
    · exact hself.run (.bind (within_finish _ _ (fun a ha => .inl ha)
        fun a ha => .inr ⟨_, ha⟩) fun _ => .ret _) hkeys
    · exact hself
  | completeIdle n maxIdle =>
    have hfinish : ∀ (execution : Execution) (maxIdle : Option Nat),
        (execution.finish g maxIdle).Within fun a => a.part = .available ∨ ∃ i, a.part = .lease i :=
      fun execution maxIdle => within_finish _ _ (fun a ha => .inl ha) fun a ha => .inr ⟨_, ha⟩
    simp only [exec]
    split
    · rename_i execution _
      refine hself.run ?_ hkeys
      unfold Execution.completeIdle
      split
      · exact .bind (.bind (hfinish execution none) fun _ => .ret _) fun _ => .ret _
      · exact .bind (hfinish execution _) fun _ => .ret _
    · exact hself
  | claimCreate p key maxLive =>
    refine .after_keyIndex hk p key _ (fun index => ?_) (fun a ha => .inl ha) hkeys
    refine .bind (within_tryUpdate (.inr (.inl rfl)) _) fun claimed => ?_
    split
    · exact .ret _
    · exact .bind (within_fetchAdd (.inr (.inr rfl)) _ _) fun _ => .ret _
  | dropCreation n =>
    simp only [exec]
    split
    · refine hself.run ?_ hkeys
      exact .bind (within_tryUpdate (.inl rfl) _) fun _ =>
        .bind (within_tryUpdate (.inr rfl) _) fun _ => .ret _
    · exact hself
  | admitKey p key maxConcurrency =>
    simp only [exec, Pool.admitKey]
    split
    · exact hself
    split
    · exact hself
    refine .after_keyIndex hk p key _ (fun index => ?_) (fun a ha => .inl ha) hkeys
    refine .bind (within_tryUpdate (.inr (.inl rfl)) _) fun admitted => ?_
    split
    · exact .ret _
    · exact .bind (within_fetchAdd (.inr (.inr rfl)) _ _) fun _ => .ret _
  | dropAdmission n =>
    simp only [exec]
    split
    · refine hself.run ?_ hkeys
      refine .bind (within_tryUpdate (.inr rfl) _) fun held => ?_
      split
      · exact .bind (within_tryUpdate (.inl rfl) _) fun _ => .ret _
      · exact .ret _
    · exact hself
  | nodeDead node incarnation =>
    refine hself.run (within_nodeDead node incarnation (fun a i ha => ?_) (fun a ha => ?_)
      fun a ha => ?_) hkeys
    · simp [Op.touches, ha]
    · rcases ha with ha | ha | ha <;> simp [Op.touches, ha]
    · rcases ha with ha | ha | ha | ha <;> simp [Op.touches, ha]

theorem exec_slot_eq {w : World g} (hk : KeyTable g w.mem) (op : Op g) {a : Addr} {slot : Nat}
    (ha : a.slot? = some slot) (htouch : ¬op.touches a.part) : (exec w op).mem a = w.mem a := by
  have hkeys : a.part ≠ .keys := a.part_ne_of_slot? ha (by simp) (by simp)
  rcases (exec_keyStep hk op).words a htouch hkeys with heq | ⟨-, index, hc, -⟩
  · exact heq
  · rcases hc with rfl | rfl | rfl | ⟨_, rfl⟩ <;> cases ha

end OrbitPool
