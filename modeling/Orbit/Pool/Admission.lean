import Orbit.Pool.World
import Orbit.Atomic.Ledger

/-! The admission ledger: a key's admitted word against the admissions each node holds. -/

namespace OrbitPool

open Orbit.Atomic Function
open List hiding Mem mem_of_mem_eraseIdx

variable {g : Geometry} {mem : Mem Addr}

/-- Permits as a tally counts them: by node and by key slot. -/
def filed (permits : List (Key × Permit g)) : List (Fin g.fleetCapacity × Nat) :=
  permits.map fun e => (e.2.pool.node, e.2.keyIndex)

def World.admissionTally (w : World g) : Tally (Fin g.fleetCapacity) Nat where
  total k := w.mem (.admitted k)
  part node k := w.mem (.admissions node k)
  permits := filed w.admissions
  lost := w.reported

theorem run_returnAdmissions (node keyIndex : Nat) (mem : Mem Addr) :
    (∀ k, ((returnAdmissions g node keyIndex).run mem).2 (.admitted k) =
      if g.spec.fleetConcurrency ∧ k = keyIndex then mem (.admitted k) - mem (.admissions node k)
      else mem (.admitted k)) ∧
    ∀ n k, ((returnAdmissions g node keyIndex).run mem).2 (.admissions n k) =
      if n = node ∧ g.spec.fleetConcurrency ∧ k = keyIndex then 0
      else mem (.admissions n k) := by
  unfold returnAdmissions
  by_cases hc : g.spec.fleetConcurrency = true
  · by_cases hheld : mem (.admissions node keyIndex) > 0
    · constructor
      · intro k
        by_cases hk : k = keyIndex <;> simp [hc, hheld, hk]
      · intro n k
        by_cases hk : k = keyIndex <;> by_cases hn : n = node <;> simp [hc, hheld, hk, hn]
    · have hzero : mem (.admissions node keyIndex) = 0 := by omega
      constructor
      · intro k
        by_cases hk : k = keyIndex <;> simp [hc, hk, hzero]
      · intro n k
        by_cases hk : k = keyIndex <;> by_cases hn : n = node <;> simp [hc, hk, hn, hzero]
  · simp [hc]

theorem run_returnClaims_admissions (node : Nat) (keys : List Nat) (mem : Mem Addr) :
    (∀ k, ((returnClaims g node keys).run mem).2 (.admitted k) =
      if g.spec.fleetConcurrency ∧ k ∈ keys then mem (.admitted k) - mem (.admissions node k)
      else mem (.admitted k)) ∧
    ∀ n k, ((returnClaims g node keys).run mem).2 (.admissions n k) =
      if n = node ∧ g.spec.fleetConcurrency ∧ k ∈ keys then 0 else mem (.admissions n k) := by
  induction keys generalizing mem with
  | nil => simp [returnClaims]
  | cons keyIndex rest ih =>
    have hframe : ∀ a, a.part = .admitted ∨ a.part = .admissions →
        ((returnCreations node keyIndex).run mem).2 a = mem a := fun a ha => by
      refine (within_returnCreations node keyIndex fun a ha => ha).run_eq mem ?_
      rintro (rfl | rfl) <;> simp [Addr.part] at ha
    obtain ⟨hadmitted, hadmissions⟩ :=
      @run_returnAdmissions g node keyIndex ((returnCreations node keyIndex).run mem).2
    have htotal := fun k => hframe (.admitted k) (.inl rfl)
    have hpart := fun n k => hframe (.admissions n k) (.inr rfl)
    simp only [returnClaims, Prog.run_bind, ih, hadmitted, hadmissions, htotal, hpart,
      mem_cons]
    constructor
    · intro k
      by_cases hc : g.spec.fleetConcurrency = true <;> by_cases hk : k = keyIndex <;>
        simp [hc, hk]
    · intro n k
      by_cases hc : g.spec.fleetConcurrency = true <;> by_cases hk : k = keyIndex <;>
        by_cases hn : n = node <;> simp [hc, hk, hn]

theorem KeyStep.admission_eq {P : Addr → Prop} {mem' : Mem Addr} (h : KeyStep g P mem mem')
    (hfresh : FreshWord .admitted mem) (hadmitted : ∀ k, ¬P (.admitted k))
    (hadmissions : ∀ n k, ¬P (.admissions n k)) :
    (∀ k, mem' (.admitted k) = mem (.admitted k)) ∧
      ∀ n k, mem' (.admissions n k) = mem (.admissions n k) := by
  constructor
  · intro k
    exact h.fresh_eq (hadmitted k) (by simp [Addr.part]) (by simp [CountsKey]) (hfresh k)
  · intro n k
    rcases h.words (.admissions n k) (hadmissions n k) (by simp [Addr.part])
      with he | ⟨-, index, hc, -⟩
    · exact he
    · rcases hc with hc | hc | hc | ⟨_, hc⟩ <;> cases hc

theorem run_admit (hk : KeyTable g mem) (hfresh : FreshWord .admitted mem) (p : Pool g)
    (key : Key) (m : Nat) :
    let r := (p.admitKey key m).run mem
    (∃ k, mem (.admitted k) < m ∧ r.1 = .ok ⟨p, k⟩ ∧ Keyed g r.2 key k ∧
      (∀ j, r.2 (.admitted j) = if j = k then mem (.admitted k) + 1 else mem (.admitted j)) ∧
      ∀ n j, r.2 (.admissions n j) = if n = p.node ∧ j = k
        then (mem (.admissions n k) + 1) % 2 ^ 32 else mem (.admissions n j)) ∨
    (∃ e, r.1 = .error e) ∧ (∀ j, r.2 (.admitted j) = mem (.admitted j)) ∧
      ∀ n j, r.2 (.admissions n j) = mem (.admissions n j) := by
  unfold Pool.admitKey
  split
  · exact .inr ⟨⟨_, rfl⟩, fun _ => rfl, fun _ _ => rfl⟩
  split
  · exact .inr ⟨⟨_, rfl⟩, fun _ => rfl, fun _ _ => rfl⟩
  have hfound := run_keyIndex hk p key
  have hstep : KeyStep g (fun a => a.part = .locks) mem ((p.keyIndex key).run mem).2 :=
    .of_found hfound fun a ha => ha
  obtain ⟨htotal, hpart⟩ :=
    hstep.admission_eq hfresh (by simp [Addr.part]) (by simp [Addr.part])
  rw [Prog.run_bind]
  generalize (p.keyIndex key).run mem = r at *
  obtain ⟨found, mem1⟩ := r
  simp only at htotal hpart
  cases found with
  | error e => exact .inr ⟨⟨e, rfl⟩, htotal, hpart⟩
  | ok k =>
    by_cases hlt : mem (.admitted k) < m
    · have hle : ¬m ≤ mem (.admitted k) := by omega
      refine .inl ⟨k, hlt, by simp [htotal, hle], ?_, ?_, ?_⟩
      · have hkept := (hfound.table.of_eq fun a ha => show
          (update (update mem1 (.admitted k) (mem1 (.admitted k) + 1))
            (.admissions p.node k) ((mem1 (.admissions p.node k) + 1) % 2 ^ 32)) a = mem1 a by
            have h1 : a ≠ .admitted k := by rintro rfl; cases ha
            have h2 : a ≠ .admissions p.node k := by rintro rfl; cases ha
            simp [h1, h2]).2
        simpa [htotal, hlt, hle] using hkept.keyed (hfound.keyed k rfl)
      · intro j
        by_cases hj : j = k <;> simp [hlt, hj, htotal]
      · intro n j
        by_cases hj : j = k <;> by_cases hn : n = p.node <;> simp [htotal, hlt, hj, hn, hpart]
    · have hle : m ≤ mem (.admitted k) := by omega
      refine .inr ⟨⟨.concurrencyLimit key m, ?_⟩, ?_, ?_⟩
      · simp [htotal, hle]
      · simp [htotal, hlt]
      · simp [htotal, hpart, hlt]

theorem run_dropAdmission (permit : Permit g) (mem : Mem Addr) :
    (∀ j, (permit.dropAdmission.run mem).2 (.admitted j) =
      if j = permit.keyIndex ∧ 0 < mem (.admissions permit.pool.node permit.keyIndex)
      then mem (.admitted permit.keyIndex) - 1 else mem (.admitted j)) ∧
    ∀ node j, (permit.dropAdmission.run mem).2 (.admissions node j) =
      if node = permit.pool.node ∧ j = permit.keyIndex
      then mem (.admissions permit.pool.node permit.keyIndex) - 1
      else mem (.admissions node j) := by
  unfold Permit.dropAdmission
  by_cases hheld : 0 < mem (.admissions permit.pool.node permit.keyIndex)
  · by_cases htotal : 0 < mem (.admitted permit.keyIndex)
    · constructor
      · intro j
        by_cases hj : j = permit.keyIndex <;> simp [hheld, htotal, hj]
      · intro node j
        by_cases hn : node = permit.pool.node <;> by_cases hj : j = permit.keyIndex <;>
          simp [hheld, htotal, hn, hj]
    · constructor
      · intro j
        by_cases hj : j = permit.keyIndex
        · simp [hheld, htotal, hj]
          omega
        · simp [hheld, htotal, hj]
      · intro node j
        by_cases hn : node = permit.pool.node <;> by_cases hj : j = permit.keyIndex <;>
          simp [hheld, htotal, hn, hj]
  · have hzero : mem (.admissions permit.pool.node permit.keyIndex) = 0 := by omega
    constructor
    · intro j
      by_cases hj : j = permit.keyIndex <;> simp [hzero, hj]
    · intro node j
      by_cases hn : node = permit.pool.node <;> by_cases hj : j = permit.keyIndex <;>
        simp [hzero, hn, hj]

structure AdmissionLedger (w : World g) : Prop where
  keys : KeyTable g w.mem
  fresh : FreshWord .admitted w.mem
  tally : w.admissionTally.Ok
  keyed : ∀ e ∈ w.admissions, Keyed g w.mem e.1 e.2.keyIndex

theorem AdmissionLedger.init (g : Geometry) : AdmissionLedger (World.init g) where
  keys := .zero g
  fresh _ _ := rfl
  tally := ⟨fun k => by simp [World.admissionTally, World.init],
    fun i _ k => by simp [World.admissionTally, World.init, filed]⟩
  keyed e he := by simp [World.init] at he

/-- The limit an operation asks for when it admits under the key in slot `k`. -/
def Limited (op : Op g) (k m : Nat) (mem : Mem Addr) : Prop :=
  ∃ p key max, op = .admitKey p key max ∧ Keyed g mem key k ∧ max.toNat = m

/-- Every operation is a step of the tally; only an admission makes a total larger, and it finds
the total below the limit it asks for. -/
theorem AdmissionLedger.tally_step {w : World g} (h : AdmissionLedger w) (op : Op g) :
    w.admissionTally.Step (exec w op).admissionTally ∧
      (∀ e ∈ (exec w op).admissions, Keyed g (exec w op).mem e.1 e.2.keyIndex) ∧
      ∀ k, (exec w op).mem (.admitted k) ≤ w.mem (.admitted k) ∨
        ∃ m, Limited op k m (exec w op).mem ∧ (exec w op).mem (.admitted k) ≤ m := by
  have hstep := exec_keyStep h.keys op
  have hsub : ∀ e ∈ w.admissions, Keyed g (exec w op).mem e.1 e.2.keyIndex :=
    fun e he => hstep.kept.keyed (h.keyed e he)
  have hsame : (∀ k, (exec w op).mem (.admitted k) = w.mem (.admitted k)) →
      (∀ n k, (exec w op).mem (.admissions n k) = w.mem (.admissions n k)) →
      (exec w op).admissions = w.admissions → w.reported ⊆ (exec w op).reported →
      w.admissionTally.Step (exec w op).admissionTally ∧
        (∀ e ∈ (exec w op).admissions, Keyed g (exec w op).mem e.1 e.2.keyIndex) ∧
        ∀ k, (exec w op).mem (.admitted k) ≤ w.mem (.admitted k) ∨
          ∃ m, Limited op k m (exec w op).mem ∧ (exec w op).mem (.admitted k) ≤ m := by
    intro htotal hpart hperm hrep
    refine ⟨.same ?_ ?_ ?_ hrep, ?_, fun k => .inl (htotal k).le⟩
    · exact funext htotal
    · exact funext fun node => funext fun k => hpart node k
    · simp only [World.admissionTally, hperm]
    · rw [hperm]
      exact hsub
  have huntouched : ¬op.touches .admitted → ¬op.touches .admissions →
      (exec w op).admissions = w.admissions → w.reported ⊆ (exec w op).reported →
      w.admissionTally.Step (exec w op).admissionTally ∧
        (∀ e ∈ (exec w op).admissions, Keyed g (exec w op).mem e.1 e.2.keyIndex) ∧
        ∀ k, (exec w op).mem (.admitted k) ≤ w.mem (.admitted k) ∨
          ∃ m, Limited op k m (exec w op).mem ∧ (exec w op).mem (.admitted k) ≤ m := by
    intro h1 h2
    obtain ⟨htotal, hpart⟩ := hstep.admission_eq h.fresh (fun _ => h1) (fun _ _ => h2)
    exact hsame htotal hpart
  cases op with
  | admitKey p key m =>
    rcases run_admit h.keys h.fresh p key m.toNat with
      ⟨k, hlt, hok, hkeyed, htotal, hpart⟩ | ⟨⟨e, he⟩, htotal, hpart⟩
    · have hperm : (exec w (.admitKey p key m)).admissions = (key, ⟨p, k⟩) :: w.admissions := by
        simp [exec, hok, keep]
      have hwrap : (w.mem (.admissions p.node k) + 1) % 2 ^ 32 =
          w.mem (.admissions p.node k) + 1 := by
        have hle : w.mem (.admissions p.node k) ≤ w.mem (.admitted k) := h.tally.part_le p.node k
        have hm := m.toNat_lt
        exact Nat.mod_eq_of_lt (by omega)
      refine ⟨.take p.node k htotal (fun n j => (hpart n j).trans ?_) ?_ rfl, ?_, fun j => ?_⟩
      · by_cases he : n = p.node ∧ j = k
        · obtain ⟨rfl, rfl⟩ := he
          rw [if_pos ⟨rfl, rfl⟩, if_pos ⟨rfl, rfl⟩]
          exact hwrap
        · rw [if_neg fun hc => he ⟨Fin.ext hc.1, hc.2⟩, if_neg he]
          rfl
      · simp only [World.admissionTally, filed, hperm, map_cons]
      · rw [hperm]
        rintro e (_ | ⟨_, he⟩)
        · exact hkeyed
        · exact hsub e he
      · by_cases hj : j = k
        · subst hj
          have hnew := htotal j
          rw [if_pos rfl] at hnew
          exact .inr ⟨m.toNat, ⟨p, key, m, rfl, hkeyed, rfl⟩, hnew.trans_le hlt⟩
        · have hnew := htotal j
          rw [if_neg hj] at hnew
          exact .inl hnew.le
    · exact hsame htotal hpart (by simp [exec, he, keep]) (List.Subset.refl _)
  | dropAdmission n =>
    cases hn : w.admissions[n]? with
    | none =>
      have hexec : exec w (.dropAdmission n) = w := by simp only [exec, hn]
      rw [hexec] at hsame ⊢
      exact hsame (fun _ => rfl) (fun _ _ => rfl) rfl (List.Subset.refl _)
    | some e =>
      obtain ⟨key, permit⟩ := e
      have hexec : exec w (.dropAdmission n) = { w with
          mem := (permit.dropAdmission.run w.mem).2
          admissions := w.admissions.eraseIdx n } := by simp only [exec, hn]
      rw [hexec] at hsub ⊢
      obtain ⟨htotal, hpart⟩ := run_dropAdmission permit w.mem
      refine ⟨.drop n permit.pool.node permit.keyIndex ?_ htotal (fun node j => ?_) ?_ rfl,
        fun e he => hsub e (mem_of_mem_eraseIdx he), fun k => .inl ?_⟩
      · simp [World.admissionTally, filed, hn]
      · simpa [World.admissionTally, Fin.ext_iff] using hpart node j
      · simp [World.admissionTally, filed, eraseIdx_map]
      · refine (htotal k).trans_le ?_
        split
        · rename_i hc
          rw [hc.1]
          omega
        · exact Nat.le_refl _
  | nodeDead node incarnation =>
    have hframe : ∀ a : Addr, a.part = .admitted ∨ a.part = .admissions →
        ((closeOwned g node incarnation (range g.totalResources)).run w.mem).2 a =
          w.mem a := fun a ha => by
      refine (within_closeOwned (P := fun a => a.part ≠ .admitted ∧ a.part ≠ .admissions) node
        incarnation _ (by simp +contextual) ?_).run_eq w.mem ?_
      · rintro b (hb | hb | hb) <;> simp [hb]
      · rcases ha with ha | ha <;> simp [ha]
    obtain ⟨htotal, hpart⟩ := @run_returnClaims_admissions g node (range g.keyCapacity)
      ((closeOwned g node incarnation (range g.totalResources)).run w.mem).2
    have hmem : (exec w (.nodeDead node incarnation)).mem =
        ((returnClaims g node (range g.keyCapacity)).run
          ((closeOwned g node incarnation (range g.totalResources)).run w.mem).2).2 := by
      simp [exec, nodeDead]
    have ht := fun k => hframe (.admitted k) (.inl rfl)
    have hp := fun n k => hframe (.admissions n k) (.inr rfl)
    simp only [← hmem, ht, hp] at htotal hpart
    refine ⟨.dead node (fun k => g.spec.fleetConcurrency = true ∧ k ∈ range g.keyCapacity)
      ?_ ?_ ?_ ?_ rfl rfl, hsub, fun k => .inl ?_⟩
    · exact fun k hc => (htotal k).trans (if_pos hc)
    · exact fun k hc => (htotal k).trans (if_neg hc)
    · exact fun k hc => (hpart node k).trans (if_pos ⟨rfl, hc⟩)
    · intro n k hc
      refine (hpart n k).trans (if_neg ?_)
      rintro ⟨hn, hc'⟩
      rcases hc with hc | hc
      · exact hc (Fin.ext hn)
      · exact hc hc'
    · rw [htotal]
      split <;> omega
  | complete | completeIdle | dropCreation =>
    refine huntouched (by simp [Op.touches]) (by simp [Op.touches]) ?_ ?_ <;>
      simp only [exec] <;> split <;> simp
  | _ => exact huntouched (by simp [Op.touches]) (by simp [Op.touches]) rfl (List.Subset.refl _)

theorem AdmissionLedger.exec {w : World g} (h : AdmissionLedger w) (op : Op g) :
    AdmissionLedger (exec w op) := by
  have hkey := exec_keyStep h.keys op
  obtain ⟨hstep, hkeyed, hgrow⟩ := h.tally_step op
  refine ⟨hkey.table, fun k hempty => ?_, h.tally.step hstep, hkeyed⟩
  have hold := h.fresh k (KeyStep.empty_before h.keys hkey hempty)
  rcases hgrow k with hle | ⟨m, ⟨p, key, max, -, hk, -⟩, -⟩
  · omega
  · rw [hk.holds.1] at hempty
    exact absurd hempty (by decide)

theorem admissionLedger_run (g : Geometry) (ops : List (Op g)) : AdmissionLedger (run g ops) :=
  foldl_holds (fun _ op h => h.exec op) ops (.init g)

theorem AdmissionLedger.admitted_le {key : Key} {m : UInt32} {w : World g} (h : AdmissionLedger w)
    (hle : ∀ k, Keyed g w.mem key k → w.mem (.admitted k) ≤ m.toNat) {op : Op g}
    (hop : ∀ p m', op = .admitKey p key m' → m' = m) (k : Nat)
    (hkeyed : Keyed g (OrbitPool.exec w op).mem key k) :
    (OrbitPool.exec w op).mem (.admitted k) ≤ m.toNat := by
  have hkey := exec_keyStep h.keys op
  have hold : w.mem (.admitted k) ≤ m.toNat := by
    rcases hkey.kept.keyed_before h.keys hkeyed with hk | hempty
    · exact hle k hk
    · rw [h.fresh k hempty]
      exact Nat.zero_le _
  rcases (h.tally_step op).2.2 k with hnew | ⟨_, ⟨p, key', max, rfl, hk, rfl⟩, hnew⟩
  · omega
  · have heq : key' = key := hk.key_unique hkeyed
    subst heq
    rw [← hop p max rfl]
    exact hnew

theorem meets_of_forall {ok : Op g → Prop} (w : World g) (ops : List (Op g))
    (h : ∀ op ∈ ops, ok op) : Meets exec (fun _ op => ok op) w ops := by
  induction ops generalizing w with
  | nil => trivial
  | cons op rest ih => exact ⟨h op (by simp), ih _ fun op hop => h op (mem_cons_of_mem _ hop)⟩

theorem admitted_le_run {key : Key} {m : UInt32} (ops : List (Op g))
    (hops : ∀ p m', .admitKey p key m' ∈ ops → m' = m) (k : Nat)
    (hkeyed : Keyed g (run g ops).mem key k) : (run g ops).mem (.admitted k) ≤ m.toNat := by
  have hmeets : Meets exec (fun _ op => ∀ p m', op = Op.admitKey p key m' → m' = m)
      (World.init g) ops := by
    refine meets_of_forall _ ops ?_
    rintro op hop p m' rfl
    exact hops p m' hop
  have hrun : AdmissionLedger (run g ops) ∧
      ∀ k, Keyed g (run g ops).mem key k → (run g ops).mem (.admitted k) ≤ m.toNat := by
    refine hmeets.holds (I := fun w => AdmissionLedger w ∧
      ∀ k, Keyed g w.mem key k → w.mem (.admitted k) ≤ m.toNat) ?_ ⟨.init g, ?_⟩
    · exact fun w op hw hop => ⟨hw.1.exec op, hw.1.admitted_le hw.2 hop⟩
    · exact fun k _ => Nat.zero_le _
  exact hrun.2 k hkeyed

theorem countP_filed {permits : List (Key × Permit g)} {key : Key} {k : Nat}
    (hpermits : ∀ e ∈ permits, Keyed g mem e.1 e.2.keyIndex) (hkeyed : Keyed g mem key k)
    (p : Fin g.fleetCapacity → Prop) [DecidablePred p] :
    ((filed permits).countP fun e => e.2 = k ∧ p e.1) =
      permits.countP fun e => e.1 = key ∧ p e.2.pool.node := by
  rw [filed, countP_map]
  refine countP_congr fun e he => ?_
  have hek := hpermits e he
  simp only [comp_apply, decide_eq_true_eq]
  constructor
  · rintro ⟨rfl, hp⟩
    exact ⟨hek.key_unique hkeyed, hp⟩
  · rintro ⟨rfl, hp⟩
    exact ⟨hek.unique hkeyed, hp⟩

theorem count_filed {permits : List (Key × Permit g)} {key : Key} {k : Nat}
    (hpermits : ∀ e ∈ permits, Keyed g mem e.1 e.2.keyIndex) (hkeyed : Keyed g mem key k)
    (node : Fin g.fleetCapacity) :
    (filed permits).count (node, k) =
      permits.countP fun e => e.1 = key ∧ e.2.pool.node = node := by
  rw [← countP_filed hpermits hkeyed fun n => n = node, List.count]
  refine countP_congr fun e _ => ?_
  simp only [beq_iff_eq, decide_eq_true_eq, Prod.ext_iff]
  exact And.comm

theorem countP_of_not_keyed {permits : List (Key × Permit g)} {key : Key}
    (hpermits : ∀ e ∈ permits, Keyed g mem e.1 e.2.keyIndex) (hkey : ∀ k, ¬Keyed g mem key k)
    (p : Fin g.fleetCapacity → Prop) [DecidablePred p] :
    (permits.countP fun e => e.1 = key ∧ p e.2.pool.node) = 0 := by
  rw [countP_eq_zero]
  intro e he hp
  simp only [decide_eq_true_eq] at hp
  exact hkey _ (hp.1 ▸ hpermits e he)

/-- Every sequence of whole operations keeps the admission ledger: a key's admitted word is the sum
of the admissions of the nodes, none of which is larger; a node no death report has named holds
exactly its undropped permits; and under a constant limit the permits of such nodes stay within
it. -/
theorem admission_ledger (g : Geometry) (ops : List (Op g)) :
    (∀ k, (run g ops).mem (.admitted k) =
      ∑ node : Fin g.fleetCapacity, (run g ops).mem (.admissions node k)) ∧
    (∀ (node : Fin g.fleetCapacity) k,
      (run g ops).mem (.admissions node k) ≤ (run g ops).mem (.admitted k)) ∧
    (∀ key k, HoldsKey (run g ops).mem k key → ∀ node ∉ (run g ops).reported,
      (run g ops).mem (.admissions node k) =
        (run g ops).admissions.countP fun e => e.1 = key ∧ e.2.pool.node = node) ∧
    ∀ key (m : UInt32), (∀ p m', .admitKey p key m' ∈ ops → m' = m) →
      ((run g ops).admissions.countP fun e =>
        e.1 = key ∧ e.2.pool.node ∉ (run g ops).reported) ≤ m.toNat := by
  have h := admissionLedger_run g ops
  refine ⟨h.tally.total, h.tally.part_le, fun key k hholds node hnode => ?_, fun key m hops => ?_⟩
  · rw [← count_filed h.keyed (h.keys.keyed_of_holds hholds) node]
    exact h.tally.exact node hnode k
  · by_cases hkeyed : ∃ k, Keyed g (run g ops).mem key k
    · obtain ⟨k, hkeyed⟩ := hkeyed
      have hcount := h.tally.count_le k
      rw [World.admissionTally, countP_filed h.keyed hkeyed fun n => n ∉ (run g ops).reported]
        at hcount
      exact hcount.trans (admitted_le_run ops hops k hkeyed)
    · have hnone : ∀ k, ¬Keyed g (run g ops).mem key k := fun k hk => hkeyed ⟨k, hk⟩
      rw [countP_of_not_keyed h.keyed hnone fun n => n ∉ (run g ops).reported]
      exact Nat.zero_le _

end OrbitPool
