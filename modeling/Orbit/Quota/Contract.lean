import Orbit.Atomic.Work
import Orbit.Quota.Gcra

/-! What the backings of a quota store share: keys, the geometry of a table, the choice of a slot to
replace, the budget of a call, and the parts of an admission that do not depend on the backing. -/

namespace OrbitQuota

open Orbit.Atomic

/-- A table of `slots` slots in equal shards. -/
structure Geometry where
  slots : Nat
  shards : Nat
  keyBytes : Nat
  probes : Nat
  slots_pos : 0 < slots
  shards_pos : 0 < shards
  probes_pos : 0 < probes
  shards_dvd : shards ∣ slots
  probes_le : probes ≤ slots / shards

def Geometry.perShard (g : Geometry) : Nat := g.slots / g.shards

/-- The slots that a search of a shard inspects, in its order. -/
def Geometry.probed (g : Geometry) (shard start : Nat) : List Nat :=
  (List.range g.probes).map fun probe => shard * g.perShard + (start + probe) % g.perShard

def Geometry.shardOf (g : Geometry) (index : Nat) : Nat := index / g.perShard

theorem Geometry.perShard_pos (g : Geometry) : 0 < g.perShard :=
  Nat.lt_of_lt_of_le g.probes_pos g.probes_le

theorem Geometry.probed_mem {g : Geometry} {shard start index : Nat}
    (h : index ∈ g.probed shard start) (hshard : shard < g.shards) :
    index < g.slots ∧ g.shardOf index = shard := by
  obtain ⟨probe, -, rfl⟩ := List.mem_map.mp h
  have hlt : (start + probe) % g.perShard < g.perShard := Nat.mod_lt _ g.perShard_pos
  have hslots : g.shards * g.perShard = g.slots := Nat.mul_div_cancel' g.shards_dvd
  constructor
  · calc shard * g.perShard + (start + probe) % g.perShard
        < (shard + 1) * g.perShard := by rw [Nat.succ_mul]; omega
      _ ≤ g.shards * g.perShard := Nat.mul_le_mul_right _ hshard
      _ = g.slots := hslots
  · rw [Geometry.shardOf, Nat.mul_comm, Nat.mul_add_div g.perShard_pos, Nat.div_eq_of_lt hlt,
      Nat.add_zero]

/-- Neither part is empty. -/
structure Key where
  namespaceBytes : List UInt8
  subject : List UInt8
  namespace_ne : namespaceBytes ≠ []
  subject_ne : subject ≠ []
  deriving DecidableEq

/-- The bytes that a slot stores of a key. -/
def Key.bytes (key : Key) : List UInt8 := key.namespaceBytes ++ key.subject

/-- What an admission answers with; a `Decision` leaves the times out. -/
inductive Captured where
  | allowed (now tat : Nat)
  | limited (retryAfter : Duration)

inductive Retention where
  | strict
  | guard
  deriving DecidableEq

structure Observation where
  tat : Nat
  seen : Nat
  deriving DecidableEq

/-- `observed` is there only when live debt is to be discarded. -/
structure Candidate where
  index : Nat
  generation : Nat
  observed : Option Observation
  deriving DecidableEq

structure Selection where
  retention : Retention
  replenished : Option Candidate
  cold : Option Candidate

namespace Selection

def new (retention : Retention) : Selection := ⟨retention, none, none⟩

def colder (observation : Observation) : Option Candidate → Bool
  | none => true
  | some candidate => candidate.observed.any fun observed => observation.seen < observed.seen

def consider (s : Selection) (index generation : Nat) (replenished : Bool)
    (observation : Observation) : Selection :=
  if replenished then
    if s.replenished.isNone then { s with replenished := some ⟨index, generation, none⟩ } else s
  else if s.retention = .guard ∧ colder observation s.cold then
    { s with cold := some ⟨index, generation, some observation⟩ }
  else s

def finish (s : Selection) : Except Error Candidate :=
  match s.replenished <|> s.cold with
  | some candidate => .ok candidate
  | none => .error .capacityFull

def All (s : Selection) (P : Nat → Nat → Prop) : Prop :=
  (∀ c ∈ s.replenished, P c.index c.generation) ∧ ∀ c ∈ s.cold, P c.index c.generation

variable {P : Nat → Nat → Prop} {s : Selection}

theorem all_new (retention : Retention) : (new retention).All P :=
  ⟨fun _ h => absurd h (Option.not_mem_none _), fun _ h => absurd h (Option.not_mem_none _)⟩

theorem All.consider (h : s.All P) {index generation : Nat} (hP : P index generation)
    (replenished : Bool) (observation : Observation) :
    (s.consider index generation replenished observation).All P := by
  unfold Selection.consider
  split
  · split
    · refine ⟨fun c hc => ?_, h.2⟩
      cases hc
      exact hP
    · exact h
  · split
    · refine ⟨h.1, fun c hc => ?_⟩
      cases hc
      exact hP
    · exact h

theorem All.finish (h : s.All P) {c : Candidate} (hc : s.finish = .ok c) :
    P c.index c.generation := by
  unfold Selection.finish at hc
  split at hc
  · rename_i c' hor
    cases hc
    cases hr : s.replenished with
    | some r =>
      rw [hr] at hor
      cases hor
      exact h.1 c hr
    | none =>
      rw [hr] at hor
      exact h.2 c hor
  · cases hc

end Selection

/-- What a call may still spend: atomic attempts, and repairs of what the dead left.  `turns` counts
the questions it has put to its surroundings. -/
structure Budget where
  cas : Nat
  recovery : Nat
  turns : Nat

/-- What the rest of the world answers to a call, turn by turn: the clock, whether a weak exchange
fails although the word is the expected one, and whether the system call behind a lock does. -/
structure Surroundings where
  clock : Nat → Except Error Nat
  spurious : Nat → Bool
  lockFails : Nat → Bool

section Parts

variable {A E α : Type}

abbrev QuotaM (A E α : Type) := Work A E Budget Error α

def takeCas : QuotaM A E Unit := .tally fun b =>
  if b.cas = 0 then (.error .busy, b) else (.ok (), { b with cas := b.cas - 1 })

def recover : QuotaM A E Unit := .tally fun b =>
  if b.recovery = 0 then (.error .busy, b) else (.ok (), { b with recovery := b.recovery - 1 })

def turn : QuotaM A E Nat := .tally fun b => (.ok b.turns, { b with turns := b.turns + 1 })

/-- A loop that spends an attempt in each round: it never gets through all the rounds it is given. -/
def withinBudget (loop : Nat → QuotaM A E α) : QuotaM A E α := fun b => loop (b.cas + 1) b

/-- The word becomes `new` if it is `current`; nothing, or the value it has instead. -/
def exchange (place : A) (current new : Nat) : Prog A E (Option Nat) :=
  .access place (fun v => if v = current then some new else none)
    fun v => .ret (if v = current then none else some v)

/-- An exchange that may fail although the word is `current`. -/
def weakExchange (around : Surroundings) (place : A) (current new : Nat) :
    QuotaM A E (Option Nat) := do
  let n ← turn
  if around.spurious n then
    let v ← .lift (load place)
    return some v
  else .lift (exchange place current new)

/-- The word is raised to `now`, if it is below. -/
def raise (around : Surroundings) (place : A) (now : Nat) : Nat → Nat → QuotaM A E Unit
  | 0, _ => .fail .busy
  | rounds + 1, current =>
    if current < now then do
      takeCas
      match ← weakExchange around place current now with
      | none => return ()
      | some current => raise around place now rounds current
    else return ()

def touch (around : Surroundings) (lastSeen : A) (now : Nat) : QuotaM A E Unit := do
  let previous ← .lift (load lastSeen)
  withinBudget fun rounds => raise around lastSeen now rounds previous

/-- The scaled time of a reading of `clock`, with the watermark raised to the reading. -/
def sample (around : Surroundings) (clock : QuotaM A E Nat) (algorithm : Gcra) (watermark : A) :
    QuotaM A E Nat := do
  let floor ← .lift (load watermark)
  let now ← clock
  if now < floor then .fail .clockWentBackwards
  else do
    let scaled ← .of (algorithm.scale now)
    withinBudget fun rounds => raise around watermark now rounds floor
    return scaled

/-- The commit of an admission to a key that has a slot; `charged` tells what was exchanged. -/
def consumeWith (around : Surroundings) (retention : Retention) (time : QuotaM A E Nat)
    (tat lastSeen : A) (charged : Nat → Nat → Nat → E) (prepared : Prepared) :
    Nat → QuotaM A E Captured
  | 0 => .fail .busy
  | rounds + 1 => do
    let previous ← .lift (load tat)
    let now ← time
    if retention = .guard then touch around lastSeen now
    match ← .of (prepared.evaluate now (some previous)) with
    | .limited debt => do
      let retryAfter ← .of (prepared.algorithm.retryAfter debt)
      return .limited retryAfter
    | .allowed next => do
      takeCas
      match ← weakExchange around tat previous next with
      | none => do
        .lift (mark (charged previous now next))
        return .allowed now next
      | some _ => consumeWith around retention time tat lastSeen charged prepared rounds

variable {P : A → Prop} {around : Surroundings} {place : A}

theorem quiet_exchange (h : P place) (current new : Nat) :
    (exchange place current new : Prog A E (Option Nat)).Quiet P :=
  ⟨.inl h, fun _ => trivial⟩

theorem quiet_weakExchange (h : P place) (current new : Nat) :
    (weakExchange around place current new : QuotaM A E (Option Nat)).Quiet P := by
  refine .bind (.tally _) fun n => ?_
  split
  · exact .bind (.lift (quiet_load _)) fun v => .pure _
  · exact .lift (quiet_exchange h current new)

theorem quiet_raise (h : P place) (now rounds current : Nat) :
    (raise around place now rounds current : QuotaM A E Unit).Quiet P := by
  induction rounds generalizing current with
  | zero => exact .fail _
  | succ rounds ih =>
    unfold raise
    split
    · refine .bind (.tally _) fun _ => .bind (quiet_weakExchange h _ _) fun found => ?_
      cases found with
      | none => exact .pure _
      | some current => exact ih current
    · exact .pure _

theorem quiet_withinBudget {loop : Nat → QuotaM A E α} (h : ∀ rounds, (loop rounds).Quiet P) :
    (withinBudget loop).Quiet P :=
  fun b => h (b.cas + 1) b

theorem quiet_touch (h : P place) (now : Nat) :
    (touch around place now : QuotaM A E Unit).Quiet P :=
  .bind (.lift (quiet_load _)) fun previous =>
    quiet_withinBudget fun rounds => quiet_raise h now rounds previous

theorem quiet_sample (h : P place) {clock : QuotaM A E Nat} (hclock : clock.Quiet P)
    (algorithm : Gcra) : (sample around clock algorithm place).Quiet P := by
  refine .bind (.lift (quiet_load _)) fun floor => .bind hclock fun now => ?_
  split
  · exact .fail _
  · exact .bind (.of _) fun scaled => .bind
      (quiet_withinBudget fun rounds => quiet_raise h now rounds floor) fun _ => .pure _

end Parts

section Rules

variable {A E C H M α : Type} [AddCommMonoid M] [DecidableEq A] {S : Sys A E C H}
  {D : Discipline A C H} {I : M → H → Mem A → Prop} {t : Nat} {call : C} {m : M} {F : M → Prop}
  {around : Surroundings} {place : A}

theorem works_takeCas {Q : Unit → M → Prop} (hok : Q () m) (hfail : F m) :
    Works S D I t call (takeCas : QuotaM A E Unit) Q F m :=
  .tally (fun _ _ _ => hok) hfail

theorem works_recover {Q : Unit → M → Prop} (hok : Q () m) (hfail : F m) :
    Works S D I t call (recover : QuotaM A E Unit) Q F m :=
  .tally (fun _ _ _ => hok) hfail

theorem works_withinBudget {loop : Nat → QuotaM A E α} {Q : α → M → Prop}
    (h : ∀ rounds, Works S D I t call (loop rounds) Q F m) :
    Works S D I t call (withinBudget loop) Q F m :=
  fun b => h (b.cas + 1) b

theorem works_exchange_bind {current new : Nat} {f : Option Nat → QuotaM A E α}
    {Q : α → M → Prop}
    (hyes : ∀ others h mem, I (m + others) h mem → mem place = current →
      D.write t call place (mem place) new h mem →
      WorksOn S D I t call (f none) Q F others h (Function.update mem place new))
    (hno : ∀ v, Works S D I t call (f (some v)) Q F m) :
    Works S D I t call (Work.lift (exchange place current new) >>= f) Q F m := by
  intro b others h mem hI hw
  show Goes S D I t call (f (if mem place = current then none else some (mem place)) b) _ others h
    (mem.put place (if mem place = current then some new else none))
  by_cases heq : mem place = current
  · rw [if_pos heq, if_pos heq]
    exact hyes others h mem hI heq (hw new (if_pos heq)) b
  · rw [if_neg heq, if_neg heq]
    exact (hno (mem place)).goes hI b

theorem works_weakExchange_bind {current new : Nat} {f : Option Nat → QuotaM A E α}
    {Q : α → M → Prop}
    (hyes : ∀ others h mem, I (m + others) h mem → mem place = current →
      D.write t call place (mem place) new h mem →
      WorksOn S D I t call (f none) Q F others h (Function.update mem place new))
    (hno : ∀ v, Works S D I t call (f (some v)) Q F m) :
    Works S D I t call (weakExchange around place current new >>= f) Q F m := by
  intro b
  show Safe S D I t call ((if around.spurious b.turns then _ else _ : QuotaM A E (Option Nat))
    { b with turns := b.turns + 1 } >>= _) _ m
  split
  · intro others h mem hI _
    exact (hno (mem place)).goes hI _
  · exact works_exchange_bind hyes hno _

theorem works_consumeWith {retention : Retention} {time : QuotaM A E Nat} {tat lastSeen : A}
    {charged : Nat → Nat → Nat → E} {prepared : Prepared}
    (htime : Works S D I t call time (fun _ m' => m' = m) (fun m' => m' = m) m)
    (htouch : ∀ now, Works S D I t call (touch around lastSeen now) (fun _ m' => m' = m)
      (fun m' => m' = m) m)
    (hcommit : ∀ others h mem now next, I (m + others) h mem →
      prepared.evaluate now (some (mem tat)) = .ok (.allowed next) →
      D.write t call tat (mem tat) next h mem →
      I (m + others) (S.record t call (charged (mem tat) now next) h)
        (Function.update mem tat next)) (rounds : Nat) :
    Works S D I t call (consumeWith around retention time tat lastSeen charged prepared rounds)
      (fun _ m' => m' = m) (fun m' => m' = m) m := by
  induction rounds with
  | zero => exact .fail rfl
  | succ rounds ih =>
    have hdecided : ∀ previous now, Works S D I t call (do
        match ← Work.of (prepared.evaluate now (some previous)) with
        | .limited debt => do
          let retryAfter ← .of (prepared.algorithm.retryAfter debt)
          return .limited retryAfter
        | .allowed next => do
          takeCas
          match ← weakExchange around tat previous next with
          | none => do
            .lift (mark (charged previous now next))
            return .allowed now next
          | some _ => consumeWith around retention time tat lastSeen charged prepared rounds)
        (fun _ m' => m' = m) (fun m' => m' = m) m := by
      intro previous now
      refine .bind (.of (fun outcome houtcome => ?_) rfl)
      cases outcome with
      | limited debt => exact .bind (.of (fun retryAfter _ => .pure rfl) rfl)
      | allowed next =>
        refine .bind (works_takeCas ?_ rfl)
        refine works_weakExchange_bind (fun others h mem hI hprevious hw => ?_) fun v => ih
        subst hprevious
        have hcharged := hcommit others h mem now next hI houtcome hw
        exact WorksOn.mark_bind fun b => ⟨m, hcharged, rfl⟩
    refine .load_bind fun others h mem hI => Works.goes ?_ hI
    refine .bind (htime.mono ?_ fun _ h => h)
    rintro now _ rfl
    dsimp only
    split
    · refine .bind ((htouch now).mono ?_ fun _ h => h)
      rintro _ _ rfl
      exact hdecided _ now
    · exact hdecided _ now

end Rules

end OrbitQuota
