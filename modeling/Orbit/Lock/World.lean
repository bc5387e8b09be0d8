import Orbit.Lock.Probes
import Mathlib.Data.List.Pairwise

/-! Runs of whole operations on one lock table, from any nodes, with publishes that refuse what they
like; and what one operation does to the slots and to the published transitions. -/

namespace OrbitLock

open Orbit.Table
open OrbitRing (NetIds)

theorem eq_of_increasing {α : Type} {f : α → Nat} {xs : List α}
    (h : xs.Pairwise fun a b => f a < f b) {a b : α} (ha : a ∈ xs) (hb : b ∈ xs)
    (heq : f a = f b) : a = b := by
  by_contra hne
  have : Std.Symm fun a b : α => f a ≠ f b := ⟨fun _ _ h => h.symm⟩
  have hdistinct : xs.Pairwise fun a b => f a ≠ f b := h.imp fun hlt => Nat.ne_of_lt hlt
  exact hdistinct.forall ha hb hne heq

abbrev Log := List (Nat × LockTransition)

/-- A publish appends its transition, or refuses it and appends nothing. -/
def recording (node : Nat) (refuses : LockTransition → Option Error) : Publish Log :=
  fun transition log =>
    match refuses transition with
    | some e => (log, .error e)
    | none => (log ++ [(node, transition)], .ok ())

inductive Call where
  | acquire (key : LockKey) (owner : LockOwner) (expiresAtMs : Nat)
  | renewId (lease : LockLease) (requestedExpiresAtMs : Nat)
  | renewOwner (key : LockKey) (owner : LockOwner) (requestedExpiresAtMs : Nat)
  | releaseId (lease : LockLease)
  | releaseOwner (key : LockKey) (owner : LockOwner)
  | forceRelease (key : LockKey)
  | current (key : LockKey)

inductive Result where
  | acquire (result : Except Error LockAcquire)
  | renew (result : Except Error (Option LockLease))
  | release (result : Except Error Bool)
  | current (result : Except Error (Option LockLease))

/-- One operation of a node, with the time it is given and what its publish refuses. -/
structure Op where
  node : Nat
  node_lt : node < 2 ^ 16
  call : Call
  nowMs : Nat
  refuses : LockTransition → Option Error

structure World where
  state : LockState
  log : Log

def World.init (l : Layout) : World := ⟨.init l, []⟩

section

variable (l : Layout) (ids : NetIds) (hash : LockKey → Nat)

def World.perform (w : World) (op : Op) : World × Result :=
  let publish := recording op.node op.refuses
  match op.call with
  | .acquire key owner expiresAtMs =>
    let reply := acquire l ids hash op.node key owner op.nowMs expiresAtMs publish w.state w.log
    (⟨reply.1, reply.2.1⟩, .acquire reply.2.2)
  | .renewId lease requestedExpiresAtMs =>
    let reply := renewId l hash lease op.nowMs requestedExpiresAtMs publish w.state w.log
    (⟨reply.1, reply.2.1⟩, .renew reply.2.2)
  | .renewOwner key owner requestedExpiresAtMs =>
    let reply := renewOwner l hash key owner op.nowMs requestedExpiresAtMs publish w.state w.log
    (⟨reply.1, reply.2.1⟩, .renew reply.2.2)
  | .releaseId lease =>
    let reply := releaseId l hash lease op.nowMs publish w.state w.log
    (⟨reply.1, reply.2.1⟩, .release reply.2.2)
  | .releaseOwner key owner =>
    let reply := releaseOwner l hash key owner op.nowMs publish w.state w.log
    (⟨reply.1, reply.2.1⟩, .release reply.2.2)
  | .forceRelease key =>
    let reply := forceRelease l hash key op.nowMs publish w.state w.log
    (⟨reply.1, reply.2.1⟩, .release reply.2.2)
  | .current key =>
    let reply := current l hash key op.nowMs w.state w.log
    (⟨reply.1, reply.2.1⟩, .current reply.2.2)

def exec (w : World) (op : Op) : World := (w.perform l ids hash op).1

def run (ops : List Op) : World := ops.foldl (exec l ids hash) (.init l)

end

def Call.requested : Call → Option Nat
  | .renewId _ requestedExpiresAtMs | .renewOwner _ _ requestedExpiresAtMs =>
    some requestedExpiresAtMs
  | _ => none

variable {l : Layout} {ids : NetIds} {hash : LockKey → Nat} {op : Op} {node nowMs : Nat}
  {s s' : LockState} {log log' : Log} {key : LockKey} {owner : LockOwner}
  {refuses : LockTransition → Option Error}

/-- What an operation does to the table and to the published transitions. -/
inductive Moves (l : Layout) (ids : NetIds) (hash : LockKey → Nat) (op : Op) (s : LockState)
    (log : Log) : LockState → Log → Prop
  /-- Nothing is published; expired leases go, and counters may be used up. -/
  | quiet (s' : LockState) (swept : Swept op.nowMs s.slots s'.slots)
      (lock : s.nextLock ≤ s'.nextLock)
      (lock_le : s'.nextLock = s.nextLock ∨ s'.nextLock ≤ lockCounterMax)
      (revision : s.nextRevision ≤ s'.nextRevision)
      (revision_lt : s'.nextRevision = s.nextRevision ∨ s'.nextRevision < 2 ^ 64) :
      Moves l ids hash op s log s' log
  | acquired (swept : Nat → LockStateSlot) (index : Nat) (lease : LockLease)
      (sweeps : Swept op.nowMs s.slots swept)
      (absent : ∀ i, (swept i).state = .occupied → (swept i).lease.key ≠ lease.key)
      (free : (swept index).state ≠ .occupied)
      (reaches : Reaches (probing l hash) swept (probePath l (hash lease.key)) index)
      (fits : Fits l lease.key lease.owner)
      (id : lease.lockId = ids.make l.stateKind op.node (s.nextLock + 1))
      (lock_le : s.nextLock + 1 ≤ lockCounterMax)
      (revision : lease.stateRevision = s.nextRevision + 1)
      (revision_lt : s.nextRevision + 1 < 2 ^ 64) (time : lease.acquiredAtMs = op.nowMs)
      (called : op.call = .acquire lease.key lease.owner lease.expiresAtMs)
      (accepted : op.refuses (.acquired lease) = none) :
      Moves l ids hash op s log
        ⟨s.nextLock + 1, s.nextRevision + 1,
          Function.update swept index (.write l (hash lease.key) lease)⟩
        (log ++ [(op.node, .acquired lease)])
  | renewed (index requested : Nat) (lease : LockLease)
      (occupied : (s.slots index).state = .occupied)
      (live : op.nowMs < (s.slots index).expiresAtMs)
      (same : lease = { (s.slots index).lease with
        expiresAtMs := max (s.slots index).expiresAtMs requested
        stateRevision := s.nextRevision + 1 })
      (revision_lt : s.nextRevision + 1 < 2 ^ 64) (called : op.call.requested = some requested)
      (accepted : op.refuses (.renewed lease) = none) :
      Moves l ids hash op s log
        ⟨s.nextLock, s.nextRevision + 1,
          Function.update s.slots index (.write l (s.slots index).keyHash lease)⟩
        (log ++ [(op.node, .renewed lease)])
  | released (index : Nat) (occupied : (s.slots index).state = .occupied)
      (live : op.nowMs < (s.slots index).expiresAtMs) (revision_lt : s.nextRevision + 1 < 2 ^ 64)
      (accepted : op.refuses (.released (s.slots index).lockId (s.slots index).lease.key
        (s.slots index).lease.owner (s.nextRevision + 1)) = none) :
      Moves l ids hash op s log
        ⟨s.nextLock, s.nextRevision + 1,
          Function.update s.slots index (s.slots index).tombstone⟩
        (log ++ [(op.node, .released (s.slots index).lockId (s.slots index).lease.key
          (s.slots index).lease.owner (s.nextRevision + 1))])

theorem mintLockId_ok {lockId : Nat} (h : mintLockId l ids node s = .ok (lockId, s')) :
    lockId = ids.make l.stateKind node (s.nextLock + 1) ∧ s.nextLock + 1 ≤ lockCounterMax ∧
      s' = { s with nextLock := s.nextLock + 1 } := by
  unfold mintLockId at h
  split at h
  · cases h
  split at h
  · cases h
  · rename_i hle
    cases h
    exact ⟨rfl, Nat.le_of_not_lt hle, rfl⟩

theorem mintRevision_ok {revision : Nat} (h : mintRevision s = .ok (revision, s')) :
    revision = s.nextRevision + 1 ∧ s.nextRevision + 1 < 2 ^ 64 ∧
      s' = { s with nextRevision := s.nextRevision + 1 } := by
  unfold mintRevision at h
  split at h
  · cases h
  · rename_i hlt
    cases h
    exact ⟨rfl, Nat.lt_of_not_le hlt, rfl⟩

theorem recording_ok {transition : LockTransition} {outcome : Except Error Unit}
    (h : recording node refuses transition log = (log', outcome)) :
    outcome = .ok () ∧ log' = log ++ [(node, transition)] ∧ refuses transition = none ∨
      (∃ e, outcome = .error e) ∧ log' = log := by
  unfold recording at h
  split at h
  · cases h
    exact .inr ⟨⟨_, rfl⟩, rfl⟩
  · rename_i haccepted
    cases h
    exact .inl ⟨rfl, rfl, haccepted⟩

theorem Moves.refl : Moves l ids hash op s log s log :=
  .quiet s (.refl _ _) (Nat.le_refl _) (.inl rfl) (Nat.le_refl _) (.inl rfl)

theorem renewSlot_moves {index requested : Nat} (hcalled : op.call.requested = some requested)
    (hoccupied : (s.slots index).state = .occupied)
    (hlive : op.nowMs < (s.slots index).expiresAtMs) :
    Moves l ids hash op s log
      (renewSlot l index requested (recording op.node op.refuses) s log).1
      (renewSlot l index requested (recording op.node op.refuses) s log).2.1 := by
  unfold renewSlot
  split
  · exact .refl
  rename_i revision minted hmint
  obtain ⟨rfl, hlt, rfl⟩ := mintRevision_ok hmint
  dsimp only
  split
  · rename_i log' e hpublish
    rcases recording_ok hpublish with ⟨⟨⟩, -⟩ | ⟨-, rfl⟩
    exact .quiet _ (.refl _ _) (Nat.le_refl _) (.inl rfl) (Nat.le_succ _) (.inr hlt)
  · rename_i log' hpublish
    rcases recording_ok hpublish with ⟨-, rfl, haccepted⟩ | ⟨⟨_, ⟨⟩⟩, -⟩
    exact .renewed index requested _ hoccupied hlive rfl hlt hcalled haccepted

theorem releaseSlot_moves {index : Nat} (hoccupied : (s.slots index).state = .occupied)
    (hlive : op.nowMs < (s.slots index).expiresAtMs) :
    Moves l ids hash op s log (releaseSlot index (recording op.node op.refuses) s log).1
      (releaseSlot index (recording op.node op.refuses) s log).2.1 := by
  unfold releaseSlot
  split
  · exact .refl
  rename_i revision minted hmint
  obtain ⟨rfl, hlt, rfl⟩ := mintRevision_ok hmint
  dsimp only
  split
  · rename_i log' e hpublish
    rcases recording_ok hpublish with ⟨⟨⟩, -⟩ | ⟨-, rfl⟩
    exact .quiet _ (.refl _ _) (Nat.le_refl _) (.inl rfl) (Nat.le_succ _) (.inr hlt)
  · rename_i log' hpublish
    rcases recording_ok hpublish with ⟨-, rfl, haccepted⟩ | ⟨⟨_, ⟨⟩⟩, -⟩
    exact .released index hoccupied hlive hlt haccepted

theorem liveSlot_cases (nowMs : Nat) (key : LockKey) (hsound : Sound l hash s.slots) :
    (∃ index, liveSlot l hash key nowMs s = (s, some index) ∧ (s.slots index).state = .occupied ∧
      (s.slots index).lease.key = key ∧ nowMs < (s.slots index).expiresAtMs) ∨
    (∃ slots, liveSlot l hash key nowMs s = ({ s with slots }, none) ∧
      Swept nowMs s.slots slots) ∧
      ∀ i, (s.slots i).state = .occupied → (s.slots i).lease.key = key →
        (s.slots i).expiresAtMs ≤ nowMs := by
  unfold liveSlot
  cases hfind : findSlot l hash s.slots key with
  | none =>
    refine .inr ⟨⟨s.slots, rfl, .refl _ _⟩, fun i hstate hkey => ?_⟩
    rw [findSlot_of_key hsound hstate hkey] at hfind
    cases hfind
  | some index =>
    obtain ⟨hstate, hkey⟩ := findSlot_some hsound hfind
    dsimp only
    by_cases hexpired : (s.slots index).expiresAtMs ≤ nowMs
    · rw [if_pos hexpired]
      refine .inr ⟨⟨_, rfl, .tombstone hstate hexpired⟩, fun i hi hikey => ?_⟩
      rw [findSlot_of_key hsound hi hikey] at hfind
      cases hfind
      exact hexpired
    · rw [if_neg hexpired]
      exact .inl ⟨index, rfl, hstate, hkey, Nat.lt_of_not_le hexpired⟩

theorem Moves.swept {slots : Nat → LockStateSlot} (h : Swept op.nowMs s.slots slots) :
    Moves l ids hash op s log { s with slots } log :=
  .quiet _ h (Nat.le_refl _) (.inl rfl) (Nat.le_refl _) (.inl rfl)

theorem withLive_moves {α : Type} {may : LockStateSlot → Bool} {otherwise : α}
    {change : Nat → LockState → Log → Reply Log α} (hsound : Sound l hash s.slots)
    (hchange : ∀ index, (s.slots index).state = .occupied →
      op.nowMs < (s.slots index).expiresAtMs →
      Moves l ids hash op s log (change index s log).1 (change index s log).2.1) :
    Moves l ids hash op s log (withLive l hash key op.nowMs may otherwise change s log).1
      (withLive l hash key op.nowMs may otherwise change s log).2.1 := by
  unfold withLive
  rcases liveSlot_cases op.nowMs key hsound with
    ⟨index, hlive, hstate, -, hlt⟩ | ⟨⟨slots, hnone, hswept⟩, -⟩
  · rw [hlive]
    dsimp only
    split
    · exact hchange index hstate hlt
    · exact .refl
  · rw [hnone]
    exact .swept hswept

theorem insert_moves {index expiresAtMs : Nat} {swept : Nat → LockStateSlot}
    (hcalled : op.call = .acquire key owner expiresAtMs)
    (hsweeps : Swept op.nowMs s.slots swept)
    (habsent : ∀ i, (swept i).state = .occupied → (swept i).lease.key ≠ key)
    (hfree : (swept index).state ≠ .occupied)
    (hreaches : Reaches (probing l hash) swept (probePath l (hash key)) index)
    (hfits : Fits l key owner) :
    Moves l ids hash op s log
      (insert l ids hash op.node key owner op.nowMs expiresAtMs (recording op.node op.refuses) index
        { s with slots := swept } log).1
      (insert l ids hash op.node key owner op.nowMs expiresAtMs (recording op.node op.refuses) index
        { s with slots := swept } log).2.1 := by
  unfold insert
  split
  · exact .quiet _ hsweeps (Nat.le_refl _) (.inl rfl) (Nat.le_refl _) (.inl rfl)
  rename_i lockId minted hmint
  obtain ⟨rfl, hle, rfl⟩ := mintLockId_ok hmint
  split
  · exact .quiet _ hsweeps (Nat.le_succ _) (.inr hle) (Nat.le_refl _) (.inl rfl)
  rename_i revision minted hrevision
  obtain ⟨rfl, hlt, rfl⟩ := mintRevision_ok hrevision
  dsimp only
  split
  · rename_i log' e hpublish
    rcases recording_ok hpublish with ⟨⟨⟩, -⟩ | ⟨-, rfl⟩
    exact .quiet _ hsweeps (Nat.le_succ _) (.inr hle) (Nat.le_succ _) (.inr hlt)
  · rename_i log' hpublish
    rcases recording_ok hpublish with ⟨-, rfl, haccepted⟩ | ⟨⟨_, ⟨⟩⟩, -⟩
    exact .acquired swept index _ hsweeps habsent hfree hreaches hfits rfl hle rfl hlt rfl hcalled
      haccepted

theorem acquire_moves {expiresAtMs : Nat} (hcalled : op.call = .acquire key owner expiresAtMs)
    (hsound : Sound l hash s.slots) :
    Moves l ids hash op s log
      (acquire l ids hash op.node key owner op.nowMs expiresAtMs (recording op.node op.refuses) s
        log).1
      (acquire l ids hash op.node key owner op.nowMs expiresAtMs (recording op.node op.refuses) s
        log).2.1 := by
  unfold acquire
  split
  · exact .refl
  rename_i hvalid
  obtain ⟨hswept, hscanned⟩ := scan_spec hsound key op.nowMs
  have hquiet : Moves l ids hash op s log
      { s with slots := (scan (hash key) key op.nowMs (probePath l (hash key)) s.slots none).1 }
      log := .swept hswept
  dsimp only
  split
  · exact hquiet
  · exact hquiet
  · rename_i index hresult
    rw [hresult] at hscanned
    obtain ⟨habsent, hindex⟩ := hscanned
    obtain ⟨hfree, hreaches⟩ := hindex index rfl
    exact insert_moves hcalled hswept habsent hfree hreaches (validateEntry_ok hvalid)

theorem perform_moves {w : World} (hsound : Sound l hash w.state.slots) (op : Op) :
    Moves l ids hash op w.state w.log (exec l ids hash w op).state
      (exec l ids hash w op).log := by
  obtain ⟨node, hnode, call, nowMs, refuses⟩ := op
  unfold exec World.perform
  cases call with
  | acquire key owner expiresAtMs => exact acquire_moves rfl hsound
  | renewId lease requested =>
    dsimp only [renewId]
    split
    · exact .refl
    · exact withLive_moves hsound fun index hstate hlive => renewSlot_moves rfl hstate hlive
  | renewOwner key owner requested =>
    dsimp only [renewOwner]
    split
    · exact .refl
    · exact withLive_moves hsound fun index hstate hlive => renewSlot_moves rfl hstate hlive
  | releaseId lease =>
    dsimp only [releaseId]
    split
    · exact .refl
    · exact withLive_moves hsound fun index hstate hlive => releaseSlot_moves hstate hlive
  | releaseOwner key owner =>
    dsimp only [releaseOwner]
    split
    · exact .refl
    · exact withLive_moves hsound fun index hstate hlive => releaseSlot_moves hstate hlive
  | forceRelease key =>
    dsimp only [forceRelease]
    split
    · exact .refl
    split
    · exact .refl
    rename_i index hfind
    obtain ⟨hstate, -⟩ := findSlot_some hsound hfind
    split
    · rename_i hexpired
      exact .swept (.tombstone hstate hexpired)
    · rename_i hexpired
      exact releaseSlot_moves hstate (Nat.lt_of_not_le hexpired)
  | current key =>
    dsimp only [current]
    split
    · exact .refl
    rcases liveSlot_cases nowMs key hsound with
      ⟨index, hlive, -⟩ | ⟨⟨slots, hnone, hswept⟩, -⟩
    · rw [hlive]
      exact .refl
    · rw [hnone]
      exact .swept hswept

theorem Sound.renewed {index expiresAtMs revision : Nat} {lease : LockLease}
    (h : Sound l hash s.slots) (hoccupied : (s.slots index).state = .occupied)
    (hsame : lease = { (s.slots index).lease with
      expiresAtMs
      stateRevision := revision }) :
    lease.key = (s.slots index).lease.key ∧ Fits l lease.key lease.owner := by
  have hkey : lease.key = (s.slots index).lease.key := by rw [hsame]
  have howner : lease.owner = (s.slots index).lease.owner := by rw [hsame]
  refine ⟨hkey, ?_⟩
  rw [hkey, howner]
  exact (h.entered index hoccupied).2

theorem Moves.sound (h : Moves l ids hash op s log s' log') (hsound : Sound l hash s.slots) :
    Sound l hash s'.slots := by
  cases h with
  | quiet s' hswept => exact hsound.swept hswept
  | acquired swept index lease hsweeps habsent _ hreaches hfits =>
    exact (hsound.swept hsweeps).insert habsent hreaches hfits
  | renewed index requested lease hoccupied _ hsame =>
    obtain ⟨hkey, hfits⟩ := hsound.renewed hoccupied hsame
    exact hsound.rewrite hoccupied hkey hfits
  | released index hoccupied => exact hsound.tombstone hoccupied

def Result.Tells : Result → LockTransition → Prop
  | .acquire (.ok (.acquired lease)), .acquired lease' => lease = lease'
  | .renew (.ok (some lease)), .renewed lease' => lease = lease'
  | .release (.ok true), .released _ _ _ _ => True
  | _, _ => False

/-- A change is published once, and nothing is published when there is none. -/
def Told {α : Type} (node : Nat) (result : Except Error α → Result) (log : Log)
    (reply : Reply Log α) : Prop :=
  reply.2.1 = log ∧ (∀ transition, ¬(result reply.2.2).Tells transition) ∨
    ∃ transition, reply.2.1 = log ++ [(node, transition)] ∧ (result reply.2.2).Tells transition

section

variable {index requested expiresAtMs : Nat}

theorem renewSlot_told :
    Told node .renew log (renewSlot l index requested (recording node refuses) s log) := by
  unfold renewSlot
  split
  · exact .inl ⟨rfl, fun _ => id⟩
  dsimp only
  split
  · rename_i hpublish
    rcases recording_ok hpublish with ⟨⟨⟩, -⟩ | ⟨-, rfl⟩
    exact .inl ⟨rfl, fun _ => id⟩
  · rename_i hpublish
    rcases recording_ok hpublish with ⟨-, rfl, haccepted⟩ | ⟨⟨_, ⟨⟩⟩, -⟩
    exact .inr ⟨_, rfl, rfl⟩

theorem releaseSlot_told :
    Told node .release log (releaseSlot index (recording node refuses) s log) := by
  unfold releaseSlot
  split
  · exact .inl ⟨rfl, fun _ => id⟩
  dsimp only
  split
  · rename_i hpublish
    rcases recording_ok hpublish with ⟨⟨⟩, -⟩ | ⟨-, rfl⟩
    exact .inl ⟨rfl, fun _ => id⟩
  · rename_i hpublish
    rcases recording_ok hpublish with ⟨-, rfl, haccepted⟩ | ⟨⟨_, ⟨⟩⟩, -⟩
    exact .inr ⟨_, rfl, trivial⟩

theorem withLive_told {α : Type} {may : LockStateSlot → Bool} {otherwise : α}
    {change : Nat → LockState → Log → Reply Log α} (result : Except Error α → Result)
    (hotherwise : ∀ transition, ¬(result (.ok otherwise)).Tells transition)
    (hchange : ∀ index s, Told node result log (change index s log)) :
    Told node result log (withLive l hash key nowMs may otherwise change s log) := by
  unfold withLive
  split
  · exact .inl ⟨rfl, hotherwise⟩
  split
  · exact hchange _ _
  · exact .inl ⟨rfl, hotherwise⟩

theorem insert_told :
    Told node .acquire log
      (insert l ids hash node key owner nowMs expiresAtMs (recording node refuses) index s log) := by
  unfold insert
  split
  · exact .inl ⟨rfl, fun _ => id⟩
  split
  · exact .inl ⟨rfl, fun _ => id⟩
  dsimp only
  split
  · rename_i hpublish
    rcases recording_ok hpublish with ⟨⟨⟩, -⟩ | ⟨-, rfl⟩
    exact .inl ⟨rfl, fun _ => id⟩
  · rename_i hpublish
    rcases recording_ok hpublish with ⟨-, rfl, haccepted⟩ | ⟨⟨_, ⟨⟩⟩, -⟩
    exact .inr ⟨_, rfl, rfl⟩

theorem acquire_told :
    Told node .acquire log
      (acquire l ids hash node key owner nowMs expiresAtMs (recording node refuses) s log) := by
  unfold acquire
  split
  · exact .inl ⟨rfl, fun _ => id⟩
  dsimp only
  split
  · exact .inl ⟨rfl, fun _ => id⟩
  · exact .inl ⟨rfl, fun _ => id⟩
  · exact insert_told

theorem forceRelease_told :
    Told node .release log (forceRelease l hash key nowMs (recording node refuses) s log) := by
  unfold forceRelease
  split
  · exact .inl ⟨rfl, fun _ => id⟩
  split
  · exact .inl ⟨rfl, fun _ => id⟩
  split
  · exact .inl ⟨rfl, fun _ => id⟩
  · exact releaseSlot_told

end

theorem perform_told (w : World) (op : Op) :
    (exec l ids hash w op).log = w.log ∧
        (∀ transition, ¬(w.perform l ids hash op).2.Tells transition) ∨
      ∃ transition, (exec l ids hash w op).log = w.log ++ [(op.node, transition)] ∧
        (w.perform l ids hash op).2.Tells transition := by
  obtain ⟨node, hnode, call, nowMs, refuses⟩ := op
  unfold exec World.perform
  cases call with
  | acquire key owner expiresAtMs => exact acquire_told
  | renewId lease requested =>
    dsimp only [renewId]
    split
    · exact .inl ⟨rfl, fun _ => id⟩
    · exact withLive_told .renew (fun _ => id) fun _ _ => renewSlot_told
  | renewOwner key owner requested =>
    dsimp only [renewOwner]
    split
    · exact .inl ⟨rfl, fun _ => id⟩
    · exact withLive_told .renew (fun _ => id) fun _ _ => renewSlot_told
  | releaseId lease =>
    dsimp only [releaseId]
    split
    · exact .inl ⟨rfl, fun _ => id⟩
    · exact withLive_told .release (fun _ => id) fun _ _ => releaseSlot_told
  | releaseOwner key owner =>
    dsimp only [releaseOwner]
    split
    · exact .inl ⟨rfl, fun _ => id⟩
    · exact withLive_told .release (fun _ => id) fun _ _ => releaseSlot_told
  | forceRelease key => exact forceRelease_told
  | current key =>
    dsimp only [current]
    split
    · exact .inl ⟨rfl, fun _ => id⟩
    split
    · exact .inl ⟨rfl, fun _ => id⟩
    · exact .inl ⟨rfl, fun _ => id⟩

end OrbitLock
