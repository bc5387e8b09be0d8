import Orbit.Atomic.Sequence
import Orbit.Lock.World

/-! Exclusion and fencing: a key is acquired when its earlier tenures are over, and the tokens of
tenures increase. -/

namespace OrbitLock

open Orbit.Atomic List Function
open Orbit.Table
open OrbitRing (NetIds)

/-- A tenure of a key, with its lease as it was last renewed. -/
structure Tenure where
  lease : LockLease
  released : Bool
  deriving DecidableEq, Repr

def Tenure.renew (lease : LockLease) (t : Tenure) : Tenure :=
  if t.lease.lockId = lease.lockId then { t with lease } else t

def Tenure.release (lockId : Nat) (t : Tenure) : Tenure :=
  if t.lease.lockId = lockId then { t with released := true } else t

def record (ts : List Tenure) : Nat × LockTransition → List Tenure
  | (_, .acquired lease) => ts ++ [⟨lease, false⟩]
  | (_, .renewed lease) => ts.map (Tenure.renew lease)
  | (_, .released lockId _ _ _) => ts.map (Tenure.release lockId)

/-- The tenures of a sequence of transitions, in the order in which they were acquired. -/
def tenures (log : Log) : List Tenure := log.foldl record []

theorem tenures_append (log : Log) (entry : Nat × LockTransition) :
    tenures (log ++ [entry]) = record (tenures log) entry := foldl_append

/-- The tenure is over: released, or expired. -/
def Tenure.Over (nowMs : Nat) (t : Tenure) : Prop :=
  t.released = true ∨ t.lease.expiresAtMs ≤ nowMs

instance (nowMs : Nat) : DecidablePred (Tenure.Over nowMs) := fun _ =>
  inferInstanceAs (Decidable (_ ∨ _))

def Tenure.token (ids : NetIds) (t : Tenure) : Nat := t.lease.fencingToken ids

section

variable {ids : NetIds} {lease : LockLease} {lockId nowMs : Nat} {t : Tenure}

theorem Tenure.token_renew : (t.renew lease).token ids = t.token ids := by
  unfold Tenure.renew
  split
  · rename_i heq
    exact congrArg ids.counter heq.symm
  · rfl

theorem Tenure.token_release : (t.release lockId).token ids = t.token ids := by
  unfold Tenure.release
  split <;> rfl

theorem Tenure.not_over : ¬t.Over nowMs ↔ t.released = false ∧ nowMs < t.lease.expiresAtMs := by
  unfold Tenure.Over
  rw [not_or, Bool.not_eq_true, Nat.not_le]

end

variable {l : Layout} {ids : NetIds} {hash : LockKey → Nat} {nowMs nowMs' : Nat} {w : World}
  {t t' : Tenure} {i j : Nat}

/-- The slots hold the tenures that are not over, and the tokens of tenures increase up to the
counter of the table. -/
structure Kept (l : Layout) (ids : NetIds) (hash : LockKey → Nat) (nowMs : Nat) (w : World) :
    Prop where
  sound : Sound l hash w.state.slots
  known : ∀ i, (w.state.slots i).state = .occupied →
    ⟨(w.state.slots i).lease, false⟩ ∈ tenures w.log
  held : ∀ t ∈ tenures w.log, ¬t.Over nowMs →
    ∃ i, (w.state.slots i).state = .occupied ∧ (w.state.slots i).lease = t.lease
  tokens : ∀ t ∈ tenures w.log, t.token ids ≤ w.state.nextLock
  order : (tenures w.log).Pairwise fun older newer => older.token ids < newer.token ids
  lock_le : w.state.nextLock ≤ lockCounterMax

theorem kept_init (l : Layout) (ids : NetIds) (hash : LockKey → Nat) :
    Kept l ids hash 0 (.init l) where
  sound := sound_init l hash
  known i h := by cases h
  held t h := by cases h
  tokens t h := by cases h
  order := .nil
  lock_le := Nat.zero_le _

theorem Kept.same (h : Kept l ids hash nowMs w) (ht : t ∈ tenures w.log) (ht' : t' ∈ tenures w.log)
    (hid : t.lease.lockId = t'.lease.lockId) : t = t' :=
  eq_of_increasing h.order ht ht' (congrArg ids.counter hid)

theorem Kept.slot (h : Kept l ids hash nowMs w) (hi : (w.state.slots i).state = .occupied)
    (hj : (w.state.slots j).state = .occupied)
    (hid : (w.state.slots i).lockId = (w.state.slots j).lockId) : i = j := by
  have hlease : (w.state.slots i).lease = (w.state.slots j).lease :=
    congrArg Tenure.lease (h.same (h.known i hi) (h.known j hj) hid)
  exact h.sound.probed.unique i j _ (key_some.mpr ⟨hi, rfl⟩)
    (key_some.mpr ⟨hj, congrArg LockLease.key hlease.symm⟩)

theorem Tenure.Over.mono (h : t.Over nowMs) (hle : nowMs ≤ nowMs') : t.Over nowMs' :=
  h.imp_right fun hexpired => Nat.le_trans hexpired hle

theorem Kept.later (h : Kept l ids hash nowMs w) (hle : nowMs ≤ nowMs') :
    Kept l ids hash nowMs' w :=
  { h with held := fun t ht hover => h.held t ht fun hold => hover (hold.mono hle) }

section

variable {node : Nat} {state' : LockState} {log' : Log}

theorem Kept.quiet (h : Kept l ids hash nowMs w) (hswept : Swept nowMs w.state.slots state'.slots)
    (hlock : w.state.nextLock ≤ state'.nextLock)
    (hle : state'.nextLock = w.state.nextLock ∨ state'.nextLock ≤ lockCounterMax) :
    Kept l ids hash nowMs ⟨state', w.log⟩ where
  sound := h.sound.swept hswept
  known i hstate := by
    have heq := hswept.occupied hstate
    dsimp only at hstate
    rw [heq] at hstate
    dsimp only
    rw [heq]
    exact h.known i hstate
  held t ht hover := by
    obtain ⟨i, hstate, hlease⟩ := h.held t ht hover
    have hexpires : (w.state.slots i).expiresAtMs = t.lease.expiresAtMs :=
      congrArg LockLease.expiresAtMs hlease
    have heq : state'.slots i = w.state.slots i := hswept.live (by
      rw [hexpires]
      exact (Tenure.not_over.mp hover).2)
    exact ⟨i, heq ▸ hstate, heq ▸ hlease⟩
  tokens t ht := Nat.le_trans (h.tokens t ht) hlock
  order := h.order
  lock_le := by
    rcases hle with heq | hle
    · exact Nat.le_trans (Nat.le_of_eq heq) h.lock_le
    · exact hle

theorem Kept.acquired (h : Kept l ids hash nowMs w) (hnode : node < 2 ^ 16)
    {swept : Nat → LockStateSlot} {index revision : Nat} {lease : LockLease}
    (hsound : Sound l hash (update swept index (.write l (hash lease.key) lease)))
    (hsweeps : Swept nowMs w.state.slots swept) (hfree : (swept index).state ≠ .occupied)
    (hfits : Fits l lease.key lease.owner)
    (hid : lease.lockId = ids.make l.stateKind node (w.state.nextLock + 1))
    (hle : w.state.nextLock + 1 ≤ lockCounterMax) :
    Kept l ids hash nowMs ⟨⟨w.state.nextLock + 1, revision,
      update swept index (.write l (hash lease.key) lease)⟩,
      w.log ++ [(node, .acquired lease)]⟩ := by
  have hswept : Kept l ids hash nowMs ⟨{ w.state with slots := swept }, w.log⟩ :=
    h.quiet hsweeps (Nat.le_refl _) (.inl rfl)
  have hlease : (LockStateSlot.write l (hash lease.key) lease).lease = lease :=
    LockStateSlot.lease_write hfits
  have htoken : lease.fencingToken ids = w.state.nextLock + 1 := by
    unfold LockLease.fencingToken
    rw [hid]
    refine ids.counter_make _ _ _ l.stateKind_lt hnode (Nat.lt_of_le_of_lt hle ?_)
    decide
  have hlog : tenures (w.log ++ [(node, .acquired lease)]) = tenures w.log ++ [⟨lease, false⟩] :=
    tenures_append _ _
  constructor
  · exact hsound
  · intro i
    rw [hlog]
    dsimp only
    rcases update_slot swept (.write l (hash lease.key) lease) index i with
      ⟨-, heq⟩ | ⟨-, heq⟩
    · rw [heq, hlease]
      exact fun _ => mem_append_right _ mem_cons_self
    · rw [heq]
      exact fun hstate => mem_append_left _ (hswept.known i hstate)
  · intro t ht hover
    rw [hlog] at ht
    dsimp only
    rcases mem_append.mp ht with hold | hnew
    · obtain ⟨i, hstate, heq⟩ := hswept.held t hold hover
      have hi : i ≠ index := by
        rintro rfl
        exact hfree hstate
      refine ⟨i, ?_⟩
      rw [update_of_ne hi]
      exact ⟨hstate, heq⟩
    · rw [mem_singleton.mp hnew]
      refine ⟨index, ?_⟩
      rw [update_self]
      exact ⟨rfl, hlease⟩
  · intro t ht
    rw [hlog] at ht
    rcases mem_append.mp ht with hold | hnew
    · exact Nat.le_succ_of_le (h.tokens t hold)
    · rw [mem_singleton.mp hnew]
      exact Nat.le_of_eq htoken
  · rw [hlog]
    refine pairwise_append.mpr ⟨h.order, pairwise_singleton _ _, fun t ht t' ht' => ?_⟩
    rw [mem_singleton.mp ht']
    exact Nat.lt_of_lt_of_eq (Nat.lt_succ_of_le (h.tokens t ht)) htoken.symm
  · exact hle

theorem Kept.changed (h : Kept l ids hash nowMs w) {index revision : Nat} {slot : LockStateSlot}
    (change : Tenure → Tenure) (hoccupied : (w.state.slots index).state = .occupied)
    (hother : ∀ t, t.lease.lockId ≠ (w.state.slots index).lockId → change t = t)
    (htoken : ∀ t, (change t).token ids = t.token ids)
    (hsound : Sound l hash (update w.state.slots index slot))
    (hknown : slot.state = .occupied →
      change ⟨(w.state.slots index).lease, false⟩ = ⟨slot.lease, false⟩)
    (hheld : ¬(change ⟨(w.state.slots index).lease, false⟩).Over nowMs → slot.state = .occupied)
    (hlog : tenures log' = (tenures w.log).map change) :
    Kept l ids hash nowMs
      ⟨⟨w.state.nextLock, revision, update w.state.slots index slot⟩, log'⟩ := by
  have hindex := h.known index hoccupied
  refine ⟨hsound, fun i => ?_, fun t' ht' hover => ?_, fun t' ht' => ?_, ?_, h.lock_le⟩
  · rw [hlog]
    dsimp only
    rcases update_slot w.state.slots slot index i with
      ⟨-, heq⟩ | ⟨hi, heq⟩
    · rw [heq]
      intro hstate
      exact mem_map.mpr ⟨_, hindex, hknown hstate⟩
    · rw [heq]
      intro hstate
      refine mem_map.mpr ⟨_, h.known i hstate, hother _ fun hid => hi ?_⟩
      exact h.slot hstate hoccupied hid
  · rw [hlog] at ht'
    obtain ⟨t, ht, rfl⟩ := mem_map.mp ht'
    dsimp only
    by_cases hid : t.lease.lockId = (w.state.slots index).lockId
    · have heq : t = ⟨(w.state.slots index).lease, false⟩ := h.same ht hindex hid
      rw [heq] at hover ⊢
      have hstate := hheld hover
      refine ⟨index, ?_⟩
      rw [update_self, hknown hstate]
      exact ⟨hstate, rfl⟩
    · rw [hother t hid] at hover ⊢
      obtain ⟨i, hstate, heq⟩ := h.held t ht hover
      have hi : i ≠ index := by
        rintro rfl
        exact hid (congrArg LockLease.lockId heq.symm)
      refine ⟨i, ?_⟩
      rw [update_of_ne hi]
      exact ⟨hstate, heq⟩
  · rw [hlog] at ht'
    obtain ⟨t, ht, rfl⟩ := mem_map.mp ht'
    rw [htoken]
    exact h.tokens t ht
  · rw [hlog]
    refine pairwise_map.mpr (h.order.imp fun hlt => ?_)
    rw [htoken, htoken]
    exact hlt

theorem Kept.renewed (h : Kept l ids hash nowMs w) {index revision : Nat} {lease : LockLease}
    {expiresAtMs : Nat}
    (hsound : Sound l hash (update w.state.slots index
      (.write l (w.state.slots index).keyHash lease)))
    (hoccupied : (w.state.slots index).state = .occupied)
    (hsame : lease = { (w.state.slots index).lease with
      expiresAtMs
      stateRevision := revision }) :
    Kept l ids hash nowMs ⟨⟨w.state.nextLock, revision, update w.state.slots index
      (.write l (w.state.slots index).keyHash lease)⟩, w.log ++ [(node, .renewed lease)]⟩ := by
  have hid : lease.lockId = (w.state.slots index).lockId := by
    rw [hsame]
    rfl
  have hlease : (LockStateSlot.write l (w.state.slots index).keyHash lease).lease = lease :=
    LockStateSlot.lease_write (h.sound.renewed hoccupied hsame).2
  refine h.changed (Tenure.renew lease) hoccupied (fun t hne => if_neg (hid ▸ hne))
    (fun t => Tenure.token_renew) hsound (fun _ => ?_) (fun _ => rfl) (tenures_append _ _)
  rw [hlease]
  exact if_pos hid.symm

theorem Kept.released (h : Kept l ids hash nowMs w) {index revision : Nat} {key : LockKey}
    {owner : LockOwner}
    (hoccupied : (w.state.slots index).state = .occupied) :
    Kept l ids hash nowMs ⟨⟨w.state.nextLock, revision,
      update w.state.slots index (w.state.slots index).tombstone⟩,
      w.log ++ [(node, .released (w.state.slots index).lockId key owner revision)]⟩ := by
  refine h.changed (Tenure.release _) hoccupied (fun t hne => if_neg hne)
    (fun t => Tenure.token_release) (h.sound.tombstone hoccupied) (fun hstate => by cases hstate)
    (fun hover => absurd ?_ hover) (tenures_append _ _)
  have hrelease : (Tenure.release (w.state.slots index).lockId
      ⟨(w.state.slots index).lease, false⟩).released = true := congrArg Tenure.released (if_pos rfl)
  exact .inl hrelease

theorem Kept.moves {op : Op} (h : Kept l ids hash op.nowMs w)
    (hmoves : Moves l ids hash op w.state w.log state' log') :
    Kept l ids hash op.nowMs ⟨state', log'⟩ := by
  have hsound := hmoves.sound h.sound
  cases hmoves with
  | quiet state' hswept hlock hle => exact h.quiet hswept hlock hle
  | acquired swept index lease hsweeps _ hfree _ hfits hid hle =>
    exact h.acquired op.node_lt hsound hsweeps hfree hfits hid hle
  | renewed index requested lease hoccupied _ hsame => exact h.renewed hsound hoccupied hsame
  | released index hoccupied => exact h.released hoccupied

end

theorem Kept.step (h : Kept l ids hash nowMs w) (op : Op) (hle : nowMs ≤ op.nowMs) :
    Kept l ids hash op.nowMs (exec l ids hash w op) :=
  (h.later hle).moves (perform_moves h.sound op)

theorem Kept.foldl {ops : List Op} (h : Kept l ids hash nowMs w)
    (htimes : ops.Pairwise fun a b => a.nowMs ≤ b.nowMs) (hfirst : ∀ op ∈ ops, nowMs ≤ op.nowMs)
    (hlast : ∀ op ∈ ops, op.nowMs ≤ nowMs') (hle : nowMs ≤ nowMs') :
    Kept l ids hash nowMs' (ops.foldl (exec l ids hash) w) := by
  induction ops generalizing w nowMs with
  | nil => exact h.later hle
  | cons op rest ih =>
    rw [pairwise_cons] at htimes
    exact ih (h.step op (hfirst op mem_cons_self)) htimes.2 htimes.1
      (fun op' hop' => hlast op' (mem_cons_of_mem _ hop')) (hlast op mem_cons_self)

theorem kept_run (l : Layout) (ids : NetIds) (hash : LockKey → Nat) {ops : List Op}
    (htimes : ops.Pairwise fun a b => a.nowMs ≤ b.nowMs)
    (hlast : ∀ op ∈ ops, op.nowMs ≤ nowMs) : Kept l ids hash nowMs (run l ids hash ops) :=
  (kept_init l ids hash).foldl htimes (fun _ _ => Nat.zero_le _) hlast (Nat.zero_le _)

section

variable {node expiresAtMs : Nat} {key : LockKey} {owner : LockOwner} {lease : LockLease}
  {refuses : LockTransition → Option Error} {s : LockState} {log : Log}

theorem insert_acquired {index : Nat}
    (h : (insert l ids hash node key owner nowMs expiresAtMs (recording node refuses) index s
      log).2.2 = .ok (.acquired lease)) :
    lease.key = key ∧ lease.owner = owner ∧ lease.acquiredAtMs = nowMs ∧
      lease.expiresAtMs = expiresAtMs ∧
      (insert l ids hash node key owner nowMs expiresAtMs (recording node refuses) index s
        log).2.1 = log ++ [(node, .acquired lease)] := by
  unfold insert at h ⊢
  split
  · rename_i hmint
    rw [hmint] at h
    cases h
  rename_i lockId minted hmint
  rw [hmint] at h
  dsimp only at h ⊢
  split
  · rename_i hrevision
    rw [hrevision] at h
    cases h
  rename_i revision minted hrevision
  rw [hrevision] at h
  dsimp only at h ⊢
  split
  · rename_i log' e hpublish
    rw [hpublish] at h
    cases h
  · rename_i log' hpublish
    rw [hpublish] at h
    rcases recording_ok hpublish with ⟨-, rfl, -⟩ | ⟨⟨_, ⟨⟩⟩, -⟩
    cases h
    exact ⟨rfl, rfl, rfl, rfl, rfl⟩

theorem insert_not_occupied {index : Nat} :
    (insert l ids hash node key owner nowMs expiresAtMs (recording node refuses) index s log).2.2 ≠
      .ok (.occupied lease) := by
  unfold insert
  split
  · rintro ⟨⟩
  split
  · rintro ⟨⟩
  dsimp only
  split <;> rintro ⟨⟩

theorem acquire_acquired (hsound : Sound l hash s.slots)
    (h : (acquire l ids hash node key owner nowMs expiresAtMs (recording node refuses) s
      log).2.2 = .ok (.acquired lease)) :
    (∀ i, (s.slots i).state = .occupied → (s.slots i).lease.key = key →
      (s.slots i).expiresAtMs ≤ nowMs) ∧
    lease.key = key ∧ lease.owner = owner ∧ lease.acquiredAtMs = nowMs ∧
      lease.expiresAtMs = expiresAtMs ∧
      (acquire l ids hash node key owner nowMs expiresAtMs (recording node refuses) s log).2.1 =
        log ++ [(node, .acquired lease)] := by
  obtain ⟨hswept, hscanned⟩ := scan_spec hsound key nowMs
  unfold acquire at h ⊢
  split
  · rename_i hvalid
    rw [hvalid] at h
    cases h
  rename_i hvalid
  rw [hvalid] at h
  dsimp only at h ⊢
  split
  · rename_i hresult
    rw [hresult] at h
    cases h
  · rename_i hresult
    rw [hresult] at h
    cases h
  · rename_i index hresult
    rw [hresult] at h hscanned
    refine ⟨fun i hstate hkey => ?_, insert_acquired h⟩
    rcases hswept i with heq | ⟨-, hexpired, -⟩
    · exact absurd (heq ▸ hkey) (hscanned.1 i (heq ▸ hstate))
    · exact hexpired

theorem acquire_occupied (hsound : Sound l hash s.slots)
    (h : (acquire l ids hash node key owner nowMs expiresAtMs (recording node refuses) s
      log).2.2 = .ok (.occupied lease)) :
    ∃ i, (s.slots i).state = .occupied ∧ (s.slots i).lease = lease ∧ lease.key = key ∧
      nowMs < lease.expiresAtMs := by
  obtain ⟨hswept, hscanned⟩ := scan_spec hsound key nowMs
  unfold acquire at h
  split at h
  · cases h
  dsimp only at h
  split at h
  · rename_i hresult
    cases h
    rw [hresult] at hscanned
    obtain ⟨i, hstate, hlease, hkey, hlive⟩ := hscanned
    have heq := hswept.occupied hstate
    rw [heq] at hstate hlease
    exact ⟨i, hstate, hlease, hkey, hlive⟩
  · cases h
  · exact absurd h insert_not_occupied

theorem acquire_live (hsound : Sound l hash s.slots) (hvalid : validateEntry l key owner = .ok ())
    (hstate : (s.slots i).state = .occupied) (hkey : (s.slots i).lease.key = key)
    (hlive : nowMs < (s.slots i).expiresAtMs) :
    (acquire l ids hash node key owner nowMs expiresAtMs (recording node refuses) s log).2.2 =
      .ok (.occupied (s.slots i).lease) := by
  obtain ⟨hswept, hscanned⟩ := scan_spec hsound key nowMs
  have heq := hswept.live hlive
  unfold acquire
  rw [hvalid]
  dsimp only
  split
  · rename_i lease hresult
    rw [hresult] at hscanned
    obtain ⟨j, hj, hlease, hjkey, -⟩ := hscanned
    have hslot := hswept.occupied hj
    rw [hslot] at hj hlease
    have hij : i = j := hsound.probed.unique i j key (key_some.mpr ⟨hstate, hkey⟩)
      (key_some.mpr ⟨hj, hlease ▸ hjkey⟩)
    rw [← hlease, hij]
  all_goals
    rename_i hresult
    rw [hresult] at hscanned
    exact absurd (heq.symm ▸ hkey) (hscanned.1 i (heq.symm ▸ hstate))

end

def Fence.admitAll (fence : Fence) (tokens : List Nat) : Fence :=
  tokens.foldl (fun fence token => (fence.admitToken token).1) fence

theorem Fence.highWater_le_admitAll (fence : Fence) (tokens : List Nat) :
    fence.highWater ≤ (fence.admitAll tokens).highWater := by
  induction tokens generalizing fence with
  | nil => exact Nat.le_refl _
  | cons token rest ih => exact Nat.le_trans (Nat.le_max_left _ _) (ih (fence.admitToken token).1)

theorem Fence.not_admit {older newer : Nat} (hlt : older < newer) (fence : Fence)
    (tokens : List Nat) : (((fence.admitToken newer).1.admitAll tokens).admitToken older).2 = false := by
  refine decide_eq_false (Nat.not_le_of_lt (Nat.lt_of_lt_of_le hlt ?_))
  exact Nat.le_trans (Nat.le_max_right _ _)
    (Fence.highWater_le_admitAll (fence.admitToken newer).1 tokens)

/-- A key is acquired only when its earlier tenures are over; otherwise the one that is not is
reported.  The tokens of tenures increase, and a fence that has seen one admits no older one. -/
theorem acquire_exclusive (l : Layout) (ids : NetIds) (hash : LockKey → Nat) (ops : List Op)
    (op : Op) (key : LockKey) (owner : LockOwner) (expiresAtMs : Nat)
    (hcall : op.call = .acquire key owner expiresAtMs)
    (htimes : (ops ++ [op]).Pairwise fun a b => a.nowMs ≤ b.nowMs) :
    let w := run l ids hash ops
    let result := (w.perform l ids hash op).2
    (∀ lease, result = .acquire (.ok (.acquired lease)) →
      (∀ t ∈ tenures w.log, t.lease.key = key → t.Over op.nowMs) ∧
      lease.key = key ∧ lease.owner = owner ∧ lease.expiresAtMs = expiresAtMs ∧
      tenures (exec l ids hash w op).log = tenures w.log ++ [⟨lease, false⟩]) ∧
    (∀ lease, result = .acquire (.ok (.occupied lease)) →
      lease.key = key ∧ ⟨lease, false⟩ ∈ tenures w.log ∧ ¬Tenure.Over op.nowMs ⟨lease, false⟩) ∧
    (∀ t ∈ tenures w.log, t.lease.key = key → ¬t.Over op.nowMs →
      validateEntry l key owner = .ok () → result = .acquire (.ok (.occupied t.lease))) ∧
    (tenures (exec l ids hash w op).log).Pairwise fun older newer =>
      older.token ids < newer.token ids ∧
      ∀ (fence : Fence) (tokens : List Nat),
        (((fence.admitToken (newer.token ids)).1.admitAll tokens).admitToken (older.token ids)).2 =
          false := by
  obtain ⟨node, hnode, call, nowMs, refuses⟩ := op
  cases hcall
  intro w result
  obtain ⟨hops, -, hlast⟩ := pairwise_append.mp htimes
  have h : Kept l ids hash nowMs w :=
    kept_run l ids hash hops fun op' hop' => hlast op' hop' _ mem_cons_self
  refine ⟨fun lease hlease => ?_, fun lease hlease => ?_, fun t ht hkey hover hvalid => ?_, ?_⟩
  · have hresult := Result.acquire.inj hlease
    obtain ⟨hslots, hkey, howner, -, hexpires, hlog⟩ := acquire_acquired h.sound hresult
    refine ⟨fun t ht htkey => ?_, hkey, howner, hexpires, ?_⟩
    · by_contra hover
      obtain ⟨i, hstate, heq⟩ := h.held t ht hover
      have hexpired := hslots i hstate (heq ▸ htkey)
      have htime : (w.state.slots i).expiresAtMs = t.lease.expiresAtMs :=
        congrArg LockLease.expiresAtMs heq
      rw [htime] at hexpired
      exact hover (.inr hexpired)
    · exact (congrArg tenures hlog).trans (tenures_append _ _)
  · obtain ⟨i, hstate, rfl, hkey, hlive⟩ := acquire_occupied h.sound (Result.acquire.inj hlease)
    exact ⟨hkey, h.known i hstate, Tenure.not_over.mpr ⟨rfl, hlive⟩⟩
  · obtain ⟨i, hstate, heq⟩ := h.held t ht hover
    have hlive : nowMs < (w.state.slots i).lease.expiresAtMs := heq ▸ (Tenure.not_over.mp hover).2
    exact congrArg Result.acquire
      ((acquire_live h.sound hvalid hstate (heq ▸ hkey) hlive).trans (by rw [heq]))
  · refine (h.step _ (Nat.le_refl _)).order.imp fun hlt => ⟨hlt, ?_⟩
    exact Fence.not_admit hlt

def Op.sample (node : Nat) (node_lt : node < 2 ^ 16) (nowMs : Nat) : Op where
  node
  node_lt
  call := .acquire ⟨[1], [2]⟩ [3] (nowMs + 4)
  nowMs
  refuses _ := none

theorem acquire_exclusive_sample :
    let first := Op.sample 0 (by decide) 1
    let second := Op.sample 1 (by decide) 6
    let w := run .sample .packed lockHash [first]
    let lease : LockLease :=
      ⟨NetIds.packed.make Layout.sample.stateKind 1 2, ⟨[1], [2]⟩, [3], 6, 10, 2⟩
    (w.perform .sample .packed lockHash second).2 = .acquire (.ok (.acquired lease)) ∧
      tenures (exec .sample .packed lockHash w second).log = tenures w.log ++ [⟨lease, false⟩] := by
  intro first second w lease
  have hresult : (w.perform .sample .packed lockHash second).2 =
      .acquire (.ok (.acquired lease)) := rfl
  have h := acquire_exclusive .sample .packed lockHash [first] second ⟨[1], [2]⟩ [3] 10 rfl
    (by decide)
  exact ⟨hresult, (h.1 lease hresult).2.2.2.2⟩

end OrbitLock
