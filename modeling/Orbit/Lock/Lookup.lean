import Orbit.Lock.World
import Mathlib.Data.List.Induction

/-! Lookups of the lock table, in any run of the operations of its stores: a key has one slot, which
its search finds; an acquire fails for want of room only when every slot has a live lease; and an
operation that fails changes no lease that is alive. -/

namespace OrbitLock

open Orbit.Atomic Orbit.Table
open OrbitRing (NetIds)

def LockStateSlot.clear (slot : LockStateSlot) : LockStateSlot := { slot with state := .empty }

def LockState.reset (s : LockState) : LockState where
  nextLock := 0
  nextRevision := 0
  slots i := (s.slots i).clear

/-- One operation of a store on its table. -/
inductive StoreOp where
  | call (op : Op)
  | reset

section

variable (l : Layout) (ids : NetIds) (hash : LockKey → Nat)

def World.store (w : World) : StoreOp → World
  | .call op => exec l ids hash w op
  | .reset => { w with state := w.state.reset }

def storeRun (ops : List StoreOp) : World := ops.foldl (World.store l ids hash) (.init l)

end

variable {l : Layout} {ids : NetIds} {hash : LockKey → Nat} {slots slots' : Nat → LockStateSlot}
  {s s' : LockState} {key : LockKey} {nowMs t i : Nat} {σ : Type}

theorem Sound.reset (s : LockState) : Sound l hash s.reset.slots := by
  have hnone : ∀ i k, (probing l hash).key (s.reset.slots i) ≠ some k := by
    intro i k h
    cases (key_some.mp h).1
  refine ⟨⟨fun i k h => absurd h (hnone i k), fun i j k h => absurd h (hnone i k)⟩, fun i h => ?_⟩
  cases h

theorem Sound.store {w : World} (h : Sound l hash w.state.slots) (op : StoreOp) :
    Sound l hash (w.store l ids hash op).state.slots := by
  cases op with
  | call op => exact (perform_moves h op).sound h
  | reset => exact .reset w.state

theorem sound_storeRun (ops : List StoreOp) :
    Sound l hash (storeRun l ids hash ops).state.slots := by
  unfold storeRun
  induction ops using List.reverseRecOn with
  | nil => exact sound_init l hash
  | append_singleton ops op ih =>
    rw [List.foldl_append]
    exact ih.store op

theorem mem_probePath (l : Layout) (h : Nat) : i ∈ probePath l h ↔ i < l.capacity := by
  have hpow := l.capacity_pow
  have hle := l.capacity_le
  unfold probePath probeIndex
  simp only [List.mem_map, List.mem_range]
  constructor
  · rintro ⟨offset, hoffset, rfl⟩
    rw [and_mask hpow]
    exact Nat.mod_lt _ (by omega)
  · intro hi
    -- the offset of the slot from where the path starts
    have hmod := Nat.mod_lt h (Nat.lt_of_le_of_lt (Nat.zero_le i) hi)
    refine ⟨(i + (l.capacity - h % l.capacity)) % l.capacity, Nat.mod_lt _ (by omega), ?_⟩
    rw [mask_count hpow (by omega), Nat.add_mod_mod, ← Nat.mod_add_mod]
    have hsum : h % l.capacity + (i + (l.capacity - h % l.capacity)) = i + l.capacity := by omega
    rw [hsum, Nat.add_mod_right, Nat.mod_eq_of_lt hi]

def Taken (key : LockKey) (nowMs : Nat) (slot : LockStateSlot) : Prop :=
  slot.state = .occupied ∧ nowMs < slot.expiresAtMs ∧ slot.lease.key ≠ key

theorem scan_insertion (first : Nat) (path : List Nat) (slots : Nat → LockStateSlot) :
    (scan (hash key) key nowMs path slots (some first)).2 ≠ .insertion none := by
  induction path generalizing slots with
  | nil =>
    rw [scan]
    rintro ⟨⟩
  | cons index rest ih =>
    rw [scan]
    split
    · rintro ⟨⟩
    · exact ih slots
    · split
      · exact ih _
      split
      · rintro ⟨⟩
      · exact ih slots

theorem scan_full (hentered : ∀ i, Entered l hash (slots i)) (path : List Nat) :
    (scan (hash key) key nowMs path slots none).2 = .insertion none ↔
      ∀ i ∈ path, Taken key nowMs (slots i) := by
  induction path with
  | nil =>
    rw [scan]
    exact ⟨fun _ i hi => (by cases hi), fun _ => rfl⟩
  | cons index rest ih =>
    rw [scan, List.forall_mem_cons]
    cases hstate : (slots index).state with
    | empty =>
      refine ⟨by rintro ⟨⟩, fun h => ?_⟩
      rw [h.1.1] at hstate
      cases hstate
    | tombstone =>
      refine ⟨fun h => absurd h (scan_insertion _ _ _), fun h => ?_⟩
      rw [h.1.1] at hstate
      cases hstate
    | occupied =>
      dsimp only
      by_cases hexpired : (slots index).expiresAtMs ≤ nowMs
      · rw [if_pos hexpired]
        refine ⟨fun h => absurd h (scan_insertion _ _ _), fun h => ?_⟩
        exact absurd h.1.2.1 (Nat.not_lt.mpr hexpired)
      · rw [if_neg hexpired]
        by_cases hmatch : (slots index).isMatch (hash key) key
        · rw [if_pos hmatch]
          obtain ⟨-, hkey⟩ := (isMatch_iff (hentered index)).mp hmatch
          exact ⟨by rintro ⟨⟩, fun h => absurd hkey h.1.2.2⟩
        · rw [if_neg hmatch, ih]
          refine ⟨fun h => ⟨⟨hstate, Nat.lt_of_not_le hexpired, fun hkey => hmatch ?_⟩, h⟩,
            fun h => h.2⟩
          exact (isMatch_iff (hentered index)).mpr ⟨hstate, hkey⟩

theorem mintLockId_error {node : Nat} {e : Error} (h : mintLockId l ids node s = .error e) :
    e = .idExhausted := by
  unfold mintLockId at h
  split at h
  · cases h
    rfl
  split at h
  · cases h
    rfl
  · cases h

theorem mintRevision_error {e : Error} (h : mintRevision s = .error e) : e = .idExhausted := by
  unfold mintRevision at h
  split at h
  · cases h
    rfl
  · cases h

section

variable {node expiresAtMs : Nat} {owner : LockOwner} {publish : Publish σ} {outer : σ}

theorem insert_not_full {index capacity : Nat}
    (hpublish : ∀ transition outer, (publish transition outer).2 ≠ .error (.stateFull capacity)) :
    (insert l ids hash node key owner nowMs expiresAtMs publish index s outer).2.2 ≠
      .error (.stateFull capacity) := by
  unfold insert
  split
  · rename_i e hmint
    rw [mintLockId_error hmint]
    rintro ⟨⟩
  split
  · rename_i e hmint
    rw [mintRevision_error hmint]
    rintro ⟨⟩
  dsimp only
  split
  · rename_i outer' e hrefused
    intro h
    refine hpublish _ outer ((congrArg Prod.snd hrefused).trans ?_)
    exact congrArg Except.error (Except.error.inj h)
  · rintro ⟨⟩

theorem acquire_full (hsound : Sound l hash s.slots) (hvalid : validateEntry l key owner = .ok ())
    (hpublish : ∀ transition outer,
      (publish transition outer).2 ≠ .error (.stateFull l.capacity)) :
    (acquire l ids hash node key owner nowMs expiresAtMs publish s outer).2.2 =
        .error (.stateFull l.capacity) ↔
      ∀ i < l.capacity, Taken key nowMs (s.slots i) := by
  have hfull : (scan (hash key) key nowMs (probePath l (hash key)) s.slots none).2 =
      .insertion none ↔ ∀ i ∈ probePath l (hash key), Taken key nowMs (s.slots i) :=
    scan_full hsound.entered _
  simp only [mem_probePath] at hfull
  rw [← hfull]
  unfold acquire
  rw [hvalid]
  dsimp only
  split
  · rename_i lease hresult
    rw [hresult]
    exact ⟨by rintro ⟨⟩, by rintro ⟨⟩⟩
  · rename_i hresult
    exact ⟨fun _ => hresult, fun _ => rfl⟩
  · rename_i index hresult
    rw [hresult]
    exact ⟨fun h => absurd h (insert_not_full hpublish), by rintro ⟨⟩⟩

end

/-- The table of any run: its keys are in one slot each, which their search finds, and it is full
only when it has no slot to give. -/
theorem table_complete (l : Layout) (ids : NetIds) (hash : LockKey → Nat) (ops : List StoreOp) :
    let s := (storeRun l ids hash ops).state
    (∀ i j, (s.slots i).state = .occupied → (s.slots j).state = .occupied →
      (s.slots i).lease.key = (s.slots j).lease.key → i = j) ∧
    (∀ i, (s.slots i).state = .occupied →
      findSlot l hash s.slots (s.slots i).lease.key = some i ∧
      ∃ before after, probePath l (hash (s.slots i).lease.key) = before ++ i :: after ∧
        ∀ j ∈ before, (s.slots j).state ≠ .empty) ∧
    ∀ {σ : Type} (node nowMs expiresAtMs : Nat) (key : LockKey) (owner : LockOwner)
      (publish : Publish σ) (outer : σ), validateEntry l key owner = .ok () →
      (∀ transition outer, (publish transition outer).2 ≠ .error (.stateFull l.capacity)) →
      ((acquire l ids hash node key owner nowMs expiresAtMs publish s outer).2.2 =
          .error (.stateFull l.capacity) ↔
        ∀ i < l.capacity, (s.slots i).state = .occupied ∧ nowMs < (s.slots i).expiresAtMs ∧
          (s.slots i).lease.key ≠ key) := by
  intro s
  have hsound : Sound l hash s.slots := sound_storeRun ops
  refine ⟨fun i j hi hj hkey => ?_, fun i hi => ⟨findSlot_of_key hsound hi rfl, ?_⟩, ?_⟩
  · exact hsound.probed.unique i j _ (key_some.mpr ⟨hi, hkey⟩) (key_some.mpr ⟨hj, rfl⟩)
  · obtain ⟨before, after, hpath, hpass⟩ := hsound.probed.reaches i _ (key_some.mpr ⟨hi, rfl⟩)
    exact ⟨before, after, hpath, fun j hj => stops_false.mp (hpass j hj)⟩
  · intro σ node nowMs expiresAtMs key owner publish outer hvalid hpublish
    exact acquire_full hsound hvalid hpublish

/-- An acquire of a label by the node 1, at the time 1 and until 9. -/
def StoreOp.acquiring (label : UInt8) : StoreOp :=
  .call ⟨1, one_lt_u16, .acquire ⟨[1], [label]⟩ [7] 9, 1, fun _ => none⟩

/-- Four leases fill four slots. -/
theorem table_complete_sample :
    (acquire .sample .packed lockHash 1 ⟨[1, 1], [2]⟩ [7] 5 20
      (fun _ outer => (outer, .ok ()) : Publish Unit)
      (storeRun .sample .packed lockHash [.acquiring 1, .acquiring 2, .acquiring 3,
        .acquiring 4]).state ()).2.2 = .error (.stateFull 4) :=
  ((table_complete .sample .packed lockHash [.acquiring 1, .acquiring 2, .acquiring 3,
    .acquiring 4]).2.2 1 5 20 ⟨[1, 1], [2]⟩ [7] _ () rfl (by rintro _ _ ⟨⟩)).mpr
    (by decide +kernel)

def Result.Failed : Result → Prop
  | .acquire result => ∃ e, result = .error e
  | .renew result => ∃ e, result = .error e
  | .release result => ∃ e, result = .error e
  | .current result => ∃ e, result = .error e

theorem Result.Failed.not_tells {result : Result} (h : result.Failed)
    (transition : LockTransition) : ¬result.Tells transition := by
  cases result <;>
  · obtain ⟨e, rfl⟩ := h
    exact id

theorem current_swept (hsound : Sound l hash s.slots) (hswept : Swept nowMs s.slots s'.slots)
    (hle : nowMs ≤ t) (key : LockKey) (outer : σ) :
    (current l hash key t s' outer).2.2 = (current l hash key t s outer).2.2 := by
  unfold current
  split
  · rfl
  rcases liveSlot_cases t key hsound with ⟨i, hlive, hstate, hkey, hlt⟩ | ⟨⟨_, hnone, -⟩, hdead⟩
  · -- a live slot stays, and is still the slot of its key
    have hslot := hswept.live (i := i) (by omega)
    rcases liveSlot_cases t key (hsound.swept hswept) with
      ⟨j, hlive', hstate', hkey', -⟩ | ⟨-, hdead⟩
    · have hij : j = i := by
        refine (hsound.swept hswept).probed.unique j i key (key_some.mpr ⟨hstate', hkey'⟩)
          (key_some.mpr ?_)
        rw [hslot]
        exact ⟨hstate, hkey⟩
      subst hij
      rw [hlive, hlive']
      exact congrArg (fun slot => Except.ok (some slot.lease)) hslot
    · rw [← hslot] at hstate hkey hlt
      exact absurd hlt (Nat.not_lt.mpr (hdead i hstate hkey))
  · rcases liveSlot_cases t key (hsound.swept hswept) with
      ⟨j, -, hstate', hkey', hlt⟩ | ⟨⟨_, hnone', -⟩, -⟩
    · have hslot := hswept.occupied hstate'
      rw [hslot] at hstate' hkey' hlt
      exact absurd hlt (Nat.not_lt.mpr (hdead j hstate' hkey'))
    · rw [hnone, hnone']

theorem Moves.swept_of_log {op : Op} {log log' : Log} (h : Moves l ids hash op s log s' log')
    (hlog : log' = log) : Swept op.nowMs s.slots s'.slots := by
  have hone : ∀ entry : Nat × LockTransition, log ++ [entry] ≠ log := fun entry heq => by
    have hlength := congrArg List.length heq
    rw [List.length_append, List.length_singleton] at hlength
    omega
  cases h with
  | quiet s' hswept => exact hswept
  | acquired => exact absurd hlog (hone _)
  | renewed => exact absurd hlog (hone _)
  | released => exact absurd hlog (hone _)

theorem failed_swept {w : World} {op : Op} (hsound : Sound l hash w.state.slots)
    (hfailed : (w.perform l ids hash op).2.Failed) :
    Swept op.nowMs w.state.slots (exec l ids hash w op).state.slots := by
  have hlog : (exec l ids hash w op).log = w.log := by
    rcases perform_told w op with ⟨hlog, -⟩ | ⟨transition, -, htells⟩
    · exact hlog
    · exact absurd htells (hfailed.not_tells transition)
  exact (perform_moves hsound op).swept_of_log hlog

/-- An operation that fails changes no lease that is alive. -/
theorem failed_keeps (l : Layout) (ids : NetIds) (hash : LockKey → Nat) (ops : List StoreOp)
    (op : Op) (hfailed : ((storeRun l ids hash ops).perform l ids hash op).2.Failed)
    (key : LockKey) {t : Nat} (hle : op.nowMs ≤ t) (outer : σ) :
    (current l hash key t (exec l ids hash (storeRun l ids hash ops) op).state outer).2.2 =
      (current l hash key t (storeRun l ids hash ops).state outer).2.2 :=
  current_swept (sound_storeRun ops) (failed_swept (sound_storeRun ops) hfailed) hle key outer

def Op.refused : Op := ⟨1, one_lt_u16, .releaseOwner ⟨[1], [1]⟩ [7], 2, fun _ => some .io⟩

theorem failed_keeps_sample :
    (current .sample lockHash ⟨[1], [1]⟩ 3 (exec .sample .packed lockHash
      (storeRun .sample .packed lockHash [.acquiring 1]) .refused).state ()).2.2 =
    (current .sample lockHash ⟨[1], [1]⟩ 3
      (storeRun .sample .packed lockHash [.acquiring 1]).state ()).2.2 :=
  failed_keeps .sample .packed lockHash [.acquiring 1] .refused ⟨.io, by decide +kernel⟩ ⟨[1], [1]⟩
    (by decide) ()

end OrbitLock
