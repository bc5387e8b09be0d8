import Orbit.Atomic.Sequence
import Orbit.Lock.Events

/-! The lock handle: its requests with their deadlines, and the replay of the transitions that they
publish. -/

namespace OrbitLock

open Orbit.Atomic List Function
open Orbit.Table
open OrbitRing (NetIds)

/-- The calls of a lock handle.  A time to live is in nanoseconds. -/
inductive Request where
  | tryAcquire (key : LockKey) (owner : LockOwner) (ttl : Nat)
  | renew (lease : LockLease) (ttl : Nat)
  | renewOwned (key : LockKey) (owner : LockOwner) (ttl : Nat)
  | release (lease : LockLease)
  | releaseOwned (key : LockKey) (owner : LockOwner)
  | forceRelease (key : LockKey)
  | current (key : LockKey)

/-- One call of a node, with the time that the clock gives it and what its ring refuses. -/
structure Step where
  node : Nat
  node_lt : node < 2 ^ 16
  request : Request
  nowMs : Nat
  nowMs_lt : nowMs < 2 ^ 64
  fails : LockTransition → Option Error

def deadline (nowMs ttl : Nat) : Except Error Nat :=
  if ttl = 0 then .error .ttlZero
  else
    let ttlMs := max (ttl / 10 ^ 6) 1
    if 2 ^ 64 ≤ ttlMs then .error .ttlOverflow
    else if 2 ^ 64 ≤ nowMs + ttlMs then .error .ttlOverflow
    else .ok (nowMs + ttlMs)

def Request.call (nowMs : Nat) : Request → Except Error Call
  | tryAcquire key owner ttl => (deadline nowMs ttl).map (.acquire key owner)
  | renew lease ttl => (deadline nowMs ttl).map (.renewId lease)
  | renewOwned key owner ttl => (deadline nowMs ttl).map (.renewOwner key owner)
  | release lease => .ok (.releaseId lease)
  | releaseOwned key owner => .ok (.releaseOwner key owner)
  | forceRelease key => .ok (.forceRelease key)
  | current key => .ok (.current key)

/-- `Lock::publish` refuses what cannot be encoded, and what the ring refuses. -/
def publishRefuses (l : Layout) (fails : LockTransition → Option Error)
    (transition : LockTransition) : Option Error :=
  match encode l transition with
  | .error e => some e
  | .ok _ => fails transition

section

variable (l : Layout) (ids : NetIds) (hash : LockKey → Nat)

/-- A request whose deadline is refused does nothing. -/
def submit (w : World) (step : Step) : World :=
  match step.request.call step.nowMs with
  | .error _ => w
  | .ok call => exec l ids hash w
      ⟨step.node, step.node_lt, call, step.nowMs, publishRefuses l step.fails⟩

def handleRun (steps : List Step) : World := steps.foldl (submit l ids hash) (.init l)

end

def applyTransition (leases : LockKey → Option LockLease) :
    LockTransition → LockKey → Option LockLease
  | .acquired lease | .renewed lease => update leases lease.key (some lease)
  | .released _ key _ _ => update leases key none

def replay (transitions : List LockTransition) : LockKey → Option LockLease :=
  transitions.foldl applyTransition fun _ => none

def sortByRevision (transitions : List LockTransition) : List LockTransition :=
  transitions.insertionSort fun a b => a.stateRevision ≤ b.stateRevision

def transitions (log : Log) : List LockTransition := log.map Prod.snd

def unexpired (nowMs : Nat) (lease : Option LockLease) : Option LockLease :=
  lease.filter fun lease => nowMs < lease.expiresAtMs

def leaseOf : Except Error (Option LockLease) → Option LockLease
  | .ok lease => lease
  | .error _ => none

variable {l : Layout} {ids : NetIds} {hash : LockKey → Nat} {nowMs nowMs' : Nat} {w : World}
  {slots : Nat → LockStateSlot} {leases : LockKey → Option LockLease} {op : Op}

/-- The occupied slots show the replayed leases, of which only expired ones may be missing. -/
structure Shows (l : Layout) (nowMs : Nat) (slots : Nat → LockStateSlot)
    (leases : LockKey → Option LockLease) : Prop where
  shown : ∀ i, (slots i).state = .occupied → leases (slots i).lease.key = some (slots i).lease
  key : ∀ key lease, leases key = some lease → lease.key = key ∧ Fits l lease.key lease.owner
  held : ∀ key lease, leases key = some lease → nowMs < lease.expiresAtMs →
    ∃ i, (slots i).state = .occupied ∧ (slots i).lease = lease

theorem Shows.later (h : Shows l nowMs slots leases) (hle : nowMs ≤ nowMs') :
    Shows l nowMs' slots leases where
  shown := h.shown
  key := h.key
  held key lease hlease hlive := h.held key lease hlease (Nat.lt_of_le_of_lt hle hlive)

theorem Shows.swept {slots' : Nat → LockStateSlot} (h : Shows l nowMs slots leases)
    (hswept : Swept nowMs slots slots') : Shows l nowMs slots' leases where
  shown i hstate := by
    have heq := hswept.occupied hstate
    rw [heq] at hstate ⊢
    exact h.shown i hstate
  key := h.key
  held key lease hlease hlive := by
    obtain ⟨i, hstate, rfl⟩ := h.held key lease hlease hlive
    have heq := hswept.live hlive
    exact ⟨i, heq ▸ hstate, heq ▸ rfl⟩

theorem Shows.changed (h : Shows l nowMs slots leases) {index : Nat} {slot : LockStateSlot}
    {key : LockKey} {new : Option LockLease}
    (hothers : ∀ i, i ≠ index → (slots i).state = .occupied → (slots i).lease.key ≠ key)
    (hindex : (slots index).state = .occupied → (slots index).lease.key = key)
    (hslot : slot.state = .occupied → slot.lease.key = key ∧ new = some slot.lease)
    (hnew : ∀ lease, new = some lease →
      slot.state = .occupied ∧ slot.lease = lease ∧ Fits l lease.key lease.owner) :
    Shows l nowMs (update slots index slot) (update leases key new) := by
  constructor
  · intro i
    by_cases hi : i = index
    · subst hi
      rw [update_self]
      intro hstate
      obtain ⟨hkey, hlease⟩ := hslot hstate
      rw [hkey, update_self, hlease]
    · rw [update_of_ne hi]
      intro hstate
      rw [update_of_ne (hothers i hi hstate)]
      exact h.shown i hstate
  · intro key' lease
    by_cases hkey : key' = key
    · subst hkey
      rw [update_self]
      intro hlease
      obtain ⟨hstate, rfl, hfits⟩ := hnew lease hlease
      exact ⟨(hslot hstate).1, hfits⟩
    · rw [update_of_ne hkey]
      exact h.key key' lease
  · intro key' lease
    by_cases hkey : key' = key
    · subst hkey
      rw [update_self]
      intro hlease _
      obtain ⟨hstate, heq, -⟩ := hnew lease hlease
      refine ⟨index, ?_⟩
      rw [update_self]
      exact ⟨hstate, heq⟩
    · rw [update_of_ne hkey]
      intro hlease hlive
      obtain ⟨i, hstate, rfl⟩ := h.held key' lease hlease hlive
      have hi : i ≠ index := by
        rintro rfl
        exact hkey ((h.key key' _ hlease).1.symm.trans (hindex hstate))
      refine ⟨i, ?_⟩
      rw [update_of_ne hi]
      exact ⟨hstate, rfl⟩

/-- What the calls of a handle make sure of. -/
structure Proper (l : Layout) (op : Op) : Prop where
  refuses : ∀ transition, op.refuses transition = none → Encoded l transition
  acquire : ∀ key owner expiresAtMs, op.call = .acquire key owner expiresAtMs →
    op.nowMs < expiresAtMs ∧ expiresAtMs < 2 ^ 64
  requested : ∀ requested, op.call.requested = some requested → requested < 2 ^ 64

/-- A lease that the table may hold. -/
structure Granted (lease : LockLease) : Prop where
  lockId_lt : lease.lockId < 2 ^ 64
  later : lease.acquiredAtMs < lease.expiresAtMs
  expires_lt : lease.expiresAtMs < 2 ^ 64

/-- The table and what has been published: revisions increase, every transition can be sent, and the
replayed leases are those of the table. -/
structure Mirrored (l : Layout) (hash : LockKey → Nat) (nowMs : Nat) (w : World) : Prop where
  sound : Sound l hash w.state.slots
  shows : Shows l nowMs w.state.slots (replay (transitions w.log))
  granted : ∀ i, (w.state.slots i).state = .occupied → Granted (w.state.slots i).lease
  ordered : Ordered (transitions w.log)
  revision_le : ∀ t ∈ transitions w.log, t.stateRevision ≤ w.state.nextRevision
  sent : ∀ entry ∈ w.log, Sent l entry.2

theorem mirrored_init (l : Layout) (hash : LockKey → Nat) : Mirrored l hash 0 (.init l) where
  sound := sound_init l hash
  shows := ⟨fun _ h => (by cases h), fun _ _ h => (by cases h), fun _ _ h => (by cases h)⟩
  granted i h := by cases h
  ordered := .nil
  revision_le _ h := by cases h
  sent _ h := by cases h

theorem transitions_append (log : Log) (node : Nat) (transition : LockTransition) :
    transitions (log ++ [(node, transition)]) = transitions log ++ [transition] := map_append

theorem Mirrored.later (h : Mirrored l hash nowMs w) (hle : nowMs ≤ nowMs') :
    Mirrored l hash nowMs' w :=
  { h with shows := h.shows.later hle }

theorem Mirrored.quiet {state' : LockState} (h : Mirrored l hash nowMs w)
    (hswept : Swept nowMs w.state.slots state'.slots)
    (hrevision : w.state.nextRevision ≤ state'.nextRevision) :
    Mirrored l hash nowMs ⟨state', w.log⟩ where
  sound := h.sound.swept hswept
  shows := h.shows.swept hswept
  granted i hstate := by
    have heq := hswept.occupied hstate
    dsimp only at hstate ⊢
    rw [heq] at hstate ⊢
    exact h.granted i hstate
  ordered := h.ordered
  revision_le t ht := Nat.le_trans (h.revision_le t ht) hrevision
  sent := h.sent

theorem Mirrored.published (h : Mirrored l hash nowMs w) {node nextLock index : Nat}
    {slot : LockStateSlot} {transition : LockTransition}
    (hsound : Sound l hash (update slots index slot))
    (hshows : Shows l nowMs (update slots index slot)
      (applyTransition (replay (transitions w.log)) transition))
    (hslots : ∀ i, (slots i).state = .occupied → Granted (slots i).lease)
    (hslot : slot.state = .occupied → Granted slot.lease)
    (hrevision : transition.stateRevision = w.state.nextRevision + 1) (hsent : Sent l transition) :
    Mirrored l hash nowMs ⟨⟨nextLock, w.state.nextRevision + 1, update slots index slot⟩,
      w.log ++ [(node, transition)]⟩ := by
  refine ⟨hsound, ?_, fun i => ?_, ?_, fun t ht => ?_, fun entry hentry => ?_⟩
  · dsimp only
    rw [transitions_append]
    unfold replay
    rw [foldl_append]
    exact hshows
  · rcases update_slot slots slot index i with ⟨-, heq⟩ | ⟨-, heq⟩
    · dsimp only
      rw [heq]
      exact hslot
    · dsimp only
      rw [heq]
      exact hslots i
  · dsimp only
    rw [transitions_append]
    refine pairwise_append.mpr ⟨h.ordered, pairwise_singleton _ _, fun a ha b hb => ?_⟩
    rw [mem_singleton.mp hb, hrevision]
    exact Nat.lt_succ_of_le (h.revision_le a ha)
  · dsimp only at ht ⊢
    rw [transitions_append] at ht
    rcases mem_append.mp ht with hold | hnew
    · exact Nat.le_succ_of_le (h.revision_le t hold)
    · rw [mem_singleton.mp hnew, hrevision]
  · rcases mem_append.mp hentry with hold | hnew
    · exact h.sent entry hold
    · rw [mem_singleton.mp hnew]
      exact hsent

theorem Sound.key_ne (h : Sound l hash slots) {index i : Nat} (hne : i ≠ index)
    (hindex : (slots index).state = .occupied) (hi : (slots i).state = .occupied) :
    (slots i).lease.key ≠ (slots index).lease.key := fun hkey =>
  hne (h.probed.unique i index _ (key_some.mpr ⟨hi, hkey⟩) (key_some.mpr ⟨hindex, rfl⟩))

theorem Mirrored.moves {state' : LockState} {log' : Log} (h : Mirrored l hash op.nowMs w)
    (hproper : Proper l op) (hmoves : Moves l ids hash op w.state w.log state' log') :
    Mirrored l hash op.nowMs ⟨state', log'⟩ := by
  have hsound := hmoves.sound h.sound
  cases hmoves with
  | quiet state' hswept _ _ hrevision => exact h.quiet hswept hrevision
  | acquired swept index lease hsweeps habsent hfree _ hfits hid hle hrevision _ htime hcalled
      haccepted =>
    have hswept : Mirrored l hash op.nowMs ⟨{ w.state with slots := swept }, w.log⟩ :=
      h.quiet hsweeps (Nat.le_refl _)
    have hlease : (LockStateSlot.write l (hash lease.key) lease).lease = lease :=
      LockStateSlot.lease_write hfits
    obtain ⟨hlater, hexpires⟩ := hproper.acquire _ _ _ hcalled
    have hlockId : lease.lockId < 2 ^ 64 := by
      rw [hid]
      refine ids.make_lt _ _ _ l.stateKind_lt op.node_lt (Nat.lt_of_le_of_lt hle ?_)
      decide
    have hgranted : Granted lease := ⟨hlockId, htime ▸ hlater, hexpires⟩
    refine h.published hsound ?_ hswept.granted (fun _ => hlease.symm ▸ hgranted) hrevision ?_
    · refine hswept.shows.changed (fun i _ hstate => habsent i hstate)
        (fun hstate => absurd hstate hfree) (fun _ => ?_) fun lease' hnew => ?_
      · rw [hlease]
        exact ⟨rfl, rfl⟩
      · cases hnew
        exact ⟨rfl, hlease, hfits⟩
    · refine ⟨hfits, hlockId, Nat.lt_trans hgranted.later hexpires, hexpires, ?_, ?_,
        hproper.refuses _ haccepted⟩
      · exact Nat.lt_of_lt_of_eq (Nat.succ_pos _) hrevision.symm
      · rintro lease' (⟨⟨⟩⟩ | ⟨⟨⟩⟩)
        exact hgranted.later
  | renewed index requested lease hoccupied _ hsame _ hcalled haccepted =>
    obtain ⟨hkey, hfits⟩ := h.sound.renewed hoccupied hsame
    obtain ⟨hlockId, hlater, hexpires⟩ := h.granted index hoccupied
    have hlease : (LockStateSlot.write l (w.state.slots index).keyHash lease).lease = lease :=
      LockStateSlot.lease_write hfits
    have hid : lease.lockId = (w.state.slots index).lease.lockId := by rw [hsame]
    have hacquired : lease.acquiredAtMs = (w.state.slots index).lease.acquiredAtMs := by rw [hsame]
    have hrevision : lease.stateRevision = w.state.nextRevision + 1 := by rw [hsame]
    have hexpiresAt : lease.expiresAtMs =
        max (w.state.slots index).lease.expiresAtMs requested := by
      rw [hsame]
      rfl
    have hrequested := hproper.requested requested hcalled
    have hgranted : Granted lease := by
      refine ⟨hid ▸ hlockId, ?_, ?_⟩
      · rw [hacquired, hexpiresAt]
        exact Nat.lt_of_lt_of_le hlater (Nat.le_max_left _ _)
      · rw [hexpiresAt]
        exact Nat.max_lt.mpr ⟨hexpires, hrequested⟩
    refine h.published hsound ?_ h.granted (fun _ => hlease.symm ▸ hgranted) hrevision ?_
    · refine h.shows.changed (fun i hi hstate => ?_) (fun _ => hkey.symm) (fun _ => ?_)
        fun lease' hnew => ?_
      · rw [hkey]
        exact h.sound.key_ne hi hoccupied hstate
      · rw [hlease]
        exact ⟨rfl, rfl⟩
      · cases hnew
        exact ⟨rfl, hlease, hfits⟩
    · refine ⟨hfits, hgranted.lockId_lt, Nat.lt_trans hgranted.later hgranted.expires_lt,
        hgranted.expires_lt, ?_, ?_, hproper.refuses _ haccepted⟩
      · exact Nat.lt_of_lt_of_eq (Nat.succ_pos _) hrevision.symm
      · rintro lease' (⟨⟨⟩⟩ | ⟨⟨⟩⟩)
        exact hgranted.later
  | released index hoccupied _ _ haccepted =>
    refine h.published hsound ?_ h.granted (fun hstate => by cases hstate) rfl ?_
    · exact h.shows.changed (fun i hi hstate => h.sound.key_ne hi hoccupied hstate) (fun _ => rfl)
        (fun hstate => by cases hstate) fun _ hnew => by cases hnew
    · refine ⟨(h.sound.entered index hoccupied).2, (h.granted index hoccupied).lockId_lt,
        Nat.two_pow_pos 64, Nat.two_pow_pos 64, Nat.succ_pos _, ?_, hproper.refuses _ haccepted⟩
      rintro lease' (⟨⟨⟩⟩ | ⟨⟨⟩⟩)

theorem deadline_ok {ttl expiresAtMs : Nat} (h : deadline nowMs ttl = .ok expiresAtMs) :
    nowMs < expiresAtMs ∧ expiresAtMs < 2 ^ 64 := by
  unfold deadline at h
  dsimp only at h
  split at h
  · cases h
  split at h
  · cases h
  split at h
  · cases h
  · rename_i hlt
    cases h
    omega

theorem publishRefuses_none {fails : LockTransition → Option Error} {transition : LockTransition}
    (h : publishRefuses l fails transition = none) : Encoded l transition := by
  unfold publishRefuses at h
  split at h
  · cases h
  · rename_i encoded hencode
    exact ⟨encoded.1, encoded.2, hencode⟩

theorem Step.proper {step : Step} {call : Call} (h : step.request.call step.nowMs = .ok call) :
    Proper l ⟨step.node, step.node_lt, call, step.nowMs, publishRefuses l step.fails⟩ := by
  obtain ⟨node, hnode, request, now, hnow, fails⟩ := step
  dsimp only at h ⊢
  have hdeadline : ∀ {ttl : Nat} {make : Nat → Call},
      (deadline now ttl).map make = .ok call → ∃ e, deadline now ttl = .ok e ∧ call = make e := by
    intro ttl make hmap
    cases hresult : deadline now ttl with
    | error e =>
      rw [hresult] at hmap
      cases hmap
    | ok e =>
      rw [hresult] at hmap
      cases hmap
      exact ⟨e, rfl, rfl⟩
  refine ⟨fun _ => publishRefuses_none, fun key owner expiresAtMs hcall => ?_,
    fun requested hcall => ?_⟩
  · dsimp only at hcall
    subst hcall
    cases request with
    | tryAcquire key owner ttl =>
      obtain ⟨e, hok, heq⟩ := hdeadline h
      cases heq
      exact deadline_ok hok
    | renew lease ttl => obtain ⟨e, -, ⟨⟩⟩ := hdeadline h
    | renewOwned key owner ttl => obtain ⟨e, -, ⟨⟩⟩ := hdeadline h
    | _ => cases h
  · dsimp only at hcall
    cases request with
    | tryAcquire key owner ttl =>
      obtain ⟨e, -, rfl⟩ := hdeadline h
      cases hcall
    | renew lease ttl =>
      obtain ⟨e, hok, rfl⟩ := hdeadline h
      cases hcall
      exact (deadline_ok hok).2
    | renewOwned key owner ttl =>
      obtain ⟨e, hok, rfl⟩ := hdeadline h
      cases hcall
      exact (deadline_ok hok).2
    | _ =>
      cases h
      cases hcall

theorem Mirrored.submit (h : Mirrored l hash nowMs w) (step : Step) (hle : nowMs ≤ step.nowMs) :
    Mirrored l hash step.nowMs (submit l ids hash w step) := by
  unfold OrbitLock.submit
  split
  · exact h.later hle
  · rename_i call hcall
    exact (h.later hle).moves (Step.proper hcall) (perform_moves h.sound _)

theorem Mirrored.foldl {steps : List Step} (h : Mirrored l hash nowMs w)
    (htimes : steps.Pairwise fun a b => a.nowMs ≤ b.nowMs)
    (hfirst : ∀ step ∈ steps, nowMs ≤ step.nowMs) (hlast : ∀ step ∈ steps, step.nowMs ≤ nowMs')
    (hle : nowMs ≤ nowMs') : Mirrored l hash nowMs' (steps.foldl (OrbitLock.submit l ids hash) w) := by
  induction steps generalizing w nowMs with
  | nil => exact h.later hle
  | cons step rest ih =>
    rw [pairwise_cons] at htimes
    exact ih (h.submit step (hfirst step mem_cons_self)) htimes.2 htimes.1
      (fun step' hstep' => hlast step' (mem_cons_of_mem _ hstep'))
      (hlast step mem_cons_self)

theorem mirrored_handleRun (l : Layout) (ids : NetIds) (hash : LockKey → Nat) {steps : List Step}
    (htimes : steps.Pairwise fun a b => a.nowMs ≤ b.nowMs)
    (hlast : ∀ step ∈ steps, step.nowMs ≤ nowMs) :
    Mirrored l hash nowMs (handleRun l ids hash steps) :=
  (mirrored_init l hash).foldl htimes (fun _ _ => Nat.zero_le _) hlast (Nat.zero_le _)

theorem submit_log (l : Layout) (ids : NetIds) (hash : LockKey → Nat) (w : World) (step : Step) :
    ∃ log, (submit l ids hash w step).log = w.log ++ log ∧
      ∀ entry ∈ log, entry.1 = step.node := by
  unfold submit
  split
  · exact ⟨[], (append_nil _).symm, fun _ h => (nomatch h)⟩
  · rename_i call hcall
    rcases perform_told w ⟨step.node, step.node_lt, call, step.nowMs, publishRefuses l step.fails⟩
      with ⟨hlog, -⟩ | ⟨transition, hlog, -⟩
    · exact ⟨[], hlog.trans (append_nil _).symm, fun _ h => (nomatch h)⟩
    · refine ⟨_, hlog, fun entry hentry => ?_⟩
      rw [mem_singleton.mp hentry]

theorem foldl_log (l : Layout) (ids : NetIds) (hash : LockKey → Nat) (w : World) {n : Nat}
    (steps : List Step) (hnodes : ∀ step ∈ steps, step.node < n) :
    ∃ log, (steps.foldl (submit l ids hash) w).log = w.log ++ log ∧
      ∀ entry ∈ log, entry.1 < n := by
  induction steps generalizing w with
  | nil => exact ⟨[], (append_nil _).symm, fun _ h => (nomatch h)⟩
  | cons step rest ih =>
    obtain ⟨log, hlog, hentries⟩ := submit_log l ids hash w step
    obtain ⟨log', hlog', hentries'⟩ := ih (submit l ids hash w step)
      fun step' hstep' => hnodes step' (mem_cons_of_mem _ hstep')
    refine ⟨log ++ log', ?_, fun entry hentry => ?_⟩
    · rw [foldl_cons, hlog', hlog, append_assoc]
    · rcases mem_append.mp hentry with hfirst | hrest
      · rw [hentries entry hfirst]
        exact hnodes step mem_cons_self
      · exact hentries' entry hrest

theorem validateKey_of_fits {key : LockKey} {owner : LockOwner} (h : Fits l key owner) :
    validateKey l key = .ok () := by
  obtain ⟨hnamespace, hlabel, -, hnamespaceLe, hlabelLe, -, hsum⟩ := h
  unfold validateKey
  rw [if_neg, if_neg, if_neg]
  · simp only [saturatingAdd]
    omega
  · rw [isEmpty_iff_length_eq_zero]
    omega
  · rw [isEmpty_iff_length_eq_zero]
    omega

theorem Mirrored.current (h : Mirrored l hash nowMs w) (key : LockKey) :
    leaseOf (current l hash key nowMs w.state w.log).2.2 =
      unexpired nowMs (replay (transitions w.log) key) := by
  unfold OrbitLock.current
  split
  · rename_i e hinvalid
    cases hlease : replay (transitions w.log) key with
    | none => rfl
    | some lease =>
      obtain ⟨rfl, hfits⟩ := h.shows.key key lease hlease
      rw [validateKey_of_fits hfits] at hinvalid
      cases hinvalid
  · rcases liveSlot_cases nowMs key h.sound with
      ⟨index, hlive, hstate, rfl, hlt⟩ | ⟨⟨slots, hnone, -⟩, hgone⟩
    · rw [hlive, h.shows.shown index hstate]
      exact (if_pos (decide_eq_true hlt)).symm
    · rw [hnone]
      cases hlease : replay (transitions w.log) key with
      | none => rfl
      | some lease =>
        refine (if_neg fun hlt => ?_).symm
        obtain ⟨i, hstate, rfl⟩ := h.shows.held key lease hlease (of_decide_eq_true hlt)
        have hexpired := hgone i hstate (h.shows.key key _ hlease).1
        exact Nat.lt_irrefl _ (Nat.lt_of_lt_of_le (of_decide_eq_true hlt) hexpired)

theorem sortByRevision_eq {transitions : List LockTransition} (h : Ordered transitions) :
    sortByRevision transitions = transitions :=
  List.Pairwise.insertionSort_eq (List.Pairwise.imp (fun hlt => Nat.le_of_lt hlt) h)

section

variable (l : Layout) (ids : NetIds) (hash : LockKey → Nat) (fleetCapacity : Nat)

/-- The poll of a handle whose last poll, or subscription, was between two parts of a run. -/
def pollAfter (before after : List Step) : (Nat → Nat) × LockPoll :=
  poll l ids fleetCapacity (laneOf l ids (handleRun l ids hash (before ++ after)).log)
    (cursorAtHead l ids (handleRun l ids hash before).log)

def publishedAfter (before after : List Step) : List LockTransition :=
  (transitions (handleRun l ids hash (before ++ after)).log).drop
    (handleRun l ids hash before).log.length

/-- Events replay to lock state: revisions increase, the sorted transitions replay to what `current`
returns, and a poll gets to the heads and without loss returns what was published since. -/
structure EventsReplay (before after : List Step) : Prop where
  ordered : Ordered (transitions (handleRun l ids hash (before ++ after)).log)
  replays : ∀ key t, (∀ step ∈ before ++ after, step.nowMs ≤ t) →
    leaseOf (current l hash key t (handleRun l ids hash (before ++ after)).state
      (handleRun l ids hash (before ++ after)).log).2.2 =
      unexpired t (replay (sortByRevision
        (transitions (handleRun l ids hash (before ++ after)).log)) key)
  cursor : (pollAfter l ids hash fleetCapacity before after).1 =
    cursorAtHead l ids (handleRun l ids hash (before ++ after)).log
  polls : (pollAfter l ids hash fleetCapacity before after).2.loss.isEmpty →
    (pollAfter l ids hash fleetCapacity before after).2.events.map LockEvent.transition =
      publishedAfter l ids hash before after

end

/-- Events replay to lock state just when no poll without loss meets the lease of an acquisition at
time zero. -/
theorem eventsReplay_iff (l : Layout) (ids : NetIds) (hash : LockKey → Nat) (fleetCapacity : Nat)
    (before after : List Step)
    (htimes : (before ++ after).Pairwise fun a b => a.nowMs ≤ b.nowMs)
    (hnodes : ∀ step ∈ before ++ after, step.node < fleetCapacity) :
    EventsReplay l ids hash fleetCapacity before after ↔
      ((pollAfter l ids hash fleetCapacity before after).2.loss.isEmpty →
        ∀ t ∈ publishedAfter l ids hash before after, Readable t) := by
  obtain ⟨log, hlog, hlogNodes⟩ := foldl_log l ids hash (.init l) before fun step hstep =>
    hnodes step (mem_append_left _ hstep)
  obtain ⟨log', hlog', hlogNodes'⟩ := foldl_log l ids hash (handleRun l ids hash before) after
    fun step hstep => hnodes step (mem_append_right _ hstep)
  have hbefore : (handleRun l ids hash before).log = log := hlog
  have hafter : (handleRun l ids hash (before ++ after)).log = log ++ log' := by
    unfold handleRun
    rw [foldl_append]
    exact hlog'.trans (congrArg (· ++ log') hbefore)
  have hmirrored : ∀ {t : Nat}, (∀ step ∈ before ++ after, step.nowMs ≤ t) →
      Mirrored l hash t (handleRun l ids hash (before ++ after)) :=
    mirrored_handleRun l ids hash htimes
  have hall : Mirrored l hash (2 ^ 64) (handleRun l ids hash (before ++ after)) :=
    hmirrored fun step _ => Nat.le_of_lt step.nowMs_lt
  have hordered := hall.ordered
  have hsent := hall.sent
  rw [hafter] at hordered hsent
  have hpublished : publishedAfter l ids hash before after = log'.map Prod.snd := by
    unfold publishedAfter transitions
    rw [hafter, hbefore, map_append]
    exact drop_left' (length_map _)
  have hnew : Ordered (log'.map Prod.snd) := by
    unfold transitions at hordered
    rw [map_append] at hordered
    exact (pairwise_append.mp hordered).2.1
  have hpoll : pollAfter l ids hash fleetCapacity before after =
      poll l ids fleetCapacity (laneOf l ids (log ++ log')) (cursorAtHead l ids log) := by
    unfold pollAfter
    rw [hafter, hbefore]
  obtain ⟨hcursor, hpolls⟩ := poll_lossless (fun entry hentry =>
    (mem_append.mp hentry).elim (hlogNodes entry) (hlogNodes' entry)) hsent hnew
  rw [← hpoll] at hcursor hpolls
  rw [hpublished]
  constructor
  · intro h hloss
    exact (hpolls hloss).mp (hpublished ▸ h.polls hloss)
  · intro hreadable
    refine ⟨hall.ordered, fun key t ht => ?_, hafter ▸ hcursor, fun hloss => ?_⟩
    · rw [sortByRevision_eq hall.ordered]
      exact (hmirrored ht).current key
    · rw [hpublished]
      exact (hpolls hloss).mpr (hreadable hloss)

/-- Node zero takes a key for five milliseconds. -/
def Step.sample (nowMs : Nat) (nowMs_lt : nowMs < 2 ^ 64) : Step where
  node := 0
  node_lt := by decide
  request := .tryAcquire ⟨[1], [2]⟩ [3] 5000000
  nowMs
  nowMs_lt
  fails _ := none

/-- A poll loses the event of a lease that was acquired at time zero. -/
theorem acquired_at_zero_lost :
    ¬EventsReplay .sample .packed lockHash 1 [] [.sample 0 (by decide)] := by
  intro h
  have hpoll := h.polls (by decide)
  revert hpoll
  decide

theorem eventsReplay_iff_sample :
    EventsReplay .sample .packed lockHash 1 [] [.sample 1 (by decide)] := by
  refine (eventsReplay_iff .sample .packed lockHash 1 [] [.sample 1 (by decide)] (by simp)
    (by simp [Step.sample])).mpr fun _ => ?_
  decide

end OrbitLock
