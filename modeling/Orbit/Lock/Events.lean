import Orbit.Atomic.Buffer
import Orbit.Lock.World
import Orbit.Ring.Cursor
import Mathlib.Data.List.Induction
import Mathlib.Data.List.Sort

/-! Lock events: transitions as frames, the lanes of the nodes that publish them, and polls that
merge the lanes. -/

namespace OrbitLock

open Orbit.Atomic List Function
open OrbitRing (NetIds Frame RingRead RingLoss RingPoll)

def magic : Nat := 0x4f4c434b
def version : Nat := 2
def frameKindAcquired : Nat := 1
def frameKindRenewed : Nat := 2
def frameKindReleased : Nat := 3
def eventHeaderLen : Nat := 4 + 1 + 2 + 2 + 2 + 8 + 8 + 8

/-- Transition decoded from the notified ring. -/
structure LockEvent where
  eventId : Nat
  transition : LockTransition
  deriving DecidableEq, Repr

namespace LockTransition

def frameKind : LockTransition → Nat
  | acquired _ => frameKindAcquired
  | renewed _ => frameKindRenewed
  | released .. => frameKindReleased

def acquiredAtMs : LockTransition → Nat
  | acquired lease | renewed lease => lease.acquiredAtMs
  | released .. => 0

def expiresAtMs : LockTransition → Nat
  | acquired lease | renewed lease => lease.expiresAtMs
  | released .. => 0

end LockTransition

section

variable (l : Layout)

def encode (transition : LockTransition) : Except Error (Nat × List UInt8) :=
  let key := transition.key
  let owner := transition.owner
  let maxPayload := min (l.eventRingPayload - eventHeaderLen) l.payloadMax
  if saturatingAdd (saturatingAdd key.nameSpace.length key.label.length) owner.length >
      maxPayload then
    .error (.entryTooLarge key.nameSpace.length key.label.length owner.length maxPayload)
  else
    .ok (transition.frameKind,
      leBytes 4 magic ++ leBytes 1 version ++ leBytes 2 (key.nameSpace.length % 2 ^ 16) ++
      leBytes 2 (key.label.length % 2 ^ 16) ++ leBytes 2 (owner.length % 2 ^ 16) ++
      leBytes 8 transition.lockId ++ leBytes 8 transition.acquiredAtMs ++
      leBytes 8 transition.expiresAtMs ++ key.nameSpace ++ key.label ++ owner)

def decode (frame : Frame) : Option LockEvent :=
  if frame.payload.length < eventHeaderLen then none
  else if leValue (slice frame.payload 0 4) ≠ magic ∨ leValue (slice frame.payload 4 1) ≠ version
  then none
  else
    let namespaceLen := leValue (slice frame.payload 5 2)
    let keyLen := leValue (slice frame.payload 7 2)
    let ownerLen := leValue (slice frame.payload 9 2)
    let lockId := leValue (slice frame.payload 11 8)
    let acquiredAtMs := leValue (slice frame.payload 19 8)
    let expiresAtMs := leValue (slice frame.payload 27 8)
    let namespaceEnd := eventHeaderLen + namespaceLen
    let keyEnd := namespaceEnd + keyLen
    let ownerEnd := keyEnd + ownerLen
    if namespaceLen = 0 ∨ keyLen = 0 ∨ ownerLen = 0 ∨ ownerEnd ≠ frame.payload.length ∨
        saturatingAdd (saturatingAdd namespaceLen keyLen) ownerLen > l.payloadMax ∨
        frame.ver = 0 then none
    else
      let key : LockKey :=
        ⟨slice frame.payload eventHeaderLen namespaceLen, slice frame.payload namespaceEnd keyLen⟩
      let owner := slice frame.payload keyEnd ownerLen
      let lease : LockLease := ⟨lockId, key, owner, acquiredAtMs, expiresAtMs, frame.ver⟩
      if (frame.kind = frameKindAcquired ∨ frame.kind = frameKindRenewed) ∧ 0 < acquiredAtMs ∧
          acquiredAtMs < expiresAtMs then
        if frame.kind = frameKindAcquired then some ⟨frame.id, .acquired lease⟩
        else some ⟨frame.id, .renewed lease⟩
      else if frame.kind = frameKindReleased ∧ acquiredAtMs = 0 ∧ expiresAtMs = 0 then
        some ⟨frame.id, .released lockId key owner frame.ver⟩
      else none

end

section

variable {l : Layout} {transition : LockTransition} {kind : Nat} {payload : List UInt8} {id : Nat}

/-- What transitions that are published have in common. -/
structure Sent (l : Layout) (transition : LockTransition) : Prop where
  fits : Fits l transition.key transition.owner
  lockId_lt : transition.lockId < 2 ^ 64
  acquired_lt : transition.acquiredAtMs < 2 ^ 64
  expires_lt : transition.expiresAtMs < 2 ^ 64
  revision_pos : 0 < transition.stateRevision
  later : ∀ lease, transition = .acquired lease ∨ transition = .renewed lease →
    lease.acquiredAtMs < lease.expiresAtMs
  encoded : ∃ kind payload, encode l transition = .ok (kind, payload)

theorem slice_skip {a b : List UInt8} {m k n : Nat} (h : a.length = m) (hk : m ≤ k) :
    slice (a ++ b) k n = slice b (k - m) n := by
  subst h
  unfold slice
  rw [drop_append, drop_eq_nil_of_le hk, nil_append]

theorem slice_first {a b : List UInt8} {n : Nat} (h : a.length = n) : slice (a ++ b) 0 n = a := by
  subst h
  unfold slice
  rw [drop_zero, take_left]

theorem encode_header {header : List UInt8} (rest : List UInt8) {namespaceLen keyLen ownerLen lockId acquiredAtMs
    expiresAtMs : Nat} (h : header = leBytes 4 magic ++ leBytes 1 version ++
      leBytes 2 namespaceLen ++ leBytes 2 keyLen ++ leBytes 2 ownerLen ++ leBytes 8 lockId ++
      leBytes 8 acquiredAtMs ++ leBytes 8 expiresAtMs) :
    header.length = eventHeaderLen ∧
    slice (header ++ rest) 0 4 = leBytes 4 magic ∧ slice (header ++ rest) 4 1 = leBytes 1 version ∧
    slice (header ++ rest) 5 2 = leBytes 2 namespaceLen ∧
    slice (header ++ rest) 7 2 = leBytes 2 keyLen ∧
    slice (header ++ rest) 9 2 = leBytes 2 ownerLen ∧
    slice (header ++ rest) 11 8 = leBytes 8 lockId ∧
    slice (header ++ rest) 19 8 = leBytes 8 acquiredAtMs ∧
    slice (header ++ rest) 27 8 = leBytes 8 expiresAtMs := by
  subst h
  constructor
  · simp only [length_append, leBytes_length]
    rfl
  · simp (disch := decide) only [append_assoc, slice_skip (leBytes_length _ _),
      slice_first (leBytes_length _ _), Nat.reduceSub, and_self]

theorem encode_parts {header : List UInt8} {n : Nat} (nameSpace label owner : List UInt8)
    (h : header.length = n) :
    slice (header ++ (nameSpace ++ (label ++ owner))) n nameSpace.length = nameSpace ∧
    slice (header ++ (nameSpace ++ (label ++ owner))) (n + nameSpace.length) label.length = label ∧
    slice (header ++ (nameSpace ++ (label ++ owner))) (n + nameSpace.length + label.length)
      owner.length = owner := by
  refine ⟨?_, ?_, ?_⟩
  · rw [slice_skip h (Nat.le_refl _), Nat.sub_self, slice_first rfl]
  · rw [slice_skip h (Nat.le_add_right _ _), Nat.add_sub_cancel_left,
      slice_skip rfl (Nat.le_refl _), Nat.sub_self, slice_first rfl]
  · rw [Nat.add_assoc, slice_skip h (Nat.le_add_right _ _), Nat.add_sub_cancel_left,
      slice_skip rfl (Nat.le_add_right _ _), Nat.add_sub_cancel_left,
      slice_skip rfl (Nat.le_refl _), Nat.sub_self]
    exact take_length

theorem decode_encode (h : Sent l transition) (hencode : encode l transition = .ok (kind, payload)) :
    decode l ⟨id, kind, transition.stateRevision, payload⟩ =
      if transition.frameKind = frameKindReleased ∨ 0 < transition.acquiredAtMs then
        some ⟨id, transition⟩
      else none := by
  have hmod : ∀ n, n ≤ u16Max → n % 2 ^ 16 = n := fun n hn =>
    Nat.mod_eq_of_lt (Nat.lt_of_le_of_lt hn (by decide))
  have hle : ∀ n, n ≤ u16Max → n < 256 ^ 2 := fun n hn => Nat.lt_of_le_of_lt hn (by decide)
  obtain ⟨hnamespace, hlabel, howner, hnamespaceLe, hlabelLe, hownerLe, hsum⟩ := h.fits
  unfold encode at hencode
  dsimp only at hencode
  split at hencode
  · cases hencode
  rw [hmod _ hnamespaceLe, hmod _ hlabelLe, hmod _ hownerLe, append_assoc, append_assoc]
    at hencode
  obtain ⟨rfl, rfl⟩ := Prod.mk.inj (Except.ok.inj hencode)
  generalize hheader : leBytes 4 magic ++ leBytes 1 version ++
    leBytes 2 transition.key.nameSpace.length ++ leBytes 2 transition.key.label.length ++
    leBytes 2 transition.owner.length ++ leBytes 8 transition.lockId ++
    leBytes 8 transition.acquiredAtMs ++ leBytes 8 transition.expiresAtMs = header
  obtain ⟨hlength, hmagic, hversion, hns, hkl, hol, hid, hacquired, hexpires⟩ := encode_header
    (transition.key.nameSpace ++ (transition.key.label ++ transition.owner)) hheader.symm
  obtain ⟨hpart1, hpart2, hpart3⟩ :=
    encode_parts transition.key.nameSpace transition.key.label transition.owner hlength
  have hsize : (header ++ (transition.key.nameSpace ++ (transition.key.label ++
      transition.owner))).length = eventHeaderLen + transition.key.nameSpace.length +
        transition.key.label.length + transition.owner.length := by
    simp only [length_append, hlength, Nat.add_assoc]
  have hchecks : ¬(transition.key.nameSpace.length = 0 ∨ transition.key.label.length = 0 ∨
      transition.owner.length = 0 ∨
      eventHeaderLen + transition.key.nameSpace.length + transition.key.label.length +
        transition.owner.length ≠ eventHeaderLen + transition.key.nameSpace.length +
        transition.key.label.length + transition.owner.length ∨
      saturatingAdd (saturatingAdd transition.key.nameSpace.length transition.key.label.length)
        transition.owner.length > l.payloadMax ∨ transition.stateRevision = 0) := by
    have hrevision := h.revision_pos
    simp only [saturatingAdd]
    omega
  have hread : ∀ {width value : Nat} {bytes : List UInt8}, bytes = leBytes width value →
      value < 256 ^ width → leValue bytes = value := fun hbytes hlt =>
    hbytes ▸ leValue_leBytes hlt
  unfold decode
  dsimp only
  rw [hread hmagic (by decide), hread hversion (by decide), hread hns (hle _ hnamespaceLe),
    hread hkl (hle _ hlabelLe), hread hol (hle _ hownerLe), hread hid h.lockId_lt,
    hread hacquired h.acquired_lt, hread hexpires h.expires_lt, hsize, hpart1, hpart2, hpart3,
    if_neg (by omega), if_neg (by simp), if_neg hchecks]
  cases transition with
  | acquired lease =>
    have hlater : lease.acquiredAtMs < lease.expiresAtMs := h.later lease (.inl rfl)
    have hkind : (LockTransition.acquired lease).frameKind = frameKindAcquired := rfl
    by_cases hpos : 0 < lease.acquiredAtMs
    · rw [if_pos ⟨.inl hkind, hpos, hlater⟩, if_pos hkind]
      exact (if_pos (Or.inr hpos)).symm
    · rw [if_neg fun hlease => hpos hlease.2.1, if_neg (by rintro ⟨⟨⟩, -⟩)]
      refine (if_neg ?_).symm
      rintro (⟨⟨⟩⟩ | hpos')
      exact hpos hpos'
  | renewed lease =>
    have hlater : lease.acquiredAtMs < lease.expiresAtMs := h.later lease (.inr rfl)
    by_cases hpos : 0 < lease.acquiredAtMs
    · rw [if_pos ⟨.inr rfl, hpos, hlater⟩, if_neg (by rintro ⟨⟩)]
      exact (if_pos (Or.inr hpos)).symm
    · rw [if_neg fun hlease => hpos hlease.2.1, if_neg (by rintro ⟨⟨⟩, -⟩)]
      refine (if_neg ?_).symm
      rintro (⟨⟨⟩⟩ | hpos')
      exact hpos hpos'
  | released lockId key owner stateRevision =>
    rw [if_neg fun hlease => Nat.lt_irrefl 0 hlease.2.1, if_pos ⟨rfl, rfl, rfl⟩]
    exact (if_pos (Or.inl rfl)).symm

end

/-- The ring of one node: its next counter, and its slots. -/
structure Lane where
  head : Nat
  slots : Nat → Option Frame

def Lane.empty : Lane := ⟨0, fun _ => none⟩

section

variable (l : Layout) (ids : NetIds)

/-- `Ring::write`, on the lane of a node. -/
def Lane.write (node kind ver : Nat) (payload : List UInt8) (lane : Lane) : Lane where
  head := lane.head + 1
  slots := update lane.slots (lane.head % l.eventRingCapacity)
    (some ⟨ids.make l.eventRingKind node lane.head, kind, ver, payload⟩)

def Lane.publish (node : Nat) (lane : Lane) (transition : LockTransition) : Lane :=
  match encode l transition with
  | .error _ => lane
  | .ok (kind, payload) => lane.write l ids node kind transition.stateRevision payload

def published (log : Log) (node : Nat) : List LockTransition :=
  (log.filter fun entry => entry.1 = node).map Prod.snd

def laneOf (log : Log) (node : Nat) : Lane :=
  (published log node).foldl (Lane.publish l ids node) .empty

/-- `Ring::read_lane_state_at`, on a ring of per-node lanes. -/
def readLaneStateAt (lane : Lane) (counter : Nat) : RingRead :=
  match lane.slots (counter % l.eventRingCapacity) with
  | some frame => if ids.counter frame.id = counter then .ready frame else .unavailable
  | none => .unavailable

def pollLane (lane : Lane) (cursor : Nat) : Nat × RingPoll :=
  OrbitRing.pollRing ids l.eventRingKind (readLaneStateAt l ids lane) lane.head l.eventRingCapacity
    cursor

/-- Combined result of walking every node lane once. -/
structure FleetLanePoll where
  frames : List Frame
  loss : RingLoss

def FleetLanePoll.extend (combined : FleetLanePoll) (poll : RingPoll) : FleetLanePoll where
  frames := combined.frames ++ poll.frames
  loss := ⟨saturatingAdd combined.loss.overwritten poll.loss.overwritten,
    saturatingAdd combined.loss.unavailable poll.loss.unavailable⟩

def pollLanes (fleetCapacity : Nat) (lanes : Nat → Lane) (cursor : Nat → Nat) :
    (Nat → Nat) × FleetLanePoll :=
  (fun node => if node < fleetCapacity then (pollLane l ids (lanes node) (cursor node)).1
    else cursor node,
  (range fleetCapacity).foldl
    (fun combined node => combined.extend (pollLane l ids (lanes node) (cursor node)).2)
    ⟨[], ⟨0, 0⟩⟩)

/-- Result of advancing one lock-event cursor. -/
structure LockPoll where
  events : List LockEvent
  loss : RingLoss
  malformed : Nat

/-- `Lock::poll`. -/
def poll (fleetCapacity : Nat) (lanes : Nat → Lane) (cursor : Nat → Nat) :
    (Nat → Nat) × LockPoll :=
  let polled := pollLanes l ids fleetCapacity lanes cursor
  let raw := polled.2
  (polled.1, {
    events := (raw.frames.filterMap (decode l)).insertionSort fun a b =>
      a.transition.stateRevision ≤ b.transition.stateRevision
    loss := raw.loss
    malformed := raw.frames.countP fun frame => (decode l frame).isNone })

/-- `Fleet::lane_cursor_at_head`: after everything that has been published. -/
def cursorAtHead (log : Log) (node : Nat) : Nat := (laneOf l ids log node).head

end

section

variable {l : Layout} {ids : NetIds} {log log' : Log} {node : Nat}
  {transition : LockTransition} {frame : Frame}

def Carries (l : Layout) (transition : LockTransition) (frame : Frame) : Prop :=
  encode l transition = .ok (frame.kind, frame.payload) ∧ frame.ver = transition.stateRevision

def Encoded (l : Layout) (transition : LockTransition) : Prop :=
  ∃ kind payload, encode l transition = .ok (kind, payload)

/-- The lane holds the last frames of the transitions, each in the slot of its counter. -/
structure Retains (l : Layout) (transitions : List LockTransition) (lane : Lane) : Prop where
  head : lane.head = transitions.length
  slot : ∀ c transition, transitions[c]? = some transition →
    transitions.length ≤ c + l.eventRingCapacity →
    ∃ frame, lane.slots (c % l.eventRingCapacity) = some frame ∧ Carries l transition frame

theorem mod_ne_of_lt {a b n : Nat} (hlt : a < b) (hle : b < a + n) : a % n ≠ b % n := by
  intro heq
  have hsub : (b - a) % n = 0 := Nat.sub_mod_eq_zero_of_mod_eq heq.symm
  rw [Nat.mod_eq_of_lt (by omega)] at hsub
  omega

theorem Retains.publish {transitions : List LockTransition} {lane : Lane}
    (h : Retains l transitions lane) (hencoded : Encoded l transition) :
    Retains l (transitions ++ [transition]) (lane.publish l ids node transition) := by
  obtain ⟨kind, payload, hencode⟩ := hencoded
  unfold Lane.publish
  rw [hencode]
  constructor
  · rw [length_append]
    exact congrArg (· + 1) h.head
  · intro c transition' hc hle
    rw [length_append, length_singleton] at hle
    have hlt := (List.getElem?_eq_some_iff.mp hc).1
    rw [length_append, length_singleton] at hlt
    dsimp only [Lane.write]
    by_cases hlast : c = transitions.length
    · subst hlast
      rw [getElem?_concat_length] at hc
      cases hc
      rw [h.head]
      exact ⟨_, update_self _ _ _, hencode, rfl⟩
    · have hold : c < transitions.length := by omega
      rw [getElem?_append_left hold] at hc
      obtain ⟨frame, hslot, hcarries⟩ := h.slot c transition' hc (by omega)
      refine ⟨frame, ?_, hcarries⟩
      rw [h.head, update_of_ne (mod_ne_of_lt hold (by omega))]
      exact hslot

theorem retains_foldl {transitions : List LockTransition}
    (h : ∀ transition ∈ transitions, Encoded l transition) :
    Retains l transitions (transitions.foldl (Lane.publish l ids node) .empty) := by
  induction transitions using reverseRecOn with
  | nil => exact ⟨rfl, fun c transition hc => by cases hc⟩
  | append_singleton transitions transition ih =>
    rw [foldl_append]
    refine (ih fun t ht => h t (mem_append_left _ ht)).publish (h transition ?_)
    exact mem_append_right _ mem_cons_self

theorem published_append : published (log ++ log') node =
    published log node ++ published log' node := by
  unfold published
  rw [filter_append, map_append]

theorem mem_published (h : transition ∈ published log node) : (node, transition) ∈ log := by
  obtain ⟨entry, hentry, rfl⟩ := mem_map.mp h
  obtain ⟨hmem, hnode⟩ := mem_filter.mp hentry
  rw [← of_decide_eq_true hnode]
  exact hmem

def AllEncoded (l : Layout) (log : Log) : Prop := ∀ entry ∈ log, Encoded l entry.2

theorem retains_laneOf (ids : NetIds) (h : AllEncoded l log) (node : Nat) :
    Retains l (published log node) (laneOf l ids log node) :=
  retains_foldl fun _ ht => h _ (mem_published ht)

end

section

variable {l : Layout} {ids : NetIds} {log log' : Log} {node fleetCapacity : Nat}
  {transition : LockTransition} {frame : Frame} {cursor : Nat → Nat}

theorem readLaneStateAt_ne_pending (lane : Lane) (c : Nat) :
    readLaneStateAt l ids lane c ≠ .pending := by
  unfold readLaneStateAt
  split
  · split <;> rintro ⟨⟩
  · rintro ⟨⟩

theorem Retains.read {transitions : List LockTransition} {lane : Lane} {c : Nat}
    (h : Retains l transitions lane) (hc : transitions[c]? = some transition)
    (hle : transitions.length ≤ c + l.eventRingCapacity)
    (hread : readLaneStateAt l ids lane c = .ready frame) : Carries l transition frame := by
  obtain ⟨frame', hslot, hcarries⟩ := h.slot c transition hc hle
  unfold readLaneStateAt at hread
  rw [hslot] at hread
  dsimp only at hread
  split at hread
  · cases hread
    exact hcarries
  · cases hread

theorem Retains.pollLane {old new : List LockTransition} {lane : Lane}
    (h : Retains l (old ++ new) lane) :
    (pollLane l ids lane old.length).1 = lane.head ∧
      ((pollLane l ids lane old.length).2.loss.isEmpty →
        Forall₂ (Carries l) new (pollLane l ids lane old.length).2.frames) := by
  have hhead := h.head
  rw [length_append] at hhead
  unfold OrbitLock.pollLane OrbitRing.pollRing
  by_cases hle : lane.head ≤ old.length
  · rw [if_pos hle]
    have hnew : new = [] := length_eq_zero_iff.mp (by omega)
    rw [hnew]
    exact ⟨rfl, fun _ => .nil⟩
  rw [if_neg hle]
  refine ⟨?_, fun hloss => ?_⟩
  · refine (OrbitRing.walk_counts (readLaneStateAt_ne_pending lane)).1.trans ?_
    omega
  · simp only [RingLoss.isEmpty, Bool.and_eq_true, decide_eq_true_eq] at hloss
    obtain ⟨hoverwritten, hunavailable⟩ := hloss
    have hnext : max old.length (lane.head - l.eventRingCapacity) = old.length := by omega
    rw [hnext] at hunavailable
    dsimp only
    rw [hnext]
    have hframes := OrbitRing.walk_lossless (readLaneStateAt_ne_pending lane) hunavailable
    rw [forall₂_iff_get] at hframes ⊢
    obtain ⟨hlength, hget⟩ := hframes
    rw [length_range'] at hlength
    refine ⟨by omega, fun i hi hi' => ?_⟩
    have hread := hget i (by rw [length_range']; omega) hi'
    rw [get_eq_getElem, getElem_range', Nat.one_mul] at hread
    refine h.read ?_ (by rw [length_append]; omega) hread
    rw [getElem?_append_right (Nat.le_add_right _ _), Nat.add_sub_cancel_left]
    exact getElem?_eq_getElem hi

theorem saturatingAdd_eq_zero {a b : Nat} : saturatingAdd a b = 0 ↔ a = 0 ∧ b = 0 := by
  unfold saturatingAdd
  omega

theorem FleetLanePoll.extend_isEmpty {combined : FleetLanePoll} {poll : RingPoll} :
    (combined.extend poll).loss.isEmpty ↔ combined.loss.isEmpty ∧ poll.loss.isEmpty := by
  simp only [FleetLanePoll.extend, RingLoss.isEmpty, Bool.and_eq_true, decide_eq_true_eq,
    saturatingAdd_eq_zero]
  exact and_and_and_comm

theorem pollLanes_lossless {lanes : Nat → Lane} {new : Nat → List LockTransition} {n : Nat}
    (h : ∀ node, (pollLane l ids (lanes node) (cursor node)).2.loss.isEmpty →
      Forall₂ (Carries l) (new node) (pollLane l ids (lanes node) (cursor node)).2.frames)
    (hloss : (pollLanes l ids n lanes cursor).2.loss.isEmpty) :
    Forall₂ (Carries l) ((range n).flatMap new)
      (pollLanes l ids n lanes cursor).2.frames := by
  unfold pollLanes at hloss ⊢
  dsimp only at hloss ⊢
  induction n with
  | zero => exact .nil
  | succ n ih =>
    rw [range_succ, foldl_append] at hloss ⊢
    obtain ⟨hrest, hlast⟩ := FleetLanePoll.extend_isEmpty.mp hloss
    rw [flatMap_append]
    refine rel_append (ih hrest) ?_
    rw [flatMap_singleton]
    exact h n hlast

theorem flatMap_filter_perm {α : Type} (f : α → Nat) (xs : List α) (n : Nat) :
    ((range n).flatMap fun i => xs.filter fun x => f x = i).Perm
      (xs.filter fun x => f x < n) := by
  induction n with
  | zero =>
    rw [filter_eq_nil_iff.mpr fun x _ => by simp]
    exact .nil
  | succ n ih =>
    rw [range_succ, flatMap_append, flatMap_singleton]
    refine (ih.append_right _).trans ?_
    have hsplit := filter_append_perm (fun x => decide (f x < n))
      (xs.filter fun x => f x < n + 1)
    rw [filter_filter, filter_filter] at hsplit
    have hbelow : ∀ x, (decide (f x < n) && decide (f x < n + 1)) = decide (f x < n) := by
      intro x
      rw [Bool.eq_iff_iff]
      simp only [Bool.and_eq_true, decide_eq_true_eq]
      omega
    have hlast : ∀ x, (!decide (f x < n) && decide (f x < n + 1)) = decide (f x = n) := by
      intro x
      rw [Bool.eq_iff_iff]
      simp only [Bool.and_eq_true, Bool.not_eq_true', decide_eq_true_eq, decide_eq_false_iff_not]
      omega
    simp only [hbelow, hlast] at hsplit
    exact hsplit

theorem published_perm {n : Nat} (h : ∀ entry ∈ log, entry.1 < n) :
    ((range n).flatMap (published log)).Perm (log.map Prod.snd) := by
  have hall : (log.filter fun entry => entry.1 < n) = log :=
    filter_eq_self.mpr fun entry hentry => decide_eq_true (h entry hentry)
  have hperm := (flatMap_filter_perm Prod.fst log n).map Prod.snd
  rw [map_flatMap, hall] at hperm
  exact hperm

/-- A transition that can be decoded: not of a lease that was acquired at time zero. -/
def Readable (transition : LockTransition) : Prop :=
  transition.frameKind = frameKindReleased ∨ 0 < transition.acquiredAtMs

instance : DecidablePred Readable := fun _ => inferInstanceAs (Decidable (_ ∨ _))

theorem Carries.decode (h : Carries l transition frame) (hsent : Sent l transition) :
    OrbitLock.decode l frame =
      if Readable transition then some ⟨frame.id, transition⟩ else none := by
  obtain ⟨id, kind, ver, payload⟩ := frame
  obtain ⟨hencode, hver⟩ := h
  dsimp only at hencode hver
  rw [hver]
  exact decode_encode hsent hencode

theorem filterMap_decode {transitions : List LockTransition} {frames : List Frame}
    (h : Forall₂ (Carries l) transitions frames) (hsent : ∀ t ∈ transitions, Sent l t) :
    (frames.filterMap (decode l)).map LockEvent.transition =
      transitions.filter fun t => Readable t := by
  induction h with
  | nil => rfl
  | @cons transition frame transitions frames hcarries _ ih =>
    have hdecode := hcarries.decode (hsent transition mem_cons_self)
    have hrest := ih fun t ht => hsent t (mem_cons_of_mem _ ht)
    by_cases hreadable : Readable transition
    · rw [if_pos hreadable] at hdecode
      rw [filterMap_cons_some hdecode, map_cons, hrest, filter_cons,
        if_pos (decide_eq_true hreadable)]
    · rw [if_neg hreadable] at hdecode
      rw [filterMap_cons_none hdecode, hrest, filter_cons,
        if_neg fun h => hreadable (of_decide_eq_true h)]

/-- Transitions in the order of their revisions. -/
def Ordered (transitions : List LockTransition) : Prop :=
  transitions.Pairwise fun a b => a.stateRevision < b.stateRevision

theorem insertionSort_transitions {events : List LockEvent} {transitions : List LockTransition}
    (hperm : (events.map LockEvent.transition).Perm transitions) (hordered : Ordered transitions) :
    (events.insertionSort fun a b => a.transition.stateRevision ≤ b.transition.stateRevision).map
      LockEvent.transition = transitions := by
  have : Std.Total fun a b : LockEvent => a.transition.stateRevision ≤ b.transition.stateRevision :=
    ⟨fun a b => Nat.le_total _ _⟩
  have : IsTrans LockEvent fun a b => a.transition.stateRevision ≤ b.transition.stateRevision :=
    ⟨fun a b c => Nat.le_trans⟩
  have hsorted : ((events.insertionSort fun a b => a.transition.stateRevision ≤
      b.transition.stateRevision).map LockEvent.transition).Pairwise
        fun a b => a.stateRevision ≤ b.stateRevision :=
    pairwise_map.mpr (pairwise_insertionSort _ events)
  have hle : transitions.Pairwise fun a b => a.stateRevision ≤ b.stateRevision :=
    List.Pairwise.imp (fun hlt => Nat.le_of_lt hlt) hordered
  have hall := ((perm_insertionSort (fun a b : LockEvent =>
    a.transition.stateRevision ≤ b.transition.stateRevision) events).map
      LockEvent.transition).trans hperm
  refine List.Perm.eq_of_pairwise (fun a b ha hb hab hba => ?_) hsorted hle hall
  exact eq_of_increasing hordered (hall.subset ha) hb (Nat.le_antisymm hab hba)

theorem cursorAtHead_eq (h : AllEncoded l log) (node : Nat) :
    cursorAtHead l ids log node = (published log node).length := (retains_laneOf ids h node).head

/-- A handle whose cursors are where the lanes stood after `log` polls them after `log'`: its cursors
get to the heads, and without loss it returns the transitions of `log'`, if all are readable. -/
theorem poll_lossless {n : Nat} (hnodes : ∀ entry ∈ log ++ log', entry.1 < n)
    (hsent : ∀ entry ∈ log ++ log', Sent l entry.2) (hordered : Ordered (log'.map Prod.snd)) :
    (poll l ids n (laneOf l ids (log ++ log')) (cursorAtHead l ids log)).1 =
        cursorAtHead l ids (log ++ log') ∧
      ((poll l ids n (laneOf l ids (log ++ log')) (cursorAtHead l ids log)).2.loss.isEmpty →
        ((poll l ids n (laneOf l ids (log ++ log')) (cursorAtHead l ids log)).2.events.map
          LockEvent.transition = log'.map Prod.snd ↔ ∀ t ∈ log'.map Prod.snd, Readable t)) := by
  have hencoded : AllEncoded l (log ++ log') := fun entry hentry => (hsent entry hentry).encoded
  have hcursor : ∀ node, cursorAtHead l ids log node = (published log node).length :=
    cursorAtHead_eq fun entry hentry => hencoded entry (mem_append_left _ hentry)
  have hlanes : ∀ node, (pollLane l ids (laneOf l ids (log ++ log') node)
      (cursorAtHead l ids log node)).1 = (laneOf l ids (log ++ log') node).head ∧
      ((pollLane l ids (laneOf l ids (log ++ log') node)
        (cursorAtHead l ids log node)).2.loss.isEmpty →
      Forall₂ (Carries l) (published log' node) (pollLane l ids
        (laneOf l ids (log ++ log') node) (cursorAtHead l ids log node)).2.frames) := by
    intro node
    have hretains := retains_laneOf ids hencoded node
    rw [published_append] at hretains
    rw [hcursor]
    exact hretains.pollLane
  constructor
  · funext node
    unfold poll pollLanes
    dsimp only
    split
    · exact (hlanes node).1
    · rename_i hnode
      have hnone : published log' node = [] := by
        refine map_eq_nil_iff.mpr (filter_eq_nil_iff.mpr fun entry hentry heq => hnode ?_)
        rw [← of_decide_eq_true heq]
        exact hnodes entry (mem_append_right _ hentry)
      rw [hcursor, cursorAtHead_eq hencoded, published_append, hnone, append_nil]
  · intro hloss
    have hframes := pollLanes_lossless (fun node => (hlanes node).2) hloss
    have hperm := published_perm fun entry hentry =>
      hnodes entry (mem_append_right log hentry)
    have hevents := filterMap_decode hframes fun t ht => by
      obtain ⟨entry, hentry, rfl⟩ := mem_map.mp (hperm.subset ht)
      exact hsent entry (mem_append_right _ hentry)
    constructor
    · intro heq t ht
      have hlength := congrArg List.length heq
      unfold poll at hlength
      rw [length_map, length_insertionSort, ← length_map LockEvent.transition,
        hevents, ← hperm.length_eq] at hlength
      have hall := length_filter_eq_length_iff.mp hlength t (hperm.symm.subset ht)
      exact of_decide_eq_true hall
    · intro hall
      rw [filter_eq_self.mpr fun t ht => decide_eq_true (hall t (hperm.subset ht))] at hevents
      exact insertionSort_transitions (hevents ▸ hperm) hordered

end

end OrbitLock
