import Orbit.Atomic.Refines
import Orbit.Ring.Shared

/-! The two backings of a ring: the slots of one process, and the words of a segment that processes
share.  Under operations that are complete before the next begins, the words of each lane of the
segment stand for the slots of the lane of the process. -/

namespace OrbitRing.Backings

open Orbit.Atomic Function Option
open List hiding Mem

inductive Op where
  | write (node : UInt16) (frameKind ver : Nat) (payload : List UInt8)
  | writeBatch (node : UInt16) (frameKind ver : Nat) (payloads : List (List UInt8))
  | nextVersion
  | reset
  | read (id : Nat)
  | readHead
  | readAt (counter : Nat)
  | laneHead (node : UInt16)
  | pollRing (cursor : Nat)
  | pollLanes (lanes : List Nat) (initialCounter : Nat)

/-- The cursors of the lanes, and what they were given together. -/
structure LanesPolled where
  lanes : List Nat
  frames : List Frame
  loss : RingLoss
  deriving DecidableEq

deriving instance DecidableEq for RingPoll

/-- What an operation returns.  `none` is an error or a panic. -/
inductive Out where
  | id (id : Option Nat)
  | ids (ids : Option (List Nat))
  | version (version : Option Nat)
  | reset
  | frame (frame : Option Frame)
  | head (head : Option Nat)
  | polled (polled : Nat × RingPoll)
  | lanesPolled (polled : Option LanesPolled)
  deriving DecidableEq

section

variable (r : RingSpec) (ids : NetIds) (fleetCapacity : Nat)

def laneCount : Nat :=
  match r.topology with
  | .perNode => fleetCapacity
  | _ => 1

/-- The lane of a node, unless it is outside the lanes of the ring. -/
def laneIndex (node : Nat) : Option Nat :=
  let index := match r.topology with
    | .perNode => node
    | _ => 0
  if index < laneCount r fleetCapacity then some index else none

/-- `fetch_add`, then `checked_add`: the version, and the counter it leaves. -/
def nextVersion (versionCounter : Nat) : Option Nat × Nat :=
  (if versionCounter + 1 < 2 ^ 64 then some (versionCounter + 1) else none,
    (versionCounter + 1) % 2 ^ 64)

def saturatingAdd (a b : Nat) : Nat := min (a + b) (2 ^ 64 - 1)

/-- The loop of `poll_lanes` over the cursors from that of `node` on, with what it has combined. -/
def pollLanesFrom (poll : Nat → Nat → Nat × RingPoll) : Nat → List Nat → LanesPolled → LanesPolled
  | _, [], combined => combined
  | node, cursor :: rest, combined =>
    let polled := poll node cursor
    pollLanesFrom poll (node + 1) rest
      ⟨combined.lanes ++ [polled.1], combined.frames ++ polled.2.frames,
        ⟨saturatingAdd combined.loss.overwritten polled.2.loss.overwritten,
          saturatingAdd combined.loss.unavailable polled.2.loss.unavailable⟩⟩

/-- `Fleet::poll_lanes`, over the `poll_ring` of each lane. -/
def pollLanes (poll : Nat → Nat → Nat × RingPoll) (lanes : List Nat) (initialCounter : Nat) :
    Option LanesPolled :=
  if r.topology ≠ .perNode then none
  else
    let lanes := if lanes.isEmpty then replicate fleetCapacity initialCounter else lanes
    if lanes.length ≠ fleetCapacity then none
    else some (pollLanesFrom poll 0 lanes ⟨[], [], ⟨0, 0⟩⟩)

structure RingLane where
  writePos : Nat
  slots : Nat → Option Frame

structure Ring where
  lanes : Nat → RingLane
  versionCounter : Nat

def Ring.new : Ring := ⟨fun _ => ⟨0, fun _ => none⟩, 0⟩

/-- `write_frame`. -/
def RingLane.writeFrame (lane : RingLane) (node counter frameKind ver : Nat)
    (payload : List UInt8) : Nat × RingLane :=
  let id := ids.make r.kind node counter
  (id, { lane with
    slots := Function.update lane.slots (counter % r.capacity)
      (some ⟨id, frameKind, ver, payload⟩) })

def RingLane.writeFrames (node frameKind ver : Nat) :
    RingLane → Nat → List (List UInt8) → List Nat × RingLane
  | lane, _, [] => ([], lane)
  | lane, counter, payload :: rest =>
    let first := lane.writeFrame r ids node counter frameKind ver payload
    let others := writeFrames node frameKind ver first.2 ((counter + 1) % 2 ^ 64) rest
    (first.1 :: others.1, others.2)

def RingLane.write (lane : RingLane) (node frameKind ver : Nat) (payload : List UInt8) :
    Nat × RingLane :=
  if r.topology = .shared then
    let counter := lane.writePos
    { lane with writePos := (counter + 1) % 2 ^ 64 }.writeFrame r ids node counter frameKind ver
      payload
  else
    let counter := lane.writePos
    let written := lane.writeFrame r ids node counter frameKind ver payload
    (written.1, { written.2 with writePos := (counter + 1) % 2 ^ 64 })

def RingLane.writeBatch (lane : RingLane) (node frameKind ver : Nat)
    (payloads : List (List UInt8)) : List Nat × RingLane :=
  if r.topology = .shared then
    let start := lane.writePos
    { lane with writePos := (start + payloads.length) % 2 ^ 64 }.writeFrames r ids node frameKind
      ver start payloads
  else
    let start := lane.writePos
    let written := lane.writeFrames r ids node frameKind ver start payloads
    (written.1, { written.2 with writePos := (start + written.1.length) % 2 ^ 64 })

def RingLane.readAt (lane : RingLane) (counter : Nat) : Option Frame :=
  lane.slots (counter % r.capacity)

/-- `read_state_at` and `read_lane_state_at`, which differ in what a slot with nothing as late as the
counter is. -/
def RingLane.readStateAt (lane : RingLane) (early : RingRead) (counter : Nat) : RingRead :=
  match lane.readAt r counter with
  | some frame =>
    if ids.counter frame.id = counter then .ready frame
    else if ids.counter frame.id > counter then .unavailable
    else early
  | none => early

def RingLane.poll (lane : RingLane) (early : RingRead) (cursor : Nat) : Nat × RingPoll :=
  OrbitRing.pollRing ids r.kind (lane.readStateAt r ids early) lane.writePos r.capacity cursor

def Ring.update (s : Ring) (lane : Nat) (new : RingLane) : Ring :=
  { s with lanes := Function.update s.lanes lane new }

def Ring.write (s : Ring) (node : UInt16) (frameKind ver : Nat) (payload : List UInt8) :
    Option Nat × Ring :=
  if tooLong r payload then (none, s)
  else
    match laneIndex r fleetCapacity node.toNat with
    | none => (none, s)
    | some lane =>
      let written := (s.lanes lane).write r ids node.toNat frameKind ver payload
      (some written.1, s.update lane written.2)

def Ring.writeBatch (s : Ring) (node : UInt16) (frameKind ver : Nat)
    (payloads : List (List UInt8)) : Option (List Nat) × Ring :=
  if payloads.length > r.capacity then (none, s)
  else if payloads.any (tooLong r) then (none, s)
  else if payloads.isEmpty then (some [], s)
  else
    match laneIndex r fleetCapacity node.toNat with
    | none => (none, s)
    | some lane =>
      let written := (s.lanes lane).writeBatch r ids node.toNat frameKind ver payloads
      (some written.1, s.update lane written.2)

def Ring.read (s : Ring) (id : Nat) : Option Frame :=
  if ids.kind id ≠ r.kind then none
  else
    match laneIndex r fleetCapacity (ids.node id) with
    | none => none
    | some lane => ((s.lanes lane).readAt r (ids.counter id)).filter fun frame => frame.id = id

def Ring.readHead (s : Ring) : Option Frame :=
  if (s.lanes 0).writePos = 0 then none else (s.lanes 0).readAt r ((s.lanes 0).writePos - 1)

def Ring.step (s : Ring) : Op → Out × Ring
  | .write node frameKind ver payload =>
    let written := s.write r ids fleetCapacity node frameKind ver payload
    (.id written.1, written.2)
  | .writeBatch node frameKind ver payloads =>
    let written := s.writeBatch r ids fleetCapacity node frameKind ver payloads
    (.ids written.1, written.2)
  | .nextVersion =>
    (.version (nextVersion s.versionCounter).1,
      { s with versionCounter := (nextVersion s.versionCounter).2 })
  | .reset => (.reset, .new)
  | .read id => (.frame (s.read r ids fleetCapacity id), s)
  | .readHead => (.frame (s.readHead r), s)
  | .readAt counter => (.frame ((s.lanes 0).readAt r counter), s)
  | .laneHead node =>
    (.head ((laneIndex r fleetCapacity node.toNat).map fun lane => (s.lanes lane).writePos), s)
  | .pollRing cursor => (.polled ((s.lanes 0).poll r ids .pending cursor), s)
  | .pollLanes lanes initialCounter =>
    (.lanesPolled (pollLanes r fleetCapacity
      (fun node cursor => (s.lanes node).poll r ids (notCommitted r) cursor) lanes
      initialCounter), s)

structure ShmRing where
  lanes : Nat → Mem Addr
  versionCounter : Nat

def ShmRing.new : ShmRing := ⟨fun _ _ => 0, 0⟩

def ShmRing.run {α : Type} (s : ShmRing) (lane : Nat) (p : RingM α) : α × ShmRing :=
  let done := p.run (s.lanes lane)
  (done.1, { s with lanes := Function.update s.lanes lane done.2 })

def ShmRing.write (s : ShmRing) (node : UInt16) (frameKind ver : Nat) (payload : List UInt8) :
    Option Nat × ShmRing :=
  if tooLong r payload then (none, s)
  else
    match laneIndex r fleetCapacity node.toNat with
    | none => (none, s)
    | some lane => s.run lane (OrbitRing.write r ids 0 node.toNat frameKind ver payload)

def ShmRing.writeBatch (s : ShmRing) (node : UInt16) (frameKind ver : Nat)
    (payloads : List (List UInt8)) : Option (List Nat) × ShmRing :=
  if payloads.length > r.capacity then (none, s)
  else if payloads.any (tooLong r) then (none, s)
  else if payloads.isEmpty then (some [], s)
  else
    match laneIndex r fleetCapacity node.toNat with
    | none => (none, s)
    | some lane => s.run lane (OrbitRing.writeBatch r ids 0 node.toNat frameKind ver payloads)

def ShmRing.read (s : ShmRing) (id : Nat) : Option Frame × ShmRing :=
  if ids.kind id ≠ r.kind then (none, s)
  else
    match laneIndex r fleetCapacity (ids.node id) with
    | none => (none, s)
    | some lane => s.run lane (Shared.read r ids id)

/-- `poll_lanes` visits the lanes one after the other; a poll of one leaves the words of all. -/
def ShmRing.pollLanes (s : ShmRing) (lanes : List Nat) (initialCounter : Nat) :
    Option LanesPolled :=
  Backings.pollLanes r fleetCapacity
    (fun node cursor => (s.run node (OrbitRing.poll r ids cursor)).1.2) lanes initialCounter

def ShmRing.step (s : ShmRing) : Op → Out × ShmRing
  | .write node frameKind ver payload =>
    let written := s.write r ids fleetCapacity node frameKind ver payload
    (.id written.1, written.2)
  | .writeBatch node frameKind ver payloads =>
    let written := s.writeBatch r ids fleetCapacity node frameKind ver payloads
    (.ids written.1, written.2)
  | .nextVersion =>
    (.version (nextVersion s.versionCounter).1,
      { s with versionCounter := (nextVersion s.versionCounter).2 })
  | .reset => (.reset, .new)
  | .read id =>
    let found := s.read r ids fleetCapacity id
    (.frame found.1, found.2)
  | .readHead =>
    let found := s.run 0 (Shared.readHead r)
    (.frame found.1, found.2)
  | .readAt counter =>
    let found := s.run 0 (Shared.readAt r counter)
    (.frame found.1, found.2)
  | .laneHead node =>
    (.head ((laneIndex r fleetCapacity node.toNat).map fun lane => s.lanes lane .head), s)
  | .pollRing cursor =>
    let polled := s.run 0 (OrbitRing.poll r ids cursor)
    (.polled polled.1.2, polled.2)
  | .pollLanes lanes initialCounter =>
    (.lanesPolled (s.pollLanes r ids fleetCapacity lanes initialCounter), s)

end

def SlotHolds (r : RingSpec) (ids : NetIds) (slot : Nat) (mem : Mem Addr) : Option Frame → Prop
  | none => mem (.seq slot) = 0
  | some frame => mem (.seq slot) = ids.counter frame.id * 2 + 2 ∧
      frame.payload.length ≤ r.payloadCapacity ∧ Stored (contents slot frame) mem

structure Holds (r : RingSpec) (ids : NetIds) (lane : RingLane) (mem : Mem Addr) : Prop where
  head : mem .head = lane.writePos
  slots : ∀ slot, SlotHolds r ids slot mem (lane.slots slot)

/-- After `n` writes, the slots hold the frames of the last counters. -/
def Retained (r : RingSpec) (ids : NetIds) (n : Nat) (slots : Nat → Option Frame) : Prop :=
  ∀ c < n, n ≤ c + r.capacity →
    ∃ frame, slots (c % r.capacity) = some frame ∧ ids.counter frame.id = c

section

variable {r : RingSpec} {ids : NetIds} {lane lane' : RingLane} {mem mem' : Mem Addr} {α : Type}
  {slot counter node frameKind ver value n : Nat} {payload : List UInt8} {place : Addr}
  {held : Option Frame} {early : RingRead}

theorem SlotHolds.congr (h : SlotHolds r ids slot mem held)
    (hsame : ∀ place, Shared.slotWith place = some slot → mem' place = mem place) :
    SlotHolds r ids slot mem' held := by
  cases held with
  | none => exact (hsame _ rfl).trans h
  | some frame =>
    obtain ⟨hseq, hlength, hstored⟩ := h
    refine ⟨(hsame _ rfl).trans hseq, hlength, fun x hx => ?_⟩
    rw [hsame _ (Shared.slot_of_content (contentOf_contents hx))]
    exact hstored x hx

theorem Holds.outside (h : Holds r ids lane mem) (hplace : Shared.slotWith place = none)
    (hhead : place ≠ .head) : Holds r ids lane (Function.update mem place value) := by
  refine ⟨?_, fun slot => (h.slots slot).congr fun word hword => ?_⟩
  · rw [update_of_ne hhead.symm]
    exact h.head
  · refine update_of_ne ?_ _ _
    rintro rfl
    rw [hplace] at hword
    cases hword

theorem Holds.advance (h : Holds r ids lane mem) :
    Holds r ids { lane with writePos := value } (Function.update mem .head value) := by
  refine ⟨update_self _ _ _, fun slot => (h.slots slot).congr fun word hword => ?_⟩
  refine update_of_ne ?_ _ _
  rintro rfl
  cases hword

theorem computes_readCommittedFrame (lane : RingLane) (slot : Nat) :
    Computes (Holds r ids) lane (readCommittedFrame r slot) (lane.slots slot) lane := by
  intro mem h
  have hslot := h.slots slot
  unfold readCommittedFrame
  rw [run_load_bind]
  cases hheld : lane.slots slot with
  | none =>
    rw [hheld] at hslot
    have hzero : mem (.seq slot) = 0 := hslot
    rw [if_pos hzero]
    exact ⟨rfl, h⟩
  | some frame =>
    rw [hheld] at hslot
    obtain ⟨hseq, hlength, hstored⟩ := hslot
    have hid : mem (.id slot) = frame.id := hstored (.id slot, frame.id) (by simp [contents])
    have hver : mem (.ver slot) = frame.ver := hstored (.ver slot, frame.ver) (by simp [contents])
    have hkind : mem (.kind slot) = frame.kind :=
      hstored (.kind slot, frame.kind) (by simp [contents])
    have hlen : mem (.len slot) = frame.payload.length :=
      hstored (.len slot, frame.payload.length) (by simp [contents])
    have hbytes : (range frame.payload.length).map
        (fun i => UInt8.ofNat (mem (.byte slot (0 + i)))) = frame.payload := by
      refine ext_getElem (by simp) fun i hi hi' => ?_
      have hbyte : mem (.byte slot i) = (frame.payload.getD i 0).toNat :=
        hstored (.byte slot i, _) (byte_mem_contents hi')
      rw [getElem_map, getElem_range, Nat.zero_add, hbyte, UInt8.ofNat_toNat,
        getD_eq_getElem?_getD, getElem?_eq_getElem hi', getD_some]
    rw [if_neg (by omega), if_neg (by omega), run_load_bind, run_load_bind, run_load_bind,
      run_load_bind, if_neg (by omega), hlen, Prog.run_bind, run_copyOut, run_load_bind,
      if_neg (fun hne => hne rfl), hbytes, hid, hver, hkind]
    exact ⟨rfl, h⟩

theorem computes_readAttempts (lane : RingLane) (slot attempts : Nat) :
    Computes (Holds r ids) lane (Shared.readAttempts r slot (attempts + 1)) (lane.slots slot)
      lane := by
  unfold Shared.readAttempts
  refine .bind (computes_readCommittedFrame lane slot) ?_
  cases hheld : lane.slots slot with
  | some frame => exact .ret _ _
  | none =>
    dsimp only
    induction attempts with
    | zero => exact .ret _ _
    | succ attempts ih =>
      unfold Shared.readAttempts
      refine .bind (computes_readCommittedFrame lane slot) ?_
      rw [hheld]
      exact ih

theorem computes_readHead (lane : RingLane) :
    Computes (Holds r ids) lane (Shared.readHead r)
      (if lane.writePos = 0 then none else lane.readAt r (lane.writePos - 1)) lane := by
  unfold Shared.readHead
  refine .bind (.load fun mem h => h.head) ?_
  split
  · exact .ret _ _
  · rw [slotOf_eq]
    exact computes_readAttempts lane _ 2

theorem computes_read (lane : RingLane) {id : Nat} (hkind : ids.kind id = r.kind) :
    Computes (Holds r ids) lane (Shared.read r ids id)
      ((lane.readAt r (ids.counter id)).filter fun frame =>
        ids.counter frame.id = ids.counter id) lane := by
  unfold Shared.read
  rw [if_neg (not_not.mpr hkind), slotOf_eq]
  exact .bind (computes_readAttempts lane _ 2) (.ret _ _)

theorem readStateAt_held {frame : Frame} (hheld : lane.readAt r counter = some frame)
    (hcounter : ids.counter frame.id = counter) :
    lane.readStateAt r ids early counter = .ready frame := by
  unfold RingLane.readStateAt
  rw [hheld]
  exact if_pos hcounter

theorem computes_readLaneIndexStateAt {frame : Frame} (hheld : lane.readAt r counter = some frame)
    (hcounter : ids.counter frame.id = counter) :
    Computes (Holds r ids) lane (readLaneIndexStateAt r ids counter) (.ready frame) lane := by
  unfold readLaneIndexStateAt
  rw [slotOf_eq]
  have hslot : lane.slots (slotOf r counter) = some frame := hheld
  have hload : Computes (Holds r ids) lane (load (.seq (slotOf r counter)) : RingM Nat)
      (counter * 2 + 2) lane := .load fun mem h => by
    have hseq := h.slots (slotOf r counter)
    rw [hslot] at hseq
    rw [hseq.1, hcounter]
  unfold readAttempts
  refine .bind hload ?_
  rw [if_neg (Nat.lt_irrefl _), if_neg (Nat.lt_irrefl _)]
  refine .bind (computes_readCommittedFrame lane _) ?_
  rw [hslot]
  dsimp only
  rw [if_pos hcounter]
  exact .ret _ _

theorem computes_readFrom {next : Nat} (early : RingRead) (h : ∀ c, next ≤ c → c < next + n →
      ∃ frame, lane.readAt r c = some frame ∧ ids.counter frame.id = c) :
    Computes (Holds r ids) lane (readFrom r ids n next)
      ((range' next n).map (lane.readStateAt r ids early)) lane := by
  induction n generalizing next with
  | zero => exact .ret _ _
  | succ n ih =>
    obtain ⟨frame, hheld, hcounter⟩ := h next (Nat.le_refl _) (by omega)
    unfold readFrom
    refine .bind (computes_readLaneIndexStateAt hheld hcounter) ?_
    rw [if_neg (by rintro ⟨⟩), range'_succ, map_cons, readStateAt_held hheld hcounter]
    exact .bind (ih fun c hle hlt => h c (by omega) (by omega)) (.ret _ _)

theorem walk_congr {kind next : Nat} {read read' : Nat → RingRead}
    (h : ∀ c, next ≤ c → c < next + n → read c = read' c) :
    walk ids kind read n next = walk ids kind read' n next := by
  induction n generalizing next with
  | zero => rfl
  | succ n ih =>
    unfold walk
    rw [h next (Nat.le_refl _) (by omega), ih fun c hle hlt => h c (by omega) (by omega)]

theorem pollRing_congr {kind head capacity cursor : Nat} {read read' : Nat → RingRead}
    (h : ∀ c, max cursor (head - capacity) ≤ c → c < head → read c = read' c) :
    pollRing ids kind read head capacity cursor = pollRing ids kind read' head capacity cursor := by
  unfold pollRing
  split
  · rfl
  · dsimp only
    rw [walk_congr fun c hle hlt => h c hle (by omega)]

theorem computes_poll (hretained : Retained r ids lane.writePos lane.slots) (cursor : Nat) :
    Computes (Holds r ids) lane (poll r ids cursor)
      (lane.writePos, lane.poll r ids early cursor) lane := by
  unfold poll
  refine .bind (.load fun mem h => h.head) ?_
  dsimp only
  have hwindow : ∀ c, max cursor (lane.writePos - r.capacity) ≤ c →
      c < max cursor (lane.writePos - r.capacity) +
        (lane.writePos - max cursor (lane.writePos - r.capacity)) →
      ∃ frame, lane.readAt r c = some frame ∧ ids.counter frame.id = c :=
    fun c hle hlt => hretained c (by omega) (by omega)
  have hreads : ∀ c, max cursor (lane.writePos - r.capacity) ≤ c → c < lane.writePos →
      ((range' (max cursor (lane.writePos - r.capacity))
        (lane.writePos - max cursor (lane.writePos - r.capacity))).map
          (lane.readStateAt r ids early)).getD (c - max cursor (lane.writePos - r.capacity))
            .unavailable = lane.readStateAt r ids early c := by
    intro c hle hlt
    rw [getD_eq_getElem?_getD, getElem?_map, getElem?_range' (by omega),
      map_some, getD_some, Nat.one_mul, Nat.add_sub_cancel' hle]
  refine .bind (computes_readFrom early hwindow) ?_
  rw [RingLane.poll, ← pollRing_congr hreads]
  exact .ret _ _

theorem within_writeSlot : (writeSlot r ids node counter frameKind ver payload).Within
    fun place => Shared.slotWith place = some (slotOf r counter) := by
  have hstore : ∀ place value, Shared.slotWith place = some (slotOf r counter) →
      (store place value : RingM Unit).Within
        fun place => Shared.slotWith place = some (slotOf r counter) :=
    fun _ value hplace => within_store
      (P := fun place => Shared.slotWith place = some (slotOf r counter)) hplace value
  unfold writeSlot
  rw [slotOf_eq]
  refine .bind (hstore _ _ rfl) fun _ => .bind (within_mark _) fun _ => ?_
  refine .bind (hstore _ _ rfl) fun _ => .bind (hstore _ _ rfl) fun _ => ?_
  refine .bind (hstore _ _ rfl) fun _ => .bind (hstore _ _ rfl) fun _ => ?_
  refine .bind (within_copyIn ?_ _ _) fun _ => .bind (hstore _ _ rfl) fun _ => .ret _
  exact fun _ => rfl

theorem byte_injective (slot : Nat) : Function.Injective (Addr.byte slot) :=
  fun _ _ h => (Addr.byte.inj h).2

theorem run_writeSlot (hlength : payload.length < 2 ^ 32) (mem : Mem Addr) :
    ((writeSlot r ids node counter frameKind ver payload).run mem).1 =
        ids.make r.kind node counter ∧
      ((writeSlot r ids node counter frameKind ver payload).run mem).2 (.seq (slotOf r counter)) =
        counter * 2 + 2 ∧
      Stored (contents (slotOf r counter) ⟨ids.make r.kind node counter, frameKind, ver, payload⟩)
        ((writeSlot r ids node counter frameKind ver payload).run mem).2 := by
  have hcopy : ∀ {place : Addr} (mem : Mem Addr), (∀ i, place ≠ .byte (slotOf r counter) i) →
      ((copyIn (.byte (slotOf r counter)) 0 payload : RingM Unit).run mem).2 place = mem place :=
    fun mem hne => (within_copyIn (P := fun place => ∃ i, place = .byte (slotOf r counter) i)
      (fun i => ⟨i, rfl⟩) 0 payload).run_eq mem fun ⟨i, heq⟩ => hne i heq
  simp only [writeSlot, slotOf_eq, Prog.run_bind, run_store, run_mark, Prog.run_pure,
    Nat.mod_eq_of_lt hlength]
  refine ⟨trivial, update_self _ _ _, fun x hx => ?_⟩
  rcases mem_append.mp hx with hfields | hbytes
  · simp only [mem_cons, not_mem_nil, or_false] at hfields
    rcases hfields with rfl | rfl | rfl | rfl
    all_goals
      rw [update_of_ne (by rintro ⟨⟩), hcopy _ (by rintro i ⟨⟩)]
      simp
  · obtain ⟨i, hi, rfl⟩ := mem_bytesAt.mp hbytes
    have hi : i < payload.length := hi
    rw [update_of_ne (by rintro ⟨⟩), run_copyIn (byte_injective _), if_pos (by omega),
      Nat.sub_zero, getD_eq_getElem?_getD, getElem?_eq_getElem hi, getD_some]

theorem computes_writeSlot (hnode : node < 2 ^ 16) (hcounter : counter < counterSize)
    (hfits : payload.length ≤ r.payloadCapacity) :
    Computes (Holds r ids) lane (writeSlot r ids node counter frameKind ver payload)
      (lane.writeFrame r ids node counter frameKind ver payload).1
      (lane.writeFrame r ids node counter frameKind ver payload).2 := by
  intro mem h
  obtain ⟨hid, hseq, hstored⟩ := @run_writeSlot r ids counter node frameKind ver payload
    (Nat.lt_of_le_of_lt hfits r.payload_lt) mem
  have hother : ∀ place, Shared.slotWith place ≠ some (slotOf r counter) →
      ((writeSlot r ids node counter frameKind ver payload).run mem).2 place = mem place :=
    fun _ hne => within_writeSlot.run_eq mem hne
  refine ⟨hid, (hother .head (by rintro ⟨⟩)).trans h.head, fun slot => ?_⟩
  unfold RingLane.writeFrame
  dsimp only
  by_cases hslot : slot = slotOf r counter
  · subst hslot
    rw [← slotOf, update_self]
    refine ⟨?_, hfits, hstored⟩
    rw [ids.counter_make _ _ _ r.kind_lt hnode hcounter]
    exact hseq
  · rw [← slotOf, update_of_ne hslot]
    refine (h.slots slot).congr fun place hplace => hother place ?_
    rw [hplace]
    exact fun heq => hslot (Option.some.inj heq)

variable {payloads : List (List UInt8)}

theorem computes_writeSlots (hnode : node < 2 ^ 16)
    (hcounter : counter + payloads.length ≤ counterSize)
    (hfits : ∀ payload ∈ payloads, payload.length ≤ r.payloadCapacity) :
    Computes (Holds r ids) lane (writeSlots r ids node frameKind ver counter payloads)
      (lane.writeFrames r ids node frameKind ver counter payloads).1
      (lane.writeFrames r ids node frameKind ver counter payloads).2 := by
  induction payloads generalizing lane counter with
  | nil => exact .ret _ _
  | cons payload rest ih =>
    have hlt : counter + 1 < 2 ^ 64 := by
      simp only [counterSize, length_cons] at hcounter
      omega
    rw [length_cons] at hcounter
    unfold writeSlots RingLane.writeFrames
    rw [Nat.mod_eq_of_lt hlt]
    refine .bind (computes_writeSlot hnode (by omega) (hfits payload mem_cons_self)) ?_
    refine .bind (ih (by omega) fun p hp => hfits p (mem_cons_of_mem _ hp)) ?_
    exact .ret _ _

theorem computes_lock (place : Addr) (hplace : Shared.slotWith place = none)
    (hhead : place ≠ .head) : Computes (Holds r ids) lane (acquire place : RingM Unit) () lane :=
  .acquire fun _ h => h.outside hplace hhead

theorem computes_unlock (place : Addr) (hplace : Shared.slotWith place = none)
    (hhead : place ≠ .head) : Computes (Holds r ids) lane (release place : RingM Unit) () lane :=
  .release fun _ h => h.outside hplace hhead

theorem computes_locked {process : Nat} {body : RingM α} {result : α}
    (hbody : Computes (Holds r ids) lane body result lane') :
    Computes (Holds r ids) lane (locked r process body) result lane' := by
  unfold locked
  refine .bind (computes_lock _ rfl (by rintro ⟨⟩)) ?_
  split
  · refine .bind (computes_lock _ rfl (by rintro ⟨⟩)) (.bind hbody ?_)
    refine .bind (computes_unlock _ rfl (by rintro ⟨⟩)) ?_
    exact .bind (computes_unlock _ rfl (by rintro ⟨⟩)) (.ret _ _)
  · refine .bind hbody ?_
    exact .bind (computes_unlock _ rfl (by rintro ⟨⟩)) (.ret _ _)

theorem computes_claim (amount : Nat) :
    Computes (Holds r ids) lane (fetchAdd 64 .head amount : RingM Nat) lane.writePos
      { lane with writePos := (lane.writePos + amount) % 2 ^ 64 } := by
  intro mem h
  refine ⟨h.head, ?_⟩
  rw [run_fetchAdd, h.head]
  exact h.advance

theorem computes_advance (value : Nat) :
    Computes (Holds r ids) lane (store .head value : RingM Unit) ()
      { lane with writePos := value } := .store fun _ h => h.advance

theorem computes_write {process : Nat} (hnode : node < 2 ^ 16) (hroom : lane.writePos < counterSize)
    (hfits : tooLong r payload = false) :
    Computes (Holds r ids) lane (write r ids process node frameKind ver payload)
      (some (lane.write r ids node frameKind ver payload).1)
      (lane.write r ids node frameKind ver payload).2 := by
  have hlength : payload.length ≤ r.payloadCapacity := Nat.le_of_not_lt (of_decide_eq_false hfits)
  unfold write RingLane.write
  rw [if_neg (Bool.eq_false_iff.mp hfits)]
  split
  · refine .bind (computes_claim 1) ?_
    exact .bind (computes_writeSlot hnode hroom hlength) (.ret _ _)
  · refine computes_locked ?_
    refine .bind (.load fun mem h => h.head) ?_
    refine .bind (computes_writeSlot hnode hroom hlength) ?_
    exact .bind (computes_advance _) (.ret _ _)

theorem computes_writeBatch {process : Nat} (hnode : node < 2 ^ 16)
    (hroom : lane.writePos + payloads.length ≤ counterSize)
    (hlength : ¬payloads.length > r.capacity) (hfits : ¬payloads.any (tooLong r) = true)
    (hsome : ¬payloads.isEmpty = true) :
    Computes (Holds r ids) lane (writeBatch r ids process node frameKind ver payloads)
      (some (lane.writeBatch r ids node frameKind ver payloads).1)
      (lane.writeBatch r ids node frameKind ver payloads).2 := by
  have hpayloads : ∀ payload ∈ payloads, payload.length ≤ r.payloadCapacity := by
    intro payload hmem
    by_contra hlong
    exact hfits (List.any_eq_true.mpr ⟨payload, hmem, decide_eq_true (Nat.lt_of_not_le hlong)⟩)
  unfold writeBatch RingLane.writeBatch
  rw [if_neg hlength, if_neg hfits, if_neg hsome]
  split
  · refine .bind (computes_claim _) ?_
    exact .bind (computes_writeSlots hnode hroom hpayloads) (.ret _ _)
  · refine computes_locked ?_
    refine .bind (.load fun mem h => h.head) ?_
    refine .bind (computes_writeSlots hnode hroom hpayloads) ?_
    exact .bind (computes_advance _) (.ret _ _)

theorem retained_writeFrame {slots : Nat → Option Frame} (h : Retained r ids n slots)
    (hnode : node < 2 ^ 16) (hn : n < counterSize) :
    Retained r ids (n + 1) (Function.update slots (n % r.capacity)
      (some ⟨ids.make r.kind node n, frameKind, ver, payload⟩)) := by
  intro c hlt hle
  by_cases hc : c = n
  · subst hc
    exact ⟨_, update_self _ _ _, ids.counter_make _ _ _ r.kind_lt hnode hn⟩
  · rw [update_of_ne (place_ne (show c < n by omega) (by omega)).symm]
    exact h c (by omega) (by omega)

theorem retained_writeFrames (h : Retained r ids n lane.slots) (hnode : node < 2 ^ 16)
    (hn : n + payloads.length ≤ counterSize) :
    Retained r ids (n + payloads.length)
      (lane.writeFrames r ids node frameKind ver n payloads).2.slots := by
  induction payloads generalizing lane n with
  | nil => exact h
  | cons payload rest ih =>
    rw [length_cons] at hn ⊢
    have hlt : n + 1 < 2 ^ 64 := by
      simp only [counterSize] at hn
      omega
    unfold RingLane.writeFrames
    rw [Nat.mod_eq_of_lt hlt, Nat.add_comm rest.length 1, ← Nat.add_assoc]
    exact ih (retained_writeFrame h hnode (by omega)) (by omega)

theorem writeFrames_length :
    (lane.writeFrames r ids node frameKind ver n payloads).1.length = payloads.length := by
  induction payloads generalizing lane n with
  | nil => rfl
  | cons payload rest ih => exact congrArg (· + 1) ih

theorem writeFrames_writePos :
    (lane.writeFrames r ids node frameKind ver n payloads).2.writePos = lane.writePos := by
  induction payloads generalizing lane n with
  | nil => rfl
  | cons payload rest ih => exact ih

theorem write_writePos : (lane.write r ids node frameKind ver payload).2.writePos =
    (lane.writePos + 1) % 2 ^ 64 := by
  unfold RingLane.write
  split <;> rfl

theorem writeBatch_writePos :
    (lane.writeBatch r ids node frameKind ver payloads).2.writePos =
      (lane.writePos + payloads.length) % 2 ^ 64 := by
  unfold RingLane.writeBatch
  split
  · exact writeFrames_writePos
  · dsimp only
    rw [writeFrames_length]

theorem retained_write (h : Retained r ids lane.writePos lane.slots) (hnode : node < 2 ^ 16)
    (hroom : lane.writePos < counterSize) :
    Retained r ids (lane.write r ids node frameKind ver payload).2.writePos
      (lane.write r ids node frameKind ver payload).2.slots := by
  have hlt : lane.writePos + 1 < 2 ^ 64 := by
    simp only [counterSize] at hroom
    omega
  rw [write_writePos, Nat.mod_eq_of_lt hlt]
  unfold RingLane.write
  split <;> exact retained_writeFrame h hnode hroom

theorem retained_writeBatch (h : Retained r ids lane.writePos lane.slots) (hnode : node < 2 ^ 16)
    (hroom : lane.writePos + payloads.length ≤ counterSize) :
    Retained r ids (lane.writeBatch r ids node frameKind ver payloads).2.writePos
      (lane.writeBatch r ids node frameKind ver payloads).2.slots := by
  have hlt : lane.writePos + payloads.length < 2 ^ 64 := by
    simp only [counterSize] at hroom
    omega
  rw [writeBatch_writePos, Nat.mod_eq_of_lt hlt]
  unfold RingLane.writeBatch
  split <;> exact retained_writeFrames h hnode hroom

end

/-- The lanes of the segment stand for those of the process. -/
structure Sim (r : RingSpec) (ids : NetIds) (s : Ring) (s' : ShmRing) : Prop where
  lane : ∀ lane, Holds r ids (s.lanes lane) (s'.lanes lane)
  retained : ∀ lane, Retained r ids (s.lanes lane).writePos (s.lanes lane).slots
  version : s'.versionCounter = s.versionCounter

/-- How many frames an operation writes to a lane. -/
def Op.writes (r : RingSpec) (fleetCapacity lane : Nat) : Op → Nat
  | .write node .. => if laneIndex r fleetCapacity node.toNat = some lane then 1 else 0
  | .writeBatch node _ _ payloads =>
    if laneIndex r fleetCapacity node.toNat = some lane then payloads.length else 0
  | _ => 0

def Room (r : RingSpec) (fleetCapacity : Nat) (s : Ring) (op : Op) : Prop :=
  ∀ lane, (s.lanes lane).writePos + op.writes r fleetCapacity lane ≤ counterSize

/-- A read of an id whose counter the lane still holds, but under another id. -/
def Stray (r : RingSpec) (ids : NetIds) (fleetCapacity : Nat) (s : Ring) : Op → Prop
  | .read id => ids.kind id = r.kind ∧ ∃ lane, laneIndex r fleetCapacity (ids.node id) = some lane ∧
      ∃ frame, (s.lanes lane).readAt r (ids.counter id) = some frame ∧
        ids.counter frame.id = ids.counter id ∧ frame.id ≠ id
  | _ => False

section

variable {r : RingSpec} {ids : NetIds} {fleetCapacity : Nat} {s : Ring} {s' : ShmRing} {α : Type}
  {lane lane' : Nat} {new : RingLane} {p : RingM α} {result : α} {op : Op}

theorem Sim.run (h : Sim r ids s s') (hp : Computes (Holds r ids) (s.lanes lane) p result new)
    (hretained : Retained r ids new.writePos new.slots) :
    (s'.run lane p).1 = result ∧ Sim r ids (s.update lane new) (s'.run lane p).2 := by
  obtain ⟨hresult, hnew⟩ := hp (s'.lanes lane) (h.lane lane)
  refine ⟨hresult, fun lane' => ?_, fun lane' => ?_, h.version⟩
  · by_cases hlane : lane' = lane
    · subst hlane
      simpa [Ring.update, ShmRing.run] using hnew
    · simpa [Ring.update, ShmRing.run, update_of_ne hlane] using h.lane lane'
  · by_cases hlane : lane' = lane
    · subst hlane
      simpa [Ring.update] using hretained
    · simpa [Ring.update, update_of_ne hlane] using h.retained lane'

theorem Sim.look (h : Sim r ids s s')
    (hp : Computes (Holds r ids) (s.lanes lane) p result (s.lanes lane)) :
    (s'.run lane p).1 = result ∧ Sim r ids s (s'.run lane p).2 := by
  have hrun := h.run hp (h.retained lane)
  rw [Ring.update, update_eq_self] at hrun
  exact hrun

theorem sim_new (r : RingSpec) (ids : NetIds) : Sim r ids .new .new where
  lane _ := ⟨rfl, fun _ => rfl⟩
  retained _ c hlt := (Nat.not_lt_zero c hlt).elim
  version := rfl

theorem Sim.write {node : UInt16} {frameKind ver : Nat} {payload : List UInt8}
    (h : Sim r ids s s') (hroom : Room r fleetCapacity s (.write node frameKind ver payload)) :
    (s'.write r ids fleetCapacity node frameKind ver payload).1 =
        (s.write r ids fleetCapacity node frameKind ver payload).1 ∧
      Sim r ids (s.write r ids fleetCapacity node frameKind ver payload).2
        (s'.write r ids fleetCapacity node frameKind ver payload).2 := by
  unfold ShmRing.write Ring.write
  by_cases hlong : tooLong r payload = true
  · rw [if_pos hlong, if_pos hlong]
    exact ⟨rfl, h⟩
  rw [if_neg hlong, if_neg hlong]
  cases hlane : laneIndex r fleetCapacity node.toNat with
  | none => exact ⟨rfl, h⟩
  | some lane =>
    have hspace := hroom lane
    rw [Op.writes, if_pos hlane] at hspace
    have hnode : node.toNat < 2 ^ 16 := node.toNat_lt
    exact h.run (computes_write hnode hspace (Bool.eq_false_iff.mpr hlong))
      (retained_write (h.retained lane) hnode hspace)

theorem Sim.writeBatch {node : UInt16} {frameKind ver : Nat} {payloads : List (List UInt8)}
    (h : Sim r ids s s')
    (hroom : Room r fleetCapacity s (.writeBatch node frameKind ver payloads)) :
    (s'.writeBatch r ids fleetCapacity node frameKind ver payloads).1 =
        (s.writeBatch r ids fleetCapacity node frameKind ver payloads).1 ∧
      Sim r ids (s.writeBatch r ids fleetCapacity node frameKind ver payloads).2
        (s'.writeBatch r ids fleetCapacity node frameKind ver payloads).2 := by
  unfold ShmRing.writeBatch Ring.writeBatch
  by_cases hlength : payloads.length > r.capacity
  · rw [if_pos hlength, if_pos hlength]
    exact ⟨rfl, h⟩
  by_cases hlong : payloads.any (tooLong r) = true
  · rw [if_neg hlength, if_neg hlength, if_pos hlong, if_pos hlong]
    exact ⟨rfl, h⟩
  by_cases hempty : payloads.isEmpty = true
  · rw [if_neg hlength, if_neg hlength, if_neg hlong, if_neg hlong, if_pos hempty, if_pos hempty]
    exact ⟨rfl, h⟩
  rw [if_neg hlength, if_neg hlength, if_neg hlong, if_neg hlong, if_neg hempty, if_neg hempty]
  cases hlane : laneIndex r fleetCapacity node.toNat with
  | none => exact ⟨rfl, h⟩
  | some lane =>
    have hspace := hroom lane
    rw [Op.writes, if_pos hlane] at hspace
    have hnode : node.toNat < 2 ^ 16 := node.toNat_lt
    exact h.run (computes_writeBatch hnode hspace hlength hlong hempty)
      (retained_writeBatch (h.retained lane) hnode hspace)

theorem Sim.read (h : Sim r ids s s') (id : Nat) :
    (s.read r ids fleetCapacity id = (s'.read r ids fleetCapacity id).1 ↔
        ¬Stray r ids fleetCapacity s (.read id)) ∧
      Sim r ids s (s'.read r ids fleetCapacity id).2 := by
  unfold Ring.read ShmRing.read Stray
  by_cases hkind : ids.kind id = r.kind
  swap
  · rw [if_pos hkind, if_pos hkind]
    exact ⟨⟨fun _ hstray => hkind hstray.1, fun _ => rfl⟩, h⟩
  rw [if_neg (not_not.mpr hkind), if_neg (not_not.mpr hkind)]
  cases hlane : laneIndex r fleetCapacity (ids.node id) with
  | none =>
    refine ⟨⟨fun _ => ?_, fun _ => rfl⟩, h⟩
    rintro ⟨-, lane, hsome, -⟩
    rw [hlane] at hsome
    cases hsome
  | some lane =>
    obtain ⟨hresult, hsim⟩ := h.look (computes_read (s.lanes lane) hkind)
    refine ⟨?_, hsim⟩
    dsimp only
    rw [hresult]
    cases hheld : (s.lanes lane).readAt r (ids.counter id) with
    | none =>
      refine ⟨fun _ => ?_, fun _ => rfl⟩
      rintro ⟨-, lane', hlane', frame, hframe, -⟩
      rw [hlane] at hlane'
      cases hlane'
      rw [hheld] at hframe
      cases hframe
    | some frame =>
      rw [filter_some, filter_some]
      simp only [decide_eq_true_eq]
      constructor
      · rintro hsame ⟨-, lane', hlane', frame', hframe, hcounter, hid⟩
        rw [hlane] at hlane'
        cases hlane'
        rw [hheld] at hframe
        cases hframe
        rw [if_neg hid, if_pos hcounter] at hsame
        cases hsame
      · intro hstray
        by_cases hid : frame.id = id
        · rw [if_pos hid, if_pos (congrArg ids.counter hid)]
        · rw [if_neg hid, if_neg]
          exact fun hcounter => hstray ⟨hkind, lane, hlane, frame, hheld, hcounter, hid⟩

theorem Sim.readHead (h : Sim r ids s s') :
    (s'.run 0 (Shared.readHead r)).1 = s.readHead r ∧
      Sim r ids s (s'.run 0 (Shared.readHead r)).2 := h.look (computes_readHead (s.lanes 0))

theorem Sim.readAt (h : Sim r ids s s') (counter : Nat) :
    (s'.run 0 (Shared.readAt r counter)).1 = (s.lanes 0).readAt r counter ∧
      Sim r ids s (s'.run 0 (Shared.readAt r counter)).2 := by
  refine h.look ?_
  unfold Shared.readAt
  rw [slotOf_eq]
  exact computes_readAttempts (s.lanes 0) _ 2

theorem Sim.poll (h : Sim r ids s s') (lane : Nat) (early : RingRead) (cursor : Nat) :
    (s'.run lane (poll r ids cursor)).1.2 = (s.lanes lane).poll r ids early cursor ∧
      Sim r ids s (s'.run lane (poll r ids cursor)).2 := by
  obtain ⟨hresult, hsim⟩ := h.look (computes_poll (h.retained lane) cursor)
  exact ⟨congrArg Prod.snd hresult, hsim⟩

theorem Sim.pollLanes (h : Sim r ids s s') (lanes : List Nat) (initialCounter : Nat) :
    s'.pollLanes r ids fleetCapacity lanes initialCounter =
      pollLanes r fleetCapacity
        (fun node cursor => (s.lanes node).poll r ids (notCommitted r) cursor) lanes
        initialCounter := by
  unfold ShmRing.pollLanes
  congr
  funext node cursor
  exact (h.poll node _ cursor).1

theorem Sim.step (h : Sim r ids s s') (hroom : Room r fleetCapacity s op) :
    ((s.step r ids fleetCapacity op).1 = (s'.step r ids fleetCapacity op).1 ↔
        ¬Stray r ids fleetCapacity s op) ∧
      Sim r ids (s.step r ids fleetCapacity op).2 (s'.step r ids fleetCapacity op).2 := by
  have hagree : ∀ {out out' : Out}, out' = out → (out = out' ↔ ¬False) :=
    fun heq => ⟨fun _ => id, fun _ => heq.symm⟩
  cases op with
  | write node frameKind ver payload =>
    obtain ⟨hresult, hsim⟩ := h.write hroom
    exact ⟨hagree (congrArg Out.id hresult), hsim⟩
  | writeBatch node frameKind ver payloads =>
    obtain ⟨hresult, hsim⟩ := h.writeBatch hroom
    exact ⟨hagree (congrArg Out.ids hresult), hsim⟩
  | nextVersion =>
    unfold Ring.step ShmRing.step
    dsimp only
    rw [h.version]
    exact ⟨hagree rfl, h.lane, h.retained, rfl⟩
  | reset => exact ⟨hagree rfl, sim_new r ids⟩
  | read id =>
    obtain ⟨hiff, hsim⟩ := h.read id
    refine ⟨?_, hsim⟩
    rw [← hiff]
    exact ⟨Out.frame.inj, congrArg Out.frame⟩
  | readHead => exact ⟨hagree (congrArg Out.frame h.readHead.1), h.readHead.2⟩
  | readAt counter =>
    exact ⟨hagree (congrArg Out.frame (h.readAt counter).1), (h.readAt counter).2⟩
  | laneHead node =>
    refine ⟨hagree (congrArg Out.head ?_), h⟩
    refine congrArg (Option.map · _) (funext fun lane => ?_)
    exact (h.lane lane).head
  | pollRing cursor =>
    obtain ⟨hresult, hsim⟩ := h.poll 0 .pending cursor
    exact ⟨hagree (congrArg Out.polled hresult), hsim⟩
  | pollLanes lanes initialCounter =>
    exact ⟨hagree (congrArg Out.lanesPolled (h.pollLanes lanes initialCounter)), h⟩

theorem update_writePos (hlane : lane = lane') :
    ((s.update lane new).lanes lane').writePos = new.writePos := by
  subst hlane
  simp [Ring.update]

theorem update_writePos_ne (hlane : lane' ≠ lane) :
    ((s.update lane new).lanes lane').writePos = (s.lanes lane').writePos := by
  simp [Ring.update, update_of_ne hlane]

theorem step_writePos (s : Ring) (op : Op) (lane : Nat) :
    ((s.step r ids fleetCapacity op).2.lanes lane).writePos ≤
      (s.lanes lane).writePos + op.writes r fleetCapacity lane := by
  cases op with
  | write node frameKind ver payload =>
    simp only [Ring.step, Ring.write, Op.writes]
    split
    · exact Nat.le_add_right _ _
    cases hlane : laneIndex r fleetCapacity node.toNat with
    | none => exact Nat.le_add_right _ _
    | some lane' =>
      dsimp only
      by_cases hsame : lane' = lane
      · rw [update_writePos hsame, write_writePos, if_pos (congrArg some hsame), hsame]
        exact Nat.mod_le _ _
      · rw [update_writePos_ne (Ne.symm hsame)]
        exact Nat.le_add_right _ _
  | writeBatch node frameKind ver payloads =>
    simp only [Ring.step, Ring.writeBatch, Op.writes]
    split
    · exact Nat.le_add_right _ _
    split
    · exact Nat.le_add_right _ _
    split
    · exact Nat.le_add_right _ _
    cases hlane : laneIndex r fleetCapacity node.toNat with
    | none => exact Nat.le_add_right _ _
    | some lane' =>
      dsimp only
      by_cases hsame : lane' = lane
      · rw [update_writePos hsame, writeBatch_writePos, if_pos (congrArg some hsame), hsame]
        exact Nat.mod_le _ _
      · rw [update_writePos_ne (Ne.symm hsame)]
        exact Nat.le_add_right _ _
  | reset => exact Nat.zero_le _
  | nextVersion | read | readHead | readAt | laneHead | pollRing | pollLanes => exact Nat.le_refl _

theorem meets_room {ops : List Op} (h : ∀ lane,
      (s.lanes lane).writePos + (ops.map (Op.writes r fleetCapacity lane)).sum ≤ counterSize) :
    Meets (fun s op => (s.step r ids fleetCapacity op).2) (Room r fleetCapacity) s ops := by
  induction ops generalizing s with
  | nil => trivial
  | cons op rest ih =>
    have hsum : ∀ lane, (s.lanes lane).writePos + (op.writes r fleetCapacity lane +
        (rest.map (Op.writes r fleetCapacity lane)).sum) ≤ counterSize := h
    refine ⟨fun lane => ?_, ih fun lane => ?_⟩
    · have := hsum lane
      omega
    · have hstep := @step_writePos r ids fleetCapacity s op lane
      have := hsum lane
      exact Nat.le_trans (Nat.add_le_add_right hstep _) (by omega)

end

/-- The two backings of a ring return the same for every operation of a sequence just when no read
asks for an id whose counter the ring still holds under another id. -/
theorem same_results (r : RingSpec) (ids : NetIds) (fleetCapacity : Nat) {ops : List Op}
    (hfew : ∀ lane, (ops.map (Op.writes r fleetCapacity lane)).sum < counterSize) :
    results (Ring.step r ids fleetCapacity) .new ops =
        results (ShmRing.step r ids fleetCapacity) .new ops ↔
      Meets (fun s op => (s.step r ids fleetCapacity op).2)
        (fun s op => ¬Stray r ids fleetCapacity s op) .new ops := by
  refine results_eq_iff (fun s s' op hsim hroom => (hsim.step hroom).2)
    (fun s s' op hsim hroom => (hsim.step hroom).1) (sim_new r ids) (meets_room fun lane => ?_)
  rw [Ring.new, Nat.zero_add]
  exact Nat.le_of_lt (hfew lane)

def strayRead : List Op := [.write 1 0 0 [7], .read (NetIds.packed.make 3 2 0)]

/-- The ring of one process has no such frame, and that of the segment returns the frame of the
other node. -/
theorem same_results_stray :
    (∀ lane, (strayRead.map (Op.writes Shared.oneSlotRing 3 lane)).sum < counterSize) ∧
      results (Ring.step Shared.oneSlotRing .packed 3) .new strayRead ≠
        results (ShmRing.step Shared.oneSlotRing .packed 3) .new strayRead := by
  refine ⟨fun lane => ?_, by decide⟩
  simp only [strayRead, map_cons, map_nil, Op.writes, sum_cons, sum_nil]
  split <;> decide

def ownReads : List Op :=
  [.write 1 0 0 [7], .read (NetIds.packed.make 3 1 0), .writeBatch 2 0 0 [[8]],
    .read (NetIds.packed.make 3 1 0), .read (NetIds.packed.make 3 2 1), .pollRing 0]

theorem same_results_own :
    Meets (fun s op => (s.step Shared.oneSlotRing .packed 3 op).2)
      (fun s op => ¬Stray Shared.oneSlotRing .packed 3 s op) .new ownReads := by
  refine (same_results Shared.oneSlotRing .packed 3 fun lane => ?_).mp (by decide)
  simp only [ownReads, map_cons, map_nil, Op.writes, sum_cons, sum_nil]
  split <;> split <;> decide

end OrbitRing.Backings
