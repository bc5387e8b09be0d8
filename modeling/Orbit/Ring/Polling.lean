import Orbit.Ring.Reader
import Mathlib.Data.List.Forall2

/-! A reader that polls a ring with one cursor: each frame it is given is one that was written, none
is given twice, and what it is not given is counted as loss. -/

namespace OrbitRing

open Orbit.Atomic Option
open List hiding Mem

variable {r : RingSpec} {ids : NetIds} {t : Nat} {call : Call} {cursor : Nat} {F : Fact}

/-- What a poll at a cursor has found: the head it read, the cursor it leaves and its result. -/
structure PollOk (ids : NetIds) (cursor : Nat) (found : Nat × Nat × RingPoll) (v : View) : Prop where
  head_le : found.1 ≤ v.head
  next : found.2.1 = found.1
  before : ∀ frame ∈ v.returned, ids.counter frame.id < found.1
  frame : ∀ frame ∈ found.2.2.frames, v.frames[ids.counter frame.id]? = some frame ∧
    cursor ≤ ids.counter frame.id ∧ ids.counter frame.id < found.1
  order : (found.2.2.frames.map fun frame => ids.counter frame.id).Pairwise (· < ·)
  counts : found.2.2.fromCounter ≤ found.1 → found.2.2.toCounter = found.1 ∧
    found.2.2.frames.length + found.2.2.loss.overwritten + found.2.2.loss.unavailable =
      found.2.2.toCounter - found.2.2.fromCounter

/-- The head that a poll read: everything given before lies below it. -/
def Fact.bounded (ids : NetIds) (head : Nat) : Fact where
  holds v := head ≤ v.head ∧ ∀ frame ∈ v.returned, ids.counter frame.id < head
  mono hle h := ⟨Nat.le_trans h.1 hle.head, by rw [hle.returned]; exact h.2⟩

theorem ReadsOk.getD {next : Nat} {reads : List RingRead} {v : View}
    (h : ReadsOk ids next reads v) (i : Nat) :
    ReadOk ids (next + i) (reads.getD i .unavailable) v := by
  rw [getD_eq_getElem?_getD]
  cases hread : reads[i]? with
  | none => exact readOk_unavailable _ v
  | some read => exact h i read hread

theorem forall₂_mem_right {α β : Type} {R : α → β → Prop} {xs : List α} {ys : List β}
    (h : Forall₂ R xs ys) {y : β} (hy : y ∈ ys) : ∃ x ∈ xs, R x y := by
  induction h with
  | nil => cases hy
  | cons hhead _ ih =>
    rcases mem_cons.mp hy with rfl | hrest
    · exact ⟨_, mem_cons_self, hhead⟩
    · obtain ⟨x, hx, hR⟩ := ih hrest
      exact ⟨x, mem_cons_of_mem _ hx, hR⟩

theorem pollOk {head kind capacity : Nat} {reads : List RingRead} {v : View}
    (hreads : ReadsOk ids (max cursor (head - capacity)) reads v)
    (hbounded : (Fact.bounded ids head).holds v) :
    PollOk ids cursor (head, pollRing ids kind
      (fun c => reads.getD (c - max cursor (head - capacity)) .unavailable) head capacity cursor)
      v := by
  have hpending : ∀ c, (fun c => reads.getD (c - max cursor (head - capacity)) .unavailable) c ≠
      .pending := fun c => (hreads.getD _).1
  obtain ⟨hnext, hfrom, hto, hsum⟩ := @pollRing_counts ids kind _ head capacity cursor hpending
  obtain ⟨counters, horder, hrange, hall⟩ := @pollRing_frames ids kind
    (fun c => reads.getD (c - max cursor (head - capacity)) .unavailable) head capacity cursor
  refine ⟨hbounded.1, hnext, hbounded.2, fun frame hframe => ?_, ?_, fun _ => ⟨hto, ?_⟩⟩
  · obtain ⟨c, hc, hready, -, hcounter⟩ := forall₂_mem_right hall hframe
    have hread := ((hreads.getD (c - max cursor (head - capacity))).2 frame hready).2
    rw [Nat.add_sub_cancel' (hrange c hc).1] at hread
    rw [hcounter]
    exact ⟨hread, Nat.le_trans (Nat.le_max_left _ _) (hrange c hc).1, (hrange c hc).2⟩
  · have hcounters := forall₂_map_right_iff.mpr (hall.imp fun _ _ h => h.2.2.symm)
    rw [forall₂_eq_eq_eq] at hcounters
    rw [← hcounters]
    exact horder
  · rw [hsum, hto, hfrom]

theorem safe_poll (hshared : r.topology ≠ .shared) :
    RingSafe r ids t call (poll r ids cursor)
      (fun found m' => ∃ G, m' = reads cursor G ∧ ∀ v, G.holds v → PollOk ids cursor found v)
      (reads cursor .any) := by
  unfold poll
  refine safe_learn (fun head => .bounded ids head) (fun h mem _ hP _ =>
    ⟨Nat.le_refl _, fun frame hframe => (hP.before frame hframe).2⟩) fun head => ?_
  refine .bind ((safe_readFrom hshared).mono ?_)
  rintro found _ ⟨G, rfl, hG⟩
  exact ⟨G, rfl, fun v hv => pollOk (hG v hv).2 (hG v hv).1⟩

theorem Inv.polled_record {G : Fact} {others : Share} {h : History} {mem : Mem Addr}
    {found : Nat × Nat × RingPoll} (hI : Inv r ids (reads cursor G + others) h mem)
    (hG : ∀ v, G.holds v → PollOk ids cursor found v) :
    Inv r ids (0 + others) (record (.polled found.1 found.2.1 found.2.2) h) mem := by
  obtain ⟨hothers, hcursor, -, hv⟩ := hI.reading
  have hok := hG _ hv
  have hreturned : (record (.polled found.1 found.2.1 found.2.2) h).returned =
      h.returned ++ found.2.2.frames := by
    simp only [History.returned, record, flatMap_append, flatMap_cons, flatMap_nil,
      append_nil]
  refine ⟨hI.slots, hI.budget, hI.begun_lt, hI.writer, .inl ⟨?_, rfl⟩, ?_, ?_, ?_, ?_⟩
  · have hreaders : (0 + others : Share).2.2 = 0 + others.2.2 := rfl
    rw [hreaders, hothers, add_zero]
  · intro frame hframe
    rw [hreturned, mem_append] at hframe
    rcases hframe with hold | hnew
    · exact hI.polled.frame frame hold
    · exact (hok.frame frame hnew).1
  · rw [hreturned, map_append, pairwise_append]
    refine ⟨hI.polled.order, hok.order, fun old hold new hnew => ?_⟩
    obtain ⟨frame, hframe, rfl⟩ := List.mem_map.mp hold
    obtain ⟨frame', hframe', rfl⟩ := List.mem_map.mp hnew
    have hbefore := (hI.polled.before frame hframe).1
    rw [hcursor] at hbefore
    exact Nat.lt_of_lt_of_le hbefore (hok.frame frame' hframe').2.1
  · intro frame hframe
    have hlt : ids.counter frame.id < found.1 := by
      rw [hreturned, mem_append] at hframe
      rcases hframe with hold | hnew
      · exact hok.before frame hold
      · exact (hok.frame frame hnew).2.2
    exact ⟨Nat.lt_of_lt_of_eq hlt hok.next.symm, Nat.lt_of_lt_of_le hlt hok.head_le⟩
  · intro record hrecord
    rcases mem_append.mp hrecord with hold | hnew
    · exact hI.polled.counts record hold
    · rw [mem_singleton.mp hnew]
      exact hok.counts

theorem Inv.init (cursor : Nat) : Inv r ids 0 (.init cursor) fun _ => 0 where
  slots := ⟨fun _ _ h => (nomatch h), fun _ => Nat.le_refl 0, fun _ _ h => by omega, Nat.le_refl 0⟩
  budget := rfl
  begun_lt := Nat.two_pow_pos _
  writer := .inl ⟨rfl, rfl⟩
  reader := .inl ⟨rfl, rfl⟩
  polled := ⟨fun _ h => (nomatch h), .nil, fun _ h => (nomatch h), fun _ h => (nomatch h)⟩

theorem Inv.plan {m : Share} {h : History} {mem : Mem Addr} {budget : Nat} (hI : Inv r ids m h mem)
    (hlt : h.begun + budget < counterSize) :
    Inv r ids (plans budget + m) { h with begun := h.begun + budget } mem where
  slots := hI.slots
  budget := by
    have hplans : (plans budget + m).1 = budget + m.1 := rfl
    have hbudget := hI.budget
    dsimp only
    omega
  begun_lt := hlt
  writer := by
    have hplans : (plans budget + m).2.1 = 0 + m.2.1 := rfl
    rw [hplans, zero_add]
    exact hI.writer
  reader := by
    have hplans : (plans budget + m).2.2 = 0 + m.2.2 := rfl
    rw [hplans, zero_add]
    exact hI.reader
  polled := ⟨hI.polled.frame, hI.polled.order, hI.polled.before, hI.polled.counts⟩

theorem Inv.read {m : Share} {h : History} {mem : Mem Addr} (hI : Inv r ids m h mem)
    (hpolling : h.polling = false) :
    Inv r ids (reads h.cursor .any + m) { h with polling := true } mem where
  slots := hI.slots
  budget := by
    have hreads : (reads h.cursor .any + m).1 = 0 + m.1 := rfl
    rw [hreads, Nat.zero_add]
    exact hI.budget
  begun_lt := hI.begun_lt
  writer := by
    have hreads : (reads h.cursor .any + m).2.1 = 0 + m.2.1 := rfl
    rw [hreads, zero_add]
    exact hI.writer
  reader := by
    have hreads : (reads h.cursor .any + m).2.2 = {(h.cursor, .any)} + m.2.2 := rfl
    rcases hI.reader with ⟨hnone, -⟩ | ⟨F, -, hbusy, -⟩
    · rw [hreads, hnone, add_zero]
      exact .inr ⟨.any, rfl, rfl, trivial⟩
    · rw [hpolling] at hbusy
      cases hbusy
  polled := ⟨hI.polled.frame, hI.polled.order, hI.polled.before, hI.polled.counts⟩

theorem Inv.begins {m : Share} {h h' : History} {mem : Mem Addr} (hshared : r.topology ≠ .shared)
    (hI : Inv r ids m h mem) (hlt : h.begun + call.frames r < counterSize)
    (hbegins : begins r call h = some h') :
    ∃ share, Inv r ids (share + m) h' mem ∧
      RingSafe r ids t call ((ringSys r ids).body call) (fun _ _ => True) share := by
  cases call with
  | poll cursor =>
    obtain ⟨⟨hpolling, rfl⟩, hsome⟩ := ite_none_right_eq_some.mp hbegins
    cases hsome
    refine ⟨_, hI.read hpolling, .bind ((safe_poll hshared).mono ?_)⟩
    rintro found _ ⟨G, rfl, hG⟩ others h mem hI
    exact ⟨0, hI.polled_record hG, trivial⟩
  | write process node frameKind ver payload =>
    obtain ⟨⟨hnode, hprocess⟩, hsome⟩ := ite_none_right_eq_some.mp hbegins
    cases hsome
    exact ⟨_, hI.plan hlt, .bind ((safe_write hshared hprocess hnode).mono fun _ _ _ => trivial)⟩
  | writeBatch process node frameKind ver payloads =>
    obtain ⟨⟨hnode, hprocess⟩, hsome⟩ := ite_none_right_eq_some.mp hbegins
    cases hsome
    exact ⟨_, hI.plan hlt, .bind ((safe_writeBatch hshared hprocess hnode).mono fun _ _ _ =>
      trivial)⟩

/-- In a lane whose writers are serialized, and before its counters are used up, a reader with one
cursor is given only frames that were written, each under the counter that it has; the counters of
all the frames it is given increase; and a poll from below the head that it reads gets to this head,
with a frame or a loss for each counter on the way. -/
theorem cursor_exactly_once (r : RingSpec) (ids : NetIds) (cursor : Nat)
    (s : Config Addr Event Call History) (hshared : r.topology ≠ .shared)
    (hs : Reach (ringSys r ids) (countersLeft r) (ringStart cursor) s) :
    (∀ frame ∈ s.hist.returned, s.hist.frames[ids.counter frame.id]? = some frame) ∧
      (s.hist.returned.map fun frame => ids.counter frame.id).Pairwise (· < ·) ∧
      ∀ record ∈ s.hist.polls, record.poll.fromCounter ≤ record.head →
        record.poll.toCounter = record.head ∧
          record.poll.frames.length + record.poll.loss.overwritten + record.poll.loss.unavailable =
            record.poll.toCounter - record.poll.fromCounter := by
  have hholds : ∃ shares, Shares (ringSys r ids) (countersLeft r) (Inv r ids) (fun _ => True) s shares :=
    Reach.holds (Inv.init cursor)
      (fun _ _ _ _ _ _ hI hlt hbegins => hI.begins hshared hlt hbegins) hs
  obtain ⟨shares, -, hI, -⟩ := hholds
  exact ⟨hI.polled.frame, hI.polled.order, hI.polled.counts⟩

instance (call : Call) (h : History) (mem : Mem Addr) :
    Decidable ((countersLeft r).begin call h mem) :=
  inferInstanceAs (Decidable (h.begun + call.frames r < counterSize))

instance (t : Nat) (call : Call) (place : Addr) (old new : Nat) (h : History) (mem : Mem Addr) :
    Decidable ((countersLeft r).write t call place old new h mem) :=
  inferInstanceAs (Decidable True)

theorem sampleKind_lt : 3 < 2 ^ 8 := by decide

theorem samplePayload_lt : 8 < 2 ^ 32 := by decide

def RingSpec.sample : RingSpec where
  kind := 3
  capacity := 1
  payloadCapacity := 8
  topology := .perNode
  kind_lt := sampleKind_lt
  capacity_pos := Nat.one_pos
  capacity_pow := isPowerOfTwo_one
  payload_lt := samplePayload_lt

theorem cursor_exactly_once_sample : ∃ s : Config Addr Event Call History,
    s.hist.returned = [⟨NetIds.packed.make 3 0 0, 5, 1, [7]⟩] ∧
      (∀ frame ∈ s.hist.returned, s.hist.frames[NetIds.packed.counter frame.id]? = some frame) ∧
      (s.hist.returned.map fun frame => NetIds.packed.counter frame.id).Pairwise (· < ·) ∧
      ∀ record ∈ s.hist.polls, record.poll.fromCounter ≤ record.head →
        record.poll.toCounter = record.head ∧
          record.poll.frames.length + record.poll.loss.overwritten + record.poll.loss.unavailable =
            record.poll.toCounter - record.poll.fromCounter := by
  have hrun : ((countersLeft .sample).runs (ringSys .sample .packed) (ringStart 0)
      (.begin (.write 0 0 5 1 [7]) :: replicate 11 (.step 0) ++
        .begin (.poll 0) :: replicate 9 (.step 1))).any
      (fun s => s.hist.returned = [⟨NetIds.packed.make 3 0 0, 5, 1, [7]⟩]) = true := by
    decide +kernel
  obtain ⟨s, hs, hreturned⟩ := Reach.exists_of_runs _ hrun
  exact ⟨s, of_decide_eq_true hreturned, cursor_exactly_once .sample .packed 0 s (by decide) hs⟩

end OrbitRing
