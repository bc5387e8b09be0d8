import Orbit.Ring.Seqlock

/-! The writers of a ring: one at a time, each keeps the slots as readers rely on them. -/

namespace OrbitRing

open Orbit.Atomic Function
open List hiding Mem

variable {r : RingSpec} {ids : NetIds} {t : Nat} {call : Call} {α : Type}

abbrev RingSafe (r : RingSpec) (ids : NetIds) (t : Nat) (call : Call) (p : RingM α)
    (Q : α → Share → Prop) (m : Share) : Prop :=
  Safe (ringSys r ids) (countersLeft r) (Inv r ids) t call p Q m

section

variable {budget counter value node frameKind ver : Nat} {frame : Frame} {words : List (Addr × Nat)}
  {others : Share} {h : History} {mem : Mem Addr} {place : Addr} {payload : List UInt8}
  {f : Unit → RingM α} {Q : α → Share → Prop}

theorem slotOf_eq (r : RingSpec) (counter : Nat) :
    counter &&& (r.capacity - 1) = slotOf r counter := and_mask r.capacity_pow counter

theorem contentOf_guard (r : RingSpec) : (guard r).contentOf = none := by
  unfold guard
  split <;> rfl

theorem guard_ne_seq (r : RingSpec) (slot : Nat) : guard r ≠ .seq slot := by
  unfold guard
  split <;> rintro ⟨⟩

theorem guard_ne_head (r : RingSpec) : guard r ≠ .head := by
  unfold guard
  split <;> rintro ⟨⟩

theorem View.Le.of_eq {mem' : Mem Addr} (hseq : ∀ slot, mem' (.seq slot) = mem (.seq slot))
    (hhead : mem' .head = mem .head) : (viewOf h mem).Le (viewOf h mem') :=
  ⟨prefix_refl _, fun slot => Nat.le_of_eq (hseq slot).symm, Nat.le_of_eq hhead.symm, rfl⟩

theorem Inv.counter_lt (hI : Inv r ids (writes (budget + 1) (.between counter) + others) h mem) :
    counter < counterSize := by
  have hlength : h.frames.length = counter := hI.writing.2.2
  have hbudget : h.frames.length + (budget + 1 + others.1) = h.begun := hI.budget
  have hbegun := hI.begun_lt
  omega

theorem Inv.open (hI : Inv r ids (writes (budget + 1) (.between counter) + others) h mem)
    (hnode : node < 2 ^ 16) :
    Inv r ids (writes budget (.opened counter
        ⟨ids.make r.kind node counter, frameKind, ver, payload⟩ []) + others)
      { h with frames := h.frames ++ [⟨ids.make r.kind node counter, frameKind, ver, payload⟩] }
      (update mem (.seq (slotOf r counter)) (counter * 2 + 1)) := by
  obtain ⟨-, hguard, hlength⟩ := hI.writing
  have hlength : h.frames.length = counter := hlength
  have hcounter := hI.counter_lt
  refine hI.write (hI.slots.open hlength
    (ids.counter_make _ _ _ r.kind_lt hnode hcounter)
    (ids.kind_make _ _ _ r.kind_lt hnode hcounter)) ?_ ?_ ?_ ?_
  · rw [update_of_ne (guard_ne_seq r _)]
    exact hguard
  · refine ⟨?_, ?_, update_self _ _ _, fun x hx => (nomatch hx), fun x hx => (nomatch hx)⟩
    · rw [length_append, hlength, length_singleton]
    · rw [← hlength]
      exact getElem?_concat_length
  · refine ⟨prefix_append _ _, fun slot => ?_, ?_, rfl⟩
    · dsimp only [viewOf]
      by_cases hslot : Addr.seq slot = .seq (slotOf r counter)
      · rw [hslot, update_self]
        have := hI.slots.seq_le (slotOf r counter)
        omega
      · rw [update_of_ne hslot]
    · dsimp only [viewOf]
      rw [update_of_ne (by rintro ⟨⟩)]
  · rw [length_append, length_singleton]
    omega

theorem Inv.fill (hI : Inv r ids (writes budget (.opened counter frame words) + others) h mem)
    (hplace : place.contentOf = some (slotOf r counter)) (hne : ∀ x ∈ words, x.1 ≠ place) :
    Inv r ids (writes budget (.opened counter frame (words ++ [(place, value)])) + others) h
      (update mem place value) := by
  obtain ⟨-, hguard, hlength, hframe, hodd, hstored, hcontent⟩ := hI.writing
  have hseq : ∀ slot, update mem place value (.seq slot) = mem (.seq slot) := by
    intro slot
    refine update_of_ne ?_ _ _
    rintro rfl
    cases hplace
  have hhead : update mem place value .head = mem .head := by
    refine update_of_ne ?_ _ _
    rintro rfl
    cases hplace
  have hcontents : ∀ x ∈ words ++ [(place, value)], x.1.contentOf = some (slotOf r counter) := by
    intro x hx
    rcases mem_append.mp hx with hold | hnew
    · exact hcontent x hold
    · rw [mem_singleton.mp hnew]
      exact hplace
  refine hI.write (hI.slots.content hplace hodd) ?_
    ⟨hlength, hframe, ?_, hstored.append hne, hcontents⟩ (.of_eq hseq hhead) rfl
  · rw [update_of_ne fun heq => ?_]
    · exact hguard
    · rw [← heq, contentOf_guard] at hplace
      cases hplace
  · rw [hseq]
    exact hodd

theorem Inv.close
    (hI : Inv r ids (writes budget (.opened counter frame (contents (slotOf r counter) frame)) +
      others) h mem) :
    Inv r ids (writes budget (.between (counter + 1)) + others) h
      (update mem (.seq (slotOf r counter)) (counter * 2 + 1 + 1)) := by
  obtain ⟨-, hguard, hlength, hframe, hodd, hstored, -⟩ := hI.writing
  refine hI.write (hI.slots.close hlength hframe hstored) ?_ hlength ?_ rfl
  · rw [update_of_ne (guard_ne_seq r _)]
    exact hguard
  · refine ⟨prefix_refl _, fun slot => ?_, ?_, rfl⟩
    · dsimp only [viewOf]
      by_cases hslot : Addr.seq slot = .seq (slotOf r counter)
      · rw [hslot, update_self, hodd]
        exact Nat.le_succ _
      · rw [update_of_ne hslot]
    · dsimp only [viewOf]
      rw [update_of_ne (by rintro ⟨⟩)]

theorem safe_fill (hplace : place.contentOf = some (slotOf r counter))
    (hne : ∀ x ∈ words, x.1 ≠ place)
    (hf : RingSafe r ids t call (f ()) Q
      (writes budget (.opened counter frame (words ++ [(place, value)])))) :
    RingSafe r ids t call (store place value >>= f) Q
      (writes budget (.opened counter frame words)) :=
  Safe.store_bind fun _ _ _ hI _ => hf.goes (hI.fill hplace hne)

theorem bytesAt_take {slot i : Nat} {bytes : List UInt8} (hi : i < bytes.length) :
    bytesAt slot (bytes.take (i + 1)) =
      bytesAt slot (bytes.take i) ++ [(.byte slot i, bytes[i].toNat)] := by
  unfold bytesAt
  rw [take_succ_eq_append_getElem hi, zipIdx_append, map_append, length_take,
    Nat.min_eq_left (Nat.le_of_lt hi)]
  simp only [zipIdx_cons, zipIdx_nil, map_cons, map_nil, Nat.zero_add]

theorem byte_fresh {slot id ver len kind i : Nat} {fields : List (Addr × Nat)}
    {payload : List UInt8} (hfields : [] ++ [(Addr.id slot, id)] ++ [(Addr.ver slot, ver)] ++
      [(Addr.len slot, len)] ++ [(Addr.kind slot, kind)] = fields) :
    ∀ x ∈ fields ++ bytesAt slot (payload.take i), x.1 ≠ .byte slot i := by
  intro x hx
  rcases mem_append.mp hx with hfield | hbyte
  · subst hfields
    simp only [nil_append, cons_append, mem_cons, not_mem_nil, or_false] at hfield
    rcases hfield with rfl | rfl | rfl | rfl <;> rintro ⟨⟩
  · obtain ⟨j, hj, rfl⟩ := mem_bytesAt.mp hbyte
    rw [length_take] at hj
    rintro ⟨⟩
    omega

theorem safe_writeSlot (hnode : node < 2 ^ 16) (hpayload : payload.length < 2 ^ 32) :
    RingSafe r ids t call (writeSlot r ids node counter frameKind ver payload)
      (fun _ m' => counter < counterSize ∧ m' = writes budget (.between (counter + 1)))
      (writes (budget + 1) (.between counter)) := by
  unfold writeSlot
  dsimp only
  rw [slotOf_eq, Nat.mod_eq_of_lt hpayload]
  refine Safe.store_bind fun others h mem hI _ => Goes.mark_bind ?_
  have hcounter := hI.counter_lt
  refine Safe.goes ?_ (hI.open hnode)
  refine safe_fill rfl (by simp) (safe_fill rfl (by simp) (safe_fill rfl (by simp)
    (safe_fill rfl (by simp) ?_)))
  generalize hframe : (⟨ids.make r.kind node counter, frameKind, ver, payload⟩ : Frame) = frame
  generalize hfields : [] ++ [(Addr.id (slotOf r counter), ids.make r.kind node counter)] ++
    [(Addr.ver (slotOf r counter), ver)] ++ [(Addr.len (slotOf r counter), payload.length)] ++
    [(Addr.kind (slotOf r counter), frameKind)] = fields
  have hcopy : RingSafe r ids t call (copyIn (Addr.byte (slotOf r counter)) 0 payload)
      (fun _ m' => m' = writes budget
        (.opened counter frame (fields ++ bytesAt (slotOf r counter) payload)))
      (writes budget (.opened counter frame (fields ++ bytesAt (slotOf r counter) []))) := by
    refine Safe.copyIn 0 (fun done => writes budget
      (.opened counter frame (fields ++ bytesAt (slotOf r counter) done))) 0 (Nat.zero_le _)
      fun i hi others h mem hI => ?_
    rw [bytesAt_take hi, ← append_assoc, Nat.zero_add]
    exact hI.fill rfl (byte_fresh hfields)
  have hnil : fields ++ bytesAt (slotOf r counter) [] = fields := append_nil _
  rw [hnil] at hcopy
  refine .bind (hcopy.mono ?_)
  rintro _ _ rfl
  have hcontents : fields ++ bytesAt (slotOf r counter) payload =
      contents (slotOf r counter) frame := by
    subst hfields hframe
    rfl
  rw [hcontents]
  exact Safe.store_bind fun others h mem hI _ => ⟨_, hI.close, hcounter, rfl⟩

theorem safe_writeSlots (hnode : node < 2 ^ 16) {payloads : List (List UInt8)}
    (hpayloads : ∀ payload ∈ payloads, payload.length < 2 ^ 32) {total : Nat}
    (htotal : total = budget + payloads.length) :
    RingSafe r ids t call (writeSlots r ids node frameKind ver counter payloads)
      (fun result m' => result.length = payloads.length ∧
        m' = writes budget (.between (counter + payloads.length)))
      (writes total (.between counter)) := by
  subst htotal
  induction payloads generalizing counter with
  | nil => exact ⟨rfl, rfl⟩
  | cons payload rest ih =>
    rw [writeSlots, length_cons, ← Nat.add_assoc]
    refine .bind ((safe_writeSlot hnode (hpayloads payload mem_cons_self)).mono ?_)
    rintro id _ ⟨hcounter, rfl⟩
    have hlt : counter + 1 < 2 ^ 64 := by
      have hsize : counterSize < 2 ^ 64 := by decide
      omega
    rw [Nat.mod_eq_of_lt hlt]
    refine .bind ((ih fun p hp => hpayloads p (mem_cons_of_mem _ hp)).mono ?_)
    rintro result _ ⟨hlength, rfl⟩
    refine ⟨by rw [length_cons, hlength], ?_⟩
    rw [Nat.add_right_comm]

theorem Inv.other {m : Share} (hI : Inv r ids m h mem) (hplace : place.contentOf = none)
    (hseq : ∀ slot, place ≠ .seq slot) (hhead : place ≠ .head) {m' : Share} (hbudget : m'.1 = m.1)
    (hreaders : m'.2.2 = m.2.2)
    (hwriter : m'.2.1 = 0 ∧ mem .head = h.frames.length ∨
      ∃ w, m'.2.1 = {w} ∧ update mem place value (guard r) ≠ 0 ∧
        w.Ok r h.frames (update mem place value)) :
    Inv r ids m' h (update mem place value) := by
  have hheadEq : update mem place value .head = mem .head :=
    update_of_ne hhead.symm _ _
  refine hI.grow (hI.slots.outside hplace hseq hhead)
    (.of_eq (fun slot => update_of_ne (hseq slot).symm _ _) hheadEq)
    (congrArg _ hbudget) hreaders ?_
  rw [hheadEq]
  exact hwriter

theorem Inv.lock (hI : Inv r ids (plans budget + others) h mem) (hfree : mem (guard r) = 0) :
    Inv r ids (writes budget .ready + others) h (update mem (guard r) 1) := by
  have hhead : update mem (guard r) 1 .head = mem .head :=
    update_of_ne (guard_ne_head r).symm _ _
  rcases hI.writer with ⟨hnone, hready⟩ | ⟨w, -, hheld, -⟩
  · have hothers : others.2.1 = 0 := by
      have hsum : (0 : Multiset Writing) + others.2.1 = 0 := hnone
      rwa [zero_add] at hsum
    refine hI.other (contentOf_guard r) (guard_ne_seq r) (guard_ne_head r) rfl rfl
      (.inr ⟨.ready, ?_, ?_, ?_⟩)
    · have hwriter : (writes budget .ready + others).2.1 = {.ready} + others.2.1 := rfl
      rw [hwriter, hothers, add_zero]
    · rw [update_self]
      exact Nat.one_ne_zero
    · exact hhead.trans hready
  · exact absurd hfree hheld

theorem Inv.unlock (hI : Inv r ids (writes budget .ready + others) h mem) :
    Inv r ids (plans budget + others) h (update mem (guard r) 0) := by
  obtain ⟨hothers, -, hready⟩ := hI.writing
  refine hI.other (contentOf_guard r) (guard_ne_seq r) (guard_ne_head r) rfl rfl (.inl ⟨?_, hready⟩)
  have hwriter : (plans budget + others).2.1 = 0 + others.2.1 := rfl
  rw [hwriter, hothers, add_zero]

theorem Inv.mutex {m : Share} {process : Nat} (hI : Inv r ids m h mem)
    (hguard : guard r ≠ .writeLock process) :
    Inv r ids m h (update mem (.writeLock process) value) := by
  refine hI.other rfl (fun _ => by rintro ⟨⟩) (by rintro ⟨⟩) rfl rfl ?_
  rcases hI.writer with hnone | ⟨w, hone, hheld, hok⟩
  · exact .inl hnone
  · refine .inr ⟨w, hone, ?_, ?_⟩
    · rw [update_of_ne hguard]
      exact hheld
    · cases w with
      | ready => exact (update_of_ne (by rintro ⟨⟩) _ _).trans hok
      | between => exact hok
      | opened counter frame words =>
        obtain ⟨hlength, hframe, hodd, hstored, hcontent⟩ := hok
        refine ⟨hlength, hframe, (update_of_ne (by rintro ⟨⟩) _ _).trans hodd,
          hstored.update fun x hx hplace => ?_, hcontent⟩
        have hslot := hcontent x hx
        rw [hplace] at hslot
        cases hslot

theorem Inv.start (hI : Inv r ids (writes budget .ready + others) h mem) :
    Inv r ids (writes budget (.between (mem .head)) + others) h mem := by
  obtain ⟨-, hguard, hready⟩ := hI.writing
  have hready : mem .head = h.frames.length := hready
  exact hI.write hI.slots hguard hready.symm (.of_eq (fun _ => rfl) rfl) rfl

theorem Inv.publish (hI : Inv r ids (writes budget (.between counter) + others) h mem) :
    Inv r ids (writes budget .ready + others) h (update mem .head counter) := by
  obtain ⟨-, hguard, hlength⟩ := hI.writing
  have hlength : h.frames.length = counter := hlength
  refine hI.write (hI.slots.advance (Nat.le_of_eq hlength.symm)) ?_ ?_ ?_ rfl
  · rw [update_of_ne (guard_ne_head r)]
    exact hguard
  · exact (update_self _ _ _).trans hlength.symm
  · refine ⟨prefix_refl _, fun slot => ?_, ?_, rfl⟩
    · dsimp only [viewOf]
      rw [update_of_ne (by rintro ⟨⟩)]
    · dsimp only [viewOf]
      rw [update_self, ← hlength]
      exact hI.slots.head_le

theorem safe_lock (hf : RingSafe r ids t call (f ()) Q (writes budget .ready)) :
    RingSafe r ids t call (acquire (guard r) >>= f) Q (plans budget) :=
  fun _ _ _ hI hfree => hf.goes (hI.lock hfree)

theorem safe_unlock (hf : RingSafe r ids t call (f ()) Q (plans budget)) :
    RingSafe r ids t call (release (guard r) >>= f) Q (writes budget .ready) :=
  Safe.store_bind fun _ _ _ hI _ => hf.goes hI.unlock

theorem safe_locked {process : Nat} {body : RingM α} (hshared : r.topology ≠ .shared)
    (hprocess : r.topology = .perNode → process = 0)
    (hbody : RingSafe r ids t call body (fun _ m' => m' = writes 0 .ready) (writes budget .ready)) :
    RingSafe r ids t call (locked r process body) (fun _ m' => m' = plans 0) (plans budget) := by
  unfold locked
  cases htopology : r.topology with
  | shared => exact absurd htopology hshared
  | perNode =>
    have hlock : Addr.writeLock process = guard r := by
      unfold guard
      rw [htopology, hprocess htopology]
    dsimp only
    rw [hlock]
    refine safe_lock (.bind (hbody.mono ?_))
    rintro result _ rfl
    exact safe_unlock rfl
  | sharedOrdered =>
    have hlock : Addr.crossProcess = guard r := by
      unfold guard
      rw [htopology]
    have hmutex : guard r ≠ .writeLock process := by
      rw [← hlock]
      rintro ⟨⟩
    dsimp only
    rw [hlock]
    intro others h mem hI _
    refine Safe.goes ?_ (hI.mutex hmutex)
    refine safe_lock (.bind (hbody.mono ?_))
    rintro result _ rfl
    exact safe_unlock (Safe.store_bind fun _ _ _ hI _ => ⟨_, hI.mutex hmutex, rfl⟩)

theorem tooLong_false (h : tooLong r payload = false) : payload.length < 2 ^ 32 :=
  Nat.lt_of_le_of_lt (Nat.le_of_not_lt (of_decide_eq_false h)) r.payload_lt

theorem safe_write {process : Nat} (hshared : r.topology ≠ .shared)
    (hprocess : r.topology = .perNode → process = 0) (hnode : node < 2 ^ 16) :
    RingSafe r ids t call (write r ids process node frameKind ver payload)
      (fun _ m' => m' = plans 0) (plans (if tooLong r payload then 0 else 1)) := by
  unfold write
  by_cases hlong : tooLong r payload
  · rw [if_pos hlong, if_pos hlong]
    rfl
  rw [if_neg hlong, if_neg hlong, if_neg hshared]
  refine safe_locked hshared hprocess ?_
  refine Safe.load_bind fun others h mem hI => ?_
  refine Safe.goes ?_ hI.start
  refine .bind ((safe_writeSlot hnode (tooLong_false (Bool.eq_false_iff.mpr hlong))).mono ?_)
  rintro id _ ⟨hcounter, rfl⟩
  have hlt : mem .head + 1 < 2 ^ 64 := by
    have hsize : counterSize < 2 ^ 64 := by decide
    omega
  rw [Nat.mod_eq_of_lt hlt]
  exact Safe.store_bind fun _ _ _ hI _ => ⟨_, hI.publish, rfl⟩

theorem safe_writeBatch {process : Nat} {payloads : List (List UInt8)}
    (hshared : r.topology ≠ .shared) (hprocess : r.topology = .perNode → process = 0)
    (hnode : node < 2 ^ 16) :
    RingSafe r ids t call (writeBatch r ids process node frameKind ver payloads)
      (fun _ m' => m' = plans 0)
      (plans (if payloads.length > r.capacity ∨ payloads.any (tooLong r) then 0
        else payloads.length)) := by
  unfold writeBatch
  by_cases hmany : payloads.length > r.capacity
  · rw [if_pos hmany, if_pos (.inl hmany)]
    rfl
  by_cases hlong : payloads.any (tooLong r)
  · rw [if_neg hmany, if_pos hlong, if_pos (.inr hlong)]
    rfl
  rw [if_neg hmany, if_neg hlong, if_neg (not_or.mpr ⟨hmany, hlong⟩)]
  by_cases hempty : payloads.isEmpty
  · rw [if_pos hempty, List.isEmpty_iff.mp hempty]
    rfl
  rw [if_neg hempty, if_neg hshared]
  refine safe_locked hshared hprocess ?_
  refine Safe.load_bind fun others h mem hI => ?_
  refine Safe.goes ?_ hI.start
  have hpayloads : ∀ payload ∈ payloads, payload.length < 2 ^ 32 := fun payload hpayload =>
    tooLong_false (Bool.eq_false_iff.mpr fun h => hlong (any_eq_true.mpr ⟨payload, hpayload, h⟩))
  refine .bind ((safe_writeSlots hnode hpayloads (Nat.zero_add _).symm).mono ?_)
  rintro result _ ⟨hlength, rfl⟩
  rw [hlength]
  refine Safe.store_bind fun others h mem' hI _ => ⟨_, ?_, rfl⟩
  have hlt : mem .head + payloads.length < 2 ^ 64 := by
    have hend : h.frames.length = mem .head + payloads.length := hI.writing.2.2
    have hbudget : h.frames.length + (0 + others.1) = h.begun := hI.budget
    have hbegun := hI.begun_lt
    have hsize : counterSize < 2 ^ 64 := by decide
    omega
  rw [Nat.mod_eq_of_lt hlt]
  exact hI.publish

end

end OrbitRing
