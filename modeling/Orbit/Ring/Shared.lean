import Orbit.Ring.Polling

/-! A ring that all writers share.  A writer claims its counter from the head and then stores its
slot, and nothing but the sequence word of the slot stands between it and a writer that is a lap of
the ring away. -/

namespace OrbitRing.Shared

open Orbit.Atomic Function
open Multiset hiding Mem

section

variable (r : RingSpec) (ids : NetIds)

/-- The attempts of `read_lane_index_at`, up to a frame. -/
def readAttempts (slot : Nat) : Nat → RingM (Option Frame)
  | 0 => return none
  | attempts + 1 => do
    match ← readCommittedFrame r slot with
    | some frame => return some frame
    | none => readAttempts slot attempts

/-- `ShmRing::read`, on a ring of one lane. -/
def read (id : Nat) : RingM (Option Frame) :=
  if ids.kind id ≠ r.kind then return none
  else do
    let found ← readAttempts r (ids.counter id &&& (r.capacity - 1)) 3
    return found.filter fun frame => ids.counter frame.id = ids.counter id

def readHead : RingM (Option Frame) := do
  let head ← load .head
  if head = 0 then return none
  else readAttempts r ((head - 1) &&& (r.capacity - 1)) 3

def readAt (counter : Nat) : RingM (Option Frame) :=
  readAttempts r (counter &&& (r.capacity - 1)) 3

inductive Call where
  | write (node frameKind ver : Nat) (payload : List UInt8)
  | read (id : Nat)
  | readHead
  | readAt (counter : Nat)
  | readStateAt (counter : Nat)
  | pollRing (cursor : Nat)

/-- The frames of the writes that have opened a slot, and the frames that the reads have returned. -/
structure History where
  written : List Frame
  returned : List Frame

def record : Event → History → History
  | .opens frame, h => { h with written := h.written ++ [frame] }
  | .polled _ _ poll, h => { h with returned := h.returned ++ poll.frames }

def returns (frames : List Frame) : RingM Unit := mark (.polled 0 0 ⟨frames, ⟨0, 0⟩, 0, 0⟩)

def readFrames : RingRead → List Frame
  | .ready frame => [frame]
  | _ => []

def sharedSys : Sys Addr Event Call History where
  body
    | .write node frameKind ver payload => do
      let _ ← OrbitRing.write r ids 0 node frameKind ver payload
      return ()
    | .read id => do
      let found ← read r ids id
      returns found.toList
    | .readHead => do
      let found ← readHead r
      returns found.toList
    | .readAt counter => do
      let found ← readAt r counter
      returns found.toList
    | .readStateAt counter => do
      let found ← readLaneIndexStateAt r ids counter
      returns (readFrames found)
    | .pollRing cursor => do
      let polled ← poll r ids cursor
      mark (.polled polled.1 polled.2.1 polled.2.2)
  begins _ h := some h
  record _ _ := record

def sharedStart : Config Addr Event Call History := ⟨fun _ => 0, ⟨[], []⟩, []⟩

end

/-- A writer opens a slot while no other writes to it, and fewer than `2 ^ 63` counters are claimed. -/
def Apart : Addr → Nat → Nat → Prop
  | .seq _, old, new => new % 2 = 1 → old % 2 = 0
  | .head, _, new => new ≤ 2 ^ 63
  | _, _, _ => True

def apart : Discipline Addr Call History where
  begin _ _ _ := True
  write _ _ place old new _ _ := Apart place old new

/-- A call has claimed a counter, or is in the slot of one, some of whose words it has stored; or it
watches a slot and knows words that it holds as long as its sequence word stays; or it was given a
frame. -/
inductive Card where
  | claimed (counter : Nat)
  | inside (counter : Nat) (frame : Frame) (words : List (Addr × Nat))
  | watching (slot counter : Nat) (words : List (Addr × Nat))
  | found (frame : Frame)

abbrev Share := Multiset Card

def Card.counter : Card → Option Nat
  | claimed counter | inside counter _ _ => some counter
  | watching .. | found _ => none

def holders (m : Share) (counter : Nat) : Nat := m.countP fun card => card.counter = some counter

/-- Nobody writes under the counter, or will. -/
def Over (m : Share) (mem : Mem Addr) (counter : Nat) : Prop :=
  counter < mem .head ∧ holders m counter = 0

def Card.Ok (r : RingSpec) (m : Share) (h : History) (mem : Mem Addr) : Card → Prop
  | claimed counter => counter < mem .head
  | inside counter frame words => counter < mem .head ∧ frame ∈ h.written ∧
      mem (.seq (slotOf r counter)) = counter * 2 + 1 ∧ Stored words mem ∧
      ∀ x ∈ words, x.1.contentOf = some (slotOf r counter)
  | watching slot counter words => Over m mem counter ∧
      (mem (.seq slot) = counter * 2 + 2 → Stored words mem) ∧
      ∀ x ∈ words, x.1.contentOf = some slot
  | found frame => frame ∈ h.written

structure Inv (r : RingSpec) (m : Share) (h : History) (mem : Mem Addr) : Prop where
  head_le : mem .head ≤ 2 ^ 63
  once : ∀ counter, holders m counter ≤ 1
  cards : ∀ card ∈ m, card.Ok r m h mem
  /-- An even sequence word is that of a frame, whose writer is done. -/
  even : ∀ slot counter, mem (.seq slot) = counter * 2 + 2 →
    Over m mem counter ∧ ∃ frame ∈ h.written, Stored (contents slot frame) mem
  returned : ∀ frame ∈ h.returned, frame ∈ h.written

section

variable {r : RingSpec} {ids : NetIds} {m a a' others : Share} {h h' : History} {mem mem' : Mem Addr}
  {card : Card} {place : Addr} {slot counter value : Nat} {frame : Frame}
  {words : List (Addr × Nat)}

theorem holders_add (m m' : Share) (counter : Nat) :
    holders (m + m') counter = holders m counter + holders m' counter := countP_add ..

theorem holders_singleton (card : Card) (counter : Nat) :
    holders {card} counter = if card.counter = some counter then 1 else 0 := by
  unfold holders
  rw [← cons_zero, countP_cons, countP_zero, Nat.zero_add]

theorem holders_self (hcounter : card.counter = some counter) : holders {card} counter = 1 := by
  rw [holders_singleton, if_pos hcounter]

theorem holders_pos (hmem : card ∈ m) (hcounter : card.counter = some counter) :
    0 < holders m counter := countP_pos.mpr ⟨card, hmem, hcounter⟩

theorem holders_none (hnone : ∀ card ∈ m, card.counter = none) (counter : Nat) :
    holders m counter = 0 := by
  refine countP_eq_zero.mpr fun card hmem hcounter => ?_
  rw [hnone card hmem] at hcounter
  cases hcounter

theorem Card.Ok.mono (hok : card.Ok r m h mem)
    (hover : ∀ counter, Over m mem counter → Over a mem counter)
    (hwritten : ∀ frame ∈ h.written, frame ∈ h'.written) : card.Ok r a h' mem := by
  cases card with
  | claimed counter => exact hok
  | inside counter frame words => exact ⟨hok.1, hwritten _ hok.2.1, hok.2.2⟩
  | watching slot counter words => exact ⟨hover _ hok.1, hok.2⟩
  | found frame => exact hwritten _ hok

theorem Inv.swap (hI : Inv r (a + others) h mem) (hnone' : ∀ card ∈ a', card.counter = none)
    (hok : ∀ card ∈ a', card.Ok r (a' + others) h mem) : Inv r (a' + others) h mem := by
  have hover : ∀ counter, Over (a + others) mem counter → Over (a' + others) mem counter := by
    rintro counter ⟨hlt, hzero⟩
    refine ⟨hlt, ?_⟩
    rw [holders_add] at hzero ⊢
    rw [holders_none hnone']
    omega
  refine ⟨hI.head_le, fun counter => ?_, fun card hmem => ?_, fun slot counter heq => ?_,
    hI.returned⟩
  · have hone := hI.once counter
    rw [holders_add] at hone ⊢
    rw [holders_none hnone']
    omega
  · rcases mem_add.mp hmem with hmine | hother
    · exact hok card hmine
    · exact (hI.cards card (mem_add.mpr (.inr hother))).mono hover fun _ => id
  · obtain ⟨hdone, hframe⟩ := hI.even slot counter heq
    exact ⟨hover counter hdone, hframe⟩

theorem Inv.learn {card' : Card} (hI : Inv r ({card} + others) h mem)
    (hnone' : card'.counter = none)
    (hok : card.Ok r ({card} + others) h mem → card'.Ok r ({card} + others) h mem) :
    Inv r ({card'} + others) h mem := by
  refine hI.swap (fun c hmem => ?_) fun c hmem => ?_
  · rw [mem_singleton.mp hmem]
    exact hnone'
  · rw [mem_singleton.mp hmem]
    refine (hok (hI.cards card (mem_add.mpr (.inl (mem_singleton_self _))))).mono
      (fun counter hover => ⟨hover.1, ?_⟩) fun _ => id
    have hzero := hover.2
    rw [holders_add, holders_singleton] at hzero ⊢
    rw [hnone']
    rw [if_neg (by rintro ⟨⟩)]
    omega

def slotWith : Addr → Option Nat
  | .seq slot => some slot
  | place => place.contentOf

theorem slot_of_content (h : place.contentOf = some slot) : slotWith place = some slot := by
  cases place <;> first | exact h | cases h

theorem Stored.elsewhere {slot' : Nat} (h : Stored words mem) (hplace : slotWith place = some slot)
    (hwords : ∀ x ∈ words, x.1.contentOf = some slot') (hne : slot' ≠ slot) :
    Stored words (update mem place value) := by
  refine h.update fun x hx heq => hne ?_
  have hslot := slot_of_content (hwords x hx)
  rw [heq, hplace] at hslot
  exact (Option.some.inj hslot).symm

theorem Inv.write {value : Nat} (hI : Inv r ({card} + others) h mem)
    (hplace : slotWith place = some slot)
    (hle : ∀ counter, holders a' counter ≤ holders {card} counter)
    (hwritten : ∀ frame ∈ h.written, frame ∈ h'.written) (hreturned : h'.returned = h.returned)
    (halone : ∀ counter frame words, .inside counter frame words ∈ others →
      slotOf r counter ≠ slot)
    (hstale : ∀ counter, Over ({card} + others) mem counter →
      update mem place value (.seq slot) ≠ counter * 2 + 2)
    (hok : ∀ card' ∈ a', card'.Ok r (a' + others) h' (update mem place value))
    (heven : ∀ counter, update mem place value (.seq slot) = counter * 2 + 2 →
      Over (a' + others) mem counter ∧
        ∃ frame ∈ h'.written, Stored (contents slot frame) (update mem place value)) :
    Inv r (a' + others) h' (update mem place value) := by
  have hhead : update mem place value .head = mem .head := by
    refine update_of_ne ?_ _ _
    rintro rfl
    cases hplace
  have hseq : ∀ {slot'}, slot' ≠ slot →
      update mem place value (.seq slot') = mem (.seq slot') := by
    intro slot' hne
    refine update_of_ne ?_ _ _
    rintro rfl
    exact hne (Option.some.inj hplace)
  have hover : ∀ counter, Over ({card} + others) mem counter →
      Over (a' + others) (update mem place value) counter := by
    rintro counter ⟨hlt, hzero⟩
    rw [Over, hhead]
    refine ⟨hlt, ?_⟩
    have := hle counter
    rw [holders_add] at hzero ⊢
    omega
  refine ⟨?_, fun counter => ?_, fun card' hmem => ?_, fun slot' counter heq => ?_, ?_⟩
  · rw [hhead]
    exact hI.head_le
  · have hone := hI.once counter
    have := hle counter
    rw [holders_add] at hone ⊢
    omega
  · rcases mem_add.mp hmem with hmine | hother
    · exact hok card' hmine
    have hold := hI.cards card' (mem_add.mpr (.inr hother))
    cases card' with
    | claimed counter =>
      rw [Card.Ok, hhead]
      exact hold
    | inside counter frame words =>
      obtain ⟨hlt, hframe, hodd, hstored, hwords⟩ := hold
      have hne := halone counter frame words hother
      refine ⟨?_, hwritten _ hframe, ?_, Stored.elsewhere hstored hplace hwords hne, hwords⟩
      · rw [hhead]
        exact hlt
      · rw [hseq hne]
        exact hodd
    | watching slot' counter words =>
      obtain ⟨hdone, hstored, hwords⟩ := hold
      refine ⟨hover counter hdone, fun heq => ?_, hwords⟩
      by_cases hne : slot' = slot
      · subst hne
        exact absurd heq (hstale counter hdone)
      · rw [hseq hne] at heq
        exact Stored.elsewhere (hstored heq) hplace hwords hne
    | found frame => exact hwritten _ hold
  · by_cases hne : slot' = slot
    · subst hne
      obtain ⟨hdone, hframe⟩ := heven counter heq
      rw [Over, hhead]
      exact ⟨hdone, hframe⟩
    · rw [hseq hne] at heq
      obtain ⟨hdone, frame, hframe, hstored⟩ := hI.even slot' counter heq
      refine ⟨hover counter hdone, frame, hwritten _ hframe, ?_⟩
      exact Stored.elsewhere hstored hplace (fun x hx => contentOf_contents hx) hne
  · rw [hreturned]
    exact fun frame hmem => hwritten frame (hI.returned frame hmem)

theorem Inv.alone (hI : Inv r ({card} + others) h mem) (hcounter : card.counter = some counter)
    (hodd : mem (.seq slot) = counter * 2 + 1) {counter' : Nat} {frame' : Frame}
    {words' : List (Addr × Nat)} (hmem : .inside counter' frame' words' ∈ others) :
    slotOf r counter' ≠ slot := by
  rintro rfl
  obtain ⟨-, -, hodd', -⟩ := hI.cards _ (mem_add.mpr (.inr hmem))
  have heq : counter' = counter := by omega
  have hone := hI.once counter
  have hpos := holders_pos hmem (congrArg some heq)
  rw [holders_add, holders_self hcounter] at hone
  omega

theorem not_over {card : Card} (hcounter : card.counter = some counter) :
    ¬Over ({card} + others) mem counter := by
  rintro ⟨-, hzero⟩
  rw [holders_add, holders_self hcounter] at hzero
  omega

theorem Inv.claim (hI : Inv r others h mem) (hlt : mem .head + 1 ≤ 2 ^ 63) :
    Inv r ({.claimed (mem .head)} + others) h
      (update mem .head (mem .head + 1)) := by
  have hhead : update mem .head (mem .head + 1) .head = mem .head + 1 :=
    update_self _ _ _
  have hother : ∀ {place : Addr}, place ≠ .head →
      update mem .head (mem .head + 1) place = mem place := fun hne =>
    update_of_ne hne _ _
  have hstored : ∀ {words}, Stored words mem → (∀ x ∈ words, ∃ slot, x.1.contentOf = some slot) →
      Stored words (update mem .head (mem .head + 1)) := fun hwords hcontent =>
    hwords.update fun x hx heq => by
      obtain ⟨slot, hslot⟩ := hcontent x hx
      rw [heq] at hslot
      cases hslot
  have hfresh : holders others (mem .head) = 0 := by
    refine countP_eq_zero.mpr fun card hmem hcounter => ?_
    have hok := hI.cards card hmem
    cases card with
    | claimed counter =>
      cases hcounter
      exact absurd hok (Nat.lt_irrefl _)
    | inside counter frame words =>
      cases hcounter
      exact absurd hok.1 (Nat.lt_irrefl _)
    | watching | found => cases hcounter
  have hover : ∀ counter, Over others mem counter →
      Over ({.claimed (mem .head)} + others) (update mem .head (mem .head + 1))
        counter := by
    rintro counter ⟨hless, hzero⟩
    rw [Over, hhead, holders_add, holders_singleton, hzero, if_neg]
    · exact ⟨Nat.lt_succ_of_lt hless, rfl⟩
    · rintro ⟨⟩
      exact Nat.lt_irrefl _ hless
  refine ⟨?_, fun counter => ?_, fun card hmem => ?_, fun slot counter heq => ?_, hI.returned⟩
  · rw [hhead]
    exact hlt
  · rw [holders_add, holders_singleton]
    split
    · rename_i hcounter
      cases hcounter
      rw [hfresh]
    · rw [Nat.zero_add]
      exact hI.once counter
  · rcases mem_add.mp hmem with hmine | hmem
    · rw [mem_singleton.mp hmine, Card.Ok, hhead]
      exact Nat.lt_succ_self _
    have hold := hI.cards card hmem
    cases card with
    | claimed counter =>
      rw [Card.Ok, hhead]
      exact Nat.lt_succ_of_lt hold
    | inside counter frame words =>
      obtain ⟨hless, hframe, hodd, hwords, hcontent⟩ := hold
      refine ⟨?_, hframe, ?_, hstored hwords fun x hx => ⟨_, hcontent x hx⟩, hcontent⟩
      · rw [hhead]
        exact Nat.lt_succ_of_lt hless
      · rw [hother (by rintro ⟨⟩)]
        exact hodd
    | watching slot counter words =>
      obtain ⟨hdone, hwords, hcontent⟩ := hold
      refine ⟨hover counter hdone, fun heq => ?_, hcontent⟩
      rw [hother (by rintro ⟨⟩)] at heq
      exact hstored (hwords heq) fun x hx => ⟨_, hcontent x hx⟩
    | found frame => exact hold
  · rw [hother (by rintro ⟨⟩)] at heq
    obtain ⟨hdone, frame, hframe, hwords⟩ := hI.even slot counter heq
    exact ⟨hover counter hdone, frame, hframe,
      hstored hwords fun x hx => ⟨_, contentOf_contents hx⟩⟩

theorem Inv.open (hI : Inv r ({.claimed counter} + others) h mem)
    (heven : mem (.seq (slotOf r counter)) % 2 = 0) (frame : Frame) :
    Inv r ({.inside counter frame []} + others) { h with written := h.written ++ [frame] }
      (update mem (.seq (slotOf r counter)) (counter * 2 + 1)) := by
  have hself : update mem (.seq (slotOf r counter)) (counter * 2 + 1)
      (.seq (slotOf r counter)) = counter * 2 + 1 := update_self _ _ _
  have hlt : counter < mem .head :=
    hI.cards _ (mem_add.mpr (.inl (mem_singleton_self _)))
  refine hI.write rfl (fun counter' => ?_) (fun _ => List.mem_append_left _) rfl ?_ ?_ ?_ ?_
  · rw [holders_singleton, holders_singleton]
    exact Nat.le_refl _
  · rintro counter' frame' words' hmem heq
    obtain ⟨-, -, hodd, -⟩ := hI.cards _ (mem_add.mpr (.inr hmem))
    rw [heq] at hodd
    omega
  · intro counter' _
    rw [hself]
    omega
  · intro card hmem
    rw [mem_singleton.mp hmem]
    refine ⟨?_, List.mem_append_right _ List.mem_cons_self, hself,
      fun x hx => (List.not_mem_nil hx).elim, fun x hx => (List.not_mem_nil hx).elim⟩
    rw [update_of_ne (by rintro ⟨⟩)]
    exact hlt
  · intro counter' heq
    rw [hself] at heq
    omega

theorem Inv.fill (hI : Inv r ({.inside counter frame words} + others) h mem)
    (hplace : place.contentOf = some (slotOf r counter)) (hne : ∀ x ∈ words, x.1 ≠ place) :
    Inv r ({.inside counter frame (words ++ [(place, value)])} + others) h
      (update mem place value) := by
  obtain ⟨hlt, hframe, hodd, hstored, hcontent⟩ :=
    hI.cards _ (mem_add.mpr (.inl (mem_singleton_self _)))
  have hother : ∀ {place' : Addr}, place'.contentOf = none →
      update mem place value place' = mem place' := by
    intro place' hnone
    refine update_of_ne ?_ _ _
    rintro rfl
    rw [hnone] at hplace
    cases hplace
  have hself : update mem place value (.seq (slotOf r counter)) = counter * 2 + 1 := by
    rw [hother rfl]
    exact hodd
  refine hI.write (slot_of_content hplace) (fun counter' => ?_) (fun _ => id) rfl
    (fun _ _ _ => hI.alone rfl hodd) ?_ ?_ ?_
  · rw [holders_singleton, holders_singleton]
    exact Nat.le_refl _
  · intro counter' _
    rw [hself]
    omega
  · intro card hmem
    rw [mem_singleton.mp hmem]
    refine ⟨?_, hframe, hself, hstored.append hne, fun x hx => ?_⟩
    · rw [hother rfl]
      exact hlt
    · rcases List.mem_append.mp hx with hx | hx
      · exact hcontent x hx
      · rw [List.mem_singleton.mp hx]
        exact hplace
  · intro counter' heq
    rw [hself] at heq
    omega

theorem Inv.close
    (hI : Inv r ({.inside counter frame (contents (slotOf r counter) frame)} + others) h mem) :
    Inv r (0 + others) h
      (update mem (.seq (slotOf r counter)) (counter * 2 + 1 + 1)) := by
  obtain ⟨hlt, hframe, hodd, hstored, -⟩ :=
    hI.cards _ (mem_add.mpr (.inl (mem_singleton_self _)))
  have hself : update mem (.seq (slotOf r counter)) (counter * 2 + 1 + 1)
      (.seq (slotOf r counter)) = counter * 2 + 1 + 1 := update_self _ _ _
  refine hI.write rfl (fun counter' => Nat.zero_le _) (fun _ => id) rfl
    (fun _ _ _ => hI.alone rfl hodd) ?_ (fun card hmem => ?_) ?_
  · intro counter' hdone heq
    rw [hself] at heq
    have hsame : counter = counter' := by omega
    subst hsame
    exact not_over rfl hdone
  · cases notMem_zero card hmem
  · intro counter' heq
    rw [hself] at heq
    have hsame : counter' = counter := by omega
    subst hsame
    have hone := hI.once counter'
    rw [holders_add, holders_self rfl] at hone
    refine ⟨⟨hlt, ?_⟩, frame, hframe, hstored.update fun x hx heq => ?_⟩
    · rw [zero_add]
      omega
    · have hcontent := contentOf_contents hx
      rw [heq] at hcontent
      cases hcontent

end

abbrev SharedSafe (r : RingSpec) (ids : NetIds) (t : Nat) (call : Call) {α : Type} (p : RingM α)
    (Q : α → Share → Prop) (m : Share) : Prop :=
  Safe (sharedSys r ids) apart (Inv r) t call p Q m

variable {r : RingSpec} {ids : NetIds} {t : Nat} {call : Call} {α : Type} {f : Unit → RingM α}
  {Q : α → Share → Prop} {m others : Share} {h : History} {mem : Mem Addr} {place : Addr}
  {slot counter node frameKind ver value : Nat} {frame : Frame} {words : List (Addr × Nat)}
  {payload : List UInt8}

theorem safe_fill (hplace : place.contentOf = some (slotOf r counter))
    (hne : ∀ x ∈ words, x.1 ≠ place)
    (hf : SharedSafe r ids t call (f ()) Q
      {.inside counter frame (words ++ [(place, value)])}) :
    SharedSafe r ids t call (store place value >>= f) Q {.inside counter frame words} :=
  Safe.store_bind fun _ _ _ hI _ => hf.goes (hI.fill hplace hne)

theorem safe_writeSlot (hpayload : payload.length < 2 ^ 32) :
    SharedSafe r ids t call (writeSlot r ids node counter frameKind ver payload)
      (fun _ m' => m' = 0) {.claimed counter} := by
  unfold writeSlot
  dsimp only
  rw [slotOf_eq, Nat.mod_eq_of_lt hpayload]
  generalize hframe : (⟨ids.make r.kind node counter, frameKind, ver, payload⟩ : Frame) = frame
  refine Safe.store_bind fun others h mem hI hapart => Goes.mark_bind ?_
  refine Safe.goes ?_ (hI.open (hapart (by omega)) frame)
  refine safe_fill rfl (by simp) (safe_fill rfl (by simp) (safe_fill rfl (by simp)
    (safe_fill rfl (by simp) ?_)))
  generalize hfields : [] ++ [(Addr.id (slotOf r counter), ids.make r.kind node counter)] ++
    [(Addr.ver (slotOf r counter), ver)] ++ [(Addr.len (slotOf r counter), payload.length)] ++
    [(Addr.kind (slotOf r counter), frameKind)] = fields
  have hcopy : SharedSafe r ids t call (copyIn (Addr.byte (slotOf r counter)) 0 payload)
      (fun _ m' => m' = {.inside counter frame (fields ++ bytesAt (slotOf r counter) payload)})
      {.inside counter frame (fields ++ bytesAt (slotOf r counter) [])} := by
    refine Safe.copyIn (A := Addr) 0 (fun done => ({.inside counter frame
      (fields ++ bytesAt (slotOf r counter) done)} : Share)) 0 (Nat.zero_le _)
      fun i hi others h mem hI => ?_
    rw [bytesAt_take hi, ← List.append_assoc, Nat.zero_add]
    exact hI.fill rfl (byte_fresh hfields)
  have hnil : fields ++ bytesAt (slotOf r counter) [] = fields := List.append_nil _
  rw [hnil] at hcopy
  refine .bind (hcopy.mono ?_)
  rintro _ _ rfl
  have hcontents : fields ++ bytesAt (slotOf r counter) payload =
      contents (slotOf r counter) frame := by
    subst hfields hframe
    rfl
  rw [hcontents]
  exact Safe.store_bind fun others h mem hI _ => ⟨0, hI.close, rfl⟩

theorem safe_write (hshared : r.topology = .shared) :
    SharedSafe r ids t call (OrbitRing.write r ids 0 node frameKind ver payload)
      (fun _ m' => m' = 0) 0 := by
  have hfits := r.payload_lt
  unfold OrbitRing.write
  by_cases hlong : tooLong r payload = true
  · rw [if_pos hlong]
    exact rfl
  rw [if_neg hlong, if_pos hshared]
  refine Safe.fetchAdd_bind fun others h mem hI hbound => ?_
  rw [zero_add] at hI
  have hle := hI.head_le
  have hnext : (mem .head + 1) % 2 ^ 64 = mem .head + 1 := Nat.mod_eq_of_lt (by omega)
  rw [hnext] at hbound ⊢
  refine Safe.goes (.bind ((safe_writeSlot ?_).mono ?_)) (hI.claim hbound)
  · unfold tooLong at hlong
    simp only [gt_iff_lt, decide_eq_true_eq] at hlong
    omega
  · rintro id _ rfl
    exact rfl

/-- The share of a reader that was given the frames. -/
def Given (frames : List Frame) (m : Share) : Prop :=
  (∀ card ∈ m, card.counter = none) ∧ ∀ frame ∈ frames, .found frame ∈ m

theorem given_nil : Given [] 0 :=
  ⟨fun card hmem => (notMem_zero card hmem).elim, fun _ hmem => by cases hmem⟩

theorem given_found (frame : Frame) : Given [frame] {.found frame} := by
  refine ⟨fun card hmem => ?_, fun frame' hmem => ?_⟩
  · rw [mem_singleton.mp hmem]
    rfl
  · rw [List.mem_singleton.mp hmem]
    exact mem_singleton_self _

theorem Given.sublist {frames frames' : List Frame} (hm : Given frames m)
    (hsub : ∀ frame ∈ frames', frame ∈ frames) : Given frames' m :=
  ⟨hm.1, fun frame hmem => hm.2 frame (hsub frame hmem)⟩

theorem Given.append {frames frames' : List Frame} {m' : Share} (hm : Given frames m)
    (hm' : Given frames' m') : Given (frames ++ frames') (m' + m) := by
  refine ⟨fun card hmem => ?_, fun frame hmem => mem_add.mpr ?_⟩
  · rcases mem_add.mp hmem with hmem | hmem
    · exact hm'.1 card hmem
    · exact hm.1 card hmem
  · rcases List.mem_append.mp hmem with hmem | hmem
    · exact .inr (hm.2 frame hmem)
    · exact .inl (hm'.2 frame hmem)

theorem safe_skip {f : Nat → RingM α} (hf : ∀ value, SharedSafe r ids t call (f value) Q m) :
    SharedSafe r ids t call (load place >>= f) Q m :=
  Safe.load_bind fun _ _ mem hI => (hf (mem place)).goes hI

theorem safe_look {f : Nat → RingM α} (hplace : place.contentOf = some slot)
    (hf : ∀ value, SharedSafe r ids t call (f value) Q
      {.watching slot counter (words ++ [(place, value)])}) :
    SharedSafe r ids t call (load place >>= f) Q {.watching slot counter words} := by
  refine Safe.load_bind fun others h mem hI => (hf (mem place)).goes (hI.learn rfl ?_)
  rintro ⟨hdone, hstored, hcontent⟩
  refine ⟨hdone, fun heq x hx => ?_, fun x hx => ?_⟩
  · rcases List.mem_append.mp hx with hx | hx
    · exact hstored heq x hx
    · rw [List.mem_singleton.mp hx]
  · rcases List.mem_append.mp hx with hx | hx
    · exact hcontent x hx
    · rw [List.mem_singleton.mp hx]
      exact hplace

theorem bytesAt_concat (slot : Nat) (bytes : List UInt8) (byte : UInt8) :
    bytesAt slot (bytes ++ [byte]) = bytesAt slot bytes ++ [(.byte slot bytes.length, byte.toNat)] := by
  unfold bytesAt
  rw [List.zipIdx_append, List.map_append, Nat.zero_add]
  rfl

theorem safe_readBytes {len : Nat} (hlen : (.len slot, len) ∈ words) :
    SharedSafe r ids t call (copyOut (.byte slot) 0 len)
      (fun bytes m' => bytes.length = len ∧
        m' = {.watching slot counter (words ++ bytesAt slot bytes)})
      {.watching slot counter (words ++ bytesAt slot [])} := by
  have hcopy : SharedSafe r ids t call (copyOut (.byte slot) (0 + ([] : List UInt8).length) len)
      (fun bytes m' => ([] ++ bytes).length = len ∧ True ∧
        m' = {.watching slot counter (words ++ bytesAt slot ([] ++ bytes))})
      {.watching slot counter (words ++ bytesAt slot [])} := by
    refine Safe.copyOut (A := Addr) 0 (fun bytes => ({.watching slot counter
      (words ++ bytesAt slot bytes)} : Share)) (fun _ => True) ?_ len [] (Nat.zero_add _) trivial
    intro bytes others h mem hlt _ hI
    refine ⟨trivial, Inv.learn hI rfl ?_⟩
    rintro ⟨hdone, hstored, hcontent⟩
    rw [Nat.zero_add, bytesAt_concat, ← List.append_assoc]
    refine ⟨hdone, fun heq x hx => ?_, fun x hx => ?_⟩
    · rcases List.mem_append.mp hx with hx | hx
      · exact hstored heq x hx
      -- the word is a byte of the frame that the slot holds
      rw [List.mem_singleton.mp hx]
      obtain ⟨-, frame, -, hframe⟩ := hI.even slot counter heq
      have hsize : mem (.len slot) = frame.payload.length :=
        hframe (.len slot, frame.payload.length) (by simp [contents])
      have hread : mem (.len slot) = len :=
        hstored heq (.len slot, len) (List.mem_append_left _ hlen)
      have hbyte : mem (.byte slot bytes.length) =
          (frame.payload.getD bytes.length 0).toNat := hframe _ (byte_mem_contents (by omega))
      dsimp only
      rw [hbyte, UInt8.ofNat_toNat]
    · rcases List.mem_append.mp hx with hx | hx
      · exact hcontent x hx
      · rw [List.mem_singleton.mp hx]
        rfl
  exact hcopy.mono fun bytes m' hm => ⟨hm.1, hm.2.2⟩

theorem frame_eq {mem : Mem Addr} {id kind ver : Nat} {bytes : List UInt8}
    (hframe : Stored (contents slot frame) mem)
    (hread : Stored ([] ++ [(.id slot, id)] ++ [(.kind slot, kind)] ++ [(.ver slot, ver)] ++
      [(.len slot, bytes.length)] ++ bytesAt slot bytes) mem) :
    frame = ⟨id, kind, ver, bytes⟩ := by
  have hsame : ∀ (place : Addr) {value value'}, (place, value) ∈ contents slot frame →
      (place, value') ∈ ([] ++ [(.id slot, id)] ++ [(.kind slot, kind)] ++ [(.ver slot, ver)] ++
        [(.len slot, bytes.length)] ++ bytesAt slot bytes) → value = value' :=
    fun _ _ _ hx hy => (hframe _ hx).symm.trans (hread _ hy)
  obtain ⟨id', kind', ver', payload⟩ := frame
  have hlength : payload.length = bytes.length :=
    hsame (.len slot) (by simp [contents]) (by simp)
  have hpayload : payload = bytes := by
    refine List.ext_getElem hlength fun i hi hi' => UInt8.toNat_inj.mp ?_
    refine hsame (.byte slot i) (List.mem_append_right _ (mem_bytesAt.mpr ⟨i, hi, rfl⟩))
      (List.mem_append_right _ (mem_bytesAt.mpr ⟨i, hi', rfl⟩))
  have hid : id' = id := hsame (.id slot) (by simp [contents]) (by simp)
  have hkind : kind' = kind := hsame (.kind slot) (by simp [contents]) (by simp)
  have hver : ver' = ver := hsame (.ver slot) (by simp [contents]) (by simp)
  rw [hid, hkind, hver, hpayload]

theorem safe_readCommittedFrame :
    SharedSafe r ids t call (readCommittedFrame r slot)
      (fun result m' => Given result.toList m') 0 := by
  have hnone : ∀ {card : Card}, card.counter = none →
      SharedSafe r ids t call (pure none : RingM (Option Frame))
        (fun result m' => Given result.toList m') {card} := by
    refine fun hcounter => ⟨fun card' hmem => ?_, fun _ hmem => by cases hmem⟩
    rw [mem_singleton.mp hmem]
    exact hcounter
  unfold readCommittedFrame
  refine Safe.load_bind fun others h mem hI => ?_
  by_cases hzero : mem (.seq slot) = 0
  · rw [if_pos hzero]
    exact ⟨0, hI, given_nil⟩
  rw [if_neg hzero]
  by_cases hodd : mem (.seq slot) % 2 = 1
  · simp only [hodd, if_true]
    exact ⟨0, hI, given_nil⟩
  simp only [hodd, if_false]
  obtain ⟨counter, heven⟩ : ∃ counter, mem (.seq slot) = counter * 2 + 2 :=
    ⟨mem (.seq slot) / 2 - 1, by omega⟩
  have hwatch : Inv r ({.watching slot counter []} + others) h mem := by
    refine hI.swap (fun card hmem => ?_) fun card hmem => ?_
    · rw [mem_singleton.mp hmem]
      rfl
    · rw [mem_singleton.mp hmem]
      obtain ⟨⟨hlt, hdone⟩, -⟩ := hI.even slot counter heven
      refine ⟨⟨hlt, ?_⟩, fun _ x hx => (List.not_mem_nil hx).elim,
        fun x hx => (List.not_mem_nil hx).elim⟩
      rw [holders_add] at hdone ⊢
      rw [holders_singleton, if_neg (by rintro ⟨⟩)]
      omega
  rw [heven]
  refine Safe.goes ?_ hwatch
  refine safe_look rfl fun id => safe_look rfl fun kind => safe_look rfl fun ver =>
    safe_look rfl fun payloadLen => ?_
  by_cases hlong : payloadLen > r.payloadCapacity
  · simp only [hlong, if_true]
    exact hnone rfl
  simp only [hlong, if_false]
  generalize hfields : [] ++ [(Addr.id slot, id)] ++ [(Addr.kind slot, kind)] ++
    [(Addr.ver slot, ver)] ++ [(Addr.len slot, payloadLen)] = fields
  have hbytes : SharedSafe r ids t call (copyOut (.byte slot) 0 payloadLen) _
      {.watching slot counter (fields ++ bytesAt slot [])} := safe_readBytes (by
    subst hfields
    simp)
  have hnil : fields ++ bytesAt slot [] = fields := List.append_nil _
  rw [hnil] at hbytes
  refine .bind (hbytes.mono ?_)
  rintro payload _ ⟨hlength, rfl⟩
  refine Safe.load_bind fun others h mem hI => ?_
  by_cases hseq : counter * 2 + 2 ≠ mem (.seq slot)
  · rw [if_pos hseq]
    exact (hnone rfl).goes hI
  rw [if_neg hseq]
  refine Safe.goes (p := Prog.ret _) (given_found _) (hI.learn rfl ?_)
  rintro ⟨-, hstored, -⟩
  have hstored := hstored (not_not.mp hseq).symm
  obtain ⟨-, frame, hmem, hframe⟩ := hI.even slot counter (not_not.mp hseq).symm
  subst hfields hlength
  rw [Card.Ok, ← frame_eq hframe hstored]
  exact hmem

theorem safe_given {β : Type} {p : RingM β} {frames : β → List Frame} {before : List Frame}
    (hp : SharedSafe r ids t call p (fun result m' => Given (frames result) m') 0)
    (hm : Given before m) :
    SharedSafe r ids t call p (fun result m' => Given (before ++ frames result) m') m := by
  have hframe := hp.frame m
  rw [zero_add] at hframe
  refine hframe.mono ?_
  rintro result _ ⟨m', hm', rfl⟩
  exact hm.append hm'

theorem safe_readAttempts (attempts : Nat) :
    SharedSafe r ids t call (readAttempts r slot attempts)
      (fun result m' => Given result.toList m') 0 := by
  induction attempts with
  | zero => exact given_nil
  | succ attempts ih =>
    unfold readAttempts
    refine .bind (safe_readCommittedFrame.mono ?_)
    rintro (_ | frame) m' hm
    · exact safe_given ih hm
    · exact hm

theorem safe_read (id : Nat) :
    SharedSafe r ids t call (read r ids id) (fun result m' => Given result.toList m') 0 := by
  unfold read
  by_cases hkind : ids.kind id ≠ r.kind
  · rw [if_pos hkind]
    exact given_nil
  rw [if_neg hkind]
  refine .bind ((safe_readAttempts 3).mono fun found m' hm => hm.sublist fun frame hmem => ?_)
  exact Option.mem_toList.mpr (Option.filter_eq_some_iff.mp (Option.mem_toList.mp hmem)).1

theorem safe_readHead :
    SharedSafe r ids t call (readHead r) (fun result m' => Given result.toList m') 0 := by
  unfold readHead
  refine safe_skip fun head => ?_
  split
  · exact given_nil
  · exact safe_readAttempts 3

theorem safe_stateAttempts (attempts : Nat) :
    SharedSafe r ids t call (OrbitRing.readAttempts r ids slot counter attempts)
      (fun result m' => Given (readFrames result) m') 0 := by
  have hnone : readFrames (notCommitted r) = [] := by
    unfold notCommitted
    split <;> rfl
  induction attempts with
  | zero =>
    unfold OrbitRing.readAttempts
    refine safe_skip fun sequence => ?_
    split
    · exact given_nil.sublist (by rw [hnone]; exact fun _ => id)
    · exact given_nil
  | succ attempts ih =>
    unfold OrbitRing.readAttempts
    refine safe_skip fun sequence => ?_
    split
    · exact given_nil.sublist (by rw [hnone]; exact fun _ => id)
    split
    · exact given_nil
    refine .bind (safe_readCommittedFrame.mono ?_)
    rintro (_ | frame) m' hm
    · exact safe_given ih hm
    · refine Given.sublist hm ?_
      split
      · exact fun _ => id
      · exact fun _ hmem => by cases hmem

theorem safe_readFrom {n next : Nat} :
    SharedSafe r ids t call (readFrom r ids n next)
      (fun result m' => Given (result.flatMap readFrames) m') 0 := by
  induction n generalizing next with
  | zero => exact given_nil
  | succ n ih =>
    unfold readFrom
    refine .bind ((safe_stateAttempts 3).mono ?_)
    intro read m' hm
    split
    · exact hm.sublist (by simp)
    · refine .bind ((safe_given ih hm).mono ?_)
      intro rest m'' hm'
      exact hm'

theorem safe_poll (cursor : Nat) :
    SharedSafe r ids t call (poll r ids cursor)
      (fun result m' => Given result.2.2.frames m') 0 := by
  unfold poll
  refine safe_skip fun head => ?_
  dsimp only
  refine .bind (safe_readFrom.mono ?_)
  intro reads m' hm
  refine hm.sublist fun frame hmem => ?_
  obtain ⟨counters, -, -, hframes⟩ := @pollRing_frames ids r.kind
    (fun c => reads.getD (c - max cursor (head - r.capacity)) .unavailable) head r.capacity cursor
  obtain ⟨i, hi, rfl⟩ := List.getElem_of_mem hmem
  obtain ⟨hlength, hget⟩ := List.forall₂_iff_get.mp hframes
  obtain ⟨hread, -⟩ := hget i (hlength ▸ hi) hi
  refine List.mem_flatMap.mpr ⟨.ready _, ?_, List.mem_singleton_self _⟩
  rw [List.getD_eq_getElem?_getD] at hread
  obtain ⟨read, hsome, heq⟩ : ∃ read, reads[counters.get ⟨i, hlength ▸ hi⟩ -
      max cursor (head - r.capacity)]? = some read ∧ read = .ready _ := by
    cases hcase : reads[counters.get ⟨i, hlength ▸ hi⟩ - max cursor (head - r.capacity)]? with
    | none =>
      rw [hcase] at hread
      cases hread
    | some read =>
      rw [hcase] at hread
      exact ⟨read, rfl, hread⟩
  rw [heq] at hsome
  exact List.mem_of_getElem? hsome

theorem Inv.returns {frames : List Frame} (hI : Inv r (m + others) h mem) (hm : Given frames m) :
    Inv r (0 + others) { h with returned := h.returned ++ frames } mem := by
  have hframes : ∀ frame ∈ frames, frame ∈ h.written := fun frame hmem =>
    hI.cards _ (mem_add.mpr (.inl (hm.2 frame hmem)))
  have hdrop : Inv r (0 + others) h mem := hI.swap
    (fun card hmem => (notMem_zero card hmem).elim)
    fun card hmem => (notMem_zero card hmem).elim
  refine { hdrop with
    cards := fun card hmem => (hdrop.cards card hmem).mono (fun _ => id) fun _ => id
    returned := fun frame hmem => ?_ }
  rcases List.mem_append.mp hmem with hold | hnew
  · exact hI.returned frame hold
  · exact hframes frame hnew

theorem safe_returns {β : Type} {p : RingM β} {frames : β → List Frame} {event : β → Event}
    (hp : SharedSafe r ids t call p (fun result m' => Given (frames result) m') 0)
    (hevent : ∀ result h, record (event result) h =
      { h with returned := h.returned ++ frames result }) :
    SharedSafe r ids t call (p >>= fun result => mark (event result)) (fun _ m' => m' = 0) 0 := by
  refine .bind (hp.mono fun result m' hm others h mem hI => ?_)
  refine ⟨0, ?_, rfl⟩
  have hrecord : (sharedSys r ids).record t call (event result) h =
      { h with returned := h.returned ++ frames result } := hevent result h
  rw [hrecord]
  exact hI.returns hm

theorem safe_body (hshared : r.topology = .shared) (call : Call) :
    SharedSafe r ids t call ((sharedSys r ids).body call) (fun _ m' => m' = 0) 0 := by
  cases call with
  | write node frameKind ver payload =>
    refine .bind ((safe_write hshared).mono ?_)
    rintro _ _ rfl
    exact rfl
  | read id => exact safe_returns (safe_read id) fun _ _ => rfl
  | readHead => exact safe_returns safe_readHead fun _ _ => rfl
  | readAt counter => exact safe_returns (safe_readAttempts 3) fun _ _ => rfl
  | readStateAt counter => exact safe_returns (safe_stateAttempts 3) fun _ _ => rfl
  | pollRing cursor => exact safe_returns (safe_poll cursor) fun _ _ => rfl

theorem inv_start (r : RingSpec) : Inv r 0 ⟨[], []⟩ fun _ => 0 where
  head_le := Nat.zero_le _
  once _ := Nat.zero_le _
  cards card hmem := (notMem_zero card hmem).elim
  even slot counter heq := by cases heq
  returned frame hmem := by cases hmem

/-- Every frame that a read returns is one that a writer wrote, as long as no two writers are in one
slot. -/
theorem no_merged_frame (hshared : r.topology = .shared) {s : Config Addr Event Call History}
    (hs : Reach (sharedSys r ids) apart sharedStart s) :
    ∀ frame ∈ s.hist.returned, frame ∈ s.hist.written := by
  obtain ⟨shares, hshares⟩ : ∃ shares, Shares (sharedSys r ids) apart (Inv r) (· = 0) s shares :=
    hs.holds (inv_start r) fun t call h h' mem m hI _ hbegins => by
      cases hbegins
      exact ⟨0, by rwa [zero_add], safe_body hshared call⟩
  exact hshares.2.1.returned

instance (place : Addr) (old new : Nat) : Decidable (Apart place old new) :=
  match place with
  | .seq _ => inferInstanceAs (Decidable (new % 2 = 1 → old % 2 = 0))
  | .head => inferInstanceAs (Decidable (new ≤ 2 ^ 63))
  | .id _ | .ver _ | .len _ | .kind _ | .byte _ _ | .writeLock _ | .crossProcess =>
    inferInstanceAs (Decidable True)

instance (call : Call) (h : History) (mem : Mem Addr) : Decidable (apart.begin call h mem) :=
  inferInstanceAs (Decidable True)

instance (t : Nat) (call : Call) (place : Addr) (old new : Nat) (h : History) (mem : Mem Addr) :
    Decidable (apart.write t call place old new h mem) :=
  inferInstanceAs (Decidable (Apart place old new))

def oneSlotRing : RingSpec := { RingSpec.sample with topology := .shared }

/-- A writer stores the version of its frame after the writer of the next lap has stored its own, and
a read follows. -/
def lapped : List (Action Call) :=
  .begin (.write 1 1 10 []) :: .begin (.write 2 1 20 []) :: List.replicate 3 (.step 0) ++
    List.replicate 6 (.step 1) ++ .step 0 :: .step 1 :: .begin (.readAt 1) ::
    List.replicate 6 (.step 2)

def alternate : List (Action Call) :=
  .begin (.write 1 1 10 [5]) :: List.replicate 8 (.step 0) ++ .begin (.readStateAt 0) ::
    List.replicate 8 (.step 1) ++ .begin (.write 2 1 20 []) :: List.replicate 7 (.step 2) ++
    .begin (.readAt 1) :: List.replicate 6 (.step 3)

/-- The read returns the version of the one with the id of the other. -/
theorem merged_frame : ∃ s, Reach (sharedSys oneSlotRing .packed) .free sharedStart s ∧
    ∃ frame ∈ s.hist.returned, frame ∉ s.hist.written := by
  have hrun : (Discipline.runs .free (sharedSys oneSlotRing .packed) sharedStart lapped).any
      (fun s => s.hist.returned.any fun frame => decide (frame ∉ s.hist.written)) = true := by
    decide +kernel
  obtain ⟨s, hs, hreturned⟩ := Reach.exists_of_runs _ hrun
  obtain ⟨frame, hmem, hfresh⟩ := List.any_eq_true.mp hreturned
  exact ⟨s, hs, frame, hmem, of_decide_eq_true hfresh⟩

theorem no_merged_frame_sample : ∃ s, Reach (sharedSys oneSlotRing .packed) apart sharedStart s ∧
    s.hist.returned.length = 2 ∧ ∀ frame ∈ s.hist.returned, frame ∈ s.hist.written := by
  have hrun : (apart.runs (sharedSys oneSlotRing .packed) sharedStart alternate).any
      (fun s => s.hist.returned.length == 2) = true := by
    decide +kernel
  obtain ⟨s, hs, hreturned⟩ := Reach.exists_of_runs _ hrun
  exact ⟨s, hs, beq_iff_eq.mp hreturned, no_merged_frame rfl hs⟩

end OrbitRing.Shared
