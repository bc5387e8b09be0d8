import Orbit.Ring.Layout
import Mathlib.Algebra.Group.Prod
import Mathlib.Algebra.Order.Group.Multiset
import Mathlib.Tactic.Abel

/-! The slots of a ring under one writer at a time: what the words of a slot say while its sequence
word is even, and what a reader that found it even knows. -/

namespace OrbitRing

open Orbit.Atomic Function
open List hiding Mem

variable {r : RingSpec} {ids : NetIds}

/-- The words that hold the bytes of a payload. -/
def bytesAt (slot : Nat) (bytes : List UInt8) : List (Addr × Nat) :=
  bytes.zipIdx.map fun p => (.byte slot p.2, p.1.toNat)

def contents (slot : Nat) (frame : Frame) : List (Addr × Nat) :=
  [(.id slot, frame.id), (.ver slot, frame.ver), (.len slot, frame.payload.length),
    (.kind slot, frame.kind)] ++ bytesAt slot frame.payload

def Addr.contentOf : Addr → Option Nat
  | .id slot | .ver slot | .len slot | .kind slot | .byte slot _ => some slot
  | _ => none

def Stored (words : List (Addr × Nat)) (mem : Mem Addr) : Prop := ∀ x ∈ words, mem x.1 = x.2

/-- The frames written so far, and what the even slots hold. -/
structure Slots (r : RingSpec) (ids : NetIds) (frames : List Frame) (mem : Mem Addr) : Prop where
  framed : ∀ c frame, frames[c]? = some frame →
    ids.counter frame.id = c ∧ ids.kind frame.id = r.kind
  seq_le : ∀ slot, mem (.seq slot) ≤ 2 * frames.length
  even : ∀ slot c, mem (.seq slot) = c * 2 + 2 →
    ∃ frame, frames[c]? = some frame ∧ Stored (contents slot frame) mem
  head_le : mem .head ≤ frames.length

/-- What goes on growing while a reader reads. -/
structure View where
  frames : List Frame
  seq : Nat → Nat
  head : Nat
  returned : List Frame

structure View.Le (v v' : View) : Prop where
  frames : v.frames <+: v'.frames
  seq : ∀ slot, v.seq slot ≤ v'.seq slot
  head : v.head ≤ v'.head
  returned : v'.returned = v.returned

def viewOf (h : History) (mem : Mem Addr) : View where
  frames := h.frames
  seq slot := mem (.seq slot)
  head := mem .head
  returned := h.returned

/-- Knowledge that other calls do not take away. -/
structure Fact where
  holds : View → Prop
  mono : ∀ {v v' : View}, v.Le v' → holds v → holds v'

def Fact.any : Fact := ⟨fun _ => True, fun _ => id⟩

def Fact.and (F G : Fact) : Fact where
  holds v := F.holds v ∧ G.holds v
  mono hle h := ⟨F.mono hle h.1, G.mono hle h.2⟩

def Fact.frame (c : Nat) (frame : Frame) : Fact where
  holds v := v.frames[c]? = some frame
  mono hle h := by
    obtain ⟨rest, hrest⟩ := hle.frames
    rw [← hrest, getElem?_append_left (List.getElem?_eq_some_iff.mp h).1]
    exact h

/-- As long as the sequence word of the slot is the even one of the counter, the frame of the counter
satisfies `P`. -/
def Fact.snapshot (slot c : Nat) (P : Frame → Prop) : Fact where
  holds v := c * 2 + 2 ≤ v.seq slot ∧
    (v.seq slot = c * 2 + 2 → ∃ frame, v.frames[c]? = some frame ∧ P frame)
  mono {v v'} hle h := by
    refine ⟨Nat.le_trans h.1 (hle.seq slot), fun heq => ?_⟩
    have hseq : v.seq slot = c * 2 + 2 := by
      have := hle.seq slot
      have := h.1
      omega
    obtain ⟨frame, hframe, hP⟩ := h.2 hseq
    exact ⟨frame, (Fact.frame c frame).mono hle hframe, hP⟩

/-- Where the writer that holds the lock is: at the head, between two slots, or in the slot of a
counter, some of whose words it has stored. -/
inductive Writing where
  | ready
  | between (counter : Nat)
  | opened (counter : Nat) (frame : Frame) (words : List (Addr × Nat))

def slotOf (r : RingSpec) (counter : Nat) : Nat := counter % r.capacity

def Writing.Ok (r : RingSpec) (frames : List Frame) (mem : Mem Addr) : Writing → Prop
  | ready => mem .head = frames.length
  | between counter => frames.length = counter
  | opened counter frame words => frames.length = counter + 1 ∧ frames[counter]? = some frame ∧
      mem (.seq (slotOf r counter)) = counter * 2 + 1 ∧ Stored words mem ∧
      ∀ x ∈ words, x.1.contentOf = some (slotOf r counter)

/-- The frames that a call has yet to write, the writer, and the reader with its cursor and what it
knows. -/
abbrev Share := Nat × Multiset Writing × Multiset (Nat × Fact)

def writes (budget : Nat) (w : Writing) : Share := (budget, {w}, 0)
def plans (budget : Nat) : Share := (budget, 0, 0)
def reads (cursor : Nat) (F : Fact) : Share := (0, 0, {(cursor, F)})

def guard (r : RingSpec) : Addr :=
  match r.topology with
  | .sharedOrdered => .crossProcess
  | _ => .writeLock 0

/-- What the reader has been given. -/
structure Polled (ids : NetIds) (h : History) (head : Nat) : Prop where
  frame : ∀ frame ∈ h.returned, h.frames[ids.counter frame.id]? = some frame
  order : (h.returned.map fun frame => ids.counter frame.id).Pairwise (· < ·)
  before : ∀ frame ∈ h.returned, ids.counter frame.id < h.cursor ∧ ids.counter frame.id < head
  counts : ∀ record ∈ h.polls, record.poll.fromCounter ≤ record.head →
    record.poll.toCounter = record.head ∧
      record.poll.frames.length + record.poll.loss.overwritten + record.poll.loss.unavailable =
        record.poll.toCounter - record.poll.fromCounter

structure Inv (r : RingSpec) (ids : NetIds) (m : Share) (h : History) (mem : Mem Addr) : Prop where
  slots : Slots r ids h.frames mem
  budget : h.frames.length + m.1 = h.begun
  begun_lt : h.begun < counterSize
  writer : m.2.1 = 0 ∧ mem .head = h.frames.length ∨
    ∃ w, m.2.1 = {w} ∧ mem (guard r) ≠ 0 ∧ w.Ok r h.frames mem
  reader : m.2.2 = 0 ∧ h.polling = false ∨
    ∃ F, m.2.2 = {(h.cursor, F)} ∧ h.polling = true ∧ F.holds (viewOf h mem)
  polled : Polled ids h (mem .head)

section

variable {budget budget' : Nat} {w w' : Writing} {others : Share} {h : History} {mem mem' : Mem Addr}
  {frames : List Frame} {cursor : Nat} {F G : Fact}

theorem singleton_add_eq {α : Type} {a b : α} {s : Multiset α} (h : {a} + s = ({b} : Multiset α)) :
    s = 0 ∧ a = b := by
  have hcard := congrArg Multiset.card h
  rw [Multiset.card_add, Multiset.card_singleton, Multiset.card_singleton] at hcard
  have hs : s = 0 := Multiset.card_eq_zero.mp (by omega)
  rw [hs, add_zero] at h
  exact ⟨hs, Multiset.singleton_inj.mp h⟩

theorem Inv.writing (hI : Inv r ids (writes budget w + others) h mem) :
    others.2.1 = 0 ∧ mem (guard r) ≠ 0 ∧ w.Ok r h.frames mem := by
  rcases hI.writer with ⟨hnone, -⟩ | ⟨w', hone, hguard, hok⟩
  · have hcard := congrArg Multiset.card hnone
    simp [writes] at hcard
  · obtain ⟨hothers, rfl⟩ := singleton_add_eq (hone : {w} + others.2.1 = {w'})
    exact ⟨hothers, hguard, hok⟩

theorem Inv.reading (hI : Inv r ids (reads cursor F + others) h mem) :
    others.2.2 = 0 ∧ h.cursor = cursor ∧ h.polling = true ∧ F.holds (viewOf h mem) := by
  rcases hI.reader with ⟨hnone, -⟩ | ⟨G, hone, hpolling, hF⟩
  · have hcard := congrArg Multiset.card hnone
    simp [reads] at hcard
  · obtain ⟨hothers, heq⟩ := singleton_add_eq
      (hone : {(cursor, F)} + others.2.2 = {(h.cursor, G)})
    obtain ⟨hcursor, rfl⟩ := Prod.mk.inj heq
    exact ⟨hothers, hcursor.symm, hpolling, hF⟩

theorem Polled.mono {head head' : Nat} (hP : Polled ids h head) (hframes : h.frames <+: frames)
    (hhead : head ≤ head') : Polled ids { h with frames := frames } head' where
  frame frame hframe := by
    obtain ⟨rest, hrest⟩ := hframes
    have hold := hP.frame frame hframe
    dsimp only
    rw [← hrest, getElem?_append_left (List.getElem?_eq_some_iff.mp hold).1]
    exact hold
  order := hP.order
  before frame hframe :=
    ⟨(hP.before frame hframe).1, Nat.lt_of_lt_of_le (hP.before frame hframe).2 hhead⟩
  counts := hP.counts

theorem Inv.grow {m m' : Share} (hI : Inv r ids m h mem)
    (hslots : Slots r ids frames mem')
    (hview : (viewOf h mem).Le (viewOf { h with frames := frames } mem'))
    (hbudget : frames.length + m'.1 = h.frames.length + m.1) (hreaders : m'.2.2 = m.2.2)
    (hwriter : m'.2.1 = 0 ∧ mem' .head = frames.length ∨
      ∃ w, m'.2.1 = {w} ∧ mem' (guard r) ≠ 0 ∧ w.Ok r frames mem') :
    Inv r ids m' { h with frames := frames } mem' where
  slots := hslots
  budget := hbudget.trans hI.budget
  begun_lt := hI.begun_lt
  writer := hwriter
  reader := by
    rw [hreaders]
    rcases hI.reader with hnone | ⟨F, hone, hpolling, hF⟩
    · exact .inl hnone
    · exact .inr ⟨F, hone, hpolling, F.mono hview hF⟩
  polled := hI.polled.mono hview.frames hview.head

theorem Inv.write (hI : Inv r ids (writes budget w + others) h mem)
    (hslots : Slots r ids frames mem') (hguard : mem' (guard r) ≠ 0)
    (hok : w'.Ok r frames mem')
    (hview : (viewOf h mem).Le (viewOf { h with frames := frames } mem'))
    (hbudget : frames.length + budget' = h.frames.length + budget) :
    Inv r ids (writes budget' w' + others) { h with frames := frames } mem' := by
  refine hI.grow hslots hview ?_ rfl (.inr ⟨w', ?_, hguard, hok⟩)
  · have hb : (writes budget' w' + others).1 = budget' + others.1 := rfl
    have hb' : (writes budget w + others).1 = budget + others.1 := rfl
    omega
  · have hothers : (writes budget' w' + others).2.1 = {w'} + others.2.1 := rfl
    rw [hothers, hI.writing.1, add_zero]

theorem Inv.learn (hI : Inv r ids (reads cursor F + others) h mem)
    (hG : G.holds (viewOf h mem)) : Inv r ids (reads cursor G + others) h mem := by
  obtain ⟨hothers, rfl, hpolling, -⟩ := hI.reading
  refine { hI with reader := .inr ⟨G, ?_, hpolling, hG⟩ }
  have hreads : (reads h.cursor G + others).2.2 = {(h.cursor, G)} + others.2.2 := rfl
  rw [hreads, hothers, add_zero]

end

section

variable {slot slot' index c value : Nat} {frame : Frame} {frames : List Frame} {mem : Mem Addr}
  {words : List (Addr × Nat)} {place : Addr} {bytes : List UInt8}

theorem mem_bytesAt {x : Addr × Nat} :
    x ∈ bytesAt slot bytes ↔ ∃ i, ∃ hi : i < bytes.length, x = (.byte slot i, bytes[i].toNat) := by
  unfold bytesAt
  rw [mem_map]
  constructor
  · rintro ⟨⟨byte, i⟩, hmem, rfl⟩
    obtain ⟨hi, hbyte⟩ := List.getElem?_eq_some_iff.mp (mem_zipIdx_iff_getElem?.mp hmem)
    dsimp only at hi hbyte
    rw [← hbyte]
    exact ⟨i, hi, rfl⟩
  · rintro ⟨i, hi, rfl⟩
    exact ⟨(bytes[i], i), mem_zipIdx_iff_getElem?.mpr (getElem?_eq_getElem hi), rfl⟩

theorem contentOf_contents {x : Addr × Nat} (h : x ∈ contents slot frame) :
    x.1.contentOf = some slot := by
  rcases mem_append.mp h with hfields | hbytes
  · simp only [mem_cons, not_mem_nil, or_false] at hfields
    rcases hfields with rfl | rfl | rfl | rfl <;> rfl
  · obtain ⟨i, hi, rfl⟩ := mem_bytesAt.mp hbytes
    rfl

theorem Stored.update (h : Stored words mem) (hne : ∀ x ∈ words, x.1 ≠ place) :
    Stored words (Function.update mem place value) := by
  intro x hx
  rw [update_of_ne (hne x hx)]
  exact h x hx

theorem Stored.append (h : Stored words mem) (hne : ∀ x ∈ words, x.1 ≠ place) :
    Stored (words ++ [(place, value)]) (Function.update mem place value) := by
  intro x hx
  rcases mem_append.mp hx with hold | hnew
  · exact h.update hne x hold
  · rw [mem_singleton.mp hnew]
    exact update_self _ _ _

theorem Slots.outside (h : Slots r ids frames mem) (hplace : place.contentOf = none)
    (hseq : ∀ slot, place ≠ .seq slot) (hhead : place ≠ .head) :
    Slots r ids frames (Function.update mem place value) where
  framed := h.framed
  seq_le slot := by
    rw [update_of_ne (hseq slot).symm]
    exact h.seq_le slot
  even slot c heq := by
    rw [update_of_ne (hseq slot).symm] at heq
    obtain ⟨frame, hframe, hstored⟩ := h.even slot c heq
    refine ⟨frame, hframe, hstored.update fun x hx heq => ?_⟩
    have hcontent := contentOf_contents hx
    rw [heq, hplace] at hcontent
    cases hcontent
  head_le := by
    rw [update_of_ne hhead.symm]
    exact h.head_le

theorem Slots.content (h : Slots r ids frames mem) (hplace : place.contentOf = some slot)
    (hodd : mem (.seq slot) = c * 2 + 1) :
    Slots r ids frames (Function.update mem place value) := by
  have hseq : ∀ slot', Addr.seq slot' ≠ place := by
    rintro slot' rfl
    cases hplace
  have hhead : Addr.head ≠ place := by
    rintro rfl
    cases hplace
  refine ⟨h.framed, fun slot' => ?_, fun slot' c' heq => ?_, ?_⟩
  · rw [update_of_ne (hseq slot')]
    exact h.seq_le slot'
  · rw [update_of_ne (hseq slot')] at heq
    obtain ⟨frame, hframe, hstored⟩ := h.even slot' c' heq
    refine ⟨frame, hframe, hstored.update fun x hx hxplace => ?_⟩
    have hcontent := contentOf_contents hx
    rw [hxplace, hplace] at hcontent
    cases hcontent
    omega
  · rw [update_of_ne hhead]
    exact h.head_le

theorem Slots.open (h : Slots r ids frames mem) (hlength : frames.length = c)
    (hcounter : ids.counter frame.id = c) (hkind : ids.kind frame.id = r.kind) :
    Slots r ids (frames ++ [frame]) (Function.update mem (.seq slot) (c * 2 + 1)) := by
  have hprefix : ∀ {c' frame'}, frames[c']? = some frame' →
      (frames ++ [frame])[c']? = some frame' := fun hold => by
    rw [getElem?_append_left (List.getElem?_eq_some_iff.mp hold).1]
    exact hold
  refine ⟨fun c' frame' hframe => ?_, fun slot' => ?_, fun slot' c' heq => ?_, ?_⟩
  · by_cases hlt : c' < frames.length
    · rw [getElem?_append_left hlt] at hframe
      exact h.framed c' frame' hframe
    · have hbound := (List.getElem?_eq_some_iff.mp hframe).1
      rw [length_append, length_singleton] at hbound
      have hlast : c' = frames.length := by omega
      rw [hlast, getElem?_concat_length] at hframe
      cases hframe
      exact ⟨hcounter.trans (hlength.symm.trans hlast.symm), hkind⟩
  · rw [length_append, length_singleton]
    by_cases hslot : Addr.seq slot' = .seq slot
    · rw [hslot, update_self]
      omega
    · rw [update_of_ne hslot]
      have := h.seq_le slot'
      omega
  · by_cases hslot : Addr.seq slot' = .seq slot
    · rw [hslot, update_self] at heq
      omega
    · rw [update_of_ne hslot] at heq
      obtain ⟨frame', hframe, hstored⟩ := h.even slot' c' heq
      refine ⟨frame', hprefix hframe, hstored.update fun x hx hxplace => ?_⟩
      have hcontent := contentOf_contents hx
      rw [hxplace] at hcontent
      cases hcontent
  · rw [length_append, update_of_ne (by rintro ⟨⟩)]
    exact Nat.le_succ_of_le h.head_le

theorem Slots.close (h : Slots r ids frames mem) (hlength : frames.length = c + 1)
    (hframe : frames[c]? = some frame) (hstored : Stored (contents slot frame) mem) :
    Slots r ids frames (Function.update mem (.seq slot) (c * 2 + 1 + 1)) := by
  have hcontents : ∀ {slot' frame'}, Stored (contents slot' frame') mem →
      Stored (contents slot' frame') (Function.update mem (.seq slot) (c * 2 + 1 + 1)) :=
    fun hold => hold.update fun x hx hxplace => by
      have hcontent := contentOf_contents hx
      rw [hxplace] at hcontent
      cases hcontent
  refine ⟨h.framed, fun slot' => ?_, fun slot' c' heq => ?_, ?_⟩
  · by_cases hslot : Addr.seq slot' = .seq slot
    · rw [hslot, update_self]
      omega
    · rw [update_of_ne hslot]
      exact h.seq_le slot'
  · by_cases hslot : Addr.seq slot' = .seq slot
    · rw [hslot, update_self] at heq
      have hc : c' = c := by omega
      cases hslot
      rw [hc]
      exact ⟨frame, hframe, hcontents hstored⟩
    · rw [update_of_ne hslot] at heq
      obtain ⟨frame', hframe', hstored'⟩ := h.even slot' c' heq
      exact ⟨frame', hframe', hcontents hstored'⟩
  · rw [update_of_ne (by rintro ⟨⟩)]
    exact h.head_le

theorem Slots.advance (h : Slots r ids frames mem) (hvalue : value ≤ frames.length) :
    Slots r ids frames (Function.update mem .head value) where
  framed := h.framed
  seq_le slot := by
    rw [update_of_ne (by rintro ⟨⟩)]
    exact h.seq_le slot
  even slot c heq := by
    rw [update_of_ne (by rintro ⟨⟩)] at heq
    obtain ⟨frame, hframe, hstored⟩ := h.even slot c heq
    refine ⟨frame, hframe, hstored.update fun x hx hxplace => ?_⟩
    have hcontent := contentOf_contents hx
    rw [hxplace] at hcontent
    cases hcontent
  head_le := by
    rw [update_self]
    exact hvalue

end

end OrbitRing
