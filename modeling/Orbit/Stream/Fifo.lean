import Orbit.Stream.Bytes
import Mathlib.Algebra.Order.Group.Multiset
import Mathlib.Algebra.Group.Prod

/-! One direction of a stream is a queue of bytes: what the reader is given is what the writer
published, in order, whatever the sizes, the wrap points and the interleaving of the two ends. -/

namespace OrbitStream

open Orbit.Atomic Function
open List hiding Mem

variable {g : Geometry} {ends : Ends}

/-- What the words of the direction say of its history.  Positions are counts of bytes. -/
structure Ends.Words (ends : Ends) (g : Geometry) (h : ByteHistory) (mem : Mem Addr) : Prop where
  state : mem (.state ends.writer.index) = slotLive
  generation : mem (.generation ends.writer.index) = ends.writer.id.generation
  head : mem (.head ends.writer.index ends.writer.side) = h.accepted.length % 2 ^ 64
  tail : mem (.tail ends.writer.index ends.writer.side) = h.returned.length % 2 ^ 64
  finished : mem (.flags ends.writer.index ends.writer.side) &&& flagFin ≠ 0 ↔ h.finished = true
  returned : h.returned <+: h.accepted
  fits : h.accepted.length ≤ h.returned.length + g.bufferBytes
  ring : ∀ i (hi : i < h.accepted.length), h.returned.length ≤ i →
    mem (.byte ends.writer.index ends.writer.side (i % g.bufferBytes)) = (h.accepted[i]).toNat

/-- What the writer's call in progress knows: what it has published, how many bytes have been
accepted, how many more fit, and which of them it has copied. -/
structure WriterToken where
  start : Nat
  published : List UInt8
  count : Nat
  room : Nat
  copied : List UInt8
  unfinished : Bool

structure WriterToken.Ok (token : WriterToken) (ends : Ends) (g : Geometry) (h : ByteHistory)
    (mem : Mem Addr) : Prop where
  writing : h.writing = some token.start
  count : h.accepted.length = token.count
  start_le : token.start ≤ token.count
  published : h.accepted.drop token.start = token.published
  room : token.count + token.room ≤ h.returned.length + g.bufferBytes
  copied_le : token.copied.length ≤ token.room
  copied : ∀ i (hi : i < token.copied.length),
    mem (.byte ends.writer.index ends.writer.side ((token.count + i) % g.bufferBytes)) =
      (token.copied[i]).toNat
  unfinished : token.unfinished = true → h.finished = false

/-- What the reader's call in progress knows: what it has taken, how many bytes have been returned,
how many more there are at least, which of them it has copied, and how many there will ever be. -/
structure ReaderToken where
  start : Nat
  taken : List UInt8
  count : Nat
  available : Nat
  copied : List UInt8
  total : Option Nat

structure ReaderToken.Ok (token : ReaderToken) (h : ByteHistory) : Prop where
  reading : h.reading = some token.start
  count : h.returned.length = token.count
  start_le : token.start ≤ token.count
  taken : h.returned.drop token.start = token.taken
  available : token.count + token.available ≤ h.accepted.length
  copied_le : token.copied.length ≤ token.available
  copied : (h.accepted.drop token.count).take token.copied.length = token.copied
  total : ∀ n, token.total = some n → h.finished = true ∧ h.accepted.length = n

/-- What the result of a call says of the bytes it moved. -/
def Outcome.Sound : Outcome → Prop
  | .wrote buf (.ok n) published => n ≤ buf.length ∧ published = buf.take n
  | .wroteExact buf (.ok ()) published => published = buf
  | .read len (.ok bytes) taken atEnd =>
    taken = bytes ∧ bytes.length ≤ len ∧ (0 < len → bytes = [] → atEnd = true)
  | .readExact len (.ok bytes) taken => taken = bytes ∧ bytes.length = len
  | .wrote _ (.error _) moved | .wroteExact _ (.error _) moved | .read _ (.error _) moved _
  | .readExact _ (.error _) moved => moved = []

abbrev ByteShare := Multiset WriterToken × Multiset ReaderToken

def writes (token : WriterToken) : ByteShare := ({token}, 0)
def reads (token : ReaderToken) : ByteShare := (0, {token})

structure ByteInv (g : Geometry) (ends : Ends) (m : ByteShare) (h : ByteHistory) (mem : Mem Addr) :
    Prop where
  words : ends.Words g h mem
  writer_one : m.1.card ≤ 1
  reader_one : m.2.card ≤ 1
  writer : ∀ token ∈ m.1, token.Ok ends g h mem
  reader : ∀ token ∈ m.2, token.Ok h
  outcomes : ∀ outcome ∈ h.outcomes, outcome.Sound

section

variable {m : ByteShare} {h h' : ByteHistory} {mem mem' : Mem Addr} {w w' : WriterToken}
  {r r' : ReaderToken}

theorem Ends.Words.le (hw : ends.Words g h mem) : h.returned.length ≤ h.accepted.length :=
  hw.returned.length_le

theorem Ends.Words.returned_eq (hw : ends.Words g h mem) :
    h.returned = h.accepted.take h.returned.length :=
  prefix_iff_eq_take.mp hw.returned

theorem Ends.Words.queued (hw : ends.Words g h mem) :
    sub64 (h.accepted.length % 2 ^ 64) (h.returned.length % 2 ^ 64) =
      h.accepted.length - h.returned.length := by
  have := g.buffer_lt
  have := hw.fits
  exact sub64_count hw.le (by omega)

theorem ByteInv.writer_ok (hI : ByteInv g ends (writes w + m) h mem) : w.Ok ends g h mem :=
  hI.writer w (by simp [writes])

theorem ByteInv.reader_ok (hI : ByteInv g ends (reads r + m) h mem) : r.Ok h :=
  hI.reader r (by simp [reads])

theorem ByteInv.writer_alone (hI : ByteInv g ends (writes w + m) h mem) : m.1 = 0 := by
  have hone := hI.writer_one
  simp only [writes, Prod.fst_add, Multiset.card_add, Multiset.card_singleton] at hone
  exact Multiset.card_eq_zero.mp (by omega)

theorem ByteInv.reader_alone (hI : ByteInv g ends (reads r + m) h mem) : m.2 = 0 := by
  have hone := hI.reader_one
  simp only [reads, Prod.snd_add, Multiset.card_add, Multiset.card_singleton] at hone
  exact Multiset.card_eq_zero.mp (by omega)

theorem ByteInv.by_writer (hI : ByteInv g ends (writes w + m) h mem)
    (hwords : ends.Words g h' mem') (hw : w'.Ok ends g h' mem')
    (hreader : ∀ r : ReaderToken, r.Ok h → r.Ok h')
    (houtcomes : ∀ outcome ∈ h'.outcomes, outcome.Sound) :
    ByteInv g ends (writes w' + m) h' mem' where
  words := hwords
  writer_one := by simp [writes, hI.writer_alone]
  reader_one := by simpa [writes] using hI.reader_one
  writer token htoken := by
    simp only [writes, Prod.fst_add, hI.writer_alone, add_zero, Multiset.mem_singleton] at htoken
    exact htoken ▸ hw
  reader token htoken := hreader token (hI.reader token (by simpa [writes] using htoken))
  outcomes := houtcomes

theorem ByteInv.writer_learns (hI : ByteInv g ends (writes w + m) h mem)
    (hw : w'.Ok ends g h mem) : ByteInv g ends (writes w' + m) h mem :=
  hI.by_writer hI.words hw (fun _ hr => hr) hI.outcomes

theorem ByteInv.writer_done (hI : ByteInv g ends (writes w + m) h mem) {outcomes : List Outcome}
    (hsound : ∀ outcome ∈ outcomes, outcome.Sound) :
    ByteInv g ends (0 + m) (h.wrote outcomes) mem where
  words := ⟨hI.words.state, hI.words.generation, hI.words.head, hI.words.tail, hI.words.finished,
    hI.words.returned, hI.words.fits, hI.words.ring⟩
  writer_one := by simp [hI.writer_alone]
  reader_one := by simpa [writes] using hI.reader_one
  writer token htoken := by simp [hI.writer_alone] at htoken
  reader token htoken := by
    have hr := hI.reader token (by simpa [writes] using htoken)
    exact ⟨hr.reading, hr.count, hr.start_le, hr.taken, hr.available, hr.copied_le, hr.copied,
      hr.total⟩
  outcomes outcome hmem := by
    rcases mem_append.mp hmem with hnew | hold
    · exact hsound outcome hnew
    · exact hI.outcomes outcome hold

theorem ByteInv.by_reader (hI : ByteInv g ends (reads r + m) h mem)
    (hwords : ends.Words g h' mem') (hr : r'.Ok h')
    (hwriter : ∀ w : WriterToken, w.Ok ends g h mem → w.Ok ends g h' mem')
    (houtcomes : ∀ outcome ∈ h'.outcomes, outcome.Sound) :
    ByteInv g ends (reads r' + m) h' mem' where
  words := hwords
  writer_one := by simpa [reads] using hI.writer_one
  reader_one := by simp [reads, hI.reader_alone]
  writer token htoken := hwriter token (hI.writer token (by simpa [reads] using htoken))
  reader token htoken := by
    simp only [reads, Prod.snd_add, hI.reader_alone, add_zero, Multiset.mem_singleton] at htoken
    exact htoken ▸ hr
  outcomes := houtcomes

theorem ByteInv.reader_learns (hI : ByteInv g ends (reads r + m) h mem) (hr : r'.Ok h) :
    ByteInv g ends (reads r' + m) h mem :=
  hI.by_reader hI.words hr (fun _ hw => hw) hI.outcomes

theorem ByteInv.reader_done (hI : ByteInv g ends (reads r + m) h mem) {outcome : Outcome}
    (hsound : outcome.Sound) : ByteInv g ends (0 + m) (h.read outcome) mem where
  words := ⟨hI.words.state, hI.words.generation, hI.words.head, hI.words.tail, hI.words.finished,
    hI.words.returned, hI.words.fits, hI.words.ring⟩
  writer_one := by simpa [reads] using hI.writer_one
  reader_one := by simp [hI.reader_alone]
  writer token htoken := by
    have hw := hI.writer token (by simpa [reads] using htoken)
    exact ⟨hw.writing, hw.count, hw.start_le, hw.published, hw.room, hw.copied_le, hw.copied,
      hw.unfinished⟩
  reader token htoken := by simp [hI.reader_alone] at htoken
  outcomes o hmem := by
    rcases mem_cons.mp hmem with rfl | hold
    · exact hsound
    · exact hI.outcomes o hold

end

section

variable {t : Nat} {call : ByteCall} {m : ByteShare} {α : Type}

theorem safe_slot {handle : Handle} (hindex : handle.index = ends.writer.index)
    (hid : handle.id = ends.writer.id) :
    Safe (byteSys g ends) .free (ByteInv g ends) t call handle.slot
      (fun live m' => live = true ∧ m' = m) m := by
  unfold Handle.slot isGeneration
  rw [hindex, hid]
  refine Safe.load_bind fun others h mem hI => ?_
  rw [if_pos hI.words.state]
  refine Safe.goes (Safe.load_bind fun others h mem hI => ?_) hI
  exact ⟨m, hI, beq_iff_eq.mpr hI.words.generation, rfl⟩

theorem ByteInv.exactNeeded {h : ByteHistory} {mem : Mem Addr} (hI : ByteInv g ends m h mem)
    (index : Nat) (direction : Side) (value : Nat) :
    ByteInv g ends m h (update mem (.exactNeeded index direction) value) := by
  have hw := hI.words
  refine ⟨⟨?_, ?_, ?_, ?_, ?_, hw.returned, hw.fits, ?_⟩, hI.writer_one, hI.reader_one, ?_,
    hI.reader, hI.outcomes⟩
  · simpa using hw.state
  · simpa using hw.generation
  · simpa using hw.head
  · simpa using hw.tail
  · simpa using hw.finished
  · simpa using hw.ring
  · intro token htoken
    have ht := hI.writer token htoken
    exact ⟨ht.writing, ht.count, ht.start_le, ht.published, ht.room, ht.copied_le,
      by simpa using ht.copied, ht.unfinished⟩

theorem safe_clearExactWait (index : Nat) (direction : Side) :
    Safe (byteSys g ends) .free (ByteInv g ends) t call (clearExactWait index direction)
      (fun _ m' => m' = m) m := by
  unfold clearExactWait
  refine .bind (.load fun needed => ?_)
  split
  · intro others h mem hI _
    exact ⟨m, hI.exactNeeded index direction 0, rfl⟩
  · rfl

theorem safe_look {p : StreamM α} (hp : p.Quiet fun _ => False) :
    Safe (byteSys g ends) .free (ByteInv g ends) t call p (fun _ m' => m' = m) m :=
  .quiet hp (fun _ _ _ _ _ hno => hno.elim) fun _ => rfl

end

section

variable {t : Nat} {call : ByteCall} {w : WriterToken}

variable {m : ByteShare} {h : ByteHistory} {mem : Mem Addr}

theorem ByteInv.copy (byte : UInt8) (hI : ByteInv g ends (writes w + m) h mem)
    (hroom : w.copied.length < w.room) :
    ByteInv g ends (writes { w with copied := w.copied ++ [byte] } + m) h
      (update mem (.byte ends.writer.index ends.writer.side
        ((w.count + w.copied.length) % g.bufferBytes)) byte.toNat) := by
  have hw := hI.words
  have ht := hI.writer_ok
  have hcount := ht.count
  have hlimit := ht.room
  refine hI.by_writer ⟨?_, ?_, ?_, ?_, ?_, hw.returned, hw.fits, ?_⟩ ⟨ht.writing, ht.count,
    ht.start_le, ht.published, ht.room, ?_, ?_, ht.unfinished⟩ (fun _ hr => hr) hI.outcomes
  · simpa using hw.state
  · simpa using hw.generation
  · simpa using hw.head
  · simpa using hw.tail
  · simpa using hw.finished
  · -- the place is not that of a byte still in the ring
    intro i hi hle
    rw [update_of_ne, hw.ring i hi hle]
    intro heq
    simp only [Addr.byte.injEq, true_and] at heq
    exact place_ne (by omega) (by omega) heq.symm
  · rw [length_append, length_singleton]
    exact hroom
  · intro i hi
    rw [length_append, length_singleton] at hi
    rcases Nat.lt_or_ge i w.copied.length with hlt | hge
    · rw [update_of_ne, getElem_append_left hlt]
      · exact ht.copied i hlt
      · intro heq
        simp only [Addr.byte.injEq, true_and] at heq
        have := ht.copied_le
        have := hw.le
        exact place_ne (n := g.bufferBytes) (i := w.count + i) (j := w.count + w.copied.length)
          (by omega) (by omega) heq.symm
    · have hi' : i = w.copied.length := by omega
      subst hi'
      simp

theorem length_take_append {xs ys : List UInt8} {n : Nat} (hn : n ≤ xs.length) :
    (xs ++ ys).take n = xs.take n :=
  take_append_of_le_length hn

theorem ByteInv.publish (hI : ByteInv g ends (writes w + m) h mem) (hopen : w.unfinished = true) :
    ByteInv g ends (writes { w with
        published := w.published ++ w.copied, count := w.count + w.copied.length,
        room := w.room - w.copied.length, copied := [] } + m)
      { h with accepted := h.accepted ++ w.copied }
      (update mem (.head ends.writer.index ends.writer.side)
        (add64 (w.count % 2 ^ 64) w.copied.length)) := by
  have hw := hI.words
  have ht := hI.writer_ok
  have hcount := ht.count
  have hlimit := ht.room
  have hle := ht.copied_le
  have hstart := ht.start_le
  refine hI.by_writer ⟨?_, ?_, ?_, ?_, ?_, ?_, ?_, ?_⟩ ⟨ht.writing, ?_, ?_, ?_, ?_, ?_, ?_,
    ht.unfinished⟩ ?_ hI.outcomes
  · simpa using hw.state
  · simpa using hw.generation
  · rw [update_self, add64_count, length_append, hcount]
  · simpa using hw.tail
  · simpa using hw.finished
  · exact hw.returned.trans (prefix_append ..)
  · show (h.accepted ++ w.copied).length ≤ h.returned.length + g.bufferBytes
    rw [length_append]
    omega
  · intro i hi hge
    rw [update_of_ne (by simp)]
    rw [length_append] at hi
    rcases Nat.lt_or_ge i h.accepted.length with hlt | hge'
    · rw [getElem_append_left hlt]
      exact hw.ring i hlt hge
    · rw [getElem_append_right hge']
      have := ht.copied (i - h.accepted.length) (by omega)
      rwa [← hcount, Nat.add_sub_cancel' hge'] at this
  · rw [length_append, hcount]
  · exact Nat.le_trans hstart (Nat.le_add_right _ _)
  · show (h.accepted ++ w.copied).drop w.start = w.published ++ w.copied
    rw [drop_append_of_le_length (by omega), ht.published]
  · show w.count + w.copied.length + (w.room - w.copied.length) ≤ h.returned.length + g.bufferBytes
    omega
  · exact Nat.zero_le _
  · intro i hi
    exact absurd hi (Nat.not_lt_zero i)
  · intro r hr
    refine ⟨hr.reading, hr.count, hr.start_le, hr.taken, ?_, hr.copied_le, ?_, ?_⟩
    · rw [length_append]
      have := hr.available
      omega
    · have hav := hr.available
      have hcop := hr.copied_le
      rw [drop_append_of_le_length (by omega), length_take_append (by
        rw [length_drop]
        omega)]
      exact hr.copied
    · intro n hn
      have := (hr.total n hn).1
      rw [ht.unfinished hopen] at this
      cases this

theorem safe_publish {bytes : List UInt8} (hroom : bytes.length ≤ w.room)
    (hfits : bytes.length ≤ g.bufferBytes) (hcopied : w.copied = [])
    (hopen : w.unfinished = true) :
    Safe (byteSys g ends) .free (ByteInv g ends) t call
      (publish g ends.writer.index ends.writer.side (w.count % 2 ^ 64) bytes)
      (fun _ m' => m' = writes { w with
        published := w.published ++ bytes, count := w.count + bytes.length,
        room := w.room - bytes.length, copied := [] })
      (writes w) := by
  have hbuffer := g.buffer_lt
  unfold publish
  have hring : Safe (byteSys g ends) .free (ByteInv g ends) t call
      (ringIn (.byte ends.writer.index ends.writer.side) g.bufferBytes (w.count % 2 ^ 64) bytes)
      (fun _ m' => m' = writes { w with copied := bytes }) (writes { w with copied := [] }) := by
    refine Safe.ringIn g.buffer_pow (by omega) (fun done => writes { w with copied := done }) hfits
      fun i hi others h mem hI => ?_
    have hcopy := hI.copy bytes[i] (by
      show (bytes.take i).length < w.room
      rw [length_take]
      omega)
    rw [length_take, Nat.min_eq_left (by omega), take_append_getElem] at hcopy
    exact hcopy
  rw [← hcopied] at hring
  refine .bind (hring.mono ?_)
  rintro _ _ rfl
  refine Safe.store_bind fun others h mem hI _ => Goes.mark_bind ?_
  refine Safe.goes (.bind (.load fun _ => ?_)) (hI.publish hopen)
  rfl

def Idle (w : WriterToken) : Prop := w.published = [] ∧ w.copied = [] ∧ w.room = 0

theorem ByteInv.unfinished (hI : ByteInv g ends (writes w + m) h mem)
    (hflags : refusedBy (mem (.flags ends.writer.index ends.writer.side)) = none) :
    ByteInv g ends (writes { w with unfinished := true } + m) h mem := by
  have ht := hI.writer_ok
  refine hI.writer_learns ⟨ht.writing, ht.count, ht.start_le, ht.published, ht.room, ht.copied_le,
    ht.copied, fun _ => ?_⟩
  rw [← Bool.not_eq_true, ← hI.words.finished]
  unfold refusedBy at hflags
  split at hflags
  · cases hflags
  · split at hflags
    · cases hflags
    · assumption

theorem ByteInv.sees_room (hI : ByteInv g ends (writes w + m) h mem) (hcopied : w.copied = []) :
    ∃ room, g.bufferBytes - sub64 (w.count % 2 ^ 64)
        (mem (.tail ends.writer.index ends.writer.side)) = room ∧
      ByteInv g ends (writes { w with room := room } + m) h mem := by
  have ht := hI.writer_ok
  have hle := hI.words.le
  have hfits := hI.words.fits
  have hqueued := hI.words.queued
  refine ⟨_, rfl, hI.writer_learns ⟨ht.writing, ht.count, ht.start_le, ht.published, ?_, ?_, ?_,
    ht.unfinished⟩⟩
  · show w.count + (g.bufferBytes - _) ≤ _
    rw [hI.words.tail, ← ht.count, hqueued]
    omega
  · simp [hcopied]
  · simp [hcopied]

theorem safe_tryWrite (buf : List UInt8) (hidle : Idle w) :
    Safe (byteSys g ends) .free (ByteInv g ends) t call (ends.writer.tryWrite g buf)
      (fun result m' => ∃ w', m' = writes w' ∧ (Outcome.wrote buf result w'.published).Sound)
      (writes w) := by
  obtain ⟨hpublished, hcopied, -⟩ := hidle
  unfold Handle.tryWrite
  refine .bind ((safe_slot rfl rfl).mono ?_)
  rintro _ _ ⟨rfl, rfl⟩
  rw [if_pos rfl]
  refine .bind ((safe_clearExactWait _ _).mono ?_)
  rintro _ _ rfl
  unfold writeBytes
  refine Safe.load_bind fun others h mem hI => ?_
  split
  next e _ => exact ⟨_, hI, w, rfl, hpublished⟩
  next hflags =>
    refine Safe.goes (Safe.load_bind fun others h mem hI => ?_) (hI.unfinished hflags)
    have hhead := hI.words.head
    rw [hI.writer_ok.count] at hhead
    rw [show mem (.head ends.writer.index ends.writer.side.writeDirection) = w.count % 2 ^ 64 from
      hhead]
    refine Safe.goes (Safe.load_bind fun others h mem hI => ?_) hI
    obtain ⟨room, hroom, hI'⟩ := hI.sees_room hcopied
    dsimp only
    rw [show g.bufferBytes - sub64 (w.count % 2 ^ 64)
      (mem (.tail ends.writer.index ends.writer.side.writeDirection)) = room from hroom]
    refine Safe.goes ?_ hI'
    split
    · exact ⟨_, rfl, Nat.zero_le _, by simpa using hpublished⟩
    split
    · exact ⟨_, rfl, hpublished⟩
    · have hlen : (buf.take (min buf.length room)).length = min buf.length room := by
        rw [length_take]
        omega
      have hle : room ≤ g.bufferBytes := hroom ▸ Nat.sub_le ..
      refine .bind (.mono (safe_publish (w := { w with unfinished := true, room := room }) ?_ ?_
        hcopied rfl) ?_)
      · rw [hlen]
        exact Nat.min_le_right ..
      · rw [hlen]
        omega
      rintro _ _ rfl
      refine ⟨_, rfl, Nat.min_le_left .., ?_⟩
      show w.published ++ _ = _
      rw [hpublished, nil_append]

theorem safe_tryWriteExact (buf : List UInt8) (hidle : Idle w) :
    Safe (byteSys g ends) .free (ByteInv g ends) t call (ends.writer.tryWriteExact g buf)
      (fun result m' => ∃ w', m' = writes w' ∧ (Outcome.wroteExact buf result w'.published).Sound)
      (writes w) := by
  obtain ⟨hpublished, hcopied, -⟩ := hidle
  unfold Handle.tryWriteExact
  refine .bind ((safe_slot rfl rfl).mono ?_)
  rintro _ _ ⟨rfl, rfl⟩
  rw [if_pos rfl]
  refine .bind ((safe_clearExactWait _ _).mono ?_)
  rintro _ _ rfl
  refine Safe.load_bind fun others h mem hI => ?_
  split
  next e _ => exact ⟨_, hI, w, rfl, hpublished⟩
  next hflags =>
    refine Safe.goes ?_ (hI.unfinished hflags)
    split
    · exact ⟨_, rfl, hpublished⟩
    next hfits =>
      split
      next hempty => exact ⟨_, rfl, by rw [hempty]; exact hpublished⟩
      next =>
        refine Safe.load_bind fun others h mem hI => ?_
        have hhead := hI.words.head
        rw [hI.writer_ok.count] at hhead
        rw [show mem (.head ends.writer.index ends.writer.side.writeDirection) =
          w.count % 2 ^ 64 from hhead]
        refine Safe.goes (Safe.load_bind fun others h mem hI => ?_) hI
        obtain ⟨room, hroom, hI'⟩ := hI.sees_room hcopied
        rw [show g.bufferBytes - sub64 (w.count % 2 ^ 64)
          (mem (.tail ends.writer.index ends.writer.side.writeDirection)) = room from hroom]
        refine Safe.goes ?_ hI'
        split
        · exact ⟨_, rfl, hpublished⟩
        next henough =>
          refine .bind (.mono (safe_publish (w := { w with unfinished := true, room := room })
            (Nat.not_lt.mp henough) (Nat.not_lt.mp hfits) hcopied rfl) ?_)
          rintro _ _ rfl
          refine ⟨_, rfl, ?_⟩
          show w.published ++ buf = buf
          rw [hpublished, nil_append]

theorem ByteInv.flag (hI : ByteInv g ends (writes w + m) h mem) (flag : Nat) {finished : Bool}
    (hflag : (mem (.flags ends.writer.index ends.writer.side) ||| flag) &&& flagFin ≠ 0 ↔
      finished = true) (hstays : h.finished = true → finished = true) :
    ByteInv g ends (writes { w with unfinished := false } + m) { h with finished := finished }
      (update mem (.flags ends.writer.index ends.writer.side)
        (mem (.flags ends.writer.index ends.writer.side) ||| flag)) := by
  have hw := hI.words
  have ht := hI.writer_ok
  refine hI.by_writer ⟨?_, ?_, ?_, ?_, ?_, hw.returned, hw.fits, ?_⟩ ⟨ht.writing, ht.count,
    ht.start_le, ht.published, ht.room, ht.copied_le, ?_, fun hopen => by cases hopen⟩ ?_
    hI.outcomes
  · simpa using hw.state
  · simpa using hw.generation
  · simpa using hw.head
  · simpa using hw.tail
  · rw [update_self]
    exact hflag
  · simpa using hw.ring
  · simpa using ht.copied
  · intro r hr
    exact ⟨hr.reading, hr.count, hr.start_le, hr.taken, hr.available, hr.copied_le, hr.copied,
      fun n hn => ⟨hstays (hr.total n hn).1, (hr.total n hn).2⟩⟩

theorem safe_setFlag {flag : Nat} (hcall : flag = flagFin ∧ call = .finish ∨
    flag = flagReset ∧ call = .reset) :
    Safe (byteSys g ends) .free (ByteInv g ends) t call (do
      let _ ← ends.writer.setFlag ends.writer.side.writeDirection flag
      mark .flagged : StreamM Unit) (fun _ _ => True) (writes w) := by
  unfold Handle.setFlag
  rw [bind_assoc]
  refine .bind ((safe_slot rfl rfl).mono ?_)
  rintro _ _ ⟨rfl, rfl⟩
  rw [if_pos rfl, bind_assoc]
  intro others h mem hI _
  have hstep : ∀ (before : Nat) (mem' : Mem Addr),
      ByteInv g ends (0 + others) ((recordBytes call .flagged h)) mem' →
      Goes (byteSys g ends) .free (ByteInv g ends) t call (do
        let _ ← (if before &&& flag = 0 then
            if flag ≠ flagReaderGone then return true
            else if before &&& flagCloseWatch ≠ 0 then return true
            else writerMayPark ends.writer.index ends.writer.side.writeDirection before
          else return false : StreamM Bool)
        mark .flagged) (fun _ _ => True) others h mem' := by
    intro before mem' hI'
    have hne : flag ≠ flagReaderGone := by
      rcases hcall with ⟨rfl, -⟩ | ⟨rfl, -⟩ <;> decide
    split
    · exact ⟨0, hI', trivial⟩
    · exact ⟨0, hI', trivial⟩
  refine hstep _ _ ?_
  rcases hcall with ⟨rfl, rfl⟩ | ⟨rfl, rfl⟩
  · have hflag : (mem (.flags ends.writer.index ends.writer.side) ||| flagFin) &&& flagFin ≠ 0 ↔
        true = true := by
      rw [Nat.and_or_distrib_right]
      simp [flagFin]
    exact (hI.flag flagFin hflag fun _ => rfl).writer_done (by simp)
  · have hflag : (mem (.flags ends.writer.index ends.writer.side) ||| flagReset) &&& flagFin ≠ 0 ↔
        h.finished = true := by
      rw [Nat.and_or_distrib_right]
      simpa [flagFin, flagReset] using hI.words.finished
    exact (hI.flag flagReset hflag id).writer_done (by simp)

end

section

variable {t : Nat} {call : ByteCall} {r : ReaderToken}

variable {m : ByteShare} {h : ByteHistory} {mem : Mem Addr}

theorem ByteInv.copied (hI : ByteInv g ends (reads r + m) h mem)
    (hmore : r.copied.length < r.available) :
    ByteInv g ends (reads { r with
        copied := r.copied ++ [UInt8.ofNat (mem (.byte ends.writer.index ends.writer.side
          ((r.count + r.copied.length) % g.bufferBytes)))] } + m) h mem := by
  have hr := hI.reader_ok
  have hav := hr.available
  have hlt : r.count + r.copied.length < h.accepted.length := by omega
  have hbyte := hI.words.ring (r.count + r.copied.length) hlt (by rw [hr.count]; omega)
  refine hI.reader_learns ⟨hr.reading, hr.count, hr.start_le, hr.taken, hr.available, ?_, ?_,
    hr.total⟩
  · rw [length_append, length_singleton]
    exact hmore
  · have hlt' : r.copied.length < (h.accepted.drop r.count).length := by
      rw [length_drop]
      omega
    rw [length_append, length_singleton, take_succ_eq_append_getElem hlt', hr.copied,
      getElem_drop, hbyte, UInt8.ofNat_toNat]

theorem ByteInv.take (hI : ByteInv g ends (reads r + m) h mem) :
    ByteInv g ends (reads { r with
        taken := r.taken ++ r.copied, count := r.count + r.copied.length,
        available := r.available - r.copied.length, copied := [] } + m)
      { h with returned := h.returned ++ r.copied }
      (update mem (.tail ends.writer.index ends.writer.side)
        (add64 (r.count % 2 ^ 64) r.copied.length)) := by
  have hw := hI.words
  have hr := hI.reader_ok
  have hcount := hr.count
  have hav := hr.available
  have hle := hr.copied_le
  have hstart := hr.start_le
  have hreturned : h.returned ++ r.copied = h.accepted.take (r.count + r.copied.length) := by
    have h1 := hw.returned_eq
    rw [hcount] at h1
    calc h.returned ++ r.copied
        = h.accepted.take r.count ++ (h.accepted.drop r.count).take r.copied.length := by
          rw [← h1, hr.copied]
      _ = h.accepted.take (r.count + r.copied.length) := take_add.symm
  refine hI.by_reader ⟨?_, ?_, ?_, ?_, ?_, ?_, ?_, ?_⟩ ⟨hr.reading, ?_, ?_, ?_, ?_, ?_, ?_, hr.total⟩
    ?_ hI.outcomes
  · simpa using hw.state
  · simpa using hw.generation
  · simpa using hw.head
  · rw [update_self, add64_count, length_append, hcount]
  · simpa using hw.finished
  · show h.returned ++ r.copied <+: h.accepted
    rw [hreturned]
    exact take_prefix ..
  · show h.accepted.length ≤ (h.returned ++ r.copied).length + g.bufferBytes
    have := hw.fits
    rw [length_append]
    omega
  · intro i hi hge
    rw [update_of_ne (by simp)]
    have hge' : (h.returned ++ r.copied).length ≤ i := hge
    rw [length_append] at hge'
    exact hw.ring i hi (by omega)
  · rw [length_append, hcount]
  · exact Nat.le_trans hstart (Nat.le_add_right _ _)
  · show (h.returned ++ r.copied).drop r.start = r.taken ++ r.copied
    rw [drop_append_of_le_length (by omega), hr.taken]
  · show r.count + r.copied.length + (r.available - r.copied.length) ≤ h.accepted.length
    omega
  · exact Nat.zero_le _
  · rfl
  · intro w hw'
    refine ⟨hw'.writing, hw'.count, hw'.start_le, hw'.published, ?_, hw'.copied_le, ?_,
      hw'.unfinished⟩
    · show w.count + w.room ≤ (h.returned ++ r.copied).length + g.bufferBytes
      have := hw'.room
      rw [length_append]
      omega
    · simpa using hw'.copied

theorem quiet_writerGainedCapacity (index : Nat) (direction : Side) (before after : Nat) :
    (writerGainedCapacity g index direction before after).Quiet fun _ => False := by
  unfold writerGainedCapacity
  refine .bind (quiet_load _) fun head => .bind (quiet_load _) fun needed => ?_
  split
  · exact .ret _
  · refine .bind (quiet_load _) fun flags => ?_
    split <;> exact .ret _

theorem safe_consume {len : Nat} (hlen : len ≤ r.available) (hfits : len ≤ g.bufferBytes)
    (hcopied : r.copied = []) :
    Safe (byteSys g ends) .free (ByteInv g ends) t call
      (consume g ends.writer.index ends.writer.side (r.count % 2 ^ 64) len)
      (fun result m' => result.1.length = len ∧ m' = reads { r with
        taken := r.taken ++ result.1, count := r.count + len,
        available := r.available - len, copied := [] })
      (reads r) := by
  have hbuffer := g.buffer_lt
  unfold consume
  have hring : Safe (byteSys g ends) .free (ByteInv g ends) t call
      (ringOut (.byte ends.writer.index ends.writer.side) g.bufferBytes (r.count % 2 ^ 64) len)
      (fun bytes m' => bytes.length = len ∧ True ∧ m' = reads { r with copied := bytes })
      (reads { r with copied := [] }) := by
    refine Safe.ringOut g.buffer_pow (by omega) (fun bytes => reads { r with copied := bytes })
      (fun _ => True) hfits trivial fun bytes others h mem hlt _ hI => ⟨trivial, ?_⟩
    exact hI.copied (Nat.lt_of_lt_of_le hlt hlen)
  rw [← hcopied] at hring
  refine .bind (hring.mono fun bytes m' hm => ?_)
  obtain ⟨hbytes, -, rfl⟩ := hm
  refine Safe.store_bind fun others h mem hI _ => Goes.mark_bind ?_
  have htake := hI.take
  rw [hbytes] at htake
  refine Safe.goes (.bind ((safe_look (quiet_writerGainedCapacity ..)).mono ?_)) htake
  rintro ring _ rfl
  exact ⟨hbytes, rfl⟩

theorem ByteInv.sees_flags (hI : ByteInv g ends (reads r + m) h mem) :
    ∃ total, (mem (.flags ends.writer.index ends.writer.side) &&& flagFin ≠ 0 →
        total = some h.accepted.length) ∧
      ByteInv g ends (reads { r with total := total } + m) h mem := by
  have hr := hI.reader_ok
  by_cases hfin : mem (.flags ends.writer.index ends.writer.side) &&& flagFin ≠ 0
  · refine ⟨some h.accepted.length, fun _ => rfl, hI.reader_learns ⟨hr.reading, hr.count,
      hr.start_le, hr.taken, hr.available, hr.copied_le, hr.copied, fun n hn => ?_⟩⟩
    exact ⟨hI.words.finished.mp hfin, Option.some.inj hn⟩
  · exact ⟨none, fun h => absurd h hfin, hI.reader_learns ⟨hr.reading, hr.count, hr.start_le,
      hr.taken, hr.available, hr.copied_le, hr.copied, fun n hn => by cases hn⟩⟩

theorem ByteInv.sees_head (hI : ByteInv g ends (reads r + m) h mem) (hcopied : r.copied = []) :
    ∃ available, available ≤ g.bufferBytes ∧
      sub64 (mem (.head ends.writer.index ends.writer.side)) (r.count % 2 ^ 64) = available ∧
      (∀ n, r.total = some n → n = r.count + available) ∧
      ByteInv g ends (reads { r with available := available } + m) h mem := by
  have hr := hI.reader_ok
  have hle := hI.words.le
  have hfits := hI.words.fits
  have hqueued := hI.words.queued
  have hcount := hr.count
  refine ⟨h.accepted.length - h.returned.length, by omega, ?_, fun n hn => ?_, hI.reader_learns
    ⟨hr.reading, hr.count, hr.start_le, hr.taken, ?_, ?_, ?_, hr.total⟩⟩
  · rw [hI.words.head, ← hr.count, hqueued]
  · have := (hr.total n hn).2
    omega
  · show r.count + (h.accepted.length - h.returned.length) ≤ h.accepted.length
    omega
  · simp [hcopied]
  · simp [hcopied]

def ReadEnds (len : Nat) (result : Except Error (List UInt8)) (m : ByteShare) : Prop :=
  ∃ r, m = reads r ∧ match result with
    | .ok bytes => r.taken = bytes ∧ bytes.length ≤ len ∧
      (0 < len → bytes = [] → r.total = some r.count)
    | .error _ => r.taken = []

theorem safe_tryRead (len : Nat) (htaken : r.taken = []) (hcopied : r.copied = []) :
    Safe (byteSys g ends) .free (ByteInv g ends) t call (ends.reader.tryRead g len)
      (ReadEnds len) (reads r) := by
  have hdirection : ends.reader.side.readDirection = ends.writer.side := by
    rw [ends.side_eq, Side.readDirection, Side.other_other]
  unfold Handle.tryRead
  dsimp only
  rw [ends.index_eq, hdirection]
  refine .bind ((safe_slot ends.index_eq ends.id_eq).mono ?_)
  rintro _ _ ⟨rfl, rfl⟩
  rw [if_pos rfl]
  refine Safe.load_bind fun others h mem hI => ?_
  split
  · exact ⟨_, hI, r, rfl, htaken⟩
  obtain ⟨total, htotal, hI⟩ := hI.sees_flags
  have htotal' : mem (.flags ends.writer.index ends.writer.side) &&& flagFin ≠ 0 →
      total ≠ none := fun hfin => by rw [htotal hfin]; simp
  generalize mem (.flags ends.writer.index ends.writer.side) = flags at htotal'
  refine Safe.goes (Safe.load_bind fun others h mem hI => ?_) hI
  obtain ⟨available, hfits, havailable, hexact, hI⟩ := hI.sees_head hcopied
  refine Safe.goes (Safe.load_bind fun others h mem hI => ?_) hI
  have htail := hI.words.tail
  rw [hI.reader_ok.count] at htail
  rw [htail, havailable]
  refine Safe.goes ?_ hI
  split
  next hzero => exact ⟨_, rfl, htaken, Nat.zero_le _, fun hpos => absurd hzero (by omega)⟩
  split
  next hempty =>
    subst hempty
    split
    next hfin =>
      obtain ⟨n, hn⟩ := Option.ne_none_iff_exists'.mp (htotal' hfin)
      exact ⟨_, rfl, htaken, Nat.zero_le _, fun _ _ => by rw [hn, hexact n hn]; rfl⟩
    next => exact ⟨_, rfl, htaken⟩
  next hsome =>
    refine .bind (.mono (safe_consume (r := { r with total := total, available := available })
      (Nat.min_le_right ..) ?_ hcopied) fun result m' hm => ?_)
    · omega
    obtain ⟨hlen, rfl⟩ := hm
    refine ⟨_, rfl, ?_, ?_, fun hpos hnil => ?_⟩
    · show r.taken ++ result.1 = result.1
      rw [htaken, nil_append]
    · omega
    · rw [hnil] at hlen
      simp at hlen
      omega

theorem safe_tryReadExact (len : Nat) (htaken : r.taken = []) (hcopied : r.copied = []) :
    Safe (byteSys g ends) .free (ByteInv g ends) t call (ends.reader.tryReadExact g len)
      (fun result m' => ∃ r, m' = reads r ∧ (Outcome.readExact len result r.taken).Sound)
      (reads r) := by
  have hdirection : ends.reader.side.readDirection = ends.writer.side := by
    rw [ends.side_eq, Side.readDirection, Side.other_other]
  unfold Handle.tryReadExact
  dsimp only
  rw [ends.index_eq, hdirection]
  refine .bind ((safe_slot ends.index_eq ends.id_eq).mono ?_)
  rintro _ _ ⟨rfl, rfl⟩
  rw [if_pos rfl]
  refine .bind (.load fun flags => ?_)
  split
  · exact ⟨r, rfl, htaken⟩
  split
  · exact ⟨r, rfl, htaken⟩
  next hfits =>
    split
    next hzero => exact ⟨r, rfl, htaken, by rw [hzero]; rfl⟩
    next =>
      refine Safe.load_bind fun others h mem hI => ?_
      obtain ⟨available, -, havailable, -, hI⟩ := hI.sees_head hcopied
      refine Safe.goes (Safe.load_bind fun others h mem hI => ?_) hI
      have htail := hI.words.tail
      rw [hI.reader_ok.count] at htail
      rw [htail, havailable]
      refine Safe.goes ?_ hI
      split
      · split
        · exact ⟨_, rfl, htaken⟩
        · exact ⟨_, rfl, htaken⟩
      next henough =>
        refine .bind (.mono (safe_consume (r := { r with available := available })
          (Nat.not_lt.mp henough) (Nat.not_lt.mp hfits) hcopied) fun result m' hm => ?_)
        obtain ⟨hlen, rfl⟩ := hm
        refine ⟨_, rfl, ?_, hlen⟩
        show r.taken ++ result.1 = result.1
        rw [htaken, nil_append]

end

variable {mem : Mem Addr}

theorem ByteInv.init (hfresh : ends.Fresh mem) :
    ByteInv g ends 0 .init mem where
  words := by
    refine ⟨hfresh.state, hfresh.generation, hfresh.head, hfresh.tail, ?_, nil_prefix, ?_, ?_⟩
    · rw [hfresh.flags]
      simp [ByteHistory.init]
    · exact Nat.zero_le _
    · intro i hi
      exact absurd hi (Nat.not_lt_zero i)
  writer_one := Nat.zero_le _
  reader_one := Nat.zero_le _
  writer token htoken := by simp at htoken
  reader token htoken := by simp at htoken
  outcomes := by simp [ByteHistory.init]

theorem ByteInv.write_begins {m : ByteShare} {h : ByteHistory} (hI : ByteInv g ends m h mem)
    (hidle : h.writing.isNone = true) :
    ∃ w, Idle w ∧ ByteInv g ends (writes w + m) { h with writing := some h.accepted.length } mem := by
  have hw := hI.words
  have hnone : m.1 = 0 := by
    rw [Multiset.eq_zero_iff_forall_notMem]
    intro token htoken
    rw [(hI.writer token htoken).writing] at hidle
    cases hidle
  refine ⟨⟨h.accepted.length, [], h.accepted.length, 0, [], false⟩, ⟨rfl, rfl, rfl⟩,
    ⟨hw.state, hw.generation, hw.head, hw.tail, hw.finished, hw.returned, hw.fits, hw.ring⟩, ?_, ?_,
    ?_, ?_, hI.outcomes⟩
  · simp [writes, hnone]
  · simpa [writes] using hI.reader_one
  · intro token htoken
    simp only [writes, Prod.fst_add, hnone, add_zero, Multiset.mem_singleton] at htoken
    subst htoken
    refine ⟨rfl, rfl, Nat.le_refl _, drop_length, hw.fits, Nat.le_refl _, ?_, fun h => by cases h⟩
    intro i hi
    exact absurd hi (Nat.not_lt_zero i)
  · intro token htoken
    have hr := hI.reader token (by simpa [writes] using htoken)
    exact ⟨hr.reading, hr.count, hr.start_le, hr.taken, hr.available, hr.copied_le, hr.copied,
      hr.total⟩

theorem ByteInv.read_begins {m : ByteShare} {h : ByteHistory} (hI : ByteInv g ends m h mem)
    (hidle : h.reading.isNone = true) :
    ∃ r : ReaderToken, r.taken = [] ∧ r.copied = [] ∧
      ByteInv g ends (reads r + m) { h with reading := some h.returned.length } mem := by
  have hw := hI.words
  have hnone : m.2 = 0 := by
    rw [Multiset.eq_zero_iff_forall_notMem]
    intro token htoken
    rw [(hI.reader token htoken).reading] at hidle
    cases hidle
  refine ⟨⟨h.returned.length, [], h.returned.length, 0, [], none⟩, rfl, rfl,
    ⟨hw.state, hw.generation, hw.head, hw.tail, hw.finished, hw.returned, hw.fits, hw.ring⟩, ?_, ?_,
    ?_, ?_, hI.outcomes⟩
  · simpa [reads] using hI.writer_one
  · simp [reads, hnone]
  · intro token htoken
    have ht := hI.writer token (by simpa [reads] using htoken)
    exact ⟨ht.writing, ht.count, ht.start_le, ht.published, ht.room, ht.copied_le, ht.copied,
      ht.unfinished⟩
  · intro token htoken
    simp only [reads, Prod.snd_add, hnone, add_zero, Multiset.mem_singleton] at htoken
    subst htoken
    exact ⟨rfl, rfl, Nat.le_refl _, drop_length, hw.le, Nat.le_refl _, rfl,
      fun n hn => by cases hn⟩

section

variable {m : ByteShare} {h : ByteHistory} {mem : Mem Addr} {w : WriterToken} {r : ReaderToken}

theorem ByteInv.published_eq (hI : ByteInv g ends (writes w + m) h mem) :
    h.published = w.published := by
  have ht := hI.writer_ok
  rw [ByteHistory.published, ht.writing]
  exact ht.published

theorem ByteInv.taken_eq (hI : ByteInv g ends (reads r + m) h mem) : h.taken = r.taken := by
  have hr := hI.reader_ok
  rw [ByteHistory.taken, hr.reading]
  exact hr.taken

theorem ByteInv.read_sound {len : Nat} {result : Except Error (List UInt8)}
    (hI : ByteInv g ends (reads r + m) h mem) (hends : ReadEnds len result (reads r)) :
    (Outcome.read len result h.taken h.atEnd).Sound := by
  obtain ⟨r', heq, hends⟩ := hends
  have hr : r = r' := by
    have := congrArg Prod.snd heq
    exact Multiset.singleton_inj.mp this
  subst hr
  rw [hI.taken_eq]
  cases result with
  | error => exact hends
  | ok bytes =>
    obtain ⟨htaken, hlen, hend⟩ := hends
    refine ⟨htaken, hlen, fun hpos hnil => ?_⟩
    obtain ⟨hfinished, htotal⟩ := hI.reader_ok.total _ (hend hpos hnil)
    simp [ByteHistory.atEnd, hfinished, htotal, hI.reader_ok.count]

end

theorem byteSys_inv (hfresh : ends.Fresh mem) {s : Config Addr Event ByteCall ByteHistory}
    (hs : Reach (byteSys g ends) .free ⟨mem, .init, []⟩ s) :
    ∃ m, ByteInv g ends m s.hist s.mem := by
  have hshares : ∃ shares, Shares (byteSys g ends) .free (ByteInv g ends) (fun _ => True) s shares := by
    refine Reach.holds (.init hfresh) ?_ hs
    intro t call h h' mem m hI _ hb
    simp only [byteSys, byteBegins] at hb
    split at hb
    next hwrites =>
      split at hb
      next hidle =>
        obtain rfl := Option.some.inj hb
        obtain ⟨w, hw, hbegun⟩ := hI.write_begins hidle
        refine ⟨writes w, hbegun, ?_⟩
        cases call with
        | tryWrite buf =>
          refine .bind ((safe_tryWrite buf hw).mono fun result m' hm => ?_)
          obtain ⟨w', rfl, hsound⟩ := hm
          intro others h mem hI
          rw [← hI.published_eq] at hsound
          exact ⟨0, hI.writer_done (by simpa using hsound), trivial⟩
        | tryWriteExact buf =>
          refine .bind ((safe_tryWriteExact buf hw).mono fun result m' hm => ?_)
          obtain ⟨w', rfl, hsound⟩ := hm
          intro others h mem hI
          rw [← hI.published_eq] at hsound
          exact ⟨0, hI.writer_done (by simpa using hsound), trivial⟩
        | finish => exact safe_setFlag (.inl ⟨rfl, rfl⟩)
        | reset => exact safe_setFlag (.inr ⟨rfl, rfl⟩)
        | tryRead | tryReadExact => cases hwrites
      next => cases hb
    next hreads =>
      split at hb
      next hidle =>
        obtain rfl := Option.some.inj hb
        obtain ⟨r, htaken, hcopied, hbegun⟩ := hI.read_begins hidle
        refine ⟨reads r, hbegun, ?_⟩
        cases call with
        | tryRead len =>
          refine .bind ((safe_tryRead len htaken hcopied).mono fun result m' hm => ?_)
          obtain ⟨r', rfl, hends⟩ := hm
          intro others h mem hI
          exact ⟨0, hI.reader_done (hI.read_sound ⟨r', rfl, hends⟩), trivial⟩
        | tryReadExact len =>
          refine .bind ((safe_tryReadExact len htaken hcopied).mono fun result m' hm => ?_)
          obtain ⟨r', rfl, hsound⟩ := hm
          intro others h mem hI
          rw [← hI.taken_eq] at hsound
          exact ⟨0, hI.reader_done hsound, trivial⟩
        | tryWrite | tryWriteExact | finish | reset => exact absurd rfl hreads
      next => cases hb
  obtain ⟨shares, -, hI, -⟩ := hshares
  exact ⟨_, hI⟩

/-- In every state that one writer and one reader of a direction reach: the bytes returned are a
prefix of the bytes accepted; the positions are the two counts, of which the difference that the
code takes is the number of bytes in the ring and at most its capacity; and every call that has
ended moved the bytes its result says, an exact one all or none, and a read that returned nothing
for a buffer that is not empty found the writer finished and every accepted byte returned. -/
theorem stream_bytes_fifo {mem : Mem Addr} (hfresh : ends.Fresh mem)
    {s : Config Addr Event ByteCall ByteHistory}
    (hs : Reach (byteSys g ends) .free ⟨mem, .init, []⟩ s) :
    s.hist.returned <+: s.hist.accepted ∧
    (let head := s.mem (.head ends.writer.index ends.writer.side)
     let tail := s.mem (.tail ends.writer.index ends.writer.side)
     sub64 head tail = s.hist.accepted.length - s.hist.returned.length ∧
      s.hist.accepted.length ≤ s.hist.returned.length + g.bufferBytes ∧
      (s.hist.accepted.length < 2 ^ 64 → head = s.hist.accepted.length ∧
        tail = s.hist.returned.length ∧ tail ≤ head ∧ head - tail ≤ g.bufferBytes)) ∧
    ∀ outcome ∈ s.hist.outcomes, outcome.Sound := by
  obtain ⟨m, hI⟩ := byteSys_inv hfresh hs
  have hw := hI.words
  have hle := hw.le
  have hfits := hw.fits
  refine ⟨hw.returned, ⟨?_, hfits, fun hlt => ?_⟩, hI.outcomes⟩
  · rw [hw.head, hw.tail, hw.queued]
  · have hhead := hw.head
    have htail := hw.tail
    rw [Nat.mod_eq_of_lt hlt] at hhead
    rw [Nat.mod_eq_of_lt (by omega)] at htail
    refine ⟨hhead, htail, ?_, ?_⟩ <;> omega

theorem twoBytes_valid : (⟨1, 1, 2⟩ : StreamSpec).validate = .ok () := by decide

def twoBytes : Geometry := ⟨⟨1, 1, 2⟩, 1, twoBytes_valid, one_lt_u16⟩

/-- The first stream of the only slot, written by side A. -/
def firstStream : Ends where
  writer := ⟨0, 1, 0, ⟨1, 0, 0, 1⟩, .a⟩
  reader := ⟨0, 2, 0, ⟨1, 0, 0, 1⟩, .b⟩
  index_eq := rfl
  id_eq := rfl
  side_eq := rfl

def liveSlot : Mem Addr
  | .state _ => slotLive
  | .generation _ => 1
  | _ => 0

/-- A read of up to four bytes that found the end. -/
def Outcome.finished : Outcome → Bool
  | .read len result taken atEnd =>
    decide (len = 4) && result.toOption == some [] && taken.isEmpty && atEnd
  | _ => false

theorem finished_eq {outcome : Outcome} (h : outcome.finished = true) :
    outcome = .read 4 (.ok []) [] true := by
  unfold Outcome.finished at h
  split at h
  · rename_i len result taken atEnd
    simp only [Bool.and_eq_true, decide_eq_true_eq, List.isEmpty_iff] at h
    obtain ⟨⟨⟨rfl, hresult⟩, rfl⟩, rfl⟩ := h
    cases result with
    | error e => cases hresult
    | ok bytes => rw [Option.some.inj (eq_of_beq hresult)]
  · cases h

/-- A write that only fits in part is read and the stream finished; the next read is at the end. -/
theorem stream_bytes_fifo_finished : ∃ s,
    Reach (byteSys twoBytes firstStream) .free ⟨liveSlot, .init, []⟩ s ∧
      s.hist.accepted = [10, 20] ∧ s.hist.returned <+: s.hist.accepted ∧
      Outcome.read 4 (.ok []) [] true ∈ s.hist.outcomes ∧
      (Outcome.read 4 (.ok []) [] true).Sound := by
  have hrun : (Discipline.free.runs (byteSys twoBytes firstStream) ⟨liveSlot, .init, []⟩
      ([.begin (.tryWrite [10, 20, 30])] ++ replicate 10 (.step 0) ++
        [.begin (.tryRead 4)] ++ replicate 10 (.step 1) ++
        [.begin .finish] ++ replicate 3 (.step 2) ++
        [.begin (.tryRead 4)] ++ replicate 5 (.step 3))).any (fun s =>
      s.hist.accepted == [10, 20] && s.hist.outcomes.any Outcome.finished) = true := by
    decide +kernel
  obtain ⟨s, hs, hp⟩ := Reach.exists_of_runs _ hrun
  rw [Bool.and_eq_true] at hp
  have hmem : Outcome.read 4 (.ok []) [] true ∈ s.hist.outcomes := by
    obtain ⟨outcome, hmem, hfinished⟩ := any_eq_true.mp hp.2
    rw [← finished_eq hfinished]
    exact hmem
  have hfresh : firstStream.Fresh liveSlot := ⟨rfl, rfl, rfl, rfl, rfl⟩
  have hall := stream_bytes_fifo hfresh hs
  exact ⟨s, hs, beq_iff_eq.mp hp.1, hall.1, hmem, hall.2.2 _ hmem⟩

end OrbitStream
