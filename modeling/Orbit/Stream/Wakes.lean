import Orbit.Stream.Doorbells

/-! No readiness of a stream is lost: whoever makes true what a task waits for, after the task's
second look, sees that it has to ring. -/

namespace OrbitStream.Readiness

open Orbit.Atomic List Function Option

def Writer.tells (tail : Nat) : Writer → Bool
  | looksBack head => decide (head ≤ tail)
  | notifies n => n.tells
  | _ => false

/-- The reader is going to ring the writer, when the words it has yet to load stay as they are. -/
def Reader.tells (g : Geometry) (head tail needed flags : Nat) : Reader → Bool
  | gainsHead before after => gained g head needed flags before after
  | gainsExact before after seen => gained g seen needed flags before after
  | gainsFlags before after seen wanted => gained g seen wanted flags before after
  | parksHead => head != tail
  | parksTail seen => seen != tail
  | notifies n => n.tells
  | _ => false

def Reader.registered : Reader → Bool
  | starts | looksHead true | looksTail true _ | looksFlags true | pending => true
  | _ => false

def Writer.registered : Writer → Bool
  | starts _ | loadsExact (.looks true) | storesExact (.looks true) | looksHead _ true
  | looksTail _ true _ | looksFlags _ true | pending _ => true
  | _ => false

def Reader.Ok (head tail : Nat) : Reader → Prop
  | loadsTail _ seen => sub64 seen tail ≤ sub64 head tail
  | storesTail seen len => seen = tail ∧ len ≤ sub64 head tail
  | _ => True

def Wait.Ok (g : Geometry) (needed : Nat) (watching : Bool) : Wait → Prop
  | writable => needed = 0
  | exact n => needed = n ∧ n ≤ g.bufferBytes
  | closed => watching = true

def Writer.Ok (g : Geometry) (head tail needed : Nat) (watching : Bool) : Writer → Prop
  | publishes n => n ≤ g.bufferBytes
  | looksTail wait _ seen => seen = head ∧ wait.Ok g needed watching
  | looksHead wait _ | looksFlags wait _ | registers wait | starts wait | pending wait =>
    wait.Ok g needed watching
  | loadsTail _ seen => seen = head
  | storesHead seen len => seen = head ∧ len ≤ g.bufferBytes - sub64 head tail
  | raises flag => flag = flagFin ∨ flag = flagReset
  | _ => True

def Reader.Hears (head tail flags : Nat) (told : Prop) : Reader → Prop
  | looksTail true seen => seen = tail → head = tail ∨ told
  | looksFlags true => head = tail ∨ told
  | pending => readable head tail flags = true → told
  | _ => True

def Writer.Hears (g : Geometry) (head tail flags : Nat) (told : Prop) : Writer → Prop
  | looksFlags wait true => wait.room g head tail = true →
      flags &&& (flagFin ||| flagReset ||| flagReaderGone) ≠ 0 ∨ told
  | pending wait => wait.ready g head tail flags = true → told
  | _ => True

section

variable (g : Geometry) (i : Fin g.totalSlots)

def State.ReaderTold (s : State) : Prop :=
  (s.processes .reader).Coming i ∨ s.writer.tells s.tail = true

def State.WriterTold (s : State) : Prop :=
  (s.processes .writer).Coming i ∨ s.reader.tells g s.head s.tail s.exactNeeded s.flags = true

structure Inv (s : State) : Prop where
  head_lt : s.head < 2 ^ 64
  tail_lt : s.tail < 2 ^ 64
  queued_le : sub64 s.head s.tail ≤ g.bufferBytes
  reader : s.reader.Ok s.head s.tail
  writer : s.writer.Ok g s.head s.tail s.exactNeeded s.watching
  watch : s.watching = true → s.flags &&& flagCloseWatch ≠ 0
  readerPlaced : s.reader.registered = true → (s.processes .reader).Placed
  writerPlaced : s.writer.registered = true → (s.processes .writer).Placed
  readerHears : s.reader.Hears s.head s.tail s.flags (s.ReaderTold g i)
  writerHears : s.writer.Hears g s.head s.tail s.flags (s.WriterTold g i)

end

section

variable {g : Geometry} {i : Fin g.totalSlots} {s s' : State} {refused : Bool}

theorem Start.inv (h : Start s) : Inv g i s where
  head_lt := by
    rw [h.head]
    decide
  tail_lt := by
    rw [h.tail]
    decide
  queued_le := by
    rw [h.head, h.tail]
    exact Nat.zero_le _
  reader := by
    rw [h.reader]
    trivial
  writer := by
    rw [h.writer]
    trivial
  watch hwatching := by
    rw [h.watching] at hwatching
    cases hwatching
  readerPlaced hreg := by
    rw [h.reader] at hreg
    cases hreg
  writerPlaced hreg := by
    rw [h.writer] at hreg
    cases hreg
  readerHears := by
    rw [h.reader]
    trivial
  writerHears := by
    rw [h.writer]
    trivial

theorem Reader.Hears.mono {reader : Reader} {head tail flags : Nat} {told told' : Prop}
    (h : reader.Hears head tail flags told) (htold : reader.registered = true → told → told') :
    reader.Hears head tail flags told' := by
  cases reader with
  | looksTail again seen =>
    cases again with
    | true => exact fun hseen => (h hseen).imp_right (htold rfl)
    | false => trivial
  | looksFlags again =>
    cases again with
    | true => exact Or.imp_right (htold rfl) h
    | false => trivial
  | pending => exact fun hready => htold rfl (h hready)
  | _ => trivial

theorem Reader.Hears.flags {reader : Reader} {head tail flags flags' : Nat} {told : Prop}
    (h : reader.Hears head tail flags told)
    (hpending : reader = .pending → readable head tail flags' = true → told) :
    reader.Hears head tail flags' told := by
  cases reader with
  | pending => exact hpending rfl
  | looksTail again seen => cases again <;> exact h
  | looksFlags again => cases again <;> exact h
  | _ => trivial

theorem Writer.Hears.mono {writer : Writer} {head tail flags : Nat} {told told' : Prop}
    (h : writer.Hears g head tail flags told) (htold : writer.registered = true → told → told') :
    writer.Hears g head tail flags told' := by
  cases writer with
  | looksFlags wait again =>
    cases again with
    | true => exact fun hroom => (h hroom).imp_right (htold rfl)
    | false => trivial
  | pending wait => exact fun hready => htold rfl (h hready)
  | _ => trivial

theorem setProcess_self (s : State) (half : Half) (p : Process) :
    (s.setProcess half p).processes half = p := update_self _ _ _

theorem Inv.process {half : Half} {p : Process} (h : Inv g i s)
    (hkeeps : (s.processes half).Keeps i p) : Inv g i (s.setProcess half p) := by
  cases half with
  | reader =>
    have hself : (s.setProcess .reader p).processes .reader = p := setProcess_self s .reader p
    refine { h with
      readerPlaced := fun hreg => ?_
      readerHears := h.readerHears.mono fun hreg => Or.imp_left ?_ }
    · rw [hself]
      exact hkeeps.placed (h.readerPlaced hreg)
    · rw [hself]
      exact hkeeps.coming (h.readerPlaced hreg)
  | writer =>
    have hself : (s.setProcess .writer p).processes .writer = p := setProcess_self s .writer p
    refine { h with
      writerPlaced := fun hreg => ?_
      writerHears := h.writerHears.mono fun hreg => Or.imp_left ?_ }
    · rw [hself]
      exact hkeeps.placed (h.writerPlaced hreg)
    · rw [hself]
      exact hkeeps.coming (h.writerPlaced hreg)

theorem Inv.readerMoves {reader : Reader} (h : Inv g i s) (hok : reader.Ok s.head s.tail)
    (hplaced : reader.registered = true → (s.processes .reader).Placed)
    (htells : s.reader.tells g s.head s.tail s.exactNeeded s.flags = true →
      reader.tells g s.head s.tail s.exactNeeded s.flags = true)
    (hhears : reader.Hears s.head s.tail s.flags (s.ReaderTold g i)) :
    Inv g i { s with reader := reader } :=
  { h with
    reader := hok
    readerPlaced := hplaced
    readerHears := hhears
    writerHears := h.writerHears.mono fun _ => Or.imp_right htells }

theorem Inv.readerGoes {reader : Reader} (h : Inv g i s) (hok : reader.Ok s.head s.tail)
    (hplaced : reader.registered = false)
    (htells : s.reader.tells g s.head s.tail s.exactNeeded s.flags = false)
    (hhears : ∀ told, reader.Hears s.head s.tail s.flags told) :
    Inv g i { s with reader := reader } :=
  h.readerMoves hok (by rw [hplaced]; rintro ⟨⟩) (by rw [htells]; rintro ⟨⟩) (hhears _)

theorem Inv.storesTail {tail len : Nat} (h : Inv g i s) (hphase : s.reader = .storesTail tail len) :
    Inv g i { s with tail := add64 tail len, reader := .gainsHead tail (add64 tail len) } := by
  have hok := h.reader
  rw [hphase] at hok
  obtain ⟨rfl, hlen⟩ := hok
  have hqueued : sub64 s.head (add64 s.tail len) = sub64 s.head s.tail - len := sub64_add_tail hlen
  have hnone : ¬s.reader.tells g s.head s.tail s.exactNeeded s.flags = true := by
    rw [hphase]
    rintro ⟨⟩
  -- the wait that the new room ends was not over before
  have htells : ∀ wait : Wait, wait.Ok g s.exactNeeded s.watching →
      wait.room g s.head s.tail = false → wait.room g s.head (add64 s.tail len) = true →
      s.flags &&& (flagFin ||| flagReset ||| flagReaderGone) ≠ 0 ∨
        gained g s.head s.exactNeeded s.flags s.tail (add64 s.tail len) = true := by
    intro wait hwait hbefore hafter
    unfold gained
    cases wait with
    | writable =>
      have hneeded : s.exactNeeded = 0 := hwait
      rw [if_pos hneeded]
      exact .inr (decide_eq_true (Nat.not_lt.mp (of_decide_eq_false hbefore)))
    | exact needed =>
      obtain ⟨hneeded, -⟩ := hwait
      have hlt := Nat.not_le.mp (of_decide_eq_false hbefore)
      have hle := of_decide_eq_true hafter
      rw [hneeded, if_neg (by omega)]
      by_cases hflags : s.flags &&& (flagFin ||| flagReset ||| flagReaderGone) = 0
      · rw [if_neg (not_not.mpr hflags)]
        exact .inr (Bool.and_eq_true_iff.mpr ⟨decide_eq_true hlt, decide_eq_true hle⟩)
      · exact .inl hflags
    | closed => cases hafter
  have hsafe : ∀ told, (s.WriterTold g i → told) →
      (gained g s.head s.exactNeeded s.flags s.tail (add64 s.tail len) = true → told) →
      s.writer.Hears g s.head (add64 s.tail len) s.flags told := by
    intro told hold hnew
    have hwriter := h.writer
    have hhears := h.writerHears
    cases hw : s.writer with
    | looksFlags wait again =>
      rw [hw] at hwriter hhears
      cases again with
      | false => trivial
      | true =>
        intro hroom
        by_cases hbefore : wait.room g s.head s.tail = true
        · exact (hhears hbefore).imp_right hold
        · exact (htells wait hwriter (Bool.eq_false_of_not_eq_true hbefore) hroom).imp_right hnew
    | pending wait =>
      rw [hw] at hwriter hhears
      intro hready
      by_cases hbefore : wait.ready g s.head s.tail s.flags = true
      · exact hold (hhears hbefore)
      · rw [Wait.ready_eq, Bool.or_eq_true, not_or] at hbefore
        rw [Wait.ready_eq, Bool.or_eq_true] at hready
        have hroom := hready.resolve_right hbefore.2
        refine hnew ((htells wait hwriter (Bool.eq_false_of_not_eq_true hbefore.1)
          hroom).resolve_left fun hflags => hbefore.2 ?_)
        cases wait with
        | writable | exact => exact bne_iff_ne.mpr hflags
        | closed => cases hroom
    | _ => trivial
  refine { h with
    tail_lt := Nat.mod_lt _ (by decide)
    queued_le := ?_
    reader := trivial
    writer := ?_
    readerPlaced := by rintro ⟨⟩
    readerHears := trivial
    writerHears := hsafe _ (fun hold => .inl (hold.resolve_right hnone)) .inr }
  · rw [hqueued]
    exact Nat.le_trans (Nat.sub_le _ _) h.queued_le
  · have hwriter := h.writer
    cases hw : s.writer with
    | storesHead seen n =>
      rw [hw] at hwriter
      refine ⟨hwriter.1, ?_⟩
      have hle := hwriter.2
      rw [hqueued]
      omega
    | _ =>
      rw [hw] at hwriter
      exact hwriter

theorem Inv.readerRaises (h : Inv g i s) (hphase : s.reader = .raises) :
    Inv g i { s with
      flags := s.flags ||| flagReaderGone
      reader :=
        if s.flags &&& flagReaderGone ≠ 0 then .idle
        else if s.flags &&& flagCloseWatch ≠ 0 then .notifies (.counts true)
        else if s.flags &&& (flagFin ||| flagReset) ≠ 0 then .notifies (.counts false)
        else .parksHead } := by
  generalize hreader : (if s.flags &&& flagReaderGone ≠ 0 then Reader.idle
    else if s.flags &&& flagCloseWatch ≠ 0 then .notifies (.counts true)
    else if s.flags &&& (flagFin ||| flagReset) ≠ 0 then .notifies (.counts false)
    else .parksHead) = reader
  have hplain : reader.registered = false ∧ reader.Ok s.head s.tail ∧
      ∀ flags told, reader.Hears s.head s.tail flags told := by
    subst hreader
    repeat' split
    all_goals exact ⟨rfl, trivial, fun _ _ => trivial⟩
  have hnone : ¬s.reader.tells g s.head s.tail s.exactNeeded s.flags = true := by
    rw [hphase]
    rintro ⟨⟩
  have hgone : (s.flags ||| flagReaderGone) &&& (flagFin ||| flagReset ||| flagReaderGone) ≠ 0 := by
    rw [Nat.or_comm]
    exact raised _ (by decide)
  -- a writer that waited in vain so far is told
  have htells : ∀ wait : Wait, wait.Ok g s.exactNeeded s.watching →
      wait.ready g s.head s.tail s.flags = false →
        reader.tells g s.head s.tail s.exactNeeded (s.flags ||| flagReaderGone) = true := by
    intro wait hwait hbefore
    rw [Wait.ready_eq, Bool.or_eq_false_iff, bne_eq_false_iff_eq] at hbefore
    obtain ⟨hroom, hflags⟩ := hbefore
    have hstays : ¬s.flags &&& flagReaderGone ≠ 0 := fun hset =>
      raised_of_mem hset (gone_mask wait) hflags
    rw [← hreader, if_neg hstays]
    by_cases hwatch : s.flags &&& flagCloseWatch ≠ 0
    · rw [if_pos hwatch]
      rfl
    · rw [if_neg hwatch]
      have hends : s.flags &&& (flagFin ||| flagReset) ≠ 0 →
          s.flags &&& (flagFin ||| flagReset ||| flagReaderGone) ≠ 0 := fun hset =>
        raised_of_mem hset (by rfl)
      have hqueued : sub64 s.head s.tail ≠ 0 := by
        have hpos := g.buffer_pos
        cases wait with
        | writable =>
          have hfull := Nat.not_lt.mp (of_decide_eq_false hroom)
          omega
        | exact needed =>
          have hshort := Nat.not_le.mp (of_decide_eq_false hroom)
          have hle := hwait.2
          omega
        | closed => exact absurd (h.watch hwait) hwatch
      cases wait with
      | writable | exact =>
        rw [if_neg fun hset => hends hset hflags]
        exact bne_iff_ne.mpr fun hsame =>
          hqueued ((sub64_eq_zero h.head_lt h.tail_lt).mpr hsame)
      | closed => exact absurd (h.watch hwait) hwatch
  refine { h with
    reader := hplain.2.1
    watch := fun hwatching => raised _ (h.watch hwatching)
    readerPlaced := by rw [hplain.1]; rintro ⟨⟩
    readerHears := hplain.2.2 _ _
    writerHears := ?_ }
  have hwriter := h.writer
  have hhears := h.writerHears
  cases hw : s.writer with
  | looksFlags wait again =>
    cases again with
    | false => trivial
    | true => exact fun _ => .inl hgone
  | pending wait =>
    rw [hw] at hwriter hhears
    intro _
    by_cases hbefore : wait.ready g s.head s.tail s.flags = true
    · exact .inl ((hhears hbefore).resolve_right hnone)
    · exact .inr (htells wait hwriter (Bool.eq_false_of_not_eq_true hbefore))
  | _ => trivial

theorem Inv.readerNotifies {n : Notify} (h : Inv g i s) (hphase : s.reader = .notifies n) :
    Inv g i { (s.notify g i .writer n).1 with
      reader := (s.notify g i .writer n).2.elim .idle .notifies } := by
  have hkept : Inv g i (s.setProcess .writer
      (stepNotify g i s.changes (s.processes .writer) n).2.1) := h.process (.notify _ _)
  have hprocess : (s.setProcess .writer
      (stepNotify g i s.changes (s.processes .writer) n).2.1).processes .writer =
        (stepNotify g i s.changes (s.processes .writer) n).2.1 := setProcess_self _ _ _
  have hplain : ∀ next : Option Notify, (next.elim Reader.idle .notifies).registered = false ∧
      (next.elim Reader.idle .notifies).Ok s.head s.tail ∧
      ∀ told, (next.elim Reader.idle .notifies).Hears s.head s.tail s.flags told := by
    rintro (_ | next)
    all_goals exact ⟨rfl, trivial, fun _ => trivial⟩
  have hnext := hplain (stepNotify g i s.changes (s.processes .writer) n).2.2
  exact { hkept with
    reader := hnext.2.1
    readerPlaced := by
      intro hreg
      rw [State.notify] at hreg
      rw [hnext.1] at hreg
      cases hreg
    readerHears := hnext.2.2 _
    writerHears := hkept.writerHears.mono fun _ => by
      rintro (hcoming | htells)
      · exact .inl hcoming
      · have htells : s.reader.tells g s.head s.tail s.exactNeeded s.flags = true := htells
        rw [hphase] at htells
        rcases tells_notify (g := g) (i := i) (p := s.processes .writer) (n := n) htells with
          hcoming | ⟨next, hsome, hnext⟩
        · exact .inl (hprocess ▸ hcoming)
        · refine .inr ?_
          rw [State.notify]
          dsimp only
          rw [hsome]
          exact hnext }

theorem Inv.readerKeeps {p : Process} {reader : Reader} (h : Inv g i s)
    (hkeeps : (s.processes .reader).Keeps i p) (hok : reader.Ok s.head s.tail)
    (hplaced : p.Placed) (htells : s.reader.tells g s.head s.tail s.exactNeeded s.flags = false)
    (hhears : ∀ told, reader.Hears s.head s.tail s.flags told) :
    Inv g i { s.setProcess .reader p with reader := reader } := by
  refine (h.process hkeeps).readerMoves hok (fun _ => ?_) (fun hold => ?_) (hhears _)
  · rw [setProcess_self]
    exact hplaced
  · have hold : s.reader.tells g s.head s.tail s.exactNeeded s.flags = true := hold
    rw [htells] at hold
    cases hold

theorem Process.Keeps.register (index : Nat) (p : Process) : p.Keeps index p.register where
  placed _ := .inr (.inr rfl)
  coming _ := id

theorem Process.Keeps.enters {p : Process} (h : p.driver = .off) (index : Nat) :
    p.Keeps index { p with driver := .enters } :=
  .free (by rw [h]; rfl) (by rw [h]; rfl) _ _

theorem Inv.readerStep (h : Inv g i s) (hstep : stepReader g i s refused = some s') :
    Inv g i s' := by
  have hplaced := h.readerPlaced
  have hhears := h.readerHears
  have hok := h.reader
  unfold stepReader at hstep
  generalize hphase : s.reader = phase at hstep hplaced hhears hok
  cases phase with
  | idle | pending =>
    cases hstep
  | looksHead again =>
    cases hstep
    refine h.readerMoves trivial (fun hreg => hplaced ?_) (by rw [hphase]; rintro ⟨⟩) ?_
    · cases again <;> exact hreg
    · cases again with
      | true => exact .inl
      | false => trivial
  | looksTail again head =>
    cases hstep
    split
    · exact h.readerGoes trivial rfl (by rw [hphase]; rfl) fun _ => trivial
    · rename_i hsame
      refine h.readerMoves trivial (fun hreg => hplaced ?_) (by rw [hphase]; rintro ⟨⟩) ?_
      · cases again <;> exact hreg
      · cases again with
        | true => exact hhears (not_not.mp hsame)
        | false => trivial
  | looksFlags again =>
    cases hstep
    split
    · exact h.readerGoes trivial rfl (by rw [hphase]; rfl) fun _ => trivial
    · rename_i hflags
      cases again with
      | false => exact h.readerGoes trivial rfl (by rw [hphase]; rfl) fun _ => trivial
      | true =>
        refine h.readerMoves trivial (fun _ => hplaced rfl) (by rw [hphase]; rintro ⟨⟩) ?_
        intro hready
        rcases Bool.or_eq_true_iff.mp hready with hdiffer | hset
        · exact Or.resolve_left hhears (bne_iff_ne.mp hdiffer)
        · exact absurd (bne_iff_ne.mp hset) hflags
  | registers =>
    cases hstep
    exact h.readerKeeps (.register _ _) trivial (.inr (.inr rfl)) (by rw [hphase]; rfl)
      fun _ => trivial
  | starts =>
    have hlooks : Inv g i { s with reader := .looksHead true } :=
      h.readerMoves trivial (fun _ => hplaced rfl) (by rw [hphase]; rintro ⟨⟩) trivial
    dsimp only at hstep
    split at hstep
    · rename_i hoff
      split at hstep <;> cases hstep
      · exact h.readerGoes trivial rfl (by rw [hphase]; rfl) fun _ => trivial
      · have henters := Process.Keeps.enters hoff i
        exact h.readerKeeps henters trivial (henters.placed (hplaced rfl)) (by rw [hphase]; rfl)
          fun _ => trivial
    · cases hstep
      exact hlooks
  | loadsFlags access =>
    cases hstep
    repeat' split
    all_goals exact h.readerGoes trivial rfl (by rw [hphase]; rfl) fun _ => trivial
  | loadsHead access =>
    cases hstep
    exact h.readerGoes (Nat.le_refl _) rfl (by rw [hphase]; rfl) fun _ => trivial
  | loadsTail access head =>
    cases hstep
    have hseen : sub64 head s.tail ≤ sub64 s.head s.tail := hok
    have hidle : Inv g i { s with reader := .idle } :=
      h.readerGoes trivial rfl (by rw [hphase]; rfl) fun _ => trivial
    have htakes : ∀ len ≤ sub64 head s.tail,
        Inv g i { s with reader := .storesTail s.tail len } := fun len hlen =>
      h.readerGoes ⟨rfl, Nat.le_trans hlen hseen⟩ rfl (by rw [hphase]; rfl) fun _ => trivial
    split
    · exact hidle
    · split
      · split
        · exact hidle
        · exact htakes _ (Nat.not_lt.mp ‹_›)
      · split
        · exact hidle
        · exact htakes _ (Nat.min_le_right _ _)
  | storesTail tail len =>
    cases hstep
    exact h.storesTail hphase
  | gainsHead before after =>
    cases hstep
    exact h.readerMoves trivial (by rintro ⟨⟩) (by rw [hphase]; exact id) trivial
  | gainsExact before after head =>
    cases hstep
    split
    · rename_i hzero
      refine h.readerMoves trivial (by rintro ⟨⟩) (fun htells => ?_) trivial
      rw [hphase, Reader.tells, gained, if_pos hzero] at htells
      exact htells
    · exact h.readerMoves trivial (by rintro ⟨⟩) (by rw [hphase]; exact id) trivial
  | gainsFlags before after head needed =>
    cases hstep
    exact h.readerMoves trivial (by rintro ⟨⟩) (by rw [hphase]; exact id) trivial
  | raises =>
    cases hstep
    exact h.readerRaises hphase
  | parksHead =>
    cases hstep
    exact h.readerMoves trivial (by rintro ⟨⟩) (by rw [hphase]; exact id) trivial
  | parksTail head =>
    cases hstep
    exact h.readerMoves trivial (by rintro ⟨⟩) (by rw [hphase]; exact id) trivial
  | notifies n =>
    cases hstep
    exact h.readerNotifies hphase

theorem Inv.writerSets {flags needed : Nat} {watching : Bool} {writer : Writer} (h : Inv g i s)
    (hflags : flags &&& (flagFin ||| flagReset) = s.flags &&& (flagFin ||| flagReset))
    (hok : writer.Ok g s.head s.tail needed watching)
    (hwatch : watching = true → flags &&& flagCloseWatch ≠ 0)
    (hplaced : writer.registered = true → (s.processes .writer).Placed)
    (htells : s.writer.tells s.tail = true → writer.tells s.tail = true)
    (hhears : ∀ told, writer.Hears g s.head s.tail flags told) :
    Inv g i { s with
      flags := flags, exactNeeded := needed, watching := watching, writer := writer } := by
  refine { h with
    writer := hok
    watch := hwatch
    writerPlaced := hplaced
    readerHears := ?_
    writerHears := hhears _ }
  refine (h.readerHears.mono fun _ => Or.imp_right htells).flags fun hr hready => ?_
  have hhears := h.readerHears
  rw [hr] at hhears
  refine (hhears ?_).imp_right htells
  rw [readable] at hready ⊢
  rw [← hflags]
  exact hready

theorem Inv.writerMoves {writer : Writer} (h : Inv g i s)
    (hok : writer.Ok g s.head s.tail s.exactNeeded s.watching)
    (hplaced : writer.registered = true → (s.processes .writer).Placed)
    (htells : s.writer.tells s.tail = true → writer.tells s.tail = true)
    (hhears : writer.Hears g s.head s.tail s.flags (s.WriterTold g i)) :
    Inv g i { s with writer := writer } :=
  { h with
    writer := hok
    writerPlaced := hplaced
    readerHears := h.readerHears.mono fun _ => Or.imp_right htells
    writerHears := hhears }

theorem Inv.writerGoes {writer : Writer} (h : Inv g i s)
    (hok : writer.Ok g s.head s.tail s.exactNeeded s.watching)
    (hplaced : writer.registered = false) (htells : s.writer.tells s.tail = false)
    (hhears : ∀ told, writer.Hears g s.head s.tail s.flags told) :
    Inv g i { s with writer := writer } :=
  h.writerMoves hok (by rw [hplaced]; rintro ⟨⟩) (by rw [htells]; rintro ⟨⟩) (hhears _)

theorem Inv.writerKeeps {p : Process} {writer : Writer} (h : Inv g i s)
    (hkeeps : (s.processes .writer).Keeps i p)
    (hok : writer.Ok g s.head s.tail s.exactNeeded s.watching) (hplaced : p.Placed)
    (htells : s.writer.tells s.tail = false)
    (hhears : ∀ told, writer.Hears g s.head s.tail s.flags told) :
    Inv g i { s.setProcess .writer p with writer := writer } := by
  refine (h.process hkeeps).writerMoves hok (fun _ => ?_) (fun hold => ?_) (hhears _)
  · rw [setProcess_self]
    exact hplaced
  · have hold : s.writer.tells s.tail = true := hold
    rw [htells] at hold
    cases hold

theorem Inv.writerDone {wait : Wait} (h : Inv g i s) (htells : s.writer.tells s.tail = false) :
    Inv g i { s with writer := wait.done } := by
  cases wait
  all_goals exact h.writerGoes trivial rfl htells fun _ => trivial

theorem Inv.storesHead {head len : Nat} (h : Inv g i s) (hphase : s.writer = .storesHead head len) :
    Inv g i { s with head := add64 head len, writer := .looksBack head } := by
  have hok := h.writer
  rw [hphase] at hok
  obtain ⟨rfl, hlen⟩ := hok
  have hqueued : sub64 (add64 s.head len) s.tail = sub64 s.head s.tail + len := by
    have hle := h.queued_le
    have hlt := g.buffer_lt
    exact sub64_add_head (by omega)
  have hnone : ¬s.writer.tells s.tail = true := by
    rw [hphase]
    rintro ⟨⟩
  have htells : s.head = s.tail ∨ s.ReaderTold g i →
      (s.processes .reader).Coming i ∨ decide (s.head ≤ s.tail) = true := by
    rintro (hsame | htold)
    · exact .inr (decide_eq_true (Nat.le_of_eq hsame))
    · exact .inl (htold.resolve_right hnone)
  refine { h with
    head_lt := Nat.mod_lt _ (by decide)
    queued_le := ?_
    reader := ?_
    writer := trivial
    writerPlaced := by rintro ⟨⟩
    readerHears := ?_
    writerHears := trivial }
  · have hle := h.queued_le
    rw [hqueued]
    omega
  · have hreader := h.reader
    cases hr : s.reader with
    | loadsTail access seen =>
      rw [hr] at hreader
      have hle : sub64 seen s.tail ≤ sub64 s.head s.tail := hreader
      refine Nat.le_trans hle ?_
      rw [hqueued]
      exact Nat.le_add_right _ _
    | storesTail seen n =>
      rw [hr] at hreader
      refine ⟨hreader.1, Nat.le_trans hreader.2 ?_⟩
      rw [hqueued]
      exact Nat.le_add_right _ _
    | _ => trivial
  · have hhears := h.readerHears
    cases hr : s.reader with
    | looksTail again seen =>
      rw [hr] at hhears
      cases again with
      | true => exact fun hseen => .inr (htells (hhears hseen))
      | false => trivial
    | looksFlags again =>
      rw [hr] at hhears
      cases again with
      | true => exact .inr (htells hhears)
      | false => trivial
    | pending =>
      rw [hr] at hhears
      intro _
      by_cases hsame : s.head = s.tail
      · exact htells (.inl hsame)
      · refine htells (.inr (hhears ?_))
        rw [readable, bne_iff_ne.mpr hsame, Bool.true_or]
    | _ => trivial

theorem Inv.writerRaises {flag : Nat} (h : Inv g i s) (hphase : s.writer = .raises flag) :
    Inv g i { s with
      flags := s.flags ||| flag
      writer := if s.flags &&& flag ≠ 0 then .idle else .notifies (.counts true) } := by
  have hok := h.writer
  rw [hphase] at hok
  have hflag : flag &&& (flagFin ||| flagReset) = flag := by
    rcases hok with rfl | rfl <;> decide
  have hnone : ¬s.writer.tells s.tail = true := by
    rw [hphase]
    rintro ⟨⟩
  generalize hwriter : (if s.flags &&& flag ≠ 0 then Writer.idle else .notifies (.counts true)) =
    writer
  have hplain : writer.registered = false ∧
      writer.Ok g s.head s.tail s.exactNeeded s.watching ∧
      ∀ flags told, writer.Hears g s.head s.tail flags told := by
    subst hwriter
    split
    all_goals exact ⟨rfl, trivial, fun _ _ => trivial⟩
  refine { h with
    writer := hplain.2.1
    watch := fun hwatching => raised _ (h.watch hwatching)
    writerPlaced := by rw [hplain.1]; rintro ⟨⟩
    readerHears := ?_
    writerHears := hplain.2.2 _ _ }
  have hcoming : s.ReaderTold g i → (s.processes .reader).Coming i := fun htold =>
    htold.resolve_right hnone
  refine (h.readerHears.mono fun _ htold => .inl (hcoming htold)).flags fun hr _ => ?_
  have hhears := h.readerHears
  rw [hr] at hhears
  by_cases hset : s.flags &&& flag ≠ 0
  · refine .inl (hcoming (hhears ?_))
    rw [readable, bne_iff_ne.mpr (raised_of_mem hset hflag), Bool.or_true]
  · refine .inr ?_
    rw [← hwriter, if_neg hset]
    rfl

theorem Inv.writerNotifies {n : Notify} (h : Inv g i s) (hphase : s.writer = .notifies n) :
    Inv g i { (s.notify g i .reader n).1 with
      writer := (s.notify g i .reader n).2.elim .idle .notifies } := by
  have hkept : Inv g i (s.setProcess .reader
      (stepNotify g i s.changes (s.processes .reader) n).2.1) := h.process (.notify _ _)
  have hprocess : (s.setProcess .reader
      (stepNotify g i s.changes (s.processes .reader) n).2.1).processes .reader =
        (stepNotify g i s.changes (s.processes .reader) n).2.1 := setProcess_self _ _ _
  have hplain : ∀ next : Option Notify, (next.elim Writer.idle .notifies).registered = false ∧
      (next.elim Writer.idle .notifies).Ok g s.head s.tail s.exactNeeded s.watching ∧
      ∀ told, (next.elim Writer.idle .notifies).Hears g s.head s.tail s.flags told := by
    rintro (_ | next)
    all_goals exact ⟨rfl, trivial, fun _ => trivial⟩
  have hnext := hplain (stepNotify g i s.changes (s.processes .reader) n).2.2
  exact { hkept with
    writer := hnext.2.1
    writerPlaced := by
      intro hreg
      rw [State.notify] at hreg
      rw [hnext.1] at hreg
      cases hreg
    writerHears := hnext.2.2 _
    readerHears := hkept.readerHears.mono fun _ => by
      rintro (hcoming | htells)
      · exact .inl hcoming
      · have htells : s.writer.tells s.tail = true := htells
        rw [hphase] at htells
        rcases tells_notify (g := g) (i := i) (p := s.processes .reader) (n := n) htells with
          hcoming | ⟨next, hsome, hnext⟩
        · exact .inl (hprocess ▸ hcoming)
        · refine .inr ?_
          rw [State.notify]
          dsimp only
          rw [hsome]
          exact hnext }

theorem Inv.writerLooks {wait : Wait} {again : Bool} (h : Inv g i s)
    (hwait : wait.Ok g s.exactNeeded s.watching)
    (hplaced : again = true → (s.processes .writer).Placed)
    (htells : s.writer.tells s.tail = false) :
    Inv g i { s with writer := wait.look again } := by
  have hnone : s.writer.tells s.tail = true → (wait.look again).tells s.tail = true := by
    rw [htells]
    rintro ⟨⟩
  cases wait with
  | writable =>
    refine h.writerMoves trivial (fun hreg => hplaced ?_) hnone trivial
    cases again <;> exact hreg
  | exact needed =>
    refine h.writerMoves hwait (fun hreg => hplaced ?_) hnone trivial
    cases again <;> exact hreg
  | closed =>
    refine h.writerMoves hwait (fun hreg => hplaced ?_) hnone ?_
    · cases again <;> exact hreg
    · cases again with
      | true => rintro ⟨⟩
      | false => trivial

theorem Inv.writerStep (h : Inv g i s) (hstep : stepWriter g i s refused = some s') :
    Inv g i s' := by
  have hplaced := h.writerPlaced
  have hhears := h.writerHears
  have hok := h.writer
  unfold stepWriter at hstep
  generalize hphase : s.writer = phase at hstep hok hplaced hhears
  cases phase with
  | idle | pending wait =>
    cases hstep
  | publishes needed =>
    cases hstep
    have hle : needed ≤ g.bufferBytes := hok
    have hlt := g.buffer_lt
    refine h.writerSets rfl ⟨Nat.mod_eq_of_lt (by omega), hle⟩ h.watch (by rintro ⟨⟩)
      (by rw [hphase]; rintro ⟨⟩) fun _ => trivial
  | watches =>
    cases hstep
    refine h.writerSets ?_ rfl (fun _ => ?_) (by rintro ⟨⟩) (by rw [hphase]; rintro ⟨⟩)
      fun _ => trivial
    · rw [Nat.and_or_distrib_right]
      exact Nat.or_zero _
    · rw [Nat.or_comm]
      exact raised _ (by decide)
  | loadsExact after =>
    cases hstep
    split
    · refine h.writerMoves trivial (fun hreg => hplaced ?_) (by rw [hphase]; rintro ⟨⟩) trivial
      cases after with
      | looks again => cases again <;> exact hreg
      | writes | ends => cases hreg
    · rename_i hzero
      have hzero := not_not.mp hzero
      cases after with
      | looks again =>
        refine h.writerMoves hzero (fun hreg => hplaced ?_) (by rw [hphase]; rintro ⟨⟩) trivial
        cases again <;> exact hreg
      | writes | ends => exact h.writerGoes trivial rfl (by rw [hphase]; rfl) fun _ => trivial
  | storesExact after =>
    cases hstep
    cases after with
    | looks again =>
      refine h.writerSets rfl rfl h.watch (fun hreg => hplaced ?_) (by rw [hphase]; rintro ⟨⟩)
        fun _ => trivial
      cases again <;> exact hreg
    | writes | ends =>
      exact h.writerSets rfl trivial h.watch (by rintro ⟨⟩) (by rw [hphase]; rintro ⟨⟩)
        fun _ => trivial
  | looksHead wait again =>
    cases hstep
    refine h.writerMoves ⟨rfl, hok⟩ (fun hreg => hplaced ?_) (by rw [hphase]; rintro ⟨⟩) trivial
    cases again <;> exact hreg
  | looksTail wait again head =>
    cases hstep
    obtain ⟨rfl, hwait⟩ := hok
    split
    · exact h.writerDone (by rw [hphase]; rfl)
    · rename_i hroom
      refine h.writerMoves hwait (fun hreg => hplaced ?_) (by rw [hphase]; rintro ⟨⟩) ?_
      · cases again <;> exact hreg
      · cases again with
        | true => exact fun h => absurd h hroom
        | false => trivial
  | looksFlags wait again =>
    cases hstep
    split
    · exact h.writerDone (by rw [hphase]; rfl)
    · rename_i hflags
      cases again with
      | false => exact h.writerGoes hok rfl (by rw [hphase]; rfl) fun _ => trivial
      | true =>
        refine h.writerMoves hok (fun _ => hplaced rfl) (by rw [hphase]; rintro ⟨⟩) ?_
        intro hready
        rw [Wait.ready_eq, Bool.or_eq_true] at hready
        rcases hready with hroom | hset
        · refine (hhears hroom).resolve_left fun hset => hflags ?_
          cases wait with
          | writable | exact => exact hset
          | closed => cases hroom
        · exact absurd (bne_iff_ne.mp hset) hflags
  | registers wait =>
    cases hstep
    exact h.writerKeeps (.register _ _) hok (.inr (.inr rfl)) (by rw [hphase]; rfl)
      fun _ => trivial
  | starts wait =>
    dsimp only at hstep
    split at hstep
    · rename_i hoff
      split at hstep <;> cases hstep
      · exact h.writerDone (by rw [hphase]; rfl)
      · have henters := Process.Keeps.enters hoff i
        have hkept : Inv g i (s.setProcess .writer { s.processes .writer with driver := .enters }) :=
          h.process henters
        refine hkept.writerLooks hok (fun _ => ?_) ?_
        · rw [setProcess_self]
          exact henters.placed (hplaced rfl)
        · exact congrArg (Writer.tells s.tail) hphase
    · cases hstep
      exact h.writerLooks hok (fun _ => hplaced rfl) (by rw [hphase]; rfl)
  | unwatches =>
    cases hstep
    exact h.writerSets (cleared _ (by decide)) trivial (by rintro ⟨⟩) (by rintro ⟨⟩)
      (by rw [hphase]; rintro ⟨⟩) fun _ => trivial
  | loadsFlags access =>
    cases hstep
    repeat' split
    all_goals exact h.writerGoes trivial rfl (by rw [hphase]; rfl) fun _ => trivial
  | loadsHead access =>
    cases hstep
    exact h.writerGoes rfl rfl (by rw [hphase]; rfl) fun _ => trivial
  | loadsTail access head =>
    cases hstep
    have hhead : head = s.head := hok
    subst hhead
    have hidle : Inv g i { s with writer := .idle } :=
      h.writerGoes trivial rfl (by rw [hphase]; rfl) fun _ => trivial
    have hstores : ∀ len ≤ g.bufferBytes - sub64 s.head s.tail,
        Inv g i { s with writer := .storesHead s.head len } := fun len hlen =>
      h.writerGoes ⟨rfl, hlen⟩ rfl (by rw [hphase]; rfl) fun _ => trivial
    split
    · exact hidle
    · split
      · split
        · exact hidle
        · exact hstores _ (Nat.not_lt.mp ‹_›)
      · split
        · exact hidle
        · exact hstores _ (Nat.min_le_right _ _)
  | storesHead head len =>
    cases hstep
    exact h.storesHead hphase
  | looksBack head =>
    cases hstep
    exact h.writerMoves trivial (by rintro ⟨⟩) (by rw [hphase]; exact id) trivial
  | raises flag =>
    cases hstep
    exact h.writerRaises hphase
  | notifies n =>
    cases hstep
    exact h.writerNotifies hphase

theorem Inv.readerCalls {reader : Reader} {p : Process} (h : Inv g i s)
    (hrests : s.reader.atRest = true) (hok : reader.Ok s.head s.tail)
    (hplaced : reader.registered = false)
    (hhears : ∀ told, reader.Hears s.head s.tail s.flags told) :
    Inv g i { s.setProcess .reader p with reader := reader } :=
  { h with
    reader := hok
    readerPlaced := by
      intro hreg
      rw [hplaced] at hreg
      cases hreg
    readerHears := hhears _
    writerHears := h.writerHears.mono fun _ => Or.imp_right fun htells => by
      cases hr : s.reader with
      | idle | pending =>
        rw [hr] at htells
        cases htells
      | _ =>
        rw [hr] at hrests
        cases hrests }

theorem Inv.writerCalls {writer : Writer} {p : Process} (h : Inv g i s)
    (hrests : s.writer.atRest = true)
    (hok : writer.Ok g s.head s.tail s.exactNeeded s.watching)
    (hplaced : writer.registered = false)
    (hhears : ∀ told, writer.Hears g s.head s.tail s.flags told) :
    Inv g i { s.setProcess .writer p with writer := writer } :=
  { h with
    writer := hok
    writerPlaced := by
      intro hreg
      rw [hplaced] at hreg
      cases hreg
    writerHears := hhears _
    readerHears := h.readerHears.mono fun _ => Or.imp_right fun htells => by
      cases hw : s.writer with
      | idle | pending =>
        rw [hw] at htells
        cases htells
      | _ =>
        rw [hw] at hrests
        cases hrests }

theorem setProcess_processes (s : State) (half : Half) :
    s.setProcess half (s.processes half) = s := by
  rw [State.setProcess, update_eq_self]

theorem Inv.reads {reader : Reader} (h : Inv g i s) (hstep : s.reads reader = some s')
    (hok : reader.Ok s.head s.tail) (hplaced : reader.registered = false)
    (hhears : ∀ told, reader.Hears s.head s.tail s.flags told) : Inv g i s' := by
  obtain ⟨hrests, hs'⟩ := ite_none_right_eq_some.mp hstep
  cases hs'
  have hcalls := h.readerCalls (p := s.processes .reader) (Bool.and_eq_true_iff.mp hrests).1 hok
    hplaced hhears
  rw [setProcess_processes] at hcalls
  exact hcalls

theorem Inv.writes {writer : Writer} (h : Inv g i s) (hstep : s.writes writer = some s')
    (hok : writer.Ok g s.head s.tail s.exactNeeded s.watching)
    (hplaced : writer.registered = false)
    (hhears : ∀ told, writer.Hears g s.head s.tail s.flags told) : Inv g i s' := by
  obtain ⟨hrests, hs'⟩ := ite_none_right_eq_some.mp hstep
  cases hs'
  simp only [Bool.and_eq_true] at hrests
  have hcalls := h.writerCalls (p := s.processes .writer) hrests.1.1 hok hplaced hhears
  rw [setProcess_processes] at hcalls
  exact hcalls

theorem Inv.writerPolls {writer : Writer} {waker : Nat} (h : Inv g i s)
    (hstep : (s.polls .writer waker).writes writer = some s')
    (hok : writer.Ok g s.head s.tail s.exactNeeded s.watching)
    (hplaced : writer.registered = false)
    (hhears : ∀ told, writer.Hears g s.head s.tail s.flags told) : Inv g i s' := by
  obtain ⟨hrests, hs'⟩ := ite_none_right_eq_some.mp hstep
  cases hs'
  simp only [Bool.and_eq_true] at hrests
  exact h.writerCalls hrests.1.1 hok hplaced hhears

theorem Inv.step {a : Action} (h : Inv g i s) (hstep : Readiness.step g i s a = some s') :
    Inv g i s' := by
  cases a with
  | pollReadable waker =>
    obtain ⟨hrests, hs'⟩ := ite_none_right_eq_some.mp hstep
    cases hs'
    exact h.readerCalls (Bool.and_eq_true_iff.mp hrests).1 trivial rfl fun _ => trivial
  | tryRead len => exact h.reads hstep trivial rfl fun _ => trivial
  | tryReadExact len => exact h.reads hstep trivial rfl fun _ => trivial
  | stopReading => exact h.reads hstep trivial rfl fun _ => trivial
  | dropReader =>
    obtain ⟨r, hr, rfl⟩ := map_eq_some_iff.mp hstep
    have hreads : Inv g i r := h.reads hr trivial rfl fun _ => trivial
    exact { hreads with }
  | pollWritable waker => exact h.writerPolls hstep trivial rfl fun _ => trivial
  | pollWritableExact needed waker =>
    unfold Readiness.step at hstep
    dsimp only at hstep
    split at hstep
    · exact h.writerPolls hstep trivial rfl fun _ => trivial
    · exact h.writerPolls hstep (Nat.not_lt.mp ‹_›) rfl fun _ => trivial
  | peerClosed waker => exact h.writerPolls hstep trivial rfl fun _ => trivial
  | pollClosed waker =>
    obtain ⟨hrests, hs'⟩ := ite_none_right_eq_some.mp hstep
    cases hs'
    obtain ⟨hrests, hwatching⟩ := Bool.and_eq_true_iff.mp hrests
    exact h.writerCalls hrests hwatching rfl fun _ => trivial
  | dropClosed =>
    obtain ⟨hrests, hs'⟩ := ite_none_right_eq_some.mp hstep
    cases hs'
    have hcalls : Inv g i { s.setProcess .writer (s.processes .writer) with writer := .unwatches } :=
      h.writerCalls (Bool.and_eq_true_iff.mp hrests).1 trivial rfl fun _ => trivial
    rw [setProcess_processes] at hcalls
    exact hcalls
  | tryWrite len => exact h.writes hstep trivial rfl fun _ => trivial
  | tryWriteReady len => exact h.writes hstep trivial rfl fun _ => trivial
  | tryWriteExact len => exact h.writes hstep trivial rfl fun _ => trivial
  | finish =>
    have hshut : Inv g i { s with shut := true } := { h with }
    exact hshut.writes hstep (.inl rfl) rfl fun _ => trivial
  | reset =>
    have hshut : Inv g i { s with shut := true } := { h with }
    exact hshut.writes hstep (.inr rfl) rfl fun _ => trivial
  | dropWriter =>
    obtain ⟨r, hr, rfl⟩ := map_eq_some_iff.mp hstep
    have hwrites : Inv g i r := by
      split at hr
      · exact h.writes hr trivial rfl fun _ => trivial
      · exact h.writes hr (.inr rfl) rfl fun _ => trivial
    exact { hwrites with }
  | reader refused => exact h.readerStep hstep
  | writer refused => exact h.writerStep hstep
  | driver half =>
    obtain ⟨p, hp, rfl⟩ := map_eq_some_iff.mp hstep
    exact h.process (.driver hp)
  | interrupt half =>
    cases hstep
    exact h.process (.woken _ _)
  | others half word bits =>
    cases hstep
    exact h.process (.sets (hasBit_or _ _))
  | bumps half =>
    cases hstep
    exact h.process (.moves id id _ _)

end

section

variable (g : Geometry) (i : Fin g.totalSlots)

/-- The last call of a half is a poll that has returned `Pending`, and what its task waits for is
true.  A task that has made another call since does not wait. -/
def State.due (s : State) : Half → Bool
  | .reader => s.reader == .pending && readable s.head s.tail s.flags
  | .writer =>
    match s.writer with
    | .pending wait => wait.ready g s.head s.tail s.flags
    | _ => false

/-- Nobody is in a call, and a task waits for what is true already, without having been woken and
with nobody to wake it. -/
structure Lost (s : State) (half : Half) : Prop where
  reader : s.reader.atRest = true
  writer : s.writer.atRest = true
  due : s.due g half = true
  woken : (s.processes half).woken = false
  pending : hasBit (s.processes half).pending i = false
  driver : (s.processes half).driver = .parked (s.processes half).generation

end

section

variable {g : Geometry} {i : Fin g.totalSlots} {s : State}

theorem Reader.tells_of_rests {reader : Reader} (h : reader.atRest = true)
    (head tail needed flags : Nat) : reader.tells g head tail needed flags = false := by
  cases reader with
  | idle | pending => rfl
  | _ => cases h

theorem Writer.tells_of_rests {writer : Writer} (h : writer.atRest = true) (tail : Nat) :
    writer.tells tail = false := by
  cases writer with
  | idle | pending => rfl
  | _ => cases h

theorem Inv.coming (h : Inv g i s) (hreader : s.reader.atRest = true)
    (hwriter : s.writer.atRest = true) {half : Half} (hdue : s.due g half = true) :
    (s.processes half).Coming i := by
  cases half with
  | reader =>
    obtain ⟨hpending, hready⟩ := Bool.and_eq_true_iff.mp hdue
    have hhears := h.readerHears
    rw [eq_of_beq hpending] at hhears
    refine (hhears hready).resolve_right fun htells => ?_
    rw [Writer.tells_of_rests hwriter] at htells
    cases htells
  | writer =>
    have hhears := h.writerHears
    unfold State.due at hdue
    dsimp only at hdue
    split at hdue
    · rename_i wait hpending
      rw [hpending] at hhears
      refine (hhears hdue).resolve_right fun htells => ?_
      rw [Reader.tells_of_rests hreader] at htells
      cases htells
    · cases hdue

/-- In no state that is reached has a task been left waiting. -/
theorem no_readiness_lost (h : Reached (step g i) anyAction Start s) (half : Half) :
    ¬Lost g i s half := by
  intro hlost
  have hinv : Inv g i s := h.holds (fun _ hs => hs.inv) fun _ _ _ hs _ hstep => hs.step hstep
  rcases hinv.coming hlost.reader hlost.writer hlost.due with hwoken | hhands | hholds | hbit
  · rw [hlost.woken] at hwoken
    cases hwoken
  · rw [hlost.driver] at hhands
    cases hhands
  · rw [hlost.driver] at hholds
    cases hholds
  · rw [hlost.pending] at hbit
    cases hbit

end

theorem pair_valid : (⟨1, 1, 2⟩ : StreamSpec).validate = .ok () := by decide

/-- Two nodes, with rings of two bytes. -/
def pair : Geometry := ⟨⟨1, 1, 2⟩, 2, pair_valid, two_lt_u16⟩

theorem slots_pos : 0 < pair.totalSlots := by decide

def firstSlot : Fin pair.totalSlots := ⟨0, slots_pos⟩

def Process.new : Process where
  pending _ := 0
  generation := 0
  listening := 0
  place := none
  driver := .off
  waker := 0
  woken := false

def State.new : State where
  head := 0
  tail := 0
  flags := 0
  exactNeeded := 0
  changes := 0
  reader := .idle
  writer := .idle
  readerDropped := false
  writerDropped := false
  watching := false
  shut := false
  processes _ := .new

theorem start_new : Start .new := ⟨rfl, rfl, rfl, rfl, rfl, rfl, rfl⟩

/-- The writer fills the ring and waits for one byte of room, its driver parks, the reader takes a
byte, and the driver wakes the writer. -/
def roomGiven : List Action :=
  .tryWrite 2 :: replicate 10 (.writer false) ++
    .pollWritableExact 1 7 :: replicate 9 (.writer false) ++
    replicate 7 (.driver .writer) ++
    .tryRead 1 :: replicate 12 (.reader false) ++
    replicate 3 (.driver .writer)

theorem no_readiness_lost_told : ∃ s, Reached (step pair firstSlot) anyAction Start s ∧
    s.due pair .writer = true ∧ (s.processes .writer).woken = true ∧
    ¬Lost pair firstSlot s .writer := by
  have hrun : (actAll (step pair firstSlot) anyAction .new roomGiven).any
      (fun s => s.due pair .writer && (s.processes .writer).woken) = true := by decide
  obtain ⟨s, hs, hdue⟩ := Reached.exists_of_actAll (.start start_new) hrun
  obtain ⟨hdue, hwoken⟩ := Bool.and_eq_true_iff.mp hdue
  exact ⟨s, hs, hdue, hwoken, no_readiness_lost hs .writer⟩

end OrbitStream.Readiness
