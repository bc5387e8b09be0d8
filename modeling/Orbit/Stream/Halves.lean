import Orbit.Stream.Exclusive
import Orbit.Stream.Rings

/-! The halves of endpoints.  An endpoint is split into its read half and its write half, which
share one handle; halves are put back together, in whatever pairs their process chooses.  A handle
goes with the last half of it. -/

namespace OrbitStream.Halves

open Orbit.Atomic
open List hiding Mem drop

variable {g : Geometry}

/-- `arc` is which handle of the process it is, and `handle` what that is. -/
structure ReadHalf where
  arc : Nat
  handle : Handle
  deriving DecidableEq

structure WriteHalf where
  arc : Nat
  handle : Handle
  shut : Bool
  deriving DecidableEq

structure Endpoint where
  read : ReadHalf
  write : WriteHalf
  deriving DecidableEq

def ReadHalf.drop (half : ReadHalf) (last : Bool) : StreamM Unit := do
  let _ ← half.handle.setFlag half.handle.side.readDirection flagReaderGone
  if last then half.handle.drop

def WriteHalf.drop (half : WriteHalf) (last : Bool) : StreamM Unit := do
  if !half.shut then
    let _ ← half.handle.setFlag half.handle.side.writeDirection flagReset
  if last then half.handle.drop

namespace Endpoint

def new (arc : Nat) (handle : Handle) : Endpoint := ⟨⟨arc, handle⟩, ⟨arc, handle, false⟩⟩

def id (e : Endpoint) : StreamId := e.read.handle.id

def side (e : Endpoint) : Side := e.read.handle.side

def rejoin (read : ReadHalf) (write : WriteHalf) : Except Error Endpoint :=
  if read.handle.id ≠ write.handle.id then .error (.stale read.handle.id) else .ok ⟨read, write⟩

def rearm (e : Endpoint) (s : Streams g) : StreamM (Except Error Endpoint) := do
  if e.side ≠ .a then
    return .error (.malformed "only the creator side of a stream can be rearmed")
  match ← s.rearm e.id with
  | .error error => return .error error
  | .ok _ => return .ok { e with write := { e.write with shut := false } }

end Endpoint

/-- An endpoint or a half is named by its position. -/
inductive Op (g : Geometry) where
  | create (s : Streams g)
  | openTicket (s : Streams g) (ticket : Ticket)
  | split (endpoint : Nat)
  | rejoin (read write : Nat)
  | rearm (s : Streams g) (endpoint : Nat)
  | drop (endpoint : Nat)
  | dropRead (read : Nat)
  | dropWrite (write : Nat)

/-- What the processes hold, and how many handles there have been. -/
structure World where
  mem : Mem Addr
  endpoints : List Endpoint
  reads : List ReadHalf
  writes : List WriteHalf
  arcs : Nat

def World.init : World := ⟨fun _ => 0, [], [], [], 0⟩

def World.shares (w : World) (arc : Nat) : Bool :=
  w.endpoints.any (fun e => e.read.arc = arc || e.write.arc = arc) ||
    w.reads.any (fun half => half.arc = arc) || w.writes.any fun half => half.arc = arc

def World.dropRead (w : World) (half : ReadHalf) : World :=
  { w with mem := ((half.drop (!w.shares half.arc)).run w.mem).2 }

def World.dropWrite (w : World) (half : WriteHalf) : World :=
  { w with mem := ((half.drop (!w.shares half.arc)).run w.mem).2 }

def World.hold (w : World) (mem : Mem Addr) (handle : Handle) : World :=
  { w with mem, endpoints := .new w.arcs handle :: w.endpoints, arcs := w.arcs + 1 }

def World.rejoin (w : World) (read : ReadHalf) (write : WriteHalf) : World :=
  match Endpoint.rejoin read write with
  | .ok e => { w with endpoints := e :: w.endpoints }
  -- both halves went in by value: the later argument is dropped first
  | .error _ =>
    let w' := { w with reads := read :: w.reads }.dropWrite write
    { w' with reads := w.reads }.dropRead read

def sameProcess (read : ReadHalf) (write : WriteHalf) : Bool :=
  read.handle.node = write.handle.node && read.handle.incarnation = write.handle.incarnation

def exec (w : World) : Op g → World
  | .create s =>
    let r := s.create.run w.mem
    match r.1 with
    | .ok (handle, _) => w.hold r.2 handle
    | .error _ => { w with mem := r.2 }
  | .openTicket s ticket =>
    let r := (s.open ticket).run w.mem
    match r.1 with
    | .ok handle => w.hold r.2 handle
    | .error _ => { w with mem := r.2 }
  | .split n =>
    match w.endpoints[n]? with
    | some e => { w with
        endpoints := w.endpoints.eraseIdx n
        reads := e.read :: w.reads
        writes := e.write :: w.writes }
    | none => w
  | .rejoin m n =>
    match w.reads[m]?, w.writes[n]? with
    | some read, some write =>
      if sameProcess read write then
        { w with reads := w.reads.eraseIdx m, writes := w.writes.eraseIdx n }.rejoin read write
      else w
    | _, _ => w
  | .rearm s n =>
    match w.endpoints[n]? with
    | some e =>
      let r := (e.rearm s).run w.mem
      match r.1 with
      | .ok e' => { w with mem := r.2, endpoints := w.endpoints.set n e' }
      | .error _ => { w with mem := r.2 }
    | none => w
  | .drop n =>
    match w.endpoints[n]? with
    | some e =>
      -- the fields go in their order
      let w' := { w with endpoints := w.endpoints.eraseIdx n, writes := e.write :: w.writes }
      { w'.dropRead e.read with writes := w.writes }.dropWrite e.write
    | none => w
  | .dropRead n =>
    match w.reads[n]? with
    | some half => { w with reads := w.reads.eraseIdx n }.dropRead half
    | none => w
  | .dropWrite n =>
    match w.writes[n]? with
    | some half => { w with writes := w.writes.eraseIdx n }.dropWrite half
    | none => w

def run (ops : List (Op g)) : World := ops.foldl exec .init

/-- Both halves belong to one side of one stream. -/
structure Endpoint.Matched (e : Endpoint) : Prop where
  index : e.read.handle.index = e.write.handle.index
  id : e.read.handle.id = e.write.handle.id
  side : e.read.handle.side = e.write.handle.side

/-- The endpoint reads the ring that it writes. -/
def Endpoint.ReadsOwn (e : Endpoint) : Prop :=
  e.read.handle.index = e.write.handle.index ∧
    e.read.handle.side.readDirection = e.write.handle.side.writeDirection

/-- The halves that an operation puts together are not of the two sides of one stream. -/
def OneSided (w : World) : Op g → Prop
  | .rejoin m n => ∀ read write, w.reads[m]? = some read → w.writes[n]? = some write →
      sameProcess read write = true → read.handle.id = write.handle.id →
        read.handle.side = write.handle.side
  | _ => True

def Located (g : Geometry) (handle : Handle) : Prop := locateIn g handle.id = .ok handle.index

/-- The handles are in their slots, and the halves of an endpoint are of one stream. -/
structure World.Placed (g : Geometry) (w : World) : Prop where
  endpoints : ∀ e ∈ w.endpoints, Located g e.read.handle ∧ Located g e.write.handle ∧
    e.read.handle.id = e.write.handle.id
  reads : ∀ half ∈ w.reads, Located g half.handle
  writes : ∀ half ∈ w.writes, Located g half.handle

variable {w w' : World} {handle : Handle} {e : Endpoint}

theorem Located.same {handle handle' : Handle} (h : Located g handle) (h' : Located g handle')
    (hid : handle.id = handle'.id) : handle.index = handle'.index := by
  have hsame : Except.ok handle.index = Except.ok handle'.index :=
    h.symm.trans ((congrArg (locateIn g) hid).trans h')
  exact Except.ok.inj hsame

theorem World.Placed.init : World.init.Placed g where
  endpoints e h := by cases h
  reads half h := by cases h
  writes half h := by cases h

theorem located_create (s : Streams g) (mem : Mem Addr) {handle : Handle} {ticket : Ticket}
    (hok : (s.create.run mem).1 = .ok (handle, ticket)) : Located g handle := by
  rcases run_create_data s mem with ⟨⟨e, he⟩, -⟩ | ⟨handle', ticket', hok', -, hlocate, -⟩
  · rw [he] at hok
    cases hok
  · rw [hok'] at hok
    cases hok
    exact hlocate

theorem located_open (s : Streams g) (ticket : Ticket) (mem : Mem Addr) {handle : Handle}
    (hok : ((s.open ticket).run mem).1 = .ok handle) : Located g handle := by
  rcases run_open s ticket mem with ⟨e, he, -⟩ | ⟨i, hlocate, -, -, -, hok', -⟩
  · rw [he] at hok
    cases hok
  · rw [hok'] at hok
    cases hok
    exact hlocate

theorem rearm_halves {s : Streams g} {e e' : Endpoint} {mem : Mem Addr}
    (hok : ((e.rearm s).run mem).1 = .ok e') :
    e'.read = e.read ∧ e'.write.handle = e.write.handle := by
  unfold Endpoint.rearm at hok
  split at hok
  next => cases hok
  next =>
    rw [Prog.run_bind] at hok
    split at hok
    next => cases hok
    next =>
      cases hok
      exact ⟨rfl, rfl⟩

theorem exec_halves (op : Op g) :
    (∀ half ∈ (exec w op).reads, half ∈ w.reads ∨ ∃ e ∈ w.endpoints, e.read = half) ∧
      ∀ half ∈ (exec w op).writes, half ∈ w.writes ∨ ∃ e ∈ w.endpoints, e.write = half := by
  have hreads : ∀ half ∈ w.reads, half ∈ w.reads ∨ ∃ e ∈ w.endpoints, e.read = half :=
    fun half h => .inl h
  have hwrites : ∀ half ∈ w.writes, half ∈ w.writes ∨ ∃ e ∈ w.endpoints, e.write = half :=
    fun half h => .inl h
  cases op with
  | create s | openTicket s ticket | rearm s n | drop n =>
    simp only [exec]
    split
    · first
        | exact ⟨hreads, hwrites⟩
        | (split <;> exact ⟨hreads, hwrites⟩)
    · exact ⟨hreads, hwrites⟩
  | split n =>
    simp only [exec]
    split
    next e he =>
      refine ⟨fun half h => ?_, fun half h => ?_⟩
      · rcases mem_cons.mp h with rfl | h
        · exact .inr ⟨e, mem_of_getElem? he, rfl⟩
        · exact .inl h
      · rcases mem_cons.mp h with rfl | h
        · exact .inr ⟨e, mem_of_getElem? he, rfl⟩
        · exact .inl h
    next => exact ⟨hreads, hwrites⟩
  | rejoin m n =>
    simp only [exec]
    split
    next =>
      split
      next =>
        unfold World.rejoin
        split
        next => exact ⟨fun half h => .inl (List.mem_of_mem_eraseIdx h),
          fun half h => .inl (List.mem_of_mem_eraseIdx h)⟩
        next => exact ⟨fun half h => .inl (List.mem_of_mem_eraseIdx h),
          fun half h => .inl (List.mem_of_mem_eraseIdx h)⟩
      next => exact ⟨hreads, hwrites⟩
    next => exact ⟨hreads, hwrites⟩
  | dropRead n =>
    simp only [exec]
    split
    next => exact ⟨fun half h => .inl (List.mem_of_mem_eraseIdx h), hwrites⟩
    next => exact ⟨hreads, hwrites⟩
  | dropWrite n =>
    simp only [exec]
    split
    next => exact ⟨hreads, fun half h => .inl (List.mem_of_mem_eraseIdx h)⟩
    next => exact ⟨hreads, hwrites⟩

/-- The endpoints after an operation: what they were with the new record of a writer, a new handle,
or two halves that were held. -/
theorem exec_endpoints (op : Op g) (he : e ∈ (exec w op).endpoints) :
    (∃ old ∈ w.endpoints, e.read = old.read ∧ e.write.handle = old.write.handle) ∨
      (∃ arc handle, Located g handle ∧ e = .new arc handle) ∨
      ∃ m n, op = .rejoin m n ∧ w.reads[m]? = some e.read ∧ w.writes[n]? = some e.write ∧
        sameProcess e.read e.write = true ∧ e.read.handle.id = e.write.handle.id := by
  have hold : e ∈ w.endpoints →
      ∃ old ∈ w.endpoints, e.read = old.read ∧ e.write.handle = old.write.handle :=
    fun hmem => ⟨e, hmem, rfl, rfl⟩
  cases op with
  | create s =>
    simp only [exec] at he
    split at he
    next handle ticket hok =>
      rcases mem_cons.mp he with rfl | he
      · exact .inr (.inl ⟨_, handle, located_create s w.mem hok, rfl⟩)
      · exact .inl (hold he)
    next => exact .inl (hold he)
  | openTicket s ticket =>
    simp only [exec] at he
    split at he
    next handle hok =>
      rcases mem_cons.mp he with rfl | he
      · exact .inr (.inl ⟨_, handle, located_open s ticket w.mem hok, rfl⟩)
      · exact .inl (hold he)
    next => exact .inl (hold he)
  | split n =>
    simp only [exec] at he
    split at he
    next => exact .inl (hold (List.mem_of_mem_eraseIdx he))
    next => exact .inl (hold he)
  | rejoin m n =>
    simp only [exec] at he
    split at he
    next read write hread hwrite =>
      split at he
      next hprocess =>
        unfold World.rejoin at he
        split at he
        next joined hjoin =>
          rcases mem_cons.mp he with rfl | he
          · unfold Endpoint.rejoin at hjoin
            split at hjoin
            next => cases hjoin
            next hid =>
              cases hjoin
              exact .inr (.inr ⟨m, n, rfl, hread, hwrite, hprocess, not_not.mp hid⟩)
          · exact .inl (hold he)
        next => exact .inl (hold he)
      next => exact .inl (hold he)
    next => exact .inl (hold he)
  | rearm s n =>
    simp only [exec] at he
    split at he
    next old hold' =>
      split at he
      next new hok =>
        rcases mem_or_eq_of_mem_set he with he | rfl
        · exact .inl (hold he)
        · refine .inl ⟨old, mem_of_getElem? hold', ?_⟩
          exact rearm_halves hok
      next => exact .inl (hold he)
    next => exact .inl (hold he)
  | drop n =>
    simp only [exec] at he
    split at he
    next => exact .inl (hold (List.mem_of_mem_eraseIdx he))
    next => exact .inl (hold he)
  | dropRead n =>
    simp only [exec] at he
    split at he
    next => exact .inl (hold he)
    next => exact .inl (hold he)
  | dropWrite n =>
    simp only [exec] at he
    split at he
    next => exact .inl (hold he)
    next => exact .inl (hold he)

theorem World.Placed.exec (h : w.Placed g) (op : Op g) : (exec w op).Placed g where
  endpoints e he := by
    rcases exec_endpoints op he with ⟨old, hold, hread, hwrite⟩ | ⟨arc, handle, hlocated, rfl⟩ |
      ⟨m, n, -, hread, hwrite, -, hid⟩
    · rw [hread, hwrite]
      exact h.endpoints old hold
    · exact ⟨hlocated, hlocated, rfl⟩
    · exact ⟨h.reads _ (mem_of_getElem? hread), h.writes _ (mem_of_getElem? hwrite), hid⟩
  reads half hhalf := by
    rcases (exec_halves op).1 half hhalf with hhalf | ⟨e, he, rfl⟩
    · exact h.reads half hhalf
    · exact (h.endpoints e he).1
  writes half hhalf := by
    rcases (exec_halves op).2 half hhalf with hhalf | ⟨e, he, rfl⟩
    · exact h.writes half hhalf
    · exact (h.endpoints e he).2.1

theorem Endpoint.matched_iff (hread : Located g e.read.handle) (hwrite : Located g e.write.handle)
    (hid : e.read.handle.id = e.write.handle.id) : (e.Matched ↔ ¬e.ReadsOwn) ∧
      (e.Matched ↔ e.read.handle.side = e.write.handle.side) := by
  have hindex := hread.same hwrite hid
  have hside : e.read.handle.side.readDirection = e.write.handle.side.writeDirection ↔
      ¬e.read.handle.side = e.write.handle.side := by
    constructor
    · intro hsame heq
      rw [heq] at hsame
      exact Side.other_ne _ hsame
    · intro hne
      rw [Side.eq_other hne]
      exact Side.other_other _
  have hmatched : e.Matched ↔ e.read.handle.side = e.write.handle.side :=
    ⟨Endpoint.Matched.side, fun heq => ⟨hindex, hid, heq⟩⟩
  refine ⟨?_, hmatched⟩
  rw [hmatched, Endpoint.ReadsOwn, and_iff_right hindex, hside, not_not]

/-- Every endpoint has its halves on one side of one stream. -/
def World.AllMatched (w : World) : Prop := ∀ e ∈ w.endpoints, e.Matched

theorem World.AllMatched.exec (hplaced : w.Placed g) (h : w.AllMatched) {op : Op g}
    (hop : OneSided w op) : (exec w op).AllMatched := by
  intro e he
  rcases exec_endpoints op he with ⟨old, hold, hread, hwrite⟩ | ⟨arc, handle, -, rfl⟩ |
    ⟨m, n, rfl, hread, hwrite, hprocess, hid⟩
  · obtain ⟨hindex, hid, hside⟩ := h old hold
    exact ⟨by rw [hread, hwrite]; exact hindex, by rw [hread, hwrite]; exact hid,
      by rw [hread, hwrite]; exact hside⟩
  · exact ⟨rfl, rfl, rfl⟩
  · have hread' := hplaced.reads _ (mem_of_getElem? hread)
    have hwrite' := hplaced.writes _ (mem_of_getElem? hwrite)
    exact (Endpoint.matched_iff hread' hwrite' hid).2.mpr (hop _ _ hread hwrite hprocess hid)

theorem oneSided_of_matched {op : Op g} (h : (exec w op).AllMatched) : OneSided w op := by
  cases op with
  | rejoin m n =>
    intro read write hread hwrite hprocess hid
    have hmem : (⟨read, write⟩ : Endpoint) ∈ (exec w (.rejoin m n : Op g)).endpoints := by
      simp only [Halves.exec, hread, hwrite, hprocess, if_true]
      rw [World.rejoin, Endpoint.rejoin, if_neg (not_not.mpr hid)]
      exact mem_cons_self
    exact (h _ hmem).side
  | create | openTicket | split | rearm | drop | dropRead | dropWrite => trivial

theorem World.Placed.matched_iff (h : w.Placed g) :
    w.AllMatched ↔ ∀ e ∈ w.endpoints, ¬e.ReadsOwn := by
  refine forall₂_congr fun e he => ?_
  obtain ⟨hread, hwrite, hid⟩ := h.endpoints e he
  exact (Endpoint.matched_iff hread hwrite hid).1

/-- In all states of a run the halves of every endpoint are of one side of one stream, and in none
does an endpoint read what it writes, just when no `rejoin` of the run is given halves of the two
sides of one stream. -/
theorem rejoined_matched (ops : List (Op g)) :
    ((∀ n, (run (ops.take n)).AllMatched) ↔ Meets exec OneSided .init ops) ∧
      ((∀ n, ∀ e ∈ (run (ops.take n)).endpoints, ¬e.ReadsOwn) ↔ Meets exec OneSided .init ops) := by
  have hkeep : ∀ (w : World) (op : Op g), w.Placed g ∧ w.AllMatched → OneSided w op →
      (Halves.exec w op).Placed g ∧ (Halves.exec w op).AllMatched :=
    fun w op h hop => ⟨h.1.exec op, h.2.exec h.1 hop⟩
  have hinit : World.init.Placed g ∧ World.init.AllMatched :=
    ⟨World.Placed.init, fun e he => (by cases he)⟩
  refine ⟨meets_iff hkeep (fun w h => h.2) (fun w op _ h => oneSided_of_matched h) ops hinit, ?_⟩
  refine meets_iff hkeep (fun w h => h.1.matched_iff.mp h.2) (fun w op h hown => ?_) ops hinit
  exact oneSided_of_matched ((h.1.exec op).matched_iff.mpr hown)

/-- A process creates a stream and opens its own ticket, splits both endpoints, and puts the read
half of one side and the write half of the other together. -/
def crossed : List (Op oneSlot) :=
  [.create (processOf 1), .openTicket (processOf 1) ⟨⟨1, 0, 0, 1⟩, .b, 0⟩, .split 0, .split 0,
    .rejoin 0 1]

def Endpoint.echo (g : Geometry) (e : Endpoint) (byte : UInt8) :
    StreamM (Except Error (List UInt8)) := do
  let _ ← e.write.handle.tryWrite g [byte]
  e.read.handle.tryRead g 1

/-- `rejoin` takes them, and what the endpoint writes it reads back. -/
theorem crossed_reads_own :
    ¬Meets exec OneSided .init crossed ∧
      ∃ e, (run crossed).endpoints = [e] ∧ e.read.handle.side = .a ∧ e.write.handle.side = .b ∧
        ((e.echo oneSlot 7).run (run crossed).mem).1.toOption = some [7] := by
  have hrun : (run crossed).endpoints =
      [⟨⟨0, ⟨0, 1, 0, ⟨1, 0, 0, 1⟩, .a⟩⟩, ⟨1, ⟨0, 1, 0, ⟨1, 0, 0, 1⟩, .b⟩, false⟩⟩] := by
    decide +kernel
  refine ⟨fun h => ?_, _, hrun, rfl, rfl, by decide +kernel⟩
  obtain ⟨-, -, -, -, hop, -⟩ := h
  have hside := hop ⟨0, ⟨0, 1, 0, ⟨1, 0, 0, 1⟩, .a⟩⟩ ⟨1, ⟨0, 1, 0, ⟨1, 0, 0, 1⟩, .b⟩, false⟩
    (by decide +kernel) (by decide +kernel) rfl rfl
  cases hside

end OrbitStream.Halves
