import Orbit.Atomic.Word
import Orbit.Atomic.Machine
import Orbit.Stream.Bytes
import Mathlib.Logic.Function.Basic

/-! The readiness of one direction of a stream: its writer and its reader in two processes, the
polls that leave a waker behind, the calls that ring the other process, and the driver of each
process, which turns the doorbell of its node into wakes.

A half that is held keeps its slot, so the checks of the slot's generation pass.  The bytes and the
results of the calls are left out, and so are the blocking waiters, who wait on `changes`. -/

namespace OrbitStream.Readiness

open Orbit.Atomic

/-- The reader and the writer of the direction. -/
inductive Half where
  | reader
  | writer
  deriving DecidableEq

def Half.peer : Half → Half
  | reader => writer
  | writer => reader

/-- Where the driver of a node is in `run`. -/
inductive Driver where
  | off
  | enters
  | loads
  /-- The pending bits of the word are swapped out next. -/
  | swaps (seen word : Nat)
  /-- The wakers of the lowest of the bits are taken next. -/
  | drains (seen word bits : Nat)
  /-- A waker that was taken is woken next. -/
  | wakes (seen word bits waker : Nat)
  /-- The generation is loaded again next. -/
  | checks (seen : Nat)
  /-- The driver waits on the generation next. -/
  | waits (seen : Nat)
  | parked (seen : Nat)
  deriving DecidableEq

def Driver.woken : Driver → Driver
  | parked seen => swaps seen 0
  | driver => driver

/-- The process of a half: what it shares of its node, the waker that it keeps for the half, its
driver, and the task that polled the half last.  The task counts as woken as soon as its waker is,
also while the poll still runs. -/
structure Process where
  pending : Nat → Nat
  generation : Nat
  listening : Nat
  place : Option Nat
  driver : Driver
  waker : Nat
  woken : Bool

/-- The bit of a slot is set in the words of a node. -/
def hasBit (words : Nat → Nat) (index : Nat) : Bool := (words (index / 64)).testBit (index % 64)

/-- `Interest` is the half's own, and a task that registers again finds its waker there. -/
def Process.register (p : Process) : Process := { p with place := some p.waker }

def Process.polls (p : Process) (waker : Nat) : Process := { p with waker := waker, woken := false }

def Process.wake (p : Process) (waker : Nat) : Process :=
  { p with woken := p.woken || p.waker == waker }

section

variable (g : Geometry) (i : Fin g.totalSlots)

def bitmapWords : Nat := (g.totalSlots + 63) / 64

/-- A step of the driver.  The wakers of the other slots are not modelled. -/
def stepDriver (p : Process) : Option Process :=
  match p.driver with
  | .off => none
  | .enters => some { p with listening := (p.listening + 1) % 2 ^ 32, driver := .loads }
  | .loads => some { p with driver := .swaps p.generation 0 }
  | .swaps seen word =>
    if word < bitmapWords g then
      some { p with
        pending := Function.update p.pending word 0
        driver := .drains seen word (p.pending word) }
    else some { p with driver := .checks seen }
  | .drains seen word bits =>
    if bits = 0 then some { p with driver := .swaps seen (word + 1) }
    else
      let rest := clearLowest bits
      if word * 64 + trailingZeros bits = i then
        match p.place with
        | some waker => some { p with place := none, driver := .wakes seen word rest waker }
        | none => some { p with driver := .drains seen word rest }
      else some { p with driver := .drains seen word rest }
  | .wakes seen word bits waker => some { p.wake waker with driver := .drains seen word bits }
  | .checks seen =>
    some { p with
      driver := if p.generation ≠ seen then .swaps p.generation 0 else .waits seen }
  | .waits seen =>
    some { p with driver := if p.generation = seen then .parked seen else .swaps seen 0 }
  | .parked _ => none

/-- Where a call is in `notify`. -/
inductive Notify where
  /-- The changes are counted next, and the peer is rung if `ring`. -/
  | counts (ring : Bool)
  /-- The pending bit is set next. -/
  | sets
  /-- The generation is incremented next. -/
  | rings
  /-- The listening count is loaded next. -/
  | listens
  /-- The driver is woken next. -/
  | wakes
  deriving DecidableEq

/-- A step of `notify`: what becomes of the count of changes, of the process that is rung, and of the
call. -/
def stepNotify (changes : Nat) (p : Process) : Notify → Nat × Process × Option Notify
  | .counts ring => ((changes + 1) % 2 ^ 32, p, if ring then some .sets else none)
  | .sets =>
    let word := p.pending (i.val / 64) ||| 2 ^ (i.val % 64)
    (changes, { p with pending := Function.update p.pending (i.val / 64) word }, some .rings)
  | .rings => (changes, { p with generation := (p.generation + 1) % 2 ^ 32 }, some .listens)
  | .listens => (changes, p, if p.listening > 0 then some .wakes else none)
  | .wakes => (changes, { p with driver := p.driver.woken }, none)

def readable (head tail flags : Nat) : Bool :=
  head != tail || flags &&& (flagFin ||| flagReset) != 0

def writable (head tail flags : Nat) : Bool :=
  decide (sub64 head tail < g.bufferBytes) ||
    flags &&& (flagFin ||| flagReset ||| flagReaderGone) != 0

def writableExact (needed head tail flags : Nat) : Bool :=
  decide (needed ≤ g.bufferBytes - sub64 head tail) ||
    flags &&& (flagFin ||| flagReset ||| flagReaderGone) != 0

/-- What `peer_closed` waits for. -/
def peerClosed (flags : Nat) : Bool := flags &&& (flagReset ||| flagReaderGone) != 0

/-- The three waits of a writer. -/
inductive Wait where
  | writable
  | exact (needed : Nat)
  | closed
  deriving DecidableEq

def Wait.room (head tail : Nat) : Wait → Bool
  | writable => decide (sub64 head tail < g.bufferBytes)
  | exact needed => decide (needed ≤ g.bufferBytes - sub64 head tail)
  | closed => false

def Wait.mask : Wait → Nat
  | writable | exact _ => flagFin ||| flagReset ||| flagReaderGone
  | closed => flagReset ||| flagReaderGone

def Wait.ready (head tail flags : Nat) : Wait → Bool
  | writable => Readiness.writable g head tail flags
  | exact needed => writableExact g needed head tail flags
  | closed => peerClosed flags

/-- `writer_gained_capacity`, of the values that it loads. -/
def gained (head needed flags before after : Nat) : Bool :=
  if needed = 0 then decide (g.bufferBytes ≤ sub64 head before)
  else if flags &&& (flagFin ||| flagReset ||| flagReaderGone) ≠ 0 then false
  else decide (g.bufferBytes - sub64 head before < needed) &&
    decide (needed ≤ g.bufferBytes - sub64 head after)

end

/-- A read or a write of a length, whole or not at all when it is exact. -/
structure Access where
  len : Nat
  exact : Bool
  deriving DecidableEq

/-- Where the reader is in `poll_readable`, `try_read`, `try_read_exact` or `set_flag`.  A look is
the second one when it comes `again`. -/
inductive Reader where
  | idle
  | looksHead (again : Bool)
  | looksTail (again : Bool) (head : Nat)
  | looksFlags (again : Bool)
  | registers
  /-- The driver is started next, if there is none. -/
  | starts
  | pending
  | loadsFlags (access : Access)
  | loadsHead (access : Access)
  | loadsTail (access : Access) (head : Nat)
  | storesTail (tail len : Nat)
  /-- The head is loaded next, the first word of `writer_gained_capacity`. -/
  | gainsHead (before after : Nat)
  | gainsExact (before after head : Nat)
  | gainsFlags (before after head needed : Nat)
  | raises
  /-- The head is loaded next, the first word of `writer_may_park`. -/
  | parksHead
  | parksTail (head : Nat)
  | notifies (notify : Notify)
  deriving DecidableEq

/-- What comes after `clear_exact_wait`: a look at whether the ring is writable, a write, or
nothing. -/
inductive After where
  | looks (again : Bool)
  | writes (access : Access)
  | ends
  deriving DecidableEq

/-- Where the writer is in a poll, `try_write`, `try_write_exact` or `set_flag`. -/
inductive Writer where
  | idle
  /-- `exact_needed` is stored next. -/
  | publishes (needed : Nat)
  /-- `FLAG_CLOSE_WATCH` is set next. -/
  | watches
  /-- `exact_needed` is loaded next, and then cleared. -/
  | loadsExact (after : After)
  | storesExact (after : After)
  | looksHead (wait : Wait) (again : Bool)
  | looksTail (wait : Wait) (again : Bool) (head : Nat)
  | looksFlags (wait : Wait) (again : Bool)
  | registers (wait : Wait)
  | starts (wait : Wait)
  | pending (wait : Wait)
  /-- `FLAG_CLOSE_WATCH` is cleared next. -/
  | unwatches
  | loadsFlags (access : Access)
  | loadsHead (access : Access)
  | loadsTail (access : Access) (head : Nat)
  | storesHead (head len : Nat)
  /-- The tail is loaded next, to see whether the reader had drained the ring. -/
  | looksBack (head : Nat)
  | raises (flag : Nat)
  | notifies (notify : Notify)
  deriving DecidableEq

def After.writer : After → Writer
  | looks again => .looksHead .writable again
  | writes access => .loadsFlags access
  | ends => .idle

def Wait.look (again : Bool) : Wait → Writer
  | writable => .loadsExact (.looks again)
  | exact needed => .looksHead (.exact needed) again
  | closed => .looksFlags .closed again

def Wait.done : Wait → Writer
  | writable => .idle
  | exact _ => .loadsExact .ends
  | closed => .unwatches

/-- The direction, its two halves and their processes.  A writer that is `watching` holds the future
of `peer_closed`, and one that has `shut` the direction resets it no more when it is dropped. -/
structure State where
  head : Nat
  tail : Nat
  flags : Nat
  exactNeeded : Nat
  changes : Nat
  reader : Reader
  writer : Writer
  readerDropped : Bool
  writerDropped : Bool
  watching : Bool
  shut : Bool
  processes : Half → Process

def State.setProcess (s : State) (half : Half) (p : Process) : State :=
  { s with processes := Function.update s.processes half p }

def Reader.atRest : Reader → Bool
  | idle | pending => true
  | _ => false

def Writer.atRest : Writer → Bool
  | idle | pending _ => true
  | _ => false

section

variable (g : Geometry) (i : Fin g.totalSlots)

/-- The call goes on in `notify`, or it is over. -/
def State.notify (s : State) (half : Half) (n : Notify) : State × Option Notify :=
  let r := stepNotify g i s.changes (s.processes half) n
  ({ s with changes := r.1 }.setProcess half r.2.1, r.2.2)

/-- A step of the reader; `refused` is a driver that cannot be started. -/
def stepReader (s : State) (refused : Bool) : Option State :=
  match s.reader with
  | .idle | .pending => none
  | .looksHead again => some { s with reader := .looksTail again s.head }
  | .looksTail again head =>
    some { s with reader := if head ≠ s.tail then .idle else .looksFlags again }
  | .looksFlags again =>
    some { s with
      reader :=
        if s.flags &&& (flagFin ||| flagReset) ≠ 0 then .idle
        else if again then .pending
        else .registers }
  | .registers =>
    some { s.setProcess .reader (s.processes .reader).register with reader := .starts }
  | .starts =>
    match (s.processes .reader).driver with
    | .off =>
      if refused then some { s with reader := .idle }
      else some { s.setProcess .reader { s.processes .reader with driver := .enters } with
        reader := .looksHead true }
    | _ => some { s with reader := .looksHead true }
  | .loadsFlags access =>
    some { s with
      reader :=
        if s.flags &&& flagReset ≠ 0 then .idle
        else if access.exact && (decide (g.bufferBytes < access.len) || access.len == 0) then .idle
        else .loadsHead access }
  | .loadsHead access => some { s with reader := .loadsTail access s.head }
  | .loadsTail access head =>
    let available := sub64 head s.tail
    some { s with
      reader :=
        if access.len = 0 then .idle
        else if access.exact then
          if available < access.len then .idle else .storesTail s.tail access.len
        else if available = 0 then .idle
        else .storesTail s.tail (min access.len available) }
  | .storesTail tail len =>
    some { s with tail := add64 tail len, reader := .gainsHead tail (add64 tail len) }
  | .gainsHead before after => some { s with reader := .gainsExact before after s.head }
  | .gainsExact before after head =>
    some { s with
      reader :=
        if s.exactNeeded = 0 then .notifies (.counts (decide (g.bufferBytes ≤ sub64 head before)))
        else .gainsFlags before after head s.exactNeeded }
  | .gainsFlags before after head needed =>
    some { s with reader := .notifies (.counts (gained g head needed s.flags before after)) }
  | .raises =>
    some { s with
      flags := s.flags ||| flagReaderGone
      reader :=
        if s.flags &&& flagReaderGone ≠ 0 then .idle
        else if s.flags &&& flagCloseWatch ≠ 0 then .notifies (.counts true)
        else if s.flags &&& (flagFin ||| flagReset) ≠ 0 then .notifies (.counts false)
        else .parksHead }
  | .parksHead => some { s with reader := .parksTail s.head }
  | .parksTail head => some { s with reader := .notifies (.counts (head != s.tail)) }
  | .notifies n =>
    let r := s.notify g i .writer n
    some { r.1 with reader := r.2.elim .idle .notifies }

def stepWriter (s : State) (refused : Bool) : Option State :=
  match s.writer with
  | .idle | .pending _ => none
  | .publishes needed =>
    some { s with exactNeeded := needed % 2 ^ 32, writer := (Wait.exact needed).look false }
  | .watches =>
    some { s with
      flags := s.flags ||| flagCloseWatch, watching := true, writer := Wait.closed.look false }
  | .loadsExact after =>
    some { s with writer := if s.exactNeeded ≠ 0 then .storesExact after else after.writer }
  | .storesExact after => some { s with exactNeeded := 0, writer := after.writer }
  | .looksHead wait again => some { s with writer := .looksTail wait again s.head }
  | .looksTail wait again head =>
    some { s with writer := if wait.room g head s.tail then wait.done else .looksFlags wait again }
  | .looksFlags wait again =>
    some { s with
      writer :=
        if s.flags &&& wait.mask ≠ 0 then wait.done
        else if again then .pending wait
        else .registers wait }
  | .registers wait =>
    some { s.setProcess .writer (s.processes .writer).register with writer := .starts wait }
  | .starts wait =>
    match (s.processes .writer).driver with
    | .off =>
      if refused then some { s with writer := wait.done }
      else some { s.setProcess .writer { s.processes .writer with driver := .enters } with
        writer := wait.look true }
    | _ => some { s with writer := wait.look true }
  | .unwatches =>
    some { s with
      flags := s.flags ^^^ (s.flags &&& flagCloseWatch), watching := false, writer := .idle }
  | .loadsFlags access =>
    some { s with
      writer :=
        if (refusedBy s.flags).isSome then .idle
        else if access.exact && (decide (g.bufferBytes < access.len) || access.len == 0) then .idle
        else .loadsHead access }
  | .loadsHead access => some { s with writer := .loadsTail access s.head }
  | .loadsTail access head =>
    let free := g.bufferBytes - sub64 head s.tail
    some { s with
      writer :=
        if access.len = 0 then .idle
        else if access.exact then
          if free < access.len then .idle else .storesHead head access.len
        else if free = 0 then .idle
        else .storesHead head (min access.len free) }
  | .storesHead head len => some { s with head := add64 head len, writer := .looksBack head }
  | .looksBack head => some { s with writer := .notifies (.counts (decide (head ≤ s.tail))) }
  | .raises flag =>
    some { s with
      flags := s.flags ||| flag
      writer := if s.flags &&& flag ≠ 0 then .idle else .notifies (.counts true) }
  | .notifies n =>
    let r := s.notify g i .reader n
    some { r.1 with writer := r.2.elim .idle .notifies }

inductive Action where
  | pollReadable (waker : Nat)
  | tryRead (len : Nat)
  | tryReadExact (len : Nat)
  | stopReading
  | dropReader
  | pollWritable (waker : Nat)
  | pollWritableExact (needed waker : Nat)
  /-- The future of `peer_closed` is polled the first time. -/
  | peerClosed (waker : Nat)
  | pollClosed (waker : Nat)
  | dropClosed
  | tryWrite (len : Nat)
  | tryWriteReady (len : Nat)
  | tryWriteExact (len : Nat)
  | finish
  | reset
  | dropWriter
  | reader (refused : Bool)
  | writer (refused : Bool)
  | driver (half : Half)
  | interrupt (half : Half)
  /-- Other streams set bits of the node of a half. -/
  | others (half : Half) (word bits : Nat)
  /-- Another call increments the generation of the node of a half. -/
  | bumps (half : Half)

def State.polls (s : State) (half : Half) (waker : Nat) : State :=
  s.setProcess half ((s.processes half).polls waker)

def State.reads (s : State) (reader : Reader) : Option State :=
  if s.reader.atRest && !s.readerDropped then some { s with reader := reader } else none

/-- The writer begins a call, which it does not while it holds the future of `peer_closed`. -/
def State.writes (s : State) (writer : Writer) : Option State :=
  if s.writer.atRest && !s.writerDropped && !s.watching then some { s with writer := writer }
  else none

/-- The future of `peer_closed` is polled again, or dropped. -/
def State.watches (s : State) (writer : Writer) : Option State :=
  if s.writer.atRest && s.watching then some { s with writer := writer } else none

def step (s : State) : Action → Option State
  | .pollReadable waker => (s.polls .reader waker).reads (.looksHead false)
  | .tryRead len => s.reads (.loadsFlags ⟨len, false⟩)
  | .tryReadExact len => s.reads (.loadsFlags ⟨len, true⟩)
  | .stopReading => s.reads .raises
  | .dropReader => (s.reads .raises).map fun s => { s with readerDropped := true }
  | .pollWritable waker => (s.polls .writer waker).writes (Wait.writable.look false)
  | .pollWritableExact needed waker =>
    (s.polls .writer waker).writes
      (if g.bufferBytes < needed then .loadsExact .ends else .publishes needed)
  | .peerClosed waker => (s.polls .writer waker).writes .watches
  | .pollClosed waker => (s.polls .writer waker).watches (Wait.closed.look false)
  | .dropClosed => s.watches .unwatches
  | .tryWrite len => s.writes (.loadsExact (.writes ⟨len, false⟩))
  | .tryWriteReady len => s.writes (.loadsFlags ⟨len, false⟩)
  | .tryWriteExact len => s.writes (.loadsExact (.writes ⟨len, true⟩))
  | .finish => { s with shut := true }.writes (.raises flagFin)
  | .reset => { s with shut := true }.writes (.raises flagReset)
  | .dropWriter =>
    (s.writes (if s.shut then .idle else .raises flagReset)).map
      fun s => { s with writerDropped := true }
  | .reader refused => stepReader g i s refused
  | .writer refused => stepWriter g i s refused
  | .driver half => (stepDriver g i (s.processes half)).map (s.setProcess half)
  | .interrupt half =>
    let p := s.processes half
    some (s.setProcess half { p with driver := p.driver.woken })
  | .others half word bits =>
    let p := s.processes half
    some (s.setProcess half
      { p with pending := Function.update p.pending word (p.pending word ||| bits) })
  | .bumps half =>
    let p := s.processes half
    some (s.setProcess half { p with generation := (p.generation + 1) % 2 ^ 32 })

end

/-- A stream just made: its ring is empty, and nobody has called.  What the nodes have pending, the
wakers left behind and the drivers may be those of other streams. -/
structure Start (s : State) : Prop where
  head : s.head = 0
  tail : s.tail = 0
  flags : s.flags = 0
  exactNeeded : s.exactNeeded = 0
  reader : s.reader = .idle
  writer : s.writer = .idle
  watching : s.watching = false

end OrbitStream.Readiness
