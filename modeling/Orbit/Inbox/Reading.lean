import Orbit.Atomic.Machine
import Mathlib.Algebra.Group.Nat.Defs
import Mathlib.Logic.Function.Basic

/-! The reader of a claimed lane: its looks at the lane and the directory, the arming of its socket, its
waits, and the writers and announcers that wake it, one access at a time. -/

namespace OrbitInbox.Reading

open Orbit.Atomic

/-- The capacity of the lane, and the epoch of its owner. -/
structure Lane where
  capacity : Nat
  epoch : Nat

/-- What is at a position of the lane, from its reservation until it is read. -/
inductive Frame where
  | free
  | reserved
  /-- For the owner of an epoch. -/
  | committed (epoch : Nat)
  | cancelled
  deriving DecidableEq

/-- Where a call is in `wake`. -/
inductive Wake where
  /-- The changes are incremented next. -/
  | counts
  /-- The waiters are loaded next. -/
  | looks
  /-- The reader that is parked is woken next. -/
  | notifies
  /-- The interest of the reactor is swapped next. -/
  | swaps
  /-- The datagram is sent next. -/
  | rings
  /-- The datagram could not be sent, the interest is set again next. -/
  | rearms
  deriving DecidableEq

/-- Where a thread is that writes a frame, claims or releases a lane, or nudges. -/
inductive Caller where
  | idle
  /-- It has reserved a position, which it is going to commit, for the epoch it has seen, or cancel. -/
  | holds (position epoch : Nat)
  /-- The directory has moved; whether the lane has a consumer is loaded next. -/
  | announces
  | wakes (wake : Wake)
  deriving DecidableEq

/-- `next`, or a loop of `wait_word`, `read` and `park`. -/
inductive Mode where
  | next
  | park
  deriving DecidableEq

/-- Where the reader is; `seen` are the changes that there had been when it loaded their word. -/
inductive Reader where
  | idle
  /-- The directory is loaded next. -/
  | compares
  /-- The changes are loaded next. -/
  | loads (mode : Mode)
  /-- The end of the reserved positions is loaded next, for one of `n` turns. -/
  | reads (mode : Mode) (seen n : Nat)
  /-- The frame at the position is looked at next. -/
  | looks (mode : Mode) (seen n : Nat)
  /-- The position is given up next, and its frame delivered or not. -/
  | consumes (mode : Mode) (seen n : Nat) (deliver : Bool)
  /-- The interest of the reactor is cleared next. -/
  | disarms (seen : Nat)
  /-- The socket is drained next. -/
  | drains (seen : Nat)
  /-- The interest of the reactor is set next. -/
  | arms (seen : Nat)
  /-- The changes are loaded again next. -/
  | rechecks (seen : Nat)
  /-- The directory is loaded again next. -/
  | rechecksDirectory
  /-- There has been a change, the interest is cleared next. -/
  | disarmsAgain
  /-- In the wait for the socket. -/
  | waits
  /-- The socket was readable, and is drained next. -/
  | clears
  /-- Nothing was read before a park, the directory is loaded next. -/
  | comparesAgain (seen : Nat)
  /-- The reader is counted in next. -/
  | registers (seen : Nat)
  /-- The wait on the changes is next. -/
  | parks (seen : Nat)
  | parked
  /-- The reader is counted out next. -/
  | leaves
  deriving DecidableEq

structure State where
  /-- Whether the lane has a consumer. -/
  claimed : Bool
  read : Nat
  reserve : Nat
  frames : Nat → Frame
  /-- How often the changes have been incremented. -/
  bumps : Nat
  waiters : Nat
  reactor : Bool
  directory : UInt64
  /-- The generation of the directory that the reader last reported. -/
  reported : UInt64
  /-- The datagrams in the socket. -/
  datagrams : Nat
  /-- Whether a datagram could not be sent. -/
  failed : Bool
  callers : Nat → Caller
  reader : Reader

/-- The word of 32 bits that counts changes. -/
def word (bumps : Nat) : Nat := bumps % 2 ^ 32

def State.setCaller (s : State) (c : Nat) (caller : Caller) : State :=
  { s with callers := Function.update s.callers c caller }

def State.wake (s : State) : State :=
  { s with reader := if s.reader = .parked then .leaves else s.reader }

/-- A step of a thread in `wake`, or in an announcement; `fails` is a datagram that cannot be sent. -/
def call (s : State) (c : Nat) (fails : Bool) : Option State :=
  match s.callers c with
  | .idle => none
  | .holds .. => none
  | .announces => some (s.setCaller c (if s.claimed then .wakes .counts else .idle))
  | .wakes .counts => some ({ s with bumps := s.bumps + 1 }.setCaller c (.wakes .looks))
  | .wakes .looks => some (s.setCaller c (.wakes (if s.waiters = 0 then .swaps else .notifies)))
  | .wakes .notifies => some (s.wake.setCaller c (.wakes .swaps))
  | .wakes .swaps =>
    some ({ s with reactor := false }.setCaller c (if s.reactor then .wakes .rings else .idle))
  | .wakes .rings =>
    if fails then some ({ s with failed := true }.setCaller c (.wakes .rearms))
    else some ({ s with datagrams := s.datagrams + 1 }.setCaller c .idle)
  | .wakes .rearms => some ({ s with reactor := true }.setCaller c .idle)

/-- A read that finds nothing is over. -/
def Mode.nothing (mode : Mode) (seen : Nat) : Reader :=
  match mode with
  | .next => .disarms seen
  | .park => .comparesAgain seen

/-- A frame has been read: `next` returns, a loop that parks reads on. -/
def Mode.delivered (mode : Mode) (lane : Lane) (seen : Nat) : Reader :=
  match mode with
  | .next => .idle
  | .park => .reads .park seen lane.capacity

def Mode.look (mode : Mode) (lane : Lane) (seen n : Nat) : Frame → Reader
  | .committed epoch => .consumes mode seen n (epoch = lane.epoch)
  | .cancelled => .consumes mode seen n false
  | .free => mode.nothing seen
  | .reserved => mode.nothing seen

def read (lane : Lane) (s : State) : Option State :=
  match s.reader with
  | .idle => none
  | .compares =>
    if s.directory ≠ s.reported then some { s with reported := s.directory, reader := .idle }
    else some { s with reader := .loads .next }
  | .loads mode => some { s with reader := .reads mode s.bumps lane.capacity }
  | .reads mode seen n =>
    some { s with reader :=
      if n = 0 ∨ s.reserve ≤ s.read then mode.nothing seen else .looks mode seen n }
  | .looks mode seen n => some { s with reader := mode.look lane seen n (s.frames s.read) }
  | .consumes mode seen n deliver =>
    some { s with
      read := s.read + 1
      reader := if deliver then mode.delivered lane seen else .reads mode seen (n - 1) }
  | .disarms seen => some { s with reactor := false, reader := .drains seen }
  | .drains seen =>
    some { s with
      datagrams := s.datagrams - 1
      reader := if s.datagrams = 0 then .arms seen else .drains seen }
  | .arms seen => some { s with reactor := true, reader := .rechecks seen }
  | .rechecks seen =>
    some { s with reader := if word s.bumps = word seen then .rechecksDirectory else .disarmsAgain }
  | .rechecksDirectory =>
    some { s with reader := if s.directory = s.reported then .waits else .disarmsAgain }
  | .disarmsAgain => some { s with reactor := false, reader := .compares }
  | .waits => if s.datagrams = 0 then none else some { s with reader := .clears }
  | .clears =>
    some { s with
      datagrams := s.datagrams - 1
      reader := if s.datagrams = 0 then .compares else .clears }
  | .comparesAgain seen =>
    if s.directory ≠ s.reported then some { s with reported := s.directory, reader := .idle }
    else some { s with reader := .registers seen }
  | .registers seen => some { s with waiters := s.waiters + 1, reader := .parks seen }
  | .parks seen =>
    some { s with reader := if word s.bumps = word seen then .parked else .leaves }
  | .parked => none
  | .leaves => some { s with waiters := s.waiters - 1, reader := .idle }

inductive Action where
  /-- A writer reserves the next position, and has seen an epoch. -/
  | reserve (c epoch : Nat)
  | commit (c : Nat)
  | cancel (c : Nat)
  /-- A lane is claimed or released. -/
  | announce (c : Nat)
  | nudge (c : Nat)
  | call (c : Nat) (fails : Bool)
  | start (mode : Mode)
  | read
  /-- The future is dropped in its wait. -/
  | abandon
  /-- A wait returns before it has to. -/
  | interrupt

def step (lane : Lane) (s : State) : Action → Option State
  | .reserve c epoch =>
    if s.callers c = .idle ∧ s.reserve < s.read + lane.capacity then
      some ({ s with
        frames := Function.update s.frames s.reserve .reserved
        reserve := s.reserve + 1 }.setCaller c (.holds s.reserve epoch))
    else none
  | .commit c =>
    match s.callers c with
    | .holds position epoch =>
      some ({ s with frames := Function.update s.frames position (.committed epoch) }.setCaller c
        (.wakes .counts))
    | _ => none
  | .cancel c =>
    match s.callers c with
    | .holds position _ =>
      some ({ s with frames := Function.update s.frames position .cancelled }.setCaller c
        (.wakes .counts))
    | _ => none
  | .announce c =>
    if s.callers c = .idle then
      some ({ s with directory := s.directory + 1 }.setCaller c .announces)
    else none
  | .nudge c => if s.callers c = .idle then some (s.setCaller c (.wakes .counts)) else none
  | .call c fails => call s c fails
  | .start mode =>
    if s.reader = .idle then
      some { s with reader := match mode with
        | .next => .compares
        | .park => .loads .park }
    else none
  | .read => read lane s
  | .abandon => if s.reader = .waits then some { s with reader := .idle } else none
  | .interrupt =>
    match s.reader with
    | .waits => some { s with reader := .clears }
    | .parked => some { s with reader := .leaves }
    | _ => none

/-- A lane that has been claimed, and its reader; what was written to the lane before may be there. -/
structure Start (lane : Lane) (s : State) : Prop where
  claimed : s.claimed = true
  read_le : s.read ≤ s.reserve
  reserve_le : s.reserve ≤ s.read + lane.capacity
  frames : ∀ p < s.reserve, s.frames p ≠ .free
  waiters : s.waiters = 0
  reader : s.reader = .idle

/-- A frame of the present epoch is committed at a position with no reserved one before it. -/
def Deliverable (lane : Lane) (s : State) : Prop :=
  ∃ p < s.reserve, s.read ≤ p ∧ s.frames p = .committed lane.epoch ∧
    ∀ q < p, s.read ≤ q → s.frames q ≠ .reserved

def Caller.busy : Caller → Bool
  | .idle => false
  | .holds .. => false
  | .announces => true
  | .wakes _ => true

/-- The reader waits, nobody is about to wake it and every datagram was sent, and there is a frame for it
or a change of the directory that it has not reported. -/
def Lost (lane : Lane) (s : State) : Prop :=
  (s.reader = .waits ∧ s.datagrams = 0 ∨ s.reader = .parked) ∧ (∀ c, (s.callers c).busy = false) ∧
    s.failed = false ∧ (Deliverable lane s ∨ s.directory ≠ s.reported)

/-- The reader does not take the word of the changes for the one it has seen after it went all round. -/
def Safe (s : State) : Action → Prop
  | .read =>
    match s.reader with
    | .rechecks seen => word s.bumps = word seen → s.bumps = seen
    | .parks seen => word s.bumps = word seen → s.bumps = seen
    | _ => True
  | _ => True

instance (s : State) (a : Action) : Decidable (Safe s a) := by
  unfold Safe
  split
  · split <;> infer_instance
  · infer_instance

end OrbitInbox.Reading
