import Orbit.Atomic.Word
import Orbit.Atomic.Machine
import Mathlib.Data.List.Basic
import Mathlib.Logic.Function.Basic

/-! The doorbell of one node: the calls that offer streams to it and ring it, the threads and the
driver of the process that is its current life, and the reports that an earlier life is dead. -/

namespace OrbitStream.Waiting

open Orbit.Atomic

/-- The waiters counted in a `listening` word, `listening & !ARMED`. -/
def listeners (word : Nat) : Nat := word % 2 ^ 31

/-- `listening & ARMED != 0`. -/
def isArmed (word : Nat) : Bool := word.testBit 31

/-- The word with `ARMED` cleared. -/
def disarmed (word : Nat) : Nat := word ^^^ (word &&& 2 ^ 31)

/-- Where a call is in `offer`, or in `ring` alone. -/
inductive Call where
  /-- The bit of the slot is set next. -/
  | sets (index : Nat)
  /-- The generation is incremented next. -/
  | rings
  | listens
  /-- `ARMED` is cleared next; the word was loaded before. -/
  | disarms (listening : Nat)
  | wakes
  | done
  deriving DecidableEq

/-- The call has set its bit, if it sets one, and has not come to its end. -/
def Call.ringing : Call → Bool
  | rings | listens | disarms _ | wakes => true
  | sets _ | done => false

/-- Where a thread is in `wait_offer` or `wait_offer_timeout`. -/
inductive Phase where
  /-- `has_offer` looks at the word next. -/
  | looks (word : Nat)
  | enters
  | loads
  /-- The second `has_offer` looks at the word next. -/
  | rechecks (seen word : Nat)
  | waits (seen : Nat)
  | parked (seen : Nat)
  | leaves
  | done
  deriving DecidableEq

/-- A thread of the current life.  It is `stale` once the generation was incremented after the
thread loaded it. -/
structure Waiter where
  timed : Bool
  stale : Bool
  phase : Phase
  deriving DecidableEq

/-- The thread is counted in `listening`. -/
def Waiter.counted (w : Waiter) : Bool :=
  match w.phase with
  | .loads | .rechecks .. | .waits _ | .parked _ | .leaves => true
  | .looks _ | .enters | .done => false

def Waiter.isParked (w : Waiter) : Bool :=
  match w.phase with
  | .parked _ => true
  | _ => false

def Waiter.woken (w : Waiter) : Waiter :=
  match w.phase with
  | .parked _ => { w with phase := .leaves }
  | _ => w

/-- The driver of the current life, a thread that counts itself or a task with a socket. -/
inductive Driver where
  | off
  | enters
  | runs
  | reactor
  deriving DecidableEq

def Driver.counted : Driver → Nat
  | runs => 1
  | off | enters | reactor => 0

/-- Where a call is in `node_dead`, after the sides of the dead life have ended. -/
inductive Verdict where
  | compares
  | clears
  | forgets
  | done
  deriving DecidableEq

structure Report where
  incarnation : Nat
  phase : Verdict
  deriving DecidableEq

structure State where
  offers : Nat → Nat
  generation : Nat
  listening : Nat
  incarnation : Nat
  calls : List Call
  waiters : List Waiter
  driver : Driver
  reports : List Report

def State.counted (s : State) : Nat := s.waiters.countP Waiter.counted + s.driver.counted

/-- What comes of the waiters that a call of `ring` has seen. -/
def Call.heard (listening : Nat) : Call := if listeners listening > 0 then wakes else done

def stepCall (s : State) (n : Nat) : Call → Option State
  | .sets index =>
    let word := s.offers (index / 64) ||| 2 ^ (index % 64)
    some { s with
      offers := Function.update s.offers (index / 64) word
      calls := s.calls.set n .rings }
  | .rings =>
    some { s with
      generation := (s.generation + 1) % 2 ^ 32
      waiters := s.waiters.map fun w => { w with stale := true }
      calls := s.calls.set n .listens }
  | .listens =>
    let next := if isArmed s.listening then .disarms s.listening else .heard s.listening
    some { s with calls := s.calls.set n next }
  | .disarms listening =>
    some { s with
      listening := disarmed s.listening
      calls := s.calls.set n (.heard listening) }
  | .wakes => some { s with waiters := s.waiters.map Waiter.woken, calls := s.calls.set n .done }
  | .done => none

/-- A step of a thread; `failed` is an error of the wait. -/
def stepWaiter (words : Nat) (failed : Bool) (s : State) (n : Nat) (w : Waiter) : Option State :=
  let goes := fun phase => s.waiters.set n { w with phase := phase }
  match w.phase with
  | .looks word =>
    if word < words then
      some { s with waiters := goes (if s.offers word ≠ 0 then .done else .looks (word + 1)) }
    else some { s with waiters := goes .enters }
  | .enters => some { s with listening := (s.listening + 1) % 2 ^ 32, waiters := goes .loads }
  | .loads =>
    let loaded : Waiter := ⟨w.timed, false, .rechecks s.generation 0⟩
    some { s with waiters := s.waiters.set n loaded }
  | .rechecks seen word =>
    if word < words then
      let next := if s.offers word ≠ 0 then .leaves else .rechecks seen (word + 1)
      some { s with waiters := goes next }
    else some { s with waiters := goes (.waits seen) }
  | .waits seen =>
    some { s with waiters := goes (if s.generation = seen then .parked seen else .leaves) }
  | .leaves =>
    some { s with
      listening := (s.listening + (2 ^ 32 - 1)) % 2 ^ 32
      waiters := goes (if w.timed || failed then .done else .looks 0) }
  | .parked _ | .done => none

def stepReport (s : State) (n : Nat) (r : Report) : Option State :=
  let goes := fun phase => s.reports.set n { r with phase := phase }
  match r.phase with
  | .compares =>
    some { s with reports := goes (if s.incarnation = r.incarnation then .clears else .done) }
  | .clears => some { s with listening := 0, reports := goes .forgets }
  | .forgets => some { s with incarnation := 0, reports := goes .done }
  | .done => none

inductive Action where
  | offer (index : Nat)
  /-- Another call rings the node, without an offer. -/
  | ring
  | call (n : Nat)
  | takeOffer (timed : Bool)
  | waiter (n : Nat) (failed : Bool)
  | interrupt (n : Nat)
  /-- A thread that takes offers clears bits of a word. -/
  | taken (word bits : Nat)
  | startDriver
  | entersDriver
  | stopDriver
  /-- Who stops a driver increments the generation before it wakes it. -/
  | bumps
  | startReactor
  | arms
  | stopReactor
  | report (incarnation : Nat)
  | reporter (n : Nat)
  deriving DecidableEq

/-- A step of the doorbell of a node whose current life is `current`, with bitmaps of `words`. -/
def step (words current : Nat) (s : State) : Action → Option State
  | .offer index =>
    if index / 64 < words then some { s with calls := s.calls ++ [.sets index] } else none
  | .ring => some { s with calls := s.calls ++ [.rings] }
  | .call n => s.calls[n]? >>= stepCall s n
  | .takeOffer timed => some { s with waiters := s.waiters ++ [⟨timed, false, .looks 0⟩] }
  | .waiter n failed => s.waiters[n]? >>= stepWaiter words failed s n
  | .interrupt n => s.waiters[n]?.map fun w => { s with waiters := s.waiters.set n w.woken }
  | .taken word bits =>
    let left := s.offers word ^^^ (s.offers word &&& bits)
    some { s with offers := Function.update s.offers word left }
  | .startDriver =>
    if s.driver = .off then some { s with incarnation := current, driver := .enters } else none
  | .entersDriver =>
    if s.driver = .enters then
      some { s with listening := (s.listening + 1) % 2 ^ 32, driver := .runs }
    else none
  | .stopDriver =>
    if s.driver = .runs then
      some { s with listening := (s.listening + (2 ^ 32 - 1)) % 2 ^ 32, driver := .off }
    else none
  | .bumps =>
    some { s with
      generation := (s.generation + 1) % 2 ^ 32
      waiters := s.waiters.map fun w => { w with stale := true } }
  | .startReactor =>
    if s.driver = .off then some { s with incarnation := current, driver := .reactor } else none
  | .arms =>
    if s.driver = .reactor then some { s with listening := s.listening ||| 2 ^ 31 } else none
  | .stopReactor =>
    if s.driver = .reactor then
      some { s with listening := disarmed s.listening, driver := .off }
    else none
  | .report incarnation =>
    if incarnation = current then none
    else some { s with reports := s.reports ++ [⟨incarnation, .compares⟩] }
  | .reporter n => s.reports[n]? >>= stepReport s n

/-- The current life has just begun: nobody of it waits, and what an earlier one has left in the
words is still there. -/
structure Start (current : Nat) (s : State) : Prop where
  listening : s.listening < 2 ^ 32
  waiters : s.waiters = []
  driver : s.driver = .off
  reports : ∀ r ∈ s.reports, r.incarnation ≠ current

/-- No report clears the count of a life that has waiters, the count has room, and the generation
has not gone all round when a thread parks. -/
def careful (s : State) : Action → Bool
  | .reporter n =>
    match s.reports[n]? with
    | some r => r.phase != .clears || s.counted == 0
    | none => true
  | .waiter n _ =>
    match s.waiters[n]? with
    | some w =>
      match w.phase with
      | .enters => decide (listeners s.listening + 1 < 2 ^ 31)
      | .waits seen => !w.stale || s.generation != seen
      | _ => true
    | none => true
  | .entersDriver => decide (listeners s.listening + 1 < 2 ^ 31)
  | _ => true

/-- There is an offer, no call is going to ring, and a thread is parked. -/
def Stranded (words : Nat) (s : State) : Prop :=
  (∃ word < words, s.offers word ≠ 0) ∧ (∀ c ∈ s.calls, c.ringing = false) ∧
    ∃ w ∈ s.waiters, w.isParked = true

end OrbitStream.Waiting
