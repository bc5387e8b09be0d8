import Orbit.Session.SingleUse

/-! The tickets of a client: several values of one key, in the ways of its set. -/

namespace OrbitSession

open Orbit.Atomic

variable {g : Sizes} {domain key value : List UInt8} {nowMs : Nat}

/-- What `push` has seen of a set. -/
structure PushScan where
  matching : Nat
  reusable : Option Nat
  oldestMatch : Option (Nat × Nat)
  oldest : Nat × Nat

def PushScan.start : PushScan := ⟨0, none, none, (0, u64Max)⟩

def earlier (index inserted : Nat) : Option (Nat × Nat) → Nat × Nat
  | none => (index, inserted)
  | some first => if inserted < first.2 then (index, inserted) else first

def PushScan.count (seen : PushScan) (hash : Nat) (domain key : List UInt8) (index : Nat)
    (slot : SessionSlot g) : PushScan where
  matching := if slot.matches hash domain key then seen.matching + 1 else seen.matching
  reusable := seen.reusable
  oldestMatch := if slot.matches hash domain key then
    some (earlier index slot.insertedAtMs seen.oldestMatch) else seen.oldestMatch
  oldest := earlier index slot.insertedAtMs (some seen.oldest)

/-- The scan of `push` over one set: what is free or has expired is given up. -/
def scanPush (hash : Nat) (domain key : List UInt8) (nowMs : Nat) :
    List (SessionSlot g) → Nat → PushScan → List (SessionSlot g) × PushScan
  | [], _, seen => ([], seen)
  | slot :: rest, index, seen =>
    if slot.state ≠ .occupied ∨ slot.expiresAtMs ≤ nowMs then
      let r := scanPush hash domain key nowMs rest (index + 1)
        { seen with reusable := some (seen.reusable.getD index) }
      (slot.release :: r.1, r.2)
    else
      let r := scanPush hash domain key nowMs rest (index + 1)
        (seen.count hash domain key index slot)
      (slot :: r.1, r.2)

/-- The way that `push` writes. -/
def PushScan.candidate (seen : PushScan) (maxValues : Nat) : Nat :=
  if maxValues ≤ seen.matching then (seen.oldestMatch.map Prod.fst).getD seen.oldest.1
  else seen.reusable.getD seen.oldest.1

def pushSet (hash : Nat) (domain key value : List UInt8) (nowMs expiresAtMs maxValues : Nat)
    (set : List (SessionSlot g)) : List (SessionSlot g) :=
  let r := scanPush hash domain key nowMs set 0 .start
  r.1.modify (r.2.candidate maxValues) fun slot =>
    slot.write hash domain key value nowMs expiresAtMs

/-- `push`, with the clock reading it makes. -/
def Backing.push (b : Backing g) (tryHoldLane : Nat → Bool) (monotonicMs : Except Error Nat)
    (domain key value : List UInt8) (ttl maxValues : Nat) : Backing g × Except Error Bool :=
  if !entryFits g domain key value ∨ ttl = 0 ∨ maxValues = 0 then (b, .ok false)
  else
    match monotonicMs with
    | .error e => (b, .error e)
    | .ok nowMs =>
      let hash := entryHash domain key
      let r := b.withSet tryHoldLane hash true fun set =>
        (pushSet hash domain key value nowMs (expiresAt nowMs ttl) maxValues set, ())
      (r.1, r.2.map Option.isSome)

inductive TicketOp where
  | push (domain key value : List UInt8) (ttl maxValues : Nat)
  | get (domain key : List UInt8)
  | take (domain key : List UInt8)

structure TicketCall where
  op : TicketOp
  monotonicMs : Except Error Nat
  tryHoldLane : Nat → Bool

def Backing.ticket (b : Backing g) (call : TicketCall) : Backing g × Answer :=
  match call.op with
  | .push domain key value ttl maxValues =>
    let r := b.push call.tryHoldLane call.monotonicMs domain key value ttl maxValues
    (r.1, .stored r.2)
  | .get domain key =>
    let r := b.get call.tryHoldLane call.monotonicMs domain key
    (r.1, .found r.2)
  | .take domain key =>
    let r := b.take call.tryHoldLane call.monotonicMs domain key
    (r.1, .found r.2)

/-- A table, and the last reading of the clock. -/
structure Queue (g : Sizes) where
  table : Backing g
  clock : Nat

def Queue.exec (q : Queue g) (call : TicketCall) : Queue g :=
  ⟨(q.table.ticket call).1, call.monotonicMs.toOption.getD q.clock⟩

def Queue.set (q : Queue g) (domain key : List UInt8) : List (SessionSlot g) :=
  q.table.sets (setIndex g (entryHash domain key))

/-- The clock has not gone back, and every queue has the same bound. -/
def Queue.Given (maxValues : Nat) (q : Queue g) (call : TicketCall) : Prop :=
  (∀ nowMs, call.monotonicMs = .ok nowMs → q.clock ≤ nowMs) ∧
    ∀ domain key value ttl max, call.op = .push domain key value ttl max → max = maxValues

end OrbitSession
