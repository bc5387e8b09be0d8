import Orbit.Atomic.Word
import Mathlib.Data.List.MinMax
import Mathlib.Logic.Function.Basic

/-! The index and the ring of a store of records, the pins of its readers, and its operations. -/

namespace OrbitArena

open Orbit.Atomic Function
open List hiding drop

/-- `ARENA_SLOTS`, `ARENA_BYTES` and the rows of readers. -/
structure Geometry where
  slots : Nat
  bytes : Nat
  readers : Nat
  slots_pow : isPowerOfTwo slots
  bytes_ge : 4 ≤ bytes

/-- `ARENA_RECORD_MAX`. -/
def Geometry.recordMax (g : Geometry) : Nat := g.bytes / 4

inductive SlotState where
  | empty
  | live
  | retired
  | addressed
  deriving DecidableEq

/-- The halves of a digest. -/
structure Key where
  lo : Nat
  hi : Nat
  deriving DecidableEq

structure Address where
  slot : Nat
  generation : Nat
  deriving DecidableEq

inductive Error where
  | tooLarge (len max : Nat)
  | pinned
  | io
  deriving DecidableEq

structure Slot where
  state : SlotState
  generation : Nat
  key : Key
  bodyOffset : Nat
  bodyLen : Nat
  encodedLen : Nat

def Slot.zeroed : Slot := ⟨.empty, 0, ⟨0, 0⟩, 0, 0, 0⟩

def Slot.span (s : Slot) : Nat × Nat := (s.bodyOffset, s.bodyOffset + s.bodyLen + s.encodedLen)

/-- A record that a reader has borrowed. -/
structure Entry where
  reader : Nat
  slot : Nat
  deriving DecidableEq

/-- `held` says which rows of readers have a living owner, and `entries` what these have borrowed.
The cursor counts all bytes since the start. -/
structure Arena where
  slots : Nat → Slot
  cursor : Nat
  recordGeneration : Nat
  active : Nat → Bool
  held : Nat → Bool
  pin : Nat → Nat → Nat
  entries : List Entry

def Arena.zeroed : Arena where
  slots _ := .zeroed
  cursor := 0
  recordGeneration := 0
  active _ := false
  held _ := false
  pin _ _ := 0
  entries := []

variable (g : Geometry)

def Arena.pinned (a : Arena) (slot : Nat) : Bool :=
  (range g.readers).any fun reader => a.active reader && a.pin reader slot != 0

def Arena.setSlot (a : Arena) (index : Nat) (s : Slot) : Arena :=
  { a with slots := update a.slots index s }

def evict (a : Arena) (index : Nat) : Arena :=
  if (a.slots index).state = .empty then a
  else a.setSlot index { a.slots index with state := .retired }

/-- The slots of a key, in the order in which they are probed. -/
def probed (key : Key) : List Nat :=
  (range g.slots).map fun probe => ((key.lo &&& (g.slots - 1)) + probe) &&& (g.slots - 1)

def findIn (a : Arena) (key : Key) : List Nat → Option Nat
  | [] => none
  | index :: rest =>
    if (a.slots index).state = .empty then none
    else if (a.slots index).state = .live ∧ (a.slots index).key = key then some index
    else findIn a key rest

def findLocked (a : Arena) (key : Key) : Option Nat := findIn a key (probed g key)

def freeIn (a : Arena) : List Nat → Option Nat
  | [] => none
  | index :: rest =>
    if (a.slots index).state = .empty then some index
    else if (a.slots index).state = .retired ∧ a.pinned g index = false then some index
    else freeIn a rest

def evictOldest : Nat → Arena → Arena × Except Error Nat
  | 0, a => (a, .error .pinned)
  | rounds + 1, a =>
    match ((range g.slots).filter fun index => !a.pinned g index).argmin
        fun index => (a.slots index).generation with
    | none => (a, .error .pinned)
    | some index =>
      if (evict a index).pinned g index = false then (evict a index, .ok index)
      else evictOldest rounds (evict a index)

def freeSlotLocked (a : Arena) (key : Key) : Arena × Except Error Nat :=
  match freeIn g a (probed g key) with
  | some index => (a, .ok index)
  | none => evictOldest g g.slots a

def furthest (blocked : Option Nat) (past : Nat) : Option Nat :=
  some (blocked.elim past fun b => max b past)

/-- One slot, in the way of the range from `position` to `stop`, or not. -/
def scanSlot (position stop : Nat) (seen : Arena × Option Nat) (index : Nat) :
    Arena × Option Nat :=
  if (seen.1.slots index).state = .empty then seen
  else if (seen.1.slots index).span.2 ≤ position ∨ stop ≤ (seen.1.slots index).span.1 then seen
  else if seen.1.pinned g index then (seen.1, furthest seen.2 (seen.1.slots index).span.2)
  else if (evict seen.1 index).pinned g index then
    (evict seen.1 index, furthest seen.2 (seen.1.slots index).span.2)
  else (evict seen.1 index, seen.2)

def scan (a : Arena) (position len : Nat) : Arena × Option Nat :=
  (range g.slots).foldl (scanSlot g position (position + len)) (a, none)

def place (len cursor : Nat) : Nat × Nat :=
  if g.bytes < cursor % g.bytes + len then (cursor + (g.bytes - cursor % g.bytes), 0)
  else (cursor, cursor % g.bytes)

def allocateIn (len : Nat) : Nat → Nat → Arena → Arena × Except Error Nat
  | 0, _, a => (a, .error .pinned)
  | attempts + 1, cursor, a =>
    let placed := place g len cursor
    match scan g a placed.2 len with
    | (a, some past) => allocateIn len attempts (placed.1 + (past - placed.2)) a
    | (a, none) => ({ a with cursor := placed.1 + len }, .ok placed.2)

def allocateLocked (len : Nat) (a : Arena) : Arena × Except Error Nat :=
  allocateIn g len (g.slots + 2) a.cursor a

def Arena.clearReader (a : Arena) (reader : Nat) : Arena :=
  { a with pin := update a.pin reader fun _ => 0
           active := update a.active reader false }

/-- The rows whose owner is dead are cleared, up to one whose hold cannot be asked for. -/
def reclaimIn (self : Nat) (fails : Nat → Bool) : List Nat → Arena → Arena × Except Error Unit
  | [], a => (a, .ok ())
  | reader :: rest, a =>
    if reader = self ∨ a.active reader = false then reclaimIn self fails rest a
    else if fails reader then (a, .error .io)
    else if a.held reader then reclaimIn self fails rest a
    else reclaimIn self fails rest (a.clearReader reader)

def reclaimLocked (self : Nat) (fails : Nat → Bool) (a : Arena) : Arena × Except Error Unit :=
  reclaimIn self fails (range g.readers) a

/-- An attempt, and after a `Pinned` another one, with the pins of the dead gone. -/
def retried {α : Type} (self : Nat) (fails : Nat → Bool)
    (attempt : Arena → Arena × Except Error α) (a : Arena) : Arena × Except Error α :=
  match attempt a with
  | (a, .error .pinned) =>
    match reclaimLocked g self fails a with
    | (a, .error e) => (a, .error e)
    | (a, .ok ()) => attempt a
  | other => other

/-- The slot has the record that a reader asks for, by its key or by its address alone. -/
def Slot.answers (s : Slot) : Option Key → Bool
  | some key => decide (s.state = .live ∧ s.key = key)
  | none => decide (s.state = .addressed)

def pinEntry (reader index generation : Nat) (key : Option Key) (a : Arena) :
    Arena × Option Entry :=
  if g.slots ≤ index then (a, none)
  else if 2 ^ 32 ≤ a.pin reader index + 1 then (a, none)
  else if (a.slots index).generation = generation ∧ (a.slots index).answers key then
    ({ a with
        pin := update a.pin reader
          (update (a.pin reader) index (a.pin reader index + 1))
        entries := ⟨reader, index⟩ :: a.entries }, some ⟨reader, index⟩)
  else (a, none)

structure Record where
  bodyLen : Nat
  encodedLen : Nat

def Record.total (r : Record) : Nat := r.bodyLen + r.encodedLen

def withdraw (key : Option Key) (a : Arena) : Arena :=
  match key.bind (findLocked g a) with
  | some index => evict a index
  | none => a

/-- `write_record`, but for the bytes. -/
def writeRecord (self : Nat) (fails : Nat → Bool) (key : Option Key) (record : Record) (a : Arena) :
    Arena × Except Error Address :=
  if g.recordMax < record.total then (a, .error (.tooLarge record.total g.recordMax))
  else
    match retried g self fails (allocateLocked g record.total) (withdraw g key a) with
    | (a, .error e) => (a, .error e)
    | (a, .ok offset) =>
      match retried g self fails (fun a => freeSlotLocked g a (key.getD ⟨offset, 0⟩)) a with
      | (a, .error e) => (a, .error e)
      | (a, .ok index) =>
        if 2 ^ 64 ≤ a.recordGeneration + 1 then (a, .error .io)
        else
          let generation := a.recordGeneration + 1
          let state := if key.isSome then SlotState.live else .addressed
          ({ a.setSlot index
              ⟨state, generation, key.getD ⟨0, 0⟩, offset, record.bodyLen, record.encodedLen⟩ with
              recordGeneration := generation }, .ok ⟨index, generation⟩)

def forget (key : Key) (a : Arena) : Arena :=
  match findLocked g a key with
  | some index => evict a index
  | none => a

def forgetAddress (address : Address) (a : Arena) : Arena :=
  if g.slots ≤ address.slot then a
  else if (a.slots address.slot).state ≠ .addressed ∨
      (a.slots address.slot).generation ≠ address.generation then a
  else evict a address.slot

def reset (a : Arena) : Arena := (range g.slots).foldl evict a

def get (reader : Nat) (key : Key) (a : Arena) : Arena × Option Entry :=
  match findLocked g a key with
  | some index => pinEntry g reader index (a.slots index).generation (some key) a
  | none => (a, none)

def Arena.dropEntry (a : Arena) (entry : Entry) : Arena :=
  { a with
    pin := update a.pin entry.reader (update (a.pin entry.reader) entry.slot
      ((a.pin entry.reader entry.slot + (2 ^ 32 - 1)) % 2 ^ 32))
    entries := a.entries.erase entry }

/-- What a run does next.  Every call is made by the owner of a row. -/
inductive Op where
  | attach (reader : Nat)
  /-- The last handle is dropped, with nothing borrowed. -/
  | detach (reader : Nat)
  | dies (reader : Nat)
  | write (self : Nat) (fails : Nat → Bool) (key : Option Key) (record : Record)
  | forget (key : Key)
  | forgetAddress (address : Address)
  | reset
  | reclaim (self : Nat) (fails : Nat → Bool)
  | get (reader : Nat) (key : Key)
  | getAddress (reader : Nat) (address : Address)
  | drop (entry : Entry)

/-- An operation that nobody can make changes nothing. -/
def exec (a : Arena) : Op → Arena
  | .attach reader =>
    if a.held reader then a
    else
      let cleared := a.clearReader reader
      { cleared with active := update cleared.active reader true
                     held := update a.held reader true }
  | .detach reader =>
    if a.held reader ∧ ∀ entry ∈ a.entries, entry.reader ≠ reader then
      { a with active := update a.active reader false
               held := update a.held reader false }
    else a
  | .dies reader =>
    { a with held := update a.held reader false
             entries := a.entries.filter fun entry => entry.reader ≠ reader }
  | .write self fails key record => (writeRecord g self fails key record a).1
  | .forget key => forget g key a
  | .forgetAddress address => forgetAddress g address a
  | .reset => reset g a
  | .reclaim self fails => (reclaimLocked g self fails a).1
  | .get reader key => if a.held reader then (get g reader key a).1 else a
  | .getAddress reader address =>
    if a.held reader then (pinEntry g reader address.slot address.generation none a).1 else a
  | .drop entry => if entry ∈ a.entries then a.dropEntry entry else a

def run (ops : List Op) : Arena := ops.foldl (exec g) .zeroed

end OrbitArena
