import Orbit.Atomic.Word
import Mathlib.Algebra.Group.Int.Defs

/-! The slots of a table of counters, and the functions on them that run under its mutex when the
table is local to one process. -/

namespace OrbitCounter

open Orbit.Atomic

abbrev Key := List UInt8

/-- `COUNTER_CAPACITY` and `COUNTER_KEY_MAX`. -/
structure Geometry where
  capacity : Nat
  keyMax : Nat
  capacity_pow : isPowerOfTwo capacity
  capacity_le : capacity ≤ 2 ^ 64
  keyMax_pos : 0 < keyMax
  keyMax_lt : keyMax < 2 ^ 16

inductive Error where
  | keyEmpty
  | keyTooLarge (len max : Nat)
  | negativeAmount (value : Int64)
  | overflow
  | stateFull (capacity : Nat)
  | io
  deriving DecidableEq

inductive Request where
  | get (key : Key)
  | increment (key : Key) (amount : Int64)
  | decrement (key : Key) (amount : Int64)
  | reset (key : Key)
  deriving DecidableEq

inductive Reply where
  | found (value : Option Int64)
  | value (value : Int64)
  | cleared
  deriving DecidableEq

abbrev Result := Except Error Reply

instance : DecidableEq Result
  | .ok reply, .ok reply' => decidable_of_iff (reply = reply') (by simp)
  | .error e, .error e' => decidable_of_iff (e = e') (by simp)
  | .ok _, .error _ | .error _, .ok _ => .isFalse (by simp)

/-- What a request does once its slot is known: `increment` and `decrement` are `update`. -/
inductive Work where
  | look
  | update (delta : Int64)
  | clear
  deriving DecidableEq

def Request.key : Request → Key
  | .get key | .increment key _ | .decrement key _ | .reset key => key

def Request.work : Request → Work
  | .get _ => .look
  | .increment _ amount => .update amount
  | .decrement _ amount => .update (-amount)
  | .reset _ => .clear

variable (g : Geometry)

def validateKey (key : Key) : Except Error Unit :=
  if key.isEmpty then .error .keyEmpty
  else if key.length > g.keyMax then .error (.keyTooLarge key.length g.keyMax)
  else .ok ()

def validateAmount (amount : Int64) : Except Error Unit :=
  if amount < 0 then .error (.negativeAmount amount) else .ok ()

def Request.validate : Request → Except Error Unit
  | .get key | .reset key => validateKey g key
  | .increment key amount | .decrement key amount => do
    validateAmount amount
    validateKey g key

def slotEmpty : UInt8 := 0
def slotOccupied : UInt8 := 1
def fnvOffsetBasis : UInt64 := 0xcbf29ce484222325
def fnvPrime : UInt64 := 0x00000100000001b3

def counterHash (key : Key) : UInt64 :=
  key.foldl (fun hash byte => (hash ^^^ byte.toUInt64) * fnvPrime) fnvOffsetBasis

def probeIndex (hash : UInt64) (offset capacity : Nat) : Nat :=
  add64 hash.toNat offset &&& (capacity - 1)

structure Slot where
  state : UInt8
  keyHash : UInt64
  value : Int64
  keyLen : UInt16
  key : Nat → UInt8

def Slot.empty : Slot where
  state := slotEmpty
  keyHash := 0
  value := 0
  keyLen := 0
  key := fun _ => 0

abbrev Slots := Nat → Slot

def Slot.matchesKey (slot : Slot) (hash : UInt64) (key : Key) : Bool :=
  slot.state == slotOccupied && slot.keyHash == hash && slot.keyLen.toNat == key.length &&
    (List.range key.length).all fun i => slot.key i == key.getD i 0

def Slot.install (slot : Slot) (hash : UInt64) (key : Key) (value : Int64) : Slot where
  state := slotOccupied
  keyHash := hash
  value := value
  keyLen := UInt16.ofNat key.length
  key := fun i => if i < g.keyMax then key.getD i 0 else slot.key i

/-- `i64::checked_add`. -/
def checkedAdd (current delta : Int64) : Option Int64 :=
  if -2 ^ 63 ≤ current.toInt + delta.toInt ∧ current.toInt + delta.toInt < 2 ^ 63 then
    some (current + delta)
  else none

def Slots.setValue (slots : Slots) (i : Nat) (value : Int64) : Slots :=
  Function.update slots i { slots i with value }

def updateValue (slots : Slots) (i : Nat) (delta : Int64) : Slots × Result :=
  match checkedAdd (slots i).value delta with
  | some _ => (slots.setValue i ((slots i).value + delta), .ok (.value ((slots i).value + delta)))
  | none => (slots, .error .overflow)

/-- Where a search along the offsets of a key stops. -/
inductive Probe where
  | vacant (index : Nat)
  | found (index : Nat)
  | exhausted
  deriving DecidableEq

def probe (slots : Slots) (hash : UInt64) (key : Key) : List Nat → Probe
  | [] => .exhausted
  | offset :: rest =>
    let index := probeIndex hash offset g.capacity
    if (slots index).state = slotEmpty then .vacant index
    else if (slots index).state = slotOccupied ∧ (slots index).matchesKey hash key then .found index
    else probe slots hash key rest

def findSlot (slots : Slots) (hash : UInt64) (key : Key) : Option Nat :=
  match probe g slots hash key (List.range g.capacity) with
  | .found index => some index
  | .vacant _ | .exhausted => none

def updateOrInstall (slots : Slots) (hash : UInt64) (key : Key) (delta : Int64) : Slots × Result :=
  match probe g slots hash key (List.range g.capacity) with
  | .vacant index =>
    (Function.update slots index ((slots index).install g hash key delta), .ok (.value delta))
  | .found index => updateValue slots index delta
  | .exhausted => (slots, .error (.stateFull g.capacity))

def resetOrInstall (slots : Slots) (hash : UInt64) (key : Key) : Slots × Result :=
  match probe g slots hash key (List.range g.capacity) with
  | .vacant index =>
    (Function.update slots index ((slots index).install g hash key 0), .ok .cleared)
  | .found index => (slots.setValue index 0, .ok .cleared)
  | .exhausted => (slots, .error (.stateFull g.capacity))

def memoryCall (slots : Slots) (request : Request) : Slots × Result :=
  match request.validate g with
  | .error e => (slots, .error e)
  | .ok _ =>
    match request.work with
    | .look =>
      (slots, .ok (.found ((findSlot g slots (counterHash request.key) request.key).map
        fun index => (slots index).value)))
    | .update delta => updateOrInstall g slots (counterHash request.key) request.key delta
    | .clear => resetOrInstall g slots (counterHash request.key) request.key

def memoryResults : Slots → List Request → List Result
  | _, [] => []
  | slots, request :: rest =>
    (memoryCall g slots request).2 :: memoryResults (memoryCall g slots request).1 rest

end OrbitCounter
