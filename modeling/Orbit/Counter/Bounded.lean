import Orbit.Counter.Layout
import Orbit.Atomic.Linear
import Mathlib.Data.Finmap

/-! The counters as a map from keys to signed numbers of 64 bits that holds a bounded number of
keys. -/

namespace OrbitCounter

open Orbit.Atomic

abbrev Counts := Finmap fun _ : Key => Int64

/-- A number that an `i64` holds. -/
def InRange (n : Int) : Prop := -2 ^ 63 ≤ n ∧ n < 2 ^ 63

instance (n : Int) : Decidable (InRange n) := inferInstanceAs (Decidable (_ ∧ _))

/-- The number of a key, zero for a key that is not installed. -/
def Counts.count (counts : Counts) (key : Key) : Int := ((counts.lookup key).getD 0).toInt

def Counts.put (capacity : Nat) (counts : Counts) (key : Key) (value : Int64) (reply : Reply) :
    Counts × Result :=
  if key ∈ counts ∨ counts.keys.card < capacity then (counts.insert key value, .ok reply)
  else (counts, .error (.stateFull capacity))

def Counts.serve (capacity : Nat) (counts : Counts) (key : Key) : Work → Counts × Result
  | .look => (counts, .ok (.found (counts.lookup key)))
  | .update delta =>
    if InRange (counts.count key + delta.toInt) then
      counts.put capacity key (.ofInt (counts.count key + delta.toInt))
        (.value (.ofInt (counts.count key + delta.toInt)))
    else (counts, .error .overflow)
  | .clear => counts.put capacity key 0 .cleared

def Counts.apply (g : Geometry) (counts : Counts) (request : Request) : Counts × Result :=
  match request.validate g with
  | .error e => (counts, .error e)
  | .ok _ => counts.serve g.capacity request.key request.work

/-- A step of the sequential object.  The operating system may refuse the lock that a request
other than `get` takes; such a request changes nothing. -/
def Counts.Step (g : Geometry) (counts : Counts) (request : Request) (result : Result)
    (counts' : Counts) : Prop :=
  counts.apply g request = (counts', result) ∨
    result = .error .io ∧ counts' = counts ∧ request.work ≠ .look

def Counts.results (g : Geometry) : Counts → List Request → List Result
  | _, [] => []
  | counts, request :: rest =>
    (counts.apply g request).2 :: Counts.results g (counts.apply g request).1 rest

variable {g : Geometry} {counts counts' : Counts} {key : Key} {delta value : Int64}

theorem inRange_toInt (n : Int64) : InRange n.toInt := ⟨Int64.le_toInt n, Int64.toInt_lt n⟩

theorem ofInt_add (a b : Int64) : Int64.ofInt (a.toInt + b.toInt) = a + b := by
  rw [Int64.ofInt_add, Int64.ofInt_toInt, Int64.ofInt_toInt]

theorem checkedAdd_eq (a b : Int64) :
    checkedAdd a b = if InRange (a.toInt + b.toInt) then some (a + b) else none := rfl

theorem count_of_lookup (h : counts.lookup key = some value) : counts.count key = value.toInt := by
  rw [Counts.count, h, Option.getD_some]

theorem count_of_absent (h : counts.lookup key = none) : counts.count key = 0 := by
  rw [Counts.count, h, Option.getD_none]
  rfl

variable {capacity : Nat} {request : Request}

theorem put_installed {reply : Reply} (h : counts.lookup key = some value) (value' : Int64) :
    counts.put capacity key value' reply = (counts.insert key value', .ok reply) :=
  if_pos (.inl (Finmap.mem_of_lookup_eq_some h))

theorem put_absent {reply : Reply} (h : counts.keys.card < capacity) (value' : Int64) :
    counts.put capacity key value' reply = (counts.insert key value', .ok reply) :=
  if_pos (.inr h)

theorem put_full {reply : Reply} (h : counts.lookup key = none)
    (hcard : capacity ≤ counts.keys.card) (value' : Int64) :
    counts.put capacity key value' reply = (counts, .error (.stateFull capacity)) := by
  apply if_neg
  rintro (hmem | hlt)
  · exact Finmap.lookup_eq_none.mp h hmem
  · omega

theorem serve_update_installed (h : counts.lookup key = some value) :
    counts.serve capacity key (.update delta) =
      match checkedAdd value delta with
      | some _ => (counts.insert key (value + delta), .ok (.value (value + delta)))
      | none => (counts, .error .overflow) := by
  rw [Counts.serve, count_of_lookup h, checkedAdd_eq]
  split
  · rw [put_installed h, ofInt_add]
  · rfl

theorem serve_update_absent (h : counts.lookup key = none) :
    counts.serve capacity key (.update delta) =
      counts.put capacity key delta (.value delta) := by
  rw [Counts.serve, count_of_absent h, Int.zero_add, if_pos (inRange_toInt delta),
    Int64.ofInt_toInt]

variable {e : Error}

theorem apply_valid (h : request.validate g = .ok ()) :
    counts.apply g request = counts.serve g.capacity request.key request.work := by
  rw [Counts.apply, h]

theorem apply_invalid (h : request.validate g = .error e) :
    counts.apply g request = (counts, .error e) := by
  rw [Counts.apply, h]

end OrbitCounter
