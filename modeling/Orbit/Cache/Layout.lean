import Mathlib.Algebra.Group.Nat.Defs
import Mathlib.Data.Prod.Lex

/-! Cache mutations, and the metadata that one process keeps of one logical store. -/

namespace OrbitCache

abbrev Key := List UInt8

/-- Last write wins in this order. -/
structure CacheRevision where
  sequence : Nat
  mutationId : Nat
  deriving DecidableEq, Repr

namespace CacheRevision

def key (r : CacheRevision) : Nat ×ₗ Nat := toLex (r.sequence, r.mutationId)

theorem key_injective : Function.Injective key := by
  intro a b h
  cases a
  cases b
  simpa [key] using h

instance : LinearOrder CacheRevision := LinearOrder.lift' key key_injective

theorem lt_iff {a b : CacheRevision} :
    a < b ↔ a.sequence < b.sequence ∨ a.sequence = b.sequence ∧ a.mutationId < b.mutationId :=
  Prod.Lex.lt_iff

theorem le_iff {a b : CacheRevision} :
    a ≤ b ↔ a.sequence < b.sequence ∨ a.sequence = b.sequence ∧ a.mutationId ≤ b.mutationId :=
  Prod.Lex.le_iff

theorem sequence_le {a b : CacheRevision} (h : a ≤ b) : a.sequence ≤ b.sequence := by
  rcases le_iff.mp h with h | h
  · exact Nat.le_of_lt h
  · exact h.1.le

theorem lt_of_sequence {a b : CacheRevision} (h : a.sequence < b.sequence) : a < b :=
  lt_iff.mpr (.inl h)

end CacheRevision

/-- Exact immutable body in the fleet arena. -/
structure PayloadRef where
  address : Nat
  valueLen : Nat
  deriving DecidableEq, Repr

/-- One cache fact of the mutation ring. -/
inductive CacheMutation where
  | put (store key : Key) (revision : CacheRevision) (expiresAtMs : Option Nat)
    (payload : PayloadRef)
  | delete (store key : Key) (revision : CacheRevision)
  | reset (store : Key) (revision : CacheRevision)
  deriving DecidableEq, Repr

def CacheMutation.store : CacheMutation → Key
  | .put store _ _ _ _ | .delete store _ _ | .reset store _ => store

def CacheMutation.revision : CacheMutation → CacheRevision
  | .put _ _ revision _ _ | .delete _ _ revision | .reset _ revision => revision

structure CacheEntry where
  value : List UInt8
  revision : CacheRevision
  expiresAtMs : Option Nat
  deriving DecidableEq, Repr

inductive CacheRead where
  | hit (entry : CacheEntry)
  | miss
  | resyncRequired
  deriving DecidableEq, Repr

inductive LocalSlot where
  | present (payload : PayloadRef) (revision : CacheRevision) (expiresAtMs : Option Nat)
  | missing (revision : CacheRevision)
  deriving DecidableEq, Repr

def LocalSlot.revision : LocalSlot → CacheRevision
  | .present _ revision _ => revision
  | .missing revision => revision

/-! ### The LRU map of the slots

Which entry a full map gives up is up to the map: it is the `victim` of the insertion. -/

abbrev Slots := List (Key × LocalSlot)

def Slots.peek (slots : Slots) (key : Key) : Option LocalSlot := slots.lookup key

def Slots.pop (slots : Slots) (key : Key) : Slots := slots.filter fun entry => entry.1 ≠ key

def Slots.push (slots : Slots) (key : Key) (slot : LocalSlot) (victim : Option Key) :
    Slots × Option LocalSlot :=
  match slots.peek key, victim with
  | some _, _ => ((key, slot) :: slots.pop key, none)
  | none, none => ((key, slot) :: slots, none)
  | none, some victim => ((key, slot) :: slots.pop victim, slots.peek victim)

structure LocalState where
  slots : Slots
  revisionFloor : Option Nat
  coherent : Bool
  deriving DecidableEq, Repr

inductive ApplyOutcome where
  | applied
  | ignored
  | payloadUnavailable (key : Key)
  deriving DecidableEq, Repr

/-- `LocalCache::new`. -/
def LocalState.init : LocalState where
  slots := []
  revisionFloor := none
  coherent := true

namespace LocalState

def accepts (st : LocalState) (revision : CacheRevision) : Bool :=
  match st.revisionFloor with
  | none => true
  | some floor => decide (floor < revision.sequence)

def advanceFloor (st : LocalState) (revision : Nat) : LocalState :=
  let floor := st.revisionFloor.elim revision fun current => max current revision
  { st with
    revisionFloor := some floor
    slots := st.slots.filter fun entry => floor < entry.2.revision.sequence }

def advanceFloorFromSlots (st : LocalState) : LocalState :=
  match (st.slots.map fun entry => entry.2.revision.sequence).max? with
  | some revision => st.advanceFloor revision
  | none => st

def putSlot (st : LocalState) (key : Key) (slot : LocalSlot) (victim : Option Key) :
    LocalState × Bool :=
  if (st.slots.peek key).any fun current => slot.revision ≤ current.revision then (st, false)
  else
    let inserted := { st with slots := (st.slots.push key slot victim).1 }
    let kept := match (st.slots.push key slot victim).2 with
      | some removed => inserted.advanceFloor removed.revision.sequence
      | none => inserted
    (kept, (kept.slots.peek key).isSome)

/-- `read_at`: `available` says whether the arena still has the body, which `bodies` gives. -/
def readAt (st : LocalState) (bodies : Nat → List UInt8) (available : Bool) (key : Key)
    (now : Nat) : LocalState × CacheRead :=
  if !st.coherent then (st, .resyncRequired)
  else
    match st.slots.peek key with
    | none => (st, .miss)
    | some (.missing _) => (st, .miss)
    | some (.present payload revision expiresAtMs) =>
      if !expiresAtMs.any (fun deadline => decide (deadline ≤ now)) ∧ available ∧
          (bodies payload.address).length = payload.valueLen then
        (st, .hit ⟨bodies payload.address, revision, expiresAtMs⟩)
      else ({ st with slots := (st.slots.push key (.missing revision) none).1 }, .miss)

def requireResync (st : LocalState) : LocalState :=
  { st.advanceFloorFromSlots with slots := [], coherent := false }

def recoverFromBacking (st : LocalState) (revisionFloor : Nat) : LocalState where
  slots := []
  revisionFloor := some (st.revisionFloor.elim revisionFloor fun current => max current revisionFloor)
  coherent := true

/-- `apply`: `available` says whether the arena has the body of a `put`. -/
def apply (st : LocalState) (mutation : CacheMutation) (available : Bool) (victim : Option Key) :
    LocalState × ApplyOutcome :=
  if !st.accepts mutation.revision then (st, .ignored)
  else
    match mutation with
    | .put _ key revision expiresAtMs payload =>
      if available then
        let put := st.putSlot key (.present payload revision expiresAtMs) victim
        (put.1, if put.2 then .applied else .ignored)
      else
        let put := st.putSlot key (.missing revision) victim
        (put.1, if put.2 then .payloadUnavailable key else .ignored)
    | .delete _ key revision =>
      let put := st.putSlot key (.missing revision) victim
      (put.1, if put.2 then .applied else .ignored)
    | .reset _ revision => (st.advanceFloor revision.sequence, .applied)

def installLocal (st : LocalState) (key : Key) (payload : PayloadRef) (revision : CacheRevision)
    (expiresAtMs : Option Nat) (victim : Option Key) : LocalState :=
  if st.accepts revision then
    (st.putSlot key (.present payload revision expiresAtMs) victim).1
  else st

def installMissing (st : LocalState) (key : Key) (revision : CacheRevision) (victim : Option Key) :
    LocalState :=
  if st.accepts revision then (st.putSlot key (.missing revision) victim).1 else st

def resetLocal (st : LocalState) (revision : CacheRevision) : LocalState :=
  if st.accepts revision then st.advanceFloor revision.sequence else st

/-- What `put`, `delete` and `reset` do to their store once the mutation is published. -/
def install (st : LocalState) (mutation : CacheMutation) (victim : Option Key) : LocalState :=
  match mutation with
  | .put _ key revision expiresAtMs payload =>
    st.installLocal key payload revision expiresAtMs victim
  | .delete _ key revision => st.installMissing key revision victim
  | .reset _ revision => st.resetLocal revision

end LocalState

end OrbitCache
