import Orbit.Atomic.Copy
import Orbit.Quota.Contract
import Mathlib.Data.Nat.Bitwise

/-! The table of a process's own quota store: its words, and what a run of its calls keeps in
mind. -/

namespace OrbitQuota.Memory

open Orbit.Atomic

def writerFlag : Nat := 2 ^ 63

def poisonedFlag : Nat := 2 ^ 62

def retiredFlag : Nat := 2 ^ 61

def readers : Nat := retiredFlag - 1

/-- What the clones of one store share.  `hash` stands for the keyed hash: the number of a key's
shard and that of its first slot, before they are reduced. -/
structure Table where
  retention : Retention
  geometry : Geometry
  casBudget : Nat
  algorithm : Gcra
  hash : Key → Nat × Nat

/-- The watermark and the structure mutex of a shard, and the words of a slot. -/
inductive Addr where
  | structure (shard : Nat)
  | watermark (shard : Nat)
  | gate (slot : Nat)
  | generation (slot : Nat)
  | occupied (slot : Nat)
  | namespaceLen (slot : Nat)
  | subjectLen (slot : Nat)
  | byte (slot index : Nat)
  | tat (slot : Nat)
  | lastSeen (slot : Nat)
  deriving DecidableEq

def Addr.guarded : Addr → Option Nat
  | .generation slot | .occupied slot | .namespaceLen slot | .subjectLen slot | .byte slot _
  | .tat slot | .lastSeen slot => some slot
  | .structure _ | .watermark _ | .gate _ => none

/-- What the locked scan of an admission has seen of a slot. -/
inductive Look where
  | retired (slot : Nat)
  | inspected (slot : Nat) (occupied : Bool) (observation : Observation)

def Look.slot : Look → Nat
  | retired slot | inspected slot _ _ => slot

/-- A locked scan: the time it sampled, and what it has seen since, in its order.  No decision is
taken by it. -/
structure Scan where
  now : Nat
  looks : List Look

def Scan.see (scan : Scan) (look : Look) : Scan := { scan with looks := scan.looks ++ [look] }

/-- What an install has written over, for the key, at the time that it sampled. -/
structure Replacement where
  key : Key
  scan : Scan
  slot : Nat
  occupied : Bool
  debt : Observation
  now : Nat

inductive Event where
  | charged (slot previous now next : Nat)
  | replaced (replacement : Replacement)

abbrev History := List Event

abbrev MemoryM (α : Type) := QuotaM Addr Event α

/-! Admitting a request to a process's own quota store, access by access. -/

def unpin (slot : Nat) : Prog Addr Event Unit := do
  let _ ← fetchAdd 64 (.gate slot) (u64Size - 1)

/-- One more pin of the slot, unless it is retired. -/
def countPin (around : Surroundings) (slot : Nat) : Nat → Nat → MemoryM Bool
  | 0, _ => .fail .busy
  | rounds + 1, gate =>
    if gate &&& poisonedFlag ≠ 0 then .fail .corruptState
    else if gate &&& retiredFlag ≠ 0 then return false
    else if gate &&& writerFlag ≠ 0 ∨ gate = readers then .fail .busy
    else do
      takeCas
      match ← weakExchange around (.gate slot) gate (gate + 1) with
      | none => return true
      | some current => countPin around slot rounds current

def pin (around : Surroundings) (slot : Nat) (expected : Option Nat) : MemoryM Bool := do
  let gate ← Work.lift (load (.gate slot))
  if ← withinBudget fun rounds => countPin around slot rounds gate then
    match expected with
    | none => return true
    | some generation => do
      let current ← Work.lift (load (.generation slot))
      if generation ≠ current then do
        Work.lift (unpin slot)
        .fail .busy
      else return true
  else return false

def pinMatches (slot : Nat) (key : Key) : Prog Addr Event Bool := do
  let occupied ← load (.occupied slot)
  if occupied = 0 then return false
  else do
    let ns ← load (.namespaceLen slot)
    if ns ≠ key.namespaceBytes.length then return false
    else do
      let subject ← load (.subjectLen slot)
      if subject ≠ key.subject.length then return false
      else do
        let bytes ← copyOut (.byte slot) 0 (ns + subject)
        return bytes.take ns == key.namespaceBytes && bytes.drop ns == key.subject

/-- `Slot::reserve`: neither pins nor another writer from now on. -/
def reserve (slot : Nat) : MemoryM Unit := do
  takeCas
  match ← Work.lift (exchange (.gate slot) 0 writerFlag) with
  | none => return ()
  | some gate =>
    if gate &&& poisonedFlag ≠ 0 then .fail .corruptState
    else if gate &&& retiredFlag ≠ 0 then .fail .capacityFull
    else .fail .busy

def cancel (slot : Nat) : Prog Addr Event Unit := store (.gate slot) 0

def copyBytes (slot : Nat) : Nat → List UInt8 → Prog Addr Event Unit := copyIn (.byte slot)

/-- The words of an identity, but for its presence. -/
def writeIdentity (slot generation : Nat) (key : Key) : Prog Addr Event Unit := do
  copyBytes slot 0 key.namespaceBytes
  copyBytes slot key.namespaceBytes.length key.subject
  store (.namespaceLen slot) key.namespaceBytes.length
  store (.subjectLen slot) key.subject.length
  store (.generation slot) generation

/-- `Writer::install`.  What the slot held goes to the history. -/
def writerInstall (slot generation : Nat) (key : Key) (tat : Nat) (scan : Scan) (now seen : Nat) :
    Prog Addr Event Unit := do
  writeIdentity slot generation key
  let occupied ← swap (.occupied slot) 1
  let previous ← swap (.tat slot) tat
  store (.gate slot) 0
  mark (.replaced ⟨key, scan, slot, occupied != 0, ⟨previous, seen⟩, now⟩)

/-- The recency of a guard's slot becomes `now`; the result is what it was. -/
def refresh (T : Table) (slot now : Nat) : Prog Addr Event Nat :=
  if T.retention = .guard then swap (.lastSeen slot) now else pure 0

def sampleShard (T : Table) (around : Surroundings) (shard : Nat) : MemoryM Nat :=
  sample around (do .of (around.clock (← turn))) T.algorithm (.watermark shard)

def consume (T : Table) (around : Surroundings) (shard slot : Nat) (prepared : Prepared) :
    MemoryM Captured :=
  (withinBudget fun rounds => consumeWith around T.retention (sampleShard T around shard)
    (.tat slot) (.lastSeen slot) (.charged slot) prepared rounds).always (unpin slot)

def revalidate (T : Table) (slot previous now : Nat) (observed : Option Observation) :
    MemoryM Unit := do
  let occupied ← Work.lift (load (.occupied slot))
  if occupied = 0 then return ()
  else
    match observed, T.retention with
    | some observed, .guard => do
      if previous ≠ observed.tat then .fail .busy
      else do
        let seen ← Work.lift (load (.lastSeen slot))
        if seen ≠ observed.seen then .fail .busy else return ()
    | _, _ => if now < previous then .fail .busy else return ()

/-- The generation, the sampled time and the first TAT of a new identity; nothing when the slot has
run out of generations. -/
def initialCharge (T : Table) (around : Surroundings) (shard : Nat) (candidate : Candidate)
    (prepared : Prepared) : MemoryM (Option (Nat × Nat × Nat)) := do
  let generation ← Work.lift (load (.generation candidate.index))
  if generation ≠ candidate.generation then .fail .busy
  else do
    let previous ← Work.lift (load (.tat candidate.index))
    let now ← sampleShard T around shard
    revalidate T candidate.index previous now candidate.observed
    if u64Size ≤ generation + 1 then return none
    else
      match ← Work.of (prepared.evaluate now none) with
      | .allowed tat => return some (generation + 1, now, tat)
      | .limited _ => .fail .corruptState

def install (T : Table) (around : Surroundings) (shard : Nat) (candidate : Candidate) (key : Key)
    (scan : Scan) (prepared : Prepared) : MemoryM Captured := do
  reserve candidate.index
  match ← (initialCharge T around shard candidate prepared).onFailure (cancel candidate.index) with
  | none => do
    Work.lift (store (.gate candidate.index) retiredFlag)
    .fail .capacityFull
  | some (generation, now, tat) => do
    let seen ← Work.lift (refresh T candidate.index now)
    Work.lift (writerInstall candidate.index generation key tat scan now seen)
    return .allowed now tat

def lookup (around : Surroundings) (key : Key) : List Nat → MemoryM (Option Nat)
  | [] => return none
  | slot :: rest => do
    if ← pin around slot none then
      if ← Work.lift (pinMatches slot key) then return some slot
      else do
        Work.lift (unpin slot)
        lookup around key rest
    else lookup around key rest

def observe (T : Table) (slot : Nat) : Prog Addr Event Observation := do
  let tat ← load (.tat slot)
  if T.retention = .guard then do
    let seen ← load (.lastSeen slot)
    return ⟨tat, seen⟩
  else return ⟨tat, 0⟩

/-- The slot that holds the key, pinned, or else the slots it may take.  The caller has the shard's
structure. -/
def search (T : Table) (around : Surroundings) (key : Key) :
    List Nat → Selection → Scan → MemoryM (Nat ⊕ (Selection × Scan))
  | [], selection, scan => return .inr (selection, scan)
  | slot :: rest, selection, scan => do
    if ← pin around slot none then
      if ← Work.lift (pinMatches slot key) then return .inl slot
      else do
        let observation ← Work.lift (observe T slot)
        let generation ← Work.lift (load (.generation slot))
        let occupied ← Work.lift (load (.occupied slot))
        Work.lift (unpin slot)
        search T around key rest
          (selection.consider slot generation (occupied = 0 ∨ observation.tat ≤ scan.now) observation)
          (scan.see (.inspected slot (occupied != 0) observation))
    else search T around key rest selection (scan.see (.retired slot))

def Table.location (T : Table) (key : Key) : Nat × Nat :=
  ((T.hash key).1 % T.geometry.shards, (T.hash key).2 % T.geometry.perShard)

/-- The slots that may hold a key, in the order in which they are inspected. -/
def Table.window (T : Table) (key : Key) : List Nat :=
  T.geometry.probed (T.location key).1 (T.location key).2

def release (shard : Nat) : Prog Addr Event Unit := store (.structure shard) 0

def admitRequest (T : Table) (around : Surroundings) (key : Key) (cost : NonZeroU64) :
    MemoryM Captured := do
  if u64Size ≤ key.bytes.length then .fail .keyTooLarge
  else if T.geometry.keyBytes < key.bytes.length then .fail .keyTooLarge
  else do
    let prepared ← Work.of (T.algorithm.prepare cost)
    let shard := (T.location key).1
    match ← lookup around key (T.window key) with
    | some slot => consume T around shard slot prepared
    | none => do
      if ← Work.lift (compareExchange (.structure shard) 0 1) then do
        let found ← Work.onFailure (do
            let now ← sampleShard T around shard
            search T around key (T.window key) (.new T.retention) ⟨now, []⟩)
          (release shard)
        match found with
        | .inl slot => do
          Work.lift (release shard)
          consume T around shard slot prepared
        | .inr (selection, scan) =>
          Work.always (do
              let candidate ← Work.of selection.finish
              install T around shard candidate key scan prepared)
            (release shard)
      else .fail .busy

/-- A call of `try_consume` or `try_consume_with_snapshot`, by any clone of the store. -/
structure Call where
  key : Key
  cost : NonZeroU64
  around : Surroundings

def memorySys (T : Table) : Sys Addr Event Call History where
  body call := (admitRequest T call.around call.key call.cost).toProg ⟨T.casBudget, 0, 0⟩
  begins _ h := some h
  record _ _ event h := event :: h

def Quiescent (mem : Mem Addr) : Prop :=
  ∀ slot, mem (.gate slot) = 0 ∨ mem (.gate slot) = retiredFlag ∨ mem (.gate slot) = poisonedFlag

end OrbitQuota.Memory
