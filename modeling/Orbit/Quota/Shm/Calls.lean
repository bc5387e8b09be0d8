import Orbit.Quota.Shm.Layout

/-! Opening the shared table and admitting a request, access by access. -/

namespace OrbitQuota.Shm

open Orbit.Atomic

/-- The lock of a lane file, unless someone has it: the word is the process that has it, counted
from one. -/
def tryLock (around : Surroundings) (process : Nat) (lock : Addr) : ShmM Bool := do
  let n ← turn
  if around.lockFails n then .fail .io
  else .lift (compareExchange lock 0 (process + 1))

def lockShard (around : Surroundings) (process shard : Nat) : ShmM Unit := do
  takeCas
  let taken ← tryLock around process (.shardHold shard)
  if taken then return () else .fail .busy

def unlock (lock : Addr) : Prog Addr Event Unit := store lock 0

/-- A frozen descriptor still names the preceding complete bank.  The caller has the shard's
lock. -/
def thaw (index : Nat) : Prog Addr Event Unit := do
  let state ← load (.control index)
  if state &&& frozenFlag ≠ 0 then store (.control index) (state ^^^ (state &&& frozenFlag))

def repair (around : Surroundings) (process index shard : Nat) : ShmM Unit := do
  recover
  lockShard around process shard
  Work.lift (thaw index)
  Work.lift (unlock (.shardHold shard))

def releasePin (owner index : Nat) : Prog Addr Event Unit := do
  let _ ← fetchAdd 64 (.pins owner index) (u64Size - 1)

def dropPin (pin : Pin) : Prog Addr Event Unit := do
  releasePin pin.handle.owner pin.index
  mark (.unpinned pin)

def countPin (around : Surroundings) (owner index : Nat) : Nat → Nat → ShmM Unit
  | 0, _ => .fail .busy
  | rounds + 1, count =>
    if count + 1 < u64Size then do
      takeCas
      match ← weakExchange around (.pins owner index) count (count + 1) with
      | none => return ()
      | some current => countPin around owner index rounds current
    else .fail .busy

/-- Whoever froze the slot before sees the pin, or the pin sees the frozen descriptor. -/
def validatePin (handle : Handle) (index control : Nat) (expected : Option Nat) : ShmM Nat := do
  let generation := control &&& generationMask
  let current ← Work.lift (load (.control index))
  if current ≠ control ∨ expected.any (· ≠ generation) then do
    Work.lift (releasePin handle.owner index)
    .fail .busy
  else do
    Work.lift (mark (.pinned ⟨handle, index, generation⟩))
    return generation

def pin (around : Surroundings) (handle : Handle) (index : Nat) (expected : Option Nat) :
    ShmM (Option Nat) := do
  let control ← Work.lift (load (.control index))
  if control &&& frozenFlag ≠ 0 then .fail .busy
  else if control &&& retiredFlag ≠ 0 then return none
  else do
    let count ← Work.lift (load (.pins handle.owner index))
    withinBudget fun rounds => countPin around handle.owner index rounds count
    let generation ← validatePin handle index control expected
    return some generation

def pinMatches (g : Geometry) (pin : Pin) (key : Key) : ShmM Bool :=
  if pin.generation = 0 then return false
  else do
    let bank := bankOf pin.generation
    let ns ← Work.lift (load (.namespaceLen pin.index bank))
    let subject ← Work.lift (load (.subjectLen pin.index bank))
    if u64Size ≤ ns + subject then .fail .corruptState
    else if ns = 0 ∨ subject = 0 ∨ g.keyBytes < ns + subject then .fail .corruptState
    else if ns ≠ key.namespaceBytes.length ∨ subject ≠ key.subject.length then return false
    else do
      let bytes ← Work.lift (copyOut (fun i => .byte pin.index bank i) 0 (ns + subject))
      return bytes.take ns == key.namespaceBytes && bytes.drop ns == key.subject

def clearDeadPin (around : Surroundings) (handle : Handle) (index owner : Nat) : ShmM Unit :=
  if owner = handle.owner then .fail .busy
  else do
    recover
    takeCas
    let taken ← tryLock around handle.process (.ownerHold owner)
    if taken then do
      Work.lift (store (.pins owner index) 0)
      Work.lift (unlock (.ownerHold owner))
    else .fail .busy

def scanPins (around : Surroundings) (handle : Handle) (index : Nat) : List Nat → ShmM Unit
  | [] => return ()
  | owner :: rest => do
    let count ← Work.lift (load (.pins owner index))
    if count ≠ 0 then clearDeadPin around handle index owner
    scanPins around handle index rest

def freeze (T : Table) (around : Surroundings) (handle : Handle) (index generation : Nat) :
    ShmM Unit := do
  takeCas
  let frozen ← Work.lift
    (compareExchange (.control index) generation (generation ||| frozenFlag))
  if frozen then
    (scanPins around handle index (List.range T.owners)).onFailure
      (store (.control index) generation)
  else .fail .busy

def writeBank (slot bank : Nat) (place : Addr) (value : Nat) : Prog Addr Event Unit := do
  store place value
  mark (.wrote slot bank)

def copyBytes (slot bank : Nat) : Nat → List UInt8 → Prog Addr Event Unit
  | _, [] => return ()
  | index, byte :: rest => do
    writeBank slot bank (.byte slot bank index) byte.toNat
    copyBytes slot bank (index + 1) rest

/-- `Frozen::publish_seen`, of a slot that is frozen and has no pins. -/
def publishSeen (T : Table) (index generation : Nat) (key : Key) (tat seen : Nat) : ShmM Unit :=
  let next := generation + 1
  if generationMask < next then do
    Work.lift (store (.control index) (generation ||| retiredFlag))
    .fail .capacityFull
  else .lift do
    let bank := bankOf next
    copyBytes index bank 0 key.namespaceBytes
    copyBytes index bank key.namespaceBytes.length key.subject
    writeBank index bank (.namespaceLen index bank) key.namespaceBytes.length
    writeBank index bank (.subjectLen index bank) key.subject.length
    writeBank index bank (.tat index bank) tat
    if T.retention = .guard then writeBank index bank (.lastSeen index bank) seen
    store (.control index) next
    mark (.published index ⟨next, key, tat⟩)

def sampleShard (T : Table) (around : Surroundings) (shard : Nat) : ShmM Nat :=
  sample around (do .of (around.clock (← turn))) T.algorithm (.watermark shard)

def consume (T : Table) (around : Surroundings) (shard : Nat) (pin : Pin) (prepared : Prepared) :
    ShmM Captured :=
  let bank := bankOf pin.generation
  withinBudget fun rounds => consumeWith around T.retention (sampleShard T around shard)
    (.tat pin.index bank) (.lastSeen pin.index bank) (.charged pin.index) prepared rounds

def revalidate (T : Table) (index generation previous now : Nat) (observed : Option Observation) :
    ShmM Unit :=
  if generation = 0 then return ()
  else
    match observed, T.retention with
    | some observed, .guard => do
      if previous ≠ observed.tat then .fail .busy
      else do
        let seen ← Work.lift (load (.lastSeen index (bankOf generation)))
        if seen ≠ observed.seen then .fail .busy else return ()
    | _, _ => if now < previous then .fail .busy else return ()

def initialCharge (T : Table) (around : Surroundings) (shard : Nat) (candidate : Candidate)
    (prepared : Prepared) : ShmM (Nat × Nat) := do
  let previous ← Work.lift (load (.tat candidate.index (bankOf candidate.generation)))
  let now ← sampleShard T around shard
  revalidate T candidate.index candidate.generation previous now candidate.observed
  match ← .of (prepared.evaluate now none) with
  | .allowed tat => return (now, tat)
  | .limited _ => .fail .corruptState

def install (T : Table) (around : Surroundings) (handle : Handle) (shard : Nat)
    (candidate : Candidate) (key : Key) (prepared : Prepared) : ShmM Captured := do
  freeze T around handle candidate.index candidate.generation
  let charge ← (initialCharge T around shard candidate prepared).onFailure
    (store (.control candidate.index) candidate.generation)
  publishSeen T candidate.index candidate.generation key charge.2
    (if T.retention = .guard then charge.1 else 0)
  return .allowed charge.1 charge.2

def lookup (T : Table) (around : Surroundings) (handle : Handle) (shard : Nat) (key : Key) :
    List Nat → ShmM (Option Pin)
  | [] => return none
  | index :: rest => do
    let control ← Work.lift (load (.control index))
    if control &&& frozenFlag ≠ 0 then repair around handle.process index shard
    match ← pin around handle index none with
    | none => lookup T around handle shard key rest
    | some generation => do
      let held : Pin := ⟨handle, index, generation⟩
      if ← (pinMatches T.geometry held key).onFailure (dropPin held) then return some held
      else do
        Work.lift (dropPin held)
        lookup T around handle shard key rest

/-- The slot that holds the key, pinned, or else the slots it may take.  The caller has the shard's
lock. -/
def search (T : Table) (around : Surroundings) (handle : Handle) (key : Key) (now : Nat) :
    List Nat → Selection → ShmM (Pin ⊕ Selection)
  | [], selection => return .inr selection
  | index :: rest, selection => do
    Work.lift (thaw index)
    match ← pin around handle index none with
    | none => search T around handle key now rest selection
    | some generation => do
      let held : Pin := ⟨handle, index, generation⟩
      let bank := bankOf generation
      if ← (pinMatches T.geometry held key).onFailure (dropPin held) then return .inl held
      else do
        let tat ← Work.lift (load (.tat index bank))
        let seen ← if T.retention = .guard then Work.lift (load (.lastSeen index bank)) else pure 0
        Work.lift (dropPin held)
        search T around handle key now rest
          (selection.consider index generation (generation = 0 ∨ tat ≤ now) ⟨tat, seen⟩)

def checkProcess (handle : Handle) : ShmM Unit := do
  let generation ← Work.lift (load (.generation handle.owner))
  if generation ≠ handle.generation then .fail .corruptState else return ()

def Table.location (T : Table) (key : Key) : Nat × Nat :=
  ((T.hash key).1 % T.geometry.shards, (T.hash key).2 % T.geometry.perShard)

def admitRequest (T : Table) (around : Surroundings) (handle : Handle) (key : Key)
    (cost : NonZeroU64) : ShmM Captured := do
  checkProcess handle
  if u64Size ≤ key.bytes.length then .fail .keyTooLarge
  else if T.geometry.keyBytes < key.bytes.length then .fail .keyTooLarge
  else do
    let prepared ← Work.of (T.algorithm.prepare cost)
    let (shard, start) := T.location key
    let indices := T.geometry.probed shard start
    match ← lookup T around handle shard key indices with
    | some held => (consume T around shard held prepared).always (dropPin held)
    | none => do
      lockShard around handle.process shard
      let found ← Work.onFailure (do
          let now ← sampleShard T around shard
          search T around handle key now indices (.new T.retention))
        (unlock (.shardHold shard))
      match found with
      | .inl held => do
        Work.lift (unlock (.shardHold shard))
        (consume T around shard held prepared).always (dropPin held)
      | .inr selection =>
        Work.always (do
            let candidate ← Work.of selection.finish
            install T around handle shard candidate key prepared)
          (unlock (.shardHold shard))

def clearRow (owner : Nat) : List Nat → Prog Addr Event Unit
  | [] => return ()
  | slot :: rest => do
    store (.pins owner slot) 0
    clearRow owner rest

def claimOwner (T : Table) (around : Surroundings) (process : Nat) : List Nat → ShmM Handle
  | [] => .fail .capacityFull
  | owner :: rest => do
    let taken ← tryLock around process (.ownerHold owner)
    if taken then do
      let generation ← Work.lift (load (.generation owner))
      if generation + 1 < u64Size then .lift do
        clearRow owner (List.range T.geometry.slots)
        store (.generation owner) (generation + 1)
        mark (.opened ⟨process, owner, generation + 1⟩)
        return ⟨process, owner, generation + 1⟩
      else do
        Work.lift (unlock (.ownerHold owner))
        claimOwner T around process rest
    else claimOwner T around process rest

def letGo (process : Nat) (lock : Addr) : Prog Addr Event Unit := do
  let _ ← compareExchange lock (process + 1) 0

def letGoAll (process : Nat) : List Addr → Prog Addr Event Unit
  | [] => return ()
  | lock :: rest => do
    letGo process lock
    letGoAll process rest

def Table.locks (T : Table) : List Addr :=
  (List.range T.owners).map .ownerHold ++ (List.range T.geometry.shards).map .shardHold

inductive Call where
  /-- A process opens the table. -/
  | opens (process : Nat) (around : Surroundings)
  /-- A thread of an open handle's process admits a request. -/
  | admits (handle : Handle) (key : Key) (cost : NonZeroU64) (budget : Budget)
    (around : Surroundings)
  /-- The process dies; its locks are let go one after the other. -/
  | dies (process : Nat)

def Call.process : Call → Nat
  | .opens process _ => process
  | .admits handle .. => handle.process
  | .dies process => process

def Call.body (T : Table) : Call → Prog Addr Event Unit
  | .opens process around =>
    (claimOwner T around process (List.range T.owners)).toProg ⟨0, 0, 0⟩
  | .admits handle key cost budget around =>
    (admitRequest T around handle key cost).toProg budget
  | .dies process => letGoAll process T.locks

/-- A process opens once; only an open handle of a live process admits; a process dies once. -/
def Call.begins : Call → History → Option History
  | .opens process _, h =>
    if process ∈ h.begun then none else some { h with begun := process :: h.begun }
  | .admits handle .., h => if handle ∈ h.handles ∧ handle.process ∉ h.dead then some h else none
  | .dies process, h =>
    if process ∈ h.begun ∧ process ∉ h.dead then some { h with dead := process :: h.dead } else none

def shmSys (T : Table) : Sys Addr Event Call History where
  body := Call.body T
  begins := Call.begins
  record _ _ := record

/-- A process that has died changes no word any more, and the kernel lets go the locks of no
other. -/
def mortal : Discipline Addr Call History where
  begin _ _ _ := True
  write _ call _ _ _ h _ :=
    match call with
    | .dies process => process ∈ h.dead
    | call => call.process ∉ h.dead

instance (call : Call) (h : History) (mem : Mem Addr) : Decidable (mortal.begin call h mem) :=
  inferInstanceAs (Decidable True)

instance (t : Nat) (call : Call) (place : Addr) (old new : Nat) (h : History) (mem : Mem Addr) :
    Decidable (mortal.write t call place old new h mem) :=
  match call with
  | .opens process _ => inferInstanceAs (Decidable (process ∉ h.dead))
  | .admits handle .. => inferInstanceAs (Decidable (handle.process ∉ h.dead))
  | .dies process => inferInstanceAs (Decidable (process ∈ h.dead))

end OrbitQuota.Shm
