import Orbit.Session.Tickets

/-! The operations on a set of the table, store by store.  A process may die after any of them: its last
store stays, and the set is free for the next user. -/

namespace OrbitSession

open Function
open List hiding set

variable {g : Sizes}

inductive Area where
  | domain
  | key
  | value
deriving DecidableEq

/-- How the processor's accesses cut up an area: where the words of 64 bits are in it, and the pieces of
a copy. -/
structure Accesses where
  /-- The bytes before the first word, and the words, of so many bytes of an area. -/
  alignTo : Area → Nat → Nat × Nat
  aligned : ∀ area len, (alignTo area len).1 + 8 * (alignTo area len).2 ≤ len
  /-- The offset and the length of each piece, in the order in which they are copied. -/
  copyPieces : Area → Nat → List (Nat × Nat)
  copies : ∀ area len i, i < len ↔ ∃ piece ∈ copyPieces area len, piece.1 ≤ i ∧ i < piece.1 + piece.2

/-- The pieces that `erase` stores: the bytes before and after the words, then the words. -/
def Accesses.erasePieces (m : Accesses) (area : Area) (len : Nat) : List (Nat × Nat) :=
  let head := (m.alignTo area len).1
  let words := (m.alignTo area len).2
  ((range head).map fun i => (i, 1)) ++
    ((range (len - (head + 8 * words))).map fun i => (head + 8 * words + i, 1)) ++
      (range words).map fun i => (head + 8 * i, 8)

def Buffer.patch {n : Nat} (b : Buffer n) (offset : Nat) (source : List UInt8) : Buffer n :=
  ⟨b.bytes.mapIdx fun i byte => if offset ≤ i then source.getD (i - offset) byte else byte, by
    rw [length_mapIdx, b.length_eq]⟩

inductive SlotStore where
  | state (s : SlotState)
  | domainLen (n : Nat)
  | keyLen (n : Nat)
  | valueLen (n : Nat)
  | keyHash (n : Nat)
  | insertedAtMs (n : Nat)
  | expiresAtMs (n : Nat)
  | bytes (area : Area) (offset : Nat) (source : List UInt8)

def SessionSlot.apply (s : SessionSlot g) : SlotStore → SessionSlot g
  | .state state => { s with state }
  | .domainLen n => { s with domainLen := n }
  | .keyLen n => { s with keyLen := n }
  | .valueLen n => { s with valueLen := n }
  | .keyHash n => { s with keyHash := n }
  | .insertedAtMs n => { s with insertedAtMs := n }
  | .expiresAtMs n => { s with expiresAtMs := n }
  | .bytes .domain offset source => { s with domain := s.domain.patch offset source }
  | .bytes .key offset source => { s with key := s.key.patch offset source }
  | .bytes .value offset source => { s with value := s.value.patch offset source }

def SessionSlot.applyAll (s : SessionSlot g) (stores : List SlotStore) : SessionSlot g :=
  stores.foldl SessionSlot.apply s

variable (m : Accesses)

def eraseStores (area : Area) (len : Nat) : List SlotStore :=
  (m.erasePieces area len).map fun piece => .bytes area piece.1 (replicate piece.2 0)

def copyStores (area : Area) (source : List UInt8) : List SlotStore :=
  (m.copyPieces area source.length).map fun piece =>
    .bytes area piece.1 ((source.drop piece.1).take piece.2)

def forgetStores : List SlotStore :=
  [.domainLen 0, .keyLen 0, .valueLen 0, .keyHash 0, .insertedAtMs 0, .expiresAtMs 0]

/-- An erasure of so many bytes of each area. -/
def emptyStores (domain key value : Nat) : List SlotStore :=
  eraseStores m .domain domain ++ eraseStores m .key key ++ eraseStores m .value value ++ forgetStores

/-- The slot is being written from the first store on, and has its state with the last. -/
def between (state : SlotState) (stores : List SlotStore) : List SlotStore :=
  .state .writing :: (stores ++ [.state state])

def clearStores (g : Sizes) : List SlotStore :=
  between .empty (emptyStores m g.domainMax g.keyCapacity g.valueMax)

def SessionSlot.releaseStores (s : SessionSlot g) : List SlotStore :=
  if s.state = .empty then []
  else
    match s.extents with
    | none => clearStores m g
    | some (domain, key, value) => between .empty (emptyStores m domain key value)

def SessionSlot.writeStores (s : SessionSlot g) (hash : Nat) (domain key value : List UInt8)
    (insertedAtMs expiresAtMs : Nat) : List SlotStore :=
  s.releaseStores m ++ between .occupied
    ([.domainLen (domain.length % 2 ^ 8), .keyLen (key.length % 2 ^ 8),
      .valueLen (value.length % 2 ^ 32), .keyHash hash, .insertedAtMs insertedAtMs,
      .expiresAtMs expiresAtMs] ++ copyStores m .domain domain ++ copyStores m .key key ++
        copyStores m .value value)

abbrev SetStore := Nat × SlotStore

def applySet (set : List (SessionSlot g)) (stores : List SetStore) : List (SessionSlot g) :=
  stores.foldl (fun set store => set.modify store.1 fun s => s.apply store.2) set

def atWay (way : Nat) (stores : List SlotStore) : List SetStore := stores.map fun store => (way, store)

/-- What a user of a set does. -/
inductive SetOp where
  | put (domain key value : List UInt8) (nowMs expiresAtMs : Nat)
  | push (domain key value : List UInt8) (nowMs expiresAtMs maxValues : Nat)
  | read (domain key : List UInt8) (nowMs : Nat) (consume : Bool)
  /-- A claim is taken over, or the table is reset. -/
  | erase (set : Nat)

def SetOp.set (g : Sizes) : SetOp → Nat
  | .put domain key .. => setIndex g (entryHash domain key)
  | .push domain key .. => setIndex g (entryHash domain key)
  | .read domain key .. => setIndex g (entryHash domain key)
  | .erase set => set

def SetOp.checks (g : Sizes) : SetOp → Bool
  | .put domain key value .. => entryFits g domain key value
  | .push domain key value _ _ maxValues => entryFits g domain key value && maxValues ≠ 0
  | .read .. => true
  | .erase _ => true

def SetOp.result (set : List (SessionSlot g)) : SetOp → List (SessionSlot g)
  | .put domain key value nowMs expiresAtMs =>
    set.modify (candidate (entryHash domain key) domain key nowMs set 0 (0, u64Max)) fun slot =>
      slot.write (entryHash domain key) domain key value nowMs expiresAtMs
  | .push domain key value nowMs expiresAtMs maxValues =>
    pushSet (entryHash domain key) domain key value nowMs expiresAtMs maxValues set
  | .read domain key nowMs consume =>
    (readSet (entryHash domain key) domain key nowMs consume set).1
  | .erase _ => set.map SessionSlot.clear

/-- The stores of a scan, from the way `way` on. -/
def scanStores (stores : SessionSlot g → List SlotStore) :
    List (SessionSlot g) → Nat → List SetStore
  | [], _ => []
  | slot :: rest, way => atWay way (stores slot) ++ scanStores stores rest (way + 1)

def SessionSlot.tidyStores (s : SessionSlot g) (nowMs : Nat) : List SlotStore :=
  if s.state ≠ .occupied ∨ s.expiresAtMs ≤ nowMs then s.releaseStores m else []

def SessionSlot.readStores (s : SessionSlot g) (nowMs : Nat) (consume : Bool) : List SlotStore :=
  if s.expiresAtMs ≤ nowMs then s.releaseStores m
  else
    match s.storedValue with
    | none => clearStores m g
    | some _ => if consume then s.releaseStores m else []

def readSetStores (hash : Nat) (domain key : List UInt8) (nowMs : Nat) (consume : Bool) :
    List (SessionSlot g) → Nat → List SetStore
  | [], _ => []
  | slot :: rest, way =>
    if !slot.matches hash domain key then
      readSetStores hash domain key nowMs consume rest (way + 1)
    else atWay way (slot.readStores m nowMs consume)

def writeWayStores (set : List (SessionSlot g)) (way hash : Nat) (domain key value : List UInt8)
    (nowMs expiresAtMs : Nat) : List SetStore :=
  match set[way]? with
  | some slot => atWay way (slot.writeStores m hash domain key value nowMs expiresAtMs)
  | none => []

/-- The stores of an operation, in the order of the program. -/
def SetOp.stores (set : List (SessionSlot g)) : SetOp → List SetStore
  | .put domain key value nowMs expiresAtMs =>
    writeWayStores m set (candidate (entryHash domain key) domain key nowMs set 0 (0, u64Max))
      (entryHash domain key) domain key value nowMs expiresAtMs
  | .push domain key value nowMs expiresAtMs maxValues =>
    let r := scanPush (entryHash domain key) domain key nowMs set 0 .start
    scanStores (fun s => s.tidyStores m nowMs) set 0 ++
      writeWayStores m r.1 (r.2.candidate maxValues) (entryHash domain key) domain key value nowMs
        expiresAtMs
  | .read domain key nowMs consume =>
    readSetStores m (entryHash domain key) domain key nowMs consume set 0
  | .erase _ => scanStores (fun _ => clearStores m g) set 0

/-- A table, the stores that the user of each set still has to make, and what that user does: the
operation, and what the set was when it began. -/
structure StoreWorld (g : Sizes) where
  sets : Sets g
  pending : Nat → List SetStore
  doing : Nat → Option (SetOp × List (SessionSlot g))

inductive StoreAct where
  | begin (op : SetOp)
  /-- The user of the set makes its next store. -/
  | store (set : Nat)
  /-- The user of the set dies. -/
  | dies (set : Nat)

/-- A step that cannot be taken changes nothing. -/
def StoreWorld.act (w : StoreWorld g) : StoreAct → StoreWorld g
  | .begin op =>
    let set := op.set g
    if (w.pending set).isEmpty ∧ op.checks g then
      { w with
        pending := update w.pending set (op.stores m (w.sets set))
        doing := update w.doing set (some (op, w.sets set)) }
    else w
  | .store set =>
    match w.pending set with
    | [] => w
    | store :: rest =>
      { w with
        sets := update w.sets set (applySet (w.sets set) [store])
        pending := update w.pending set rest }
  | .dies set =>
    if (w.pending set).isEmpty then w
    else
      { w with
        pending := update w.pending set []
        doing := update w.doing set none }

def StoreWorld.zeroed (g : Sizes) : StoreWorld g := ⟨.zero g, fun _ => [], fun _ => none⟩

def StoreWorld.run (w : StoreWorld g) (acts : List StoreAct) : StoreWorld g := acts.foldl (·.act m) w

end OrbitSession
