import Orbit.Atomic.Sequence
import Orbit.Atomic.Word

/-! The table of TLS sessions: a fixed number of sets, each a row of ways, over private memory, over
a locked segment, or over a segment whose sets are claimed one by one. -/

namespace OrbitSession

open Orbit.Atomic Function
open List hiding take set

/-- The sizes a table is compiled with, and what the crate asserts about them. -/
structure Sizes where
  domainMax : Nat
  keyCapacity : Nat
  valueMax : Nat
  setCount : Nat
  ways : Nat
  owners : Nat
  domain_fits : 0 < domainMax ∧ domainMax ≤ 255
  key_fits : 0 < keyCapacity ∧ keyCapacity ≤ 255
  value_fits : 0 < valueMax ∧ valueMax < 2 ^ 32
  setCount_pow : isPowerOfTwo setCount
  setCount_le : setCount ≤ 65535
  ways_fits : 0 < ways ∧ ways ≤ 65535
  owners_fits : 0 < owners ∧ owners < 65535

inductive Error where
  /-- The monotonic clock could not be read. -/
  | clock
  | invalidData (text : String)
  | resourceBusy (text : String)
deriving DecidableEq, Repr

/-- A fixed array of `n` bytes. -/
structure Buffer (n : Nat) where
  bytes : List UInt8
  length_eq : bytes.length = n

def Buffer.zero (n : Nat) : Buffer n := ⟨replicate n 0, by simp⟩

/-- The bytes below `len`. -/
def Buffer.upto {n : Nat} (b : Buffer n) (len : Nat) : List UInt8 := b.bytes.take len

/-- Zero the bytes below `len`. -/
def Buffer.erase {n : Nat} (b : Buffer n) (len : Nat) : Buffer n :=
  ⟨replicate (min len n) 0 ++ b.bytes.drop len, by
    have h := b.length_eq
    simp
    omega⟩

/-- Copy `source` over the first bytes. No caller passes a source that is longer. -/
def Buffer.copyFrom {n : Nat} (b : Buffer n) (source : List UInt8) : Buffer n :=
  ⟨(source ++ b.bytes.drop source.length).take n, by
    have h := b.length_eq
    simp
    omega⟩

inductive SlotState where
  | empty
  | occupied
  | writing
deriving DecidableEq, Repr

structure SessionSlot (g : Sizes) where
  state : SlotState
  domainLen : Nat
  keyLen : Nat
  valueLen : Nat
  keyHash : Nat
  insertedAtMs : Nat
  expiresAtMs : Nat
  domain : Buffer g.domainMax
  key : Buffer g.keyCapacity
  value : Buffer g.valueMax

variable {g : Sizes}

def SessionSlot.empty : SessionSlot g where
  state := .empty
  domainLen := 0
  keyLen := 0
  valueLen := 0
  keyHash := 0
  insertedAtMs := 0
  expiresAtMs := 0
  domain := .zero _
  key := .zero _
  value := .zero _

def SessionSlot.matches (s : SessionSlot g) (hash : Nat) (domain key : List UInt8) : Bool :=
  s.state = .occupied && s.keyHash = hash && s.domainLen = domain.length &&
    s.keyLen = key.length && s.domain.upto domain.length = domain &&
    s.key.upto key.length = key

/-- The stored bytes, unless the stored length cannot be one. -/
def SessionSlot.storedValue (s : SessionSlot g) : Option (List UInt8) :=
  if s.valueLen = 0 then none
  else if s.valueLen ≤ g.valueMax then some (s.value.upto s.valueLen) else none

def SessionSlot.forget (s : SessionSlot g) : SessionSlot g :=
  { s with domainLen := 0, keyLen := 0, valueLen := 0, keyHash := 0, insertedAtMs := 0,
           expiresAtMs := 0 }

/-- Erase the whole slot, trusting nothing stored in it. -/
def SessionSlot.clear (s : SessionSlot g) : SessionSlot g :=
  { ({ s with domain := s.domain.erase g.domainMax, key := s.key.erase g.keyCapacity,
              value := s.value.erase g.valueMax } : SessionSlot g).forget with state := .empty }

def SessionSlot.extents (s : SessionSlot g) : Option (Nat × Nat × Nat) :=
  if s.state ≠ .occupied then none
  else if (1 ≤ s.domainLen ∧ s.domainLen ≤ g.domainMax) ∧
      (1 ≤ s.keyLen ∧ s.keyLen ≤ g.keyCapacity) ∧ 1 ≤ s.valueLen ∧ s.valueLen ≤ g.valueMax then
    some (s.domainLen, s.keyLen, s.valueLen)
  else none

def SessionSlot.release (s : SessionSlot g) : SessionSlot g :=
  if s.state = .empty then s
  else
    match s.extents with
    | none => s.clear
    | some (domain, key, value) =>
      { ({ s with domain := s.domain.erase domain, key := s.key.erase key,
                  value := s.value.erase value } : SessionSlot g).forget with state := .empty }

def SessionSlot.write (s : SessionSlot g) (hash : Nat) (domain key value : List UInt8)
    (insertedAtMs expiresAtMs : Nat) : SessionSlot g :=
  let s := s.release
  { state := .occupied
    domainLen := domain.length % 2 ^ 8
    keyLen := key.length % 2 ^ 8
    valueLen := value.length % 2 ^ 32
    keyHash := hash
    insertedAtMs
    expiresAtMs
    domain := s.domain.copyFrom domain
    key := s.key.copyFrom key
    value := s.value.copyFrom value }

def entryFits (g : Sizes) (domain key value : List UInt8) : Bool :=
  !domain.isEmpty && domain.length ≤ g.domainMax && !key.isEmpty && key.length ≤ g.keyCapacity &&
    !value.isEmpty && value.length ≤ g.valueMax

def fnvOffsetBasis : Nat := 0xcbf29ce484222325
def fnvPrime : Nat := 0x00000100000001b3

def entryHash (domain key : List UInt8) : Nat :=
  (domain ++ key).foldl (fun hash byte => (hash ^^^ byte.toNat) * fnvPrime % 2 ^ 64) fnvOffsetBasis

def setIndex (g : Sizes) (hash : Nat) : Nat := hash &&& (g.setCount - 1)

/-- The slots by set: way `w` of set `s` is slot `s * ways + w` of the table. -/
abbrev Sets (g : Sizes) := Nat → List (SessionSlot g)

def Sets.zero (g : Sizes) : Sets g := fun _ => replicate g.ways .empty

def generationBits : Nat := 48
def generationMax : Nat := 2 ^ 48 - 1

def identity (owner generation : Nat) : Nat := ((owner + 1) <<< generationBits) ||| generation

def claimant (g : Sizes) (word : Nat) : Option (Nat × Nat) :=
  if word >>> generationBits = 0 then none
  else if word >>> generationBits - 1 < g.owners then
    some (word >>> generationBits - 1, word &&& generationMax)
  else none

structure ClaimTable (g : Sizes) where
  name : String
  sets : Sets g
  /-- The claim word of each set; zero is free. -/
  claims : Nat → Nat
  /-- The generation each registration has reached. -/
  generations : Nat → Nat
  owner : Nat
  generation : Nat

def ClaimTable.identity (t : ClaimTable g) : Nat := OrbitSession.identity t.owner t.generation

def ClaimTable.claimOf (t : ClaimTable g) (set word : Nat) : ClaimTable g :=
  { t with claims := update t.claims set word }

def ClaimTable.erase (t : ClaimTable g) (set : Nat) : ClaimTable g :=
  { t with sets := update t.sets set ((t.sets set).map SessionSlot.clear) }

def ClaimTable.check (t : ClaimTable g) : Except Error Unit :=
  if t.generations t.owner ≠ t.generation then
    .error (.invalidData ("SHM segment " ++ t.name ++ " lost this handle's owner registration"))
  else .ok ()

def ClaimTable.damaged (t : ClaimTable g) (set : Nat) : Error :=
  .invalidData ("SHM segment " ++ t.name ++ " has a malformed claim on session set " ++
    toString set)

/-- Take `set` over from the registration `observed` names, if nobody stands behind it any more;
`tryHoldLane` is whether the kernel lets go of a registration's lock. -/
def ClaimTable.takeBack (t : ClaimTable g) (tryHoldLane : Nat → Bool) (set observed : Nat) :
    Except Error (Option (ClaimTable g)) :=
  match claimant g observed with
  | none => .error (t.damaged set)
  | some (owner, generation) =>
    if owner = t.owner then .ok none
    else if !tryHoldLane owner then .ok none
    else if t.generations owner < generation then .error (t.damaged set)
    else if t.claims set ≠ observed then .ok none
    else .ok (some ((t.claimOf set t.identity).erase set))

def ClaimTable.claim (t : ClaimTable g) (tryHoldLane : Nat → Bool) (set : Nat) (recover : Bool) :
    Except Error (Option (ClaimTable g)) :=
  match t.check with
  | .error e => .error e
  | .ok () =>
    if t.claims set = 0 then .ok (some (t.claimOf set t.identity))
    else if recover then t.takeBack tryHoldLane set (t.claims set)
    else .ok none

def register (name : String) (generations : Nat → Nat) (tryHoldLane : Nat → Bool) (owners : Nat) :
    List Nat → Except Error (Nat × Nat)
  | [] => .error (.resourceBusy ("SHM segment " ++ name ++
      " has no free session-table owner registration: all " ++ toString owners ++ " are held"))
  | owner :: rest =>
    if tryHoldLane owner ∧ generations owner + 1 ≤ generationMax then
      .ok (owner, generations owner + 1)
    else register name generations tryHoldLane owners rest

def ClaimTable.takeBackOwn (t : ClaimTable g) : List Nat → ClaimTable g
  | [] => t
  | set :: rest =>
    match claimant g (t.claims set) with
    | some (owner, _) =>
      if owner = t.owner then ((t.erase set).claimOf set 0).takeBackOwn rest
      else t.takeBackOwn rest
    | none => t.takeBackOwn rest

/-- Open a segment this handle created: zeroed, with its header written. -/
def ClaimTable.openCreated (g : Sizes) (name : String) (tryHoldLane : Nat → Bool) :
    Except Error (ClaimTable g) :=
  match register name (fun _ => 0) tryHoldLane g.owners (range g.owners) with
  | .error e => .error e
  | .ok (owner, generation) =>
    .ok (({ name, sets := .zero g, claims := fun _ => 0,
            generations := update (fun _ => 0) owner generation,
            owner, generation } : ClaimTable g).takeBackOwn (range g.setCount))

/-- What one operation keeps every other operation out of. -/
inductive Exclusion where
  | table
  | set
deriving DecidableEq, Repr

inductive Backing (g : Sizes) where
  | memory (sets : Sets g)
  | locked (sets : Sets g)
  | claimed (table : ClaimTable g)

def Backing.sets : Backing g → Sets g
  | .memory sets => sets
  | .locked sets => sets
  | .claimed table => table.sets

/-- Open a table nobody created before, in a fleet with or without shared memory. -/
def openCreated (g : Sizes) (isShm : Bool) (exclusion : Exclusion) (name : String)
    (tryHoldLane : Nat → Bool) : Except Error (Backing g) :=
  if isShm then
    match exclusion with
    | .table => .ok (.locked (.zero g))
    | .set => (ClaimTable.openCreated g name tryHoldLane).map .claimed
  else .ok (.memory (.zero g))

/-- Run `operation` on the set `hash` selects, as that set's only user. `none` means another
operation holds the set. -/
def Backing.withSet {α : Type} (b : Backing g) (tryHoldLane : Nat → Bool) (hash : Nat)
    (recover : Bool) (operation : List (SessionSlot g) → List (SessionSlot g) × α) :
    Backing g × Except Error (Option α) :=
  let set := setIndex g hash
  match b with
  | .memory sets =>
    let r := operation (sets set)
    (.memory (update sets set r.1), .ok (some r.2))
  | .locked sets =>
    let r := operation (sets set)
    (.locked (update sets set r.1), .ok (some r.2))
  | .claimed table =>
    match table.claim tryHoldLane set recover with
    | .error e => (.claimed table, .error e)
    | .ok none => (.claimed table, .ok none)
    | .ok (some held) =>
      let r := operation (held.sets set)
      (.claimed ({ held with sets := update held.sets set r.1 }.claimOf set 0),
        .ok (some r.2))

/-- The way `put` writes: the scan stops at the entry itself, or at the first way that is free or
expired, and else takes the oldest one seen. -/
def candidate (hash : Nat) (domain key : List UInt8) (nowMs : Nat) :
    List (SessionSlot g) → Nat → Nat × Nat → Nat
  | [], _, oldest => oldest.1
  | slot :: rest, index, oldest =>
    if slot.matches hash domain key then index
    else if slot.state ≠ .occupied ∨ slot.expiresAtMs ≤ nowMs then index
    else candidate hash domain key nowMs rest (index + 1)
      (if slot.insertedAtMs < oldest.2 then (index, slot.insertedAtMs) else oldest)

def u64Max : Nat := 2 ^ 64 - 1

/-- When an entry stored at `nowMs` for `ttl` nanoseconds expires. -/
def expiresAt (nowMs ttl : Nat) : Nat := min (nowMs + min (max (ttl / 10 ^ 6) 1) u64Max) u64Max

/-- `put`, with the clock reading it makes. -/
def Backing.put (b : Backing g) (tryHoldLane : Nat → Bool) (monotonicMs : Except Error Nat)
    (domain key value : List UInt8) (ttl : Nat) : Backing g × Except Error Bool :=
  if !entryFits g domain key value ∨ ttl = 0 then (b, .ok false)
  else
    match monotonicMs with
    | .error e => (b, .error e)
    | .ok nowMs =>
      let hash := entryHash domain key
      let r := b.withSet tryHoldLane hash true fun set =>
        (set.modify (candidate hash domain key nowMs set 0 (0, u64Max)) fun slot =>
          slot.write hash domain key value nowMs (expiresAt nowMs ttl), ())
      (r.1, r.2.map Option.isSome)

/-- The scan of `read` over one set. -/
def readSet (hash : Nat) (domain key : List UInt8) (nowMs : Nat) (consume : Bool) :
    List (SessionSlot g) → List (SessionSlot g) × Option (List UInt8)
  | [] => ([], none)
  | slot :: rest =>
    if !slot.matches hash domain key then
      let r := readSet hash domain key nowMs consume rest
      (slot :: r.1, r.2)
    else if slot.expiresAtMs ≤ nowMs then (slot.release :: rest, none)
    else
      match slot.storedValue with
      | none => (slot.clear :: rest, none)
      | some value => ((if consume then slot.release else slot) :: rest, some value)

def Backing.read (b : Backing g) (tryHoldLane : Nat → Bool) (monotonicMs : Except Error Nat)
    (domain key : List UInt8) (consume : Bool) : Backing g × Except Error (Option (List UInt8)) :=
  if domain.isEmpty ∨ g.domainMax < domain.length ∨ key.isEmpty ∨ g.keyCapacity < key.length then
    (b, .ok none)
  else
    match monotonicMs with
    | .error e => (b, .error e)
    | .ok nowMs =>
      let hash := entryHash domain key
      let r := b.withSet tryHoldLane hash false (readSet hash domain key nowMs consume)
      (r.1, r.2.map Option.join)

def Backing.get (b : Backing g) (tryHoldLane : Nat → Bool) (monotonicMs : Except Error Nat)
    (domain key : List UInt8) : Backing g × Except Error (Option (List UInt8)) :=
  b.read tryHoldLane monotonicMs domain key false

def Backing.take (b : Backing g) (tryHoldLane : Nat → Bool) (monotonicMs : Except Error Nat)
    (domain key : List UInt8) : Backing g × Except Error (Option (List UInt8)) :=
  b.read tryHoldLane monotonicMs domain key true

inductive Op where
  | put (domain key value : List UInt8) (ttl : Nat)
  | get (domain key : List UInt8)
  | take (domain key : List UInt8)
deriving DecidableEq, Repr

/-- One call: the operation, the clock reading it makes and which registrations' locks it could
take. -/
structure Call where
  op : Op
  monotonicMs : Except Error Nat
  tryHoldLane : Nat → Bool

inductive Answer where
  | stored (result : Except Error Bool)
  | found (result : Except Error (Option (List UInt8)))

/-- A table and the calls made on it, the last one first. -/
structure World (g : Sizes) where
  table : Backing g
  history : List (Call × Answer)

def Backing.call (b : Backing g) (call : Call) : Backing g × Answer :=
  match call.op with
  | .put domain key value ttl =>
    let r := b.put call.tryHoldLane call.monotonicMs domain key value ttl
    (r.1, .stored r.2)
  | .get domain key =>
    let r := b.get call.tryHoldLane call.monotonicMs domain key
    (r.1, .found r.2)
  | .take domain key =>
    let r := b.take call.tryHoldLane call.monotonicMs domain key
    (r.1, .found r.2)

def exec (w : World g) (call : Call) : World g :=
  let r := w.table.call call
  ⟨r.1, (call, r.2) :: w.history⟩

def run (b : Backing g) (calls : List Call) : World g := calls.foldl exec ⟨b, []⟩

end OrbitSession
