import Orbit.Exchange.Extents

/-! What the calls on an arena hold while they are under way, and the invariant that ties it, the
history and the words of the arena together. -/

namespace OrbitExchange

open Orbit.Atomic Function
open Multiset hiding Mem

variable {g : Geometry}

def ChunkDescriptor.first (descriptor : ChunkDescriptor) (g : Geometry) : Nat :=
  descriptor.ownerNode * g.slotsPerNode + descriptor.firstSlot

/-- A reservation is a run inside its process's lane, with bytes for its payload. -/
structure Publication.Placed (publication : Publication g) : Prop where
  lane : publication.first / g.slotsPerNode = publication.arena.node
  inside : publication.first % g.slotsPerNode + publication.count ≤ g.slotsPerNode
  pos : 0 < publication.count
  fits : publication.payloadLen ≤ publication.count * g.slotSize

/-- A chunk is the run that its descriptor names. -/
structure PayloadChunk.Read (chunk : PayloadChunk g) : Prop where
  first : chunk.first = chunk.descriptor.first g
  count : chunk.count = chunk.descriptor.slotCount
  generation : chunk.generation = chunk.descriptor.allocationGeneration
  pos : 0 < chunk.count
  fits : chunk.len ≤ chunk.count * g.slotSize

def Publication.roles (head : Nat → Role) (publication : Publication g) : Multiset (Nat × Role) :=
  runRoles (head publication.generation) publication.first publication.count publication.generation

def ChunkDescriptor.roles (g : Geometry) (descriptor : ChunkDescriptor) : Multiset (Nat × Role) :=
  runRoles (.live descriptor.allocationGeneration) (descriptor.first g) descriptor.slotCount
    descriptor.allocationGeneration

def PayloadChunk.roles (chunk : PayloadChunk g) : Multiset (Nat × Role) :=
  runRoles (.reading chunk.generation) chunk.first chunk.count chunk.generation

def Publication.key (publication : Publication g) : Nat × Nat :=
  (publication.generation, publication.first)

theorem Publication.Placed.coordinates {publication : Publication g} (h : publication.Placed)
    {descriptor : ChunkDescriptor} (hd : descriptor.toCoordinates = publication.coordinates) :
    descriptor.first g = publication.first ∧ descriptor.slotCount = publication.count ∧
      descriptor.allocationGeneration = publication.generation := by
  have hlane := g.lane_lt
  have hinside := h.inside
  have hlt : publication.first % g.slotsPerNode < g.slotsPerNode := Nat.mod_lt _ g.lane_pos
  have hnode : descriptor.ownerNode = publication.arena.node := congrArg Coordinates.ownerNode hd
  have hfirst : descriptor.firstSlot = publication.first % g.slotsPerNode % 2 ^ 32 :=
    congrArg Coordinates.firstSlot hd
  have hcount : descriptor.slotCount = publication.count % 2 ^ 32 :=
    congrArg Coordinates.slotCount hd
  refine ⟨?_, ?_, congrArg Coordinates.allocationGeneration hd⟩
  · rw [ChunkDescriptor.first, hnode, hfirst, ← h.lane, Nat.mod_eq_of_lt (by omega)]
    exact Nat.div_add_mod' _ _
  · rw [hcount, Nat.mod_eq_of_lt (by omega)]

/-- How far a search has come: the free slots it has found in a row, and slots it found not free. -/
structure Search where
  first : Nat
  len : Nat
  busy : List Nat

/-- What the calls hold: slots, open generations, the reservations they work on, descriptors that
they know to be committed, and the locks of lanes, each with its search. -/
abbrev ArenaShare (g : Geometry) := Multiset (Nat × Role) × Multiset (Nat × Nat) ×
  Multiset (Publication g) × Multiset ChunkDescriptor × (Nat → Multiset Search)

namespace ArenaShare

abbrev slots (m : ArenaShare g) := m.1
abbrev opens (m : ArenaShare g) := m.2.1
abbrev used (m : ArenaShare g) := m.2.2.1
abbrev reads (m : ArenaShare g) := m.2.2.2.1
abbrev searches (m : ArenaShare g) := m.2.2.2.2

end ArenaShare

def own (slots : Multiset (Nat × Role)) : ArenaShare g := (slots, 0, 0, 0, 0)
def opened (generation first : Nat) : ArenaShare g := (0, {(generation, first)}, 0, 0, 0)
def usedBy (publication : Publication g) : ArenaShare g := (0, 0, {publication}, 0, 0)
def knows (descriptor : ChunkDescriptor) : ArenaShare g := (0, 0, 0, {descriptor}, 0)
def searching (node : Nat) (search : Search) : ArenaShare g :=
  (0, 0, 0, 0, Pi.single node {search})

def History.reservations (h : History g) : List (Publication g) := h.pending ++ h.used ++ h.live

def History.Committed (h : History g) (descriptor : ChunkDescriptor) : Prop :=
  descriptor ∈ h.committed.map Prod.fst

def books (m : ArenaShare g) (h : History g) : Books where
  owned := m.slots + ((h.pending.map (Publication.roles .part)).sum +
    ((h.used.map (Publication.roles .part)).sum + ((h.live.map (Publication.roles .live)).sum +
      (h.held.map PayloadChunk.roles).sum)))
  unread := (h.unread.map (ChunkDescriptor.roles g)).sum
  opens := m.opens + ((h.pending.map Publication.key : List _) +
    ((h.used.map Publication.key : List _) + (h.live.map Publication.key : List _)))
  committed := h.committed.map fun c => (c.1.allocationGeneration, c.2)

/-- The shadows in the history of the words of the arena. -/
structure Shadow (h : History g) (mem : Mem Addr) : Prop where
  states : ∀ i, h.states i = mem (.state i)
  clear : ∀ node i, h.clear node i = true → mem (.state i) = slotFree
  bytes : ∀ k, h.bytes k = mem (.byte k)

/-- A run of `count` free slots in the lane of a node. -/
def ClearRun (g : Geometry) (node count : Nat) (clear : Nat → Bool) : Prop :=
  ∃ candidate, candidate + count ≤ g.slotsPerNode ∧
    ∀ k < count, clear (node * g.slotsPerNode + candidate + k) = true

/-- What holds of the history by itself. -/
structure Ledger (h : History g) : Prop where
  placed : ∀ publication ∈ h.reservations, publication.Placed
  unread : ∀ descriptor ∈ h.unread, h.Committed descriptor
  taken : ∀ descriptor ∈ h.taken, h.Committed descriptor
  once : ((h.unread ++ h.taken).map (·.allocationGeneration)).Nodup
  chunks : ∀ chunk ∈ h.held, chunk.Read ∧ h.Committed chunk.descriptor
  full : ∀ search ∈ h.full, ¬ClearRun g search.1 search.2.1 search.2.2

/-- What a search has seen still holds. -/
structure Search.Ok (g : Geometry) (node : Nat) (search : Search) (h : History g)
    (mem : Mem Addr) : Prop where
  free : ∀ i, search.first ≤ i → i < search.first + search.len →
    mem (.state i) = slotFree ∧ i / g.slotsPerNode = node
  busy : ∀ i ∈ search.busy, h.clear node i = false

structure ArenaInv (g : Geometry) (life : Nat → Nat) (m : ArenaShare g) (h : History g)
    (mem : Mem Addr) : Prop where
  agree : (books m h).Ok g.slotSize mem
  used : m.used = (h.used : Multiset (Publication g))
  reads : ∀ descriptor ∈ m.reads, h.Committed descriptor
  lock : ∀ node, (m.searches node).card = mem (.allocation node (life node)) ∧
    mem (.allocation node (life node)) ≤ 1
  search : ∀ node, ∀ s ∈ m.searches node, s.Ok g node h mem
  shadow : Shadow h mem
  ledger : Ledger h

theorem ArenaInv.init (life : Nat → Nat) : ArenaInv g life 0 (.init g) arenaWords where
  agree :=
    { role := by simp [Books.slots, books, History.init]
      apart := by simp [Books.slots, books, History.init]
      live := fun i hi => by cases hi
      head := by simp [books, History.init]
      fresh := by simp [Books.generations, books, History.init, ArenaShare.opens]
      below := by simp [Books.generations, books, History.init, ArenaShare.opens]
      next := Nat.zero_lt_one
      bytes := by simp [books, History.init] }
  used := rfl
  reads descriptor h := absurd h (notMem_zero descriptor)
  lock node := ⟨rfl, Nat.zero_le 1⟩
  search node s h := absurd h (notMem_zero s)
  shadow := ⟨fun _ => rfl, nofun, fun _ => rfl⟩
  ledger :=
    { placed := by simp [History.reservations, History.init]
      unread := by simp [History.init]
      taken := by simp [History.init]
      once := by simp [History.init]
      chunks := by simp [History.init]
      full := by simp [History.init] }

section

variable (m : ArenaShare g) (h : History g)

theorem books_own (slots : Multiset (Nat × Role)) :
    books (own slots + m) h = { books m h with owned := slots + (books m h).owned } := by
  simp [books, own, ArenaShare.slots, ArenaShare.opens, add_assoc]

theorem books_opened (generation first : Nat) :
    books (opened generation first + m) h =
      { books m h with opens := (generation, first) ::ₘ (books m h).opens } := by
  simp [books, opened, ArenaShare.slots, ArenaShare.opens]

theorem books_usedBy (publication : Publication g) : books (usedBy publication + m) h = books m h := by
  simp [books, usedBy, ArenaShare.slots, ArenaShare.opens]

theorem books_knows (descriptor : ChunkDescriptor) : books (knows descriptor + m) h = books m h := by
  simp [books, knows, ArenaShare.slots, ArenaShare.opens]

theorem books_searching (node : Nat) (search : Search) :
    books (searching node search + m) h = books m h := by
  simp [books, searching, ArenaShare.slots, ArenaShare.opens]

end

section

variable {life : Nat → Nat} {m m' : ArenaShare g} {h h' : History g} {mem mem' : Mem Addr}
  {node i value n first count : Nat} {role : Role} {search : Search}

theorem Shadow.state (hS : Shadow h mem) (i value : Nat) :
    Shadow (arenaRecord (.state i value) h) (update mem (.state i) value) := by
  constructor
  · intro j
    show update h.states i value j = _
    by_cases heq : j = i
    · rw [heq, update_self, update_self]
    · rw [update_of_ne heq, update_of_ne (by simpa using heq)]
      exact hS.states j
  · intro node j hclear
    simp only [arenaRecord, Bool.and_eq_true, Bool.not_eq_true', Bool.and_eq_false_iff,
      beq_eq_false_iff_ne, bne_eq_false_iff_eq] at hclear
    by_cases heq : j = i
    · subst heq
      rw [update_self]
      exact hclear.2.resolve_left fun hne => hne rfl
    · rw [update_of_ne (by simpa using heq)]
      exact hS.clear node j hclear.1
  · exact hS.bytes

theorem Search.Ok.state (hs : search.Ok g node h mem) {i : Nat} (value : Nat)
    (hout : ∀ j, search.first ≤ j → j < search.first + search.len → j ≠ i) :
    search.Ok g node (arenaRecord (.state i value) h) (update mem (.state i) value) := by
  constructor
  · intro j hle hlt
    rw [update_of_ne (by simpa using hout j hle hlt)]
    exact hs.free j hle hlt
  · intro j hj
    show (h.clear node j && _) = false
    rw [hs.busy j hj, Bool.false_and]

theorem Search.Ok.not_seen (hs : search.Ok g node h mem) {i : Nat} (hi : mem (.state i) ≠ slotFree) :
    ∀ j, search.first ≤ j → j < search.first + search.len → j ≠ i := by
  rintro j hle hlt rfl
  exact hi (hs.free j hle hlt).1

theorem Ledger.state (hL : Ledger h) (i value : Nat) : Ledger (arenaRecord (.state i value) h) :=
  ⟨hL.placed, hL.unread, hL.taken, hL.once, hL.chunks, hL.full⟩

theorem ArenaInv.at_state (hI : ArenaInv g life m h mem) (hi : mem (.state i) ≠ slotFree)
    (hbooks : (books m' h).Ok g.slotSize (update mem (.state i) value))
    (hused : m'.used = m.used) (hreads : m'.reads = m.reads) (hsearches : m'.searches = m.searches) :
    ArenaInv g life m' (arenaRecord (.state i value) h) (update mem (.state i) value) where
  agree := hbooks
  used := hused.trans hI.used
  reads := by
    rw [hreads]
    exact hI.reads
  lock := by
    rw [hsearches]
    exact hI.lock
  search := by
    rw [hsearches]
    exact fun node s hs => (hI.search node s hs).state _ ((hI.search node s hs).not_seen hi)
  shadow := hI.shadow.state i value
  ledger := hI.ledger.state i value

theorem ArenaInv.owned_role (hI : ArenaInv g life (own {(i, role)} + m) h mem) :
    role.Ok (mem (.state i)) (mem (.generation i)) := by
  have hbooks := hI.agree
  rw [books_own] at hbooks
  exact hbooks.role i role (mem_add.mpr (.inl (by simp)))

theorem ArenaInv.owned_not_free (hI : ArenaInv g life (own {(i, role)} + m) h mem) :
    mem (.state i) ≠ slotFree := by
  rw [hI.owned_role.state]
  exact role.state_ne_free

theorem ArenaInv.frees (hI : ArenaInv g life (own {(i, role)} + m) h mem) :
    ArenaInv g life m (arenaRecord (.state i slotFree) h)
      (update mem (.state i) slotFree) := by
  have hbooks := hI.agree
  rw [books_own] at hbooks
  exact hI.at_state hI.owned_not_free (hbooks.frees (singleton_add _ _))
    (by simp [own, ArenaShare.used]) (by simp [own, ArenaShare.reads])
    (by simp [own, ArenaShare.searches])

theorem ArenaInv.plays (role' : Role) (hI : ArenaInv g life (own {(i, role)} + m) h mem)
    (hgeneration : role'.generation? = role.generation?)
    (hhead : ∀ n, role' = .live n → (n, i) ∈ (books m h).opens) :
    ArenaInv g life (own {(i, role')} + m) (arenaRecord (.state i role'.state) h)
      (update mem (.state i) role'.state) := by
  have hbooks := hI.agree
  have hrole := hI.owned_role
  rw [books_own] at hbooks
  refine hI.at_state hI.owned_not_free ?_ ?_ ?_ ?_
  · rw [books_own]
    refine hbooks.plays_owned role' (singleton_add _ _) ?_ ?_ hhead ?_
    · exact fun a _ hstate _ => update_of_ne hstate _ _
    · refine ⟨update_self _ _ _, fun n hn => ?_⟩
      exact hrole.generation n (hgeneration ▸ hn)
    · exact fun n hn => .inl (hgeneration ▸ hn)
  · simp [own, ArenaShare.used]
  · simp [own, ArenaShare.reads]
  · simp [own, ArenaShare.searches]

def Addr.Unwatched : Addr → Prop
  | .allocationFirst _ | .producerIncarnation _ | .readerNode _ | .readerIncarnation _ | .hint .. =>
    True
  | _ => False

theorem ArenaInv.unwatched {place : Addr} (hplace : place.Unwatched)
    (hI : ArenaInv g life m h mem) : ArenaInv g life m h (update mem place value) := by
  have hne : ∀ a : Addr, ¬a.Unwatched → update mem place value a = mem a := by
    intro a ha
    refine update_of_ne ?_ _ _
    rintro rfl
    exact ha hplace
  have hstate : ∀ i, update mem place value (.state i) = mem (.state i) :=
    fun i => hne _ id
  refine ⟨hI.agree.same fun a ha => hne a ?_, hI.used, hI.reads, fun node => ?_, fun node s hs => ?_,
    ⟨fun i => ?_, fun node i hi => ?_, fun k => ?_⟩, hI.ledger⟩
  · cases a <;> first | exact ha.elim | exact id
  · rw [hne _ id]
    exact hI.lock node
  · refine ⟨fun i hle hlt => ?_, (hI.search node s hs).busy⟩
    rw [hstate]
    exact (hI.search node s hs).free i hle hlt
  · rw [hstate]
    exact hI.shadow.states i
  · rw [hstate]
    exact hI.shadow.clear node i hi
  · rw [hne _ id]
    exact hI.shadow.bytes k

theorem ArenaInv.mints (hI : ArenaInv g life m h mem) (hwrap : mem .nextGeneration + 1 < 2 ^ 64)
    (first : Nat) :
    ArenaInv g life (opened (mem .nextGeneration) first + m) h
      (update mem .nextGeneration ((mem .nextGeneration + 1) % 2 ^ 64)) where
  agree := by
    rw [books_opened]
    exact hI.agree.mints hwrap
  used := by simpa [opened, ArenaShare.used] using hI.used
  reads := by simpa [opened, ArenaShare.reads] using hI.reads
  lock node := by simpa [opened, ArenaShare.searches] using hI.lock node
  search node s hs := by
    obtain ⟨hfree, hbusy⟩ := hI.search node s (by simpa [opened, ArenaShare.searches] using hs)
    exact ⟨hfree, hbusy⟩
  shadow := ⟨hI.shadow.states, hI.shadow.clear, hI.shadow.bytes⟩
  ledger := hI.ledger

theorem ArenaInv.stamps (hI : ArenaInv g life (own {(i, .fresh)} + m) h mem) (n first : Nat)
    (hopen : (n, first) ∈ (books m h).opens) :
    ArenaInv g life (own {(i, .part n)} + m) h (update mem (.generation i) n) where
  agree := by
    have hbooks := hI.agree
    rw [books_own] at hbooks ⊢
    refine hbooks.plays_owned (.part n) (singleton_add _ _) ?_ ?_ nofun ?_
    · exact fun a _ _ hgeneration => update_of_ne hgeneration _ _
    · refine ⟨hI.owned_role.state, fun n' hn => ?_⟩
      cases hn
      exact update_self _ _ _
    · rintro n' ⟨⟩
      exact .inr ⟨first, hopen⟩
  used := by simpa [own, ArenaShare.used] using hI.used
  reads := by simpa [own, ArenaShare.reads] using hI.reads
  lock node := by simpa [own, ArenaShare.searches] using hI.lock node
  search node s hs := by
    obtain ⟨hfree, hbusy⟩ := hI.search node s (by simpa [own, ArenaShare.searches] using hs)
    exact ⟨hfree, hbusy⟩
  shadow := ⟨hI.shadow.states, hI.shadow.clear, hI.shadow.bytes⟩
  ledger := hI.ledger

theorem ArenaInv.research (hI : ArenaInv g life m h mem)
    (hwords : ∀ a, (∀ node, a ≠ .allocation node (life node)) → mem' a = mem a)
    (hbooks : books m' h' = books m h) (hused : m'.used = m.used) (hreads : m'.reads = m.reads)
    (hlock : ∀ node, (m'.searches node).card = mem' (.allocation node (life node)) ∧
      mem' (.allocation node (life node)) ≤ 1)
    (hsearch : ∀ node, ∀ s ∈ m'.searches node, s.Ok g node h' mem')
    (hhist : h'.used = h.used ∧ h'.committed = h.committed) (hshadow : Shadow h' mem')
    (hledger : Ledger h') : ArenaInv g life m' h' mem' where
  agree := by
    rw [hbooks]
    refine hI.agree.same fun a ha => hwords a fun node heq => ?_
    rw [heq] at ha
    exact ha
  used := by rw [hused, hhist.1, hI.used]
  reads descriptor hd := by
    show descriptor ∈ h'.committed.map Prod.fst
    rw [hhist.2]
    exact hI.reads descriptor (hreads ▸ hd)
  lock := hlock
  search := hsearch
  shadow := hshadow
  ledger := hledger

theorem ArenaInv.search_alone (hI : ArenaInv g life (searching node search + m) h mem) :
    m.searches node = 0 := by
  have h := hI.lock node
  simp only [searching, ArenaShare.searches, Prod.snd_add, Pi.add_apply, Pi.single_eq_same,
    card_add, card_singleton] at h
  have hzero : (m.2.2.2.2 node).card = 0 := by omega
  exact card_eq_zero.mp hzero

theorem ArenaInv.searching_ok (hI : ArenaInv g life (searching node search + m) h mem) :
    search.Ok g node h mem :=
  hI.search node search (by simp [searching, ArenaShare.searches])

theorem ArenaInv.searches {search' : Search} (hI : ArenaInv g life (searching node search + m) h mem)
    (hsearch : search'.Ok g node h' mem')
    (hothers : ∀ node' s, node' ≠ node → Search.Ok g node' s h mem → s.Ok g node' h' mem') :
    ∀ node', ∀ s ∈ (searching node search' + m).searches node', s.Ok g node' h' mem' := by
  intro node' s hs
  by_cases heq : node' = node
  · subst heq
    simp only [searching, ArenaShare.searches, Prod.snd_add, Pi.add_apply, Pi.single_eq_same,
      mem_add, mem_singleton] at hs
    rcases hs with rfl | hs
    · exact hsearch
    · have halone := hI.search_alone
      rw [show m.2.2.2.2 node' = 0 from halone] at hs
      exact absurd hs (notMem_zero s)
  · refine hothers node' s heq (hI.search node' s ?_)
    simpa [searching, ArenaShare.searches, heq] using hs

theorem searching_cards (node node' : Nat) (search search' : Search) (m : ArenaShare g) :
    ((searching node search + m).searches node').card =
      ((searching node search' + m).searches node').card := by
  by_cases heq : node' = node
  · subst heq
    simp [searching, ArenaShare.searches]
  · simp [searching, ArenaShare.searches, heq]

theorem ArenaInv.locks (hI : ArenaInv g life m h mem)
    (hfree : mem (.allocation node (life node)) = 0) (first : Nat) :
    ArenaInv g life (searching node ⟨first, 0, []⟩ + m) (arenaRecord (.search node) h)
      (update mem (.allocation node (life node)) 1) := by
  have hne : ∀ a : Addr, (∀ node, a ≠ .allocation node (life node)) →
      update mem (.allocation node (life node)) 1 a = mem a :=
    fun a ha => update_of_ne (ha node) _ _
  refine hI.research hne (books_searching m h node _) ?_ ?_ (fun node' => ?_) (fun node' s hs => ?_)
    ⟨rfl, rfl⟩ ⟨hI.shadow.states, fun node' i hi => ?_, hI.shadow.bytes⟩
    ⟨hI.ledger.placed, hI.ledger.unread, hI.ledger.taken, hI.ledger.once, hI.ledger.chunks,
      hI.ledger.full⟩
  · simp [searching, ArenaShare.used]
  · simp [searching, ArenaShare.reads]
  · by_cases heq : node' = node
    · subst heq
      have := (hI.lock node').1
      simp [searching, ArenaShare.searches, this, hfree]
    · have hlock := hI.lock node'
      simpa [searching, ArenaShare.searches, heq] using hlock
  · by_cases heq : node' = node
    · subst heq
      have hzero : m.searches node' = 0 := by
        have := (hI.lock node').1
        exact card_eq_zero.mp (by omega)
      have hzero' : m.2.2.2.2 node' = 0 := hzero
      simp only [searching, ArenaShare.searches, Prod.snd_add, Pi.add_apply, Pi.single_eq_same, hzero',
        add_zero, mem_singleton] at hs
      subst hs
      exact ⟨fun i hle hlt => absurd hlt (Nat.not_lt.mpr hle), nofun⟩
    · obtain ⟨hf, hbusy⟩ := hI.search node' s (by simpa [searching, ArenaShare.searches, heq] using hs)
      refine ⟨hf, fun i hi => ?_⟩
      show update h.clear node _ node' i = false
      rw [update_of_ne heq]
      exact hbusy i hi
  · show mem (.state i) = slotFree
    have hclear : update h.clear node (fun i => h.states i == slotFree) node' i = true := hi
    by_cases heq : node' = node
    · rw [heq, update_self, beq_iff_eq, hI.shadow.states] at hclear
      exact hclear
    · rw [update_of_ne heq] at hclear
      exact hI.shadow.clear node' i hclear

theorem ArenaInv.finds {search' : Search} (hI : ArenaInv g life (searching node search + m) h mem)
    (hsearch : search'.Ok g node h mem) : ArenaInv g life (searching node search' + m) h mem := by
  refine hI.research (fun _ _ => rfl) ?_ ?_ ?_ (fun node' => ?_)
    (hI.searches hsearch fun _ _ _ hs => hs) ⟨rfl, rfl⟩ hI.shadow hI.ledger
  · rw [books_searching, books_searching]
  · simp [searching, ArenaShare.used]
  · simp [searching, ArenaShare.reads]
  · rw [searching_cards node node' search' search]
    exact hI.lock node'

theorem ArenaInv.unlocks (hI : ArenaInv g life (searching node search + m) h mem) :
    ArenaInv g life m h (update mem (.allocation node (life node)) 0) := by
  have hne : ∀ a : Addr, (∀ node, a ≠ .allocation node (life node)) →
      update mem (.allocation node (life node)) 0 a = mem a :=
    fun a ha => update_of_ne (ha node) _ _
  have halone := hI.search_alone
  refine hI.research hne ?_ ?_ ?_ (fun node' => ?_) (fun node' s hs => ?_) ⟨rfl, rfl⟩
    ⟨hI.shadow.states, hI.shadow.clear, hI.shadow.bytes⟩ hI.ledger
  · rw [books_searching]
  · simp [searching, ArenaShare.used]
  · simp [searching, ArenaShare.reads]
  · by_cases heq : node' = node
    · subst heq
      simp [halone]
    · have hlock := hI.lock node'
      simpa [searching, ArenaShare.searches, heq] using hlock
  · obtain ⟨hf, hbusy⟩ := hI.search node' s (mem_add.mpr (.inr hs))
    exact ⟨hf, hbusy⟩

theorem ArenaInv.fails (hI : ArenaInv g life (searching node search + m) h mem) (count : Nat)
    (hbusy : ∀ candidate, candidate + count ≤ g.slotsPerNode →
      ∃ k < count, node * g.slotsPerNode + candidate + k ∈ search.busy) :
    ArenaInv g life (searching node search + m) (arenaRecord (.full node count) h) mem := by
  have hok := hI.searching_ok
  refine hI.research (fun _ _ => rfl) rfl rfl rfl hI.lock (fun node' s hs => ?_) ⟨rfl, rfl⟩
    ⟨hI.shadow.states, hI.shadow.clear, hI.shadow.bytes⟩
    ⟨hI.ledger.placed, hI.ledger.unread, hI.ledger.taken, hI.ledger.once, hI.ledger.chunks, ?_⟩
  · obtain ⟨hf, hb⟩ := hI.search node' s hs
    exact ⟨hf, hb⟩
  · intro failed hmem
    rcases List.mem_cons.mp hmem with rfl | hmem
    · rintro ⟨candidate, hle, hclear⟩
      obtain ⟨k, hk, hin⟩ := hbusy candidate hle
      have hfalse := hok.busy _ hin
      have htrue : h.clear node (node * g.slotsPerNode + candidate + k) = true := hclear k hk
      rw [htrue] at hfalse
      cases hfalse
    · exact hI.ledger.full failed hmem

theorem ArenaInv.takes {len : Nat} {busy : List Nat}
    (hI : ArenaInv g life (searching node ⟨i, len + 1, busy⟩ + m) h mem) :
    ArenaInv g life (own {(i, .fresh)} + (searching node ⟨i + 1, len, busy⟩ + m))
      (arenaRecord (.state i slotReserved) h) (update mem (.state i) slotReserved) := by
  have hok := hI.searching_ok
  have hbooks := hI.agree
  obtain ⟨hfree, hlane⟩ := hok.free i (Nat.le_refl i) (by simp only; omega)
  rw [books_searching] at hbooks
  have hsearches : (own {(i, Role.fresh)} + (searching node ⟨i + 1, len, busy⟩ + m)).searches =
      (searching node ⟨i + 1, len, busy⟩ + m).searches := by simp [own, ArenaShare.searches]
  refine ⟨?_, ?_, ?_, fun node' => ?_, ?_, hI.shadow.state _ _, hI.ledger.state _ _⟩
  · rw [books_own, books_searching]
    have := hbooks.reserves hfree
    rw [← singleton_add] at this
    exact this
  · show _ = (h.used : Multiset (Publication g))
    simpa [own, searching, ArenaShare.used] using hI.used
  · show ∀ descriptor ∈ _, h.Committed descriptor
    simpa [own, searching, ArenaShare.reads] using hI.reads
  · rw [hsearches, searching_cards node node' ⟨i + 1, len, busy⟩ ⟨i, len + 1, busy⟩]
    exact hI.lock node'
  · rw [hsearches]
    refine hI.searches ?_ fun node' s hne hs => ?_
    · have hok' : Search.Ok g node ⟨i + 1, len, busy⟩ h mem :=
        ⟨fun j hle hlt => hok.free j (by simp only at hle ⊢; omega) (by simp only at hlt ⊢; omega),
          hok.busy⟩
      exact hok'.state _ fun j hle _ => by simp only at hle; omega
    · -- the search of another lane has not come here
      refine hs.state _ fun j hle hlt heq => hne ?_
      rw [← (hs.free j hle hlt).2, heq, hlane]

theorem ArenaInv.rebook (hI : ArenaInv g life m h mem) (hbooks : (books m' h').Ok g.slotSize mem)
    (hused : m'.used = (h'.used : Multiset (Publication g)))
    (hreads : ∀ descriptor ∈ m'.reads, h'.Committed descriptor)
    (hsearches : m'.searches = m.searches)
    (hsame : h'.states = h.states ∧ h'.clear = h.clear ∧ h'.bytes = h.bytes) (hledger : Ledger h') :
    ArenaInv g life m' h' mem where
  agree := hbooks
  used := hused
  reads := hreads
  lock := by
    rw [hsearches]
    exact hI.lock
  search node s hs := by
    rw [hsearches] at hs
    refine ⟨(hI.search node s hs).free, ?_⟩
    rw [hsame.2.1]
    exact (hI.search node s hs).busy
  shadow := by
    refine ⟨?_, ?_, ?_⟩
    · rw [hsame.1]
      exact hI.shadow.states
    · rw [hsame.2.1]
      exact hI.shadow.clear
    · rw [hsame.2.2]
      exact hI.shadow.bytes
  ledger := hledger

theorem coe_map_erase {α β : Type} [DecidableEq α] {l : List α} {a : α} (f : α → β) (ha : a ∈ l) :
    f a ::ₘ ((l.erase a).map f : List β) = (l.map f : Multiset β) := by
  rw [cons_coe, coe_eq_coe, ← List.map_cons]
  exact ((List.perm_cons_erase ha).map f).symm

def Books.add (b : Books) (roles : Multiset (Nat × Role)) (key : Nat × Nat) : Books :=
  { b with
    owned := roles + b.owned
    opens := key ::ₘ b.opens }

section

variable (m : ArenaShare g) (h : History g) (publication : Publication g)

theorem books_of_share (head : Nat → Role) :
    books (own (publication.roles head) +
      (opened publication.generation publication.first + m)) h =
      (books m h).add (publication.roles head) publication.key := by
  rw [books_own, books_opened]
  rfl

theorem books_pending_cons : books m { h with pending := publication :: h.pending } =
    (books m h).add (publication.roles .part) publication.key := by
  simp only [books, Books.add, Books.mk.injEq, List.map_cons, List.sum_cons, and_true,
    ← cons_coe, cons_add, add_cons]
  abel

theorem books_used_cons : books m { h with used := publication :: h.used } =
    (books m h).add (publication.roles .part) publication.key := by
  simp only [books, Books.add, Books.mk.injEq, List.map_cons, List.sum_cons, and_true,
    ← cons_coe, cons_add, add_cons]
  abel

theorem books_live_cons : books m { h with live := publication :: h.live } =
    (books m h).add (publication.roles .live) publication.key := by
  simp only [books, Books.add, Books.mk.injEq, List.map_cons, List.sum_cons, and_true,
    ← cons_coe, add_cons]
  abel

variable {h publication}

theorem books_pending_erase (hmem : publication ∈ h.pending) :
    (books m { h with pending := h.pending.erase publication }).add (publication.roles .part)
      publication.key = books m h := by
  simp only [books, Books.add, Books.mk.injEq, and_true, add_cons,
    ← List.sum_map_erase (Publication.roles .part) hmem, ← coe_map_erase Publication.key hmem,
    cons_add]
  abel

theorem books_used_erase (hmem : publication ∈ h.used) :
    (books m { h with used := h.used.erase publication }).add (publication.roles .part)
      publication.key = books m h := by
  simp only [books, Books.add, Books.mk.injEq, and_true, add_cons,
    ← List.sum_map_erase (Publication.roles .part) hmem, ← coe_map_erase Publication.key hmem,
    cons_add]
  abel

theorem books_live_erase (hmem : publication ∈ h.live) :
    (books m { h with live := h.live.erase publication }).add (publication.roles .live)
      publication.key = books m h := by
  simp only [books, Books.add, Books.mk.injEq, and_true, add_cons,
    ← List.sum_map_erase (Publication.roles .live) hmem, ← coe_map_erase Publication.key hmem]
  abel

end

theorem mem_reservations {publication : Publication g} : publication ∈ h.reservations ↔
    publication ∈ h.pending ∨ publication ∈ h.used ∨ publication ∈ h.live := by
  simp only [History.reservations, List.mem_append, or_assoc]

variable {publication : Publication g} {descriptor : ChunkDescriptor} {chunk : PayloadChunk g}

theorem Ledger.relist (hL : Ledger h)
    (hplaced : ∀ publication ∈ h'.reservations, publication ∈ h.reservations ∨ publication.Placed)
    (hunread : h'.unread = h.unread) (htaken : h'.taken = h.taken)
    (hcommitted : h'.committed = h.committed) (hfull : h'.full = h.full)
    (hheld : h'.held = h.held) : Ledger h' := by
  have hsame : ∀ d, h'.Committed d ↔ h.Committed d := by
    intro d
    rw [History.Committed, History.Committed, hcommitted]
  refine ⟨fun publication hp => (hplaced publication hp).elim (hL.placed publication) id,
    ?_, ?_, ?_, ?_, ?_⟩
  · simpa only [hunread, hsame] using hL.unread
  · simpa only [htaken, hsame] using hL.taken
  · simpa only [hunread, htaken] using hL.once
  · simpa only [hheld, hsame] using hL.chunks
  · simpa only [hfull] using hL.full

theorem ArenaInv.lends (hI : ArenaInv g life m h mem) (hmem : publication ∈ h.pending) :
    ArenaInv g life (usedBy publication + m)
      { h with
        pending := h.pending.erase publication
        used := publication :: h.used } mem := by
  have hbooks := books_used_cons m { h with pending := h.pending.erase publication } publication
  rw [books_pending_erase m hmem] at hbooks
  refine hI.rebook ?_ ?_ ?_ ?_ ⟨rfl, rfl, rfl⟩ (hI.ledger.relist (fun p hp => ?_)
    rfl rfl rfl rfl rfl)
  · rw [books_usedBy, hbooks]
    exact hI.agree
  · simp [usedBy, ArenaShare.used, hI.used]
  · intro d hd
    exact hI.reads d (by simpa [usedBy, ArenaShare.reads] using hd)
  · simp [usedBy, ArenaShare.searches]
  · left
    rw [mem_reservations] at hp ⊢
    rcases hp with hp | hp | hp
    · exact .inl (List.mem_of_mem_erase hp)
    · rcases List.mem_cons.mp hp with rfl | hp
      · exact .inl hmem
      · exact .inr (.inl hp)
    · exact .inr (.inr hp)

theorem ArenaInv.lent (hI : ArenaInv g life (usedBy publication + m) h mem) :
    publication ∈ h.used ∧ m.used = (h.used.erase publication : List _) := by
  have hused := hI.used
  simp only [usedBy, ArenaShare.used, Prod.snd_add, Prod.fst_add, singleton_add] at hused
  have hmem : publication ∈ h.used := by
    rw [← mem_coe, ← hused]
    exact mem_cons_self _ _
  refine ⟨hmem, ?_⟩
  rw [← coe_erase, ← hused, erase_cons_head]

theorem ArenaInv.written (hI : ArenaInv g life (usedBy publication + m) h mem) :
    ArenaInv g life m (arenaRecord (.written publication) h) mem := by
  obtain ⟨hmem, hused⟩ := hI.lent
  have hbooks := books_pending_cons m { h with used := h.used.erase publication } publication
  rw [books_used_erase m hmem] at hbooks
  have hagree := hI.agree
  rw [books_usedBy, ← hbooks] at hagree
  refine hI.rebook hagree hused ?_ ?_ ⟨rfl, rfl, rfl⟩ (hI.ledger.relist (fun p hp => ?_)
    rfl rfl rfl rfl rfl)
  · intro d hd
    exact hI.reads d (by simpa [usedBy, ArenaShare.reads] using hd)
  · simp [usedBy, ArenaShare.searches]
  · left
    rw [mem_reservations] at hp ⊢
    rcases hp with hp | hp | hp
    · rcases List.mem_cons.mp hp with rfl | hp
      · exact .inr (.inl hmem)
      · exact .inl hp
    · exact .inr (.inl (List.mem_of_mem_erase hp))
    · exact .inr (.inr hp)

theorem ArenaInv.takes_reservation (hI : ArenaInv g life m h mem) (head : Nat → Role)
    {pending live : List (Publication g)} (hpending : pending ⊆ h.pending) (hlive : live ⊆ h.live)
    (hbooks : (books m { h with pending, live }).add (publication.roles head) publication.key =
      books m h) :
    ArenaInv g life (own (publication.roles head) +
      (opened publication.generation publication.first + m)) { h with pending, live } mem := by
  refine hI.rebook ?_ ?_ ?_ ?_ ⟨rfl, rfl, rfl⟩ (hI.ledger.relist (fun p hp => ?_)
    rfl rfl rfl rfl rfl)
  · rw [books_of_share, hbooks]
    exact hI.agree
  · simpa [own, opened, ArenaShare.used] using hI.used
  · intro d hd
    exact hI.reads d (by simpa [own, opened, ArenaShare.reads] using hd)
  · simp [own, opened, ArenaShare.searches]
  · rw [mem_reservations] at hp ⊢
    exact .inl (hp.imp (hpending ·) (Or.imp_right (hlive ·)))

theorem ArenaInv.takes_pending (hI : ArenaInv g life m h mem) (hmem : publication ∈ h.pending) :
    ArenaInv g life (own (publication.roles .part) +
      (opened publication.generation publication.first + m))
      { h with pending := h.pending.erase publication } mem :=
  hI.takes_reservation .part List.erase_subset (List.Subset.refl _) (books_pending_erase m hmem)

theorem ArenaInv.takes_live (hI : ArenaInv g life m h mem) (hmem : publication ∈ h.live) :
    ArenaInv g life (own (publication.roles .live) +
      (opened publication.generation publication.first + m))
      { h with live := h.live.erase publication } mem :=
  hI.takes_reservation .live (List.Subset.refl _) List.erase_subset (books_live_erase m hmem)

theorem ArenaInv.reserved (hI : ArenaInv g life (own (publication.roles .part) +
      (opened publication.generation publication.first + m)) h mem) (hplaced : publication.Placed) :
    ArenaInv g life m (arenaRecord (.reserved publication) h) mem := by
  have hagree := hI.agree
  rw [books_of_share, ← books_pending_cons] at hagree
  refine hI.rebook hagree ?_ ?_ ?_ ⟨rfl, rfl, rfl⟩ (hI.ledger.relist (fun p hp => ?_)
    rfl rfl rfl rfl rfl)
  · show m.used = (h.used : Multiset (Publication g))
    simpa [own, opened, ArenaShare.used] using hI.used
  · intro d hd
    exact hI.reads d (by simpa [own, opened, ArenaShare.reads] using hd)
  · simp [own, opened, ArenaShare.searches]
  · rw [mem_reservations] at hp ⊢
    rcases hp with hp | hp | hp
    · rcases List.mem_cons.mp hp with rfl | hp
      · exact .inr hplaced
      · exact .inl (.inl hp)
    · exact .inl (.inr (.inl hp))
    · exact .inl (.inr (.inr hp))

theorem ArenaInv.takes_used (hI : ArenaInv g life (usedBy publication + m) h mem) :
    ArenaInv g life (own (publication.roles .part) +
      (opened publication.generation publication.first + m))
      { h with used := h.used.erase publication } mem := by
  obtain ⟨hmem, hused⟩ := hI.lent
  have hagree := hI.agree
  rw [books_usedBy] at hagree
  refine hI.rebook ?_ ?_ ?_ ?_ ⟨rfl, rfl, rfl⟩ (hI.ledger.relist (fun p hp => ?_)
    rfl rfl rfl rfl rfl)
  · rw [books_of_share, books_used_erase m hmem]
    exact hagree
  · simpa [own, opened, ArenaShare.used] using hused
  · intro d hd
    refine hI.reads d ?_
    simpa [own, opened, usedBy, ArenaShare.reads] using hd
  · simp [own, opened, usedBy, ArenaShare.searches]
  · rw [mem_reservations] at hp ⊢
    exact .inl (hp.imp_right (Or.imp_left List.mem_of_mem_erase))

theorem own_cons (x : Nat × Role) (slots : Multiset (Nat × Role)) :
    (own (x ::ₘ slots) : ArenaShare g) = own {x} + own slots := by
  simp [own]

theorem ArenaInv.goes_live (hI : ArenaInv g life (usedBy publication + m) h mem) :
    ArenaInv g life m
      (arenaRecord (.madeLive publication) (arenaRecord (.state publication.first slotLive) h))
      (update mem (.state publication.first) slotLive) := by
  have hmem := hI.lent.1
  have htakes := hI.takes_used
  have hplaced := hI.ledger.placed publication (mem_reservations.mpr (.inr (.inl hmem)))
  rw [Publication.roles, runRoles, own_cons, add_assoc] at htakes
  have hplays := htakes.plays (.live publication.generation) rfl (by
    rintro n ⟨⟩
    rw [books_own, books_opened]
    exact mem_cons_self _ _)
  rw [← add_assoc, ← own_cons] at hplays
  -- the history's list of live reservations takes it over
  have hagree := hplays.agree
  have hroles : publication.roles .live = runRoles (.live publication.generation) publication.first
    publication.count publication.generation := rfl
  rw [runRoles] at hroles
  rw [← hroles, books_of_share, ← books_live_cons] at hagree
  refine hplays.rebook hagree ?_ ?_ ?_ ⟨rfl, rfl, rfl⟩ (hplays.ledger.relist (fun p hp => ?_)
    rfl rfl rfl rfl rfl)
  · exact hI.lent.2
  · intro d hd
    exact hI.reads d (by simpa [usedBy, ArenaShare.reads] using hd)
  · simp [own, opened, ArenaShare.searches]
  · rw [mem_reservations] at hp ⊢
    rcases hp with hp | hp | hp
    · exact .inl (.inl hp)
    · exact .inl (.inr (.inl hp))
    · rcases List.mem_cons.mp hp with rfl | hp
      · exact .inr hplaced
      · exact .inl (.inr (.inr hp))

theorem ArenaInv.writes (hI : ArenaInv g life (usedBy publication + m) h mem) {offset value : Nat}
    (hoffset : offset < publication.payloadLen) :
    ArenaInv g life (usedBy publication + m)
      (arenaRecord (.byte (publication.first * g.slotSize + offset) value) h)
      (update mem (.byte (publication.first * g.slotSize + offset)) value) := by
  have hmem := hI.lent.1
  have hplaced := hI.ledger.placed publication (mem_reservations.mpr (.inr (.inl hmem)))
  have hagree := hI.agree
  have hlt : offset / g.slotSize < publication.count := by
    rw [Nat.div_lt_iff_lt_mul g.size_pos]
    exact Nat.lt_of_lt_of_le hoffset hplaced.fits
  have hslot : (publication.first * g.slotSize + offset) / g.slotSize =
      publication.first + offset / g.slotSize := by
    rw [Nat.mul_comm, Nat.mul_add_div g.size_pos]
  obtain ⟨role, hrun, hgeneration⟩ := mem_runRoles (.part publication.generation)
    publication.first rfl hlt
  have hrole : (publication.first + offset / g.slotSize, role) ∈
      (books (usedBy publication + m) h).owned := by
    rw [books_usedBy, ← books_used_erase m hmem]
    exact mem_add.mpr (.inl hrun)
  have hopen : (publication.generation, publication.first) ∈
      (books (usedBy publication + m) h).opens := by
    rw [books_usedBy, ← books_used_erase m hmem]
    exact mem_cons_self _ _
  have hwritten := hagree.writes hrole (by
    intro n hn
    rw [hgeneration] at hn
    cases hn
    exact ⟨_, hopen⟩) hslot value
  refine ⟨hwritten, hI.used, hI.reads, hI.lock, fun node s hs => ?_, ⟨hI.shadow.states,
    hI.shadow.clear, fun k => ?_⟩, hI.ledger.relist (fun p hp => .inl hp) rfl rfl rfl rfl rfl⟩
  · obtain ⟨hfree, hbusy⟩ := hI.search node s hs
    exact ⟨hfree, hbusy⟩
  · show update h.bytes _ value k = _
    by_cases heq : k = publication.first * g.slotSize + offset
    · rw [heq, update_self, update_self]
    · rw [update_of_ne heq, update_of_ne (by simpa using heq)]
      exact hI.shadow.bytes k

theorem mem_sum_map {α β : Type} {f : α → Multiset β} {l : List α} {b : β} :
    b ∈ (l.map f).sum ↔ ∃ a ∈ l, b ∈ f a := by
  induction l with
  | nil => simp
  | cons a rest ih => simp [ih]

theorem ArenaInv.committed_nodup (hI : ArenaInv g life m h mem) :
    (h.committed.map fun c => c.1.allocationGeneration).Nodup := by
  have hfresh := hI.agree.fresh
  rw [Books.generations, nodup_add] at hfresh
  have := hfresh.2.1
  rwa [books, List.map_map, coe_nodup] at this

theorem ArenaInv.committed_unique (hI : ArenaInv g life m h mem) {d d' : ChunkDescriptor}
    (hd : h.Committed d) (hd' : h.Committed d')
    (heq : d.allocationGeneration = d'.allocationGeneration) : d = d' := by
  obtain ⟨c, hc, rfl⟩ := List.mem_map.mp hd
  obtain ⟨c', hc', rfl⟩ := List.mem_map.mp hd'
  rw [List.inj_on_of_nodup_map hI.committed_nodup hc hc' heq]

theorem ArenaInv.kept_unique (hI : ArenaInv g life m h mem) {kept kept' : Nat → Nat}
    (hin : (descriptor, kept) ∈ h.committed) (hin' : (descriptor, kept') ∈ h.committed) :
    kept = kept' :=
  congrArg Prod.snd (List.inj_on_of_nodup_map hI.committed_nodup hin hin' rfl)

theorem ArenaInv.held_bytes (hI : ArenaInv g life m h mem) (hmem : chunk ∈ h.held) :
    ∃ kept, (chunk.descriptor, kept) ∈ h.committed ∧ ∀ offset < chunk.len,
      mem (.byte (chunk.first * g.slotSize + offset)) =
        kept (chunk.first * g.slotSize + offset) := by
  obtain ⟨hread, hcommitted⟩ := hI.ledger.chunks chunk hmem
  obtain ⟨⟨d, kept⟩, hin, rfl⟩ := List.mem_map.mp hcommitted
  refine ⟨kept, hin, fun offset hoffset => ?_⟩
  have hlt : offset / g.slotSize < chunk.count := by
    rw [Nat.div_lt_iff_lt_mul g.size_pos]
    exact Nat.lt_of_lt_of_le hoffset hread.fits
  have hslot : (chunk.first * g.slotSize + offset) / g.slotSize =
      chunk.first + offset / g.slotSize := by
    rw [Nat.mul_comm, Nat.mul_add_div g.size_pos]
  obtain ⟨role, hrole, hgeneration⟩ := mem_runRoles (.reading chunk.generation) chunk.first
    rfl hlt
  have hslots : (chunk.first + offset / g.slotSize, role) ∈ (books m h).slots := by
    refine mem_add.mpr (.inl ?_)
    simp only [books, mem_add]
    exact .inr (.inr (.inr (.inr (mem_sum_map.mpr ⟨chunk, hmem, hrole⟩))))
  refine (hI.agree.bytes chunk.generation kept ?_ _ role hslots hgeneration _ hslot).symm
  exact List.mem_map.mpr ⟨_, hin, by rw [hread.generation]⟩

theorem ArenaInv.commits (hI : ArenaInv g life m h mem) (hmem : publication ∈ h.live)
    (hd : descriptor.toCoordinates = publication.coordinates) :
    ArenaInv g life m
      { h with
        live := h.live.erase publication
        unread := descriptor :: h.unread
        committed := (descriptor, h.bytes) :: h.committed } mem := by
  have hplaced := hI.ledger.placed publication (mem_reservations.mpr (.inr (.inr hmem)))
  obtain ⟨hfirst, hcount, hgeneration⟩ := hplaced.coordinates hd
  have hagree := hI.agree
  have hold := books_live_erase m hmem
  have hbytes : h.bytes = fun k => mem (.byte k) := funext hI.shadow.bytes
  have hcommits := hagree.commits (n := publication.generation) publication.first
    publication.count (by rw [← hold]; rfl) (by rw [← hold]; rfl)
  have hopen : (publication.generation, publication.first) ∈ (books m h).opens := by
    rw [← hold]
    exact mem_cons_self _ _
  have hnew : ∀ d, h.Committed d → d.allocationGeneration ≠ descriptor.allocationGeneration := by
    intro d hcommitted heq
    obtain ⟨c, hc, rfl⟩ := List.mem_map.mp hcommitted
    refine hagree.open_not_committed hopen c.2 (List.mem_map.mpr ⟨c, hc, ?_⟩)
    rw [heq, hgeneration]
  have hmono : ∀ d, h.Committed d → d ∈ (descriptor :: h.committed.map Prod.fst) :=
    fun d hcommitted => List.mem_cons_of_mem _ hcommitted
  refine hI.rebook ?_ hI.used (fun d hr => hmono d (hI.reads d hr)) rfl ⟨rfl, rfl, rfl⟩ ?_
  · have hroles : descriptor.roles g = runRoles (.live publication.generation) publication.first
        publication.count publication.generation := by
      rw [ChunkDescriptor.roles, hfirst, hcount, hgeneration]
    have hbooks : books m { h with
        live := h.live.erase publication
        unread := descriptor :: h.unread
        committed := (descriptor, h.bytes) :: h.committed } =
        ⟨(books m { h with live := h.live.erase publication }).owned,
          runRoles (.live publication.generation) publication.first publication.count
            publication.generation + (books m h).unread,
          (books m { h with live := h.live.erase publication }).opens,
          (publication.generation, fun k => mem (.byte k)) :: (books m h).committed⟩ := by
      rw [← hroles, ← hgeneration, ← hbytes]
      rfl
    rw [hbooks]
    exact hcommits
  · refine ⟨fun p hp => hI.ledger.placed p ?_, ?_, ?_, ?_, ?_, hI.ledger.full⟩
    · rw [mem_reservations] at hp ⊢
      exact hp.imp_right (Or.imp_right List.mem_of_mem_erase)
    · intro d hunread
      rcases List.mem_cons.mp hunread with rfl | hunread
      · exact List.mem_cons_self
      · exact hmono d (hI.ledger.unread d hunread)
    · exact fun d htaken => hmono d (hI.ledger.taken d htaken)
    · rw [List.cons_append, List.map_cons, List.nodup_cons]
      refine ⟨fun hin => ?_, hI.ledger.once⟩
      obtain ⟨d, hin, heq⟩ := List.mem_map.mp hin
      refine hnew d ?_ heq
      exact (List.mem_append.mp hin).elim (hI.ledger.unread d) (hI.ledger.taken d)
    · exact fun chunk hc => ⟨(hI.ledger.chunks chunk hc).1, hmono _ (hI.ledger.chunks chunk hc).2⟩

theorem ArenaInv.learns (hI : ArenaInv g life m h mem) (hd : h.Committed descriptor) :
    ArenaInv g life (knows descriptor + m) h mem := by
  have hagree := hI.agree
  rw [← books_knows m h descriptor] at hagree
  refine hI.rebook hagree ?_ ?_ ?_ ⟨rfl, rfl, rfl⟩ hI.ledger
  · simpa [knows, ArenaShare.used] using hI.used
  · intro d hmem
    simp only [knows, ArenaShare.reads, Prod.snd_add, Prod.fst_add, mem_add,
      mem_singleton] at hmem
    rcases hmem with rfl | hmem
    · exact hd
    · exact hI.reads d hmem
  · simp [knows, ArenaShare.searches]

theorem ArenaInv.known (hI : ArenaInv g life (knows descriptor + m) h mem) :
    h.Committed descriptor :=
  hI.reads descriptor (by simp [knows, ArenaShare.reads])

theorem ArenaInv.is_unread (hI : ArenaInv g life m h mem) (hd : h.Committed descriptor)
    (hlive : mem (.state (descriptor.first g)) = slotLive)
    (hgeneration : mem (.generation (descriptor.first g)) = descriptor.allocationGeneration) :
    descriptor ∈ h.unread := by
  obtain ⟨n, hn⟩ := hI.agree.live _ hlive
  have hgen := (hI.agree.role _ _ hn).generation n rfl
  rw [hgeneration] at hgen
  subst hgen
  rcases mem_add.mp hn with hn | hn
  · -- the run of a reservation is not committed
    obtain ⟨c, hc, rfl⟩ := List.mem_map.mp hd
    exact absurd (List.mem_map.mpr ⟨c, hc, rfl⟩)
      (hI.agree.open_not_committed (hI.agree.head _ _ hn) c.2)
  · obtain ⟨d, hmem, hrole⟩ := mem_sum_map.mp hn
    rw [ChunkDescriptor.roles, runRoles, mem_cons, mem_coe] at hrole
    have hsame : d.allocationGeneration = descriptor.allocationGeneration := by
      rcases hrole with heq | hrole
      · injection heq with _ heq
        injection heq with heq
        exact heq.symm
      · simp at hrole
    rwa [← hI.committed_unique (hI.ledger.unread d hmem) hd hsame]

theorem ArenaInv.claims (hI : ArenaInv g life (knows descriptor + m) h mem)
    (hlive : mem (.state (descriptor.first g)) = slotLive)
    (hgeneration : mem (.generation (descriptor.first g)) = descriptor.allocationGeneration) :
    ArenaInv g life (own (runRoles (.reading descriptor.allocationGeneration) (descriptor.first g)
        descriptor.slotCount descriptor.allocationGeneration) + (knows descriptor + m))
      (arenaRecord (.taken descriptor) (arenaRecord (.state (descriptor.first g) slotReading) h))
      (update mem (.state (descriptor.first g)) slotReading) := by
  have hunread := hI.is_unread hI.known hlive hgeneration
  have hagree := hI.agree
  rw [books_knows] at hagree
  have hsum : (books m h).unread = descriptor.roles g +
      ((h.unread.erase descriptor).map (ChunkDescriptor.roles g)).sum :=
    (List.sum_map_erase _ hunread).symm
  have hbooks := hagree.reads hsum
  have hnot : mem (.state (descriptor.first g)) ≠ slotFree := by
    rw [hlive]
    nofun
  have hperm : (h.unread.erase descriptor ++ descriptor :: h.taken).Perm (h.unread ++ h.taken) := by
    refine List.perm_middle.trans ?_
    exact (List.perm_cons_erase hunread).symm.append_right h.taken
  refine ⟨?_, ?_, ?_, ?_, ?_, ⟨(hI.shadow.state _ _).states, (hI.shadow.state _ _).clear,
    (hI.shadow.state _ _).bytes⟩, ?_⟩
  · rw [books_own, books_knows]
    exact hbooks
  · show _ = (h.used : Multiset (Publication g))
    simpa [own, knows, ArenaShare.used] using hI.used
  · intro d hd
    exact hI.reads d (by simpa [own, knows, ArenaShare.reads] using hd)
  · simpa [own, knows, ArenaShare.searches] using hI.lock
  · intro node s hs
    have hok := hI.search node s (by simpa [own, knows, ArenaShare.searches] using hs)
    obtain ⟨hfree, hbusy⟩ := hok.state slotReading (hok.not_seen hnot)
    exact ⟨hfree, hbusy⟩
  · refine ⟨hI.ledger.placed, fun d hd => hI.ledger.unread d (List.mem_of_mem_erase hd), ?_, ?_,
      hI.ledger.chunks, hI.ledger.full⟩
    · intro d hd
      rcases List.mem_cons.mp hd with rfl | hd
      · exact hI.known
      · exact hI.ledger.taken d hd
    · exact (hperm.map _).nodup_iff.mpr hI.ledger.once

theorem ArenaInv.returns_chunk (hI : ArenaInv g life (own chunk.roles +
      (knows chunk.descriptor + m)) h mem) (hread : chunk.Read) :
    ArenaInv g life m (arenaRecord (.held chunk) h) mem := by
  have hagree := hI.agree
  rw [books_own, books_knows] at hagree
  have hbooks : books m (arenaRecord (.held chunk) h) =
      { books m h with owned := chunk.roles + (books m h).owned } := by
    simp only [books, arenaRecord, Books.mk.injEq, List.map_cons, List.sum_cons, and_true]
    abel
  rw [← hbooks] at hagree
  have hcommitted := hI.reads chunk.descriptor (by simp [own, knows, ArenaShare.reads])
  refine hI.rebook hagree ?_ ?_ ?_ ⟨rfl, rfl, rfl⟩ ⟨hI.ledger.placed, hI.ledger.unread,
    hI.ledger.taken, hI.ledger.once, fun c hc => ?_, hI.ledger.full⟩
  · show m.used = (h.used : Multiset (Publication g))
    simpa [own, knows, ArenaShare.used] using hI.used
  · intro d hd
    exact hI.reads d (by simp [own, knows, ArenaShare.reads, hd])
  · simp [own, knows, ArenaShare.searches]
  · rcases List.mem_cons.mp hc with rfl | hc
    · exact ⟨hread, hcommitted⟩
    · exact hI.ledger.chunks c hc

theorem ArenaInv.takes_chunk (hI : ArenaInv g life m h mem) (hmem : chunk ∈ h.held) :
    ArenaInv g life (own chunk.roles + m) { h with held := h.held.erase chunk } mem := by
  have hagree := hI.agree
  have hbooks : books (own chunk.roles + m) { h with held := h.held.erase chunk } = books m h := by
    rw [books_own]
    simp only [books, Books.mk.injEq, and_true, ← List.sum_map_erase PayloadChunk.roles hmem]
    abel
  rw [← hbooks] at hagree
  refine hI.rebook hagree ?_ ?_ ?_ ⟨rfl, rfl, rfl⟩ ⟨hI.ledger.placed, hI.ledger.unread,
    hI.ledger.taken, hI.ledger.once, fun c hc => hI.ledger.chunks c (List.mem_of_mem_erase hc),
    hI.ledger.full⟩
  · simpa [own, ArenaShare.used] using hI.used
  · intro d hd
    exact hI.reads d (by simpa [own, ArenaShare.reads] using hd)
  · simp [own, ArenaShare.searches]

end

end OrbitExchange
