import Orbit.Atomic.Threads
import Orbit.Exchange.Arena
import Mathlib.Algebra.Group.Pi.Lemmas
import Mathlib.Algebra.Group.Prod
import Mathlib.Algebra.Order.Group.Multiset
import Mathlib.Tactic.Abel

/-! Any number of producers and readers on one arena: who owns which slots, and what the words of an
owned slot are. -/

namespace OrbitExchange

open Orbit.Atomic Function
open Multiset hiding Mem

variable {g : Geometry}

inductive ArenaCall (g : Geometry) where
  | reserve (p : Process g) (payloadLen : Nat)
  | write (publication : Publication g) (offset : Nat) (value : UInt8)
  | truncate (publication : Publication g) (payloadLen : Nat)
  | makeLive (publication : Publication g)
  | commit (publication : Publication g) (descriptor : ChunkDescriptor)
  | dropPublication (publication : Publication g)
  | read (p : Process g) (descriptor : ChunkDescriptor)
  | dropChunk (chunk : PayloadChunk g)

/-- Who holds which runs of slots, what was published, and what the words of the arena have been. -/
structure History (g : Geometry) where
  /-- Reservations that are not live, those of them that a call is using, and live ones. -/
  pending : List (Publication g)
  used : List (Publication g)
  live : List (Publication g)
  /-- Published runs that nobody has read. -/
  unread : List ChunkDescriptor
  held : List (PayloadChunk g)
  /-- Everything published, with the payload bytes of that moment. -/
  committed : List (ChunkDescriptor × (Nat → Nat))
  /-- Every successful read. -/
  taken : List ChunkDescriptor
  states : Nat → Nat
  bytes : Nat → Nat
  /-- The slots that have been free ever since the node's search began. -/
  clear : Nat → Nat → Bool
  /-- The searches of a node that found no run of so many slots, with what was clear. -/
  full : List (Nat × Nat × (Nat → Bool))

def History.init (g : Geometry) : History g :=
  ⟨[], [], [], [], [], [], [], fun _ => 0, fun _ => 0, fun _ _ => false, []⟩

/-- Each node has one process, of the incarnation `life`.  A call takes the reservation or the chunk
it works on; a commit publishes at once. -/
def arenaBegins (life : Nat → Nat) : ArenaCall g → History g → Option (History g)
  | .reserve p _, h => if p.incarnation = life p.node then some h else none
  | .write publication offset _, h =>
    if publication ∈ h.pending ∧ offset < publication.payloadLen then
      some { h with
        pending := h.pending.erase publication
        used := publication :: h.used }
    else none
  | .truncate publication _, h =>
    if publication ∈ h.pending then some { h with pending := h.pending.erase publication } else none
  | .makeLive publication, h =>
    if publication ∈ h.pending then
      some { h with
        pending := h.pending.erase publication
        used := publication :: h.used }
    else none
  | .commit publication descriptor, h =>
    if publication ∈ h.live ∧ descriptor.toCoordinates = publication.coordinates then
      some { h with
        live := h.live.erase publication
        unread := descriptor :: h.unread
        committed := (descriptor, h.bytes) :: h.committed }
    else none
  | .dropPublication publication, h =>
    if publication ∈ h.pending then some { h with pending := h.pending.erase publication }
    else if publication ∈ h.live then some { h with live := h.live.erase publication }
    else none
  | .read _ descriptor, h => if descriptor ∈ h.committed.map Prod.fst then some h else none
  | .dropChunk chunk, h => if chunk ∈ h.held then some { h with held := h.held.erase chunk } else none

def arenaRecord : Event g → History g → History g
  | .search node, h =>
    { h with clear := update h.clear node fun i => h.states i == slotFree }
  | .full node count, h => { h with full := (node, count, h.clear node) :: h.full }
  | .state slot value, h =>
    { h with
      states := update h.states slot value
      clear := fun node i => h.clear node i && !(i == slot && value != slotFree) }
  | .byte index value, h => { h with bytes := update h.bytes index value }
  | .reserved publication, h => { h with pending := publication :: h.pending }
  | .written publication, h =>
    { h with
      used := h.used.erase publication
      pending := publication :: h.pending }
  | .madeLive publication, h =>
    { h with
      used := h.used.erase publication
      live := publication :: h.live }
  | .taken descriptor, h =>
    { h with
      unread := h.unread.erase descriptor
      taken := descriptor :: h.taken }
  | .held chunk, h => { h with held := chunk :: h.held }

def arenaSys (g : Geometry) (life : Nat → Nat) : Sys Addr (Event g) (ArenaCall g) (History g) where
  body
    | .reserve p payloadLen => do
      match ← p.reserve payloadLen with
      | .ok publication => mark (.reserved publication)
      | .error _ => return ()
    | .write publication offset value => do
      publication.write offset value
      mark (.written publication)
    | .truncate publication payloadLen => do
      match ← publication.truncate payloadLen with
      | .ok shorter => mark (.reserved shorter)
      | .error _ => mark (.reserved publication)
    | .makeLive publication => do
      publication.makeLive
      mark (.madeLive publication)
    | .commit _ _ => return ()
    | .dropPublication publication => publication.drop
    | .read p descriptor => do
      match ← p.read descriptor with
      | .ok chunk => mark (.held chunk)
      | .error _ => return ()
    | .dropChunk chunk => chunk.drop
  begins := arenaBegins life
  record _ _ := arenaRecord

/-- A new arena: the first generation is 1. -/
def arenaWords : Mem Addr
  | .nextGeneration => 1
  | _ => 0

def arenaStart (g : Geometry) : Config Addr (Event g) (ArenaCall g) (History g) :=
  ⟨arenaWords, .init g, []⟩

/-- A read claims a run only while its first slot is still in the descriptor's generation.
Generations do not wrap. -/
def inGeneration : Discipline Addr (ArenaCall g) (History g) where
  begin _ _ _ := True
  write _ call place old _ _ mem :=
    match call, place with
    | .read _ descriptor, .state i => mem (.generation i) = descriptor.allocationGeneration
    | .reserve _ _, .nextGeneration => old + 1 < 2 ^ 64
    | _, _ => True

/-- What a slot is to its owner. -/
inductive Role where
  | fresh
  | part (generation : Nat)
  | live (generation : Nat)
  | reading (generation : Nat)
  deriving DecidableEq

namespace Role

def state : Role → Nat
  | fresh | part _ => slotReserved
  | live _ => slotLive
  | reading _ => slotReading

def generation? : Role → Option Nat
  | fresh => none
  | part generation | live generation | reading generation => some generation

/-- The words of a slot in a role. -/
structure Ok (role : Role) (state generation : Nat) : Prop where
  state : state = role.state
  generation : ∀ n, role.generation? = some n → generation = n

theorem state_ne_free (role : Role) : role.state ≠ slotFree := by
  cases role <;> nofun

end Role

/-- The slots of a run: its first in a role of its own, the others parts of it. -/
def runRoles (head : Role) (first count generation : Nat) : Multiset (Nat × Role) :=
  (first, head) ::ₘ ((List.range' (first + 1) (count - 1)).map (·, Role.part generation) : List _)

theorem mem_runRoles (head : Role) (first : Nat) {count generation k : Nat}
    (hhead : head.generation? = some generation) (hk : k < count) :
    ∃ role, (first + k, role) ∈ runRoles head first count generation ∧
      role.generation? = some generation := by
  rw [runRoles]
  cases k with
  | zero => exact ⟨head, mem_cons_self _ _, hhead⟩
  | succ k =>
    refine ⟨.part generation, mem_cons_of_mem (mem_coe.mpr ?_), rfl⟩
    refine List.mem_map.mpr ⟨first + (k + 1), List.mem_range'_1.mpr ?_, rfl⟩
    omega

/-- Owned slots, those of published runs nobody has read, the generations of runs not published,
each with its first slot, and those published with their bytes. -/
structure Books where
  owned : Multiset (Nat × Role)
  unread : Multiset (Nat × Role)
  opens : Multiset (Nat × Nat)
  committed : List (Nat × (Nat → Nat))

namespace Books

def slots (b : Books) : Multiset (Nat × Role) := b.owned + b.unread

def generations (b : Books) : Multiset Nat :=
  b.opens.map Prod.fst + (b.committed.map Prod.fst : List Nat)

/-- The books agree with the words of an arena whose slots have `size` bytes. -/
structure Ok (b : Books) (size : Nat) (mem : Mem Addr) : Prop where
  role : ∀ i role, (i, role) ∈ b.slots → role.Ok (mem (.state i)) (mem (.generation i))
  apart : (b.slots.map Prod.fst).Nodup
  live : ∀ i, mem (.state i) = slotLive → ∃ n, (i, .live n) ∈ b.slots
  head : ∀ i n, (i, .live n) ∈ b.owned → (n, i) ∈ b.opens
  fresh : b.generations.Nodup
  below : ∀ n ∈ b.generations, n < mem .nextGeneration
  next : 0 < mem .nextGeneration
  bytes : ∀ n kept, (n, kept) ∈ b.committed → ∀ i role, (i, role) ∈ b.slots →
    role.generation? = some n → ∀ k, k / size = i → kept k = mem (.byte k)

variable {b : Books} {size i n : Nat} {role : Role} {mem mem' : Mem Addr}

theorem Ok.mem_unique (h : b.Ok size mem) {role' : Role} (hr : (i, role) ∈ b.slots)
    (hr' : (i, role') ∈ b.slots) : role = role' := by
  have heq := inj_on_of_nodup_map h.apart _ hr _ hr' rfl
  exact congrArg Prod.snd heq

theorem Ok.not_free (h : b.Ok size mem) (hfree : mem (.state i) = slotFree) :
    i ∉ b.slots.map Prod.fst := by
  rw [mem_map]
  rintro ⟨⟨j, role⟩, hmem, rfl⟩
  exact role.state_ne_free ((h.role _ role hmem).state.symm.trans hfree)

theorem Ok.open_not_committed (h : b.Ok size mem) (hopen : (n, i) ∈ b.opens)
    (kept : Nat → Nat) : (n, kept) ∉ b.committed := by
  intro hmem
  have hfresh := h.fresh
  rw [generations, nodup_add] at hfresh
  exact disjoint_left.mp hfresh.2.2 (mem_map.mpr ⟨_, hopen, rfl⟩)
    (mem_coe.mpr (List.mem_map.mpr ⟨_, hmem, rfl⟩))

def Watched : Addr → Prop
  | .nextGeneration | .state _ | .generation _ | .byte _ => True
  | _ => False

theorem Ok.same (h : b.Ok size mem) (hwords : ∀ a, Watched a → mem' a = mem a) :
    b.Ok size mem' where
  role i role hr := by
    rw [hwords (.state i) trivial, hwords (.generation i) trivial]
    exact h.role i role hr
  apart := h.apart
  live i hi := h.live i (by rwa [hwords (.state i) trivial] at hi)
  head := h.head
  fresh := h.fresh
  below n hn := by
    rw [hwords .nextGeneration trivial]
    exact h.below n hn
  next := by
    rw [hwords .nextGeneration trivial]
    exact h.next
  bytes n kept hn i role hr hg k hk := by
    rw [hwords (.byte k) trivial]
    exact h.bytes n kept hn i role hr hg k hk

theorem Ok.reserves (h : b.Ok size mem) (hfree : mem (.state i) = slotFree) :
    Ok { b with owned := (i, .fresh) ::ₘ b.owned } size
      (update mem (.state i) slotReserved) := by
  have hnew := h.not_free hfree
  have hslots : slots { b with owned := (i, .fresh) ::ₘ b.owned } = (i, .fresh) ::ₘ b.slots :=
    cons_add ..
  constructor
  · intro j role hr
    rw [hslots, mem_cons] at hr
    rcases hr with heq | hr
    · cases heq
      exact ⟨update_self _ _ _, nofun⟩
    · have hne : j ≠ i := by
        rintro rfl
        exact hnew (mem_map.mpr ⟨_, hr, rfl⟩)
      rw [update_of_ne (by simpa using hne)]
      exact h.role j role hr
  · rw [hslots, map_cons, nodup_cons]
    exact ⟨hnew, h.apart⟩
  · intro j hj
    have hne : j ≠ i := by
      rintro rfl
      rw [update_self] at hj
      cases hj
    rw [update_of_ne (by simpa using hne)] at hj
    obtain ⟨n, hn⟩ := h.live j hj
    exact ⟨n, by rw [hslots]; exact mem_cons_of_mem hn⟩
  · intro j n hr
    rw [mem_cons] at hr
    exact h.head j n (hr.resolve_left nofun)
  · exact h.fresh
  · exact h.below
  · exact h.next
  · intro n kept hn j role hr hg
    rw [hslots, mem_cons] at hr
    rcases hr with heq | hr
    · cases heq
      cases hg
    · exact h.bytes n kept hn j role hr hg

theorem Ok.mints (h : b.Ok size mem) (hwrap : mem .nextGeneration + 1 < 2 ^ 64) :
    Ok { b with opens := (mem .nextGeneration, i) ::ₘ b.opens } size
      (update mem .nextGeneration ((mem .nextGeneration + 1) % 2 ^ 64)) := by
  rw [Nat.mod_eq_of_lt hwrap]
  have hgens : generations { b with opens := (mem .nextGeneration, i) ::ₘ b.opens } =
      mem .nextGeneration ::ₘ b.generations := by
    rw [generations, generations, map_cons, cons_add]
  constructor
  · exact h.role
  · exact h.apart
  · exact h.live
  · exact fun j n hr => mem_cons_of_mem (h.head j n hr)
  · rw [hgens, nodup_cons]
    exact ⟨fun hmem => Nat.lt_irrefl _ (h.below _ hmem), h.fresh⟩
  · intro n hn
    rw [update_self]
    rw [hgens, mem_cons] at hn
    rcases hn with rfl | hn
    · exact Nat.lt_succ_self _
    · exact Nat.lt_succ_of_lt (h.below n hn)
  · rw [update_self]
    exact Nat.succ_pos _
  · exact h.bytes

theorem Ok.plays {b' : Books} (role' : Role) (rest : Multiset (Nat × Role)) (h : b.Ok size mem)
    (hold : b.slots = (i, role) ::ₘ rest) (hnew : b'.slots = (i, role') ::ₘ rest)
    (hwords : ∀ a, Watched a → a ≠ .state i → a ≠ .generation i → mem' a = mem a)
    (hrole : role'.Ok (mem' (.state i)) (mem' (.generation i)))
    (hopens : b'.opens = b.opens) (hcommitted : b'.committed = b.committed)
    (hhead : ∀ j n, (j, .live n) ∈ b'.owned → (n, j) ∈ b.opens)
    (hopen : ∀ n, role'.generation? = some n → role.generation? = some n ∨ ∃ j, (n, j) ∈ b.opens) :
    b'.Ok size mem' := by
  have hapart := h.apart
  rw [hold, map_cons, nodup_cons] at hapart
  have hrest : ∀ {j role}, (j, role) ∈ rest → j ≠ i ∧ (j, role) ∈ b.slots := by
    rintro j role hr
    refine ⟨?_, by rw [hold]; exact mem_cons_of_mem hr⟩
    rintro rfl
    exact hapart.1 (mem_map.mpr ⟨_, hr, rfl⟩)
  have hgens : b'.generations = b.generations := by
    rw [generations, generations, hopens, hcommitted]
  constructor
  · intro j role'' hr
    rw [hnew, mem_cons] at hr
    rcases hr with heq | hr
    · cases heq
      exact hrole
    · obtain ⟨hne, hmem⟩ := hrest hr
      rw [hwords (.state j) trivial (by simpa using hne) nofun,
        hwords (.generation j) trivial nofun (by simpa using hne)]
      exact h.role j role'' hmem
  · rw [hnew, map_cons, nodup_cons]
    exact hapart
  · intro j hj
    rw [hnew]
    by_cases heq : j = i
    · subst heq
      cases hr : role' with
      | live n => exact ⟨n, mem_cons_self _ _⟩
      | fresh | part _ | reading _ =>
        have hstate := hrole.state
        rw [hj, hr] at hstate
        cases hstate
    · rw [hwords (.state j) trivial (by simpa using heq) nofun] at hj
      obtain ⟨n, hn⟩ := h.live j hj
      rw [hold, mem_cons] at hn
      refine ⟨n, mem_cons_of_mem (hn.resolve_left ?_)⟩
      rintro ⟨⟩
      exact heq rfl
  · rw [hopens]
    exact hhead
  · rw [hgens]
    exact h.fresh
  · rw [hgens, hwords .nextGeneration trivial nofun nofun]
    exact h.below
  · rw [hwords .nextGeneration trivial nofun nofun]
    exact h.next
  · intro n kept hn j role'' hr hg k hk
    rw [hcommitted] at hn
    rw [hwords (.byte k) trivial nofun nofun]
    rw [hnew, mem_cons] at hr
    rcases hr with heq | hr
    · cases heq
      rcases hopen n hg with hsame | ⟨j, hj⟩
      · exact h.bytes n kept hn i role (by rw [hold]; exact mem_cons_self _ _) hsame k hk
      · exact absurd hn (h.open_not_committed hj kept)
    · exact h.bytes n kept hn j role'' (hrest hr).2 hg k hk

theorem Ok.plays_owned {owned : Multiset (Nat × Role)} (role' : Role) (h : b.Ok size mem)
    (howned : b.owned = (i, role) ::ₘ owned)
    (hwords : ∀ a, Watched a → a ≠ .state i → a ≠ .generation i → mem' a = mem a)
    (hrole : role'.Ok (mem' (.state i)) (mem' (.generation i)))
    (hhead : ∀ n, role' = .live n → (n, i) ∈ b.opens)
    (hopen : ∀ n, role'.generation? = some n → role.generation? = some n ∨ ∃ j, (n, j) ∈ b.opens) :
    Ok { b with owned := (i, role') ::ₘ owned } size mem' := by
  refine h.plays role' (owned + b.unread) ?_ ?_ hwords hrole rfl rfl ?_ hopen
  · rw [slots, howned, cons_add]
  · exact cons_add ..
  · intro j n hr
    rw [mem_cons] at hr
    rcases hr with heq | hr
    · cases heq
      exact hhead n rfl
    · exact h.head j n (by rw [howned]; exact mem_cons_of_mem hr)

theorem Ok.frees {owned : Multiset (Nat × Role)} (h : b.Ok size mem)
    (howned : b.owned = (i, role) ::ₘ owned) :
    Ok { b with owned } size (update mem (.state i) slotFree) := by
  have hold : b.slots = (i, role) ::ₘ (owned + b.unread) := by
    rw [slots, howned, cons_add]
  have hapart := h.apart
  rw [hold, map_cons, nodup_cons] at hapart
  have hrest : ∀ {j role}, (j, role) ∈ owned + b.unread → j ≠ i ∧ (j, role) ∈ b.slots := by
    rintro j role hr
    refine ⟨?_, by rw [hold]; exact mem_cons_of_mem hr⟩
    rintro rfl
    exact hapart.1 (mem_map.mpr ⟨_, hr, rfl⟩)
  constructor
  · intro j role' hr
    obtain ⟨hne, hmem⟩ := hrest hr
    rw [update_of_ne (by simpa using hne)]
    exact h.role j role' hmem
  · exact hapart.2
  · intro j hj
    have hne : j ≠ i := by
      rintro rfl
      rw [update_self] at hj
      cases hj
    rw [update_of_ne (by simpa using hne)] at hj
    obtain ⟨n, hn⟩ := h.live j hj
    rw [hold, mem_cons] at hn
    refine ⟨n, hn.resolve_left ?_⟩
    rintro ⟨⟩
    exact hne rfl
  · exact fun j n hr => h.head j n (by rw [howned]; exact mem_cons_of_mem hr)
  · exact h.fresh
  · exact h.below
  · exact h.next
  · exact fun n kept hn j role' hr hg => h.bytes n kept hn j role' (hrest hr).2 hg

theorem Ok.writes (h : b.Ok size mem) (hmem : (i, role) ∈ b.owned)
    (hopen : ∀ m, role.generation? = some m → ∃ j, (m, j) ∈ b.opens) {k : Nat} (hk : k / size = i)
    (value : Nat) :
    b.Ok size (update mem (.byte k) value) where
  role := h.role
  apart := h.apart
  live := h.live
  head := h.head
  fresh := h.fresh
  below := h.below
  next := h.next
  bytes n kept hn j role' hr hg k' hk' := by
    by_cases heq : k' = k
    · subst heq
      obtain rfl : i = j := hk.symm.trans hk'
      obtain rfl := h.mem_unique hr (mem_add.mpr (.inl hmem))
      obtain ⟨j, hj⟩ := hopen n hg
      exact absurd hn (h.open_not_committed hj kept)
    · rw [update_of_ne (by simpa using heq)]
      exact h.bytes n kept hn j role' hr hg k' hk'

theorem Ok.commits {owned : Multiset (Nat × Role)} {opens : Multiset (Nat × Nat)}
    (first count : Nat) (h : b.Ok size mem) (howned : b.owned = runRoles (.live n) first count n + owned)
    (hopens : b.opens = (n, first) ::ₘ opens) :
    Ok ⟨owned, runRoles (.live n) first count n + b.unread, opens,
      (n, fun k => mem (.byte k)) :: b.committed⟩ size mem := by
  have hslots : slots ⟨owned, runRoles (.live n) first count n + b.unread, opens,
      (n, fun k => mem (.byte k)) :: b.committed⟩ = b.slots := by
    rw [slots, slots, howned]
    exact (add_left_comm owned _ b.unread).trans (add_assoc _ _ _).symm
  have hgens : generations ⟨owned, runRoles (.live n) first count n + b.unread, opens,
      (n, fun k => mem (.byte k)) :: b.committed⟩ = b.generations := by
    rw [generations, generations, hopens, List.map_cons, ← cons_coe, map_cons,
      add_cons, cons_add]
  constructor
  · rw [hslots]
    exact h.role
  · rw [hslots]
    exact h.apart
  · rw [hslots]
    exact h.live
  · intro j n' hr
    have hmem := h.head j n' (by rw [howned]; exact mem_add.mpr (.inr hr))
    rw [hopens, mem_cons] at hmem
    refine hmem.resolve_left ?_
    rintro ⟨⟩
    -- the first slot of the run would be owned twice
    have hapart := h.apart
    rw [slots, howned, runRoles, cons_add, cons_add, map_cons,
      nodup_cons] at hapart
    refine hapart.1 (mem_map.mpr ⟨(first, .live n), ?_, rfl⟩)
    exact mem_add.mpr (.inl (mem_add.mpr (.inr hr)))
  · rw [hgens]
    exact h.fresh
  · rw [hgens]
    exact h.below
  · exact h.next
  · intro n' kept hn j role hr hg k hk
    rw [hslots] at hr
    rcases List.mem_cons.mp hn with heq | hn
    · cases heq
      rfl
    · exact h.bytes n' kept hn j role hr hg k hk

theorem Ok.reads {unread : Multiset (Nat × Role)} {first count : Nat} (h : b.Ok size mem)
    (hunread : b.unread = runRoles (.live n) first count n + unread) :
    Ok { b with
      owned := runRoles (.reading n) first count n + b.owned
      unread } size (update mem (.state first) slotReading) := by
  have hrole := h.role first (.live n) (by
    rw [slots, hunread, runRoles]
    simp)
  have hold : b.slots = (first, .live n) ::ₘ
      (ofList ((List.range' (first + 1) (count - 1)).map (·, Role.part n)) + b.owned +
        unread) := by
    rw [slots, hunread, runRoles, cons_add, add_cons]
    congr 1
    rw [← add_assoc, add_comm b.owned]
  refine h.plays (.reading n) _ hold ?_ ?_ ?_ rfl rfl ?_ ?_
  · simp only [slots, runRoles, cons_add, add_assoc]
  · exact fun a _ hstate _ => update_of_ne hstate _ _
  · refine ⟨update_self _ _ _, fun m hm => ?_⟩
    cases hm
    exact hrole.generation n rfl
  · intro j m hr
    rw [mem_add, runRoles, mem_cons, mem_coe] at hr
    rcases hr with (heq | hr) | hr
    · cases heq
    · simp at hr
    · exact h.head j m hr
  · rintro m ⟨⟩
    exact .inl rfl

end Books

end OrbitExchange
