import Orbit.Atomic.Copy
import Orbit.Quota.Contract
import Mathlib.Data.Nat.Bitwise

/-! The shared table of a fleet's quota store: its words, the locks beside it, and what a run of its
calls keeps in mind. -/

namespace OrbitQuota.Shm

open Orbit.Atomic

def frozenFlag : Nat := 2 ^ 63

def retiredFlag : Nat := 2 ^ 62

/-- The bits of a descriptor that number its generation. -/
def generationMask : Nat := retiredFlag - 1

def bankOf (generation : Nat) : Nat := generation &&& 1

theorem bankOf_succ (generation : Nat) : bankOf (generation + 1) ≠ bankOf generation := by
  rw [bankOf, bankOf, Nat.and_one_is_mod, Nat.and_one_is_mod]
  omega

section Descriptors

variable {generation other : Nat}

theorem generation_lt (h : generation ≤ generationMask) : generation < 2 ^ 62 := by
  rw [generationMask, retiredFlag] at h
  omega

theorem or_frozen (h : generation ≤ generationMask) :
    generation ||| frozenFlag = frozenFlag + generation := by
  have hor := Nat.two_pow_add_eq_or_of_lt (Nat.lt_trans (generation_lt h) (by decide : _ < 2 ^ 63)) 1
  rw [Nat.mul_one] at hor
  rw [Nat.or_comm, frozenFlag, hor]

theorem or_retired (h : generation ≤ generationMask) :
    generation ||| retiredFlag = retiredFlag + generation := by
  have hor := Nat.two_pow_add_eq_or_of_lt (generation_lt h) 1
  rw [Nat.mul_one] at hor
  rw [Nat.or_comm, retiredFlag, hor]

theorem and_frozen (h : generation ≤ generationMask) : generation &&& frozenFlag = 0 := by
  rw [frozenFlag, Nat.and_two_pow,
    Nat.testBit_eq_false_of_lt (Nat.lt_trans (generation_lt h) (by decide : _ < 2 ^ 63)),
    Bool.toNat_false, Nat.zero_mul]

theorem and_retired (h : generation ≤ generationMask) : generation &&& retiredFlag = 0 := by
  rw [retiredFlag, Nat.and_two_pow, Nat.testBit_eq_false_of_lt (generation_lt h), Bool.toNat_false,
    Nat.zero_mul]

theorem and_generation (h : generation ≤ generationMask) :
    generation &&& generationMask = generation := by
  rw [generationMask, retiredFlag, Nat.and_two_pow_sub_one_eq_mod, Nat.mod_eq_of_lt (generation_lt h)]

theorem frozen_and_frozen (h : generation ≤ generationMask) :
    (generation ||| frozenFlag) &&& frozenFlag = frozenFlag := by
  rw [Nat.and_or_distrib_right, Nat.and_self, and_frozen h, Nat.zero_or]

theorem retired_and_frozen (h : generation ≤ generationMask) :
    (generation ||| retiredFlag) &&& frozenFlag = 0 := by
  have hflags : retiredFlag &&& frozenFlag = 0 := by decide
  rw [Nat.and_or_distrib_right, and_frozen h, hflags, Nat.zero_or]

theorem retired_and_retired (h : generation ≤ generationMask) :
    (generation ||| retiredFlag) &&& retiredFlag = retiredFlag := by
  rw [Nat.and_or_distrib_right, Nat.and_self, and_retired h, Nat.zero_or]

theorem frozen_and_generation (h : generation ≤ generationMask) :
    (generation ||| frozenFlag) &&& generationMask = generation := by
  have hflags : frozenFlag &&& generationMask = 0 := by decide
  rw [Nat.and_or_distrib_right, and_generation h, hflags, Nat.or_zero]

theorem retired_and_generation (h : generation ≤ generationMask) :
    (generation ||| retiredFlag) &&& generationMask = generation := by
  have hflags : retiredFlag &&& generationMask = 0 := by decide
  rw [Nat.and_or_distrib_right, and_generation h, hflags, Nat.or_zero]

theorem frozen_ne (h : generation ≤ generationMask) (ho : other ≤ generationMask) :
    generation ||| frozenFlag ≠ other := by
  intro heq
  have hand := and_frozen ho
  rw [← heq, frozen_and_frozen h] at hand
  cases hand

theorem thawed (h : generation ≤ generationMask) :
    (generation ||| frozenFlag) ^^^ ((generation ||| frozenFlag) &&& frozenFlag) = generation := by
  have hbit : generation.testBit 63 = false :=
    Nat.testBit_eq_false_of_lt (Nat.lt_trans (generation_lt h) (by decide : _ < 2 ^ 63))
  rw [frozen_and_frozen h]
  refine Nat.eq_of_testBit_eq fun i => ?_
  simp only [Nat.testBit_xor, Nat.testBit_or, frozenFlag, Nat.testBit_two_pow]
  by_cases hi : 63 = i
  · subst hi
    simp [hbit]
  · simp [hi]

end Descriptors

/-- What every handle of one resource agrees on.  `hash` stands for the keyed hash: the number of a
key's shard and that of its first slot, before they are reduced. -/
structure Table where
  geometry : Geometry
  owners : Nat
  retention : Retention
  algorithm : Gcra
  hash : Key → Nat × Nat

/-- The words of the mapping, and the lock files beside it: those of the owners' lanes, and those of
the lanes after them, one for each shard. -/
inductive Addr where
  | watermark (shard : Nat)
  | generation (owner : Nat)
  | pins (owner slot : Nat)
  | control (slot : Nat)
  | namespaceLen (slot bank : Nat)
  | subjectLen (slot bank : Nat)
  | tat (slot bank : Nat)
  | lastSeen (slot bank : Nat)
  | byte (slot bank index : Nat)
  | ownerHold (owner : Nat)
  | shardHold (shard : Nat)
  deriving DecidableEq

/-- One opening of the store, with the owner it has claimed and the generation it has there.  Every
opening counts as a process of its own: those of one process need not die together. -/
structure Handle where
  process : Nat
  owner : Nat
  generation : Nat
  deriving DecidableEq

/-- A validated pin. -/
structure Pin where
  handle : Handle
  index : Nat
  generation : Nat
  deriving DecidableEq

/-- What a slot is published with. -/
structure Identity where
  generation : Nat
  key : Key
  tat : Nat

inductive Event where
  /-- The process has claimed its owner. -/
  | opened (handle : Handle)
  | pinned (pin : Pin)
  | unpinned (pin : Pin)
  /-- A publisher has written a word of the bank. -/
  | wrote (slot bank : Nat)
  | published (slot : Nat) (identity : Identity)
  | charged (slot previous now next : Nat)

/-- What has been committed at a slot. -/
inductive Commit where
  | publish (identity : Identity)
  | charge (tat : Nat)

def Commit.apply : Option Identity → Commit → Option Identity
  | _, .publish identity => some identity
  | before, .charge tat => before.map fun identity => { identity with tat }

/-- What a slot is published with after the commits: nothing before the first. -/
def inForce (commits : List Commit) : Option Identity := commits.foldl Commit.apply none

structure History where
  begun : List Nat
  dead : List Nat
  handles : List Handle
  pins : List Pin
  commits : Nat → List Commit
  /-- The writes of publishers to a bank that a live process had pinned. -/
  trespasses : List (Nat × Nat)

def History.start : History := ⟨[], [], [], [], fun _ => [], []⟩

def History.guarded (h : History) (slot bank : Nat) : Bool :=
  h.pins.any fun pin =>
    pin.handle.process ∉ h.dead ∧ pin.index = slot ∧ bankOf pin.generation = bank

def record : Event → History → History
  | .opened handle, h => { h with handles := handle :: h.handles }
  | .pinned pin, h => { h with pins := pin :: h.pins }
  | .unpinned pin, h => { h with pins := h.pins.erase pin }
  | .wrote slot bank, h =>
    if h.guarded slot bank then { h with trespasses := (slot, bank) :: h.trespasses } else h
  | .published slot identity, h =>
    { h with commits := Function.update h.commits slot (h.commits slot ++ [.publish identity]) }
  | .charged slot _ _ next, h =>
    { h with commits := Function.update h.commits slot (h.commits slot ++ [.charge next]) }

abbrev ShmM (α : Type) := QuotaM Addr Event α

end OrbitQuota.Shm
