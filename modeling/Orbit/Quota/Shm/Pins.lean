import Orbit.Quota.Shm.Calls
import Mathlib.Algebra.BigOperators.Group.Multiset.Basic

/-! What holds between the accesses of any number of processes: who has which lock, how many pins
are counted, which descriptors are frozen, and what the banks hold. -/

namespace OrbitQuota.Shm

open Orbit.Atomic Function Option
open Multiset hiding Mem

/-- A slot that a call has frozen: the owners whose pins it has seen gone, and the words it has
written to the bank it fills. -/
structure Freeze where
  index : Nat
  generation : Nat
  scanned : Nat
  written : Addr → Option Nat

def Freeze.write (f : Freeze) (place : Addr) (value : Nat) : Freeze :=
  { f with written := Function.update f.written place (some value) }

theorem Freeze.write_written (f : Freeze) (place : Addr) (value : Nat) :
    (f.write place value).written = Function.update f.written place (some value) := rfl

/-- What a call has. -/
inductive Card where
  /-- The call is one of an open handle. -/
  | caller (handle : Handle)
  /-- The owner's lock, by a process that opens and has cleared the pins of the first slots. -/
  | claiming (process owner cleared : Nat)
  /-- The owner's lock, by a process that clears pins left there. -/
  | reclaiming (process owner : Nat)
  /-- The owner's lock, by an open handle; no call has this card. -/
  | owning (handle : Handle)
  /-- A pin that is counted and not validated. -/
  | pin (handle : Handle) (index : Nat)
  | held (pin : Pin)
  /-- The shard's lock, and the slot frozen under it. -/
  | shard (process number : Nat) (work : Option Freeze)

abbrev Share := Multiset Card

def Card.process : Card → Nat
  | .caller handle | .owning handle | .pin handle _ => handle.process
  | .held p => p.handle.process
  | .claiming process .. | .reclaiming process _ | .shard process .. => process

def Card.lock : Card → Option Addr
  | .claiming _ owner _ | .reclaiming _ owner => some (.ownerHold owner)
  | .owning handle => some (.ownerHold handle.owner)
  | .shard _ number _ => some (.shardHold number)
  | .caller _ | .pin .. | .held _ => none

def Card.counted : Card → Option (Handle × Nat)
  | .pin handle index => some (handle, index)
  | .held p => some (p.handle, p.index)
  | .caller _ | .claiming .. | .reclaiming .. | .owning _ | .shard .. => none

def Card.validated : Card → Option Pin
  | .held p => some p
  | .caller _ | .pin .. | .claiming .. | .reclaiming .. | .owning _ | .shard .. => none

def Card.handle : Card → Option Handle
  | .caller handle | .pin handle _ => some handle
  | .held p => some p.handle
  | .claiming .. | .reclaiming .. | .owning _ | .shard .. => none

def Addr.isLock : Addr → Bool
  | ownerHold _ | shardHold _ => true
  | _ => false

theorem Card.lock_isLock {c : Card} {l : Addr} (h : c.lock = some l) : l.isLock = true := by
  cases c <;> cases h <;> rfl

/-- A lock is the word of the live process that has it, and one card stands for it. -/
structure Locked (cards : Share) (dead : List Nat) (mem : Mem Addr) : Prop where
  word : ∀ c ∈ cards, c.process ∉ dead → ∀ l, c.lock = some l → mem l = c.process + 1
  alone : ∀ l, cards.countP (fun c => c.lock = some l ∧ c.process ∉ dead) ≤ 1

namespace Locked

variable {cards : Share} {dead : List Nat} {mem : Mem Addr} {c c' : Card} {l : Addr}

theorem init (mem : Mem Addr) : Locked 0 [] mem where
  word _ h := absurd h (notMem_zero _)
  alone _ := Nat.zero_le _

theorem drop (h : Locked (c ::ₘ cards) dead mem) : Locked cards dead mem where
  word c hc := h.word c (mem_cons_of_mem hc)
  alone l := Nat.le_trans (countP_le_of_le _ (le_cons_self _ _)) (h.alone l)

theorem plain (h : Locked cards dead mem) (hc : c.lock = none) : Locked (c ::ₘ cards) dead mem where
  word c' hc' hlive l hl := by
    rcases mem_cons.mp hc' with rfl | hc'
    · rw [hc] at hl
      cases hl
    · exact h.word c' hc' hlive l hl
  alone l := by
    rw [countP_cons_of_neg]
    · exact h.alone l
    · rw [hc]
      exact fun hl => some_ne_none _ hl.1.symm

theorem other (h : Locked (c ::ₘ cards) dead mem) (hc : c.lock = some l) (hlive : c.process ∉ dead)
    {d : Card} (hd : d ∈ cards) (hl : d.lock = some l) : d.process ∈ dead := by
  by_contra hlive'
  have hpos : 0 < cards.countP (fun c => c.lock = some l ∧ c.process ∉ dead) :=
    countP_pos.mpr ⟨d, hd, hl, hlive'⟩
  have hone := h.alone l
  rw [countP_cons_of_pos _ ⟨hc, hlive⟩] at hone
  omega

theorem exchange (h : Locked (c ::ₘ cards) dead mem) (hl : c'.lock = c.lock)
    (hp : c'.process = c.process) : Locked (c' ::ₘ cards) dead mem where
  word d hd hlive l hdl := by
    rcases mem_cons.mp hd with rfl | hd
    · rw [hp] at hlive ⊢
      exact h.word c (mem_cons_self _ _) hlive l (hl ▸ hdl)
    · exact h.word d (mem_cons_of_mem hd) hlive l hdl
  alone l := by
    have hone := h.alone l
    rw [countP_cons] at hone ⊢
    rw [hl, hp]
    exact hone

theorem acquire (h : Locked cards dead mem) (hc : c.lock = some l) (hfree : mem l = 0) :
    Locked (c ::ₘ cards) dead (Function.update mem l (c.process + 1)) where
  word d hd hlive l' hl' := by
    rcases mem_cons.mp hd with rfl | hd
    · rw [hc] at hl'
      cases hl'
      exact update_self ..
    · have hword := h.word d hd hlive l' hl'
      rw [update_of_ne]
      · exact hword
      · rintro rfl
        omega
  alone l' := by
    by_cases heq : l' = l
    · subst heq
      have hnone : cards.countP (fun c => c.lock = some l' ∧ c.process ∉ dead) = 0 := by
        rw [countP_eq_zero]
        rintro d hd ⟨hl, hlive⟩
        have hword := h.word d hd hlive l' hl
        omega
      exact Nat.le_trans (countP_cons _ _ _).le (by rw [hnone]; split <;> omega)
    · rw [countP_cons_of_neg]
      · exact h.alone l'
      · rw [hc]
        rintro ⟨hl, -⟩
        exact heq (Option.some.inj hl).symm

theorem release (h : Locked (c ::ₘ cards) dead mem) (hc : c.lock = some l)
    (hlive : c.process ∉ dead) : Locked cards dead (Function.update mem l 0) where
  word d hd hd' l' hl' := by
    rw [update_of_ne]
    · exact h.drop.word d hd hd' l' hl'
    · rintro rfl
      exact hd' (h.other hc hlive hd hl')
  alone := h.drop.alone

theorem update (h : Locked cards dead mem) {place : Addr} (hplace : place.isLock = false)
    (value : Nat) : Locked cards dead (Function.update mem place value) where
  word c hc hlive l hl := by
    rw [update_of_ne]
    · exact h.word c hc hlive l hl
    · rintro rfl
      rw [Card.lock_isLock hl] at hplace
      cases hplace
  alone := h.alone

theorem dies (h : Locked cards dead mem) (process : Nat) : Locked cards (process :: dead) mem where
  word c hc hlive := h.word c hc fun hd => hlive (List.mem_cons_of_mem _ hd)
  alone l := by
    rw [countP_eq_card_filter]
    refine Nat.le_trans (card_le_card ?_)
      (Nat.le_trans (countP_eq_card_filter _ _).ge (h.alone l))
    exact monotone_filter_right _ fun c hc =>
      ⟨hc.1, fun hd => hc.2 (List.mem_cons_of_mem _ hd)⟩

theorem letGo (h : Locked cards dead mem) {process : Nat} (hdead : process ∈ dead)
    (hword : mem l = process + 1) : Locked cards dead (Function.update mem l 0) where
  word c hc hlive l' hl' := by
    have heq := h.word c hc hlive l' hl'
    rw [update_of_ne]
    · exact heq
    · rintro rfl
      have hp : c.process = process := by omega
      exact hlive (hp ▸ hdead)
  alone := h.alone

end Locked

/-- The counters of a live handle's owner count its pins, and those that an opening process has
cleared are zero. -/
structure Counted (T : Table) (cards : Share) (handles : List Handle) (dead : List Nat)
    (mem : Mem Addr) : Prop where
  pins : ∀ hd ∈ handles, hd.process ∉ dead → ∀ i < T.geometry.slots,
    mem (.pins hd.owner i) = cards.countP fun c => c.counted = some (hd, i)
  bound : ∀ owner i, mem (.pins owner i) < u64Size
  known : ∀ c ∈ cards, ∀ hd, c.handle = some hd → hd ∈ handles
  cleared : ∀ process owner k, .claiming process owner k ∈ cards → process ∉ dead →
    ∀ i < k, mem (.pins owner i) = 0
  owners : ∀ hd ∈ handles, hd.owner < T.owners

namespace Counted

variable {T : Table} {cards : Share} {handles : List Handle} {dead : List Nat} {mem : Mem Addr}
  {c c' : Card}

theorem init (T : Table) (hzero : ∀ owner i, mem (.pins owner i) = 0) : Counted T 0 [] [] mem where
  pins _ h := absurd h List.not_mem_nil
  bound owner i := by
    rw [hzero]
    decide
  known _ h := absurd h (notMem_zero _)
  cleared _ _ _ h := absurd h (notMem_zero _)
  owners _ h := absurd h List.not_mem_nil

theorem drop (h : Counted T (c ::ₘ cards) handles dead mem) (hc : c.counted = none) :
    Counted T cards handles dead mem where
  pins hd hmem hlive i hi := by
    rw [h.pins hd hmem hlive i hi, countP_cons_of_neg]
    rw [hc]
    exact (some_ne_none _).symm
  bound := h.bound
  known c' hc' := h.known c' (mem_cons_of_mem hc')
  cleared process owner k hc' := h.cleared process owner k (mem_cons_of_mem hc')
  owners := h.owners

theorem plain (h : Counted T cards handles dead mem) (hc : c.counted = none)
    (hhandle : ∀ hd, c.handle = some hd → hd ∈ handles)
    (hclaim : ∀ process owner k, c ≠ .claiming process owner (k + 1)) :
    Counted T (c ::ₘ cards) handles dead mem where
  pins hd hmem hlive i hi := by
    rw [h.pins hd hmem hlive i hi, countP_cons_of_neg]
    rw [hc]
    exact (some_ne_none _).symm
  bound := h.bound
  known c' hc' := by
    rcases mem_cons.mp hc' with rfl | hc'
    · exact hhandle
    · exact h.known c' hc'
  cleared process owner k hc' hlive i hi := by
    rcases mem_cons.mp hc' with rfl | hc'
    · cases k with
      | zero => omega
      | succ k => exact absurd rfl (hclaim process owner k)
    · exact h.cleared process owner k hc' hlive i hi
  owners := h.owners

theorem update (h : Counted T cards handles dead mem) {place : Addr}
    (hplace : ∀ owner i, place ≠ .pins owner i) (value : Nat) :
    Counted T cards handles dead (Function.update mem place value) where
  pins hd hmem hlive i hi := by
    rw [update_of_ne (hplace _ _).symm]
    exact h.pins hd hmem hlive i hi
  bound owner i := by
    rw [update_of_ne (hplace _ _).symm]
    exact h.bound owner i
  known := h.known
  cleared process owner k hc hlive i hi := by
    rw [update_of_ne (hplace _ _).symm]
    exact h.cleared process owner k hc hlive i hi
  owners := h.owners

theorem dies (h : Counted T cards handles dead mem) (process : Nat) :
    Counted T cards handles (process :: dead) mem where
  pins hd hmem hlive := h.pins hd hmem fun hd' => hlive (List.mem_cons_of_mem _ hd')
  bound := h.bound
  known := h.known
  cleared process owner k hc hlive :=
    h.cleared process owner k hc fun hd => hlive (List.mem_cons_of_mem _ hd)
  owners := h.owners

theorem count (h : Counted T cards handles dead mem) {hd : Handle} {i value : Nat} {cards' : Share}
    (hvalue : value < u64Size)
    (hown : ∀ hd' ∈ handles, hd'.process ∉ dead → hd'.owner = hd.owner → hd' = hd)
    (hclaim : ∀ process k, .claiming process hd.owner k ∈ cards → process ∈ dead)
    (hsame : ∀ key, key ≠ (hd, i) →
      cards'.countP (fun c => c.counted = some key) = cards.countP fun c => c.counted = some key)
    (hcount : hd ∈ handles → hd.process ∉ dead → i < T.geometry.slots →
      value = cards'.countP fun c => c.counted = some (hd, i))
    (hhandle : ∀ c ∈ cards', ∀ hd', c.handle = some hd' → hd' ∈ handles)
    (hkeep : ∀ process owner k, .claiming process owner k ∈ cards' →
      .claiming process owner k ∈ cards) :
    Counted T cards' handles dead (Function.update mem (.pins hd.owner i) value) where
  pins hd' hmem hlive j hj := by
    by_cases heq : hd'.owner = hd.owner ∧ j = i
    · obtain ⟨howner, rfl⟩ := heq
      obtain rfl := hown hd' hmem hlive howner
      rw [update_self]
      exact hcount hmem hlive hj
    · have hplace : Addr.pins hd'.owner j ≠ .pins hd.owner i := by simpa using heq
      have hkey : (hd', j) ≠ (hd, i) := by
        rintro ⟨⟩
        exact heq ⟨rfl, rfl⟩
      rw [update_of_ne hplace, h.pins hd' hmem hlive j hj, hsame _ hkey]
  bound owner j := by
    rw [update_apply]
    split
    · exact hvalue
    · exact h.bound owner j
  known := hhandle
  cleared process owner k hc hlive j hj := by
    rw [update_of_ne]
    · exact h.cleared process owner k (hkeep _ _ _ hc) hlive j hj
    · rintro ⟨⟩
      exact hlive (hclaim process k (hkeep _ _ _ hc))
  owners := h.owners

theorem clear (h : Counted T cards handles dead mem) {owner i : Nat}
    (hown : ∀ hd ∈ handles, hd.owner = owner → hd.process ∈ dead) :
    Counted T cards handles dead (Function.update mem (.pins owner i) 0) where
  pins hd hmem hlive j hj := by
    rw [update_of_ne]
    · exact h.pins hd hmem hlive j hj
    · rintro ⟨⟩
      exact hlive (hown hd hmem rfl)
  bound owner' j := by
    rw [update_apply]
    split
    · decide
    · exact h.bound owner' j
  known := h.known
  cleared process owner' k hc hlive j hj := by
    rw [update_apply]
    split
    · rfl
    · exact h.cleared process owner' k hc hlive j hj
  owners := h.owners

theorem clearing {process owner k : Nat}
    (h : Counted T (.claiming process owner k ::ₘ cards) handles dead mem)
    (hzero : mem (.pins owner k) = 0) :
    Counted T (.claiming process owner (k + 1) ::ₘ cards) handles dead mem where
  pins hd hmem hlive i hi := by
    rw [h.pins hd hmem hlive i hi, countP_cons_of_neg _ (by simp [Card.counted]),
      countP_cons_of_neg _ (by simp [Card.counted])]
  bound := h.bound
  known c hc := by
    rcases mem_cons.mp hc with rfl | hc
    · exact fun hd hhd => absurd hhd (by simp [Card.handle])
    · exact h.known c (mem_cons_of_mem hc)
  cleared process' owner' k' hc hlive i hi := by
    rcases mem_cons.mp hc with heq | hc
    · cases heq
      rcases Nat.lt_succ_iff_lt_or_eq.mp hi with hlt | rfl
      · exact h.cleared process owner k (mem_cons_self _ _) hlive i hlt
      · exact hzero
    · exact h.cleared process' owner' k' (mem_cons_of_mem hc) hlive i hi
  owners := h.owners

theorem opened {hd : Handle} {k : Nat}
    (h : Counted T (.claiming hd.process hd.owner k ::ₘ cards) handles dead mem)
    (hk : T.geometry.slots ≤ k) (hlive : hd.process ∉ dead) (howner : hd.owner < T.owners)
    (hnew : hd ∉ handles) : Counted T cards (hd :: handles) dead mem := by
  have hdrop := h.drop rfl
  refine ⟨fun hd' hmem hlive' i hi => ?_, h.bound, fun c hc hd' hhd => ?_, hdrop.cleared,
    fun hd' hmem => ?_⟩
  · rcases List.mem_cons.mp hmem with rfl | hmem
    · have hnone : cards.countP (fun c => c.counted = some (hd', i)) = 0 := by
        rw [countP_eq_zero]
        intro c hc hcounted
        refine hnew (hdrop.known c hc hd' ?_)
        cases c <;> cases hcounted <;> rfl
      rw [hnone]
      exact h.cleared _ _ k (mem_cons_self _ _) hlive i (Nat.lt_of_lt_of_le hi hk)
    · exact hdrop.pins hd' hmem hlive' i hi
  · exact List.mem_cons_of_mem _ (hdrop.known c hc hd' hhd)
  · rcases List.mem_cons.mp hmem with rfl | hmem
    · exact howner
    · exact h.owners hd' hmem

end Counted

end OrbitQuota.Shm
