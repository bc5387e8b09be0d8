import Orbit.Quota.Memory.Calls
import Mathlib.Algebra.BigOperators.Group.Multiset.Basic

/-! What the gates of a store exclude: a slot that is pinned has no writer, and what a writer has
read of its slot stays as it is until the writer changes it. -/

namespace OrbitQuota.Memory

open Orbit.Atomic Function
open Multiset hiding Mem

/-- What a call has. -/
inductive Card where
  | pin (slot : Nat)
  /-- The slot is reserved, and these of its words are known. -/
  | writer (slot : Nat) (known : Addr → Option Nat)

abbrev Share := Multiset Card

def Card.pins (slot : Nat) : Card → Bool
  | pin s => s = slot
  | writer .. => false

def Card.writes (slot : Nat) : Card → Bool
  | pin _ => false
  | writer s _ => s = slot

def pinsOf (slot : Nat) (cards : Share) : Nat := cards.countP fun c => c.pins slot = true

def writersOf (slot : Nat) (cards : Share) : Nat := cards.countP fun c => c.writes slot = true

section

variable {cards : Share} {slot s : Nat} {known : Addr → Option Nat} {c : Card}

theorem pinsOf_pin : pinsOf slot (.pin slot ::ₘ cards) = pinsOf slot cards + 1 :=
  countP_cons_of_pos _ (decide_eq_true rfl)

theorem pinsOf_writer : pinsOf slot (.writer s known ::ₘ cards) = pinsOf slot cards :=
  countP_cons_of_neg _ (by rintro ⟨⟩)

theorem pinsOf_other (h : c.pins slot = false) : pinsOf slot (c ::ₘ cards) = pinsOf slot cards :=
  countP_cons_of_neg _ (by rw [h]; rintro ⟨⟩)

theorem writersOf_writer : writersOf slot (.writer slot known ::ₘ cards) = writersOf slot cards + 1 :=
  countP_cons_of_pos _ (decide_eq_true rfl)

theorem writersOf_pin : writersOf slot (.pin s ::ₘ cards) = writersOf slot cards :=
  countP_cons_of_neg _ (by rintro ⟨⟩)

theorem writersOf_other (h : c.writes slot = false) :
    writersOf slot (c ::ₘ cards) = writersOf slot cards :=
  countP_cons_of_neg _ (by rw [h]; rintro ⟨⟩)

theorem no_writer (h : writersOf slot cards = 0) : .writer slot known ∉ cards := fun hcard =>
  countP_eq_zero.mp h _ hcard (decide_eq_true rfl)

end

def Gate (cards : Share) (slot gate : Nat) : Prop :=
  writersOf slot cards = 0 ∧ pinsOf slot cards ≤ readers ∧
      (gate = pinsOf slot cards ∨
        pinsOf slot cards = 0 ∧ (gate = retiredFlag ∨ gate = poisonedFlag)) ∨
    writersOf slot cards = 1 ∧ pinsOf slot cards = 0 ∧ gate = writerFlag

namespace Gate

variable {cards : Share} {slot s gate : Nat} {known known' : Addr → Option Nat}

theorem of_quiescent (h : gate = 0 ∨ gate = retiredFlag ∨ gate = poisonedFlag) :
    Gate 0 slot gate :=
  .inl ⟨rfl, Nat.zero_le _, h.imp_right fun h => ⟨rfl, h⟩⟩

theorem other {c : Card} (hpins : c.pins slot = false) (hwrites : c.writes slot = false) :
    Gate (c ::ₘ cards) slot gate ↔ Gate cards slot gate := by
  unfold Gate
  rw [pinsOf_other hpins, writersOf_other hwrites]

theorem other_pin (h : s ≠ slot) : Gate (.pin slot ::ₘ cards) s gate ↔ Gate cards s gate :=
  other (c := .pin slot) (decide_eq_false h.symm) rfl

theorem other_writer (h : s ≠ slot) :
    Gate (.writer slot known ::ₘ cards) s gate ↔ Gate cards s gate :=
  other (c := .writer slot known) rfl (decide_eq_false h.symm)

theorem pins (h : Gate cards slot gate) (hpoisoned : gate &&& poisonedFlag = 0)
    (hretired : gate &&& retiredFlag = 0) (hwriter : gate &&& writerFlag = 0)
    (hfull : gate ≠ readers) : Gate (.pin slot ::ₘ cards) slot (gate + 1) := by
  rcases h with ⟨hwrites, hle, hcount | ⟨-, rfl | rfl⟩⟩ | ⟨-, -, rfl⟩
  · refine .inl ⟨?_, ?_, .inl ?_⟩
    · rw [writersOf_pin, hwrites]
    · rw [pinsOf_pin]
      omega
    · rw [pinsOf_pin, hcount]
  · exact absurd hretired (by decide)
  · exact absurd hpoisoned (by decide)
  · exact absurd hwriter (by decide)

theorem pinned (h : Gate (.pin slot ::ₘ cards) slot gate) :
    writersOf slot cards = 0 ∧ gate = pinsOf slot cards + 1 ∧ gate ≤ readers := by
  unfold Gate at h
  rw [writersOf_pin, pinsOf_pin] at h
  omega

theorem unpins (h : Gate (.pin slot ::ₘ cards) slot gate) :
    Gate cards slot ((gate + (u64Size - 1)) % 2 ^ 64) := by
  obtain ⟨hwrites, hgate, hle⟩ := h.pinned
  have hless : (gate + (u64Size - 1)) % 2 ^ 64 = pinsOf slot cards := by
    rw [u64Size]
    rw [readers, retiredFlag] at hle
    omega
  exact .inl ⟨hwrites, by omega, .inl hless⟩

theorem reserves (h : Gate cards slot 0) : Gate (.writer slot known ::ₘ cards) slot writerFlag := by
  rcases h with ⟨hwrites, -, hcount⟩ | ⟨-, -, hgate⟩
  · refine .inr ⟨?_, ?_, rfl⟩
    · rw [writersOf_writer, hwrites]
    · rw [pinsOf_writer]
      exact hcount.elim Eq.symm And.left
  · cases hgate

theorem reserved (h : Gate (.writer slot known ::ₘ cards) slot gate) :
    writersOf slot cards = 0 ∧ pinsOf slot cards = 0 ∧ gate = writerFlag := by
  unfold Gate at h
  rw [writersOf_writer, pinsOf_writer] at h
  omega

theorem lets_go {value : Nat} (h : Gate (.writer slot known ::ₘ cards) slot gate)
    (hvalue : value = 0 ∨ value = retiredFlag) : Gate cards slot value := by
  obtain ⟨hwrites, hpins, -⟩ := h.reserved
  exact .inl ⟨hwrites, by omega, by rw [hpins]; exact hvalue.imp_right fun h => ⟨rfl, .inl h⟩⟩

theorem learns (h : Gate (.writer s known ::ₘ cards) slot gate) :
    Gate (.writer s known' ::ₘ cards) slot gate := by
  unfold Gate at h ⊢
  rw [pinsOf_writer, writersOf, countP_cons] at h ⊢
  exact h

end Gate

/-- A replacement of live debt discards the coldest slot of a window that has nothing else to
offer. -/
structure Replacement.Discards (T : Table) (r : Replacement) : Prop where
  /-- The scan has seen every slot of the window. -/
  window : r.scan.looks.map Look.slot = T.window r.key
  live : ∀ slot occupied observation, .inspected slot occupied observation ∈ r.scan.looks →
    occupied = true ∧ r.scan.now < observation.tat
  /-- The slot still holds what the scan has seen of it, and was touched before those ahead of it in
  the window, and not after those behind it. -/
  coldest : ∃ ahead behind, r.scan.looks = ahead ++ .inspected r.slot true r.debt :: behind ∧
    (∀ slot occupied observation, .inspected slot occupied observation ∈ ahead →
      r.debt.seen < observation.seen) ∧
    ∀ slot occupied observation, .inspected slot occupied observation ∈ behind →
      r.debt.seen ≤ observation.seen

/-- Live debt is only discarded by a guard. -/
def Replacement.Sound (T : Table) (r : Replacement) : Prop :=
  r.occupied = true → r.now < r.debt.tat → T.retention = .guard ∧ r.Discards T

structure MemoryInv (T : Table) (cards : Share) (h : History) (mem : Mem Addr) : Prop where
  gates : ∀ slot, Gate cards slot (mem (.gate slot))
  known : ∀ slot known, .writer slot known ∈ cards → ∀ a v, known a = some v →
    a.guarded = some slot ∧ mem a = v
  sound : ∀ r, .replaced r ∈ h → r.Sound T

namespace MemoryInv

variable {T : Table} {cards : Share} {h : History} {mem : Mem Addr} {slot value : Nat}
  {known : Addr → Option Nat} {place : Addr}

theorem init (hmem : Quiescent mem) : MemoryInv T 0 [] mem where
  gates slot := .of_quiescent (hmem slot)
  known _ _ hcard := absurd hcard (notMem_zero _)
  sound _ hr := absurd hr List.not_mem_nil

theorem update (hI : MemoryInv T cards h mem) (hgate : ∀ slot, place ≠ .gate slot)
    (hfree : ∀ slot, place.guarded = some slot → writersOf slot cards = 0) (value : Nat) :
    MemoryInv T cards h (Function.update mem place value) where
  gates slot := by
    rw [update_of_ne (hgate slot).symm]
    exact hI.gates slot
  known slot known hcard a v hv := by
    obtain ⟨ha, hmem⟩ := hI.known slot known hcard a v hv
    refine ⟨ha, ?_⟩
    rw [update_of_ne]
    · exact hmem
    · rintro rfl
      exact no_writer (hfree slot ha) hcard
  sound := hI.sound

theorem plain (hI : MemoryInv T cards h mem) (hgate : ∀ slot, place ≠ .gate slot)
    (hguarded : place.guarded = none) (value : Nat) :
    MemoryInv T cards h (Function.update mem place value) :=
  hI.update hgate (fun _ h => by rw [hguarded] at h; cases h) value

theorem guarded_ne (hplace : place.guarded = some slot) (s : Nat) : place ≠ .gate s := by
  rintro rfl
  cases hplace

theorem pinned_writes (hI : MemoryInv T (.pin slot ::ₘ cards) h mem)
    (hplace : place.guarded = some slot) (value : Nat) :
    MemoryInv T (.pin slot ::ₘ cards) h (Function.update mem place value) := by
  refine hI.update (guarded_ne hplace) (fun s hs => ?_) value
  rw [hplace] at hs
  cases hs
  rw [writersOf_pin]
  exact (hI.gates slot).pinned.1

theorem exchange {cards' : Share} (hI : MemoryInv T cards h mem) (hself : Gate cards' slot value)
    (hother : ∀ s, s ≠ slot → ∀ gate, Gate cards s gate → Gate cards' s gate)
    (hwriters : ∀ s known, .writer s known ∈ cards' → .writer s known ∈ cards ∨
      known = fun _ => none) :
    MemoryInv T cards' h (Function.update mem (.gate slot) value) where
  gates s := by
    by_cases hs : s = slot
    · subst hs
      rw [update_self]
      exact hself
    · rw [update_of_ne (fun h => hs (Addr.gate.inj h))]
      exact hother s hs _ (hI.gates s)
  known s known hcard a v hv := by
    rcases hwriters s known hcard with hcard | rfl
    · obtain ⟨ha, hmem⟩ := hI.known s known hcard a v hv
      refine ⟨ha, ?_⟩
      rw [update_of_ne (guarded_ne ha slot)]
      exact hmem
    · cases hv
  sound := hI.sound

theorem pins (hI : MemoryInv T cards h mem) (hpoisoned : mem (.gate slot) &&& poisonedFlag = 0)
    (hretired : mem (.gate slot) &&& retiredFlag = 0)
    (hwriter : mem (.gate slot) &&& writerFlag = 0) (hfull : mem (.gate slot) ≠ readers) :
    MemoryInv T (.pin slot ::ₘ cards) h
      (Function.update mem (.gate slot) (mem (.gate slot) + 1)) := by
  refine hI.exchange ((hI.gates slot).pins hpoisoned hretired hwriter hfull) (fun s hs gate h => ?_)
    fun s known hcard => .inl ?_
  · exact (Gate.other_pin hs).mpr h
  · exact (mem_cons.mp hcard).resolve_left (by rintro ⟨⟩)

theorem unpins (hI : MemoryInv T (.pin slot ::ₘ cards) h mem) :
    MemoryInv T cards h
      (Function.update mem (.gate slot) ((mem (.gate slot) + (u64Size - 1)) % 2 ^ 64)) := by
  refine hI.exchange (hI.gates slot).unpins (fun s hs gate h => ?_)
    fun s known hcard => .inl (mem_cons_of_mem hcard)
  exact (Gate.other_pin hs).mp h

theorem reserves (hI : MemoryInv T cards h mem) (hgate : mem (.gate slot) = 0) :
    MemoryInv T (.writer slot (fun _ => none) ::ₘ cards) h
      (Function.update mem (.gate slot) writerFlag) := by
  have hself := hI.gates slot
  rw [hgate] at hself
  refine hI.exchange hself.reserves (fun s hs gate h => ?_) fun s known hcard => ?_
  · exact (Gate.other_writer hs).mpr h
  · rcases mem_cons.mp hcard with heq | hcard
    · cases heq
      exact .inr rfl
    · exact .inl hcard

theorem lets_go (hI : MemoryInv T (.writer slot known ::ₘ cards) h mem)
    (hvalue : value = 0 ∨ value = retiredFlag) :
    MemoryInv T cards h (Function.update mem (.gate slot) value) := by
  refine hI.exchange ((hI.gates slot).lets_go hvalue) (fun s hs gate h => ?_)
    fun s known hcard => .inl (mem_cons_of_mem hcard)
  exact (Gate.other_writer hs).mp h

theorem own (hI : MemoryInv T (.writer slot known ::ₘ cards) h mem) {v : Nat}
    (hv : known place = some v) : mem place = v :=
  (hI.known slot known (mem_cons_self _ _) place v hv).2

theorem learns (hI : MemoryInv T (.writer slot known ::ₘ cards) h mem)
    (hplace : place.guarded = some slot) :
    MemoryInv T (.writer slot (Function.update known place (some (mem place))) ::ₘ cards) h mem where
  gates s := (hI.gates s).learns
  known s known' hcard a v hv := by
    rcases mem_cons.mp hcard with heq | hcard
    · cases heq
      by_cases ha : a = place
      · subst ha
        rw [update_self] at hv
        exact ⟨hplace, Option.some.inj hv⟩
      · rw [update_of_ne ha] at hv
        exact hI.known slot known (mem_cons_self _ _) a v hv
    · exact hI.known s known' (mem_cons_of_mem hcard) a v hv
  sound := hI.sound

theorem writes (hI : MemoryInv T (.writer slot known ::ₘ cards) h mem)
    (hplace : place.guarded = some slot) (value : Nat) :
    MemoryInv T (.writer slot (Function.update known place none) ::ₘ cards) h
      (Function.update mem place value) where
  gates s := by
    rw [update_of_ne (guarded_ne hplace s).symm]
    exact (hI.gates s).learns
  known s known' hcard a v hv := by
    rcases mem_cons.mp hcard with heq | hrest
    · cases heq
      by_cases ha : a = place
      · subst ha
        rw [update_self] at hv
        cases hv
      · rw [update_of_ne ha] at hv ⊢
        exact hI.known slot known (mem_cons_self _ _) a v hv
    · obtain ⟨ha, hmem⟩ := hI.known s known' (mem_cons_of_mem hrest) a v hv
      refine ⟨ha, ?_⟩
      rw [update_of_ne]
      · exact hmem
      · rintro rfl
        rw [hplace] at ha
        cases ha
        exact no_writer (hI.gates slot).reserved.1 hrest
  sound := hI.sound

theorem records (hI : MemoryInv T cards h mem) {event : Event}
    (hevent : ∀ r, event = .replaced r → r.Sound T) : MemoryInv T cards (event :: h) mem where
  gates := hI.gates
  known := hI.known
  sound r hr := by
    rcases List.mem_cons.mp hr with heq | hr
    · exact hevent r heq.symm
    · exact hI.sound r hr

end MemoryInv

end OrbitQuota.Memory
