import Orbit.Stream.Readiness

/-! What the words of a direction say after a step, and what a process does of a ring: it wakes the
task that waits before its driver parks. -/

namespace OrbitStream.Readiness

open Orbit.Atomic Function

section

variable {head tail len flags flag mask bits : Nat}

theorem raised (flag : Nat) (h : flags &&& mask ≠ 0) : (flags ||| flag) &&& mask ≠ 0 := by
  rw [Nat.and_or_distrib_right]
  exact fun hzero => h (Nat.or_eq_zero_iff.mp hzero).1

theorem raised_of_mem (h : flags &&& flag ≠ 0) (hmask : flag &&& mask = flag) :
    flags &&& mask ≠ 0 := by
  intro hzero
  rw [← hmask, Nat.and_comm flag, ← Nat.and_assoc, hzero, Nat.zero_and] at h
  exact h rfl

theorem cleared (flags : Nat) (hbits : bits &&& mask = 0) :
    (flags ^^^ (flags &&& bits)) &&& mask = flags &&& mask := by
  rw [Nat.and_xor_distrib_right, Nat.and_assoc, hbits, Nat.and_zero, Nat.xor_zero]

theorem sub64_eq_zero (hhead : head < 2 ^ 64) (htail : tail < 2 ^ 64) :
    sub64 head tail = 0 ↔ head = tail := by
  rw [sub64]
  omega

theorem sub64_add_head (hlen : sub64 head tail + len < 2 ^ 64) :
    sub64 (add64 head len) tail = sub64 head tail + len := by
  rw [sub64, add64]
  rw [sub64] at hlen ⊢
  omega

theorem sub64_add_tail (hlen : len ≤ sub64 head tail) :
    sub64 head (add64 tail len) = sub64 head tail - len := by
  rw [sub64, add64]
  rw [sub64] at hlen ⊢
  omega

end

theorem Wait.ready_eq (g : Geometry) (head tail flags : Nat) (wait : Wait) :
    wait.ready g head tail flags = (wait.room g head tail || flags &&& wait.mask != 0) := by
  cases wait <;> rfl

theorem gone_mask (wait : Wait) : flagReaderGone &&& wait.mask = flagReaderGone := by
  have hall : flagReaderGone &&& (flagFin ||| flagReset ||| flagReaderGone) = flagReaderGone := by
    decide
  cases wait with
  | writable | exact => exact hall
  | closed => decide

/-- The bits of a slot that the driver has taken and not yet drained. -/
def Driver.holds (index : Nat) : Driver → Bool
  | drains _ word bits | wakes _ word bits _ =>
    word = index / 64 && bits.testBit (index % 64)
  | _ => false

def Driver.hands (waker : Nat) : Driver → Bool
  | wakes _ _ _ taken => waker == taken
  | _ => false

def Process.Placed (p : Process) : Prop :=
  p.woken = true ∨ p.driver.hands p.waker = true ∨ p.place = some p.waker

def Process.Coming (index : Nat) (p : Process) : Prop :=
  p.woken = true ∨ p.driver.hands p.waker = true ∨ p.driver.holds index = true ∨
    hasBit p.pending index = true

/-- What happens to the process takes neither the waker nor the news from its task. -/
structure Process.Keeps (index : Nat) (p p' : Process) : Prop where
  placed : p.Placed → p'.Placed
  coming : p.Placed → p.Coming index → p'.Coming index

section

variable {g : Geometry} {i : Fin g.totalSlots} {p p' : Process} {index : Nat}

theorem Process.Keeps.refl (index : Nat) (p : Process) : p.Keeps index p := ⟨id, fun _ => id⟩

theorem Process.Keeps.moves {driver : Driver}
    (hhands : p.driver.hands p.waker = true → driver.hands p.waker = true)
    (hholds : p.driver.holds index = true → driver.holds index = true) (generation listening : Nat) :
    p.Keeps index { p with generation := generation, listening := listening, driver := driver } where
  placed := Or.imp_right (Or.imp_left hhands)
  coming _ := Or.imp_right (Or.imp hhands (Or.imp_left hholds))

theorem Process.Keeps.free {driver : Driver} (hhands : p.driver.hands p.waker = false)
    (hholds : p.driver.holds index = false) (generation listening : Nat) :
    p.Keeps index { p with generation := generation, listening := listening, driver := driver } :=
  .moves (by rw [hhands]; rintro ⟨⟩) (by rw [hholds]; rintro ⟨⟩) generation listening

theorem Process.Keeps.woken (index : Nat) (p : Process) :
    p.Keeps index { p with driver := p.driver.woken } := by
  unfold Driver.woken
  split
  · rename_i hparked
    exact .free (by rw [hparked]; rfl) (by rw [hparked]; rfl) _ _
  · exact .refl index p

theorem Process.Keeps.sets {pending : Nat → Nat}
    (h : hasBit p.pending index = true → hasBit pending index = true) :
    p.Keeps index { p with pending := pending } where
  placed := id
  coming _ := Or.imp_right (Or.imp_right (Or.imp_right h))

theorem hasBit_or {words : Nat → Nat} {index : Nat} (word bits : Nat)
    (h : hasBit words index = true) :
    hasBit (update words word (words word ||| bits)) index = true := by
  unfold hasBit at h ⊢
  by_cases hword : index / 64 = word
  · rw [← hword, update_self, Nat.testBit_or, h, Bool.true_or]
  · rw [update_of_ne hword]
    exact h

theorem hasBit_set (words : Nat → Nat) (index : Nat) :
    hasBit (update words (index / 64) (words (index / 64) ||| 2 ^ (index % 64))) index =
      true := by
  rw [hasBit, update_self, testBit_set]
  simp

theorem Process.Keeps.swaps {seen word : Nat} (h : p.driver = .swaps seen word) :
    p.Keeps index { p with
      pending := update p.pending word 0
      driver := .drains seen word (p.pending word) } where
  placed := by
    unfold Placed
    rw [h]
    exact Or.imp_right (Or.imp_left (by rintro ⟨⟩))
  coming _ := by
    unfold Coming
    rw [h]
    rintro (hwoken | hhands | hholds | hbit)
    · exact .inl hwoken
    · cases hhands
    · cases hholds
    · by_cases hword : index / 64 = word
      · refine .inr (.inr (.inl ?_))
        subst hword
        exact Bool.and_eq_true_iff.mpr ⟨decide_eq_true rfl, hbit⟩
      · refine .inr (.inr (.inr ?_))
        unfold hasBit
        dsimp only
        rw [update_of_ne hword]
        exact hbit

theorem holds_rest {word bits : Nat} (hbit : bits.testBit (index % 64) = true)
    (hword : word = index / 64) (hother : word * 64 + trailingZeros bits ≠ index) :
    (clearLowest bits).testBit (index % 64) = true := by
  rw [testBit_clearLowest (Nat.mod_lt _ (by decide)) hbit]
  refine decide_eq_true fun hsame => hother ?_
  omega

theorem Process.Keeps.drains {seen word bits : Nat} (h : p.driver = .drains seen word bits)
    (hother : word * 64 + trailingZeros bits ≠ index) :
    p.Keeps index { p with driver := .drains seen word (clearLowest bits) } := by
  refine .moves (by rw [h]; exact id) (fun hholds => ?_) _ _
  rw [h] at hholds
  obtain ⟨hword, hbit⟩ := Bool.and_eq_true_iff.mp hholds
  exact Bool.and_eq_true_iff.mpr ⟨hword, holds_rest hbit (of_decide_eq_true hword) hother⟩

theorem Process.Keeps.takes {seen word bits waker : Nat} (h : p.driver = .drains seen word bits)
    (hplace : p.place = some waker) (driver : Driver)
    (hdriver : driver = .wakes seen word (clearLowest bits) waker) :
    p.Keeps index { p with place := none, driver := driver } := by
  have htaken : p.Placed → p.woken = true ∨ driver.hands p.waker = true := by
    rintro (hwoken | hhands | hmine)
    · exact .inl hwoken
    · rw [h] at hhands
      cases hhands
    · rw [hplace] at hmine
      cases hmine
      rw [hdriver]
      exact .inr (beq_self_eq_true _)
  exact ⟨fun hp => (htaken hp).imp_right .inl, fun hp _ => (htaken hp).imp_right .inl⟩

theorem Process.Keeps.none_taken {seen word bits : Nat} (h : p.driver = .drains seen word bits)
    (hplace : p.place = none) (driver : Driver) : p.Keeps index { p with driver := driver } := by
  have hwoken : p.Placed → p.woken = true := by
    rintro (hwoken | hhands | hmine)
    · exact hwoken
    · rw [h] at hhands
      cases hhands
    · rw [hplace] at hmine
      cases hmine
  exact ⟨fun hp => .inl (hwoken hp), fun hp _ => .inl (hwoken hp)⟩

theorem Process.Keeps.wakes {seen word bits waker : Nat}
    (h : p.driver = .wakes seen word bits waker) :
    p.Keeps index { p.wake waker with driver := .drains seen word bits } := by
  have hwoken : p.woken = true → (p.woken || p.waker == waker) = true := by
    intro hwoken
    rw [hwoken, Bool.true_or]
  have hhanded : p.driver.hands p.waker = true → (p.woken || p.waker == waker) = true := by
    intro hhands
    rw [h] at hhands
    exact Bool.or_eq_true_iff.mpr (.inr hhands)
  refine ⟨?_, fun _ => ?_⟩
  · rintro (hp | hhands | hmine)
    · exact .inl (hwoken hp)
    · exact .inl (hhanded hhands)
    · exact .inr (.inr hmine)
  · rintro (hp | hhands | hholds | hbit)
    · exact .inl (hwoken hp)
    · exact .inl (hhanded hhands)
    · rw [h] at hholds
      exact .inr (.inr (.inl hholds))
    · exact .inr (.inr (.inr hbit))

theorem Process.Keeps.driver (hstep : stepDriver g i p = some p') : p.Keeps i p' := by
  unfold stepDriver at hstep
  generalize hphase : p.driver = phase at hstep
  cases phase with
  | off | parked =>
    cases hstep
  | enters | loads | checks | waits =>
    cases hstep
    exact .free (by rw [hphase]; rfl) (by rw [hphase]; rfl) _ _
  | swaps seen word =>
    dsimp only at hstep
    split at hstep <;> cases hstep
    · exact .swaps hphase
    · exact .free (by rw [hphase]; rfl) (by rw [hphase]; rfl) _ _
  | drains seen word bits =>
    dsimp only at hstep
    split at hstep
    · rename_i hzero
      cases hstep
      refine .free (by rw [hphase]; rfl) ?_ _ _
      rw [hphase, hzero, Driver.holds, Nat.zero_testBit, Bool.and_false]
    · split at hstep
      · split at hstep <;> cases hstep
        · exact .takes hphase ‹_› _ rfl
        · exact .none_taken hphase ‹_› _
      · cases hstep
        exact .drains hphase ‹_›
  | wakes seen word bits waker =>
    cases hstep
    exact .wakes hphase

/-- The call is going to set the pending bit. -/
def Notify.tells : Notify → Bool
  | counts ring => ring
  | sets => true
  | rings | listens | wakes => false

theorem Process.Keeps.notify (changes : Nat) (n : Notify) :
    p.Keeps i (stepNotify g i changes p n).2.1 := by
  cases n with
  | counts | listens => exact .refl i.val p
  | sets => exact .sets (hasBit_or _ _)
  | rings => exact .moves id id _ _
  | wakes => exact .woken i.val p

theorem tells_notify {changes : Nat} {n : Notify} (h : n.tells = true) :
    (stepNotify g i changes p n).2.1.Coming i ∨
      ∃ n', (stepNotify g i changes p n).2.2 = some n' ∧ n'.tells = true := by
  cases n with
  | counts ring =>
    have hring : ring = true := h
    refine .inr ⟨.sets, ?_, rfl⟩
    rw [stepNotify, hring]
    rfl
  | sets => exact .inl (.inr (.inr (.inr (hasBit_set _ _))))
  | rings | listens | wakes => cases h

end

end OrbitStream.Readiness
