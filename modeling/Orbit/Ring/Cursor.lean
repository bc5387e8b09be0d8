import Mathlib.Algebra.Group.Nat.Defs
import Mathlib.Data.List.Basic

/-! Net ids: a kind, a node and a counter in one word of 64 bits. -/

namespace OrbitRing

def counterSize : Nat := 2 ^ 40

/-- The package of net ids, as it packs their fields and takes them apart. -/
structure NetIds where
  make : Nat → Nat → Nat → Nat
  kind : Nat → Nat
  node : Nat → Nat
  counter : Nat → Nat
  make_lt : ∀ k n c, k < 2 ^ 8 → n < 2 ^ 16 → c < counterSize → make k n c < 2 ^ 64
  kind_make : ∀ k n c, k < 2 ^ 8 → n < 2 ^ 16 → c < counterSize → kind (make k n c) = k
  node_make : ∀ k n c, k < 2 ^ 8 → n < 2 ^ 16 → c < counterSize → node (make k n c) = n
  counter_make : ∀ k n c, k < 2 ^ 8 → n < 2 ^ 16 → c < counterSize → counter (make k n c) = c

def NetIds.packed : NetIds where
  make k n c := k * 2 ^ 56 + n * 2 ^ 40 + c
  kind id := id / 2 ^ 56
  node id := id / 2 ^ 40 % 2 ^ 16
  counter id := id % 2 ^ 40
  make_lt k n c hk hn hc := by
    simp only [counterSize] at hc
    omega
  kind_make k n c hk hn hc := by
    simp only [counterSize] at hc
    omega
  node_make k n c hk hn hc := by
    simp only [counterSize] at hc
    omega
  counter_make k n c hk hn hc := by
    simp only [counterSize] at hc
    omega

/-! Cursors over rings: walking from the next counter of a reader toward the head. -/

/-- One record in a ring. -/
structure Frame where
  id : Nat
  kind : Nat
  ver : Nat
  payload : List UInt8
  deriving DecidableEq, Repr

/-- Result of reading one logical counter from a ring source. -/
inductive RingRead where
  | ready (frame : Frame)
  | pending
  | unavailable
  deriving DecidableEq, Repr

/-- Counters skipped while walking a ring. -/
structure RingLoss where
  overwritten : Nat
  unavailable : Nat
  deriving DecidableEq, Repr

def RingLoss.isEmpty (loss : RingLoss) : Bool := loss.overwritten = 0 && loss.unavailable = 0

structure RingPoll where
  frames : List Frame
  loss : RingLoss
  fromCounter : Nat
  toCounter : Nat

/-- What the loop of `poll_ring` has collected, and the counter it stopped at. -/
structure Walk where
  frames : List Frame
  unavailable : Nat
  next : Nat

section

variable (ids : NetIds) (kind : Nat) (read : Nat → RingRead)

/-- The loop of `poll_ring`, over the next `n` counters. -/
def walk : Nat → Nat → Walk
  | 0, next => ⟨[], 0, next⟩
  | n + 1, next =>
    match read next with
    | .ready frame =>
      let rest := walk n (next + 1)
      if ids.kind frame.id ≠ kind ∨ ids.counter frame.id ≠ next then
        { rest with unavailable := rest.unavailable + 1 }
      else { rest with frames := frame :: rest.frames }
    | .pending => ⟨[], 0, next⟩
    | .unavailable =>
      let rest := walk n (next + 1)
      { rest with unavailable := rest.unavailable + 1 }

/-- Walk a cursor toward the head that was read at the start.  Each counter is read once at most. -/
def pollRing (head capacity cursor : Nat) : Nat × RingPoll :=
  if head ≤ cursor then (head, ⟨[], ⟨0, 0⟩, cursor, head⟩)
  else
    let oldestAvailable := head - capacity
    let next := max cursor oldestAvailable
    let walked := walk ids kind read (head - next) next
    (walked.next, ⟨walked.frames, ⟨oldestAvailable - cursor, walked.unavailable⟩, cursor,
      walked.next⟩)

end

variable {ids : NetIds} {kind : Nat} {read : Nat → RingRead} {n next head capacity cursor : Nat}

theorem walk_counts (h : ∀ c, read c ≠ .pending) :
    (walk ids kind read n next).next = next + n ∧
      (walk ids kind read n next).frames.length + (walk ids kind read n next).unavailable = n := by
  induction n generalizing next with
  | zero => exact ⟨rfl, rfl⟩
  | succ n ih =>
    obtain ⟨hnext, hlength⟩ := @ih (next + 1)
    unfold walk
    cases hread : read next with
    | pending => exact absurd hread (h next)
    | unavailable =>
      dsimp only
      omega
    | ready frame =>
      dsimp only
      split
      · dsimp only
        omega
      · dsimp only
        rw [List.length_cons]
        omega

theorem walk_frames : ∃ counters : List Nat, counters.Pairwise (· < ·) ∧
    (∀ c ∈ counters, next ≤ c ∧ c < next + n) ∧
    List.Forall₂ (fun c frame => read c = .ready frame ∧ ids.kind frame.id = kind ∧
      ids.counter frame.id = c) counters (walk ids kind read n next).frames := by
  induction n generalizing next with
  | zero => exact ⟨[], .nil, fun _ h => (nomatch h), .nil⟩
  | succ n ih =>
    obtain ⟨counters, horder, hrange, hframes⟩ := @ih (next + 1)
    have hrange' : ∀ c ∈ counters, next + 1 ≤ c ∧ c < next + (n + 1) := fun c hc => by
      have := hrange c hc
      omega
    have hwide : ∀ c ∈ counters, next ≤ c ∧ c < next + (n + 1) := fun c hc => by
      have := hrange' c hc
      omega
    unfold walk
    cases hread : read next with
    | pending => exact ⟨[], .nil, fun _ h => (nomatch h), .nil⟩
    | unavailable => exact ⟨counters, horder, hwide, hframes⟩
    | ready frame =>
      dsimp only
      split
      · exact ⟨counters, horder, hwide, hframes⟩
      · rename_i hid
        rw [not_or, not_not, not_not] at hid
        refine ⟨next :: counters, List.pairwise_cons.mpr ⟨fun c hc => (hrange' c hc).1, horder⟩,
          fun c hc => ?_, .cons ⟨hread, hid⟩ hframes⟩
        rcases List.mem_cons.mp hc with rfl | hc
        · omega
        · exact hwide c hc

theorem walk_lossless (hpending : ∀ c, read c ≠ .pending)
    (h : (walk ids kind read n next).unavailable = 0) :
    List.Forall₂ (fun c frame => read c = .ready frame) (List.range' next n)
      (walk ids kind read n next).frames := by
  induction n generalizing next with
  | zero => exact .nil
  | succ n ih =>
    rw [List.range'_succ]
    unfold walk at h ⊢
    cases hread : read next with
    | pending => exact absurd hread (hpending next)
    | unavailable =>
      rw [hread] at h
      cases h
    | ready frame =>
      rw [hread] at h
      dsimp only at h ⊢
      split
      · rename_i hid
        rw [if_pos hid] at h
        cases h
      · rename_i hid
        rw [if_neg hid] at h
        exact .cons hread (ih h)

theorem pollRing_counts (h : ∀ c, read c ≠ .pending) :
    (pollRing ids kind read head capacity cursor).1 = head ∧
      (pollRing ids kind read head capacity cursor).2.fromCounter = cursor ∧
      (pollRing ids kind read head capacity cursor).2.toCounter = head ∧
      (pollRing ids kind read head capacity cursor).2.frames.length +
          (pollRing ids kind read head capacity cursor).2.loss.overwritten +
          (pollRing ids kind read head capacity cursor).2.loss.unavailable = head - cursor := by
  unfold pollRing
  by_cases hle : head ≤ cursor
  · rw [if_pos hle]
    exact ⟨rfl, rfl, rfl, (Nat.sub_eq_zero_of_le hle).symm⟩
  · rw [if_neg hle]
    obtain ⟨hnext, hlength⟩ := @walk_counts ids kind read (head - max cursor (head - capacity))
      (max cursor (head - capacity)) h
    dsimp only
    omega

/-- The frames of a poll are read at counters that increase, from the cursor and the oldest frame that
a ring still has up to the head. -/
theorem pollRing_frames : ∃ counters : List Nat, counters.Pairwise (· < ·) ∧
    (∀ c ∈ counters, max cursor (head - capacity) ≤ c ∧ c < head) ∧
    List.Forall₂ (fun c frame => read c = .ready frame ∧ ids.kind frame.id = kind ∧
      ids.counter frame.id = c) counters
        (pollRing ids kind read head capacity cursor).2.frames := by
  unfold pollRing
  by_cases hle : head ≤ cursor
  · rw [if_pos hle]
    exact ⟨[], .nil, fun _ h => (nomatch h), .nil⟩
  · rw [if_neg hle]
    obtain ⟨counters, horder, hrange, hframes⟩ := @walk_frames ids kind read
      (head - max cursor (head - capacity)) (max cursor (head - capacity))
    refine ⟨counters, horder, fun c hc => ⟨(hrange c hc).1, ?_⟩, hframes⟩
    have := hrange c hc
    omega

end OrbitRing
