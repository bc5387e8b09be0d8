import Orbit.Atomic.Threads
import Orbit.Atomic.Word

/-! Copies, one byte at a time: to and from consecutive places, and to and from the places of a ring
whose length is a power of two. -/

namespace Orbit.Atomic

open List Function

variable {A E : Type}

/-- Store the bytes at consecutive places. -/
def copyIn (place : Nat → A) : Nat → List UInt8 → Prog A E Unit
  | _, [] => return ()
  | index, byte :: rest => do
    store (place index) byte.toNat
    copyIn place (index + 1) rest

/-- Load `n` bytes from consecutive places. -/
def copyOut (place : Nat → A) : Nat → Nat → Prog A E (List UInt8)
  | _, 0 => return []
  | index, n + 1 => do
    let byte ← load (place index)
    let rest ← copyOut place (index + 1) n
    return UInt8.ofNat byte :: rest

/-- Store the bytes into a ring of `n` places, from the one that `position` masks to. -/
def ringIn (place : Nat → A) (n position : Nat) (bytes : List UInt8) : Prog A E Unit := do
  let start := position &&& (n - 1)
  let first := min bytes.length (n - start)
  copyIn place start (bytes.take first)
  copyIn place 0 (bytes.drop first)

/-- Load `len` bytes from a ring of `n` places, from the one that `position` masks to. -/
def ringOut (place : Nat → A) (n position len : Nat) : Prog A E (List UInt8) := do
  let start := position &&& (n - 1)
  let first := min len (n - start)
  let front ← copyOut place start first
  let back ← copyOut place 0 (len - first)
  return front ++ back

section Places

variable {n count i : Nat}

theorem place_before_end (h : i < n - count % n) : (count + i) % n = count % n + i := by
  have hlt : count % n + i < n := by omega
  rw [← Nat.mod_add_mod, Nat.mod_eq_of_lt hlt]

theorem place_after_end (hend : n - count % n ≤ i) (hi : i < n) :
    (count + i) % n = i - (n - count % n) := by
  have hmod : count % n < n := Nat.mod_lt _ (by omega)
  have hsum : count % n + i = i - (n - count % n) + n := by omega
  rw [← Nat.mod_add_mod, hsum, Nat.add_mod_right, Nat.mod_eq_of_lt (by omega)]

theorem place_ne {j : Nat} (hij : i < j) (hj : j < i + n) : j % n ≠ i % n := by
  intro heq
  have hsub : (j - i) % n = 0 := by
    have := Nat.sub_mod_eq_zero_of_mod_eq heq
    exact this
  rw [Nat.mod_eq_of_lt (by omega)] at hsub
  omega

end Places

section Alone

variable {place : Nat → A}

theorem within_copyIn {P : A → Prop} (h : ∀ i, P (place i)) (start : Nat) (bytes : List UInt8) :
    (copyIn place start bytes : Prog A E Unit).Within P := by
  induction bytes generalizing start with
  | nil => exact .ret _
  | cons byte rest ih => exact .bind (within_store (h start) _) fun _ => ih (start + 1)

theorem quiet_copyIn {P : A → Prop} (h : ∀ i, P (place i)) (start : Nat) (bytes : List UInt8) :
    (copyIn place start bytes : Prog A E Unit).Quiet P := by
  induction bytes generalizing start with
  | nil => exact .ret _
  | cons byte rest ih => exact .bind (quiet_store (h start) _) fun _ => ih (start + 1)

theorem quiet_copyOut {P : A → Prop} (start n : Nat) :
    (copyOut place start n : Prog A E (List UInt8)).Quiet P := by
  induction n generalizing start with
  | zero => exact .ret _
  | succ n ih => exact .bind (quiet_load _) fun byte => .bind (ih _) fun rest => .ret _

variable [DecidableEq A]

theorem run_copyIn (hplace : Function.Injective place) (start : Nat) (bytes : List UInt8)
    (mem : Mem A) (i : Nat) :
    ((copyIn place start bytes : Prog A E Unit).run mem).2 (place i) =
      if start ≤ i ∧ i < start + bytes.length then (bytes.getD (i - start) 0).toNat
      else mem (place i) := by
  induction bytes generalizing start mem with
  | nil => rw [if_neg (by simp), copyIn, Prog.run_pure]
  | cons byte rest ih =>
    simp only [copyIn, Prog.run_bind, run_store, ih, length_cons]
    by_cases hi : i = start
    · subst hi
      rw [if_neg (by omega), if_pos (by omega), update_self, Nat.sub_self,
        getD_cons_zero]
    · rw [update_of_ne (hplace.ne hi)]
      by_cases hin : start + 1 ≤ i ∧ i < start + 1 + rest.length
      · have hsub : i - start = i - (start + 1) + 1 := by omega
        rw [if_pos hin, if_pos (by omega), hsub, getD_cons_succ]
      · rw [if_neg hin, if_neg (by omega)]

theorem run_copyOut (start n : Nat) (mem : Mem A) :
    (copyOut place start n : Prog A E (List UInt8)).run mem =
      ((range n).map fun i => UInt8.ofNat (mem (place (start + i))), mem) := by
  induction n generalizing start with
  | zero => rfl
  | succ n ih =>
    simp only [copyOut, Prog.run_bind, run_load, ih, Prog.run_pure]
    rw [range_succ_eq_map, map_cons, map_map]
    refine Prod.ext (congrArg₂ _ rfl (map_congr_left fun i _ => ?_)) rfl
    rw [comp_apply, Nat.add_right_comm, Nat.add_assoc]

variable {n count : Nat}

end Alone

section Rules

variable {C H M : Type} [AddCommMonoid M] [DecidableEq A] {S : Sys A E C H} {D : Discipline A C H}
  {I : M → H → Mem A → Prop} {t : Nat} {call : C} {place : Nat → A}

theorem Safe.copyIn (start : Nat) (m : List UInt8 → M) {bytes : List UInt8} (k : Nat)
    (hk : k ≤ bytes.length)
    (hstep : ∀ (i : Nat) (hi : i < bytes.length) others h mem, I (m (bytes.take i) + others) h mem →
      I (m (bytes.take (i + 1)) + others) h
        (update mem (place (start + i)) (bytes[i]).toNat)) :
    Safe S D I t call (copyIn place (start + k) (bytes.drop k)) (fun _ m' => m' = m bytes)
      (m (bytes.take k)) := by
  induction hrest : bytes.drop k generalizing k with
  | nil =>
    have hlen : bytes.length ≤ k := drop_eq_nil_iff.mp hrest
    rw [take_of_length_le hlen]
    rfl
  | cons byte rest ih =>
    have hlt : k < bytes.length := by
      by_contra hge
      rw [drop_of_length_le (by omega)] at hrest
      cases hrest
    rw [drop_eq_getElem_cons hlt] at hrest
    cases hrest
    intro others h mem hI _
    refine Safe.goes ?_ (hstep k hlt others h mem hI)
    exact ih (k + 1) hlt rfl

theorem Safe.copyOut (start : Nat) (m : List UInt8 → M) (R : List UInt8 → Prop) {len : Nat}
    (hstep : ∀ bytes others h mem, bytes.length < len → R bytes → I (m bytes + others) h mem →
      R (bytes ++ [UInt8.ofNat (mem (place (start + bytes.length)))]) ∧
        I (m (bytes ++ [UInt8.ofNat (mem (place (start + bytes.length)))]) + others) h mem)
    (k : Nat) (bytes : List UInt8) (hk : bytes.length + k = len) (hR : R bytes) :
    Safe S D I t call (copyOut place (start + bytes.length) k)
      (fun rest m' => (bytes ++ rest).length = len ∧ R (bytes ++ rest) ∧ m' = m (bytes ++ rest))
      (m bytes) := by
  induction k generalizing bytes with
  | zero => exact ⟨by simpa using hk, by simpa using hR, by rw [append_nil]⟩
  | succ k ih =>
    refine Safe.load_bind fun others h mem hI => ?_
    obtain ⟨hR', hI'⟩ := hstep bytes others h mem (by omega) hR hI
    have hlen : (bytes ++ [UInt8.ofNat (mem (place (start + bytes.length)))]).length + k = len := by
      simp
      omega
    have hrest := ih _ hlen hR'
    rw [length_append, length_singleton] at hrest
    refine Goes.bind ((hrest.mono fun rest m' hm => ?_).goes hI')
    rw [append_assoc, singleton_append] at hm
    exact hm

variable {n count : Nat}

theorem Safe.ringIn (hpow : isPowerOfTwo n) (hn : n ≤ 2 ^ 64) (m : List UInt8 → M)
    {bytes : List UInt8} (hfits : bytes.length ≤ n)
    (hstep : ∀ (i : Nat) (hi : i < bytes.length) others h mem, I (m (bytes.take i) + others) h mem →
      I (m (bytes.take (i + 1)) + others) h
        (update mem (place ((count + i) % n)) (bytes[i]).toNat)) :
    Safe S D I t call (ringIn place n (count % 2 ^ 64) bytes) (fun _ m' => m' = m bytes) (m []) := by
  unfold Orbit.Atomic.ringIn
  dsimp only
  rw [mask_count hpow hn count]
  generalize hfirst : min bytes.length (n - count % n) = first
  have hlen : (bytes.take first).length = first := by
    rw [length_take]
    omega
  have hfront : Safe S D I t call (Atomic.copyIn place (count % n) (bytes.take first))
      (fun _ m' => m' = m (bytes.take first)) (m []) := by
    refine Safe.copyIn (count % n) m 0 (Nat.zero_le _) fun i hi others h mem hI => ?_
    rw [hlen] at hi
    rw [take_take, Nat.min_eq_left (by omega)] at hI ⊢
    rw [getElem_take, ← place_before_end (by omega)]
    exact hstep i (by omega) others h mem hI
  refine .bind (hfront.mono ?_)
  rintro _ _ rfl
  have hback : Safe S D I t call (Atomic.copyIn place 0 (bytes.drop first))
      (fun _ m' => m' = m (bytes.take first ++ bytes.drop first))
      (m (bytes.take first ++ (bytes.drop first).take 0)) := by
    refine Safe.copyIn 0 (fun done => m (bytes.take first ++ done)) 0 (Nat.zero_le _)
      fun i hi others h mem hI => ?_
    rw [length_drop] at hi
    rw [← take_add] at hI ⊢
    have hplace : (count + (first + i)) % n = 0 + i := by
      rw [place_after_end (by omega) (by omega)]
      omega
    rw [getElem_drop, ← hplace]
    exact hstep (first + i) (by omega) others h mem hI
  rw [take_zero, append_nil, take_append_drop] at hback
  exact hback

theorem Safe.ringOut (hpow : isPowerOfTwo n) (hn : n ≤ 2 ^ 64) (m : List UInt8 → M)
    (R : List UInt8 → Prop) {len : Nat} (hfits : len ≤ n) (hR : R [])
    (hstep : ∀ bytes others h mem, bytes.length < len → R bytes → I (m bytes + others) h mem →
      R (bytes ++ [UInt8.ofNat (mem (place ((count + bytes.length) % n)))]) ∧
        I (m (bytes ++ [UInt8.ofNat (mem (place ((count + bytes.length) % n)))]) + others) h mem) :
    Safe S D I t call (ringOut place n (count % 2 ^ 64) len)
      (fun bytes m' => bytes.length = len ∧ R bytes ∧ m' = m bytes) (m []) := by
  unfold Orbit.Atomic.ringOut
  dsimp only
  rw [mask_count hpow hn count]
  generalize hfirst : min len (n - count % n) = first
  have hfront : Safe S D I t call (Atomic.copyOut place (count % n + 0) first)
      (fun front m' => ([] ++ front).length = first ∧ R ([] ++ front) ∧ m' = m ([] ++ front))
      (m []) := by
    refine Safe.copyOut (count % n) m R
      (fun bytes others h mem hlt hR hI => ?_) first [] (Nat.zero_add _) hR
    rw [← place_before_end (by omega)]
    exact hstep bytes others h mem (by omega) hR hI
  refine .bind (hfront.mono fun front m' hm => ?_)
  obtain ⟨hlen, hRfront, rfl⟩ := hm
  rw [nil_append] at hlen hRfront ⊢
  have hback : Safe S D I t call (Atomic.copyOut place (0 + 0) (len - first))
      (fun back m' => ([] ++ back).length = len - first ∧ R (front ++ ([] ++ back)) ∧
        m' = m (front ++ ([] ++ back))) (m (front ++ [])) := by
    refine Safe.copyOut 0 (fun back => m (front ++ back))
      (fun back => R (front ++ back)) (fun back others h mem hlt hR hI => ?_) (len - first)
      [] (Nat.zero_add _) (by simpa using hRfront)
    have hplace : (count + (front ++ back).length) % n = 0 + back.length := by
      rw [length_append, place_after_end (by omega) (by omega)]
      omega
    rw [← append_assoc, ← hplace]
    exact hstep (front ++ back) others h mem (by rw [length_append]; omega) hR hI
  rw [append_nil] at hback
  refine .bind (hback.mono fun back m' hm => ?_)
  obtain ⟨hlen', hRback, rfl⟩ := hm
  rw [nil_append] at hlen' hRback ⊢
  exact ⟨by rw [length_append]; omega, hRback, rfl⟩

end Rules

end Orbit.Atomic
