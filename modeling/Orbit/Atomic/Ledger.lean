import Mathlib.Algebra.BigOperators.Group.Finset.Basic
import Mathlib.Algebra.Order.BigOperators.Group.Finset
import Mathlib.Data.Fintype.BigOperators
import Mathlib.Data.List.Perm.Basic

/-! Ledgers: a total beside its parts, and a count of the entries of a list. -/

namespace Orbit.Atomic

open List Finset

theorem sum_change {ι : Type} [Fintype ι] [DecidableEq ι] (f f' : ι → Nat) (i : ι)
    (h : ∀ j ≠ i, f' j = f j) : ∑ j, f' j + f i = ∑ j, f j + f' i := by
  have herase : ∑ j ∈ univ.erase i, f' j = ∑ j ∈ univ.erase i, f j :=
    sum_congr rfl fun j hj => h j (ne_of_mem_erase hj)
  rw [← add_sum_erase _ f (mem_univ i),
    ← add_sum_erase _ f' (mem_univ i), herase]
  omega

theorem part_le_sum {ι : Type} [Fintype ι] (f : ι → Nat) (i : ι) : f i ≤ ∑ j, f j :=
  Finset.single_le_sum (fun _ _ => Nat.zero_le _) (mem_univ i)

theorem countP_eraseIdx_add {α : Type} {l : List α} {n : Nat} {a : α} (h : l[n]? = some a)
    (p : α → Bool) : (l.eraseIdx n).countP p + (if p a then 1 else 0) = l.countP p := by
  obtain ⟨hn, rfl⟩ := List.getElem?_eq_some_iff.mp h
  rw [← (getElem_cons_eraseIdx_perm hn).countP_eq, countP_cons]

theorem countP_set_add {α : Type} {l : List α} {n : Nat} {a b : α} (h : l[n]? = some a)
    (p : α → Bool) :
    (l.set n b).countP p + (if p a then 1 else 0) = l.countP p + (if p b then 1 else 0) := by
  obtain ⟨hn, rfl⟩ := List.getElem?_eq_some_iff.mp h
  rw [countP_set hn]
  have hle : (if p l[n] then 1 else 0) ≤ l.countP p := by
    split
    next hp => exact countP_pos_iff.mpr ⟨l[n], getElem_mem hn, hp⟩
    next => exact Nat.zero_le _
  omega

theorem countP_range_change (p q : Nat → Bool) {n i : Nat} (hi : i < n) (h : ∀ j ≠ i, q j = p j) :
    (List.range n).countP q + (if p i then 1 else 0) =
      (List.range n).countP p + (if q i then 1 else 0) := by
  have hperm : (List.range n).Perm (i :: (List.range n).erase i) :=
    perm_cons_erase (List.mem_range.mpr hi)
  have hrest : ((List.range n).erase i).countP q = ((List.range n).erase i).countP p := by
    refine countP_congr fun j hj => ?_
    rw [h j ((nodup_range.mem_erase_iff).mp hj).1]
  rw [hperm.countP_eq, hperm.countP_eq, countP_cons, countP_cons, hrest]
  omega

theorem mem_of_mem_eraseIdx {α : Type} {l : List α} {n : Nat} {a : α} (h : a ∈ l.eraseIdx n) :
    a ∈ l :=
  (eraseIdx_sublist l n).mem h

theorem countP_eq_sum {α ι : Type} [Fintype ι] [DecidableEq ι] (file : α → ι) (p : α → Bool)
    (l : List α) : l.countP p = ∑ i, l.countP fun a => p a && decide (file a = i) := by
  induction l with
  | nil => simp
  | cons a rest ih =>
    simp only [countP_cons, sum_add_distrib, ← ih]
    cases hp : p a <;> simp

/-- A count of permits kept twice, in total and by holder, with the permits themselves and the
holders that were written off. -/
structure Tally (ι κ : Type) where
  total : κ → Nat
  part : ι → κ → Nat
  permits : List (ι × κ)
  lost : List ι

namespace Tally

variable {ι κ : Type} [Fintype ι] [DecidableEq ι] [DecidableEq κ] {t t' : Tally ι κ}

/-- What may happen to a tally: nothing, one permit more, one given back, or a holder written off.
A permit given back by a holder whose permits were written off is not counted again. -/
inductive Step (t t' : Tally ι κ) : Prop
  | same : t'.total = t.total → t'.part = t.part → t'.permits = t.permits → t.lost ⊆ t'.lost →
      Step t t'
  | take (i : ι) (k : κ) :
      (∀ j, t'.total j = if j = k then t.total k + 1 else t.total j) →
      (∀ n j, t'.part n j = if n = i ∧ j = k then t.part i k + 1 else t.part n j) →
      t'.permits = (i, k) :: t.permits → t'.lost = t.lost → Step t t'
  | drop (n : Nat) (i : ι) (k : κ) : t.permits[n]? = some (i, k) →
      (∀ j, t'.total j = if j = k ∧ 0 < t.part i k then t.total k - 1 else t.total j) →
      (∀ m j, t'.part m j = if m = i ∧ j = k then t.part i k - 1 else t.part m j) →
      t'.permits = t.permits.eraseIdx n → t'.lost = t.lost → Step t t'
  | dead (i : ι) (cleared : κ → Prop) :
      (∀ j, cleared j → t'.total j = t.total j - t.part i j) →
      (∀ j, ¬cleared j → t'.total j = t.total j) →
      (∀ j, cleared j → t'.part i j = 0) →
      (∀ n j, n ≠ i ∨ ¬cleared j → t'.part n j = t.part n j) →
      t'.permits = t.permits → t'.lost = i :: t.lost → Step t t'

/-- The two counts agree, and a holder not written off has exactly its permits counted. -/
structure Ok (t : Tally ι κ) : Prop where
  total : ∀ k, t.total k = ∑ i, t.part i k
  exact : ∀ i ∉ t.lost, ∀ k, t.part i k = t.permits.count (i, k)

namespace Ok

theorem part_le (h : t.Ok) (i : ι) (k : κ) : t.part i k ≤ t.total k := by
  rw [h.total k]
  exact part_le_sum (t.part · k) i

theorem take {i : ι} {k : κ} (h : t.Ok)
    (htotal : ∀ j, t'.total j = if j = k then t.total k + 1 else t.total j)
    (hpart : ∀ n j, t'.part n j = if n = i ∧ j = k then t.part i k + 1 else t.part n j)
    (hpermits : t'.permits = (i, k) :: t.permits) (hlost : t'.lost = t.lost) : t'.Ok := by
  refine ⟨fun j => ?_, fun n hn j => ?_⟩
  · by_cases hj : j = k
    · subst hj
      have hsum := sum_change (t.part · j) (t'.part · j) i fun n hn => by simp [hpart, hn]
      simp only [hpart i j, and_self, if_true] at hsum
      have hold := h.total j
      rw [htotal, if_pos rfl]
      omega
    · simp only [htotal, hpart, hj, and_false, if_false, h.total]
  · have hold := h.exact n (hlost ▸ hn) j
    rw [hpart, hpermits, count_cons]
    by_cases he : n = i ∧ j = k
    · obtain ⟨rfl, rfl⟩ := he
      simp [hold]
    · have hne : (i, k) ≠ (n, j) := by
        rintro ⟨⟩
        exact he ⟨rfl, rfl⟩
      simp [he, hne, hold]

theorem drop {n : Nat} {i : ι} {k : κ} (h : t.Ok) (hn : t.permits[n]? = some (i, k))
    (htotal : ∀ j, t'.total j = if j = k ∧ 0 < t.part i k then t.total k - 1 else t.total j)
    (hpart : ∀ m j, t'.part m j = if m = i ∧ j = k then t.part i k - 1 else t.part m j)
    (hpermits : t'.permits = t.permits.eraseIdx n) (hlost : t'.lost = t.lost) : t'.Ok := by
  refine ⟨fun j => ?_, fun m hm j => ?_⟩
  · by_cases hj : j = k
    · subst hj
      have hsum := sum_change (t.part · j) (t'.part · j) i fun n hn => by simp [hpart, hn]
      simp only [hpart i j, and_self, if_true] at hsum
      have hle := h.part_le i j
      have hold := h.total j
      have hnew := htotal j
      by_cases hpos : 0 < t.part i j
      · rw [if_pos ⟨rfl, hpos⟩] at hnew
        omega
      · rw [if_neg fun hc => hpos hc.2] at hnew
        omega
    · simp only [htotal, hpart, hj, false_and, and_false, if_false, h.total]
  · have hold := h.exact m (hlost ▸ hm) j
    have hcount := countP_eraseIdx_add hn fun e => e == (m, j)
    rw [hpart, hpermits]
    by_cases he : m = i ∧ j = k
    · obtain ⟨rfl, rfl⟩ := he
      simp only [beq_self_eq_true, if_true] at hcount
      simp only [and_self, if_true, List.count] at hold ⊢
      omega
    · have hne : ((i, k) == (m, j)) = false := by
        rw [beq_eq_false_iff_ne]
        rintro ⟨⟩
        exact he ⟨rfl, rfl⟩
      simp only [hne, Bool.false_eq_true, if_false, Nat.add_zero] at hcount
      simp only [he, if_false, List.count] at hold ⊢
      omega

theorem dead {i : ι} {cleared : κ → Prop} (h : t.Ok)
    (hcleared : ∀ j, cleared j → t'.total j = t.total j - t.part i j)
    (hkept : ∀ j, ¬cleared j → t'.total j = t.total j)
    (hzero : ∀ j, cleared j → t'.part i j = 0)
    (hothers : ∀ n j, n ≠ i ∨ ¬cleared j → t'.part n j = t.part n j)
    (hpermits : t'.permits = t.permits) (hlost : t'.lost = i :: t.lost) : t'.Ok := by
  refine ⟨fun j => ?_, fun n hn j => ?_⟩
  · by_cases hc : cleared j
    · have hsum := sum_change (t.part · j) (t'.part · j) i fun n hn => hothers n j (.inl hn)
      simp only [hzero j hc] at hsum
      have hle := h.part_le i j
      have hold := h.total j
      rw [hcleared j hc]
      omega
    · simp only [hkept j hc, hothers _ j (.inr hc), h.total]
  · rw [hlost, List.mem_cons, not_or] at hn
    rw [hothers n j (.inl hn.1), hpermits]
    exact h.exact n hn.2 j

theorem step (h : t.Ok) (hstep : t.Step t') : t'.Ok := by
  cases hstep with
  | same htotal hpart hpermits hlost =>
    refine ⟨fun k => ?_, fun i hi k => ?_⟩
    · rw [htotal, hpart, h.total]
    · rw [hpart, hpermits]
      exact h.exact i (fun hmem => hi (hlost hmem)) k
  | take i k htotal hpart hpermits hlost => exact h.take htotal hpart hpermits hlost
  | drop n i k hn htotal hpart hpermits hlost => exact h.drop hn htotal hpart hpermits hlost
  | dead i cleared h1 h2 h3 h4 h5 h6 => exact h.dead h1 h2 h3 h4 h5 h6

theorem count_le (h : t.Ok) (k : κ) :
    (t.permits.countP fun e => e.2 = k ∧ e.1 ∉ t.lost) ≤ t.total k := by
  rw [h.total k, countP_eq_sum fun e : ι × κ => e.1]
  refine Finset.sum_le_sum fun i _ => ?_
  by_cases hi : i ∈ t.lost
  · have hzero : (t.permits.countP fun e =>
        decide (e.2 = k ∧ e.1 ∉ t.lost) && decide (e.1 = i)) = 0 := by
      rw [countP_eq_zero]
      intro e _ he
      simp only [Bool.and_eq_true, decide_eq_true_eq] at he
      exact he.1.2 (he.2 ▸ hi)
    rw [hzero]
    exact Nat.zero_le _
  · rw [h.exact i hi k, List.count]
    refine countP_mono_left fun e _ he => ?_
    simp only [Bool.and_eq_true, decide_eq_true_eq] at he
    rw [beq_iff_eq]
    exact Prod.ext he.2 he.1.1

end Ok

end Tally

end Orbit.Atomic
