import Orbit.Quota.Memory.Gates

/-! What a selection has chosen among the slots that a scan has seen. -/

namespace OrbitQuota.Memory

open List Option

def Look.live (now : Nat) : Look → Bool
  | retired _ => false
  | inspected _ occupied observation => occupied && decide (now < observation.tat)

/-- The slot was touched before the live ones ahead of it, and not after those behind it. -/
def Scan.Coldest (scan : Scan) (slot : Nat) (debt : Observation) : Prop :=
  ∃ ahead behind, scan.looks = ahead ++ .inspected slot true debt :: behind ∧
    (∀ s occupied observation, .inspected s occupied observation ∈ ahead →
      Look.live scan.now (.inspected s occupied observation) = true →
        debt.seen < observation.seen) ∧
    ∀ s occupied observation, .inspected s occupied observation ∈ behind →
      Look.live scan.now (.inspected s occupied observation) = true →
        debt.seen ≤ observation.seen

/-- A selection that considered what the scan has seen. -/
structure Scan.Selects (scan : Scan) (selection : Selection) : Prop where
  plain : ∀ c ∈ selection.replenished, c.observed = none
  live : selection.replenished = none → ∀ slot occupied observation,
    .inspected slot occupied observation ∈ scan.looks →
      Look.live scan.now (.inspected slot occupied observation) = true
  warm : selection.retention = .guard → selection.cold = none →
    ∀ look ∈ scan.looks, look.live scan.now = false
  cold : ∀ c ∈ selection.cold, selection.retention = .guard ∧
    ∃ debt, c.observed = some debt ∧ scan.Coldest c.index debt

namespace Scan.Selects

variable {scan : Scan} {selection : Selection} {slot generation : Nat} {occupied : Bool}
  {observation debt : Observation}

theorem new (now : Nat) (retention : Retention) : Selects ⟨now, []⟩ (.new retention) where
  plain _ hc := absurd hc (not_mem_none _)
  live _ _ _ _ hlook := absurd hlook not_mem_nil
  warm _ _ _ hlook := absurd hlook not_mem_nil
  cold _ hc := absurd hc (not_mem_none _)

theorem coldest_see {look : Look} (h : scan.Coldest slot debt)
    (hlook : ∀ s occupied observation, look = .inspected s occupied observation →
      look.live scan.now = true → debt.seen ≤ observation.seen) :
    (scan.see look).Coldest slot debt := by
  obtain ⟨ahead, behind, hlooks, hahead, hbehind⟩ := h
  refine ⟨ahead, behind ++ [look], ?_, hahead, fun s occupied observation hmem hlive => ?_⟩
  · rw [Scan.see, hlooks, append_assoc, cons_append]
  · rcases mem_append.mp hmem with hmem | hmem
    · exact hbehind s occupied observation hmem hlive
    · have heq := mem_singleton.mp hmem
      exact hlook s occupied observation heq.symm (heq ▸ hlive)

theorem see_retired (h : scan.Selects selection) (slot : Nat) :
    (scan.see (.retired slot)).Selects selection where
  plain := h.plain
  live hnone s occupied observation hmem := by
    refine h.live hnone s occupied observation ?_
    exact (mem_append.mp hmem).resolve_right fun hmem => by
      cases mem_singleton.mp hmem
  warm hguard hnone look hmem := by
    rcases mem_append.mp hmem with hmem | hmem
    · exact h.warm hguard hnone look hmem
    · rw [mem_singleton.mp hmem]
      rfl
  cold c hc := by
    obtain ⟨hguard, debt, hdebt, hcoldest⟩ := h.cold c hc
    exact ⟨hguard, debt, hdebt, coldest_see hcoldest (by rintro _ _ _ ⟨⟩)⟩

theorem see_free (h : scan.Selects selection)
    (hfree : Look.live scan.now (.inspected slot occupied observation) = false) :
    (scan.see (.inspected slot occupied observation)).Selects
      (selection.consider slot generation true observation) := by
  have hwarm : selection.retention = .guard → selection.cold = none →
      ∀ look ∈ (scan.see (.inspected slot occupied observation)).looks,
        look.live scan.now = false := by
    intro hguard hnone look hmem
    rcases mem_append.mp hmem with hmem | hmem
    · exact h.warm hguard hnone look hmem
    · rw [mem_singleton.mp hmem]
      exact hfree
  have hcold : ∀ c ∈ selection.cold, selection.retention = .guard ∧ ∃ debt,
      c.observed = some debt ∧
        (scan.see (.inspected slot occupied observation)).Coldest c.index debt := by
    intro c hc
    obtain ⟨hguard, debt, hdebt, hcoldest⟩ := h.cold c hc
    refine ⟨hguard, debt, hdebt, coldest_see hcoldest fun _ _ _ _ hlive => ?_⟩
    rw [hfree] at hlive
    cases hlive
  rw [Selection.consider, if_pos rfl]
  cases hr : selection.replenished with
  | none =>
    rw [if_pos (by rfl)]
    exact {
      plain := fun c hc => by
        cases hc
        rfl
      live := by rintro ⟨⟩
      warm := hwarm
      cold := hcold }
  | some c =>
    rw [if_neg (by rintro ⟨⟩)]
    exact {
      plain := h.plain
      live := fun hnone => by
        rw [hr] at hnone
        cases hnone
      warm := hwarm
      cold := hcold }

theorem see_live (h : scan.Selects selection)
    (hlive : Look.live scan.now (.inspected slot occupied observation) = true) :
    (scan.see (.inspected slot occupied observation)).Selects
      (selection.consider slot generation false observation) := by
  have hoccupied : occupied = true := (Bool.and_eq_true_iff.mp hlive).1
  have hall : selection.replenished = none → ∀ s o observation',
      .inspected s o observation' ∈ (scan.see (.inspected slot occupied observation)).looks →
        Look.live scan.now (.inspected s o observation') = true := by
    intro hnone s o observation' hmem
    rcases mem_append.mp hmem with hmem | hmem
    · exact h.live hnone s o observation' hmem
    · rw [mem_singleton.mp hmem]
      exact hlive
  rw [Selection.consider, if_neg Bool.false_ne_true]
  by_cases hchosen : selection.retention = .guard ∧ Selection.colder observation selection.cold
  · rw [if_pos hchosen]
    -- whatever is live so far was touched later
    have hahead : ∀ s o observation', .inspected s o observation' ∈ scan.looks →
        Look.live scan.now (.inspected s o observation') = true →
          observation.seen < observation'.seen := by
      intro s o observation' hmem hlive'
      cases hc : selection.cold with
      | none =>
        rw [h.warm hchosen.1 hc _ hmem] at hlive'
        cases hlive'
      | some c =>
        obtain ⟨-, debt, hdebt, ahead, behind, hlooks, hlater, hnot⟩ := h.cold c hc
        have hcolder := hchosen.2
        rw [hc, Selection.colder, hdebt] at hcolder
        have hlt : observation.seen < debt.seen := of_decide_eq_true hcolder
        rw [hlooks] at hmem
        rcases mem_append.mp hmem with hmem | hmem
        · exact Nat.lt_trans hlt (hlater s o observation' hmem hlive')
        · rcases mem_cons.mp hmem with heq | hmem
          · cases heq
            exact hlt
          · exact Nat.lt_of_lt_of_le hlt (hnot s o observation' hmem hlive')
    refine {
      plain := h.plain
      live := hall
      warm := by rintro - ⟨⟩
      cold := fun c hc => ?_ }
    cases hc
    refine ⟨hchosen.1, observation, rfl, scan.looks, [], ?_, hahead, fun _ _ _ hmem => ?_⟩
    · rw [Scan.see, hoccupied]
    · cases hmem
  · rw [if_neg hchosen]
    refine {
      plain := h.plain
      live := hall
      warm := fun hguard hnone => ?_
      cold := fun c hc => ?_ }
    · exact absurd ⟨hguard, by rw [hnone]; rfl⟩ hchosen
    · obtain ⟨hguard, debt, hdebt, hcoldest⟩ := h.cold c hc
      refine ⟨hguard, debt, hdebt, coldest_see hcoldest fun s o observation' heq _ => ?_⟩
      cases heq
      by_contra hlt
      refine hchosen ⟨hguard, ?_⟩
      rw [mem_def.mp hc, Selection.colder, hdebt]
      exact decide_eq_true (Nat.lt_of_not_le hlt)

theorem see (h : scan.Selects selection) {word : Nat} (generation : Nat) :
    (scan.see (.inspected slot (word != 0) observation)).Selects
      (selection.consider slot generation (word = 0 ∨ observation.tat ≤ scan.now) observation) := by
  by_cases hfree : word = 0 ∨ observation.tat ≤ scan.now
  · rw [decide_eq_true hfree]
    refine h.see_free ?_
    rcases hfree with rfl | hle
    · rfl
    · rw [Look.live, decide_eq_false (Nat.not_lt.mpr hle), Bool.and_false]
  · rw [decide_eq_false hfree]
    obtain ⟨hword, hlt⟩ := not_or.mp hfree
    refine h.see_live ?_
    rw [Look.live, bne_iff_ne.mpr hword, decide_eq_true (Nat.lt_of_not_le hlt)]
    rfl

theorem finish (h : scan.Selects selection) {c : Candidate} (hc : selection.finish = .ok c)
    (hobserved : c.observed = some debt) : selection.retention = .guard ∧
      scan.Coldest c.index debt ∧ ∀ slot occupied observation,
        .inspected slot occupied observation ∈ scan.looks →
          Look.live scan.now (.inspected slot occupied observation) = true := by
  unfold Selection.finish at hc
  split at hc
  · rename_i c' hor
    cases hc
    cases hr : selection.replenished with
    | some r =>
      rw [hr] at hor
      cases hor
      rw [h.plain c hr] at hobserved
      cases hobserved
    | none =>
      rw [hr] at hor
      obtain ⟨hguard, debt', hdebt, hcoldest⟩ := h.cold c hor
      rw [hdebt] at hobserved
      cases hobserved
      exact ⟨hguard, hcoldest, h.live hr⟩
  · cases hc

end Scan.Selects

end OrbitQuota.Memory
