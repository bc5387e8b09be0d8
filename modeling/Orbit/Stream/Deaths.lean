import Orbit.Stream.Slots

/-! Death reports.  A report ends the sides that one life of a process holds and nothing else, after
any sequence of whole operations. -/

namespace OrbitStream

open Orbit.Atomic Function

variable {g : Geometry}

/-- The side is held by a life of the node that is reported. -/
def Hit (node : Nat) (dead : Nat → Bool) (mem : Mem Addr) (i : Nat) (side : Side) : Prop :=
  mem (.claimed i side) = sideClaimed ∧ mem (.node i side) = node ∧
    dead (mem (.incarnation i side)) = true

instance (node : Nat) (dead : Nat → Bool) (mem : Mem Addr) (i : Nat) (side : Side) :
    Decidable (Hit node dead mem i side) := inferInstanceAs (Decidable (_ ∧ _))

/-- The words of a slot after the report: held sides are dead, what they wrote is reset, the reader
of what they read is gone, and the slot is empty if nobody holds it any more. -/
structure Ended (node : Nat) (dead : Nat → Bool) (mem mem' : Mem Addr) (i : Nat) : Prop where
  claimed : ∀ side, mem' (.claimed i side) =
    if Hit node dead mem i side then sideDead else mem (.claimed i side)
  flags : ∀ side, mem' (.flags i side) =
    mem (.flags i side) ||| (if Hit node dead mem i side then flagReset else 0) |||
      (if Hit node dead mem i side.other then flagReaderGone else 0)
  state : mem' (.state i) =
    if (∃ side, Hit node dead mem i side) ∧ ∀ side, mem' (.claimed i side) ≠ sideClaimed then
      slotEmpty
    else mem (.state i)

def Addr.ending? : Addr → Option Nat
  | state slot | claimed slot _ | flags slot _ => some slot
  | _ => none

section End

variable (node : Nat) (dead : Nat → Bool) (mem : Mem Addr) (i : Nat)

/-- The memory after `end_sides` at one side. -/
def endedSide (side : Side) : Mem Addr :=
  if Hit node dead mem i side then
    update (update (update mem (.claimed i side) sideDead)
      (.flags i side) (mem (.flags i side) ||| flagReset))
      (.flags i side.other) (mem (.flags i side.other) ||| flagReaderGone)
  else mem

theorem run_endSide (side : Side) :
    (endSide node dead i side).run mem =
      (decide (Hit node dead mem i side), endedSide node dead mem i side) := by
  unfold endSide endedSide Hit
  simp only [Prog.run_bind, run_load]
  by_cases hc : mem (.claimed i side) = sideClaimed
  · by_cases hn : mem (.node i side) = node
    · by_cases hd : dead (mem (.incarnation i side)) = true
      · simp [hc, hn, hd]
      · simp [hc, hn, hd]
    · simp [hc, hn]
  · simp [hc]

theorem endedSide_claimed (side : Side) : endedSide node dead mem i side (.claimed i side) =
    if Hit node dead mem i side then sideDead else mem (.claimed i side) := by
  unfold endedSide
  split <;> simp

theorem endedSide_flags (side : Side) : endedSide node dead mem i side (.flags i side) =
    mem (.flags i side) ||| if Hit node dead mem i side then flagReset else 0 := by
  unfold endedSide
  split <;> simp

theorem endedSide_flags_other (side : Side) : endedSide node dead mem i side (.flags i side.other) =
    mem (.flags i side.other) ||| if Hit node dead mem i side then flagReaderGone else 0 := by
  unfold endedSide
  split <;> simp

theorem endedSide_of_ne (side : Side) {a : Addr} (h1 : a ≠ .claimed i side)
    (h2 : ∀ d, a ≠ .flags i d) : endedSide node dead mem i side a = mem a := by
  unfold endedSide
  split
  · simp [h1, h2]
  · rfl

theorem hit_endedSide (side : Side) :
    Hit node dead (endedSide node dead mem i side) i side.other ↔ Hit node dead mem i side.other := by
  unfold Hit
  rw [endedSide_of_ne _ _ _ _ _ (by simp) (by simp), endedSide_of_ne _ _ _ _ _ (by simp) (by simp),
    endedSide_of_ne _ _ _ _ _ (by simp) (by simp)]

/-- The memory after `end_sides` at both sides of a slot. -/
def endedSides : Mem Addr := endedSide node dead (endedSide node dead mem i .a) i .b

theorem endedSides_claimed (side : Side) : endedSides node dead mem i (.claimed i side) =
    if Hit node dead mem i side then sideDead else mem (.claimed i side) := by
  have hb := hit_endedSide node dead mem i .a
  cases side with
  | a =>
    rw [endedSides, endedSide_of_ne _ _ _ _ _ (by simp) (by simp), endedSide_claimed]
  | b =>
    rw [endedSides, endedSide_claimed, endedSide_of_ne _ _ _ _ .a (by simp) (by simp)]
    simp only [show Side.a.other = .b from rfl] at hb
    simp only [hb]

theorem endedSides_flags (side : Side) : endedSides node dead mem i (.flags i side) =
    mem (.flags i side) ||| (if Hit node dead mem i side then flagReset else 0) |||
      (if Hit node dead mem i side.other then flagReaderGone else 0) := by
  have hb := hit_endedSide node dead mem i .a
  simp only [show Side.a.other = .b from rfl] at hb
  cases side with
  | a =>
    have h1 := endedSide_flags_other node dead (endedSide node dead mem i .a) i .b
    have h2 := endedSide_flags node dead mem i .a
    simp only [hb] at h1
    rw [endedSides]
    exact h1.trans (by rw [show Side.b.other = .a from rfl, h2]; rfl)
  | b =>
    have h1 := endedSide_flags node dead (endedSide node dead mem i .a) i .b
    have h2 := endedSide_flags_other node dead mem i .a
    simp only [hb] at h1
    rw [endedSides]
    refine h1.trans ?_
    rw [show Addr.flags i .b = .flags i Side.a.other from rfl, h2, Nat.or_assoc,
      Nat.or_comm (if Hit node dead mem i .a then flagReaderGone else 0), Nat.or_assoc]
    rfl

theorem endedSides_of_ne {a : Addr} (h1 : ∀ side, a ≠ .claimed i side)
    (h2 : ∀ d, a ≠ .flags i d) : endedSides node dead mem i a = mem a := by
  rw [endedSides, endedSide_of_ne _ _ _ _ _ (h1 _) h2, endedSide_of_ne _ _ _ _ _ (h1 _) h2]

theorem run_endSlot_live (hlive : mem (.state i) = slotLive) :
    ((endSlot node dead i).run mem).2 =
      if (∃ side, Hit node dead mem i side) ∧
          ∀ side, endedSides node dead mem i (.claimed i side) ≠ sideClaimed then
        update (endedSides node dead mem i) (.state i) slotEmpty
      else endedSides node dead mem i := by
  have hb := hit_endedSide node dead mem i .a
  simp only [show Side.a.other = .b from rfl] at hb
  have hstate : endedSides node dead mem i (.state i) = slotLive := by
    rw [endedSides_of_ne _ _ _ _ (by simp) (by simp), hlive]
  simp only [endSlot, Prog.run_bind, run_load, hlive, if_true, run_endSide]
  simp only [show endedSide node dead (endedSide node dead mem i .a) i .b =
    endedSides node dead mem i from rfl, hb, Side.forall_iff, Side.exists_iff]
  generalize endedSides node dead mem i = m at hstate ⊢
  by_cases h1 : Hit node dead mem i .a ∨ Hit node dead mem i .b
  · have hor : (decide (Hit node dead mem i .a) || decide (Hit node dead mem i .b)) = true := by
      simpa using h1
    by_cases ha : m (.claimed i .a) = sideClaimed
    · simp [hor, h1, ha]
    · by_cases hb : m (.claimed i .b) = sideClaimed
      · simp [hor, h1, ha, hb]
      · simp [hor, h1, ha, hb, hstate]
  · have hor : (decide (Hit node dead mem i .a) || decide (Hit node dead mem i .b)) = false := by
      simpa using h1
    simp [hor, h1]

theorem run_endSlot
    (hlive : (∃ side, mem (.claimed i side) = sideClaimed) → mem (.state i) = slotLive) :
    Ended node dead mem ((endSlot node dead i).run mem).2 i := by
  by_cases hl : mem (.state i) = slotLive
  · rw [run_endSlot_live _ _ _ _ hl]
    have hclaimed : ∀ m : Mem Addr, ∀ side,
        update m (.state i) slotEmpty (.claimed i side) = m (.claimed i side) := by simp
    split
    · rename_i hcond
      refine ⟨fun side => ?_, fun side => ?_, ?_⟩
      · rw [hclaimed, endedSides_claimed]
      · rw [update_of_ne (by simp), endedSides_flags]
      · rw [update_self, if_pos ⟨hcond.1, fun side => by rw [hclaimed]; exact hcond.2 side⟩]
    · rename_i hcond
      refine ⟨endedSides_claimed _ _ _ _, endedSides_flags _ _ _ _, ?_⟩
      rw [endedSides_of_ne _ _ _ _ (by simp) (by simp), if_neg hcond]
  · have hnone : ∀ side, ¬Hit node dead mem i side := fun side h => hl (hlive ⟨side, h.1⟩)
    have hrun : ((endSlot node dead i).run mem).2 = mem := by
      simp [endSlot, hl]
    rw [hrun]
    exact ⟨by simp [hnone], by simp [hnone], by simp [hnone]⟩

end End

section Report

variable {node : Nat} {dead : Nat → Bool} {mem mem' m1 : Mem Addr} {i : Nat}

theorem within_endSide (side : Side) :
    (endSide node dead i side).Within fun a => a.ending? = some i := by
  refine .bind (within_load _) fun claimed => ?_
  split
  · exact .ret _
  refine .bind (within_load _) fun owner => ?_
  split
  · exact .ret _
  refine .bind (within_load _) fun incarnation => ?_
  split
  · exact .ret _
  refine .bind (within_compareExchange (P := (Addr.ending? · = some i)) rfl _ _) fun ended => ?_
  split
  · exact .ret _
  · refine .bind (within_fetchOr (P := (Addr.ending? · = some i)) rfl _) fun _ => ?_
    exact .bind (within_fetchOr (P := (Addr.ending? · = some i)) rfl _) fun _ => .ret _

theorem within_endSlot : (endSlot node dead i).Within fun a => a.ending? = some i := by
  refine .bind (within_load _) fun state => ?_
  split
  · refine .bind (within_endSide .a) fun first => .bind (within_endSide .b) fun second => ?_
    split
    · refine .bind (within_load _) fun a => ?_
      split
      · refine .bind (within_load _) fun b => ?_
        split
        · exact .bind (within_compareExchange (P := (Addr.ending? · = some i)) rfl _ _) fun _ =>
            .ret _
        · exact .ret _
      · exact .ret _
    · exact .ret _
  · exact .ret _

def SameSlot (mem mem' : Mem Addr) (i : Nat) : Prop :=
  mem' (.state i) = mem (.state i) ∧ ∀ side, mem' (.claimed i side) = mem (.claimed i side) ∧
    mem' (.flags i side) = mem (.flags i side) ∧ mem' (.node i side) = mem (.node i side) ∧
    mem' (.incarnation i side) = mem (.incarnation i side)

theorem SameSlot.hit (h : SameSlot mem m1 i) (side : Side) :
    Hit node dead m1 i side ↔ Hit node dead mem i side := by
  obtain ⟨h1, -, h2, h3⟩ := h.2 side
  rw [Hit, Hit, h1, h2, h3]

theorem Ended.after (h : Ended node dead m1 mem' i) (hs : SameSlot mem m1 i) :
    Ended node dead mem mem' i := by
  refine ⟨fun side => ?_, fun side => ?_, ?_⟩
  · rw [h.claimed, (hs.2 side).1]
    simp only [hs.hit]
  · rw [h.flags, (hs.2 side).2.1]
    simp only [hs.hit]
  · rw [h.state, hs.1]
    simp only [hs.hit]

theorem Ended.before (h : Ended node dead mem m1 i) (hs : SameSlot m1 mem' i) :
    Ended node dead mem mem' i := by
  refine ⟨fun side => ?_, fun side => ?_, ?_⟩
  · rw [(hs.2 side).1, h.claimed]
  · rw [(hs.2 side).2.1, h.flags]
  · rw [hs.1, h.state]
    simp only [(hs.2 _).1]

theorem Ended.live (h : Ended node dead mem mem' i)
    (hlive : mem (.state i) = slotLive ↔ ∃ side, mem (.claimed i side) = sideClaimed) :
    mem' (.state i) = slotLive ↔ ∃ side, mem' (.claimed i side) = sideClaimed := by
  rw [h.state]
  by_cases hall : ∀ side, mem' (.claimed i side) ≠ sideClaimed
  · by_cases hhit : ∃ side, Hit node dead mem i side
    · rw [if_pos ⟨hhit, hall⟩]
      exact iff_of_false (by decide) fun ⟨side, hside⟩ => hall side hside
    · rw [if_neg fun hc => hhit hc.1, hlive]
      refine exists_congr fun side => ?_
      rw [h.claimed, if_neg fun hs => hhit ⟨side, hs⟩]
  · rw [if_neg fun hc => hall hc.2]
    obtain ⟨side, hside⟩ := not_forall_not.mp hall
    refine iff_of_true (hlive.mpr ⟨side, ?_⟩) ⟨side, hside⟩
    rw [h.claimed] at hside
    split at hside
    · cases hside
    · exact hside

theorem sameSlot_of_within {α : Type} {p : StreamM α} {P : Addr → Prop} (hp : p.Within P)
    (hP : ∀ a, P a → a.ending? ≠ some i) (hother : ∀ a, P a → a.ending? ≠ none) (mem : Mem Addr) :
    SameSlot mem (p.run mem).2 i := by
  have hkeep : ∀ a : Addr, ¬P a → (p.run mem).2 a = mem a := fun a ha => hp.run_eq mem ha
  refine ⟨hkeep _ fun h => hP _ h rfl, fun side => ⟨hkeep _ fun h => hP _ h rfl,
    hkeep _ fun h => hP _ h rfl, hkeep _ fun h => hother _ h rfl, hkeep _ fun h => hother _ h rfl⟩⟩

theorem within_endSides (slots : List Nat) :
    (endSides node dead slots).Within fun a => ∃ i ∈ slots, a.ending? = some i := by
  induction slots with
  | nil => exact .ret _
  | cons i rest ih =>
    refine .bind (within_endSlot.mono fun a ha => ⟨i, by simp, ha⟩) fun _ => ih.mono fun a ha => ?_
    obtain ⟨j, hj, ha⟩ := ha
    exact ⟨j, List.mem_cons_of_mem _ hj, ha⟩

theorem run_endSides {slots : List Nat} (hnodup : slots.Nodup)
    (hlive : ∀ i, mem (.state i) = slotLive ↔ ∃ side, mem (.claimed i side) = sideClaimed) :
    ∀ i ∈ slots, Ended node dead mem ((endSides node dead slots).run mem).2 i := by
  induction slots generalizing mem with
  | nil => simp
  | cons first rest ih =>
    obtain ⟨hnot, hnodup⟩ := List.nodup_cons.mp hnodup
    have hfirst := run_endSlot node dead mem first (hlive first).mpr
    have hsame : ∀ j ≠ first, SameSlot mem ((endSlot node dead first).run mem).2 j := by
      intro j hj
      exact sameSlot_of_within within_endSlot (fun a ha => by simpa [ha] using hj.symm)
        (fun a ha => by simp [ha]) mem
    have hlive1 : ∀ j, ((endSlot node dead first).run mem).2 (.state j) = slotLive ↔
        ∃ side, ((endSlot node dead first).run mem).2 (.claimed j side) = sideClaimed := by
      intro j
      by_cases he : j = first
      · subst he
        exact hfirst.live (hlive j)
      · obtain ⟨hst, hcl⟩ := hsame j he
        rw [hst, hlive j]
        exact exists_congr fun side => by rw [(hcl side).1]
    intro i hi
    rw [endSides, Prog.run_bind]
    rcases List.mem_cons.mp hi with rfl | hrest
    · refine hfirst.before (sameSlot_of_within (within_endSides rest) ?_ ?_ _)
      · rintro a ⟨j, hj, ha⟩ heq
        rw [ha] at heq
        cases heq
        exact hnot hj
      · rintro a ⟨j, hj, ha⟩
        simp [ha]
    · have hne : i ≠ first := by
        rintro rfl
        exact hnot hrest
      exact (ih hnodup hlive1 i hrest).after (hsame i hne)

end Report

end OrbitStream
