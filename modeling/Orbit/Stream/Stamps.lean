import Orbit.Stream.Holders

/-! Which lives of which nodes have sides: an operation claims a side for the process that creates or
opens it, and every other one only ends or lets go. -/

namespace OrbitStream

open Orbit.Atomic Function

variable {g : Geometry}
/-- The operation claims a side for this life of the node. -/
def Op.Stamps (node incarnation : Nat) : Op g → Prop
  | .create s | .openTicket s _ => (s.node : Nat) = node ∧ s.incarnation = incarnation
  | _ => False

instance (node incarnation : Nat) (op : Op g) : Decidable (op.Stamps node incarnation) :=
  match op with
  | .create s | .openTicket s _ =>
    inferInstanceAs (Decidable ((s.node : Nat) = node ∧ s.incarnation = incarnation))
  | .finish _ | .reset _ | .stopReading _ | .dropRead _ | .dropWrite _ | .drop _ | .rearm ..
  | .rearmEndpoint .. | .nodeDead .. | .supersede _ => .isFalse id

/-- Every claimed side was claimed before for the same life of the same node, or the life is one of
those named. -/
def Inherits (mem mem' : Mem Addr) (named : Nat → Nat → Prop) : Prop :=
  ∀ i side, mem' (.claimed i side) = sideClaimed →
    (mem (.claimed i side) = sideClaimed ∧ mem' (.node i side) = mem (.node i side) ∧
      mem' (.incarnation i side) = mem (.incarnation i side)) ∨
    named (mem' (.node i side)) (mem' (.incarnation i side))

section Inherits

variable {mem m1 mem' : Mem Addr} {named : Nat → Nat → Prop} {w : World}

theorem Inherits.alike (h : Alike mem mem') : Inherits mem mem' named := fun i side hc =>
  .inl ⟨(h.2 (.claimed i side) trivial (by simp)).symm.trans hc,
    h.2 (.node i side) trivial (by simp), h.2 (.incarnation i side) trivial (by simp)⟩

theorem Inherits.same (h : SameControl mem mem') : Inherits mem mem' named := .alike h.alike

theorem Inherits.trans (h1 : Inherits mem m1 fun _ _ => False) (h2 : Inherits m1 mem' named) :
    Inherits mem mem' named := by
  intro i side hc
  rcases h2 i side hc with ⟨hc1, hn, hi⟩ | hnamed
  · rcases h1 i side hc1 with ⟨hc0, hn0, hi0⟩ | hfalse
    · exact .inl ⟨hc0, hn.trans hn0, hi.trans hi0⟩
    · exact hfalse.elim
  · exact .inr hnamed

theorem Inherits.drop (h : Handle) (mem : Mem Addr) :
    Inherits mem (h.drop.run mem).2 named := by
  have hreleased : sideReleased ≠ sideClaimed := by decide
  rw [run_drop]
  intro i side hc
  split at hc
  · rename_i hown
    rw [if_pos hown]
    by_cases hs : Addr.claimed i side = .claimed h.index h.side
    · -- the side that was let go is not claimed
      rw [hs] at hc
      split at hc <;> simp [hreleased] at hc
    · split at hc <;> rename_i ho
      · rw [if_pos ho]
        rw [update_of_ne hs] at hc
        exact .inl ⟨hc, by simp, by simp⟩
      · rw [if_neg ho]
        rw [update_of_ne (by simp), update_of_ne hs] at hc
        exact .inl ⟨hc, by simp, by simp⟩
  · rename_i hnot
    rw [if_neg hnot]
    exact .inl ⟨hc, rfl, rfl⟩

theorem Inherits.report
    (hlive : ∀ i, mem (.state i) = slotLive ↔ ∃ side, mem (.claimed i side) = sideClaimed)
    (node : Nat) (dead : Nat → Bool) {slots : List Nat} (hnodup : slots.Nodup) :
    Inherits mem ((endSides node dead slots).run mem).2 named := by
  intro i side hc
  have hkeep : ∀ a : Addr, (∀ j ∈ slots, a.ending? ≠ some j) →
      ((endSides node dead slots).run mem).2 a = mem a := by
    intro a ha
    refine (within_endSides slots).run_eq mem ?_
    rintro ⟨j, hj, heq⟩
    exact ha j hj heq
  refine .inl ⟨?_, hkeep _ (by simp [Addr.ending?]), hkeep _ (by simp [Addr.ending?])⟩
  by_cases hi : i ∈ slots
  · have hended : Ended node dead mem ((endSides node dead slots).run mem).2 i :=
      run_endSides hnodup hlive i hi
    have hcl := hended.claimed side
    rw [hc] at hcl
    split at hcl
    · cases hcl
    · exact hcl.symm
  · rw [← hc]
    refine (hkeep _ fun j hj heq => hi ?_).symm
    cases heq
    exact hj

theorem Inherits.at {n : Nat} {needs : Endpoint → Bool} {act : Endpoint → World}
    (h : ∀ e, Inherits w.mem (act e).mem named) : Inherits w.mem (w.at n needs act).mem named := by
  unfold World.at
  split
  · split
    · exact h _
    · exact .same (.refl _)
  · exact .same (.refl _)

theorem Inherits.rearm (s : Streams g) (id : StreamId) :
    Inherits mem ((s.rearm id).run mem).2 named := by
  rcases run_rearm s id mem with hsame | ⟨i, -, -, -, -, hsame⟩
  · rw [hsame]
    exact .same (.refl _)
  · refine Inherits.trans ?_ (.same hsame)
    intro j side hc
    by_cases hs : Addr.claimed j side = .claimed i .b
    · rw [hs, update_self] at hc
      cases hc
    · have hne : ¬(j = i ∧ side = .b) := by simpa using hs
      rw [update_of_ne hs, update_of_ne (by simp),
        update_of_ne (by simp)] at hc
      exact .inl ⟨hc, by simp [hne], by simp [hne]⟩

theorem Inherits.dropRead (e : Endpoint) (mem : Mem Addr) :
    Inherits mem (e.dropRead.run mem).2 named := by
  obtain ⟨m1, hsame, hrun⟩ := run_dropRead e mem
  rw [hrun]
  split
  · exact .same hsame
  · exact .trans (.same hsame) (.drop e.handle m1)

theorem Inherits.dropWrite (e : Endpoint) (mem : Mem Addr) :
    Inherits mem (e.dropWrite.run mem).2 named := by
  obtain ⟨m1, hsame, hrun⟩ := run_dropWrite e mem
  rw [hrun]
  split
  · exact .same hsame
  · exact .trans (.same hsame) (.drop e.handle m1)

theorem exec_inherits (ht : Tidy w.mem w.handles) (op : Op g) :
    Inherits w.mem (exec w op).mem fun node incarnation => op.Stamps node incarnation := by
  cases op with
  | create s =>
    rw [exec]
    rcases run_create s w.mem with ⟨⟨e, he⟩, hspent⟩ | ⟨i, m1, ticket, hok, hspent, hinst⟩
    · simp only [he]
      exact .alike hspent.alike
    · simp only [hok]
      refine .trans (.alike hspent.alike) fun j side hc => ?_
      by_cases hj : j = i
      · -- the slot that was installed has its near side claimed, by its creator
        subst hj
        cases side with
        | a => exact .inr ⟨hinst.node.symm, hinst.incarnation.symm⟩
        | b =>
          rw [hinst.free] at hc
          cases hc
      · have hother : ∀ a : Addr, a.Control → a.slot? = some j →
            ((s.create).run w.mem).2 a = m1 a := fun a ha hs =>
          hinst.others a ha (by rw [hs]; simpa using hj)
        exact .inl ⟨(hother (.claimed j side) trivial rfl).symm.trans hc,
          hother (.node j side) trivial rfl, hother (.incarnation j side) trivial rfl⟩
  | openTicket s ticket =>
    rw [exec]
    rcases run_open s ticket w.mem with ⟨e, he, hmem⟩ | ⟨i, -, -, -, -, hok, hmem⟩
    · simp only [he, hmem]
      exact .same (.refl _)
    · simp only [hok, hmem]
      intro j side hc
      by_cases hs : j = i ∧ side = ticket.side
      · obtain ⟨rfl, rfl⟩ := hs
        exact .inr (by simp [Op.Stamps])
      · have hne : Addr.claimed j side ≠ .claimed i ticket.side := by simpa using hs
        rw [update_of_ne (by simp), update_of_ne (by simp),
          update_of_ne hne] at hc
        exact .inl ⟨hc, by simp [hs], by simp [hs]⟩
  | finish n => exact .at fun e => .same (same_finish e w.mem)
  | reset n => exact .at fun e => .same (same_reset e w.mem)
  | stopReading n => exact .at fun e => .same (same_stopReading e w.mem)
  | dropRead n => exact .at fun e => .dropRead e w.mem
  | dropWrite n => exact .at fun e => .dropWrite e w.mem
  | drop n =>
    refine .at fun e => ?_
    simp only [Endpoint.drop, Prog.run_bind]
    exact .trans (.dropRead e w.mem) (.dropWrite _ _)
  | rearm s id => exact .rearm s id
  | rearmEndpoint s n =>
    refine .at fun e => ?_
    have hrearm : ∀ named : Nat → Nat → Prop, Inherits w.mem ((e.rearm s).run w.mem).2 named := by
      intro named
      unfold Endpoint.rearm
      split
      · exact .same (.refl _)
      · exact .rearm s e.handle.id
    dsimp only
    split
    · exact hrearm _
    · exact hrearm _
  | nodeDead node incarnation => exact .report ht.live node _ List.nodup_range
  | supersede s => exact .report ht.live s.node _ List.nodup_range

end Inherits

end OrbitStream
