import Orbit.Stream.World

/-! What each operation does to the words that say who holds a slot, when it runs alone. -/

namespace OrbitStream

open Orbit.Atomic Function

variable {g : Geometry}

def Addr.Control : Addr → Prop
  | state _ | generation _ | claimed _ _ | node _ _ | incarnation _ _ => True
  | _ => False

def Addr.slot? : Addr → Option Nat
  | state slot | generation slot | claimed slot _ | node slot _ | incarnation slot _ => some slot
  | _ => none

theorem within_isGeneration {P : Addr → Prop} (slot generation : Nat) :
    (isGeneration slot generation).Within P := by
  refine .bind (within_load _) fun state => ?_
  split
  · exact .bind (within_load _) fun _ => .ret _
  · exact .ret _

theorem run_isGeneration (slot generation : Nat) (mem : Mem Addr) :
    (isGeneration slot generation).run mem =
      (decide (mem (.state slot) = slotLive ∧ mem (.generation slot) = generation), mem) := by
  simp only [isGeneration, Prog.run_bind, run_load]
  by_cases h : mem (.state slot) = slotLive
  · simp only [h, if_true, Prog.run_bind, run_load, Prog.run_pure, true_and]
    rfl
  · simp [h]

theorem within_writerMayPark {P : Addr → Prop} (index : Nat) (direction : Side) (before : Nat) :
    (writerMayPark index direction before).Within P := by
  unfold writerMayPark
  split
  · exact .ret _
  · exact .bind (within_load _) fun _ => .bind (within_load _) fun _ => .ret _

theorem within_setFlag (handle : Handle) (direction : Side) (flag : Nat) :
    (handle.setFlag direction flag).Within fun a => ¬a.Control := by
  refine .bind (within_isGeneration _ _) fun is => ?_
  split
  · refine .bind (within_fetchOr id _) fun before => ?_
    split
    · split
      · exact .ret _
      split
      · exact .ret _
      · exact within_writerMayPark _ _ _
    · exact .ret _
  · exact .ret _

theorem within_clear (slot : Nat) (direction : Side) :
    (clear slot direction).Within fun a => ¬a.Control :=
  .bind (within_store id _) fun _ => .bind (within_store id _) fun _ =>
    .bind (within_store id _) fun _ => within_store id _

def SameControl (mem mem' : Mem Addr) : Prop := ∀ a : Addr, a.Control → mem' a = mem a

theorem SameControl.of_within {α : Type} {p : StreamM α} (h : p.Within fun a => ¬a.Control)
    (mem : Mem Addr) : SameControl mem (p.run mem).2 :=
  fun _ ha => h.run_eq mem fun hn => hn ha

theorem SameControl.refl (mem : Mem Addr) : SameControl mem mem := fun _ _ => rfl

theorem SameControl.trans {m1 m2 m3 : Mem Addr} (h1 : SameControl m1 m2) (h2 : SameControl m2 m3) :
    SameControl m1 m3 := fun a ha => (h2 a ha).trans (h1 a ha)

theorem run_drop (h : Handle) (mem : Mem Addr) :
    (h.drop.run mem).2 =
      if mem (.state h.index) = slotLive ∧ mem (.generation h.index) = h.id.generation ∧
          mem (.claimed h.index h.side) = sideClaimed then
        if mem (.claimed h.index h.side.other) = sideClaimed then
          Function.update mem (.claimed h.index h.side) sideReleased
        else
          Function.update (Function.update mem (.claimed h.index h.side) sideReleased)
            (.state h.index) slotEmpty
      else mem := by
  simp only [Handle.drop, Prog.run_bind, run_isGeneration]
  by_cases hl : mem (.state h.index) = slotLive ∧ mem (.generation h.index) = h.id.generation
  · by_cases hc : mem (.claimed h.index h.side) = sideClaimed
    · by_cases ho : mem (.claimed h.index h.side.other) = sideClaimed
      · simp [hl, hc, ho]
      · simp [hl, hc, ho]
    · simp [hl, hc]
  · simp only [hl, decide_false, Bool.false_eq_true, if_false, Prog.run_pure]
    rw [if_neg]
    intro h
    exact hl ⟨h.1, h.2.1⟩

theorem run_open (s : Streams g) (ticket : Ticket) (mem : Mem Addr) :
    let r := (s.open ticket).run mem
    (∃ e, r.1 = .error e ∧ r.2 = mem) ∨
      ∃ i, s.locate ticket.id = .ok i ∧ mem (.state i) = slotLive ∧
        mem (.generation i) = ticket.id.generation ∧ mem (.claimed i ticket.side) = sideFree ∧
        r.1 = .ok ⟨s.node, s.incarnation, i, ticket.id, ticket.side⟩ ∧
        r.2 = Function.update (Function.update (Function.update mem (.claimed i ticket.side)
          sideClaimed) (.incarnation i ticket.side) s.incarnation) (.node i ticket.side) s.node := by
  intro r
  have hr : r = (s.open ticket).run mem := rfl
  have herror : ∀ e, r = (.error e, mem) → ∃ e, r.1 = .error e ∧ r.2 = mem :=
    fun e he => ⟨e, by rw [he], by rw [he]⟩
  unfold Streams.open at hr
  cases hlocate : s.locate ticket.id with
  | error e =>
    rw [hlocate] at hr
    exact .inl (herror e hr)
  | ok i =>
    rw [hlocate] at hr
    simp only [Prog.run_bind, run_load] at hr
    by_cases he : ticket.epoch = mem .epoch
    · by_cases hl : mem (.state i) = slotLive ∧ mem (.generation i) = ticket.id.generation
      · by_cases hc : mem (.claimed i ticket.side) = sideFree
        · refine .inr ⟨i, rfl, hl.1, hl.2, hc, ?_, ?_⟩
          · rw [hr]
            simp [he, hl, hc, run_isGeneration]
          · rw [hr]
            simp [he, hl, hc, run_isGeneration]
        · refine .inl (herror (.alreadyClaimed ticket) ?_)
          rw [hr]
          simp [he, hl, hc, run_isGeneration]
      · refine .inl (herror (.stale ticket.id) ?_)
        rw [hr]
        simp [he, hl, run_isGeneration]
    · refine .inl (herror (.stale ticket.id) ?_)
      rw [hr]
      simp [he]

theorem SameControl.update {mem mem' : Mem Addr} (h : SameControl mem mem') (a : Addr) (value : Nat) :
    SameControl (Function.update mem a value) (Function.update mem' a value) := by
  intro b hb
  by_cases hab : b = a
  · rw [hab, update_self, update_self]
  · rw [update_of_ne hab, update_of_ne hab]
    exact h b hb

theorem run_rearm (s : Streams g) (id : StreamId) (mem : Mem Addr) :
    let r := (s.rearm id).run mem
    r.2 = mem ∨
      ∃ i, s.locate id = .ok i ∧ mem (.state i) = slotLive ∧ mem (.generation i) = id.generation ∧
        mem (.claimed i .b) = sideReleased ∧
        SameControl (Function.update (Function.update (Function.update mem (.node i .b) nobody)
          (.incarnation i .b) 0) (.claimed i .b) sideFree) r.2 := by
  intro r
  have hr : r = (s.rearm id).run mem := rfl
  unfold Streams.rearm at hr
  cases hlocate : s.locate id with
  | error e =>
    rw [hlocate] at hr
    exact .inl (by rw [hr]; rfl)
  | ok i =>
    rw [hlocate] at hr
    simp only [Prog.run_bind, run_isGeneration] at hr
    by_cases hl : mem (.state i) = slotLive ∧ mem (.generation i) = id.generation
    · by_cases hc : mem (.claimed i .b) = sideReleased
      · refine .inr ⟨i, rfl, hl.1, hl.2, hc, ?_⟩
        have hne : sideReleased ≠ sideClaimed := by decide
        have h1 := SameControl.of_within (within_clear i .a) mem
        have h2 := h1.trans (SameControl.of_within (within_clear i .b) ((clear i .a).run mem).2)
        have hclaimed := (h2 (.claimed i .b) trivial).trans hc
        rw [hr]
        simp [hl, hc, hne, hclaimed]
        exact ((h2.update _ _).update _ _).update _ _
      · refine .inl ?_
        rw [hr]
        by_cases hd : mem (.claimed i .b) = sideClaimed
        · simp [hl, hd]
        · simp [hl, hd, hc]
    · refine .inl ?_
      rw [hr]
      simp [hl]

/-- Slots that ran out of generations on the way: empty before, exhausted after. -/
def Spent (mem mem' : Mem Addr) : Prop :=
  ∀ a : Addr, a.Control → mem' a = mem a ∨
    ∃ i, a = .state i ∧ mem a = slotEmpty ∧ mem' a = slotExhausted

theorem Spent.of_same {mem mem' : Mem Addr} (h : SameControl mem mem') : Spent mem mem' :=
  fun a ha => .inl (h a ha)

theorem Spent.trans {m1 m2 m3 : Mem Addr} (h1 : Spent m1 m2) (h2 : Spent m2 m3) : Spent m1 m3 := by
  intro a ha
  rcases h1 a ha with e1 | ⟨i, hi, e1, e1'⟩
  · rw [← e1]
    exact h2 a ha
  · rcases h2 a ha with e2 | ⟨j, -, e2, -⟩
    · exact .inr ⟨i, hi, e1, e2.trans e1'⟩
    · rw [e1'] at e2
      cases e2

/-- The control words of a slot installed by a process. -/
structure Installed (mem mem' : Mem Addr) (i creator incarnation : Nat) : Prop where
  empty : mem (.state i) = slotEmpty
  state : mem' (.state i) = slotLive
  generation : mem' (.generation i) = mem (.generation i) + 1
  claimed : mem' (.claimed i .a) = sideClaimed
  free : mem' (.claimed i .b) = sideFree
  node : mem' (.node i .a) = creator
  incarnation : mem' (.incarnation i .a) = incarnation
  others : ∀ a : Addr, a.Control → a.slot? ≠ some i → mem' a = mem a

theorem Installed.of_same {m1 m2 m3 : Mem Addr} {i creator incarnation : Nat}
    (h : Installed m1 m2 i creator incarnation) (hs : SameControl m2 m3) :
    Installed m1 m3 i creator incarnation where
  empty := h.empty
  state := (hs (.state i) trivial).trans h.state
  generation := (hs (.generation i) trivial).trans h.generation
  claimed := (hs (.claimed i .a) trivial).trans h.claimed
  free := (hs (.claimed i .b) trivial).trans h.free
  node := (hs (.node i .a) trivial).trans h.node
  incarnation := (hs (.incarnation i .a) trivial).trans h.incarnation
  others a ha hne := (hs a ha).trans (h.others a ha hne)

theorem run_install (i creator incarnation : Nat) (mem : Mem Addr)
    (hempty : mem (.state i) = slotEmpty) :
    let r := (install i creator incarnation).run mem
    (r.1 = none ∧ Spent mem r.2) ∨
      (r.1 = some (mem (.generation i) + 1) ∧ Installed mem r.2 i creator incarnation) := by
  intro r
  have hr : r = (install i creator incarnation).run mem := rfl
  unfold install at hr
  simp only [Prog.run_bind, run_load] at hr
  by_cases hlimit : mem (.generation i) ≥ generationLimit
  · simp only [hlimit, if_true] at hr
    refine .inl ⟨by rw [hr]; rfl, fun a ha => ?_⟩
    by_cases he : a = .state i
    · subst he
      exact .inr ⟨i, rfl, hempty, by rw [hr]; simp⟩
    · refine .inl ?_
      rw [hr]
      simp [he]
  · simp only [hlimit, if_false, Prog.run_bind, run_store, Prog.run_pure] at hr
    -- the claims and the owners, then the directions, then the generation and the state
    generalize h1 : Function.update (Function.update (Function.update (Function.update
      (Function.update (Function.update mem (.claimed i .a) sideClaimed) (.claimed i .b) sideFree)
      (.node i .a) creator) (.node i .b) nobody) (.incarnation i .a) incarnation)
      (.incarnation i .b) 0 = m1 at hr
    have h2 := (SameControl.of_within (within_clear i .a) m1).trans
      (SameControl.of_within (within_clear i .b) ((clear i .a).run m1).2)
    have h3 := (h2.update (.generation i) (mem (.generation i) + 1)).update (.state i) slotLive
    rw [hr]
    refine .inr ⟨rfl, Installed.of_same ?_ h3⟩
    subst h1
    exact
      { empty := hempty
        state := by simp
        generation := by simp
        claimed := by simp
        free := by simp
        node := by simp
        incarnation := by simp
        others := fun a ha hne => by cases a <;> simp_all [Addr.slot?] }

theorem run_allocateFrom (s : Streams g) (hint : Nat) (offsets : List Nat) (mem : Mem Addr) :
    let r := (allocateFrom s hint offsets).run mem
    ((∃ e, r.1 = .error e) ∧ Spent mem r.2) ∨
      ∃ i m1, r.1 = .ok (i, m1 (.generation i) + 1) ∧ Spent mem m1 ∧
        Installed m1 r.2 i s.node s.incarnation := by
  intro r
  induction offsets generalizing mem with
  | nil => exact .inl ⟨⟨_, rfl⟩, .of_same (.refl mem)⟩
  | cons offset rest ih =>
    have hr : r = (allocateFrom s hint (offset :: rest)).run mem := rfl
    rw [allocateFrom] at hr
    simp only [Prog.run_bind, run_load] at hr
    generalize s.node * g.laneCapacity + ((hint + offset) &&& (g.laneCapacity - 1)) = i at hr
    by_cases hempty : mem (.state i) = slotEmpty
    · simp only [hempty, if_true, Prog.run_bind] at hr
      rcases run_install i s.node s.incarnation mem hempty with ⟨hnone, hspent⟩ | ⟨hsome, hinst⟩
      · rw [hnone] at hr
        rw [hr]
        rcases ih ((install i s.node s.incarnation).run mem).2 with ⟨he, hs⟩ | ⟨j, m1, hok, hs, hi⟩
        · exact .inl ⟨he, hspent.trans hs⟩
        · exact .inr ⟨j, m1, hok, hspent.trans hs, hi⟩
      · rw [hsome] at hr
        simp only [Prog.run_bind, run_store, Prog.run_pure] at hr
        rw [hr]
        refine .inr ⟨i, mem, rfl, .of_same (.refl mem), hinst.of_same fun a ha => ?_⟩
        refine update_of_ne ?_ _ _
        rintro rfl
        exact ha
    · simp only [hempty, if_false] at hr
      rw [hr]
      exact ih mem

theorem run_allocate (s : Streams g) (mem : Mem Addr) :
    let r := s.allocate.run mem
    ((∃ e, r.1 = .error e) ∧ Spent mem r.2) ∨
      ∃ i m1, r.1 = .ok (i, m1 (.generation i) + 1) ∧ Spent mem m1 ∧
        Installed m1 r.2 i s.node s.incarnation := by
  intro r
  have hr : r = s.allocate.run mem := rfl
  simp only [Streams.allocate, Prog.run_bind, run_acquire, run_load, run_release,
    Prog.run_pure] at hr
  have hlock : ∀ (m : Mem Addr) (v : Nat),
      SameControl m (Function.update m (.allocate s.node) v) := by
    intro m v a ha
    refine update_of_ne ?_ _ _
    rintro rfl
    exact ha
  rw [hr]
  rcases run_allocateFrom s _ _ (Function.update mem (.allocate s.node) 1) with
    ⟨he, hs⟩ | ⟨i, m1, hok, hs, hi⟩
  · exact .inl ⟨he, (Spent.of_same (hlock mem 1)).trans (hs.trans (.of_same (hlock _ 0)))⟩
  · exact .inr ⟨i, m1, hok, (Spent.of_same (hlock mem 1)).trans hs, hi.of_same (hlock _ 0)⟩

theorem run_create (s : Streams g) (mem : Mem Addr) :
    let r := s.create.run mem
    ((∃ e, r.1 = .error e) ∧ Spent mem r.2) ∨
      ∃ i m1 ticket, r.1 = .ok (⟨s.node, s.incarnation, i,
          ⟨g.spec.kind, s.node, i % g.laneCapacity, m1 (.generation i) + 1⟩, .a⟩, ticket) ∧
        Spent mem m1 ∧ Installed m1 r.2 i s.node s.incarnation := by
  intro r
  have hr : r = s.create.run mem := rfl
  rw [Streams.create, Prog.run_bind] at hr
  rcases run_allocate s mem with ⟨⟨e, he⟩, hs⟩ | ⟨i, m1, hok, hs, hi⟩
  · rw [he] at hr
    exact .inl ⟨⟨e, by rw [hr]; rfl⟩, by rw [hr]; exact hs⟩
  · rw [hok] at hr
    simp only [Prog.run_bind, run_mark, run_load, Prog.run_pure] at hr
    rw [hr]
    exact .inr ⟨i, m1, _, rfl, hs, hi⟩

end OrbitStream
