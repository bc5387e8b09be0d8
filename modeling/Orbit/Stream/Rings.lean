import Orbit.Stream.Bytes
import Orbit.Stream.Holders

/-! The words that a drop and an installation of a stream touch, and what a creation that runs alone
leaves in the directions of its slot. -/

namespace OrbitStream

open Orbit.Atomic Function

theorem within_drop (handle : Handle) :
    handle.drop.Within fun a => a = .claimed handle.index handle.side ∨ a = .state handle.index := by
  refine .bind (within_isGeneration _ _) fun is => ?_
  split
  · refine .bind (within_compareExchange (.inl rfl) _ _) fun released => ?_
    split
    · refine .bind (within_load _) fun other => ?_
      split
      · exact .bind (within_compareExchange (.inr rfl) _ _) fun _ => .ret _
      · exact .ret _
    · exact .ret _
  · exact .ret _

def Addr.data? : Addr → Option Nat
  | head i _ | tail i _ | flags i _ | byte i _ _ => some i
  | _ => none

theorem within_install (i creator incarnation : Nat) :
    (install i creator incarnation).Within fun a => a.data? = none ∨ a.data? = some i := by
  have hclear : ∀ direction, (clear i direction).Within
      fun a => a.data? = none ∨ a.data? = some i := fun direction =>
    .bind (within_store (.inr rfl) _) fun _ => .bind (within_store (.inr rfl) _) fun _ =>
      .bind (within_store (.inr rfl) _) fun _ => within_store (.inl rfl) _
  refine .bind (within_load _) fun generation => ?_
  split
  · exact .bind (within_store (.inl rfl) _) fun _ => .ret _
  refine .bind (within_store (.inl rfl) _) fun _ => .bind (within_store (.inl rfl) _) fun _ => ?_
  refine .bind (within_store (.inl rfl) _) fun _ => .bind (within_store (.inl rfl) _) fun _ => ?_
  refine .bind (within_store (.inl rfl) _) fun _ => .bind (within_store (.inl rfl) _) fun _ => ?_
  refine .bind (hclear .a) fun _ => .bind (hclear .b) fun _ => ?_
  exact .bind (within_store (.inl rfl) _) fun _ => .bind (within_store (.inl rfl) _) fun _ => .ret _

/-- A direction in which nothing was ever written. -/
def Blank (mem : Mem Addr) (i : Nat) : Prop :=
  ∀ direction, mem (.head i direction) = 0 ∧ mem (.tail i direction) = 0 ∧
    mem (.flags i direction) = 0

theorem run_install_data (i creator incarnation : Nat) (mem : Mem Addr) :
    let r := (install i creator incarnation).run mem
    (r.1 = none ∧ ∀ a : Addr, a.data? ≠ none → r.2 a = mem a) ∨
      ∃ generation, r.1 = some generation ∧ 0 < generation ∧ generation ≤ generationMask ∧
        Blank r.2 i ∧ ∀ a : Addr, a.data? ≠ none → a.data? ≠ some i → r.2 a = mem a := by
  intro r
  have hr : r = (install i creator incarnation).run mem := rfl
  have hwithin := within_install i creator incarnation
  rw [install, run_load_bind] at hr
  by_cases hlimit : mem (.generation i) ≥ generationLimit
  · rw [if_pos hlimit, Prog.run_bind, run_store, Prog.run_pure] at hr
    refine .inl ⟨by rw [hr], fun a ha => ?_⟩
    rw [hr]
    refine update_of_ne ?_ _ _
    rintro rfl
    exact ha rfl
  · refine .inr ⟨mem (.generation i) + 1, ?_, Nat.succ_pos _, ?_, ?_, fun a ha hne => ?_⟩
    · rw [hr]
      simp [hlimit]
    · rw [generationLimit] at hlimit
      omega
    · rw [hr, if_neg hlimit]
      intro direction
      cases direction <;> simp [clear]
    · refine hwithin.run_eq mem ?_
      rintro (h | h)
      · exact ha h
      · exact hne h

theorem run_allocateFrom_data {g : Geometry} (s : Streams g) (hint : Nat) (offsets : List Nat) (mem : Mem Addr) :
    let r := (allocateFrom s hint offsets).run mem
    ((∃ e, r.1 = .error e) ∧ ∀ a : Addr, a.data? ≠ none → r.2 a = mem a) ∨
      ∃ k generation, k < g.laneCapacity ∧ r.1 = .ok (s.node * g.laneCapacity + k, generation) ∧
        0 < generation ∧ generation ≤ generationMask ∧ Blank r.2 (s.node * g.laneCapacity + k) ∧
        ∀ a : Addr, a.data? ≠ none → a.data? ≠ some (s.node * g.laneCapacity + k) →
          r.2 a = mem a := by
  intro r
  induction offsets generalizing mem with
  | nil => exact .inl ⟨⟨_, rfl⟩, fun _ _ => rfl⟩
  | cons offset rest ih =>
    have hr : r = (allocateFrom s hint (offset :: rest)).run mem := rfl
    have hk : ((hint + offset) &&& (g.laneCapacity - 1)) < g.laneCapacity := by
      rw [and_mask g.valid_parts.2.2.1]
      exact Nat.mod_lt _ g.lane_pos
    rw [allocateFrom] at hr
    generalize (hint + offset) &&& (g.laneCapacity - 1) = k at hr hk
    rw [run_load_bind] at hr
    by_cases hempty : mem (.state (s.node * g.laneCapacity + k)) = slotEmpty
    · rw [if_pos hempty, Prog.run_bind] at hr
      rcases run_install_data (s.node * g.laneCapacity + k) s.node s.incarnation mem with
        ⟨hnone, hsame⟩ | ⟨generation, hsome, hpos, hle, hblank, hother⟩
      · rw [hnone] at hr
        rw [hr]
        rcases ih ((install (s.node * g.laneCapacity + k) s.node s.incarnation).run mem).2 with
          ⟨he, hs⟩ | ⟨k', generation, hk', hok, hpos, hle, hblank, hother⟩
        · exact .inl ⟨he, fun a ha => (hs a ha).trans (hsame a ha)⟩
        · exact .inr ⟨k', generation, hk', hok, hpos, hle, hblank, fun a ha hne =>
            (hother a ha hne).trans (hsame a ha)⟩
      · rw [hsome] at hr
        simp only [Prog.run_bind, run_store, Prog.run_pure] at hr
        have hhint : ∀ a : Addr, a.data? ≠ none → r.2 a =
            ((install (s.node * g.laneCapacity + k) s.node s.incarnation).run mem).2 a := by
          intro a ha
          rw [hr]
          refine update_of_ne ?_ _ _
          rintro rfl
          exact ha rfl
        refine .inr ⟨k, generation, hk, by rw [hr], hpos, hle, fun direction => ?_,
          fun a ha hne => (hhint a ha).trans (hother a ha hne)⟩
        obtain ⟨h1, h2, h3⟩ := hblank direction
        exact ⟨(hhint _ (by simp [Addr.data?])).trans h1, (hhint _ (by simp [Addr.data?])).trans h2,
          (hhint _ (by simp [Addr.data?])).trans h3⟩
    · rw [if_neg hempty] at hr
      rw [hr]
      exact ih mem

theorem run_create_data {g : Geometry} (s : Streams g) (mem : Mem Addr) :
    let r := s.create.run mem
    ((∃ e, r.1 = .error e) ∧ ∀ a : Addr, a.data? ≠ none → r.2 a = mem a) ∨
      ∃ handle ticket, r.1 = .ok (handle, ticket) ∧ handle.side = .a ∧
        locateIn g handle.id = .ok handle.index ∧ Blank r.2 handle.index ∧
        ∀ a : Addr, a.data? ≠ none → a.data? ≠ some handle.index → r.2 a = mem a := by
  intro r
  have hr : r = s.create.run mem := rfl
  rw [Streams.create, Prog.run_bind, Streams.allocate] at hr
  simp only [Prog.run_bind, run_acquire, run_load, run_release, Prog.run_pure] at hr
  generalize hm : update mem (.allocate s.node) 1 = locked at hr
  have hsame : ∀ a : Addr, a.data? ≠ none → locked a = mem a := by
    intro a ha
    rw [← hm]
    refine update_of_ne ?_ _ _
    rintro rfl
    exact ha rfl
  have hback : ∀ (m : Mem Addr) (a : Addr), a.data? ≠ none →
      update m (.allocate s.node) 0 a = m a := by
    intro m a ha
    refine update_of_ne ?_ _ _
    rintro rfl
    exact ha rfl
  rcases run_allocateFrom_data s (locked (.hint s.node)) (List.range g.laneCapacity) locked with
    ⟨⟨e, he⟩, hs⟩ | ⟨k, generation, hk, hok, hpos, hle, hblank, hother⟩
  · rw [he] at hr
    refine .inl ⟨⟨e, by rw [hr]; rfl⟩, fun a ha => ?_⟩
    rw [hr]
    exact (hback _ a ha).trans ((hs a ha).trans (hsame a ha))
  · rw [hok] at hr
    simp only [Prog.run_bind, run_mark, run_load, Prog.run_pure] at hr
    refine .inr ⟨_, _, by rw [hr], rfl, ?_, ?_, fun a ha hne => ?_⟩
    · have hnode := s.node.isLt
      have hmod : (s.node * g.laneCapacity + k) % g.laneCapacity = k :=
        Nat.mul_add_mod_of_lt hk
      dsimp only
      rw [hmod, locateIn, if_neg (by simp only; omega)]
    · rw [hr]
      intro direction
      obtain ⟨h1, h2, h3⟩ := hblank direction
      exact ⟨(hback _ _ (by simp [Addr.data?])).trans h1,
        (hback _ _ (by simp [Addr.data?])).trans h2, (hback _ _ (by simp [Addr.data?])).trans h3⟩
    · rw [hr]
      exact (hback _ a ha).trans ((hother a ha hne).trans (hsame a ha))

end OrbitStream
