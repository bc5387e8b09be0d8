import Orbit.Stream.Sides

/-! Creating, opening, re-arming and dropping keep the invariant of `Orbit.Stream.Sides`, and what
follows for every run: whose handles are live, and what a slot is when nobody holds it. -/

namespace OrbitStream

open Orbit.Atomic Function
open Multiset hiding Mem

variable {g : Geometry} {t : Nat} {call : SlotCall g} {α : Type} {m : SlotShare}

theorem safe_slots_quiet {p : StreamM α} {Q : α → SlotShare → Prop}
    (hp : p.Quiet Addr.Unwatched) (hQ : ∀ a, Q a m) :
    Safe (slotSys g) inGeneration (SlotInv g) t call p Q m :=
  .quiet hp (fun _ _ _ _ _ hplace hI => hI.unwatched hplace) hQ

theorem quiet_isGeneration (slot generation : Nat) :
    (isGeneration slot generation).Quiet Addr.Unwatched := by
  refine .bind (quiet_load _) fun state => ?_
  split
  · exact .bind (quiet_load _) fun _ => .ret _
  · exact .ret _

theorem quiet_clear (slot : Nat) (direction : Side) : (clear slot direction).Quiet Addr.Unwatched :=
  .bind (quiet_store trivial _) fun _ => .bind (quiet_store trivial _) fun _ =>
    .bind (quiet_store trivial _) fun _ => quiet_store trivial _

theorem safe_ignored (place : Addr) (hplace : place.Unwatched) (value : Nat) :
    Safe (slotSys g) inGeneration (SlotInv g) t call (store place value) (fun _ m' => m' = m) m :=
  safe_slots_quiet (quiet_store hplace value) fun _ => rfl

theorem safe_clear (slot : Nat) (direction : Side) :
    Safe (slotSys g) inGeneration (SlotInv g) t call (clear slot direction) (fun _ m' => m' = m) m :=
  safe_slots_quiet (quiet_clear slot direction) fun _ => rfl

theorem safe_isGeneration_held (handle : Handle) :
    Safe (slotSys g) inGeneration (SlotInv g) t call (isGeneration handle.index handle.id.generation)
      (fun is m' => is = true ∧ m' = claim handle) (claim handle) := by
  refine .load_bind fun others live mem hI => ?_
  have hlive : mem (.state handle.index) = slotLive := hI.claim_held.state
  rw [if_pos hlive]
  refine Safe.goes (.load_bind fun others live mem hI => ?_) hI
  exact ⟨claim handle, hI, beq_iff_eq.mpr hI.claim_held.generation, rfl⟩

section

variable {s : Streams g} {node i : Nat} {stage : Stage}

def Streams.created (s : Streams g) (index generation : Nat) : Handle :=
  ⟨s.node, s.incarnation, index, ⟨g.spec.kind, s.node, index % g.laneCapacity, generation⟩, .a⟩

theorem safe_acquire (node : Nat) :
    Safe (slotSys g) inGeneration (SlotInv g) t call (acquire (.allocate node))
      (fun _ m' => m' = locked node none) 0 := by
  intro others live mem hI hfree
  rw [zero_add] at hI
  exact ⟨_, hI.acquired hfree, rfl⟩

theorem safe_release (node : Nat) (extra : SlotShare) :
    Safe (slotSys g) inGeneration (SlotInv g) t call (release (.allocate node))
      (fun _ m' => m' = extra) (extra + locked node none) := by
  intro others live mem hI _
  rw [add_comm extra, add_assoc] at hI
  exact ⟨extra, hI.released, rfl⟩

theorem safe_installs (stage' : Stage) {place : Addr} {value : Nat}
    (hslots : ∀ mem, ∀ j ≠ stage.slot,
      slotWords (update mem place value) j = slotWords mem j)
    (hlocks : ∀ mem : Mem Addr, ∀ node,
      update mem place value (.allocate node) = mem (.allocate node))
    (hstage : ∀ mem, stage.Ok (slotWords mem stage.slot) →
      stage'.Ok (slotWords (update mem place value) stage.slot))
    (hslot : stage'.slot = stage.slot) :
    Safe (slotSys g) inGeneration (SlotInv g) t call (store place value)
      (fun _ m' => m' = locked node (some stage')) (locked node (some stage)) := by
  intro others live mem hI _
  exact ⟨_, hI.installs (hslots mem) (hlocks mem) (hstage mem) hslot, rfl⟩

theorem safe_install (s : Streams g) (i : Nat) :
    Safe (slotSys g) inGeneration (SlotInv g) t call (install i s.node s.incarnation)
      (fun r m' => match r with
        | none => m' = locked s.node none
        | some n => m' = claim (s.created i n) + locked s.node none)
      (locked s.node (some ⟨i, false, false, none⟩)) := by
  refine .bind (.load fun generation => ?_)
  split
  · exact .store_bind fun others live mem hI _ => ⟨_, hI.exhausted, rfl⟩
  · dsimp only
    refine .bind (.mono (safe_installs ⟨i, true, false, none⟩ ?_ ?_ ?_ rfl) ?_)
    · exact fun mem => slotWords_claimed_ne _ _
    · exact fun mem node => rfl
    · intro mem hok
      refine ⟨hok.state, fun _ => ?_, (absurd · Bool.false_ne_true),
        fun _ h => absurd h.symm (Option.some_ne_none _)⟩
      simp only [slotWords_claimed, update_self]
    rintro _ _ rfl
    refine .bind (.mono (safe_installs ⟨i, true, true, none⟩ ?_ ?_ ?_ rfl) ?_)
    · exact fun mem => slotWords_claimed_ne _ _
    · exact fun mem node => rfl
    · intro mem hok
      have hcreator : (slotWords mem i).claimed .a = sideClaimed := hok.creator rfl
      have hne : Side.a ≠ Side.b := by decide
      rw [slotWords_claimed]
      refine ⟨hok.state, fun _ => ?_, fun _ => by simp only [update_self],
        fun _ h => absurd h.symm (Option.some_ne_none _)⟩
      exact (update_of_ne hne sideFree _).trans hcreator
    rintro _ _ rfl
    refine .bind (.mono (safe_ignored (.node i .a) trivial _) ?_)
    rintro _ _ rfl
    refine .bind (.mono (safe_ignored (.node i .b) trivial _) ?_)
    rintro _ _ rfl
    refine .bind (.mono (safe_ignored (.incarnation i .a) trivial _) ?_)
    rintro _ _ rfl
    refine .bind (.mono (safe_ignored (.incarnation i .b) trivial _) ?_)
    rintro _ _ rfl
    refine .bind (.mono (safe_clear i .a) ?_)
    rintro _ _ rfl
    refine .bind (.mono (safe_clear i .b) ?_)
    rintro _ _ rfl
    refine .bind (.mono (safe_installs ⟨i, true, true, some (generation + 1)⟩
      ?_ ?_ ?_ rfl) ?_)
    · intro mem j hj
      simp [slotWords, hj]
    · exact fun mem node => rfl
    · intro mem hok
      refine ⟨hok.state, hok.creator, hok.far, ?_⟩
      rintro _ ⟨⟩
      exact update_self _ _ _
    rintro _ _ rfl
    refine .store_bind fun others live mem hI _ => ?_
    have hborn : SlotInv g (claim (s.created i (generation + 1)) + (locked s.node none + others)) live
        (update mem (.state i) slotLive) := SlotInv.born hI rfl rfl
    rw [← add_assoc] at hborn
    exact ⟨_, hborn, rfl⟩

theorem safe_allocateFrom (s : Streams g) (hint : Nat) (offsets : List Nat) :
    Safe (slotSys g) inGeneration (SlotInv g) t call (allocateFrom s hint offsets)
      (fun r m' => match r with
        | .error _ => m' = 0 + locked s.node none
        | .ok (i, n) => m' = claim (s.created i n) + locked s.node none)
      (locked s.node none) := by
  induction offsets with
  | nil => exact (zero_add _).symm
  | cons offset rest ih =>
    refine .load_bind fun others live mem hI => ?_
    generalize hi : s.node * g.laneCapacity + ((hint + offset) &&& (g.laneCapacity - 1)) = i
    split
    · rename_i hempty
      have hlane : i / g.laneCapacity = s.node := by
        have hpos := g.lane_pos
        have hlt : (hint + offset) &&& (g.laneCapacity - 1) < g.laneCapacity := by
          have := Nat.and_le_right (n := hint + offset) (m := g.laneCapacity - 1)
          omega
        rw [← hi, Nat.mul_comm, Nat.mul_add_div hpos, Nat.div_eq_of_lt hlt, Nat.add_zero]
      refine Safe.goes ?_ (hI.picked hempty hlane)
      refine .bind (.mono (safe_install s i) fun r m' hm => ?_)
      cases r with
      | none =>
        cases hm
        exact ih
      | some n =>
        cases hm
        refine .bind (.mono (safe_ignored (.hint s.node) trivial _) ?_)
        rintro _ _ rfl
        exact rfl
    · exact Safe.goes ih hI

theorem safe_allocate (s : Streams g) :
    Safe (slotSys g) inGeneration (SlotInv g) t call s.allocate
      (fun r m' => match r with
        | .error _ => m' = 0
        | .ok (i, n) => m' = claim (s.created i n)) 0 := by
  refine .bind (.mono (safe_acquire s.node) ?_)
  rintro _ _ rfl
  refine .bind (.load fun hint => ?_)
  refine .bind (.mono (safe_allocateFrom s hint _) fun r m' hm => ?_)
  cases r with
  | error e =>
    cases hm
    refine .bind (.mono (safe_release s.node 0) ?_)
    rintro _ _ rfl
    exact rfl
  | ok taken =>
    cases hm
    refine .bind (.mono (safe_release s.node (claim _)) ?_)
    rintro _ _ rfl
    exact rfl

theorem safe_held {handle : Handle} {f : Unit → StreamM α} {Q : α → SlotShare → Prop}
    (hf : Safe (slotSys g) inGeneration (SlotInv g) t call (f ()) Q 0) :
    Safe (slotSys g) inGeneration (SlotInv g) t call (mark (.held handle) >>= f) Q (claim handle) := by
  intro others live mem hI
  refine hf.goes ?_
  rw [zero_add]
  exact hI.returned

theorem safe_create (s : Streams g) :
    Safe (slotSys g) inGeneration (SlotInv g) t call s.create (fun _ m' => m' = 0) 0 := by
  refine .bind (.mono (safe_allocate s) fun r m' hm => ?_)
  cases r with
  | error e => exact hm
  | ok taken =>
    cases hm
    exact safe_held (.bind (.load fun epoch => rfl))

end

theorem safe_open (s : Streams g) (ticket : Ticket) :
    Safe (slotSys g) inGeneration (SlotInv g) t (.openTicket s ticket) (s.open ticket)
      (fun _ m' => m' = 0) 0 := by
  unfold Streams.open
  cases s.locate ticket.id with
  | error e => exact rfl
  | ok i =>
    refine .bind (.load fun epoch => ?_)
    split
    · exact rfl
    refine .bind (safe_slots_quiet (quiet_isGeneration ..) fun is => ?_)
    split
    · exact rfl
    refine .compareExchange_bind (fun others live mem hI hfree hw => ?_) fun others live mem hI _ => ?_
    · -- the slot is live in the ticket's generation, so that the side is claimed for the ticket
      obtain ⟨hlive, hgeneration⟩ := hw hfree rfl
      rw [zero_add] at hI
      have hclaims : SlotInv g (claim ⟨s.node, s.incarnation, i, ticket.id, ticket.side⟩ + others) live
          (update mem (.claimed i ticket.side) sideClaimed) := hI.claims hlive hgeneration hfree
      refine Safe.goes ?_ hclaims
      refine .bind (.mono (safe_isGeneration_held ⟨s.node, s.incarnation, i, ticket.id, ticket.side⟩) ?_)
      rintro _ _ ⟨rfl, rfl⟩
      refine .bind (.mono (safe_ignored (.incarnation i ticket.side) trivial _) ?_)
      rintro _ _ rfl
      refine .bind (.mono (safe_ignored (.node i ticket.side) trivial _) ?_)
      rintro _ _ rfl
      exact safe_held rfl
    · exact ⟨0, hI, rfl⟩

theorem safe_rearm (s : Streams g) (id : StreamId) :
    Safe (slotSys g) inGeneration (SlotInv g) t call (s.rearm id) (fun _ m' => m' = 0) 0 := by
  unfold Streams.rearm
  cases s.locate id with
  | error e => exact rfl
  | ok i =>
    refine .bind (safe_slots_quiet (quiet_isGeneration ..) fun is => ?_)
    split
    · exact rfl
    refine .bind (.load fun far => ?_)
    split
    · exact rfl
    split
    · exact rfl
    refine .bind (.mono (safe_clear i .a) ?_)
    rintro _ _ rfl
    refine .bind (.mono (safe_clear i .b) ?_)
    rintro _ _ rfl
    refine .bind (.mono (safe_ignored (.node i .b) trivial _) ?_)
    rintro _ _ rfl
    refine .bind (.mono (safe_ignored (.incarnation i .b) trivial _) ?_)
    rintro _ _ rfl
    apply Safe.compareExchange_bind
    · intro others live mem hI hreleased _
      exact ⟨0, hI.rearmed hreleased, rfl⟩
    · intro others live mem hI _
      exact ⟨0, hI, rfl⟩

theorem safe_drop (handle : Handle) :
    Safe (slotSys g) inGeneration (SlotInv g) t (.drop handle) handle.drop (fun _ m' => m' = 0)
      (claim handle) := by
  refine .bind (.mono (safe_isGeneration_held handle) ?_)
  rintro _ _ ⟨rfl, rfl⟩
  refine .compareExchange_bind (fun others live mem hI _ _ => ?_) fun others live mem hI hnot => ?_
  · refine Safe.goes ?_ hI.lets_go
    refine .load_bind fun others live mem hI => ?_
    by_cases hother : mem (.claimed handle.index handle.side.other) = sideClaimed
    · -- the other side keeps the slot, and its own drop will look again
      rw [hother]
      refine ⟨0, ?_, rfl⟩
      rw [zero_add]
      exact hI.relieved fun _ => ⟨_, hother⟩
    · rw [if_pos hother]
      refine Safe.goes (.compareExchange_bind (fun others live mem hI hlive hw => ?_)
        fun others live mem hI hnot => ?_) hI
      · refine ⟨0, ?_, rfl⟩
        rw [zero_add]
        exact hI.emptied hlive hw
      · refine ⟨0, ?_, rfl⟩
        rw [zero_add]
        exact hI.relieved fun hlive => absurd hlive hnot
  · exact absurd hI.claim_held.claimed hnot

theorem slotSys_shares {s : Config Addr Event (SlotCall g) Live}
    (hs : Reach (slotSys g) inGeneration (slotStart g) s) :
    ∃ shares, Shares (slotSys g) inGeneration (SlotInv g) (· = 0) s shares := by
  refine hs.holds (.init g) fun t call live live' mem m hI _ hbegins => ?_
  cases call with
  | create s =>
    cases hbegins
    exact ⟨0, by rwa [zero_add], .bind (.mono (safe_create s) fun _ _ hm => hm)⟩
  | openTicket s ticket =>
    cases hbegins
    exact ⟨0, by rwa [zero_add], .bind (.mono (safe_open s ticket) fun _ _ hm => hm)⟩
  | rearm s id =>
    cases hbegins
    exact ⟨0, by rwa [zero_add], .bind (.mono (safe_rearm s id) fun _ _ hm => hm)⟩
  | drop handle =>
    simp only [slotSys, slotBegins, Option.ite_none_right_eq_some, Option.some.injEq] at hbegins
    obtain ⟨hmem, rfl⟩ := hbegins
    exact ⟨claim handle, hI.taken hmem, (safe_drop handle).mono fun _ _ hm => hm⟩

/-- In every state that is reached by runs in which no open claims a side of a slot that has gone
on, and no drop empties a slot with a side claimed: a side of a slot's generation has one live
handle, every live handle holds its side of a slot live in its generation, and a slot that nobody
holds once the calls are over is empty or exhausted. -/
theorem sides_exclusive {s : Config Addr Event (SlotCall g) Live}
    (hs : Reach (slotSys g) inGeneration (slotStart g) s) :
    (s.hist.map fun handle => (handle.index, handle.id.generation, handle.side)).Nodup ∧
    (∀ handle ∈ s.hist, (slotWords s.mem handle.index).Held handle) ∧
    ((∀ thread ∈ s.threads, ∃ value, thread.rest = .ret value) →
      ∀ i, (∀ handle ∈ s.hist, handle.index ≠ i) →
        s.mem (.state i) = slotEmpty ∨ s.mem (.state i) = slotExhausted) := by
  obtain ⟨shares, hshares⟩ := slotSys_shares hs
  have hI := hshares.2.1
  have hlive : ∀ handle ∈ s.hist, handle ∈ holders shares.sum s.hist := fun handle hmem =>
    mem_add.mpr (.inr (mem_coe.mpr hmem))
  refine ⟨?_, fun handle hmem => hI.held handle (hlive handle hmem), fun hover i hnone => ?_⟩
  · have hplaces : (s.hist.map Handle.place).Nodup := by
      have hapart := hI.apart
      rw [holders, Multiset.map_add, map_coe] at hapart
      exact (nodup_add.mp hapart).2.1
    refine List.Nodup.of_map (fun key => (key.1, key.2.2)) ?_
    rw [List.map_map]
    exact hplaces
  · rw [hshares.sum_over hover] at hI
    rcases hI.state i with hempty | hstate | hexhausted
    · exact .inl hempty
    · -- somebody would have to hold the slot, or be about to empty it
      rcases hI.kept i hstate with ⟨side, hclaimed⟩ | hduty
      · obtain ⟨handle, hmem, hplace⟩ := mem_map.mp (hI.owned i side hstate hclaimed)
        simp only [holders, Prod.fst_zero, zero_add, mem_coe] at hmem
        exact absurd (congrArg Prod.fst hplace) (hnone handle hmem)
      · exact absurd hduty (Nat.lt_irrefl 0)
    · exact .inr hexhausted

instance (call : SlotCall g) (live : Live) (mem : Mem Addr) :
    Decidable (inGeneration.begin call live mem) :=
  inferInstanceAs (Decidable True)

instance (t : Nat) (call : SlotCall g) (place : Addr) (old new : Nat) (live : Live) (mem : Mem Addr) :
    Decidable (inGeneration.write t call place old new live mem) :=
  match call, place with
  | .openTicket _ ticket, .claimed i _ =>
    inferInstanceAs (Decidable (old = sideFree → new = sideClaimed →
      mem (.state i) = slotLive ∧ mem (.generation i) = ticket.id.generation))
  | .drop _, .state i => inferInstanceAs (Decidable (∀ side, mem (.claimed i side) ≠ sideClaimed))
  | .openTicket _ _, .epoch | .openTicket _ _, .state _ | .openTicket _ _, .generation _
  | .openTicket _ _, .node .. | .openTicket _ _, .incarnation .. | .openTicket _ _, .head ..
  | .openTicket _ _, .flags .. | .openTicket _ _, .exactNeeded .. | .openTicket _ _, .tail ..
  | .openTicket _ _, .byte .. | .openTicket _ _, .allocate _ | .openTicket _ _, .hint _
  | .drop _, .epoch | .drop _, .generation _ | .drop _, .claimed .. | .drop _, .node ..
  | .drop _, .incarnation .. | .drop _, .head .. | .drop _, .flags .. | .drop _, .exactNeeded ..
  | .drop _, .tail .. | .drop _, .byte .. | .drop _, .allocate _ | .drop _, .hint _
  | .create _, _ | .rearm .., _ => inferInstanceAs (Decidable True)

theorem oneSlot_valid : (⟨1, 1, 2⟩ : StreamSpec).validate = .ok () := by decide

def oneSlot : Geometry := ⟨⟨1, 1, 2⟩, 1, oneSlot_valid, one_lt_u16⟩

def processOf (incarnation : Nat) : Streams oneSlot := ⟨⟨0, by decide⟩, incarnation⟩

def creatorHandle : Handle := ⟨0, 1, 0, ⟨1, 0, 0, 1⟩, .a⟩

def openerHandle : Handle := ⟨0, 2, 0, ⟨1, 0, 0, 1⟩, .b⟩

def openFar : SlotCall oneSlot := .openTicket (processOf 2) ⟨⟨1, 0, 0, 1⟩, .b, 0⟩

/-- The far side is opened, and the near side dropped: the opener's handle holds its side. -/
theorem sides_exclusive_opened : ∃ s,
    Reach (slotSys oneSlot) inGeneration (slotStart oneSlot) s ∧ s.hist = [openerHandle] ∧
      (slotWords s.mem 0).Held openerHandle := by
  have hrun : (Discipline.runs inGeneration (slotSys oneSlot) (slotStart oneSlot)
      ([.begin (.create (processOf 1))] ++ List.replicate 23 (.step 0) ++
        [.begin openFar] ++ List.replicate 8 (.step 1) ++
        [.begin (.drop creatorHandle)] ++ List.replicate 4 (.step 2))).any
      (fun s => s.hist == [openerHandle]) = true := by
    decide +kernel
  obtain ⟨s, hs, hp⟩ := Reach.exists_of_runs _ hrun
  have hhist : s.hist = [openerHandle] := beq_iff_eq.mp hp
  have hall := sides_exclusive hs
  exact ⟨s, hs, hhist, hall.2.1 openerHandle (by rw [hhist]; exact List.mem_singleton_self _)⟩

/-- A drop lets the near side go and sees the far side free; the far side is opened; the drop
empties the slot under the handle just opened. -/
theorem opened_slot_emptied : ∃ s, Reach (slotSys oneSlot) .free (slotStart oneSlot) s ∧
    s.hist = [openerHandle] ∧ s.mem (.state 0) = slotEmpty := by
  have hrun : (Discipline.runs .free (slotSys oneSlot) (slotStart oneSlot)
      ([.begin (.create (processOf 1))] ++ List.replicate 23 (.step 0) ++
        [.begin (.drop creatorHandle)] ++ List.replicate 4 (.step 1) ++
        [.begin openFar] ++ List.replicate 8 (.step 2) ++ [.step 1])).any
      (fun s => s.hist == [openerHandle] && s.mem (.state 0) == slotEmpty) = true := by
    decide +kernel
  obtain ⟨s, hs, hp⟩ := Reach.exists_of_runs _ hrun
  rw [Bool.and_eq_true] at hp
  exact ⟨s, hs, beq_iff_eq.mp hp.1, beq_iff_eq.mp hp.2⟩

end OrbitStream
