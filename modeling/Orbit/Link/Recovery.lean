import Orbit.Link.Segment
import Orbit.Stream.Stamps

/-! What recovery does to the sides that body streams hold: which it ends, and which owners' sides
it has to end before the lane is anybody's. -/

namespace OrbitSegment

open Orbit.Atomic Function
open List hiding Mem
open OrbitStream (Hit Side sideClaimed sideDead flagReset flagReaderGone Tidy)

variable (g : Geometry)

/-- A side that the dead owner had is still claimed. -/
def Unended (w : World) (grave : Grave) : Prop :=
  ∃ i < g.streams.totalSlots, ∃ side,
    Hit grave.lane (fun held => held == grave.incarnation) w.streams.mem i side

/-- Whoever died with a lane claimed, once the lane is not claimed by that incarnation and a join has
succeeded since, has no side left. -/
def Settled (w : World) : Prop :=
  ∀ grave ∈ w.graves, grave.joined = true →
    ¬((w.lane grave.lane).consumers ≠ 0 ∧ (w.lane grave.lane).incarnation = grave.incarnation) →
    ¬Unended g w grave

def Pending (w : World) (l : Nat) : Prop :=
  (w.lane l).consumers ≠ 0 ∧ (w.lane l).hold = none ∧
    ∃ grave ∈ w.graves, grave.lane = l ∧ grave.incarnation = (w.lane l).incarnation ∧
      Unended g w grave

instance (w : World) (grave : Grave) : Decidable (Unended g w grave) :=
  decidable_of_iff (∃ i ∈ range g.streams.totalSlots,
      Hit grave.lane (fun held => held == grave.incarnation) w.streams.mem i .a ∨
      Hit grave.lane (fun held => held == grave.incarnation) w.streams.mem i .b) <| by
    simp only [Unended, mem_range, Side.exists_iff]

instance (w : World) : Decidable (Settled g w) := inferInstanceAs (Decidable (∀ grave ∈ _, _))

instance (w : World) (l : Nat) : Decidable (Pending g w l) :=
  inferInstanceAs (Decidable (_ ∧ _ ∧ ∃ grave ∈ _, _))

/-- No process claims a side for an owner that has died: the dead do nothing, and a life is not
lived twice. -/
def Op.Given (w : World) : Op g → Prop
  | .stream op => ∀ grave ∈ w.graves, ¬op.Stamps grave.lane grave.incarnation
  | _ => True

instance (w : World) (op : Op g) : Decidable (op.Given g w) :=
  match op with
  | .stream op =>
    inferInstanceAs (Decidable (∀ grave ∈ w.graves, ¬op.Stamps grave.lane grave.incarnation))
  | .spawn _ | .dies _ | .call .. => .isTrue trivial

/-- Where a lane is pending, its hold cannot be tried, or the report of the death goes through. -/
def Reports (w : World) (around : Surroundings) : Prop :=
  ∀ l < g.inbox.lanes, Pending g w l → around.holdFails l = true ∨ around.streams l = .ok ()

/-- A lane that is taken back without its streams is not pending. -/
def Call.Careful (w : World) : Call → Prop
  | .openSegment first _ around => first = .error .inboxFull → Reports g w around
  | .join _ _ recovery _ => Reports g w recovery
  | .recoverAbandoned around => Reports g w around
  | .reclaimIfGone l around => Pending g w l → around.holdFails l = true
  | .send far _ around => (farLanes g far w).any (accepts g around w) = false →
    ∀ l ∈ farLanes g far w, Pending g w l → around.holdFails l = true
  | .reclaimProcess .. | .releaseLane _ | .dropHold _ => True

def Op.Careful (w : World) : Op g → Prop
  | .call _ c => c.Careful g w
  | _ => True

instance (w : World) (around : Surroundings) : Decidable (Reports g w around) :=
  inferInstanceAs (Decidable (∀ l < _, _))

instance (w : World) (c : Call) : Decidable (c.Careful g w) :=
  match c with
  | .openSegment .. => inferInstanceAs (Decidable (_ → Reports _ _ _))
  | .join .. | .recoverAbandoned _ => inferInstanceAs (Decidable (Reports _ _ _))
  | .reclaimIfGone .. => inferInstanceAs (Decidable (_ → _))
  | .send .. => inferInstanceAs (Decidable (_ → ∀ l ∈ _, _))
  | .reclaimProcess .. | .releaseLane _ | .dropHold _ => .isTrue trivial

instance (w : World) (op : Op g) : Decidable (op.Careful g w) :=
  match op with
  | .call _ c => inferInstanceAs (Decidable (c.Careful g w))
  | .spawn _ | .dies _ | .stream _ => .isTrue trivial

def Raised (flags flag : Nat) : Prop := flags ||| flag = flags

/-- Recovery from the world `w` leaves a side as it is, or ends it: then the hold of its lane is free,
it is stamped as the lane is, and the flags of what it wrote and of what it read say so. -/
structure EndsOwn (w : World) (mem : Mem OrbitStream.Addr) (i : Nat) (side : Side) : Prop where
  node : mem (.node i side) = w.streams.mem (.node i side)
  incarnation : mem (.incarnation i side) = w.streams.mem (.incarnation i side)
  flags : ∃ more, mem (.flags i side) = w.streams.mem (.flags i side) ||| more
  claimed : mem (.claimed i side) = w.streams.mem (.claimed i side) ∨
    (w.streams.mem (.claimed i side) = sideClaimed ∧ mem (.claimed i side) = sideDead ∧
      (w.lane (w.streams.mem (.node i side))).hold = none ∧
      (w.lane (w.streams.mem (.node i side))).incarnation = w.streams.mem (.incarnation i side) ∧
      Raised (mem (.flags i side)) flagReset ∧ Raised (mem (.flags i side.other)) flagReaderGone)

/-- Recovery keeps the graves, the holds and the stamps, claims no lane, and ends only what it may. -/
structure Recovers (w w' : World) : Prop where
  graves : w'.graves = w.graves
  claimed : ∀ l, (w'.lane l).consumers ≠ 0 → (w.lane l).consumers ≠ 0
  hold : ∀ l, (w'.lane l).hold = (w.lane l).hold
  stamp : ∀ l, (w'.lane l).incarnation = (w.lane l).incarnation
  tidy : Tidy w'.streams.mem w'.streams.handles
  sides : ∀ i < g.streams.totalSlots, ∀ side, EndsOwn w w'.streams.mem i side

variable {g} {w w1 w' : World} {l : Nat} {around : Surroundings}

theorem Raised.more {flags flag : Nat} (h : Raised flags flag) (more : Nat) :
    Raised (flags ||| more) flag := by
  rw [Raised, Nat.or_assoc, Nat.or_comm more, ← Nat.or_assoc, h]

theorem EndsOwn.same (w : World) (i : Nat) (side : Side) : EndsOwn w w.streams.mem i side :=
  ⟨rfl, rfl, ⟨0, (Nat.or_zero _).symm⟩, .inl rfl⟩

theorem Recovers.refl (ht : Tidy w.streams.mem w.streams.handles) : Recovers g w w :=
  ⟨rfl, fun _ h => h, fun _ => rfl, fun _ => rfl, ht, fun i _ side => .same w i side⟩

theorem Recovers.trans (h1 : Recovers g w w1) (h2 : Recovers g w1 w') : Recovers g w w' where
  graves := h2.graves.trans h1.graves
  claimed l h := h1.claimed l (h2.claimed l h)
  hold l := (h2.hold l).trans (h1.hold l)
  stamp l := (h2.stamp l).trans (h1.stamp l)
  tidy := h2.tidy
  sides i hi side := by
    have hs1 := h1.sides i hi side
    have hs2 := h2.sides i hi side
    obtain ⟨more1, hmore1⟩ := hs1.flags
    obtain ⟨more2, hmore2⟩ := hs2.flags
    obtain ⟨more, hmore⟩ := (h2.sides i hi side.other).flags
    refine ⟨hs2.node.trans hs1.node, hs2.incarnation.trans hs1.incarnation,
      ⟨more1 ||| more2, by rw [hmore2, hmore1, Nat.or_assoc]⟩, ?_⟩
    rcases hs2.claimed with hsame | ⟨hheld, hdead, hhold, hstamp, hraised⟩
    · rcases hs1.claimed with hsame1 | ⟨hheld, hdead, hhold, hstamp, hreset, hgone⟩
      · exact .inl (hsame.trans hsame1)
      · refine .inr ⟨hheld, hsame.trans hdead, hhold, hstamp, ?_, ?_⟩
        · rw [hmore2]
          exact hreset.more more2
        · rw [hmore]
          exact hgone.more more
    · -- a side that is claimed between was so before
      rcases hs1.claimed with hsame1 | ⟨-, hdead1, -⟩
      · rw [hs1.node, h1.hold] at hhold
        rw [hs1.node, h1.stamp, hs1.incarnation] at hstamp
        exact .inr ⟨hsame1.symm.trans hheld, hdead, hhold, hstamp, hraised⟩
      · rw [hheld] at hdead1
        cases hdead1

theorem Recovers.setLane (ht : Tidy w.streams.mem w.streams.handles) {lane : Lane}
    (hhold : lane.hold = (w.lane l).hold) (hstamp : lane.incarnation = (w.lane l).incarnation)
    (hclaimed : lane.consumers ≠ 0 → (w.lane l).consumers ≠ 0) :
    Recovers g w (w.setLane l lane) where
  graves := rfl
  claimed l' := by
    by_cases h : l' = l
    · subst h
      simpa [World.setLane] using hclaimed
    · simp [World.setLane, h]
  hold l' := by
    by_cases h : l' = l
    · subst h
      simpa [World.setLane] using hhold
    · simp [World.setLane, h]
  stamp l' := by
    by_cases h : l' = l
    · subst h
      simpa [World.setLane] using hstamp
    · simp [World.setLane, h]
  tidy := ht
  sides i _ side := .same w i side

theorem Recovers.endStreams (ht : Tidy w.streams.mem w.streams.handles)
    (hhold : (w.lane l).hold = none) :
    Recovers g w (w.endStreams g l (w.lane l).incarnation) where
  graves := rfl
  claimed _ h := h
  hold _ := rfl
  stamp _ := rfl
  tidy := (OrbitStream.exec_steps ht _).tidy
  sides i hi side := by
    have hended : OrbitStream.Ended l (fun held => held == (w.lane l).incarnation) w.streams.mem
        (w.endStreams g l (w.lane l).incarnation).streams.mem i :=
      OrbitStream.nodeDead_ended ht.live i hi
    have hkeep : ∀ a : OrbitStream.Addr, a.ending? = none →
        (w.endStreams g l (w.lane l).incarnation).streams.mem a = w.streams.mem a := fun a ha =>
      OrbitStream.nodeDead_other (g := g.streams) ht.live fun j _ hj => by rw [ha] at hj; cases hj
    refine ⟨hkeep _ rfl, hkeep _ rfl, ⟨_, (hended.flags side).trans (Nat.or_assoc _ _ _)⟩, ?_⟩
    by_cases hhit : Hit l (fun held => held == (w.lane l).incarnation) w.streams.mem i side
    · have hstamp : (w.lane l).incarnation = w.streams.mem (.incarnation i side) :=
        (beq_iff_eq.mp hhit.2.2).symm
      have hnode : w.streams.mem (.node i side) = l := hhit.2.1
      refine .inr ⟨hhit.1, (hended.claimed side).trans (if_pos hhit), hnode ▸ hhold,
        hnode ▸ hstamp, ?_, ?_⟩
      · rw [hended.flags, if_pos hhit]
        exact Raised.more (by rw [Raised, Nat.or_assoc, Nat.or_self]) _
      · rw [hended.flags, Side.other_other, if_pos hhit, Raised, Nat.or_assoc, Nat.or_self]
    · exact .inl ((hended.claimed side).trans (if_neg hhit))

theorem Done.andThen_world {α β : Type} {I : World → Prop} {r : Done α} {next : α → World → Done β}
    (h : I r.2) (hnext : ∀ a, I (next a r.2).2) : I (r.andThen next).2 := by
  unfold Done.andThen
  split
  · exact hnext _
  · exact h

/-- What taking back a lane without a live owner leaves: the lane withdrawn, the sides of its owner
ended unless `silent`, and the queue reset or not. -/
inductive Taken (g : Geometry) (w : World) (l : Nat) (silent : Prop) : World → Prop where
  | silent (hsilent : silent) : Taken g w l silent (reclaim l w).2
  | ended : Taken g w l silent ((reclaim l w).2.endStreams g l (w.lane l).incarnation)
  | cleared {w' : World} (h : Taken g w l silent w') :
    Taken g w l silent (w'.setLane l (w'.lane l).cleared)

variable {silent : Prop} {recover : Reclaimed → World → Done Unit} {lanes : List Nat}
  {incarnation pid : Nat}

theorem Taken.retire (h : Taken g w l silent w') :
    Taken g w l silent (retireLane around l w').2 := by
  unfold retireLane resetLane
  split
  · exact h
  · split
    · exact h.cleared
    · exact h

/-- A callback does nothing, or ends the sides it is told of. -/
def Ending (g : Geometry) (recover : Reclaimed → World → Done Unit) : Prop :=
  ∀ gone w, (recover gone w).2 = w ∨ (recover gone w).2 = w.endStreams g gone.lane gone.incarnation

theorem ending_recoverStreams (around : Surroundings) : Ending g (recoverStreams g around) := by
  intro gone w
  unfold recoverStreams
  split
  · exact .inr rfl
  · exact .inl rfl

theorem ending_recoverNothing : Ending g recoverNothing := fun _ _ => .inl rfl

theorem tryHold_free (h : w.tryHold around l = .ok true) :
    around.holdFails l = false ∧ (w.lane l).hold = none := by
  unfold World.tryHold at h
  split at h
  · cases h
  · rename_i hfails
    exact ⟨Bool.eq_false_iff.mpr hfails, Option.isNone_iff_eq_none.mp (Except.ok.inj h)⟩

theorem goneFrom_stamp {gone : Reclaimed} (h : goneFrom l w = some gone) :
    gone.lane = l ∧ gone.incarnation = (w.lane l).incarnation := by
  unfold goneFrom reclaim Lane.lastOwner at h
  split at h
  · split at h
    · cases h
    · cases h
      exact ⟨rfl, rfl⟩
  · cases h
    exact ⟨rfl, rfl⟩

theorem goneFrom_claimed (h : (w.lane l).consumers ≠ 0) :
    goneFrom l w = some ⟨l, (w.lane l).incarnation, (w.lane l).pid⟩ := by
  unfold goneFrom reclaim
  rw [if_neg h]
  rfl

def Silent (g : Geometry) (recover : Reclaimed → World → Done Unit) (l : Nat) : Prop :=
  ∃ gone w, gone.lane = l ∧ (recover gone w).2 ≠ w.endStreams g gone.lane gone.incarnation

/-- The recovery of a lane leaves all as it is, or takes back a lane whose hold is free; it is silent
about a claimed lane only where the callback is. -/
theorem recoverLane_taken (around : Surroundings) (l : Nat) (w : World)
    (hrecover : Ending g recover) :
    (recoverLane recover around l w).2 = w ∨
      (around.holdFails l = false ∧ (w.lane l).hold = none ∧
        Taken g w l ((w.lane l).consumers ≠ 0 → Silent g recover l)
          (recoverLane recover around l w).2) := by
  unfold recoverLane
  split
  · exact .inl rfl
  split
  · exact .inl rfl
  · exact .inl rfl
  rename_i hhold
  obtain ⟨hfails, hfree⟩ := tryHold_free hhold
  refine .inr ⟨hfails, hfree, ?_⟩
  have hend : ∀ {α : Type} (a : α) {w' : World},
      Taken g w l ((w.lane l).consumers ≠ 0 → Silent g recover l) w' →
        Taken g w l ((w.lane l).consumers ≠ 0 → Silent g recover l)
          ((retireLane around l w').andThen fun _ w => (.ok a, w)).2 := fun a _ h =>
    Done.andThen_world h.retire fun _ => h.retire
  cases hgone : goneFrom l w with
  | none =>
    refine hend _ (.silent fun hclaimed => ?_)
    rw [goneFrom_claimed hclaimed] at hgone
    cases hgone
  | some gone =>
    obtain ⟨hlane, hstamp⟩ := goneFrom_stamp hgone
    have htaken : Taken g w l ((w.lane l).consumers ≠ 0 → Silent g recover l)
        (recover gone (reclaim l w).2).2 := by
      by_cases hends : (recover gone (reclaim l w).2).2 =
          (reclaim l w).2.endStreams g gone.lane gone.incarnation
      · rw [hends, hlane, hstamp]
        exact .ended
      · rw [(hrecover gone _).resolve_right hends]
        exact .silent fun _ => ⟨gone, _, hlane, hends⟩
    exact Done.andThen_world htaken fun _ => hend _ htaken

theorem reclaim_lane (l l' : Nat) (w : World) :
    ((reclaim l w).2.lane l').hold = (w.lane l').hold ∧
      ((reclaim l w).2.lane l').incarnation = (w.lane l').incarnation ∧
      (l' ≠ l → (reclaim l w).2.lane l' = w.lane l') := by
  unfold reclaim
  split
  · exact ⟨rfl, rfl, fun _ => rfl⟩
  · by_cases h : l' = l
    · subst h
      simp [World.setLane, Lane.released]
    · simp [World.setLane, h]

theorem Recovers.reclaim (ht : Tidy w.streams.mem w.streams.handles) :
    Recovers g w (reclaim l w).2 := by
  unfold OrbitSegment.reclaim
  split
  · exact .refl ht
  · exact .setLane ht rfl rfl fun h => absurd rfl h

theorem Taken.recovers (h : Taken g w l silent w') (ht : Tidy w.streams.mem w.streams.handles)
    (hhold : (w.lane l).hold = none) : Recovers g w w' := by
  induction h with
  | silent => exact .reclaim ht
  | ended =>
    have hreclaimed : Recovers g w (OrbitSegment.reclaim l w).2 := .reclaim ht
    rw [← hreclaimed.stamp l]
    exact hreclaimed.trans (.endStreams hreclaimed.tidy ((hreclaimed.hold l).trans hhold))
  | cleared _ ih => exact ih.trans (.setLane ih.tidy rfl rfl id)

theorem Taken.other (h : Taken g w l silent w') {l' : Nat} (hne : l' ≠ l) :
    w'.lane l' = w.lane l' := by
  induction h with
  | silent => exact (reclaim_lane l l' w).2.2 hne
  | ended => exact (reclaim_lane l l' w).2.2 hne
  | cleared _ ih => exact (update_of_ne hne _ _).trans ih

theorem Recovers.unended (h : Recovers g w w') {grave : Grave} (hu : Unended g w' grave) :
    Unended g w grave := by
  obtain ⟨i, hi, side, hclaimed, hnode, hinc⟩ := hu
  have hs := h.sides i hi side
  refine ⟨i, hi, side, ?_, hs.node.symm.trans hnode, ?_⟩
  · rcases hs.claimed with hsame | ⟨hheld, -⟩
    · exact hsame.symm.trans hclaimed
    · exact hheld
  · rw [← hs.incarnation]
    exact hinc

theorem not_unended_endStreams (ht : Tidy w.streams.mem w.streams.handles) (grave : Grave) :
    ¬Unended g (w.endStreams g grave.lane grave.incarnation) grave := by
  rintro ⟨i, hi, side, hclaimed, hnode, hinc⟩
  have hended : OrbitStream.Ended grave.lane (fun held => held == grave.incarnation) w.streams.mem
      (w.endStreams g grave.lane grave.incarnation).streams.mem i :=
    OrbitStream.nodeDead_ended ht.live i hi
  have hkeep : ∀ a : OrbitStream.Addr, a.ending? = none →
      (w.endStreams g grave.lane grave.incarnation).streams.mem a = w.streams.mem a := fun a ha =>
    OrbitStream.nodeDead_other (g := g.streams) ht.live fun j _ hj => by rw [ha] at hj; cases hj
  rw [hkeep _ rfl] at hnode hinc
  rw [hended.claimed] at hclaimed
  split at hclaimed
  · cases hclaimed
  · rename_i hnot
    exact hnot ⟨hclaimed, hnode, hinc⟩

theorem Taken.not_ended (h : Taken g w l silent w') (ht : Tidy w.streams.mem w.streams.handles)
    {grave : Grave} (hlane : grave.lane = l) (hinc : grave.incarnation = (w.lane l).incarnation)
    (hu : Unended g w' grave) : silent := by
  subst hlane
  induction h with
  | silent hsilent => exact hsilent
  | ended =>
    rw [← hinc] at hu
    exact absurd hu (not_unended_endStreams (Recovers.reclaim (g := g) ht).tidy grave)
  | cleared _ ih => exact ih hu

/-- The sides of a dead owner are ended, or its lane is as it left it. -/
structure Safe (g : Geometry) (w : World) : Prop where
  tidy : Tidy w.streams.mem w.streams.handles
  left : ∀ grave ∈ w.graves, Unended g w grave → (w.lane grave.lane).consumers ≠ 0 ∧
    (w.lane grave.lane).incarnation = grave.incarnation ∧ (w.lane grave.lane).hold = none

theorem Safe.init : Safe g .init := ⟨.init, fun _ h => nomatch h⟩

theorem Safe.settled (h : Safe g w) : Settled g w := fun grave hmem _ hgone hu =>
  have hleft := h.left grave hmem hu
  hgone ⟨hleft.1, hleft.2.1⟩

theorem Safe.recovers (h : Safe g w) (hr : Recovers g w w')
    (hclaimed : ∀ grave ∈ w.graves, Unended g w' grave → (w'.lane grave.lane).consumers ≠ 0) :
    Safe g w' := by
  refine ⟨hr.tidy, fun grave hmem hu => ?_⟩
  rw [hr.graves] at hmem
  obtain ⟨-, hinc, hhold⟩ := h.left grave hmem (hr.unended hu)
  exact ⟨hclaimed grave hmem hu, (hr.stamp _).trans hinc, (hr.hold _).trans hhold⟩

theorem Safe.taken (h : Safe g w) (htaken : Taken g w l silent w') (hhold : (w.lane l).hold = none)
    (hsilent : (w.lane l).consumers ≠ 0 → silent → ¬Pending g w l) : Safe g w' := by
  have hr : Recovers g w w' := htaken.recovers h.tidy hhold
  refine h.recovers hr fun grave hmem hu => ?_
  obtain ⟨hclaimed, hinc, hfree⟩ := h.left grave hmem (hr.unended hu)
  by_cases hlane : grave.lane = l
  · rw [hlane] at hclaimed hinc hfree
    refine absurd ?_ (hsilent hclaimed (htaken.not_ended h.tidy hlane hinc.symm hu))
    exact ⟨hclaimed, hfree, grave, hmem, hlane, hinc.symm, hr.unended hu⟩
  · rw [htaken.other hlane]
    exact hclaimed

theorem Safe.recoverLane (h : Safe g w) (hrecover : Ending g recover)
    (hcare : Pending g w l → around.holdFails l = true ∨ ¬Silent g recover l) :
    Safe g (recoverLane recover around l w).2 := by
  rcases recoverLane_taken around l w hrecover with
    heq | ⟨hfails, hhold, htaken⟩
  · rw [heq]
    exact h
  · refine h.taken htaken hhold fun hclaimed hsilent hpending => ?_
    rcases hcare hpending with htrue | hnot
    · rw [hfails] at htrue
      cases htrue
    · exact hnot (hsilent hclaimed)

theorem recoverLane_recovers (ht : Tidy w.streams.mem w.streams.handles)
    (hrecover : Ending g recover) : Recovers g w (recoverLane recover around l w).2 := by
  rcases recoverLane_taken around l w hrecover with
    heq | ⟨-, hhold, htaken⟩
  · rw [heq]
    exact .refl ht
  · exact htaken.recovers ht hhold

theorem Recovers.pending (hr : Recovers g w w') (h : Pending g w' l) : Pending g w l := by
  obtain ⟨hclaimed, hhold, grave, hmem, hlane, hinc, hu⟩ := h
  rw [hr.graves] at hmem
  exact ⟨hr.claimed l hclaimed, (hr.hold l).symm.trans hhold, grave, hmem, hlane,
    hinc.trans (hr.stamp l), hr.unended hu⟩

theorem recoverEach_recovers (ht : Tidy w.streams.mem w.streams.handles)
    (hrecover : Ending g recover) : Recovers g w (recoverEach recover around lanes w).2 := by
  induction lanes generalizing w with
  | nil => exact .refl ht
  | cons l rest ih =>
    have hfirst : Recovers g w (recoverLane recover around l w).2 := recoverLane_recovers ht hrecover
    have hrest := hfirst.trans (ih hfirst.tidy)
    exact Done.andThen_world hfirst fun _ => Done.andThen_world hrest fun _ => hrest

theorem Safe.recoverEach (h : Safe g w) (around : Surroundings) (hrecover : Ending g recover)
    (hcare : ∀ l ∈ lanes, Pending g w l → around.holdFails l = true ∨ ¬Silent g recover l) :
    Safe g (recoverEach recover around lanes w).2 := by
  induction lanes generalizing w with
  | nil => exact h
  | cons l rest ih =>
    have hfirst : Safe g (OrbitSegment.recoverLane recover around l w).2 :=
      h.recoverLane hrecover (hcare l (mem_cons_self ..))
    have hr : Recovers g w (OrbitSegment.recoverLane recover around l w).2 :=
      recoverLane_recovers h.tidy hrecover
    have hrest := ih hfirst fun l' hl' hpending =>
      hcare l' (mem_cons_of_mem _ hl') (hr.pending hpending)
    exact Done.andThen_world hfirst fun _ => Done.andThen_world hrest fun _ => hrest

theorem recoverAbandoned_recovers (ht : Tidy w.streams.mem w.streams.handles) :
    Recovers g w (recoverAbandoned g around w).2 := by
  unfold recoverAbandoned
  split
  · exact .refl ht
  · exact recoverEach_recovers ht (ending_recoverStreams around)

theorem Safe.recoverAbandoned (h : Safe g w) (hcare : Reports g w around) :
    Safe g (recoverAbandoned g around w).2 := by
  unfold OrbitSegment.recoverAbandoned
  split
  · exact h
  · refine h.recoverEach around (ending_recoverStreams around) fun l hl hpending => ?_
    refine (hcare l (mem_range.mp hl) hpending).imp_right fun hok => ?_
    rintro ⟨gone, w1, rfl, hne⟩
    refine hne ?_
    rw [recoverStreams, hok]

theorem reclaimOwned_taken (around : Surroundings)
    (howner : (w.lane l).lastOwner = some (pid, incarnation)) :
    Taken g w l False
      (retireLane around l ((reclaim l w).2.endStreams g l incarnation)).2 := by
  unfold Lane.lastOwner at howner
  split at howner
  · cases howner
  · cases howner
    exact Taken.ended.retire

/-- What is kept by taking back, with the report of the death, lanes whose hold is free is kept by
`reclaim_process`. -/
theorem reclaimOwned_keeps {I : World → Prop}
    (htake : ∀ w l w', I w → (w.lane l).hold = none → Taken g w l False w' → I w') (h : I w) :
    I (reclaimOwned g around pid incarnation lanes w).2 := by
  induction lanes generalizing w with
  | nil => exact h
  | cons l rest ih =>
    unfold reclaimOwned
    split
    · exact ih h
    rename_i howner
    split
    · exact h
    · exact ih h
    rename_i hhold
    have hfirst := htake w l _ h (tryHold_free hhold).2
      (reclaimOwned_taken around (not_not.mp howner))
    exact Done.andThen_world hfirst fun _ => Done.andThen_world (ih hfirst) fun _ => ih hfirst

theorem reclaimProcess_recovers (ht : Tidy w.streams.mem w.streams.handles) :
    Recovers g w (reclaimProcess g around pid incarnation w).2 := by
  unfold reclaimProcess
  split
  · exact .refl ht
  · exact reclaimOwned_keeps (I := Recovers g w)
      (fun _ _ _ hI hhold htaken => hI.trans (htaken.recovers hI.tidy hhold)) (.refl ht)

theorem Safe.reclaimProcess (h : Safe g w) :
    Safe g (reclaimProcess g around pid incarnation w).2 := by
  unfold OrbitSegment.reclaimProcess
  split
  · exact h
  · exact reclaimOwned_keeps (I := Safe g)
      (fun _ _ _ hI hhold htaken => hI.taken htaken hhold fun _ hfalse => hfalse.elim) h

/-- What the walk of a join leaves: all as it was, or one free lane claimed or withdrawn, with the
sides of its last owner ended or not. -/
inductive Claims (g : Geometry) (w : World) : World → Prop where
  | same : Claims g w w
  | claimed {l : Nat} {w1 : World} (hfree : (w.lane l).consumers = 0)
    (hhold : (w.lane l).hold = none) (lane : Lane)
    (hended : w1 = w ∨ w1 = w.endStreams g l (w.lane l).incarnation) :
    Claims g w (w1.setLane l lane)

@[simp] theorem setLane_setLane (w : World) (l : Nat) (lane lane' : Lane) :
    (w.setLane l lane).setLane l lane' = w.setLane l lane' := by
  simp [World.setLane]

theorem setLane_self (w : World) (l : Nat) : w.setLane l (w.lane l) = w := by
  simp [World.setLane]

theorem recoverLast_ended :
    (recoverLast g around l w).2 = w ∨
      (recoverLast g around l w).2 = w.endStreams g l (w.lane l).incarnation := by
  unfold recoverLast
  split
  · rename_i owner howner
    have hstamp : owner.2 = (w.lane l).incarnation := by
      unfold Lane.lastOwner at howner
      split at howner
      · cases howner
      · cases howner
        rfl
    rw [← hstamp]
    exact ending_recoverStreams around ⟨l, owner.2, owner.1⟩ w
  · exact .inl rfl

theorem claimLane_keeps {I : World → Prop} {process : Nat} {id : OrbitInbox.Identity}
    (h : ∀ lane, I (w.setLane l lane)) :
    I (claimLane g around process pid id incarnation l w).2 := by
  unfold claimLane resetLane
  split
  · simp only [Done.andThen, setLane_setLane]
    split
    · exact h _
    · exact h _
  · exact h _

theorem joinFrom_claims {process : Nat} {id : OrbitInbox.Identity} :
    Claims g w (joinFrom g around process pid id incarnation lanes w).2 := by
  induction lanes generalizing w with
  | nil => exact .same
  | cons l rest ih =>
    unfold joinFrom
    split
    · exact ih
    rename_i hfree
    split
    · exact .same
    · exact ih
    rename_i hhold
    have hclaimed : ∀ lane, Claims g w ((recoverLast g around l w).2.setLane l lane) := fun lane =>
      .claimed (not_not.mp hfree) (tryHold_free hhold).2 lane recoverLast_ended
    refine Done.andThen_world ?_ fun _ => claimLane_keeps hclaimed
    have hsame := hclaimed ((recoverLast g around l w).2.lane l)
    rwa [setLane_self] at hsame

theorem Claims.recovered (h : Claims g w w') (ht : Tidy w.streams.mem w.streams.handles) :
    ∃ w1, Recovers g w w1 ∧ w'.streams = w1.streams ∧ w'.graves = w1.graves := by
  cases h with
  | same => exact ⟨w, .refl ht, rfl, rfl⟩
  | @claimed l w1 _ hhold _ hended =>
    refine ⟨w1, ?_, rfl, rfl⟩
    rcases hended with rfl | rfl
    · exact .refl ht
    · exact .endStreams ht hhold

theorem Safe.claims (h : Safe g w) (hc : Claims g w w') : Safe g w' := by
  obtain ⟨w1, hr, hstreams, hgraves⟩ := hc.recovered h.tidy
  refine ⟨by rw [hstreams]; exact hr.tidy, fun grave hmem hu => ?_⟩
  have hu1 : Unended g w1 grave := by
    unfold Unended at hu ⊢
    rwa [← hstreams]
  rw [hgraves, hr.graves] at hmem
  have hleft := h.left grave hmem (hr.unended hu1)
  cases hc with
  | same => exact hleft
  | @claimed l w2 hfree _ lane hended =>
    -- an owner with sides left has its lane still claimed, and the lane that was taken was free
    have hne : grave.lane ≠ l := by
      rintro rfl
      exact hleft.1 hfree
    have hlane : (w2.setLane l lane).lane grave.lane = w.lane grave.lane := by
      rcases hended with rfl | rfl
      · exact update_of_ne hne _ _
      · exact update_of_ne hne _ _
    rw [hlane]
    exact hleft

variable {process : Nat} {c : Call} {op : Op g}

theorem outlived_mem {graves : List Grave} {grave : Grave} (h : grave ∈ graves.map Grave.outlived) :
    ∃ grave' ∈ graves, grave'.lane = grave.lane ∧ grave'.incarnation = grave.incarnation := by
  obtain ⟨grave', hmem, rfl⟩ := mem_map.mp h
  exact ⟨grave', hmem, rfl, rfl⟩

theorem Safe.outlived (h : Safe g w) : Safe g { w with graves := w.graves.map Grave.outlived } := by
  refine ⟨h.tidy, fun grave hmem hu => ?_⟩
  obtain ⟨grave', hmem', hlane, hinc⟩ := outlived_mem hmem
  unfold Unended at hu
  rw [← hlane, ← hinc] at hu ⊢
  exact h.left grave' hmem' hu

theorem Safe.held (h : Safe g w) (hhold : (w.lane l).hold = some process) (lane : Lane) :
    Safe g (w.setLane l lane) := by
  refine ⟨h.tidy, fun grave hmem hu => ?_⟩
  have hleft := h.left grave hmem hu
  have hne : grave.lane ≠ l := by
    rintro rfl
    rw [hleft.2.2] at hhold
    cases hhold
  have hlane : (w.setLane l lane).lane grave.lane = w.lane grave.lane :=
    update_of_ne hne _ _
  rw [hlane]
  exact hleft

theorem Safe.call (h : Safe g w) (hcare : c.Careful g w) : Safe g (call g process w c) := by
  cases c with
  | openSegment first second around =>
    show Safe g (openSegment g first second around w).2
    unfold openSegment
    split
    · exact h
    · have hrecovered := h.recoverAbandoned (hcare rfl)
      exact Done.andThen_world hrecovered fun _ => hrecovered
    · exact h
  | join id incarnation recovery claim =>
    have hrecovered := h.recoverAbandoned hcare
    have hjoined : Safe g (join g recovery claim process id incarnation w).2 := by
      refine Done.andThen_world hrecovered fun _ => ?_
      split
      · exact hrecovered
      · exact hrecovered
      · exact hrecovered.claims joinFrom_claims
    unfold OrbitSegment.call
    dsimp only
    split
    · exact hjoined.outlived
    · exact hjoined
  | recoverAbandoned around => exact h.recoverAbandoned hcare
  | reclaimIfGone l around =>
    show Safe g (reclaimIfGone g around l w).2
    unfold reclaimIfGone
    split
    · exact h
    · exact h.recoverLane ending_recoverNothing fun hpending => .inl (hcare hpending)
  | send far written around =>
    show Safe g (send g far written around w).2
    unfold send
    split
    · exact h
    · rename_i hnone
      have hrecovered := h.recoverEach around ending_recoverNothing
        fun l hl hpending => .inl (hcare (Bool.eq_false_iff.mpr hnone) l hl hpending)
      exact Done.andThen_world hrecovered fun _ => hrecovered
  | reclaimProcess pid incarnation around => exact h.reclaimProcess
  | releaseLane l =>
    unfold OrbitSegment.call
    dsimp only
    split
    · rename_i hhold
      exact h.held hhold _
    · exact h
  | dropHold l =>
    unfold OrbitSegment.call
    dsimp only
    split
    · rename_i hhold
      exact h.held hhold.1 _
    · exact h

theorem call_recovered (process : Nat) (c : Call) (ht : Tidy w.streams.mem w.streams.handles) :
    ∃ w1, Recovers g w w1 ∧ (call g process w c).streams = w1.streams := by
  have hleft : ∀ {w'}, Recovers g w w' → ∃ w1, Recovers g w w1 ∧ w'.streams = w1.streams :=
    fun hr => ⟨_, hr, rfl⟩
  cases c with
  | openSegment first second around =>
    have hrecovers : Recovers g w (openSegment g first second around w).2 := by
      unfold openSegment
      split
      · exact .refl ht
      · have hr : Recovers g w (recoverAbandoned g around w).2 := recoverAbandoned_recovers ht
        exact Done.andThen_world hr fun _ => hr
      · exact .refl ht
    exact hleft hrecovers
  | join id incarnation recovery claim =>
    have hr : Recovers g w (recoverAbandoned g recovery w).2 := recoverAbandoned_recovers ht
    have hjoined : ∃ w1, Recovers g w w1 ∧
        (join g recovery claim process id incarnation w).2.streams = w1.streams := by
      refine Done.andThen_world (I := fun w' => ∃ w1, Recovers g w w1 ∧ w'.streams = w1.streams)
        (hleft hr) fun _ => ?_
      split
      · exact hleft hr
      · exact hleft hr
      · obtain ⟨w1, hr1, hstreams, -⟩ := joinFrom_claims.recovered hr.tidy
        exact ⟨w1, hr.trans hr1, hstreams⟩
    unfold call
    dsimp only
    split
    · exact hjoined
    · exact hjoined
  | recoverAbandoned around => exact hleft (recoverAbandoned_recovers ht)
  | reclaimIfGone l around =>
    have hrecovers : Recovers g w (reclaimIfGone g around l w).2 := by
      unfold reclaimIfGone
      split
      · exact .refl ht
      · exact recoverLane_recovers ht ending_recoverNothing
    exact hleft hrecovers
  | send far written around =>
    have hrecovers : Recovers g w (send g far written around w).2 := by
      unfold send
      split
      · exact .refl ht
      · have hr : Recovers g w (recoverEach recoverNothing around (farLanes g far w) w).2 :=
          recoverEach_recovers ht ending_recoverNothing
        exact Done.andThen_world hr fun _ => hr
    exact hleft hrecovers
  | reclaimProcess pid incarnation around => exact hleft (reclaimProcess_recovers ht)
  | releaseLane l =>
    refine ⟨w, .refl ht, ?_⟩
    unfold call
    dsimp only
    split
    · rfl
    · rfl
  | dropHold l =>
    refine ⟨w, .refl ht, ?_⟩
    unfold call
    dsimp only
    split
    · rfl
    · rfl

theorem bury_lane {l : Nat} (h : (w.lane l).hold = none) : (w.bury g process).lane l = w.lane l :=
  if_neg (by rw [h]; simp)

theorem Safe.bury (h : Safe g w) : Safe g (w.bury g process) := by
  refine ⟨h.tidy, fun grave hmem hu => ?_⟩
  rcases mem_append.mp hmem with hold | hnew
  · have hleft := h.left grave hold hu
    rw [bury_lane hleft.2.2]
    exact hleft
  · obtain ⟨l, hl, rfl⟩ := mem_map.mp hnew
    obtain ⟨hhold, hclaimed⟩ := of_decide_eq_true (mem_filter.mp hl).2
    have hlane : (w.bury g process).lane l = { w.lane l with hold := none } := if_pos hhold
    simp only [hlane]
    exact ⟨hclaimed, trivial, trivial⟩

theorem Safe.stream {op : OrbitStream.Op g.streams} (h : Safe g w)
    (hgiven : (Op.stream op : Op g).Given g w) :
    Safe g { w with streams := OrbitStream.exec w.streams op } := by
  refine ⟨(OrbitStream.exec_steps h.tidy op).tidy, fun grave hmem hu => ?_⟩
  obtain ⟨i, hi, side, hclaimed, hnode, hinc⟩ := hu
  have hinc' := beq_iff_eq.mp hinc
  rcases OrbitStream.exec_inherits h.tidy op i side hclaimed with ⟨hc, hn, hi'⟩ | hstamps
  · exact h.left grave hmem ⟨i, hi, side, hc, hn.symm.trans hnode,
      beq_iff_eq.mpr (hi'.symm.trans hinc')⟩
  · rw [hnode, hinc'] at hstamps
    exact absurd hstamps (hgiven grave hmem)

theorem Safe.exec (h : Safe g w) (hgiven : op.Given g w) (hcare : op.Careful g w) :
    Safe g (exec g w op) := by
  cases op with
  | spawn pid => exact ⟨h.tidy, h.left⟩
  | dies process => exact h.bury
  | call process c =>
    unfold OrbitSegment.exec
    dsimp only
    split
    · exact h.call hcare
    · exact h
  | stream op => exact h.stream hgiven

theorem exec_tidy (ht : Tidy w.streams.mem w.streams.handles) (op : Op g) :
    Tidy (exec g w op).streams.mem (exec g w op).streams.handles := by
  cases op with
  | spawn pid => exact ht
  | dies process => exact ht
  | call process c =>
    obtain ⟨w1, hr, hstreams⟩ := call_recovered process c ht
    unfold exec
    dsimp only
    split
    · rw [hstreams]
      exact hr.tidy
    · exact ht
  | stream op => exact (OrbitStream.exec_steps ht op).tidy

/-- Whatever a process calls ends no sides but those of a lane without a live owner that have the
lane's own stamp, and so that their peers see it. -/
theorem call_ends_own (ht : Tidy w.streams.mem w.streams.handles) (process : Nat) (c : Call) :
    ∀ i < g.streams.totalSlots, ∀ side,
      EndsOwn w (exec g w (.call process c)).streams.mem i side := by
  intro i hi side
  obtain ⟨w1, hr, hstreams⟩ := call_recovered process c ht
  unfold exec
  dsimp only
  split
  · rw [hstreams]
    exact hr.sides i hi side
  · exact .same w i side

/-- In every sequence of whole operations in which nobody claims a side for an owner that has died:
whatever a process calls ends only sides whose stamp is that of a lane without a live owner, in the
way that their peers see.  And if no operation takes back a lane whose dead owner has sides left
without ending these, then once a dead owner's lane is not claimed by it any more and a join has
succeeded since its death, all its sides are ended. -/
theorem recovery_ends_dead_owners (ops : List (Op g)) (hgiven : Meets (exec g) (Op.Given g) .init ops) :
    (∀ n process c, ops[n]? = some (.call process c) → ∀ i < g.streams.totalSlots, ∀ side,
      EndsOwn ((ops.take n).foldl (exec g) .init)
        ((ops.take (n + 1)).foldl (exec g) .init).streams.mem i side) ∧
    (Meets (exec g) (Op.Careful g) .init ops →
      ∀ n, Settled g ((ops.take n).foldl (exec g) .init)) := by
  refine ⟨fun n process c hop => ?_, fun hcare n => ?_⟩
  · have ht : Tidy ((ops.take n).foldl (exec g) .init).streams.mem
        ((ops.take n).foldl (exec g) .init).streams.handles :=
      foldl_holds (I := fun w : World => Tidy w.streams.mem w.streams.handles)
        (fun _ op h => exec_tidy h op) (ops.take n) .init
    rw [take_add_one, hop, Option.toList_some, foldl_append]
    exact call_ends_own ht process c
  · have hsafe : Safe g ((ops.take n).foldl (exec g) .init) :=
      ((hgiven.and hcare).take n).holds (fun _ _ h hop => h.exec hop.1 hop.2) .init
    exact hsafe.settled

theorem threeLanes_valid : (⟨1, 1, 2⟩ : OrbitStream.StreamSpec).validate = .ok () := by decide

theorem threeLanes_fleet : 3 < 2 ^ 16 := by decide

def threeLanes : Geometry where
  inbox := ⟨3, 1, 1, threeLanes_fleet, isPowerOfTwo_one, one_lt_u32, Nat.one_pos, one_lt_u32⟩
  streams := ⟨⟨1, 1, 2⟩, 3, threeLanes_valid, threeLanes_fleet⟩
  lanes_eq := rfl

def Surroundings.calm : Surroundings where
  depth _ := 0
  producers := .ok ()
  holdFails _ := false
  streams _ := .ok ()
  reset _ := .ok ()

def edge : OrbitInbox.Identity := ⟨[97], [101]⟩
def worker : OrbitInbox.Identity := ⟨[98], [119]⟩

/-- Two edges and a worker, the worker between them with a stream that the second edge opened; the
worker dies. -/
def workerDies : List (Op threeLanes) :=
  [.spawn 10, .spawn 20, .spawn 30,
    .call 0 (.join edge 5 .calm .calm),
    .call 1 (.join worker 7 .calm .calm),
    .call 2 (.join edge 8 .calm .calm),
    .stream (.create ⟨⟨1, by decide⟩, 7⟩),
    .stream (.openTicket ⟨⟨2, by decide⟩, 8⟩ ⟨⟨1, 1, 0, 1⟩, .b, 0⟩),
    .dies 1]

def edgeReturns : List (Op threeLanes) :=
  [.call 0 (.releaseLane 0), .call 0 (.dropHold 0), .call 0 (.join edge 9 .calm .calm)]

def sendRefused : Op threeLanes :=
  .call 2 (.send (· == [119]) (.ok ()) { Surroundings.calm with depth := fun _ => 1 })

theorem recovery_ends_dead_owners_sample :
    Meets (exec threeLanes) (Op.Careful threeLanes) .init (workerDies ++ edgeReturns) ∧
    ((workerDies ++ edgeReturns).foldl (exec threeLanes) .init).graves.map Grave.joined = [true] ∧
    ∀ n, Settled threeLanes (((workerDies ++ edgeReturns).take n).foldl (exec threeLanes) .init) := by
  have hcare : Meets (exec threeLanes) (Op.Careful threeLanes) .init (workerDies ++ edgeReturns) := by
    decide +kernel
  exact ⟨hcare, by decide +kernel, (recovery_ends_dead_owners _ (by decide +kernel)).2 hcare⟩

/-- The send takes the dead worker's lane back without ending its stream; the lane is then neither
claimed nor filled, so the join that follows does not look at it, and the second edge waits for
ever. -/
theorem worker_stream_forgotten :
    Meets (exec threeLanes) (Op.Given threeLanes) .init
      (workerDies ++ sendRefused :: edgeReturns) ∧
    ¬Settled threeLanes
      ((workerDies ++ sendRefused :: edgeReturns).foldl (exec threeLanes) .init) := by
  decide +kernel

end OrbitSegment
