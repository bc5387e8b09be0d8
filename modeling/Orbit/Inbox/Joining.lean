import Orbit.Inbox.Scans

/-! Joins and releases keep the invariant of `Orbit.Inbox.Roles`, and what follows for every run:
which lanes may be joined together, who holds a lane, and what a refused join leaves and saw. -/

namespace OrbitInbox

open Orbit.Atomic Function
open List hiding Mem

variable {g : Geometry} {P : Prop} {t : Nat} {call : Call} {α : Type}

/-- The word is none of those that say who holds a lane and what it advertises. -/
def Addr.Unwatched : Addr → Prop
  | .hold _ | .consumers _ | .serviceLen _ | .roleLen _ | .service .. | .role .. => False
  | _ => True

theorem Inv.unwatched {m : Share} {h : History} {mem : Mem Addr} {place : Addr} {value : Nat}
    (hplace : place.Unwatched) (hI : Inv g P m h mem) :
    Inv g P m h (update mem place value) where
  lane l := by
    have hne : ∀ other : Addr, ¬other.Unwatched → place ≠ other := fun other hother heq =>
      hother (heq ▸ hplace)
    rw [laneWords_update_ne value fun i => ⟨hne _ id, hne _ id, hne _ id, hne _ id, hne _ id,
      hne _ id⟩]
    exact hI.lane l
  call := hI.call
  stamps := hI.stamps
  order := hI.order
  seen := hI.seen

theorem safe_unwatched {p : InboxM α} {m : Share} {Q : α → Share → Prop}
    (hp : p.Quiet Addr.Unwatched) (hQ : ∀ a, Q a m) :
    Safe (inboxSys g) (undisturbed P) (Inv g P) t call p Q m :=
  .quiet hp (fun _ _ _ _ _ hplace hI => hI.unwatched hplace) hQ

theorem quiet_writeInterest_go (entry : Nat) (bits : Nat → Nat) (words : List Nat) :
    (writeInterest.go entry bits words).Quiet Addr.Unwatched := by
  induction words with
  | nil => exact .ret _
  | cons word rest ih => exact .bind (quiet_store trivial _) fun _ => ih

theorem quiet_clearInterest (entry : Nat) : (clearInterest entry).Quiet Addr.Unwatched :=
  .bind (quiet_load _) fun _ => .bind (quiet_store trivial _) fun _ =>
    .bind (quiet_writeInterest_go ..) fun _ => quiet_store trivial _

theorem quiet_initializeLane (l : Nat) (positions : List Nat) :
    (initializeLane g l positions).Quiet Addr.Unwatched := by
  induction positions with
  | nil => exact quiet_store trivial _
  | cons position rest ih => exact .bind (quiet_store trivial _) fun _ => ih

theorem quiet_snapshot (record : Nat) : (snapshot record).Quiet Addr.Unwatched := by
  unfold snapshot
  refine .bind (quiet_load _) fun before => ?_
  split
  · exact .ret _
  · exact .bind (quiet_load _) fun _ => .bind (quiet_load _) fun _ => .bind (quiet_load _) fun _ =>
      .bind (quiet_load _) fun _ => .bind (quiet_load _) fun _ => .ret _

theorem quiet_intentForClaim (claim : Nat) : (intentForClaim g claim).Quiet Addr.Unwatched := by
  unfold intentForClaim
  split
  · exact .ret _
  · refine .bind (quiet_snapshot _) fun intent => ?_
    split <;> exact .ret _

theorem quiet_consumeFrame (l position claim : Nat) :
    (consumeFrame g l position claim).Quiet Addr.Unwatched := by
  unfold consumeFrame
  split
  · exact .ret _
  · split
    · exact .ret _
    · exact .bind (quiet_store trivial _) fun _ => .bind (quiet_store trivial _) fun _ =>
        .bind (quiet_store trivial _) fun _ => .ret _

theorem quiet_drainLane (l n : Nat) : (drainLane g l n).Quiet Addr.Unwatched := by
  induction n with
  | zero => exact .ret _
  | succ n ih =>
    have hskip : ∀ position, (do
        store (.read l) (position + 1)
        drainLane g l n : InboxM (Except Error Unit)).Quiet Addr.Unwatched :=
      fun position => .bind (quiet_store trivial _) fun _ => ih
    unfold drainLane
    refine .bind (quiet_load _) fun position => .bind (quiet_load _) fun reserve => ?_
    split
    · exact .ret _
    refine .bind (quiet_load _) fun seq => ?_
    split
    · refine .bind (quiet_load _) fun claim => ?_
      split
      · refine .bind (quiet_intentForClaim claim) fun result => ?_
        split
        · exact .ret _
        · split
          · refine .bind (quiet_consumeFrame l position claim) fun result => ?_
            split
            · exact .ret _
            · exact ih
          · exact hskip position
      · exact hskip position
    · refine .bind (quiet_load _) fun claim => ?_
      split
      · refine .bind (quiet_consumeFrame l position claim) fun result => ?_
        split
        · exact .ret _
        · exact ih
      · exact .ret _

section

variable {l : Nat} {w : LaneWords} {log : LaneLog} {id : Identity}

theorem safe_write_unnamed {place : Addr} {value : Nat} (w' : LaneWords) (hlast : log.last = none)
    (hother : ∀ mem, ∀ l' ≠ l, laneWords (update mem place value) l' = laneWords mem l')
    (hwords : ∀ mem, laneWords mem l = w → laneWords (update mem place value) l = w')
    (hhold : w'.hold = w.hold) (hname : w'.serviceLen = 0) (hconsumers : w'.consumers = w.consumers) :
    Safe (inboxSys g) (undisturbed P) (Inv g P) t call (store place value)
      (fun _ m' => m' = ofLane l (own w' log)) (ofLane l (own w log)) := by
  intro others h mem hI _
  refine ⟨_, hI.at_words (hother mem) ?_, rfl⟩
  have hlane := hI.lane_at
  obtain ⟨hw, hlog, -⟩ := hlane.alone
  rw [Mem.put_some, hwords mem hw.symm]
  rw [← hw, ← hlog] at hlane
  rw [← hlog]
  exact hlane.write_unnamed hlast hhold hname hconsumers

def filled : (Nat → Nat) → Nat → List UInt8 → Nat → Nat
  | field, _, [] => field
  | field, index, byte :: rest => filled (update field index byte.toNat) (index + 1) rest

theorem filled_before (bytes : List UInt8) (field : Nat → Nat) {index i : Nat} (hi : i < index) :
    filled field index bytes i = field i := by
  induction bytes generalizing field index with
  | nil => rfl
  | cons byte rest ih =>
    rw [filled, ih _ (by omega), update_of_ne (by omega)]

theorem filled_get (bytes : List UInt8) (field : Nat → Nat) (index i : Nat)
    (hi : i < bytes.length) : filled field index bytes (index + i) = (bytes[i]).toNat := by
  induction bytes generalizing field index i with
  | nil => exact absurd hi (Nat.not_lt_zero i)
  | cons byte rest ih =>
    cases i with
    | zero =>
      rw [filled, filled_before _ _ (by omega)]
      exact update_self ..
    | succ i =>
      have := ih (update field index byte.toNat) (index + 1) i (by simpa using hi)
      rw [filled, show index + (i + 1) = index + 1 + i by omega, this]
      rfl

theorem safe_copyIn {place : Nat → Addr} (put : (Nat → Nat) → LaneWords) (hlast : log.last = none)
    (hother : ∀ mem i value, ∀ l' ≠ l,
      laneWords (update mem (place i) value) l' = laneWords mem l')
    (hput : ∀ mem i value field, laneWords mem l = put field →
      laneWords (update mem (place i) value) l = put (update field i value))
    (hhold : ∀ field, (put field).hold = w.hold) (hname : ∀ field, (put field).serviceLen = 0)
    (hconsumers : ∀ field, (put field).consumers = w.consumers) (bytes : List UInt8)
    (field : Nat → Nat) (index : Nat) :
    Safe (inboxSys g) (undisturbed P) (Inv g P) t call (copyIn place index bytes)
      (fun _ m' => m' = ofLane l (own (put (filled field index bytes)) log))
      (ofLane l (own (put field) log)) := by
  induction bytes generalizing field index with
  | nil => rfl
  | cons byte rest ih =>
    refine .bind ((safe_write_unnamed (put (update field index byte.toNat)) hlast
      (fun mem => hother mem index _) (fun mem => hput mem index _ field) ?_ (hname _) ?_).mono ?_)
    · rw [hhold, hhold]
    · rw [hconsumers, hconsumers]
    · rintro _ _ rfl
      exact ih _ _

/-- A claimed lane without a name, as its owner has it. -/
def Blank (l : Nat) (log : LaneLog) (m : Share) : Prop :=
  ∃ w, m = ofLane l (own w log) ∧ w.serviceLen = 0 ∧ w.consumers ≠ 0

variable {m : Share} {h : History} {mem : Mem Addr}

theorem Blank.unwatched {p : InboxM α} (hm : Blank l log m) (hp : p.Quiet Addr.Unwatched) :
    Safe (inboxSys g) (undisturbed P) (Inv g P) t call p (fun _ => Blank l log) m :=
  safe_unwatched hp fun _ => hm

theorem Blank.store_serviceLen (hm : Blank l log m) (hlast : log.last = none) :
    Safe (inboxSys g) (undisturbed P) (Inv g P) t call (store (.serviceLen l) 0)
      (fun _ => Blank l log) m := by
  obtain ⟨w, rfl, hname, hclaimed⟩ := hm
  refine (safe_write_unnamed w hlast (fun mem l' hne => ?_) (fun mem hmem => ?_) rfl hname rfl).mono ?_
  · exact laneWords_update_ne 0 fun i => by simp [Ne.symm hne]
  · rw [← hmem]
    have : mem (.serviceLen l) = 0 := by
      rw [← hmem] at hname
      exact hname
    simp [laneWords, this]
  · rintro _ _ rfl
    exact ⟨w, rfl, hname, hclaimed⟩

theorem Blank.store_roleLen (hm : Blank l log m) (hlast : log.last = none) :
    Safe (inboxSys g) (undisturbed P) (Inv g P) t call (store (.roleLen l) 0)
      (fun _ => Blank l log) m := by
  obtain ⟨w, rfl, hname, hclaimed⟩ := hm
  refine .mono (safe_write_unnamed (w := w) { w with roleLen := 0 } hlast (fun mem l' hne => ?_)
    (fun mem hmem => ?_) rfl hname rfl) ?_
  · exact laneWords_update_ne 0 fun i => by simp [Ne.symm hne]
  · rw [← hmem]
    simp [laneWords]
  · rintro _ _ rfl
    exact ⟨_, rfl, hname, hclaimed⟩

theorem safe_clearIdentity (hm : Blank l log m) (hlast : log.last = none) (nextEpoch : Nat) :
    Safe (inboxSys g) (undisturbed P) (Inv g P) t call (resetLane.clearIdentity l nextEpoch)
      (fun _ => Blank l log) m := by
  refine .bind ((hm.store_serviceLen hlast).mono fun _ _ hm => ?_)
  refine .bind ((hm.unwatched (quiet_store trivial _)).mono fun _ _ hm => ?_)
  refine .bind ((hm.store_roleLen hlast).mono fun _ _ hm => ?_)
  exact hm.unwatched (quiet_clearInterest l)

theorem safe_resetLane (hm : Blank l log m) (hlast : log.last = none) :
    Safe (inboxSys g) (undisturbed P) (Inv g P) t call (resetLane g l) (fun _ => Blank l log) m := by
  unfold resetLane
  refine .bind (.load fun epoch => ?_)
  split
  · exact hm
  refine .bind (.load fun initialized => ?_)
  split
  · refine .bind ((hm.unwatched (quiet_initializeLane l _)).mono fun _ _ hm => ?_)
    exact .bind ((safe_clearIdentity hm hlast _).mono fun _ _ hm => hm)
  · refine .bind ((hm.unwatched (quiet_drainLane l _)).mono fun result _ hm => ?_)
    split
    · exact hm
    · exact .bind ((safe_clearIdentity hm hlast _).mono fun _ _ hm => hm)

theorem Inv.saw {stamp : Nat} (hI : Inv g P m h mem) (hstamp : stamp ≤ h.published) (l : Nat) :
    Inv g P (ofLane l (saw stamp fun _ => True) + m) h mem := by
  have hI' : Inv g P (ofLane l 0 + m) h mem := by simpa using hI
  refine hI'.at_words (fun _ _ => rfl) ?_
  have hlane := hI'.lane_at
  rw [zero_add] at hlane
  exact hlane.sees hstamp fun _ _ _ _ _ => trivial

theorem Inv.saw_all {stamp : Nat} (hI : Inv g P m h mem) (hstamp : stamp ≤ h.published)
    (lanes : List Nat) :
    Inv g P ((lanes.map fun l => ofLane l (OrbitInbox.saw stamp fun _ => True)).sum + m) h mem := by
  induction lanes with
  | nil => simpa using hI
  | cons l rest ih =>
    rw [map_cons, sum_cons, add_assoc]
    exact ih.saw hstamp l

theorem update_service (mem : Mem Addr) (l i value : Nat) :
    laneWords (update mem (.service l i) value) l =
      { laneWords mem l with service := update (laneWords mem l).service i value } := by
  simp only [laneWords, LaneWords.mk.injEq]
  refine ⟨by simp, by simp, by simp, by simp, funext fun j => ?_, by simp⟩
  by_cases hj : j = i
  · subst hj
    simp
  · simp [hj]

theorem update_role (mem : Mem Addr) (l i value : Nat) :
    laneWords (update mem (.role l i) value) l =
      { laneWords mem l with role := update (laneWords mem l).role i value } := by
  simp only [laneWords, LaneWords.mk.injEq]
  refine ⟨by simp, by simp, by simp, by simp, by simp, funext fun j => ?_⟩
  by_cases hj : j = i
  · subst hj
    simp
  · simp [hj]

theorem update_roleLen (mem : Mem Addr) (l value : Nat) :
    laneWords (update mem (.roleLen l) value) l =
      { laneWords mem l with roleLen := value } := by
  simp [laneWords]

/-- A lane published by its owner, and a scan's start at the moment of its publication. -/
def Published (g : Geometry) (l : Nat) (id : Identity) (m : Share) : Prop :=
  ∃ w log stamp, log.last = some id ∧ log.advert = some stamp ∧ m = ofLane l (own w log) +
    ((range g.lanes).map fun l => ofLane l (saw stamp fun _ => True)).sum

theorem safe_publishIdentity (hm : Blank l log m) (hlast : log.last = none)
    (hfits : checkIdentity id.service id.role = .ok ()) (incarnation pid : Nat) :
    Safe (inboxSys g) (undisturbed P) (Inv g P) t call
      (publishIdentity l id.service id.role incarnation pid) (fun _ => Published g l id) m := by
  obtain ⟨w, rfl, hname, hclaimed⟩ := hm
  have hservice := (fits_service hfits).2
  have hrole := (fits_role hfits).2.1
  have hrolelen : id.role.length % 2 ^ 8 = id.role.length := Nat.mod_eq_of_lt (by
    simp only [laneRoleMax] at hrole
    omega)
  have hservicelen : id.service.length % 2 ^ 8 = id.service.length := Nat.mod_eq_of_lt (by
    simp only [laneNameMax] at hservice
    omega)
  unfold publishIdentity
  refine .bind ((safe_copyIn (fun field => { w with service := field }) hlast ?_ ?_ (fun _ => rfl)
    (fun _ => hname) (fun _ => rfl) id.service w.service 0).mono ?_)
  · exact fun mem i value l' hne => laneWords_update_ne value fun _ => by simp [Ne.symm hne]
  · intro mem i value field hmem
    rw [update_service, hmem]
  rintro - _ rfl
  refine .bind ((safe_copyIn (fun field => { w with
      service := filled w.service 0 id.service, role := field }) hlast ?_ ?_ (fun _ => rfl)
    (fun _ => hname) (fun _ => rfl) id.role w.role 0).mono ?_)
  · exact fun mem i value l' hne => laneWords_update_ne value fun _ => by simp [Ne.symm hne]
  · intro mem i value field hmem
    rw [update_role, hmem]
  rintro - _ rfl
  refine .bind (.mono (safe_write_unnamed (w := { w with
      service := filled w.service 0 id.service, role := filled w.role 0 id.role }) { w with
      service := filled w.service 0 id.service, role := filled w.role 0 id.role,
      roleLen := id.role.length } hlast (fun mem l' hne => ?_) (fun mem hmem => ?_) rfl hname
    rfl) ?_)
  · exact laneWords_update_ne _ fun _ => by simp [Ne.symm hne]
  · rw [hrolelen, update_roleLen, hmem]
  rintro - _ rfl
  refine Safe.store_bind fun others h mem hI _ => Goes.mark_bind ?_
  rw [hservicelen]
  have hspelled : id.Spelled { w with
      service := filled w.service 0 id.service, role := filled w.role 0 id.role,
      roleLen := id.role.length } := by
    refine ⟨fun i hi => ?_, fun i hi => ?_, hfits⟩
    · simpa using filled_get id.service w.service 0 i hi
    · simpa using filled_get id.role w.role 0 i hi
  have hpublished := hI.published (t := t) hspelled rfl hclaimed hlast
  have hstamp : h.published ≤ (record t (.published l id) h).published := Nat.le_succ _
  have hall := hpublished.saw_all hstamp (range g.lanes)
  rw [← add_assoc, add_comm (sum _)] at hall
  refine Safe.goes (.bind (safe_unwatched (quiet_store trivial _) fun _ => ?_)) hall
  refine .bind (safe_unwatched (quiet_store trivial _) fun _ => ?_)
  refine .bind (safe_unwatched (quiet_fetchAdd trivial _ _) fun _ => ?_)
  exact ⟨_, _, h.published, rfl, rfl, rfl⟩

/-- A lane given up, whose owner has only its hold to return. -/
def GivenUp (l : Nat) (m : Share) : Prop :=
  ∃ w log, m = ofLane l (own w log) ∧ log.holders = [] ∧ w.serviceLen = 0

theorem safe_releaseLane (w : LaneWords) (log : LaneLog) :
    Safe (inboxSys g) (undisturbed P) (Inv g P) t call (releaseLane l) (fun _ => GivenUp l)
      (ofLane l (own w log)) := by
  unfold releaseLane
  refine Safe.store_bind fun others h mem hI _ => Goes.mark_bind ?_
  refine Safe.goes ?_ (hI.withdrawn (t := t))
  refine Safe.store_bind fun others h mem hI _ => ?_
  have hunnamed : Inv g P (ofLane l (own { w with consumers := 0, serviceLen := 0 }
      { log with advert := none, holders := [] }) + others) h
      (update mem (.serviceLen l) 0) := by
    refine hI.at_words (fun l' hne => laneWords_update_ne 0 fun i => by simp [Ne.symm hne]) ?_
    have hlane := hI.lane_at
    obtain ⟨hw, hlog, -⟩ := hlane.alone
    have hwords : laneWords (update mem (.serviceLen l) 0) l =
        { laneWords mem l with serviceLen := 0 } := by simp [laneWords]
    rw [hwords, ← hw, ← hlog]
    rw [← hw, ← hlog] at hlane
    exact hlane.unnamed rfl
  refine Safe.goes ?_ hunnamed
  refine Safe.store_bind fun others h mem hI hwrite => ?_
  have hunroled : Inv g P (ofLane l (own { w with consumers := 0, serviceLen := 0, roleLen := 0 }
      { log with advert := none, holders := [] }) + others) h
      (update mem (.roleLen l) 0) := by
    refine hI.at_words (fun l' hne => laneWords_update_ne 0 fun i => by simp [Ne.symm hne]) ?_
    have hlane := hI.lane_at
    obtain ⟨hw, hlog, -⟩ := hlane.alone
    rw [update_roleLen, ← hw, ← hlog]
    rw [← hw, ← hlog] at hlane
    exact hlane.unroled rfl fun hP => hwrite rfl hP
  refine Safe.goes ?_ hunroled
  refine .bind (safe_unwatched (quiet_clearInterest l) fun _ => ?_)
  exact .bind (safe_unwatched (quiet_fetchAdd trivial _ _) fun _ => ⟨_, _, rfl, rfl, rfl⟩)

theorem safe_drop (w : LaneWords) (log : LaneLog) (hname : w.serviceLen = 0) :
    Safe (inboxSys g) (undisturbed P) (Inv g P) t call (store (.hold l) 0) (fun _ _ => True)
      (ofLane l (own w log)) := by
  intro others h mem hI _
  refine ⟨ofLane l 0, hI.at_words ?_ ?_, trivial⟩
  · exact fun l' hne => laneWords_update_ne 0 fun i => by simp [Ne.symm hne]
  · have hlane := hI.lane_at
    obtain ⟨hw, hlog, -⟩ := hlane.alone
    have hwords : laneWords (update mem (.hold l) 0) l =
        { laneWords mem l with hold := 0 } := by simp [laneWords]
    rw [Mem.put_some, hwords, ← hw, ← hlog, zero_add]
    rw [← hw, ← hlog] at hlane
    exact hlane.dropped hname

theorem Inv.taken (hI : Inv g P m h mem) (hfree : mem (.hold l) = 0) :
    mem (.serviceLen l) = 0 ∧ Inv g P (ofLane l (own { laneWords mem l with hold := 1 } (h.lane l)) + m)
      h (update mem (.hold l) 1) := by
  obtain ⟨hname, htaken⟩ := (hI.lane l).taken hfree
  have hI' : Inv g P (ofLane l 0 + m) h mem := by simpa using hI
  refine ⟨hname, hI'.at_words ?_ ?_⟩
  · exact fun l' hne => laneWords_update_ne 1 fun i => by simp [Ne.symm hne]
  · have hwords : laneWords (update mem (.hold l) 1) l =
        { laneWords mem l with hold := 1 } := by simp [laneWords]
    rw [hwords]
    exact htaken

theorem Inv.cleared {stamp : Nat} {lanes : List Nat}
    (hI : Inv g P (OrbitInbox.cleared stamp id lanes + m) h mem) :
    ∀ l ∈ lanes, ∀ s other, (h.lane l).advert = some s → s < stamp →
      (h.lane l).last = some other → ¬id.conflicts other := by
  induction lanes generalizing m with
  | nil => intro l hl; cases hl
  | cons l rest ih =>
    rw [cleared_cons, add_assoc] at hI
    have hrest := hI
    rw [add_left_comm] at hrest
    intro l' hl' s other
    rcases mem_cons.mp hl' with rfl | hl'
    · exact hI.lane_at.seen.2 s other
    · exact ih hrest l' hl' s other

theorem safe_decide (hfits : checkIdentity id.service id.role = .ok ()) (hm : Published g l id m) :
    Safe (inboxSys g) (undisturbed P) (Inv g P) t call (do
      match ← refuseOtherRole g id.service id.role (some l) with
      | .error conflict =>
        releaseLane l
        mark .refused
        store (.hold l) 0
        return .error conflict
      | .ok () =>
        mark (.joined l)
        return .ok l : InboxM (Except Error Nat)) (fun _ _ => True)
      (m + ofCall t (mine id [l])) := by
  obtain ⟨w, log, stamp, hlast, hadvert, rfl⟩ := hm
  rw [add_assoc, add_comm, add_comm (sum _)]
  refine .bind (((safe_refuseOtherRole hfits).frame _).mono fun result m' hm => ?_)
  obtain ⟨m, hm, rfl⟩ := hm
  cases result with
  | error conflict =>
    obtain ⟨extra, rfl⟩ := hm
    rw [add_comm]
    refine .bind (((safe_releaseLane w log).frame _).mono fun _ m' hm => ?_)
    obtain ⟨_, ⟨w', log', rfl, hholders, hname⟩, rfl⟩ := hm
    intro others h mem hI
    have hheld : Inv g P (ofLane l (own w' log') + (ofCall t (mine id [l]) +
        (ofCall t (seenIf P) + extra + others))) h mem := by
      rw [← add_assoc, ← add_assoc]
      rwa [← add_assoc] at hI
    have hgiven := hheld.unmine hholders
    have harrange : ofLane l (own w' log') + (ofCall t (mine id []) +
        (ofCall t (seenIf P) + extra + others)) =
        ofCall t (mine id [] + seenIf P + 0) + (ofLane l (own w' log') + extra + others) := by
      rw [add_zero, ofCall_add]
      abel
    rw [harrange] at hgiven
    refine Safe.goes ?_ (hgiven.refused)
    exact .bind (((safe_drop w' log' hname).frame extra).mono fun _ _ _ => trivial)
  | ok =>
    obtain ⟨clear, extra, hall, rfl⟩ := hm
    intro others h mem hI
    have harrange : ofCall t (mine id [l]) + (cleared stamp id clear + extra) +
        ofLane l (own w log) + others = cleared stamp id clear +
          (ofLane l (own w log) + (ofCall t (mine id [l]) + extra + others)) := by
      abel
    rw [harrange] at hI
    have hclear := hI.cleared
    rw [add_left_comm] at hI
    refine ⟨cleared stamp id clear + (ofCall t (mine id [l]) + extra), ?_, trivial⟩
    have hjoined := hI.joined (t := t) hlast hadvert fun l' hl' hne s other hs hle hother =>
      hclear l' (hall l' (mem_range.mpr hl') fun heq => hne (Option.some.inj heq)) s other hs
        hle hother
    rwa [ofLane_zero, zero_add, ← add_assoc] at hjoined

theorem safe_claimed {w : LaneWords} {log : LaneLog}
    (hfits : checkIdentity id.service id.role = .ok ()) (hlast : log.last = none)
    (hname : w.serviceLen = 0) (hclaimed : w.consumers ≠ 0) (incarnation pid : Nat) :
    Safe (inboxSys g) (undisturbed P) (Inv g P) t call (do
      match ← resetLane g l with
      | .error e =>
        store (.hold l) 0
        return .error e
      | .ok () =>
        publishIdentity l id.service id.role incarnation pid
        match ← refuseOtherRole g id.service id.role (some l) with
        | .error conflict =>
          releaseLane l
          mark .refused
          store (.hold l) 0
          return .error conflict
        | .ok () =>
          mark (.joined l)
          return .ok l : InboxM (Except Error Nat)) (fun _ _ => True)
      (ofLane l (own w log) + ofCall t (mine id [l])) := by
  refine .bind (((safe_resetLane ⟨w, rfl, hname, hclaimed⟩ hlast).frame _).mono
    fun result m' hm => ?_)
  obtain ⟨m, hblank, rfl⟩ := hm
  cases result with
  | error =>
    obtain ⟨w', rfl, hname', -⟩ := hblank
    exact .bind (((safe_drop w' log hname').frame _).mono fun _ _ _ => trivial)
  | ok =>
    refine .bind (((safe_publishIdentity hblank hlast hfits incarnation pid).frame _).mono
      fun _ m' hm => ?_)
    obtain ⟨m, hpublished, rfl⟩ := hm
    exact safe_decide hfits hpublished

theorem safe_joinFrom (hfits : checkIdentity id.service id.role = .ok ()) (incarnation pid : Nat)
    (holdFails : Nat → Bool) (lanes : List Nat) :
    Safe (inboxSys g) (undisturbed P) (Inv g P) t call
      (joinFrom g id.service id.role incarnation pid holdFails lanes) (fun _ _ => True)
      (ofCall t (mine id [])) := by
  induction lanes with
  | nil => trivial
  | cons l rest ih =>
    unfold joinFrom
    refine .bind (.load fun consumers => ?_)
    split
    · exact ih
    split
    · trivial
    refine Safe.compareExchange_bind (fun others h mem hI hhold _ => ?_)
      fun others h mem hI _ => Safe.goes ih hI
    -- the lane is this call's own: it is won, or its hold goes back
    obtain ⟨w, log, hname, htaken⟩ : ∃ w log, w.serviceLen = 0 ∧
        Inv g P (ofLane l (own w log) + ofCall t (mine id []) + others) h
          (update mem (.hold l) 1) := by
      obtain ⟨hname, htaken⟩ := hI.taken hhold
      rw [← add_assoc] at htaken
      exact ⟨_, _, hname, htaken⟩
    refine Safe.goes ?_ htaken
    refine Safe.compareExchange_bind (fun others h mem hI hfree hwrite => Goes.mark_bind ?_)
      fun others h mem hI _ => Safe.goes ?_ hI
    · rw [add_assoc] at hI
      have hwords := hI.lane_at.alone.1
      have hfree' : w.consumers = 0 := by
        rw [hwords]
        exact hfree
      have hwon := hI.won hfree' hname (hwrite hfree rfl)
      rw [← add_assoc] at hwon
      refine Safe.goes (safe_claimed hfits ?_ ?_ ?_ incarnation pid) hwon
      · rfl
      · exact hname
      · exact Nat.one_ne_zero
    · refine .bind (((safe_drop w log hname).frame _).mono fun _ m' hm => ?_)
      obtain ⟨extra, -, rfl⟩ := hm
      rw [add_comm]
      exact (ih.frame extra).mono fun _ _ _ => trivial

end

theorem safe_join {id : Identity} (incarnation pid : Nat) (holdFails : Nat → Bool) :
    Safe (inboxSys g) (undisturbed P) (Inv g P) t call
      (join g id.service id.role incarnation pid holdFails) (fun _ _ => True)
      (ofCall t (mine id []) +
        ((range g.lanes).map fun l => ofLane l (saw 0 fun _ => True)).sum) := by
  unfold join
  split
  · trivial
  next hfits =>
    refine .bind ((safe_refuseOtherRole hfits).mono fun result m' hm => ?_)
    cases result with
    | error conflict =>
      obtain ⟨extra, rfl⟩ := hm
      intro others h mem hI
      have harrange : ofCall t (mine id []) + (ofCall t (seenIf P) + extra) + others =
          ofCall t (mine id [] + seenIf P + 0) + (extra + others) := by
        rw [add_zero, ofCall_add]
        abel
      rw [harrange] at hI
      exact ⟨extra, hI.refused, trivial⟩
    | ok =>
      obtain ⟨clear, extra, -, rfl⟩ := hm
      exact ((safe_joinFrom hfits incarnation pid holdFails _).frame _).mono fun _ _ _ => trivial

theorem safe_release {l : Nat} (w : LaneWords) (log : LaneLog) :
    Safe (inboxSys g) (undisturbed P) (Inv g P) t call (do
      releaseLane l
      store (.hold l) 0 : InboxM Unit) (fun _ _ => True) (ofLane l (own w log)) := by
  refine .bind ((safe_releaseLane w log).mono fun _ _ hm => ?_)
  obtain ⟨w', log', rfl, -, hname⟩ := hm
  exact safe_drop w' log' hname

theorem inboxSys_begins {c : Call} {h h' : History} (hb : (inboxSys g).begins c h = some h') :
    h'.calls.length = h.calls.length + 1 := by
  cases c with
  | join identity incarnation pid holdFails =>
    obtain rfl := Option.some.inj hb
    simp
  | release l =>
    simp only [inboxSys, begins] at hb
    split at hb
    · obtain rfl := Option.some.inj hb
      simp
    · cases hb

theorem inboxSys_record (t : Nat) (c : Call) (event : Event) (h : History) :
    ((inboxSys g).record t c event h).calls.length = h.calls.length := by
  cases event <;> simp [inboxSys, record, History.setLane]

theorem inboxSys_inv {s : Config Addr Event Call History}
    (hs : Reach (inboxSys g) (undisturbed P) inboxStart s) : ∃ m, Inv g P m s.hist s.mem := by
  have hshares : ∃ shares, Shares (inboxSys g) (undisturbed P) (Inv g P) (fun _ => True) s shares := by
    refine Reach.holds_counted (Inv.init g P)
      (rfl : (fun h : History => h.calls.length) History.init = 0)
      (fun _ _ _ => inboxSys_begins) inboxSys_record ?_ hs
    intro c h h' mem m hI _ hb
    cases c with
    | join identity incarnation pid holdFails =>
      obtain rfl := Option.some.inj hb
      have hbegun := hI.begins (k := mine identity []) ⟨some identity,
        (range g.lanes).any fun l => (h.lane l).opposes identity, false⟩ rfl ?_
        (.inr ⟨identity, rfl, rfl⟩)
      · have hall := hbegun.saw_all (Nat.zero_le _) (range g.lanes)
        rw [← add_assoc, add_comm (sum _)] at hall
        exact ⟨_, hall, .bind ((safe_join incarnation pid holdFails).mono fun _ _ _ => trivial)⟩
      · intro id hid l hl hopp
        obtain rfl := Option.some.inj hid
        exact any_eq_true.mpr ⟨l, mem_range.mpr hl, hopp⟩
    | release l =>
      simp only [inboxSys, begins] at hb
      split at hb
      next hjoined =>
        obtain rfl := Option.some.inj hb
        have hI' : Inv g P (ofLane l 0 + m) h mem := by simpa using hI
        have hbegun := (hI'.released hjoined).begins (k := 0) ⟨none, false, false⟩ rfl
          (fun id hid => by cases hid) (.inl rfl)
        have hzero : ∀ t : Nat, ofCall t 0 = 0 := fun t => by simp [ofCall, Prod.mk_zero_zero]
        rw [hzero, zero_add] at hbegun
        exact ⟨_, hbegun, safe_release _ _⟩
      next => cases hb
  obtain ⟨shares, -, hI, -⟩ := hshares
  exact ⟨_, hI⟩

/-- The lane is claimed and its words say this identity. -/
structure Identity.Advertised (id : Identity) (w : LaneWords) : Prop where
  claimed : w.consumers ≠ 0
  serviceLen : w.serviceLen = id.service.length
  roleLen : w.roleLen = id.role.length
  spelled : id.Spelled w

theorem bytes_unique {bytes bytes' : List UInt8} {word : Nat → Nat}
    (hlen : bytes.length = bytes'.length) (h : ∀ i (hi : i < bytes.length), word i = (bytes[i]).toNat)
    (h' : ∀ i (hi : i < bytes'.length), word i = (bytes'[i]).toNat) : bytes = bytes' := by
  refine ext_getElem hlen fun i hi hi' => ?_
  apply UInt8.toNat_inj.mp
  rw [← h i hi, ← h' i hi']

theorem Identity.Advertised.unique {id id' : Identity} {w : LaneWords} (h : id.Advertised w)
    (h' : id'.Advertised w) : id = id' := by
  have hservice := bytes_unique (h.serviceLen.symm.trans h'.serviceLen) h.spelled.service
    h'.spelled.service
  have hrole := bytes_unique (h.roleLen.symm.trans h'.roleLen) h.spelled.role h'.spelled.role
  cases id
  cases id'
  cases hservice
  cases hrole
  rfl

theorem Written.advertised {w : LaneWords} {log : LaneLog} {published stamp : Nat}
    (h : Written w log published) (hstamp : log.advert = some stamp) :
    ∃ id : Identity, log.last = some id ∧ id.Advertised w := by
  obtain ⟨-, id, hid, hclaimed, hservice, hrole⟩ := h.advert stamp hstamp
  exact ⟨id, hid, hclaimed, hservice, hrole, (h.last id hid).1⟩

section

variable {m : Share} {h : History} {mem : Mem Addr} {l l' : Nat}

theorem Inv.joined_advertised (hI : Inv g P m h mem) (hjoined : (h.lane l).joined = true) :
    ∃ stamp id, (h.lane l).advert = some stamp ∧ (h.lane l).last = some id ∧
      id.Advertised (laneWords mem l) := by
  obtain ⟨stamp, hstamp⟩ := Option.isSome_iff_exists.mp ((hI.lane l).held.joined hjoined)
  obtain ⟨id, hid, hadvertised⟩ := (hI.lane l).written.advertised hstamp
  exact ⟨stamp, id, hstamp, hid, hadvertised⟩

theorem Inv.joined_agree (hI : Inv g P m h mem) (hl : l < g.lanes) (hl' : l' < g.lanes)
    (hjoined : (h.lane l).joined = true) (hjoined' : (h.lane l').joined = true) {id id' : Identity}
    (hid : id.Advertised (laneWords mem l)) (hid' : id'.Advertised (laneWords mem l')) :
    ¬id.conflicts id' := by
  obtain ⟨stamp, id₁, hstamp, hlast, hid₁⟩ := hI.joined_advertised hjoined
  obtain ⟨stamp', id₂, hstamp', hlast', hid₂⟩ := hI.joined_advertised hjoined'
  obtain rfl := hid.unique hid₁
  obtain rfl := hid'.unique hid₂
  rcases Nat.lt_trichotomy stamp stamp' with hlt | heq | hlt
  · intro hconf
    exact hI.order l' l stamp' stamp id' id hjoined' hstamp' hlast' hl hstamp hlast hlt
      ⟨hconf.1.symm, hconf.2.symm⟩
  · subst heq
    obtain rfl := hI.stamps l l' stamp hstamp hstamp'
    obtain rfl := hid.unique hid'
    exact fun hconf => hconf.2 rfl
  · exact hI.order l l' stamp stamp' id id' hjoined hstamp hlast hl' hstamp' hlast' hlt

end

/-- In every state that joins and releases reach: a joined lane advertises an identity, and no two
of them one name under different roles; no lane is held by two joins; a join that returned a
conflict holds no lane; and where no lane changed hands under a scan, it returned a conflict only
if it saw one. -/
theorem one_name_one_role {s : Config Addr Event Call History}
    (hs : Reach (inboxSys g) .free inboxStart s) :
    (∀ l, (s.hist.lane l).joined = true → ∃ id : Identity, id.Advertised (laneWords s.mem l)) ∧
    (∀ l < g.lanes, ∀ l' < g.lanes, (s.hist.lane l).joined = true →
      (s.hist.lane l').joined = true → ∀ id id' : Identity, id.Advertised (laneWords s.mem l) →
      id'.Advertised (laneWords s.mem l') → id.service = id'.service → id.role = id'.role) ∧
    (∀ l, (s.hist.lane l).holders.length ≤ 1) ∧
    (∀ (t : Nat) asked, s.hist.calls[t]? = some asked → asked.refused = true →
      ∀ l, t ∉ (s.hist.lane l).holders) ∧
    (Reach (inboxSys g) (undisturbed True) inboxStart s → ∀ (t : Nat) asked,
      s.hist.calls[t]? = some asked → asked.refused = true → asked.seen = true) := by
  have hfree : Reach (inboxSys g) (undisturbed False) inboxStart s := by
    refine hs.mono (fun _ _ _ _ => trivial) fun t c place old new h mem _ => ?_
    simp only [undisturbed]
    split
    · exact fun _ _ hP => hP.elim
    · exact fun _ hP => hP.elim
    · trivial
  obtain ⟨m, hI⟩ := inboxSys_inv hfree
  refine ⟨fun l hjoined => ?_, fun l hl l' hl' hj hj' id id' hid hid' hname => ?_,
    fun l => (hI.lane l).written.holders, fun t asked ha hr => ((hI.call t).refused asked ha hr).2,
    fun hquiet t asked ha hr => ?_⟩
  · obtain ⟨-, id, -, -, hid⟩ := hI.joined_advertised hjoined
    exact ⟨id, hid⟩
  · by_contra hrole
    exact hI.joined_agree hl hl' hj hj' hid hid' ⟨hname, hrole⟩
  · obtain ⟨m', hI'⟩ := inboxSys_inv hquiet
    exact ((hI'.call t).refused asked ha hr).1 trivial

instance (t : Nat) (c : Call) (place : Addr) (old new : Nat) (h : History) (mem : Mem Addr) :
    Decidable ((undisturbed True).write t c place old new h mem) :=
  match place with
  | .consumers l =>
    inferInstanceAs (Decidable (old = 0 → new = 1 → True → h.looking l = 0 ∧ h.asking l = 0))
  | .roleLen l => inferInstanceAs (Decidable (new = 0 → True → h.asking l = 0))
  | .directory | .reserve _ | .read _ | .incarnation _ | .epoch _ | .initialized _ | .service ..
  | .serviceLen _ | .pid _ | .role .. | .interestSeq _ | .interestBits .. | .seq .. | .claim ..
  | .len .. | .payload .. | .recordSeq _ | .recordPosition _ | .recordIncarnation _
  | .recordGeneration _ | .recordLane _ | .recordFlags _ | .hold _ =>
    inferInstanceAs (Decidable True)

instance (c : Call) (h : History) (mem : Mem Addr) :
    Decidable ((undisturbed True).begin c h mem) :=
  inferInstanceAs (Decidable True)

def oneLane : Geometry :=
  ⟨1, 1, 1, one_lt_u16, isPowerOfTwo_one, one_lt_u32, Nat.one_pos, one_lt_u32⟩

/-- A join of the service `w` for a role. -/
def joinWorker (role : UInt8) : Call := .join ⟨[119], [role]⟩ 1 1 fun _ => false

/-- A lane is joined, and a join for another role is refused. -/
theorem one_name_one_role_refused : ∃ s, Reach (inboxSys oneLane) .free inboxStart s ∧
    (s.hist.lane 0).joined = true ∧
    (∃ id : Identity, id.Advertised (laneWords s.mem 0)) ∧
    ∃ asked, s.hist.calls[1]? = some asked ∧ asked.refused = true ∧ asked.seen = true := by
  have hrun : (Discipline.runs (undisturbed True) (inboxSys oneLane) inboxStart
      ([.begin (joinWorker 97)] ++ replicate 30 (.step 0) ++ [.begin (joinWorker 98)] ++
        replicate 6 (.step 1))).any (fun s => (s.hist.lane 0).joined &&
      s.hist.calls[1]?.any fun asked => asked.refused) = true := by
    decide +kernel
  obtain ⟨s, hs, hp⟩ := Reach.exists_of_runs _ hrun
  rw [Bool.and_eq_true, Option.any_eq_true] at hp
  obtain ⟨hjoined, asked, hasked, hrefused⟩ := hp
  have hfree : Reach (inboxSys oneLane) .free inboxStart s :=
    hs.mono (fun _ _ _ _ => trivial) fun _ _ _ _ _ _ _ _ => trivial
  have hall := one_name_one_role hfree
  exact ⟨s, hfree, hjoined, hall.1 0 hjoined, asked, hasked, hrefused,
    hall.2.2.2.2 hs 1 asked hasked hrefused⟩

/-- Two joins of one identity, the first of which is released while the second looks at its lane:
the second is refused, though no other role was ever claimed for the name. -/
theorem released_lane_conflicts : ∃ s, Reach (inboxSys oneLane) .free inboxStart s ∧
    (∃ asked, s.hist.calls[1]? = some asked ∧ asked.refused = true ∧ asked.seen = false) ∧
    ∀ asked ∈ s.hist.calls, ∀ id, asked.identity = some id → id.role = [97] := by
  have hrun : (Discipline.runs .free (inboxSys oneLane) inboxStart
      ([.begin (joinWorker 97)] ++ replicate 30 (.step 0) ++ [.begin (joinWorker 97)] ++
        replicate 3 (.step 1) ++ [.begin (.release 0)] ++ replicate 3 (.step 2) ++
        replicate 2 (.step 1))).any (fun s =>
      (s.hist.calls[1]?.any fun asked => asked.refused && !asked.seen) &&
      s.hist.calls.all fun asked => asked.identity.all fun id => id.role == [97]) = true := by
    decide +kernel
  obtain ⟨s, hs, hp⟩ := Reach.exists_of_runs _ hrun
  rw [Bool.and_eq_true, Option.any_eq_true, all_eq_true] at hp
  obtain ⟨⟨asked, hasked, hphantom⟩, hroles⟩ := hp
  rw [Bool.and_eq_true, Bool.not_eq_true'] at hphantom
  refine ⟨s, hs, ⟨asked, hasked, hphantom⟩, fun asked hmem id hid => ?_⟩
  have := hroles asked hmem
  rw [hid] at this
  exact beq_iff_eq.mp this

end OrbitInbox
