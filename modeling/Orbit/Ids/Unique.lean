import Orbit.Atomic.Sequence
import Orbit.Ids.Positions
import Mathlib.Data.List.Nodup

/-! Ids of one kind and node come from two counters: those that the processes of the node draw from,
and the write position of its lane.  The ids are distinct just when what one of the counters gives was
not given by the other one, or by the counter of another process of the node. -/

namespace OrbitIds

open Orbit.Atomic List Function Option
open OrbitRing (RingSpec RingTopology NetIds counterSize)

variable {spec : FleetSpec} {w w' : World} {me i j : Nat} {call c : Call} {m m' m0 : Member}
  {stage : Stage} {kind k : Kind} {lane l q start node : Nat} {action : Action} {e e' : Minted}

def World.Drawn (w : World) (k : Kind) (node q : Nat) : Prop :=
  ∃ m ∈ w.members, m.node = node ∧ q < m.idCounter k

structure Draws (spec : FleetSpec) (w : World) : Prop where
  drawn : ∀ k node q, ⟨false, k, node, q⟩ ∈ w.minted ↔ w.Drawn k node q
  le : ∀ m ∈ w.members, ∀ k, m.idCounter k ≤ counterSize
  node_lt : ∀ e ∈ w.minted, e.node < spec.fleetCapacity

theorem mem_set_iff {members : List Member} {p : Nat} (hp : p < members.length) :
    m0 ∈ members.set p m ↔ m0 = m ∨ ∃ p' : Nat, p' ≠ p ∧ members[p']? = some m0 := by
  constructor
  · intro hmem
    obtain ⟨p', hp'⟩ := getElem?_of_mem hmem
    by_cases heq : p' = p
    · rw [heq, getElem?_set_self hp] at hp'
      exact .inl (Option.some.inj hp').symm
    · rw [getElem?_set_ne (Ne.symm heq)] at hp'
      exact .inr ⟨p', heq, hp'⟩
  · rintro (rfl | ⟨p', hne, hp'⟩)
    · exact mem_of_getElem? (getElem?_set_self hp)
    · refine mem_of_getElem? (i := p') ?_
      rw [getElem?_set_ne (Ne.symm hne)]
      exact hp'

def World.DrawnBut (w : World) (p : Nat) (k : Kind) (node q : Nat) : Prop :=
  ∃ (p' : Nat) (m : Member), p' ≠ p ∧ w.members[p']? = some m ∧ m.node = node ∧ q < m.idCounter k

theorem Shift.drawn_iff (hs : Shift w w' me call m m' stage) (hcall : w.Has me call m) :
    w'.Drawn k node q ↔ m.node = node ∧ q < m'.idCounter k ∨ w.DrawnBut call.member k node q := by
  unfold World.Drawn World.DrawnBut
  rw [hs.members, ← hs.node]
  have hlt := (List.getElem?_eq_some_iff.mp hcall.member).1
  constructor
  · rintro ⟨m0, hmem, hdrawn⟩
    rcases (mem_set_iff hlt).mp hmem with rfl | ⟨p, hne, hp⟩
    · exact .inl hdrawn
    · exact .inr ⟨p, m0, hne, hp, hdrawn⟩
  · rintro (hdrawn | ⟨p, m0, hne, hp, hdrawn⟩)
    · exact ⟨m', (mem_set_iff hlt).mpr (.inl rfl), hdrawn⟩
    · exact ⟨m0, (mem_set_iff hlt).mpr (.inr ⟨p, hne, hp⟩), hdrawn⟩

theorem World.Has.drawn_iff (hcall : w.Has me call m) :
    w.Drawn k node q ↔ m.node = node ∧ q < m.idCounter k ∨ w.DrawnBut call.member k node q := by
  have hs : Shift w (w.setStage me call .done) me call m m .done := .stay hcall rfl rfl
  exact hs.drawn_iff hcall

theorem Draws.stay (h : Draws spec w) (hcall : w.Has me call m)
    (hs : Shift w w' me call m m' stage) (hcounter : m'.idCounter = m.idCounter) {new : List Minted}
    (hminted : w'.minted = w.minted ++ new)
    (hnew : ∀ e ∈ new, e.published = true ∧ e.node < spec.fleetCapacity) : Draws spec w' := by
  have hlt := (List.getElem?_eq_some_iff.mp hcall.member).1
  refine ⟨fun k node q => ?_, fun m0 hm0 k => ?_, fun e he => ?_⟩
  · rw [hs.drawn_iff hcall, hcounter, ← hcall.drawn_iff, ← h.drawn, hminted, mem_append]
    exact ⟨fun hmem => hmem.elim id fun hmem => (nomatch (hnew _ hmem).1), .inl⟩
  · rw [hs.members] at hm0
    rcases (mem_set_iff hlt).mp hm0 with rfl | ⟨p, -, hp⟩
    · rw [hcounter]
      exact h.le m (mem_of_getElem? hcall.member) k
    · exact h.le m0 (mem_of_getElem? hp) k
  · rw [hminted] at he
    exact (mem_append.mp he).elim (h.node_lt e) fun hmem => (hnew e hmem).2

theorem Draws.draw (h : Draws spec w) (hlocks : Locks spec w) (hcall : w.Has me call m)
    (hsize : m.idCounter call.op.kind + 1 ≤ counterSize) :
    Draws spec (((w.setMember call.member (m.draw call.op.kind)).setStage me call .done).mint
      [⟨false, call.op.kind, m.node, m.idCounter call.op.kind⟩]) := by
  have hlt := (List.getElem?_eq_some_iff.mp hcall.member).1
  have hmem := mem_of_getElem? hcall.member
  have hcounter : (m.draw call.op.kind).idCounter =
      update m.idCounter call.op.kind (m.idCounter call.op.kind + 1) := by
    unfold Member.draw
    rw [Nat.mod_eq_of_lt (Nat.lt_of_le_of_lt hsize counterSize_lt)]
  have hs := @shift_draw w me call m [⟨false, call.op.kind, m.node, m.idCounter call.op.kind⟩]
  refine ⟨fun k node q => ?_, fun m0 hm0 k => ?_, fun e he => ?_⟩
  · rw [hs.drawn_iff hcall, hcounter]
    have hold := (h.drawn k node q).trans hcall.drawn_iff
    simp only [World.mint, mem_append, mem_singleton, Minted.mk.injEq, true_and]
    by_cases hk : k = call.op.kind
    · subst hk
      rw [update_self]
      constructor
      · rintro (hin | ⟨-, rfl, rfl⟩)
        · exact (hold.mp hin).imp_left fun hq => ⟨hq.1, Nat.lt_succ_of_lt hq.2⟩
        · exact .inl ⟨rfl, Nat.lt_succ_self _⟩
      · rintro (⟨hnode, hq⟩ | hother)
        · rcases Nat.lt_succ_iff_lt_or_eq.mp hq with hless | rfl
          · exact .inl (hold.mpr (.inl ⟨hnode, hless⟩))
          · exact .inr ⟨rfl, hnode.symm, rfl⟩
        · exact .inl (hold.mpr (.inr hother))
    · rw [update_of_ne hk]
      exact ⟨fun hin => hin.elim hold.mp fun heq => absurd heq.1 hk, fun hd => .inl (hold.mpr hd)⟩
  · rw [hs.members] at hm0
    rcases (mem_set_iff hlt).mp hm0 with rfl | ⟨p, -, hp⟩
    · rw [hcounter]
      by_cases hk : k = call.op.kind
      · rw [hk, update_self]
        exact hsize
      · rw [update_of_ne hk]
        exact h.le m hmem k
    · exact h.le m0 (mem_of_getElem? hp) k
  · rcases mem_append.mp he with hold | hnew
    · exact h.node_lt e hold
    · rw [mem_singleton.mp hnew]
      exact hlocks.node_lt m hmem

theorem Draws.moves (h : Draws spec w) (hlocks : Locks spec w) (hcall : w.Has me call m)
    (hsize : w.upTo spec call m ≤ counterSize) (hm : Moves spec w me call m w') : Draws spec w' := by
  have hnone : ∀ e ∈ ([] : List Minted), e.published = true ∧ e.node < spec.fleetCapacity :=
    fun _ he => nomatch he
  cases hm with
  | draw hstage hop =>
    refine h.draw hlocks hcall ?_
    simpa only [World.upTo, hstage, hop, if_true] using hsize
  | ended | claim | order | load | store | unorder | skip =>
    exact h.stay hcall (.stay hcall rfl rfl) rfl (append_nil _).symm hnone
  | lock | unlock => exact h.stay hcall (shift_member rfl rfl) rfl (append_nil _).symm hnone
  | give start hstage =>
    refine h.stay hcall (.stay hcall rfl rfl) rfl rfl fun e he => ?_
    obtain ⟨q, -, -, rfl⟩ := mem_framesFrom.mp he
    exact ⟨rfl, hlocks.node_lt m (mem_of_getElem? hcall.member)⟩

theorem Draws.exec (h : Draws spec w) (hlocks : Locks spec w)
    (hpromised : w.Promised spec action) : Draws spec (w.exec spec action) := by
  unfold World.exec
  cases hnext : w.next spec action with
  | none => exact h
  | some w' =>
    rw [getD_some]
    cases action with
    | join node =>
      obtain ⟨hnode, hsome⟩ := ite_none_right_eq_some.mp hnext
      cases hsome
      refine ⟨fun k node' q => ?_, fun m hm k => ?_, h.node_lt⟩
      · refine (h.drawn k node' q).trans ⟨fun ⟨m, hm, hq⟩ => ⟨m, mem_append_left _ hm, hq⟩, ?_⟩
        rintro ⟨m, hm, hq⟩
        rcases mem_append.mp hm with hold | hnew
        · exact ⟨m, hold, hq⟩
        · rw [mem_singleton.mp hnew] at hq
          exact absurd hq.2 (Nat.not_lt_zero q)
      · rcases mem_append.mp hm with hold | hnew
        · exact h.le m hold k
        · rw [mem_singleton.mp hnew]
          exact Nat.zero_le _
    | leave p =>
      obtain ⟨m, hp, rfl⟩ := map_eq_some_iff.mp hnext
      have hlt := (List.getElem?_eq_some_iff.mp hp).1
      have hmem : ∀ m0 ∈ (w.leave p m).members, ∃ old ∈ w.members, m0.node = old.node ∧
          m0.idCounter = old.idCounter := by
        intro m0 hm0
        rcases (mem_set_iff hlt).mp hm0 with rfl | ⟨p', -, hp'⟩
        · exact ⟨m, mem_of_getElem? hp, rfl, rfl⟩
        · exact ⟨m0, mem_of_getElem? hp', rfl, rfl⟩
      refine ⟨fun k node q => (h.drawn k node q).trans ⟨?_, ?_⟩, fun m0 hm0 k => ?_, h.node_lt⟩
      · rintro ⟨old, hold, hq⟩
        obtain ⟨p', hp'⟩ := getElem?_of_mem hold
        by_cases hne : p' = p
        · rw [hne, hp] at hp'
          cases hp'
          exact ⟨{ m with live := false }, (mem_set_iff hlt).mpr (.inl rfl), hq⟩
        · exact ⟨old, (mem_set_iff hlt).mpr (.inr ⟨p', hne, hp'⟩), hq⟩
      · rintro ⟨m0, hm0, hnode, hq⟩
        obtain ⟨old, hold, hn, hc⟩ := hmem m0 hm0
        exact ⟨old, hold, hn ▸ hnode, hc ▸ hq⟩
      · obtain ⟨old, hold, -, hc⟩ := hmem m0 hm0
        rw [hc]
        exact h.le old hold k
    | call p op =>
      obtain ⟨m, hp, hsome⟩ := bind_eq_some_iff.mp hnext
      obtain ⟨hlive, hsome⟩ := ite_none_right_eq_some.mp hsome
      cases hsome
      exact ⟨h.drawn, h.le, h.node_lt⟩
    | step me =>
      obtain ⟨call, m, hcall, hm, hsize⟩ := next_moves (.inl rfl) hpromised hnext
      exact h.moves hlocks hcall hsize hm
    | fails me =>
      obtain ⟨call, m, hcall, hm, hsize⟩ := next_moves (.inr rfl) hpromised hnext
      exact h.moves hlocks hcall hsize hm

structure Sound (spec : FleetSpec) (w : World) : Prop where
  locks : Locks spec w
  placed : Placed spec w
  draws : Draws spec w

theorem Sound.exec (h : Sound spec w) (hpromised : w.Promised spec action) :
    Sound spec (w.exec spec action) :=
  ⟨h.locks.exec hpromised, h.placed.exec h.locks hpromised, h.draws.exec h.locks hpromised⟩

theorem Sound.init : Sound spec .init where
  locks := ⟨fun _ h => (nomatch h), fun _ _ _ h => (nomatch h.call), fun _ _ _ _ h => (nomatch h),
    fun _ => Nat.zero_le 1, fun _ h => (nomatch h), fun _ h => (nomatch h), fun _ h => (nomatch h),
    fun _ _ _ h => (nomatch h.call), fun _ _ h => (nomatch h), fun _ _ _ _ h => (nomatch h.call)⟩
  placed := ⟨fun _ _ => Nat.zero_le _, fun _ _ _ _ ⟨_, _, _, h, _⟩ => (nomatch h.call),
    fun _ _ _ ⟨_, h, _⟩ => (nomatch h), fun _ _ _ _ ⟨_, _, _, h, _⟩ => (nomatch h.call),
    fun _ _ _ _ _ ⟨_, _, _, h, _⟩ => (nomatch h.call)⟩
  draws := ⟨fun _ _ _ => ⟨fun h => (nomatch h), fun ⟨_, h, _⟩ => (nomatch h)⟩,
    fun _ h => (nomatch h), fun _ h => (nomatch h)⟩

def Minted.key (e : Minted) : Kind × Nat × Nat := (e.kind, e.node, e.counter)

def World.Distinct (w : World) : Prop := (w.minted.map Minted.key).Nodup

theorem Sound.counter_lt (h : Sound spec w) (he : e ∈ w.minted) : e.counter < counterSize := by
  obtain ⟨published, k, node, q⟩ := e
  cases published with
  | true =>
    exact Nat.lt_of_lt_of_le (h.placed.taken_lt k _ q ⟨node, he, rfl⟩) (h.placed.pos_le k _)
  | false =>
    obtain ⟨m, hm, -, hq⟩ := (h.draws.drawn k node q).mp he
    exact Nat.lt_of_lt_of_le hq (h.draws.le m hm k)

theorem Sound.id_eq_iff (h : Sound spec w) (he : e ∈ w.minted) (he' : e' ∈ w.minted) :
    e.id spec.ids = e'.id spec.ids ↔ e.key = e'.key := by
  have hnode := Nat.lt_trans (h.draws.node_lt e he) spec.fleetCapacity_lt
  have hnode' := Nat.lt_trans (h.draws.node_lt e' he') spec.fleetCapacity_lt
  have hcounter := h.counter_lt he
  have hcounter' := h.counter_lt he'
  constructor
  · intro heq
    have hkind := congrArg spec.ids.kind heq
    have hnodes := congrArg spec.ids.node heq
    have hcounters := congrArg spec.ids.counter heq
    simp only [Minted.id, spec.ids.kind_make _ _ _ e.kind.isLt hnode hcounter,
      spec.ids.kind_make _ _ _ e'.kind.isLt hnode' hcounter'] at hkind
    simp only [Minted.id, spec.ids.node_make _ _ _ e.kind.isLt hnode hcounter,
      spec.ids.node_make _ _ _ e'.kind.isLt hnode' hcounter'] at hnodes
    simp only [Minted.id, spec.ids.counter_make _ _ _ e.kind.isLt hnode hcounter,
      spec.ids.counter_make _ _ _ e'.kind.isLt hnode' hcounter'] at hcounters
    simp only [Minted.key, Fin.ext hkind, hnodes, hcounters]
  · intro heq
    simp only [Minted.key, Prod.mk.injEq] at heq
    simp only [Minted.id, heq.1, heq.2.1, heq.2.2]

theorem Sound.distinct_iff (h : Sound spec w) :
    (∀ kind, (w.returned spec kind).Nodup) ↔ w.Distinct := by
  simp only [World.returned, World.Distinct, Nodup, pairwise_map, pairwise_filter,
    decide_eq_true_eq]
  constructor
  · intro hids
    rw [pairwise_iff_getElem]
    intro i j hi hj hlt hkey
    have hkind : w.minted[i].kind = w.minted[j].kind := congrArg Prod.fst hkey
    exact (pairwise_iff_getElem.mp (hids w.minted[j].kind)) i j hi hj hlt hkind rfl
      ((h.id_eq_iff (getElem_mem hi) (getElem_mem hj)).mpr hkey)
  · intro hkeys kind
    refine List.Pairwise.imp_of_mem (fun he he' hne _ _ heq => ?_) hkeys
    exact hne ((h.id_eq_iff he he').mp heq)

def World.gives (spec : FleetSpec) (call : Call) (m : Member) : List Minted :=
  let kind := call.op.kind
  match call.stage with
  | .ready => if call.op.draws then [⟨false, kind, m.node, m.idCounter kind⟩] else []
  | .written start => framesFrom kind m.node start (call.op.positions (spec.ring kind))
  | _ => []

theorem exec_minted (hcall : w.Has me call m) :
    (w.exec spec (.step me)).minted = w.minted ++ World.gives spec call m := by
  have hnext : w.next spec (.step me) = w.step spec me call m := by
    simp only [World.next, hcall.call, hcall.member, bind_eq_bind, bind_some]
  unfold World.exec
  rw [hnext]
  unfold World.step World.gives
  dsimp only
  cases hstage : call.stage with
  | ready =>
    dsimp only
    split
    · rfl
    · repeat' split
      all_goals exact (append_nil _).symm
  | locked | stored start =>
    dsimp only
    repeat' split
    all_goals exact (append_nil _).symm
  | ordered | loaded start | unlocked start | done => exact (append_nil _).symm
  | written start => rfl

theorem key_mem_iff : (k, node, q) ∈ w.minted.map Minted.key ↔
    ⟨true, k, node, q⟩ ∈ w.minted ∨ ⟨false, k, node, q⟩ ∈ w.minted := by
  rw [List.mem_map]
  constructor
  · rintro ⟨⟨published, k', node', q'⟩, hmem, heq⟩
    simp only [Minted.key, Prod.mk.injEq] at heq
    obtain ⟨rfl, rfl, rfl⟩ := heq
    cases published with
    | true => exact .inl hmem
    | false => exact .inr hmem
  · rintro (hmem | hmem) <;> exact ⟨_, hmem, rfl⟩

theorem distinct_append {new : List Minted} (h : w.Distinct) (hnew : (new.map Minted.key).Nodup) :
    ((w.minted ++ new).map Minted.key).Nodup ↔ ∀ e ∈ new, e.key ∉ w.minted.map Minted.key := by
  rw [map_append, nodup_append]
  constructor
  · rintro ⟨-, -, hne⟩ e he hmem
    exact hne _ hmem _ (List.mem_map_of_mem he) rfl
  · refine fun hne => ⟨h, hnew, ?_⟩
    rintro key hmem _ hkey rfl
    obtain ⟨e, he, rfl⟩ := List.mem_map.mp hkey
    exact hne e he hmem

theorem nodup_framesFrom {count : Nat} :
    ((framesFrom kind node start count).map Minted.key).Nodup := by
  unfold framesFrom
  rw [List.map_map]
  refine Nodup.map (fun q q' heq => ?_) (nodup_range' 1)
  simp only [comp_apply, Minted.key, Prod.mk.injEq, true_and] at heq
  exact heq

theorem Sound.apart_iff (h : Sound spec w) (hdistinct : w.Distinct) (hcall : w.Has me call m) :
    (w.exec spec (.step me)).Distinct ↔ w.KeepsApart call m := by
  have hnone : (w.minted ++ []).map Minted.key = w.minted.map Minted.key := by
    rw [append_nil]
  have hdrawn : ∀ q, ⟨false, call.op.kind, m.node, q⟩ ∈ w.minted ↔
      ∃ other ∈ w.members, other.node = m.node ∧ q < other.idCounter call.op.kind :=
    h.draws.drawn call.op.kind m.node
  unfold World.Distinct
  rw [exec_minted hcall]
  unfold World.gives World.KeepsApart
  dsimp only
  cases hstage : call.stage with
  | ready =>
    dsimp only
    cases hdraws : call.op.draws with
    | false =>
      rw [if_neg Bool.false_ne_true, hnone]
      exact iff_of_true hdistinct fun hdraw => nomatch hdraw
    | true =>
      rw [if_pos rfl, distinct_append hdistinct (by exact nodup_singleton _)]
      simp only [mem_singleton, forall_eq, Minted.key, key_mem_iff, hdrawn, not_or, not_exists,
        not_and, Nat.not_lt, forall_const]
      exact and_comm
  | written start =>
    dsimp only
    rw [distinct_append hdistinct nodup_framesFrom]
    have hcount := h.locks.writes call (mem_of_getElem? hcall.call)
      (by rw [hstage]; rintro ⟨⟩) (by rw [hstage]; rintro ⟨⟩)
    constructor
    · intro hnew other hother hnode
      have hstart := hnew _ (mem_framesFrom.mpr ⟨start, Nat.le_refl _, by omega, rfl⟩)
      refine Nat.le_of_not_lt fun hlt => hstart (key_mem_iff.mpr (.inr ?_))
      exact (hdrawn start).mpr ⟨other, hother, hnode, hlt⟩
    · intro hle e he hmem
      obtain ⟨q, hlow, hhigh, rfl⟩ := mem_framesFrom.mp he
      rcases key_mem_iff.mp hmem with hpublished | hd
      · have hheld : w.Held spec me call.op.kind (spec.lane call.op.kind m.node) q :=
          ⟨call, m, start, hcall, by rw [hstage]; rfl, rfl, rfl, hlow, hhigh⟩
        exact h.placed.apart _ _ _ _ hheld ⟨m.node, hpublished, rfl⟩
      · obtain ⟨other, hother, hnode, hlt⟩ := (hdrawn q).mp hd
        have := hle other hother hnode
        omega
  | locked | ordered | loaded start | stored start | unlocked start | done =>
    rw [hnone]
    exact iff_of_true hdistinct trivial

theorem exec_minted_other (haction : ∀ me, action ≠ .step me) :
    (w.exec spec action).minted = w.minted := by
  unfold World.exec
  cases hnext : w.next spec action with
  | none => rfl
  | some w' =>
    rw [getD_some]
    cases action with
    | join node =>
      obtain ⟨-, hsome⟩ := ite_none_right_eq_some.mp hnext
      cases hsome
      rfl
    | leave p =>
      obtain ⟨m, -, rfl⟩ := map_eq_some_iff.mp hnext
      rfl
    | call p op =>
      obtain ⟨m, -, hsome⟩ := bind_eq_some_iff.mp hnext
      obtain ⟨-, hsome⟩ := ite_none_right_eq_some.mp hsome
      cases hsome
      rfl
    | step me => exact absurd rfl (haction me)
    | fails me =>
      obtain ⟨call, -, hsome⟩ := bind_eq_some_iff.mp hnext
      obtain ⟨m, -, hsome⟩ := bind_eq_some_iff.mp hsome
      unfold World.fails at hsome
      dsimp only at hsome
      split at hsome
      · split at hsome
        · cases hsome
          rfl
        · cases hsome
      · split at hsome
        · cases hsome
          rfl
        · cases hsome
      · cases hsome

theorem Sound.exec_iff (h : Sound spec w) (hdistinct : w.Distinct) :
    (w.exec spec action).Distinct ↔ w.Apart action := by
  cases action with
  | step me =>
    unfold World.Apart
    cases hcall : w.calls[me]? with
    | none =>
      have hexec : w.exec spec (.step me) = w := by
        simp only [World.exec, World.next, hcall, bind_eq_bind, bind_none,
          getD_none]
      rw [hexec]
      exact iff_of_true hdistinct fun call hsome => nomatch hcall.symm.trans hsome
    | some call =>
      obtain ⟨m, hm⟩ := h.locks.has hcall
      rw [h.apart_iff hdistinct hm]
      constructor
      · intro hkeeps c hc m' hm'
        obtain rfl := Option.some.inj (hcall.symm.trans hc)
        obtain rfl := Option.some.inj (hm.member.symm.trans hm')
        exact hkeeps
      · exact fun hkeeps => hkeeps call hcall m hm.member
  | join node | leave p | call p op | fails me =>
    unfold World.Distinct
    rw [exec_minted_other fun _ => by rintro ⟨⟩]
    exact iff_of_true hdistinct trivial

/-- Along a run the ids of every kind are distinct just when each step keeps the counters of a node
apart: no process of the node draws an id that another one has drawn or that is a position the node has
published at, and the node publishes at no position that is an id its processes have drawn. -/
theorem ids_unique_iff (spec : FleetSpec) (actions : List Action)
    (hpromised : Meets (World.exec spec) (World.Promised spec) .init actions) :
    (∀ n kind, (((actions.take n).foldl (World.exec spec) .init).returned spec kind).Nodup) ↔
      Meets (World.exec spec) World.Apart .init actions := by
  refine meets_iff_within (I := fun w => Sound spec w ∧ w.Distinct)
    (fun w action hw hp hapart => ⟨hw.1.exec hp, (hw.1.exec_iff hw.2).mpr hapart⟩)
    (fun w hw => hw.1.distinct_iff.mpr hw.2)
    (fun w action hw hp hids => ?_) hpromised ⟨.init, nodup_nil⟩
  exact (hw.1.exec_iff hw.2).mp ((hw.1.exec hp).distinct_iff.mp hids)

instance (w : World) (action : Action) : Decidable (w.Promised spec action) :=
  match action with
  | .join node => inferInstanceAs (Decidable ((∀ m ∈ w.members, m.live = true → m.node ≠ node) ∧
      (spec.shm = false → w.members = [])))
  | .step me => inferInstanceAs (Decidable (∀ call ∈ w.calls[me]?, ∀ m ∈ w.members[call.member]?,
      w.upTo spec call m ≤ counterSize))
  | .leave _ | .call _ _ | .fails _ => isTrue trivial

def FleetSpec.sample : FleetSpec where
  ids := .packed
  fleetCapacity := 1
  fleetCapacity_lt := one_lt_u16
  shm := false
  ring kind :=
    { kind := kind
      capacity := 1
      payloadCapacity := 0
      topology := .perNode
      kind_lt := kind.isLt
      capacity_pos := Nat.one_pos
      capacity_pow := isPowerOfTwo_one
      payload_lt := u32_pos }

theorem ids_unique_sample :
    (∀ n kind, ((([.join 0, .call 0 (.nextId 0), .step 0, .call 0 (.nextId 0), .step 1].take n).foldl
        (World.exec .sample) .init).returned .sample kind).Nodup) ↔
      Meets (World.exec .sample) World.Apart .init
        [.join 0, .call 0 (.nextId 0), .step 0, .call 0 (.nextId 0), .step 1] :=
  ids_unique_iff .sample _ (by decide +kernel)

/-- A process draws an id, and publishes its first frame under the same one. -/
theorem drawn_id_published : ¬ ∀ (spec : FleetSpec) (actions : List Action),
    Meets (World.exec spec) (World.Promised spec) .init actions →
      ∀ kind, ((actions.foldl (World.exec spec) .init).returned spec kind).Nodup := by
  intro hunique
  have hids := hunique .sample ([.join 0, .call 0 (.nextId 0), .step 0, .call 0 (.publish 0 0 false)] ++
    replicate 6 (.step 1)) (by decide +kernel) 0
  revert hids
  decide +kernel

end OrbitIds
