import Orbit.Atomic.Tasks
import Orbit.Ids.Minting

/-! Who holds which positions of a lane: the locks around the write position let no two calls claim
the same one, also where processes leave in the middle of a call. -/

namespace OrbitIds

open List Function Option
open Orbit.Atomic (getElem?_concat)
open OrbitRing (RingSpec RingTopology NetIds counterSize)

variable {spec : FleetSpec} {w w' : World} {me i j : Nat} {call c : Call} {m m' m0 : Member}
  {stage : Stage} {kind k : Kind} {lane l q start node : Nat} {holder : Option Nat} {minted : List Minted}

/-- What the step of a call can do. -/
inductive Moves (spec : FleetSpec) (w : World) (me : Nat) (call : Call) (m : Member) : World → Prop
  | draw (hstage : call.stage = .ready) (hop : call.op.draws = true) :
    Moves spec w me call m
      (((w.setMember call.member (m.draw call.op.kind)).setStage me call .done).mint
        [⟨false, call.op.kind, m.node, m.idCounter call.op.kind⟩])
  | ended (hstage : call.stage = .ready ∧ call.op.draws = false ∨
      ∃ start, call.stage = .written start) :
    Moves spec w me call m (w.setStage me call .done)
  | claim (hstage : call.stage = .ready) (hop : call.op.draws = false)
    (hcount : 0 < call.op.positions (spec.ring call.op.kind))
    (hshared : (spec.ring call.op.kind).topology = .shared) :
    Moves spec w me call m
      ((w.setPos call.op.kind (spec.lane call.op.kind m.node)
        ((w.writePos call.op.kind (spec.lane call.op.kind m.node) +
          call.op.positions (spec.ring call.op.kind)) % wordSize)).setStage me call
        (.written (w.writePos call.op.kind (spec.lane call.op.kind m.node))))
  | lock (hstage : call.stage = .ready)
    (hcount : 0 < call.op.positions (spec.ring call.op.kind))
    (hshared : (spec.ring call.op.kind).topology ≠ .shared)
    (hfree : m.writeLock call.op.kind (spec.lane call.op.kind m.node) = none) :
    Moves spec w me call m
      ((w.setMember call.member (m.setLock call.op.kind (spec.lane call.op.kind m.node)
        (some me))).setStage me call .locked)
  | order (hstage : call.stage = .locked) (hfree : w.region call.op.kind = none) :
    Moves spec w me call m ((w.setRegion call.op.kind (some me)).setStage me call .ordered)
  | load (hstage : call.stage = .locked ∧ spec.regional call.op.kind = false ∨
      call.stage = .ordered) :
    Moves spec w me call m (w.setStage me call
      (.loaded (w.writePos call.op.kind (spec.lane call.op.kind m.node))))
  | store (start : Nat) (hstage : call.stage = .loaded start) :
    Moves spec w me call m
      ((w.setPos call.op.kind (spec.lane call.op.kind m.node)
        ((start + call.op.positions (spec.ring call.op.kind)) % wordSize)).setStage me call
          (.stored start))
  | unorder (start : Nat) (hstage : call.stage = .stored start)
    (hregional : spec.regional call.op.kind = true) :
    Moves spec w me call m ((w.setRegion call.op.kind none).setStage me call (.unlocked start))
  | skip (start : Nat) (hstage : call.stage = .stored start) :
    Moves spec w me call m (w.setStage me call (.unlocked start))
  | unlock (stage : Stage) (hstage : call.stage = .locked ∧ stage = .done ∨
      ∃ start, call.stage = .unlocked start ∧ stage = .written start) :
    Moves spec w me call m
      ((w.setMember call.member (m.setLock call.op.kind (spec.lane call.op.kind m.node)
        none)).setStage me call stage)
  | give (start : Nat) (hstage : call.stage = .written start) :
    Moves spec w me call m ((w.setStage me call .done).mint
      (framesFrom call.op.kind m.node start (call.op.positions (spec.ring call.op.kind))))

theorem step_moves (h : w.step spec me call m = some w') : Moves spec w me call m w' := by
  unfold World.step at h
  dsimp only at h
  cases hstage : call.stage with
  | ready =>
    simp only [hstage] at h
    split at h
    · rename_i hop
      cases h
      exact .draw hstage hop
    · rename_i hop
      split at h
      · cases h
        exact .ended (.inl ⟨hstage, Bool.eq_false_iff.mpr hop⟩)
      · rename_i hcount
        split at h
        · rename_i hshared
          cases h
          exact .claim hstage (Bool.eq_false_iff.mpr hop) (Nat.pos_of_ne_zero hcount) hshared
        · rename_i hshared
          split at h
          · rename_i hfree
            cases h
            exact .lock hstage (Nat.pos_of_ne_zero hcount) hshared hfree
          · cases h
  | locked =>
    simp only [hstage] at h
    split at h
    · split at h
      · rename_i hfree
        cases h
        exact .order hstage hfree
      · cases h
    · rename_i hregional
      cases h
      exact .load (.inl ⟨hstage, Bool.eq_false_iff.mpr hregional⟩)
  | ordered =>
    simp only [hstage] at h
    cases h
    exact .load (.inr hstage)
  | loaded start =>
    simp only [hstage] at h
    cases h
    exact .store start hstage
  | stored start =>
    simp only [hstage] at h
    split at h
    · rename_i hregional
      cases h
      exact .unorder start hstage hregional
    · cases h
      exact .skip start hstage
  | unlocked start =>
    simp only [hstage] at h
    cases h
    exact .unlock _ (.inr ⟨start, hstage, rfl⟩)
  | written start =>
    simp only [hstage] at h
    cases h
    exact .give start hstage
  | done =>
    simp only [hstage] at h
    cases h

theorem fails_moves (h : w.fails spec me call m = some w') : Moves spec w me call m w' := by
  unfold World.fails at h
  dsimp only at h
  split at h
  · rename_i hstage
    split at h
    · cases h
      exact .unlock _ (.inl ⟨hstage, rfl⟩)
    · cases h
  · rename_i start hstage
    split at h
    · cases h
      exact .ended (.inr ⟨start, hstage⟩)
    · cases h
  · cases h

def Stage.locks : Stage → Prop
  | locked | ordered | loaded _ | stored _ | unlocked _ => True
  | ready | written _ | done => False

def Stage.orders : Stage → Prop
  | ordered | loaded _ | stored _ => True
  | ready | locked | unlocked _ | written _ | done => False

def Stage.claimed : Stage → Option Nat
  | stored start | unlocked start | written start => some start
  | ready | locked | ordered | loaded _ | done => none

/-- A call and the process that made it. -/
structure World.Has (w : World) (i : Nat) (c : Call) (m : Member) : Prop where
  call : w.calls[i]? = some c
  member : w.members[c.member]? = some m

structure Locks (spec : FleetSpec) (w : World) : Prop where
  made : ∀ call ∈ w.calls, call.member < w.members.length
  live : ∀ i call m, w.Has i call m → call.stage ≠ .done → m.live = true
  alone : ∀ (p p' : Nat) (m m' : Member), w.members[p]? = some m → w.members[p']? = some m' → m.live = true →
    m'.live = true → m.node = m'.node → p = p'
  single : spec.shm = false → w.members.length ≤ 1
  node_lt : ∀ m ∈ w.members, m.node < spec.fleetCapacity
  writes : ∀ call ∈ w.calls, call.stage ≠ .ready → call.stage ≠ .done →
    0 < call.op.positions (spec.ring call.op.kind)
  unshared : ∀ call ∈ w.calls, call.stage.locks → (spec.ring call.op.kind).topology ≠ .shared
  lock : ∀ i call m, w.Has i call m → call.stage.locks →
    m.writeLock call.op.kind (spec.lane call.op.kind m.node) = some i
  region : ∀ (i : Nat) (call : Call), w.calls[i]? = some call → call.stage.orders →
    spec.regional call.op.kind = true → w.region call.op.kind = some i
  loaded : ∀ i call m start, w.Has i call m → call.stage = .loaded start →
    start = w.writePos call.op.kind (spec.lane call.op.kind m.node)

theorem Stage.orders.toLocks (h : stage.orders) : stage.locks := by
  cases stage <;> trivial

theorem Stage.orders.ne_done (h : stage.orders) : stage ≠ .done := by
  rintro rfl
  exact h

theorem Stage.locks.ne (h : stage.locks) : stage ≠ .ready ∧ stage ≠ .done := by
  constructor <;> (rintro rfl; exact h)

theorem Locks.has (h : Locks spec w) (hi : w.calls[i]? = some c) :
    ∃ m, w.Has i c m :=
  ⟨_, hi, getElem?_eq_getElem (h.made c (mem_of_getElem? hi))⟩

theorem Locks.exclusive (h : Locks spec w) (hi : w.Has i call m) (hj : w.Has j c m0)
    (horders : call.stage.orders) (horders' : c.stage.orders) (hkind : call.op.kind = c.op.kind)
    (hlane : spec.lane call.op.kind m.node = spec.lane c.op.kind m0.node) : i = j := by
  cases hregional : spec.regional call.op.kind with
  | true =>
    have hmine := h.region i call hi.call horders hregional
    have hother := h.region j c hj.call horders' (hkind ▸ hregional)
    rw [hkind, hother] at hmine
    exact (Option.some.inj hmine).symm
  | false =>
    have hsame : call.member = c.member := by
      have hshared := h.unshared call (mem_of_getElem? hi.call) horders.toLocks
      cases hshm : spec.shm with
      | false =>
        have hp := (List.getElem?_eq_some_iff.mp hi.member).1
        have hp' := (List.getElem?_eq_some_iff.mp hj.member).1
        have := h.single hshm
        omega
      | true =>
        refine h.alone _ _ m m0 hi.member hj.member (h.live i call m hi horders.ne_done)
          (h.live j c m0 hj horders'.ne_done) ?_
        cases htopology : (spec.ring call.op.kind).topology with
        | shared => exact absurd htopology hshared
        | perNode =>
          simp only [FleetSpec.lane, htopology, hkind ▸ htopology] at hlane
          exact hlane
        | sharedOrdered =>
          simp only [FleetSpec.regional, hshm, htopology] at hregional
          cases hregional
    have hmember := hi.member
    rw [hsame, hj.member] at hmember
    obtain rfl := Option.some.inj hmember
    have hmine := h.lock i call m0 hi horders.toLocks
    have hother := h.lock j c m0 hj horders'.toLocks
    rw [hkind, hother] at hmine
    exact (Option.some.inj hmine).symm

theorem Member.setLock_other (h : m.writeLock k l = some i) (hne : m.writeLock kind lane ≠ some i) :
    (m.setLock kind lane holder).writeLock k l = some i := by
  unfold Member.setLock
  dsimp only
  by_cases hk : k = kind
  · subst hk
    rw [update_self]
    by_cases hl : l = lane
    · subst hl
      exact absurd h hne
    · rw [update_of_ne hl]
      exact h
  · rw [update_of_ne hk]
    exact h

theorem Member.setLock_self : (m.setLock kind lane holder).writeLock kind lane = holder := by
  unfold Member.setLock
  dsimp only
  rw [update_self, update_self]

theorem World.setPos_other {value : Nat} (h : kind = k → lane ≠ l) :
    (w.setPos kind lane value).writePos k l = w.writePos k l := by
  unfold World.setPos
  dsimp only
  by_cases hk : k = kind
  · subst hk
    rw [update_self, update_of_ne (h rfl).symm]
  · rw [update_of_ne hk]

theorem World.setPos_self {value : Nat} : (w.setPos kind lane value).writePos kind lane = value := by
  unfold World.setPos
  dsimp only
  rw [update_self, update_self]

/-- A call steps: it goes to another stage, and its process may change its counters and its locks. -/
structure Shift (w w' : World) (me : Nat) (call : Call) (m m' : Member) (stage : Stage) : Prop where
  calls : w'.calls = w.calls.set me { call with stage }
  members : w'.members = w.members.set call.member m'
  node : m'.node = m.node
  live : m'.live = m.live

theorem Shift.stay (hcall : w.Has me call m) (hcalls : w'.calls = w.calls.set me { call with stage })
    (hmembers : w'.members = w.members) : Shift w w' me call m m stage where
  calls := hcalls
  members := by
    obtain ⟨hlt, hget⟩ := List.getElem?_eq_some_iff.mp hcall.member
    rw [hmembers, ← hget, set_getElem_self]
  node := rfl
  live := rfl

theorem Shift.has (hs : Shift w w' me call m m' stage) (hcall : w.Has me call m)
    (h : w'.Has i c m0) :
    i = me ∧ c = { call with stage } ∧ m0 = m' ∨
      i ≠ me ∧ (w.Has i c m0 ∧ c.member ≠ call.member ∨
        w.Has i c m ∧ c.member = call.member ∧ m0 = m') := by
  obtain ⟨hc, hm⟩ := h
  rw [hs.calls] at hc
  rw [hs.members] at hm
  have hlt := (List.getElem?_eq_some_iff.mp hcall.member).1
  by_cases hi : i = me
  · subst hi
    rw [getElem?_set_self (List.getElem?_eq_some_iff.mp hcall.call).1] at hc
    cases hc
    rw [getElem?_set_self hlt] at hm
    exact .inl ⟨rfl, rfl, (Option.some.inj hm).symm⟩
  · rw [getElem?_set_ne (Ne.symm hi)] at hc
    refine .inr ⟨hi, ?_⟩
    by_cases hp : c.member = call.member
    · rw [hp, getElem?_set_self hlt] at hm
      exact .inr ⟨⟨hc, hp ▸ hcall.member⟩, hp, (Option.some.inj hm).symm⟩
    · rw [getElem?_set_ne (Ne.symm hp)] at hm
      exact .inl ⟨⟨hc, hm⟩, hp⟩

theorem Shift.member (hs : Shift w w' me call m m' stage) (hcall : w.Has me call m) {p : Nat}
    (h : w'.members[p]? = some m0) :
    ∃ old, w.members[p]? = some old ∧ m0.node = old.node ∧ m0.live = old.live := by
  rw [hs.members] at h
  by_cases hp : p = call.member
  · subst hp
    rw [getElem?_set_self (List.getElem?_eq_some_iff.mp hcall.member).1] at h
    cases h
    exact ⟨m, hcall.member, hs.node, hs.live⟩
  · rw [getElem?_set_ne (Ne.symm hp)] at h
    exact ⟨m0, h, rfl, rfl⟩

theorem Locks.shift (h : Locks spec w) (stage : Stage) (hcall : w.Has me call m)
    (hs : Shift w w' me call m m' stage) (hstage : call.stage ≠ .done)
    (hwrites : stage ≠ .ready ∧ (stage ≠ .done → 0 < call.op.positions (spec.ring call.op.kind)))
    (hunshared : stage.locks → (spec.ring call.op.kind).topology ≠ .shared)
    (hlocks : ∀ i ≠ me, ∀ k l, m.writeLock k l = some i → m'.writeLock k l = some i)
    (hlock : stage.locks → m'.writeLock call.op.kind (spec.lane call.op.kind m.node) = some me)
    (hregions : ∀ i ≠ me, ∀ k, w.region k = some i → w'.region k = some i)
    (hregion : stage.orders → spec.regional call.op.kind = true → w'.region call.op.kind = some me)
    (hloadeds : ∀ i ≠ me, ∀ c m0 start, w.Has i c m0 → c.stage = .loaded start →
      w'.writePos c.op.kind (spec.lane c.op.kind m0.node) =
        w.writePos c.op.kind (spec.lane c.op.kind m0.node))
    (hloaded : ∀ start, stage = .loaded start →
      start = w'.writePos call.op.kind (spec.lane call.op.kind m.node)) : Locks spec w' := by
  have hmem : ∀ c ∈ w'.calls, c ∈ w.calls ∨ c = { call with stage } := fun c hc => by
    rw [hs.calls] at hc
    exact mem_or_eq_of_mem_set hc
  have hlength : w'.members.length = w.members.length := by rw [hs.members, length_set]
  refine ⟨fun c hc => ?_, fun i c m0 hi hne => ?_, fun p p' m0 m0' hp hp' hlive hlive' hnode => ?_,
    fun hshm => ?_, fun m0 hm0 => ?_, fun c hc hready hdone => ?_, fun c hc hclocks => ?_,
    fun i c m0 hi hclocks => ?_, fun i c hi horders hregional => ?_,
    fun i c m0 start hi hcstage => ?_⟩
  · rw [hlength]
    rcases hmem c hc with hold | rfl
    · exact h.made c hold
    · exact h.made call (mem_of_getElem? hcall.call)
  · rcases hs.has hcall hi with ⟨rfl, rfl, rfl⟩ | ⟨hi', ⟨hold, -⟩ | ⟨hold, -, rfl⟩⟩
    · rw [hs.live]
      exact h.live _ call m hcall hstage
    · exact h.live i c m0 hold hne
    · rw [hs.live]
      exact h.live i c m hold hne
  · obtain ⟨old, hold, hn, hl⟩ := hs.member hcall hp
    obtain ⟨old', hold', hn', hl'⟩ := hs.member hcall hp'
    exact h.alone p p' old old' hold hold' (hl ▸ hlive) (hl' ▸ hlive')
      (hn.symm.trans (hnode.trans hn'))
  · rw [hlength]
    exact h.single hshm
  · obtain ⟨p, hp⟩ := getElem?_of_mem hm0
    obtain ⟨old, hold, hn, -⟩ := hs.member hcall hp
    rw [hn]
    exact h.node_lt old (mem_of_getElem? hold)
  · rcases hmem c hc with hold | rfl
    · exact h.writes c hold hready hdone
    · exact hwrites.2 hdone
  · rcases hmem c hc with hold | rfl
    · exact h.unshared c hold hclocks
    · exact hunshared hclocks
  · rcases hs.has hcall hi with ⟨rfl, rfl, rfl⟩ | ⟨hi', ⟨hold, -⟩ | ⟨hold, -, rfl⟩⟩
    · rw [hs.node]
      exact hlock hclocks
    · exact h.lock i c m0 hold hclocks
    · rw [hs.node]
      exact hlocks i hi' _ _ (h.lock i c m hold hclocks)
  · rw [hs.calls] at hi
    by_cases hme : i = me
    · subst hme
      rw [getElem?_set_self (List.getElem?_eq_some_iff.mp hcall.call).1] at hi
      cases hi
      exact hregion horders hregional
    · rw [getElem?_set_ne (Ne.symm hme)] at hi
      exact hregions i hme _ (h.region i c hi horders hregional)
  · rcases hs.has hcall hi with ⟨rfl, rfl, rfl⟩ | ⟨hi', ⟨hold, -⟩ | ⟨hold, -, rfl⟩⟩
    · rw [hs.node]
      exact hloaded start hcstage
    · rw [hloadeds i hi' c m0 start hold hcstage]
      exact h.loaded i c m0 start hold hcstage
    · rw [hs.node, hloadeds i hi' c m start hold hcstage]
      exact h.loaded i c m start hold hcstage

theorem shift_draw : Shift w (((w.setMember call.member (m.draw call.op.kind)).setStage me call
    .done).mint minted) me call m (m.draw call.op.kind) .done := ⟨rfl, rfl, rfl, rfl⟩

theorem shift_member (hcalls : w'.calls = w.calls.set me { call with stage })
    (hmembers : w'.members = w.members.set call.member (m.setLock kind lane holder)) :
    Shift w w' me call m (m.setLock kind lane holder) stage := ⟨hcalls, hmembers, rfl, rfl⟩

theorem Locks.moves (h : Locks spec w) (hcall : w.Has me call m) (hm : Moves spec w me call m w') :
    Locks spec w' := by
  have hmem := mem_of_getElem? hcall.call
  cases hm with
  | draw hstage hop =>
    exact h.shift .done hcall shift_draw
      (by rw [hstage]; rintro ⟨⟩) ⟨by rintro ⟨⟩, fun hne => absurd rfl hne⟩ False.elim
      (fun _ _ _ _ hlock => hlock) False.elim (fun _ _ _ hregion => hregion) False.elim
      (fun _ _ _ _ _ _ _ => rfl) (by rintro _ ⟨⟩)
  | ended hstage =>
    have hne : call.stage ≠ .done := by
      rcases hstage with ⟨hstage, -⟩ | ⟨start, hstage⟩ <;> (rw [hstage]; rintro ⟨⟩)
    exact h.shift .done hcall (.stay hcall rfl rfl) hne
      ⟨by rintro ⟨⟩, fun hne => absurd rfl hne⟩ False.elim (fun _ _ _ _ hlock => hlock) False.elim
      (fun _ _ _ hregion => hregion) False.elim (fun _ _ _ _ _ _ _ => rfl) (by rintro _ ⟨⟩)
  | claim hstage hop hcount hshared =>
    refine h.shift (.written _) hcall (.stay hcall rfl rfl) (by rw [hstage]; rintro ⟨⟩)
      ⟨by rintro ⟨⟩, fun _ => hcount⟩ False.elim (fun _ _ _ _ hlock => hlock) False.elim
      (fun _ _ _ hregion => hregion) False.elim (fun i hi c m0 start hc hcstage => ?_)
      (by rintro _ ⟨⟩)
    have hother := h.unshared c (mem_of_getElem? hc.call) (by rw [hcstage]; trivial)
    have hk : c.op.kind ≠ call.op.kind := fun heq => hother (heq ▸ hshared)
    exact congrFun (update_of_ne hk _ _) _
  | lock hstage hcount hshared hfree =>
    exact h.shift .locked hcall (shift_member rfl rfl)
      (by rw [hstage]; rintro ⟨⟩) ⟨by rintro ⟨⟩, fun _ => hcount⟩ (fun _ => hshared)
      (fun i _ k l hlock => Member.setLock_other hlock (by rw [hfree]; rintro ⟨⟩))
      (fun _ => Member.setLock_self) (fun _ _ _ hregion => hregion) False.elim
      (fun _ _ _ _ _ _ _ => rfl) (by rintro _ ⟨⟩)
  | order hstage hfree =>
    have hlocks : call.stage.locks := by rw [hstage]; trivial
    refine h.shift .ordered hcall (.stay hcall rfl rfl) (by rw [hstage]; rintro ⟨⟩)
      ⟨by rintro ⟨⟩, fun _ => h.writes call hmem hlocks.ne.1 hlocks.ne.2⟩
      (fun _ => h.unshared call hmem hlocks) (fun _ _ _ _ hlock => hlock)
      (fun _ => h.lock me call m hcall hlocks) (fun i _ k hregion => ?_)
      (fun _ _ => update_self _ _ _) (fun _ _ _ _ _ _ _ => rfl) (by rintro _ ⟨⟩)
    have hk : k ≠ call.op.kind := by
      rintro rfl
      rw [hfree] at hregion
      cases hregion
    exact (update_of_ne hk _ _).trans hregion
  | load hstage =>
    have hlocks : call.stage.locks := by
      rcases hstage with ⟨hstage, -⟩ | hstage <;> (rw [hstage]; trivial)
    refine h.shift (.loaded _) hcall (.stay hcall rfl rfl) hlocks.ne.2
      ⟨by rintro ⟨⟩, fun _ => h.writes call hmem hlocks.ne.1 hlocks.ne.2⟩
      (fun _ => h.unshared call hmem hlocks) (fun _ _ _ _ hlock => hlock)
      (fun _ => h.lock me call m hcall hlocks) (fun _ _ _ hregion => hregion)
      (fun _ hregional => ?_) (fun _ _ _ _ _ _ _ => rfl) (by rintro _ ⟨⟩; rfl)
    rcases hstage with ⟨-, hnot⟩ | hstage
    · rw [hregional] at hnot
      cases hnot
    · exact h.region me call hcall.call (by rw [hstage]; trivial) hregional
  | store start hstage =>
    have horders : call.stage.orders := by rw [hstage]; trivial
    have hlocks : call.stage.locks := by rw [hstage]; trivial
    refine h.shift (.stored start) hcall (.stay hcall rfl rfl) hlocks.ne.2
      ⟨by rintro ⟨⟩, fun _ => h.writes call hmem hlocks.ne.1 hlocks.ne.2⟩
      (fun _ => h.unshared call hmem hlocks) (fun _ _ _ _ hlock => hlock)
      (fun _ => h.lock me call m hcall hlocks) (fun _ _ _ hregion => hregion)
      (fun _ => h.region me call hcall.call horders) (fun i hi c m0 start' hc hcstage => ?_)
      (by rintro _ ⟨⟩)
    have horders' : c.stage.orders := by rw [hcstage]; trivial
    refine World.setPos_other fun hkind hlane => hi ?_
    exact (h.exclusive hcall hc horders horders' hkind hlane).symm
  | unorder start hstage hregional =>
    have horders : call.stage.orders := by rw [hstage]; trivial
    have hlocks : call.stage.locks := by rw [hstage]; trivial
    refine h.shift (.unlocked start) hcall (.stay hcall rfl rfl) hlocks.ne.2
      ⟨by rintro ⟨⟩, fun _ => h.writes call hmem hlocks.ne.1 hlocks.ne.2⟩
      (fun _ => h.unshared call hmem hlocks) (fun _ _ _ _ hlock => hlock)
      (fun _ => h.lock me call m hcall hlocks) (fun i hi k hregion => ?_) False.elim
      (fun _ _ _ _ _ _ _ => rfl) (by rintro _ ⟨⟩)
    have hk : k ≠ call.op.kind := by
      rintro rfl
      rw [h.region me call hcall.call horders hregional] at hregion
      exact hi (Option.some.inj hregion).symm
    exact (update_of_ne hk _ _).trans hregion
  | skip start hstage =>
    have hlocks : call.stage.locks := by rw [hstage]; trivial
    exact h.shift (.unlocked start) hcall (.stay hcall rfl rfl) hlocks.ne.2
      ⟨by rintro ⟨⟩, fun _ => h.writes call hmem hlocks.ne.1 hlocks.ne.2⟩
      (fun _ => h.unshared call hmem hlocks) (fun _ _ _ _ hlock => hlock)
      (fun _ => h.lock me call m hcall hlocks) (fun _ _ _ hregion => hregion) False.elim
      (fun _ _ _ _ _ _ _ => rfl) (by rintro _ ⟨⟩)
  | unlock stage hstage =>
    have hlocks : call.stage.locks := by
      rcases hstage with ⟨hstage, -⟩ | ⟨start, hstage, -⟩ <;> (rw [hstage]; trivial)
    have hnot : ¬ stage.locks ∧ ¬ stage.orders ∧ stage ≠ .ready ∧ ∀ start, stage ≠ .loaded start := by
      rcases hstage with ⟨-, rfl⟩ | ⟨start, -, rfl⟩ <;>
        exact ⟨not_false, not_false, by rintro ⟨⟩, by rintro _ ⟨⟩⟩
    exact h.shift stage hcall (shift_member rfl rfl) hlocks.ne.2
      ⟨hnot.2.2.1, fun _ => h.writes call hmem hlocks.ne.1 hlocks.ne.2⟩
      (fun hl => absurd hl hnot.1)
      (fun i hi k l hlock => Member.setLock_other hlock (by
        rw [h.lock me call m hcall hlocks]
        exact fun heq => hi (Option.some.inj heq).symm))
      (fun hl => absurd hl hnot.1) (fun _ _ _ hregion => hregion)
      (fun ho => absurd ho hnot.2.1) (fun _ _ _ _ _ _ _ => rfl)
      (fun start heq => absurd heq (hnot.2.2.2 start))
  | give start hstage =>
    exact h.shift .done hcall (.stay hcall rfl rfl) (by rw [hstage]; rintro ⟨⟩)
      ⟨by rintro ⟨⟩, fun hne => absurd rfl hne⟩ False.elim (fun _ _ _ _ hlock => hlock) False.elim
      (fun _ _ _ hregion => hregion) False.elim (fun _ _ _ _ _ _ _ => rfl) (by rintro _ ⟨⟩)

theorem has_join (h : Locks spec w) {new : Member}
    (hi : ({ w with members := w.members ++ [new] } : World).Has i c m) : w.Has i c m := by
  refine ⟨hi.call, ?_⟩
  have hm := hi.member
  rwa [getElem?_append_left (h.made c (mem_of_getElem? hi.call))] at hm

theorem Locks.join (h : Locks spec w) (hnode : node < spec.fleetCapacity)
    (hpromised : w.Promised spec (.join node)) :
    Locks spec { w with members := w.members ++ [⟨node, true, fun _ => 0, fun _ _ => none⟩] } := by
  refine ⟨fun c hc => ?_, fun i c m hi => h.live i c m (has_join h hi),
    fun p p' m m' hp hp' hlive hlive' hsame => ?_, fun hshm => ?_, fun m hm => ?_, h.writes, h.unshared,
    fun i c m hi => h.lock i c m (has_join h hi), h.region,
    fun i c m start hi => h.loaded i c m start (has_join h hi)⟩
  · rw [length_append]
    exact Nat.lt_add_right _ (h.made c hc)
  · rcases getElem?_concat hp with hold | ⟨rfl, rfl⟩
    · rcases getElem?_concat hp' with hold' | ⟨rfl, rfl⟩
      · exact h.alone p p' m m' hold hold' hlive hlive' hsame
      · exact absurd hsame (hpromised.1 m (mem_of_getElem? hold) hlive)
    · rcases getElem?_concat hp' with hold' | ⟨rfl, -⟩
      · exact absurd hsame.symm (hpromised.1 m' (mem_of_getElem? hold') hlive')
      · rfl
  · rw [hpromised.2 hshm]
    exact Nat.le_refl 1
  · rcases mem_append.mp hm with hold | hnew
    · exact h.node_lt m hold
    · rw [mem_singleton.mp hnew]
      exact hnode

theorem has_call {op : Op} {p : Nat}
    (hi : ({ w with calls := w.calls ++ [⟨p, op, .ready⟩] } : World).Has i c m) :
    w.Has i c m ∨ c = ⟨p, op, .ready⟩ := by
  have hc := hi.call
  rcases getElem?_concat hc with hold | ⟨-, hnew⟩
  · exact .inl ⟨hold, hi.member⟩
  · exact .inr hnew

theorem Locks.begin {op : Op} {p : Nat} (h : Locks spec w) (hp : w.members[p]? = some m)
    (hlive : m.live = true) :
    Locks spec { w with calls := w.calls ++ [⟨p, op, .ready⟩] } := by
  have hmem : ∀ c ∈ w.calls ++ [⟨p, op, .ready⟩], c ∈ w.calls ∨ c = ⟨p, op, .ready⟩ := fun c hc => by
    rcases mem_append.mp hc with hold | hnew
    · exact .inl hold
    · exact .inr (mem_singleton.mp hnew)
  refine ⟨fun c hc => ?_, fun i c m0 hi hdone => ?_, h.alone, h.single, h.node_lt,
    fun c hc hready hdone => ?_, fun c hc hlocks => ?_, fun i c m0 hi hlocks => ?_,
    fun i c hi horders => ?_, fun i c m0 start hi hstage => ?_⟩
  · rcases hmem c hc with hold | rfl
    · exact h.made c hold
    · exact (List.getElem?_eq_some_iff.mp hp).1
  · rcases has_call hi with hold | rfl
    · exact h.live i c m0 hold hdone
    · have hm0 := hi.member
      rw [hp] at hm0
      rw [← Option.some.inj hm0]
      exact hlive
  · rcases hmem c hc with hold | rfl
    · exact h.writes c hold hready hdone
    · exact absurd rfl hready
  · rcases hmem c hc with hold | rfl
    · exact h.unshared c hold hlocks
    · exact hlocks.elim
  · rcases has_call hi with hold | rfl
    · exact h.lock i c m0 hold hlocks
    · exact hlocks.elim
  · rcases getElem?_concat hi with hold | ⟨-, rfl⟩
    · exact h.region i c hold horders
    · exact horders.elim
  · rcases has_call hi with hold | rfl
    · exact h.loaded i c m0 start hold hstage
    · cases hstage

theorem has_leave {p : Nat} (hi : (w.leave p m).Has i c m0) :
    (w.Has i c m0 ∧ c.member ≠ p) ∨ c.stage = .done := by
  obtain ⟨hc, hm⟩ := hi
  have hmap : (w.calls.map fun call =>
      if call.member = p then { call with stage := .done } else call)[i]? = some c := hc
  rw [getElem?_map] at hmap
  obtain ⟨c0, hc0, rfl⟩ := map_eq_some_iff.mp hmap
  by_cases hmember : c0.member = p
  · rw [if_pos hmember]
    exact .inr rfl
  · rw [if_neg hmember] at hm ⊢
    refine .inl ⟨⟨hc0, ?_⟩, hmember⟩
    have hset : (w.members.set p { m with live := false })[c0.member]? = some m0 := hm
    rwa [getElem?_set_ne (Ne.symm hmember)] at hset

theorem Locks.leave {p : Nat} (h : Locks spec w) (hp : w.members[p]? = some m) :
    Locks spec (w.leave p m) := by
  have hold : ∀ {q : Nat} {m0 : Member}, (w.leave p m).members[q]? = some m0 →
      ∃ old, w.members[q]? = some old ∧ m0.node = old.node ∧ (m0.live = true → old.live = true) := by
    intro q m0 hq
    have hset : (w.members.set p { m with live := false })[q]? = some m0 := hq
    by_cases hqp : q = p
    · subst hqp
      rw [getElem?_set_self (List.getElem?_eq_some_iff.mp hp).1] at hset
      rw [← Option.some.inj hset]
      exact ⟨m, hp, rfl, fun hlive => nomatch hlive⟩
    · rw [getElem?_set_ne (Ne.symm hqp)] at hset
      exact ⟨m0, hset, rfl, id⟩
  have hlength : (w.leave p m).members.length = w.members.length := length_set
  have hmem : ∀ c ∈ (w.leave p m).calls, c.stage = .done ∧ c.member < w.members.length ∨
      c ∈ w.calls := by
    intro c hc
    obtain ⟨c0, hc0, rfl⟩ := List.mem_map.mp hc
    split
    · exact .inl ⟨rfl, h.made c0 hc0⟩
    · exact .inr hc0
  refine ⟨fun c hc => ?_, fun i c m0 hi hdone => ?_, fun q q' m0 m0' hq hq' hlive hlive' hsame => ?_,
    fun hshm => ?_, fun m0 hm0 => ?_, fun c hc hready hdone => ?_, fun c hc hlocks => ?_,
    fun i c m0 hi hlocks => ?_, fun i c hi horders hregional => ?_, fun i c m0 start hi hstage => ?_⟩
  · rw [hlength]
    rcases hmem c hc with ⟨-, hlt⟩ | hc'
    · exact hlt
    · exact h.made c hc'
  · rcases has_leave hi with ⟨hi', -⟩ | hover
    · exact h.live i c m0 hi' hdone
    · exact absurd hover hdone
  · obtain ⟨old, hq0, hn, hl⟩ := hold hq
    obtain ⟨old', hq0', hn', hl'⟩ := hold hq'
    exact h.alone q q' old old' hq0 hq0' (hl hlive) (hl' hlive') (hn.symm.trans (hsame.trans hn'))
  · rw [hlength]
    exact h.single hshm
  · obtain ⟨q, hq⟩ := getElem?_of_mem hm0
    obtain ⟨old, hq0, hn, -⟩ := hold hq
    rw [hn]
    exact h.node_lt old (mem_of_getElem? hq0)
  · rcases hmem c hc with ⟨hover, -⟩ | hc'
    · exact absurd hover hdone
    · exact h.writes c hc' hready hdone
  · rcases hmem c hc with ⟨hover, -⟩ | hc'
    · exact absurd hover hlocks.ne.2
    · exact h.unshared c hc' hlocks
  · rcases has_leave hi with ⟨hi', -⟩ | hover
    · exact h.lock i c m0 hi' hlocks
    · exact absurd hover hlocks.ne.2
  · have hmap : (w.calls.map fun call =>
        if call.member = p then { call with stage := .done } else call)[i]? = some c := hi
    rw [getElem?_map] at hmap
    obtain ⟨c0, hc0, rfl⟩ := map_eq_some_iff.mp hmap
    by_cases hmember : c0.member = p
    · rw [if_pos hmember] at horders
      exact horders.elim
    · rw [if_neg hmember] at horders hregional ⊢
      have hheld := h.region i c0 hc0 horders hregional
      have hfilter : (w.leave p m).region c0.op.kind = (w.region c0.op.kind).filter fun me =>
          w.calls[me]?.any fun call => call.member ≠ p := rfl
      rw [hfilter, hheld, filter_some, hc0, any_some, decide_eq_true hmember]
      rfl
  · rcases has_leave hi with ⟨hi', -⟩ | hover
    · exact h.loaded i c m0 start hi' hstage
    · rw [hstage] at hover
      cases hover

theorem fails_upTo (h : w.fails spec me call m = some w') : w.upTo spec call m = 0 := by
  unfold World.fails at h
  unfold World.upTo
  cases hstage : call.stage with
  | locked | written start => rfl
  | ready | ordered | loaded start | stored start | unlocked start | done =>
    simp only [hstage] at h
    cases h

theorem next_moves {action : Action} (haction : action = .step me ∨ action = .fails me)
    (hpromised : w.Promised spec action) (h : w.next spec action = some w') :
    ∃ call m, w.Has me call m ∧ Moves spec w me call m w' ∧ w.upTo spec call m ≤ counterSize := by
  rcases haction with rfl | rfl
  · obtain ⟨call, hcall, h⟩ := bind_eq_some_iff.mp h
    obtain ⟨m, hm, h⟩ := bind_eq_some_iff.mp h
    exact ⟨call, m, ⟨hcall, hm⟩, step_moves h, hpromised call hcall m hm⟩
  · obtain ⟨call, hcall, h⟩ := bind_eq_some_iff.mp h
    obtain ⟨m, hm, h⟩ := bind_eq_some_iff.mp h
    exact ⟨call, m, ⟨hcall, hm⟩, fails_moves h, by rw [fails_upTo h]; exact Nat.zero_le _⟩

theorem Locks.exec {action : Action} (h : Locks spec w) (hpromised : w.Promised spec action) :
    Locks spec (w.exec spec action) := by
  unfold World.exec
  cases hnext : w.next spec action with
  | none => exact h
  | some w' =>
    rw [getD_some]
    cases action with
    | join node =>
      obtain ⟨hnode, hsome⟩ := ite_none_right_eq_some.mp hnext
      cases hsome
      exact h.join hnode hpromised
    | leave p =>
      obtain ⟨m, hp, rfl⟩ := map_eq_some_iff.mp hnext
      exact h.leave hp
    | call p op =>
      obtain ⟨m, hp, hsome⟩ := bind_eq_some_iff.mp hnext
      obtain ⟨hlive, hsome⟩ := ite_none_right_eq_some.mp hsome
      cases hsome
      exact h.begin hp hlive
    | step me =>
      obtain ⟨call, m, hcall, hm, -⟩ := next_moves (.inl rfl) hpromised hnext
      exact h.moves hcall hm
    | fails me =>
      obtain ⟨call, m, hcall, hm, -⟩ := next_moves (.inr rfl) hpromised hnext
      exact h.moves hcall hm

/-- A call has claimed the position, and has yet to return. -/
def World.Held (spec : FleetSpec) (w : World) (i : Nat) (k : Kind) (l q : Nat) : Prop :=
  ∃ c m start, w.Has i c m ∧ c.stage.claimed = some start ∧ c.op.kind = k ∧
    spec.lane k m.node = l ∧ start ≤ q ∧ q < start + c.op.positions (spec.ring k)

def World.Taken (spec : FleetSpec) (w : World) (k : Kind) (l q : Nat) : Prop :=
  ∃ node, ⟨true, k, node, q⟩ ∈ w.minted ∧ spec.lane k node = l

structure Placed (spec : FleetSpec) (w : World) : Prop where
  pos_le : ∀ k l, w.writePos k l ≤ counterSize
  held_lt : ∀ i k l q, w.Held spec i k l q → q < w.writePos k l
  taken_lt : ∀ k l q, w.Taken spec k l q → q < w.writePos k l
  apart : ∀ i k l q, w.Held spec i k l q → ¬ w.Taken spec k l q
  alone : ∀ i j k l q, w.Held spec i k l q → w.Held spec j k l q → i = j

theorem Shift.held (hs : Shift w w' me call m m' stage) (hcall : w.Has me call m)
    (h : w'.Held spec i k l q) :
    (i = me ∧ call.op.kind = k ∧ spec.lane k m.node = l ∧ ∃ start, stage.claimed = some start ∧
      start ≤ q ∧ q < start + call.op.positions (spec.ring k)) ∨ i ≠ me ∧ w.Held spec i k l q := by
  obtain ⟨c, m0, start, hi, hclaimed, hk, hl, hq⟩ := h
  rcases hs.has hcall hi with ⟨rfl, rfl, rfl⟩ | ⟨hne, ⟨hold, -⟩ | ⟨hold, -, rfl⟩⟩
  · rw [hs.node] at hl
    exact .inl ⟨rfl, hk, hl, start, hclaimed, hq⟩
  · exact .inr ⟨hne, c, m0, start, hold, hclaimed, hk, hl, hq⟩
  · rw [hs.node] at hl
    exact .inr ⟨hne, c, m, start, hold, hclaimed, hk, hl, hq⟩

theorem Placed.frame (h : Placed spec w) (hpos : w'.writePos = w.writePos)
    (hheld : ∀ i k l q, w'.Held spec i k l q → w.Held spec i k l q)
    (htaken : ∀ k l q, w'.Taken spec k l q → w.Taken spec k l q) : Placed spec w' where
  pos_le := by rw [hpos]; exact h.pos_le
  held_lt i k l q hq := by rw [hpos]; exact h.held_lt i k l q (hheld i k l q hq)
  taken_lt k l q hq := by rw [hpos]; exact h.taken_lt k l q (htaken k l q hq)
  apart i k l q hq hq' := h.apart i k l q (hheld i k l q hq) (htaken k l q hq')
  alone i j k l q hq hq' := h.alone i j k l q (hheld i k l q hq) (hheld j k l q hq')

theorem Placed.stay (h : Placed spec w) (hcall : w.Has me call m)
    (hs : Shift w w' me call m m' stage) (hpos : w'.writePos = w.writePos)
    (hstage : ∀ start, stage.claimed = some start → call.stage.claimed = some start)
    (hminted : ∀ k node q, ⟨true, k, node, q⟩ ∈ w'.minted → ⟨true, k, node, q⟩ ∈ w.minted) :
    Placed spec w' := by
  refine h.frame hpos (fun i k l q hq => ?_) fun k l q ⟨node, hmem, hl⟩ =>
    ⟨node, hminted k node q hmem, hl⟩
  rcases hs.held hcall hq with ⟨rfl, hk, hl, start, hclaimed, hlow, hhigh⟩ | ⟨-, hold⟩
  · exact ⟨call, m, start, hcall, hstage start hclaimed, hk, hl, hlow, hhigh⟩
  · exact hold

theorem Placed.claim (h : Placed spec w) (hcall : w.Has me call m)
    (hs : Shift w w' me call m m stage)
    (hpos : w'.writePos = (w.setPos call.op.kind (spec.lane call.op.kind m.node)
      (start + call.op.positions (spec.ring call.op.kind))).writePos)
    (hminted : w'.minted = w.minted)
    (hstart : start = w.writePos call.op.kind (spec.lane call.op.kind m.node))
    (hstage : stage.claimed = some start)
    (hsize : start + call.op.positions (spec.ring call.op.kind) ≤ counterSize) : Placed spec w' := by
  have htaken : ∀ k l q, w'.Taken spec k l q → w.Taken spec k l q := by
    rintro k l q ⟨node, hmem, hl⟩
    rw [hminted] at hmem
    exact ⟨node, hmem, hl⟩
  have hgrow : ∀ k l, w.writePos k l ≤ w'.writePos k l ∧ w'.writePos k l ≤ counterSize := by
    intro k l
    rw [hpos]
    by_cases hkl : call.op.kind = k ∧ spec.lane call.op.kind m.node = l
    · obtain ⟨rfl, rfl⟩ := hkl
      rw [World.setPos_self]
      exact ⟨by omega, hsize⟩
    · rw [World.setPos_other fun hk hl => hkl ⟨hk, hl⟩]
      exact ⟨Nat.le_refl _, h.pos_le k l⟩
  have hnew : ∀ {k l q}, call.op.kind = k → spec.lane k m.node = l → (∃ start, stage.claimed =
      some start ∧ start ≤ q ∧ q < start + call.op.positions (spec.ring k)) →
      w.writePos k l ≤ q ∧ q < w'.writePos k l := by
    rintro k l q rfl rfl ⟨start', hclaimed, hlow, hhigh⟩
    rw [hstage] at hclaimed
    cases hclaimed
    rw [hpos, World.setPos_self]
    exact ⟨by omega, hhigh⟩
  refine ⟨fun k l => (hgrow k l).2, fun i k l q hq => ?_, fun k l q hq => ?_,
    fun i k l q hq hq' => ?_, fun i j k l q hq hq' => ?_⟩
  · rcases hs.held hcall hq with ⟨-, hk, hl, hclaimed⟩ | ⟨-, hold⟩
    · exact (hnew hk hl hclaimed).2
    · exact Nat.lt_of_lt_of_le (h.held_lt i k l q hold) (hgrow k l).1
  · exact Nat.lt_of_lt_of_le (h.taken_lt k l q (htaken k l q hq)) (hgrow k l).1
  · rcases hs.held hcall hq with ⟨-, hk, hl, hclaimed⟩ | ⟨-, hold⟩
    · exact Nat.not_lt.mpr (hnew hk hl hclaimed).1 (h.taken_lt k l q (htaken k l q hq'))
    · exact h.apart i k l q hold (htaken k l q hq')
  · rcases hs.held hcall hq with ⟨rfl, hk, hl, hclaimed⟩ | ⟨-, hold⟩ <;>
      rcases hs.held hcall hq' with ⟨rfl, hk', hl', hclaimed'⟩ | ⟨-, hold'⟩
    · rfl
    · exact absurd (h.held_lt j k l q hold') (Nat.not_lt.mpr (hnew hk hl hclaimed).1)
    · exact absurd (h.held_lt i k l q hold) (Nat.not_lt.mpr (hnew hk' hl' hclaimed').1)
    · exact h.alone i j k l q hold hold'

theorem mem_framesFrom {count : Nat} {e : Minted} : e ∈ framesFrom kind node start count ↔
    ∃ q, start ≤ q ∧ q < start + count ∧ e = ⟨true, kind, node, q⟩ := by
  unfold framesFrom
  rw [List.mem_map]
  constructor
  · rintro ⟨q, hq, rfl⟩
    rw [mem_range'_1] at hq
    exact ⟨q, hq.1, hq.2, rfl⟩
  · rintro ⟨q, hlow, hhigh, rfl⟩
    exact ⟨q, mem_range'_1.mpr ⟨hlow, hhigh⟩, rfl⟩

theorem Placed.give (h : Placed spec w) (hcall : w.Has me call m)
    (hs : Shift w w' me call m m .done) (hpos : w'.writePos = w.writePos)
    (hstage : call.stage.claimed = some start)
    (hminted : w'.minted = w.minted ++
      framesFrom call.op.kind m.node start (call.op.positions (spec.ring call.op.kind))) :
    Placed spec w' := by
  have htaken : ∀ k l q, w'.Taken spec k l q → w.Taken spec k l q ∨ w.Held spec me k l q := by
    rintro k l q ⟨node, hmem, hl⟩
    rw [hminted] at hmem
    rcases mem_append.mp hmem with hold | hnew
    · exact .inl ⟨node, hold, hl⟩
    · obtain ⟨q', hlow, hhigh, heq⟩ := mem_framesFrom.mp hnew
      cases heq
      exact .inr ⟨call, m, start, hcall, hstage, rfl, hl, hlow, hhigh⟩
  have hheld : ∀ i k l q, w'.Held spec i k l q → i ≠ me ∧ w.Held spec i k l q := by
    intro i k l q hq
    rcases hs.held hcall hq with ⟨-, -, -, start', hclaimed, -⟩ | hold
    · cases hclaimed
    · exact hold
  refine ⟨by rw [hpos]; exact h.pos_le, fun i k l q hq => ?_, fun k l q hq => ?_,
    fun i k l q hq hq' => ?_, fun i j k l q hq hq' => ?_⟩
  · rw [hpos]
    exact h.held_lt i k l q (hheld i k l q hq).2
  · rw [hpos]
    rcases htaken k l q hq with hold | hmine
    · exact h.taken_lt k l q hold
    · exact h.held_lt me k l q hmine
  · obtain ⟨hne, hold⟩ := hheld i k l q hq
    rcases htaken k l q hq' with hold' | hmine
    · exact h.apart i k l q hold hold'
    · exact hne (h.alone i me k l q hold hmine)
  · exact h.alone i j k l q (hheld i k l q hq).2 (hheld j k l q hq').2

theorem counterSize_lt : counterSize < wordSize := by decide

theorem Placed.moves (h : Placed spec w) (hlocks : Locks spec w) (hcall : w.Has me call m)
    (hsize : w.upTo spec call m ≤ counterSize) (hm : Moves spec w me call m w') :
    Placed spec w' := by
  have hnever : ∀ {old : Option Nat} (start : Nat), none = some start → old = some start :=
    fun _ heq => nomatch heq
  cases hm with
  | draw hstage hop =>
    refine h.stay hcall shift_draw rfl hnever fun k node q hmem => ?_
    rcases mem_append.mp hmem with hold | hnew
    · exact hold
    · cases mem_singleton.mp hnew
  | ended hstage => exact h.stay hcall (.stay hcall rfl rfl) rfl hnever fun _ _ _ hmem => hmem
  | claim hstage hop hcount hshared =>
    have hupTo : w.writePos call.op.kind (spec.lane call.op.kind m.node) +
        call.op.positions (spec.ring call.op.kind) ≤ counterSize := by
      simpa only [World.upTo, hstage, hop, hshared, Bool.false_eq_true, if_false, if_true] using hsize
    refine h.claim hcall (.stay hcall rfl rfl) ?_ rfl rfl rfl hupTo
    rw [Nat.mod_eq_of_lt (Nat.lt_of_le_of_lt hupTo counterSize_lt)]
    rfl
  | lock hstage hcount hshared hfree =>
    exact h.stay hcall (shift_member rfl rfl) rfl hnever fun _ _ _ hmem => hmem
  | order hstage hfree => exact h.stay hcall (.stay hcall rfl rfl) rfl hnever fun _ _ _ hmem => hmem
  | load hstage => exact h.stay hcall (.stay hcall rfl rfl) rfl hnever fun _ _ _ hmem => hmem
  | store start hstage =>
    have hupTo : start + call.op.positions (spec.ring call.op.kind) ≤ counterSize := by
      simpa only [World.upTo, hstage] using hsize
    refine h.claim hcall (.stay hcall rfl rfl) ?_ rfl (hlocks.loaded me call m start hcall hstage) rfl
      hupTo
    rw [Nat.mod_eq_of_lt (Nat.lt_of_le_of_lt hupTo counterSize_lt)]
    rfl
  | unorder start hstage hregional =>
    exact h.stay hcall (.stay hcall rfl rfl) rfl (by rw [hstage]; exact fun _ => id)
      fun _ _ _ hmem => hmem
  | skip start hstage =>
    exact h.stay hcall (.stay hcall rfl rfl) rfl (by rw [hstage]; exact fun _ => id)
      fun _ _ _ hmem => hmem
  | unlock stage hstage =>
    refine h.stay hcall (shift_member rfl rfl) rfl ?_ fun _ _ _ hmem => hmem
    rcases hstage with ⟨-, rfl⟩ | ⟨start, hstage, rfl⟩
    · exact hnever
    · rw [hstage]
      exact fun _ => id
  | give start hstage =>
    exact h.give hcall (.stay hcall rfl rfl) rfl (by rw [hstage]; rfl) rfl

theorem Placed.exec {action : Action} (h : Placed spec w) (hlocks : Locks spec w)
    (hpromised : w.Promised spec action) : Placed spec (w.exec spec action) := by
  unfold World.exec
  cases hnext : w.next spec action with
  | none => exact h
  | some w' =>
    rw [getD_some]
    cases action with
    | join node =>
      obtain ⟨hnode, hsome⟩ := ite_none_right_eq_some.mp hnext
      cases hsome
      refine h.frame rfl (fun i k l q hq => ?_) fun _ _ _ hq => hq
      obtain ⟨c, m, start, hi, hrest⟩ := hq
      exact ⟨c, m, start, has_join hlocks hi, hrest⟩
    | leave p =>
      obtain ⟨m, hp, rfl⟩ := map_eq_some_iff.mp hnext
      refine h.frame rfl (fun i k l q hq => ?_) fun _ _ _ hq => hq
      obtain ⟨c, m0, start, hi, hclaimed, hrest⟩ := hq
      rcases has_leave hi with ⟨hi', -⟩ | hover
      · exact ⟨c, m0, start, hi', hclaimed, hrest⟩
      · rw [hover] at hclaimed
        cases hclaimed
    | call p op =>
      obtain ⟨m, hp, hsome⟩ := bind_eq_some_iff.mp hnext
      obtain ⟨hlive, hsome⟩ := ite_none_right_eq_some.mp hsome
      cases hsome
      refine h.frame rfl (fun i k l q hq => ?_) fun _ _ _ hq => hq
      obtain ⟨c, m0, start, hi, hclaimed, hrest⟩ := hq
      rcases has_call hi with hi' | rfl
      · exact ⟨c, m0, start, hi', hclaimed, hrest⟩
      · cases hclaimed
    | step me =>
      obtain ⟨call, m, hcall, hm, hsize⟩ := next_moves (.inl rfl) hpromised hnext
      exact h.moves hlocks hcall hsize hm
    | fails me =>
      obtain ⟨call, m, hcall, hm, hsize⟩ := next_moves (.inr rfl) hpromised hnext
      exact h.moves hlocks hcall hsize hm

end OrbitIds
