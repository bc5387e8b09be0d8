import Orbit.Pool.Leases

/-! Which words each operation may change, by part of the table. -/

namespace OrbitPool

open Orbit.Atomic

inductive Part where
  | keys
  | counts
  | available
  | admitted
  | members
  | claims
  | admissions
  /-- The state of a slot and what its registration fixed. -/
  | slot (index : Nat)
  /-- The units of a slot, its fence and its pending reservations. -/
  | lease (index : Nat)
  | locks
  deriving DecidableEq

def Addr.part : Addr → Part
  | keyState _ | keyLo _ | keyHi _ => .keys
  | counts _ => .counts
  | available _ => .available
  | admitted _ => .admitted
  | members _ _ => .members
  | claims _ _ => .claims
  | admissions _ _ => .admissions
  | state slot | ownerNode slot | generation slot | ownerIncarnation slot | slotKeyLo slot
  | slotKeyHi slot | capacity slot | keyIndex slot => .slot slot
  | units slot | fence slot | lastReserveMs slot | pending slot _ | sinceMs slot _ => .lease slot
  | structural _ | hint _ | region => .locks

def Addr.slot? (a : Addr) : Option Nat :=
  match a.part with
  | .slot index | .lease index => some index
  | _ => none

theorem Addr.part_of_slot? {a : Addr} {slot : Nat} (h : a.slot? = some slot) :
    a.part = .slot slot ∨ a.part = .lease slot := by
  unfold Addr.slot? at h
  split at h <;> simp_all

theorem Addr.part_ne_of_slot? {a : Addr} {slot : Nat} {part : Part} (h : a.slot? = some slot)
    (hslot : ∀ i, part ≠ .slot i) (hlease : ∀ i, part ≠ .lease i) : a.part ≠ part := by
  rintro rfl
  rcases a.part_of_slot? h with hp | hp
  · exact hslot slot hp
  · exact hlease slot hp

section

variable {g : Geometry} {P : Addr → Prop}

theorem within_isGeneration (slot generation : Nat) :
    (isGeneration slot generation).Within P := by
  unfold isGeneration
  refine .bind (within_load _) fun state => ?_
  split
  · exact .bind (within_load _) fun _ => .ret _
  · exact .ret _

theorem within_owned (p : Pool g) (id : ResourceId) : (p.owned id).Within P := by
  unfold Pool.owned
  split
  · exact .ret _
  · refine .bind (within_isGeneration _ _) fun is => ?_
    split
    · refine .bind (within_load _) fun ownerNode => ?_
      split
      · exact .ret _
      · refine .bind (within_load _) fun ownerIncarnation => ?_
        split <;> exact .ret _
    · exact .ret _

theorem owned_results (p : Pool g) (id : ResourceId) :
    (p.owned id).Results fun r => ∀ index, r = .ok index → p.locate id = .ok index := by
  unfold Pool.owned
  cases hlocate : p.locate id with
  | error e => exact fun index h => by cases h
  | ok index =>
    refine .bind (.any _) fun is _ => ?_
    split
    · refine .bind (.any _) fun ownerNode _ => ?_
      split
      · exact fun _ h => by cases h
      · refine .bind (.any _) fun ownerIncarnation _ => ?_
        split
        · exact fun _ h => by cases h
        · exact fun _ h => by cases h; rfl
    · exact fun _ h => by cases h

theorem within_of_owned {α : Type} (p : Pool g) (id : ResourceId)
    (body : Nat → PoolM (Except Error α))
    (hbody : ∀ index, p.locate id = .ok index → (body index).Within P) :
    Prog.Within P (do
      match ← p.owned id with
      | .error e => return .error e
      | .ok index => body index) := by
  refine .bind_results (within_owned p id) (owned_results p id) fun found hfound => ?_
  cases found with
  | error e => exact .ret _
  | ok index => exact hbody index (hfound index rfl)

theorem within_takeAvailable (keyIndex : Nat) (h : ∀ a, a.part = .available → P a) :
    (takeAvailable g keyIndex).Within P := by
  unfold takeAvailable
  split
  · exact within_tryUpdate (h _ rfl) _
  · exact .ret _

theorem within_addAvailable (keyIndex units : Nat) (h : ∀ a, a.part = .available → P a) :
    (addAvailable g keyIndex units).Within P := by
  unfold addAvailable
  split
  · exact .bind (within_fetchAdd (h _ rfl) _ _) fun _ => .ret _
  · exact .ret _

theorem within_removeAvailable (keyIndex units : Nat) (h : ∀ a, a.part = .available → P a) :
    (removeAvailable g keyIndex units).Within P := by
  unfold removeAvailable
  split
  · exact .bind (within_tryUpdate (h _ rfl) _) fun _ => .ret _
  · exact .ret _

theorem within_retainUnit (keyIndex : Nat) (maxIdle : Option Nat) (h : ∀ a, a.part = .available → P a) :
    (retainUnit g keyIndex maxIdle).Within P := by
  cases maxIdle with
  | some limit =>
    show (retainAvailableBelow g keyIndex limit).Within P
    unfold retainAvailableBelow
    split
    · exact within_tryUpdate (h _ rfl) _
    · exact .ret _
  | none => exact .bind (within_addAvailable keyIndex 1 h) fun _ => .ret _

theorem within_placePending (index fence now : Nat) (entries : List Nat)
    (h : ∀ a, a.part = .lease index → P a) : (placePending index fence now entries).Within P := by
  induction entries with
  | nil => exact .ret _
  | cons entry rest ih =>
    refine .bind (within_compareExchange (h _ rfl) _ _) fun free => ?_
    split
    · exact .bind (within_store (h _ rfl) _) fun _ => .bind (within_store (h _ rfl) _) fun _ => .ret _
    · exact ih

theorem within_takePending (index fence : Nat) (entries : List Nat) (h : ∀ a, a.part = .lease index → P a) :
    (takePending index fence entries).Within P := by
  induction entries with
  | nil => exact .ret _
  | cons entry rest ih =>
    refine .bind (within_compareExchange (h _ rfl) _ _) fun found => ?_
    split
    · exact .ret _
    · exact ih

theorem within_ageOut (index now grace : Nat) (entries : List Nat) (h : ∀ a, a.part = .lease index → P a) :
    (ageOut index now grace entries).Within P := by
  induction entries with
  | nil => exact .ret _
  | cons entry rest ih =>
    refine .bind (within_load _) fun fence => ?_
    split
    · exact ih
    · refine .bind (within_load _) fun since => ?_
      split
      · refine .bind (within_compareExchange (h _ rfl) _ _) fun aged => ?_
        exact .bind ih fun _ => .ret _
      · exact ih

theorem within_returnReserved (index : Nat) (h : ∀ a, a.part = .lease index → P a) :
    (returnReserved index).Within P :=
  .bind (within_tryUpdate (h _ rfl) _) fun _ => .ret _

theorem within_reserve (p : Pool g) (id : ResourceId) (now : Nat) (h : ∀ a, a.part = .available → P a)
    (hslot : ∀ index, p.locate id = .ok index → ∀ a, a.part = .lease index → P a) :
    (p.reserve id now).Within P := by
  unfold Pool.reserve
  split
  · exact .ret _
  rename_i index hindex
  have hs := hslot index hindex
  have hbusy : ∀ keyIndex, (do
      addAvailable g keyIndex 1
      return (Except.error (Error.busy id) : Except Error Lease)).Within P := fun keyIndex =>
    .bind (within_addAvailable _ _ h) fun _ => .ret _
  refine .bind (within_load _) fun state => ?_
  split
  · exact .ret _
  split
  · exact .ret _
  refine .bind (within_load _) fun keyIndex => ?_
  refine .bind (within_takeAvailable _ h) fun taken => ?_
  split
  · exact .ret _
  refine .bind (within_load _) fun capacity => ?_
  refine .bind (within_tryUpdate (hs _ rfl) _) fun counted => ?_
  split
  · exact hbusy _
  refine .bind (within_isGeneration _ _) fun is => ?_
  split
  · exact .bind (within_returnReserved _ hs) fun _ =>
      .bind (within_addAvailable _ _ h) fun _ => .ret _
  refine .bind (within_fetchAdd (hs _ rfl) _ _) fun before => ?_
  refine .bind (within_placePending _ _ _ _ hs) fun placed => ?_
  split
  · exact .bind (within_returnReserved _ hs) fun _ => hbusy _
  · exact .bind (within_store (hs _ rfl) _) fun _ => .bind (within_mark _) fun _ => .ret _

theorem within_cancelReservation (p : Pool g) (lease : Lease) (h : ∀ a, a.part = .available → P a)
    (hslot : ∀ index, p.locate lease.id = .ok index → ∀ a, a.part = .lease index → P a) :
    (p.cancelReservation lease).Within P := by
  unfold Pool.cancelReservation
  split
  · exact .ret _
  split
  · exact .ret _
  rename_i index hindex
  have hs := hslot index hindex
  refine .bind (within_takePending _ _ _ hs) fun taken => ?_
  split
  · exact .ret _
  refine .bind (within_returnReserved _ hs) fun _ => ?_
  refine .bind (within_mark _) fun _ => .bind (within_load _) fun keyIndex => ?_
  exact .bind (within_addAvailable _ _ h) fun _ => .ret _

theorem within_accept (p : Pool g) (lease : Lease)
    (hslot : ∀ index, p.locate lease.id = .ok index → ∀ a, a.part = .lease index → P a) :
    (p.accept lease).Within P := by
  refine within_of_owned p lease.id _ fun index hindex => ?_
  have hs := hslot index hindex
  refine .bind (within_load _) fun state => ?_
  split
  · exact .ret _
  refine .bind (within_takePending _ _ _ hs) fun taken => ?_
  split
  · exact .ret _
  · exact .bind (within_tryUpdate (hs _ rfl) _) fun _ => .bind (within_mark _) fun _ => .ret _

theorem within_drain (p : Pool g) (id : ResourceId)
    (hslot : ∀ index, p.locate id = .ok index → ∀ a, a.part = .slot index → P a) :
    (p.drain id).Within P := by
  refine within_of_owned p id _ fun index hindex => ?_
  have hs := hslot index hindex
  exact .bind (within_compareExchange (hs _ rfl) _ _) fun _ => .ret _

theorem within_reconcile (p : Pool g) (id : ResourceId) (active grace now : Nat)
    (h : ∀ a, a.part = .available → P a)
    (hslot : ∀ index, p.locate id = .ok index → ∀ a, a.part = .lease index → P a) :
    (p.reconcile id active grace now).Within P := by
  refine within_of_owned p id _ fun index hindex => ?_
  have hs := hslot index hindex
  refine .bind (within_ageOut _ _ _ _ hs) fun aged => ?_
  refine .bind (within_load _) fun capacity => ?_
  refine .bind (within_access (hs _ rfl) fun _ => .ret _) fun units => ?_
  refine .bind (within_load _) fun keyIndex => ?_
  split
  · exact .bind (within_addAvailable _ _ h) fun _ => .ret _
  · split
    · exact .bind (within_removeAvailable _ _ h) fun _ => .ret _
    · exact .ret _

theorem within_finish (execution : Execution) (maxIdle : Option Nat)
    (h : ∀ a, a.part = .available → P a)
    (hslot : ∀ a, a.part =
      .lease (execution.lease.id.node * g.laneCapacity + execution.lease.id.slot) → P a) :
    (execution.finish g maxIdle).Within P := by
  refine .bind (within_load _) fun state => .bind (within_load _) fun generation => ?_
  split
  · exact .ret _
  refine .bind (within_load _) fun keyIndex => ?_
  have hreturn : ∀ retained : Bool, Prog.Within P (do
      if retained ∨ state = resourceDraining then
        let _ ← tryUpdate (.units (execution.lease.id.node * g.laneCapacity +
          execution.lease.id.slot)) fun units =>
            some (packCounts (unpackCounts units).1 ((unpackCounts units).2 - 1))
      return retained : PoolM Bool) := by
    intro retained
    show Prog.Within P (ite _ _ _)
    split
    · exact .bind (within_tryUpdate (hslot _ rfl) _) fun _ => .ret _
    · exact .ret _
  split
  · exact .bind (within_retainUnit _ _ h) fun retained => hreturn retained
  · exact hreturn false

theorem within_closeResource (index : Nat) (hslot : ∀ a, a.part = .slot index → P a)
    (h : ∀ a, a.part = .available ∨ a.part = .members ∨ a.part = .counts → P a) :
    (closeResource g index).Within P := by
  have hcounts : ∀ keyIndex, Prog.Within P (do
      let _ ← tryUpdate (.counts keyIndex) fun counts =>
        some (packCounts ((unpackCounts counts).1 - 1) (unpackCounts counts).2)
      return () : PoolM Unit) := fun keyIndex =>
    .bind (within_tryUpdate (h _ (.inr (.inr rfl))) _) fun _ => .ret _
  refine .bind (within_tryUpdate (hslot _ rfl) _) fun closed => ?_
  show Prog.Within P (ite _ _ _)
  split
  · refine .bind (within_load _) fun keyIndex => ?_
    refine .bind (within_fetchClear (h _ (.inr (.inl rfl))) _) fun _ => ?_
    show Prog.Within P (ite _ _ _)
    split
    · refine .bind (within_load _) fun units => .bind (within_load _) fun capacity => ?_
      refine .bind (within_removeAvailable _ _ fun a ha => h a (.inl ha)) fun _ => ?_
      exact hcounts keyIndex
    · exact hcounts keyIndex
  · exact .ret _

theorem within_unregister (p : Pool g) (id : ResourceId)
    (hslot : ∀ index, p.locate id = .ok index → ∀ a, a.part = .slot index → P a)
    (h : ∀ a, a.part = .available ∨ a.part = .members ∨ a.part = .counts → P a) :
    (p.unregister id).Within P := by
  refine within_of_owned p id _ fun index hindex => ?_
  have hs := hslot index hindex
  exact .bind (within_closeResource index hs h) fun _ => .ret _

theorem within_closeIfOwned (node incarnation index : Nat) (hslot : ∀ a, a.part = .slot index → P a)
    (h : ∀ a, a.part = .available ∨ a.part = .members ∨ a.part = .counts → P a) :
    (closeIfOwned g node incarnation index).Within P := by
  refine .bind (within_load _) fun state => ?_
  split
  · refine .bind (within_load _) fun ownerNode => ?_
    split
    · refine .bind (within_load _) fun ownerIncarnation => ?_
      split
      · exact within_closeResource index hslot h
      · exact .ret _
    · exact .ret _
  · exact .ret _

theorem within_closeOwned (node incarnation : Nat) (indices : List Nat)
    (hslot : ∀ a index, a.part = .slot index → P a)
    (h : ∀ a, a.part = .available ∨ a.part = .members ∨ a.part = .counts → P a) :
    (closeOwned g node incarnation indices).Within P := by
  induction indices with
  | nil => exact .ret _
  | cons index rest ih =>
    exact .bind (within_closeIfOwned node incarnation index (fun a => hslot a index) h) fun _ => ih

theorem within_returnCreations (node keyIndex : Nat)
    (h : ∀ a, a = .counts keyIndex ∨ a = .claims node keyIndex → P a) :
    (returnCreations node keyIndex).Within P := by
  refine .bind (within_swap (h _ (.inr rfl)) _) fun held => ?_
  split
  · exact .bind (within_tryUpdate (h _ (.inl rfl)) _) fun _ => .ret _
  · exact .ret _

theorem within_returnAdmissions (node keyIndex : Nat)
    (h : ∀ a, a = .admitted keyIndex ∨ a = .admissions node keyIndex → P a) :
    (returnAdmissions g node keyIndex).Within P := by
  unfold returnAdmissions
  split
  · refine .bind (within_swap (h _ (.inr rfl)) _) fun held => ?_
    split
    · exact .bind (within_tryUpdate (h _ (.inl rfl)) _) fun _ => .ret _
    · exact .ret _
  · exact .ret _

theorem within_returnClaims (node : Nat) (keys : List Nat)
    (h : ∀ a, a.part = .counts ∨ a.part = .claims ∨ a.part = .admitted ∨ a.part = .admissions →
      P a) :
    (returnClaims g node keys).Within P := by
  induction keys with
  | nil => exact .ret _
  | cons keyIndex rest ih =>
    refine .bind (within_returnCreations node keyIndex ?_) fun _ => ?_
    · rintro a (rfl | rfl) <;> exact h _ (by simp [Addr.part])
    · refine .bind (within_returnAdmissions node keyIndex ?_) fun _ => ih
      rintro a (rfl | rfl) <;> exact h _ (by simp [Addr.part])

theorem within_nodeDead (node incarnation : Nat) (hslot : ∀ a index, a.part = .slot index → P a)
    (h : ∀ a, a.part = .available ∨ a.part = .members ∨ a.part = .counts → P a)
    (hclaims : ∀ a, a.part = .counts ∨ a.part = .claims ∨ a.part = .admitted ∨
      a.part = .admissions → P a) :
    (nodeDead g node incarnation).Within P :=
  .bind (within_closeOwned node incarnation _ hslot h) fun _ => within_returnClaims node _ hclaims

theorem within_clearPending (slot : Nat) (entries : List Nat) (h : ∀ a, a.part = .lease slot → P a) :
    (clearPending slot entries).Within P := by
  induction entries with
  | nil => exact .ret _
  | cons entry rest ih =>
    exact .bind (within_store (h _ rfl) _) fun _ => .bind (within_store (h _ rfl) _) fun _ => ih

theorem within_install (slot owner incarnation : Nat) (key : Key) (keyIndex capacity now : Nat)
    (h : ∀ a, a.slot? = some slot → P a) :
    (install slot owner incarnation key keyIndex capacity now).Within P := by
  have hlease : ∀ a, a.part = .lease slot → P a := fun a ha => h a (by simp [Addr.slot?, ha])
  refine .bind (within_load _) fun generation => ?_
  split
  · exact .bind (within_store (h _ rfl) _) fun _ => .ret _
  refine .bind (within_mark _) fun _ => ?_
  refine .bind (within_store (h _ rfl) _) fun _ => .bind (within_store (h _ rfl) _) fun _ => ?_
  refine .bind (within_store (h _ rfl) _) fun _ => .bind (within_store (h _ rfl) _) fun _ => ?_
  refine .bind (within_store (h _ rfl) _) fun _ => .bind (within_store (h _ rfl) _) fun _ => ?_
  refine .bind (within_store (h _ rfl) _) fun _ => .bind (within_store (h _ rfl) _) fun _ => ?_
  refine .bind (within_store (h _ rfl) _) fun _ => .bind (within_clearPending _ _ hlease) fun _ => ?_
  exact .bind (within_store (h _ rfl) _) fun _ => .bind (within_store (h _ rfl) _) fun _ => .ret _

theorem within_allocate (p : Pool g) (key : Key) (keyIndex capacity now : Nat)
    (hslot : ∀ a index, a.slot? = some index → P a) (hlock : ∀ a, a.part = .locks → P a) :
    (p.allocate key keyIndex capacity now).Within P := by
  have hfrom : ∀ hint offsets,
      (allocateFrom p key keyIndex capacity now hint offsets).Within P := by
    intro hint offsets
    induction offsets with
    | nil => exact .ret _
    | cons offset rest ih =>
      refine .bind (within_load _) fun state => ?_
      split
      · refine .bind (within_install _ _ _ _ _ _ _ fun a => hslot a _) fun generation => ?_
        cases generation with
        | none => exact ih
        | some generation => exact .bind (within_store (hlock _ rfl) _) fun _ => .ret _
      · exact ih
  refine .bind (within_acquire (hlock _ rfl)) fun _ => .bind (within_load _) fun hint => ?_
  exact .bind (hfrom hint _) fun _ => .bind (within_release (hlock _ rfl)) fun _ => .ret _

theorem within_publish (p : Pool g) (keyIndex capacity : Nat) (active : Bool)
    (index generation : Nat) (hslot : ∀ a, a.part = .lease index → P a)
    (h : ∀ a, a.part = .available ∨ a.part = .members ∨ a.part = .counts → P a) :
    (p.publish keyIndex capacity active index generation).Within P := by
  have hrest : ∀ (units : Nat) (next : PoolM (ResourceId × Option Execution)), next.Within P →
      Prog.Within P (do
        let _ ← fetchOr (.members keyIndex (index / 64)) (2 ^ (index % 64))
        addAvailable g keyIndex units
        let _ ← tryUpdate (.counts keyIndex) fun counts =>
          some (packCounts ((unpackCounts counts).1 + 1) (unpackCounts counts).2)
        next) := by
    intro units next hnext
    refine .bind (within_fetchOr (h _ (.inr (.inl rfl))) _) fun _ => ?_
    refine .bind (within_addAvailable _ _ fun a ha => h a (.inl ha)) fun _ => ?_
    exact .bind (within_tryUpdate (h _ (.inr (.inr rfl))) _) fun _ => hnext
  cases active with
  | false => exact hrest _ _ (.ret _)
  | true =>
    exact .bind (within_store (hslot _ rfl) _) fun _ =>
      hrest _ _ (.bind (within_mark _) fun _ => .ret _)

end

end OrbitPool
