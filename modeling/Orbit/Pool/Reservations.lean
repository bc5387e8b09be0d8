import Orbit.Pool.Slots

/-! What whole operations do to the reservations of a slot: its units, its fence and its pending
entries. -/

namespace OrbitPool

open Orbit.Atomic Function
open List hiding Mem

variable {g : Geometry} {mem : Mem Addr}

def reserved (mem : Mem Addr) (slot : Nat) : Nat := (unpackCounts (mem (.units slot))).1
def active (mem : Mem Addr) (slot : Nat) : Nat := (unpackCounts (mem (.units slot))).2

theorem reserved_lt (mem : Mem Addr) (slot : Nat) : reserved mem slot < 2 ^ 32 :=
  (unpackCounts_lt _).1

theorem active_lt (mem : Mem Addr) (slot : Nat) : active mem slot < 2 ^ 32 := (unpackCounts_lt _).2

theorem run_placePending (slot fence now : Nat) (entries : List Nat) (mem : Mem Addr) :
    let r := (placePending slot fence now entries).run mem
    (r = (false, mem) ∧ ∀ entry ∈ entries, mem (.pending slot entry) ≠ 0) ∨
    ∃ entry ∈ entries, mem (.pending slot entry) = 0 ∧ r = (true,
      update (update mem (.sinceMs slot entry) now) (.pending slot entry)
        fence) := by
  induction entries with
  | nil => exact .inl ⟨rfl, by simp⟩
  | cons entry rest ih =>
    simp only [placePending, Prog.run_bind, run_compareExchange]
    by_cases hfree : mem (.pending slot entry) = 0
    · right
      refine ⟨entry, by simp, hfree, ?_⟩
      simp only [hfree, if_true, beq_self_eq_true, Mem.put_some, Prog.run_bind, run_store,
        Prog.run_pure]
      congr 1
      rw [update_comm (by simp), update_idem,
        update_comm (by simp)]
    · simp only [hfree, if_false, beq_iff_eq, Mem.put_none]
      rcases ih with ⟨hr, hall⟩ | ⟨e, he, hfree', hr⟩
      · refine .inl ⟨hr, ?_⟩
        rintro e (_ | ⟨_, he⟩)
        · exact hfree
        · exact hall e he
      · exact .inr ⟨e, mem_cons_of_mem _ he, hfree', hr⟩

theorem run_takePending (slot fence : Nat) (entries : List Nat) (mem : Mem Addr) :
    let r := (takePending slot fence entries).run mem
    (r = (false, mem) ∧ ∀ entry ∈ entries, mem (.pending slot entry) ≠ fence) ∨
    ∃ entry ∈ entries, mem (.pending slot entry) = fence ∧
      r = (true, update mem (.pending slot entry) 0) := by
  induction entries with
  | nil => exact .inl ⟨rfl, by simp⟩
  | cons entry rest ih =>
    simp only [takePending, Prog.run_bind, run_compareExchange]
    by_cases hfound : mem (.pending slot entry) = fence
    · right
      refine ⟨entry, by simp, hfound, ?_⟩
      simp [hfound]
    · simp only [hfound, if_false, beq_iff_eq, Mem.put_none]
      rcases ih with ⟨hr, hall⟩ | ⟨e, he, hfound', hr⟩
      · refine .inl ⟨hr, ?_⟩
        rintro e (_ | ⟨_, he⟩)
        · exact hfound
        · exact hall e he
      · exact .inr ⟨e, mem_cons_of_mem _ he, hfound', hr⟩

def pendingCount (mem : Mem Addr) (slot : Nat) : Nat :=
  (range pendingReservations).countP fun entry => mem (.pending slot entry) ≠ 0

theorem pendingCount_le (mem : Mem Addr) (slot : Nat) : pendingCount mem slot ≤ 16 := by
  have h := countP_le_length (p := fun entry => decide (mem (.pending slot entry) ≠ 0))
    (l := range pendingReservations)
  rw [length_range] at h
  exact h

theorem run_ageOut (slot now grace : Nat) (entries : List Nat) (hnodup : entries.Nodup)
    (mem : Mem Addr) :
    let r := (ageOut slot now grace entries).run mem
    (∀ a, (∀ entry ∈ entries, a ≠ .pending slot entry) → r.2 a = mem a) ∧
    (∀ entry, r.2 (.pending slot entry) = mem (.pending slot entry) ∨
      r.2 (.pending slot entry) = 0) ∧
    (entries.countP fun entry => r.2 (.pending slot entry) ≠ 0) + r.1 =
      entries.countP fun entry => mem (.pending slot entry) ≠ 0 := by
  induction entries generalizing mem with
  | nil => simp [ageOut]
  | cons entry rest ih =>
    rw [nodup_cons] at hnodup
    have hhead : ∀ mem : Mem Addr, ((ageOut slot now grace rest).run mem).2 (.pending slot entry) =
        mem (.pending slot entry) := fun mem => by
      refine (ih hnodup.2 mem).1 _ fun e he heq => ?_
      cases heq
      exact hnodup.1 he
    -- an entry that stays counts the same before and after
    have hstay : (∀ a, (∀ e ∈ entry :: rest, a ≠ .pending slot e) →
          ((ageOut slot now grace rest).run mem).2 a = mem a) ∧
        (∀ e, ((ageOut slot now grace rest).run mem).2 (.pending slot e) = mem (.pending slot e) ∨
          ((ageOut slot now grace rest).run mem).2 (.pending slot e) = 0) ∧
        ((entry :: rest).countP fun e =>
          ((ageOut slot now grace rest).run mem).2 (.pending slot e) ≠ 0) +
          ((ageOut slot now grace rest).run mem).1 =
            (entry :: rest).countP fun e => mem (.pending slot e) ≠ 0 := by
      obtain ⟨hother, hpending, hcount⟩ := ih hnodup.2 mem
      refine ⟨fun a ha => hother a fun e he => ha e (mem_cons_of_mem _ he), hpending, ?_⟩
      rw [countP_cons, countP_cons, hhead]
      omega
    simp only [ageOut, Prog.run_bind, run_load]
    by_cases hskip : mem (.pending slot entry) = 0 ∨ mem (.pending slot entry) = placing
    · simp only [hskip, if_true]
      exact hstay
    · simp only [hskip, if_false, Prog.run_bind, run_load]
      by_cases hold : now - mem (.sinceMs slot entry) > grace
      · simp only [hold, if_true, Prog.run_bind, run_compareExchange, beq_self_eq_true, Mem.put_some,
          Prog.run_pure]
        have hzero := hhead (update mem (.pending slot entry) 0)
        obtain ⟨hother, hpending, hcount⟩ :=
          ih hnodup.2 (update mem (.pending slot entry) 0)
        rw [update_self] at hzero
        have hne : ∀ e ∈ rest, e ≠ entry := by
          rintro e he rfl
          exact hnodup.1 he
        have hsame : (rest.countP fun e =>
            update mem (.pending slot entry) 0 (.pending slot e) ≠ 0) =
            rest.countP fun e => mem (.pending slot e) ≠ 0 := by
          refine countP_congr fun e he => ?_
          simp [hne e he]
        refine ⟨fun a ha => ?_, fun e => ?_, ?_⟩
        · rw [hother a fun e he => ha e (mem_cons_of_mem _ he),
            update_of_ne (ha entry (by simp))]
        · by_cases he : e = entry
          · subst he
            exact .inr hzero
          · simpa [he] using hpending e
        · rw [countP_cons, countP_cons, hzero]
          have hnz : mem (.pending slot entry) ≠ 0 := fun h => hskip (.inl h)
          simp only [ne_eq, hnz, not_true_eq_false, not_false_eq_true, decide_false, decide_true,
            Bool.false_eq_true, if_false, if_true] at hcount hsame ⊢
          omega
      · simp only [hold, if_false]
        exact hstay

theorem unpack_restored {r a : Nat} (hr : r + 1 < 2 ^ 32) (ha : a < 2 ^ 32) :
    unpackCounts (packCounts ((unpackCounts (packCounts (r + 1) a)).1 - 1)
      (unpackCounts (packCounts (r + 1) a)).2) = (r, a) := by
  simp only [unpackCounts_packCounts]
  rw [Nat.mod_eq_of_lt hr, Nat.add_sub_cancel, Nat.mod_mod, Nat.mod_eq_of_lt ha,
    Nat.mod_eq_of_lt (show r < 2 ^ 32 by omega)]

theorem added_removed {a : Nat} (ha : a < 2 ^ 32) (hpos : g.spec.fleetAvailability = true → 0 < a) :
    added g 1 (removed g 1 a) = a := by
  unfold added removed
  by_cases hg : g.spec.fleetAvailability = true
  · have h := hpos hg
    simp only [hg, true_and, if_true, gt_iff_lt, Nat.zero_lt_one]
    rw [Nat.sub_add_cancel h, Nat.mod_eq_of_lt ha]
  · simp [hg]

/-- A reservation that succeeds. -/
structure Reserved (p : Pool g) (mem mem' : Mem Addr) (id : ResourceId) (slot entry now : Nat) :
    Prop where
  located : p.locate id = .ok slot
  live : mem (.state slot) = resourceLive
  generation : mem (.generation slot) = id.generation
  room : add32 (reserved mem slot) (active mem slot) < mem (.capacity slot)
  tracked : g.spec.fleetAvailability = true → 0 < mem (.available (mem (.keyIndex slot)))
  entry_lt : entry < pendingReservations
  entry_free : mem (.pending slot entry) = 0
  mem_eq : mem' = update (update (update (update
    (update (update mem
      (.available (mem (.keyIndex slot))) (removed g 1 (mem (.available (mem (.keyIndex slot))))))
      (.units slot) (packCounts (reserved mem slot + 1) (active mem slot)))
      (.fence slot) ((mem (.fence slot) + 1) % 2 ^ 64))
      (.sinceMs slot entry) now)
      (.pending slot entry) ((mem (.fence slot) + 1) % 2 ^ 64))
      (.lastReserveMs slot) now

/-- What a reservation needs: room on a live resource of this generation, a unit in the ledger and
a free entry. -/
structure Reservable (p : Pool g) (mem : Mem Addr) (id : ResourceId) (slot : Nat) : Prop where
  located : p.locate id = .ok slot
  live : mem (.state slot) = resourceLive
  generation : mem (.generation slot) = id.generation
  room : add32 (reserved mem slot) (active mem slot) < mem (.capacity slot)
  tracked : g.spec.fleetAvailability = true → 0 < mem (.available (mem (.keyIndex slot)))
  entry : ∃ entry < pendingReservations, mem (.pending slot entry) = 0

/-- A reservation that fails gives back what it took; a fence it minted is not minted again. -/
structure NotReserved (g : Geometry) (mem mem' : Mem Addr) : Prop where
  words : ∀ a, (∀ slot, a ≠ .units slot) → (∀ slot, a ≠ .fence slot) →
    (∀ k, a ≠ .available k) → mem' a = mem a
  available : ∀ k, mem (.available k) < 2 ^ 32 → mem' (.available k) = mem (.available k)
  reserved : ∀ slot, reserved mem slot + 1 < 2 ^ 32 → reserved mem' slot = reserved mem slot ∧
    active mem' slot = active mem slot
  fence : ∀ slot, mem' (.fence slot) = mem (.fence slot) ∨
    mem' (.fence slot) = (mem (.fence slot) + 1) % 2 ^ 64

theorem NotReserved.same : NotReserved g mem mem :=
  ⟨fun _ _ _ _ => rfl, fun _ _ => rfl, fun _ _ => ⟨rfl, rfl⟩, fun _ => .inl rfl⟩

def ReserveOutcome (p : Pool g) (mem : Mem Addr) (id : ResourceId) (now : Nat)
    (r : Except Error Lease × Mem Addr) : Prop :=
  ((∃ e, r.1 = .error e) ∧ NotReserved g mem r.2 ∧ ∀ slot, ¬Reservable p mem id slot) ∨
  ∃ slot entry, Reserved p mem r.2 id slot entry now ∧
    r.1 = .ok ⟨id, (mem (.fence slot) + 1) % 2 ^ 64, p.node, p.incarnation⟩

@[simp] theorem run_returnReserved (slot : Nat) : (returnReserved slot).run mem = ((),
    update mem (.units slot) (packCounts ((unpackCounts (mem (.units slot))).1 - 1)
      (unpackCounts (mem (.units slot))).2)) := rfl

theorem NotReserved.undone (slot k : Nat) {mem' : Mem Addr}
    (hpos : g.spec.fleetAvailability = true → 0 < mem (.available k))
    (hunits : mem' (.units slot) = packCounts
      ((unpackCounts (packCounts (OrbitPool.reserved mem slot + 1) (active mem slot))).1 - 1)
      (unpackCounts (packCounts (OrbitPool.reserved mem slot + 1) (active mem slot))).2)
    (havailable : mem' (.available k) = added g 1 (removed g 1 (mem (.available k))))
    (hfence : mem' (.fence slot) = mem (.fence slot) ∨
      mem' (.fence slot) = (mem (.fence slot) + 1) % 2 ^ 64)
    (hwords : ∀ a, a ≠ .units slot → a ≠ .available k → a ≠ .fence slot → mem' a = mem a) :
    NotReserved g mem mem' := by
  refine ⟨fun a h1 h2 h3 => hwords a (h1 slot) (h3 k) (h2 slot), fun j hlt => ?_, fun i hlt => ?_,
    fun i => ?_⟩
  · by_cases hj : j = k
    · subst hj
      rw [havailable, added_removed hlt hpos]
    · exact hwords _ (by simp) (by simpa using hj) (by simp)
  · by_cases hi : i = slot
    · subst hi
      have hrestored := unpack_restored hlt (active_lt mem i)
      rw [← hunits] at hrestored
      rw [OrbitPool.reserved, active, hrestored]
      exact ⟨rfl, rfl⟩
    · rw [OrbitPool.reserved, active, hwords _ (by simpa using hi) (by simp) (by simp)]
      exact ⟨rfl, rfl⟩
  · by_cases hi : i = slot
    · subst hi
      exact hfence
    · exact .inl (hwords _ (by simp) (by simp) (by simpa using hi))

theorem run_reserve (p : Pool g) (id : ResourceId) (now : Nat) (mem : Mem Addr) :
    ReserveOutcome p mem id now ((p.reserve id now).run mem) := by
  unfold Pool.reserve
  cases hlocate : p.locate id with
  | error e =>
    refine .inl ⟨⟨e, rfl⟩, .same, fun i h => ?_⟩
    rw [h.located] at hlocate
    cases hlocate
  | ok slot =>
    have hslot : ∀ {P : Prop}, (Reservable p mem id slot → P) → ∀ i, Reservable p mem id i → P := by
      intro P hP i hi
      obtain rfl : i = slot := Except.ok.inj (hi.located.symm.trans hlocate)
      exact hP hi
    simp only [Prog.run_bind, run_load]
    by_cases hdrain : mem (.state slot) = resourceDraining
    · simp only [hdrain, if_true]
      refine .inl ⟨⟨_, rfl⟩, .same, hslot fun h => ?_⟩
      rw [h.live] at hdrain
      cases hdrain
    by_cases hlive : mem (.state slot) = resourceLive
    case neg =>
      simp only [hdrain, hlive, if_false, ne_eq, not_false_eq_true, if_true]
      exact .inl ⟨⟨_, rfl⟩, .same, hslot fun h => hlive h.live⟩
    have hne : ¬resourceLive = resourceDraining := by decide
    simp only [hlive, hne, if_false, ne_eq, not_true_eq_false, Prog.run_bind, run_load,
      run_takeAvailable]
    generalize hk : mem (.keyIndex slot) = k
    by_cases htake : g.spec.fleetAvailability = true → 0 < mem (.available k)
    case neg =>
      -- nothing is available, and 0 less 1 is still 0
      have htrack : g.spec.fleetAvailability = true := by
        by_contra hno
        exact htake fun h => absurd h hno
      have hzero : mem (.available k) = 0 := by
        by_contra hno
        exact htake fun _ => Nat.pos_of_ne_zero hno
      simp only [htrack, hzero, Nat.lt_irrefl, decide_false, Bool.not_true, Bool.or_false,
        Bool.not_false, if_true, Prog.run_pure]
      refine .inl ⟨⟨_, rfl⟩, ?_, hslot fun h => htake (hk ▸ h.tracked)⟩
      have hsame : update mem (.available k) (removed g 1 0) = mem := by
        have hval : removed g 1 0 = mem (.available k) := by simp [removed, hzero]
        rw [hval, update_eq_self]
      rw [hsame]
      exact .same
    have hgo : (!(!g.spec.fleetAvailability || decide (0 < mem (.available k)))) = false := by
      by_cases htrack : g.spec.fleetAvailability = true
      · simp [htrack, htake htrack]
      · simp [htrack]
    simp only [hgo, Bool.false_eq_true, if_false, Prog.run_bind, run_load, run_tryUpdate]
    have hcapacity : ∀ v, update mem (.available k) v (.capacity slot) =
        mem (.capacity slot) := fun v => update_of_ne (by simp) _ _
    have hunits : ∀ v, update mem (.available k) v (.units slot) =
        mem (.units slot) := fun v => update_of_ne (by simp) _ _
    simp only [hcapacity, hunits]
    by_cases hroom : add32 (unpackCounts (mem (.units slot))).1 (unpackCounts (mem (.units slot))).2 <
        mem (.capacity slot)
    case neg =>
      simp only [hroom, if_false, Option.isSome_none, Bool.not_false, if_true, Mem.put_none,
        Prog.run_bind, run_addAvailable, Prog.run_pure, update_self, update_idem]
      refine .inl ⟨⟨_, rfl⟩, ⟨fun a _ _ h3 => update_of_ne (h3 k) _ _, fun j hlt => ?_,
        fun i _ => ?_, fun i => .inl (by simp)⟩, hslot fun h => hroom h.room⟩
      · by_cases hj : j = k
        · subst hj
          exact (update_self ..).trans (added_removed hlt htake)
        · exact update_of_ne (by simpa using hj) _ _
      · simp [OrbitPool.reserved, active]
    simp only [hroom, if_true, Option.isSome_some, Bool.not_true, Bool.false_eq_true, if_false,
      Mem.put_some, Prog.run_bind, run_isGeneration]
    generalize hmem1 : update (update mem (.available k)
      (removed g 1 (mem (.available k)))) (.units slot)
      (packCounts ((unpackCounts (mem (.units slot))).1 + 1) (unpackCounts (mem (.units slot))).2) =
        mem1
    have hunits1 : mem1 (.units slot) =
        packCounts (OrbitPool.reserved mem slot + 1) (active mem slot) := by
      rw [← hmem1, update_self]
      rfl
    have havail1 : mem1 (.available k) = removed g 1 (mem (.available k)) := by simp [← hmem1]
    have hwords1 : ∀ a, a ≠ .units slot → a ≠ .available k → mem1 a = mem a := by
      intro a h1 h2
      simp [← hmem1, h1, h2]
    have hheld1 : Held mem1 slot := .inl ((hwords1 _ (by simp) (by simp)).trans hlive)
    have hgen1 : mem1 (.generation slot) = mem (.generation slot) := hwords1 _ (by simp) (by simp)
    by_cases hgen : mem (.generation slot) = id.generation
    case neg =>
      simp only [hheld1, hgen1, hgen, and_false, decide_false, Bool.not_false, if_true,
        Prog.run_bind, run_returnReserved, run_addAvailable, Prog.run_pure]
      refine .inl ⟨⟨_, rfl⟩, .undone slot k htake ?_ ?_ (.inl ?_) fun a h1 h2 _ => ?_,
        hslot fun h => hgen h.generation⟩
      · simp [hunits1]
      · simp [havail1]
      · simp [hwords1]
      · simp [h1, h2, hwords1]
    simp only [hheld1, hgen1, hgen, and_self, decide_true, Bool.not_true, Bool.false_eq_true,
      if_false, Prog.run_bind, run_fetchAdd]
    have hfence1 : mem1 (.fence slot) = mem (.fence slot) := hwords1 _ (by simp) (by simp)
    rw [hfence1]
    generalize hmem2 : update mem1 (.fence slot) ((mem (.fence slot) + 1) % 2 ^ 64) = mem2
    have hwords2 : ∀ a, a ≠ .units slot → a ≠ .available k → a ≠ .fence slot → mem2 a = mem a := by
      intro a h1 h2 h3
      rw [← hmem2, update_of_ne h3, hwords1 a h1 h2]
    rcases run_placePending slot ((mem (.fence slot) + 1) % 2 ^ 64) now
      (range pendingReservations) mem2 with ⟨hr, hfull⟩ | ⟨entry, hentry, hfree, hr⟩
    · rw [hr]
      simp only [Bool.not_false, if_true, Prog.run_bind, run_returnReserved, run_addAvailable,
        Prog.run_pure]
      have hno : ¬Reservable p mem id slot := by
        intro h
        obtain ⟨entry, hentry, hfree⟩ := h.entry
        refine hfull entry (mem_range.mpr hentry) ?_
        rw [hwords2 _ (by simp) (by simp) (by simp), hfree]
      refine .inl ⟨⟨_, rfl⟩, .undone slot k htake ?_ ?_ (.inr ?_) fun a h1 h2 h3 => ?_, hslot hno⟩
      · simp [← hmem2, hunits1]
      · simp [← hmem2, havail1]
      · simp [← hmem2]
      · simp [h1, h2, hwords2 a h1 h2 h3]
    · rw [hr]
      simp only [Bool.not_true, Bool.false_eq_true, if_false, Prog.run_bind, run_store, run_mark,
        Prog.run_pure]
      rw [hwords2 _ (by simp) (by simp) (by simp)] at hfree
      refine .inr ⟨slot, entry, ⟨hlocate, hlive, hgen, hroom, hk.symm ▸ htake,
        mem_range.mp hentry, hfree, ?_⟩, rfl⟩
      subst hk hmem2 hmem1
      rfl

/-- A lease taken out of the pending entries of its slot. -/
structure Taken (p : Pool g) (mem : Mem Addr) (lease : Lease) (slot entry : Nat) : Prop where
  located : p.locate lease.id = .ok slot
  entry_lt : entry < pendingReservations
  pending : mem (.pending slot entry) = lease.fence

theorem run_cancelReservation (p : Pool g) (lease : Lease) (mem : Mem Addr) :
    let r := (p.cancelReservation lease).run mem
    ((∃ e, r.1 = .error e) ∧ r.2 = mem) ∨
    ∃ slot entry, Taken p mem lease slot entry ∧ r.1 = .ok () ∧
      r.2 = update (update (update mem (.pending slot entry) 0)
        (.units slot) (packCounts (reserved mem slot - 1) (active mem slot)))
        (.available (mem (.keyIndex slot)))
        (added g 1 (mem (.available (mem (.keyIndex slot))))) := by
  unfold Pool.cancelReservation
  split
  · exact .inl ⟨⟨_, rfl⟩, rfl⟩
  cases hlocate : p.locate lease.id with
  | error e => exact .inl ⟨⟨e, rfl⟩, rfl⟩
  | ok slot =>
    simp only [Prog.run_bind]
    rcases run_takePending slot lease.fence (range pendingReservations) mem with
      ⟨hr, -⟩ | ⟨entry, hentry, hfound, hr⟩
    · rw [hr]
      exact .inl ⟨⟨_, rfl⟩, rfl⟩
    · rw [hr]
      refine .inr ⟨slot, entry, ⟨hlocate, mem_range.mp hentry, hfound⟩, ?_, ?_⟩
      · simp
      · simp [reserved, active]

theorem run_accept (p : Pool g) (lease : Lease) (mem : Mem Addr) :
    let r := (p.accept lease).run mem
    ((∃ e, r.1 = .error e) ∧ r.2 = mem) ∨
    ∃ slot entry, Taken p mem lease slot entry ∧ Owned p mem lease.id slot ∧
      mem (.state slot) = resourceLive ∧ r.1 = .ok ⟨lease⟩ ∧
      r.2 = update (update mem (.pending slot entry) 0)
        (.units slot) (packCounts (reserved mem slot - 1) (active mem slot + 1)) := by
  have hcases := @run_of_owned g mem Execution p lease.id fun slot => do
    let state ← load (.state slot)
    if state ≠ resourceLive then return .error (.draining lease.id)
    if !(← takePending slot lease.fence (range pendingReservations)) then
      return .error (.notReserved lease)
    let _ ← tryUpdate (.units slot) fun units =>
      some (packCounts ((unpackCounts units).1 - 1) ((unpackCounts units).2 + 1))
    mark (.accepted lease)
    return .ok ⟨lease⟩
  rcases hcases with h | ⟨slot, howned, hrun⟩
  · exact .inl h
  · have hrun' : (p.accept lease).run mem = _ := hrun
    rw [hrun']
    simp only [Prog.run_bind, run_load]
    by_cases hlive : mem (.state slot) = resourceLive
    · simp only [hlive, ne_eq, not_true_eq_false, if_false, Prog.run_bind]
      rcases run_takePending slot lease.fence (range pendingReservations) mem with
        ⟨hr, -⟩ | ⟨entry, hentry, hfound, hr⟩
      · rw [hr]
        exact .inl ⟨⟨_, rfl⟩, rfl⟩
      · rw [hr]
        refine .inr ⟨slot, entry, ⟨howned.located, mem_range.mp hentry, hfound⟩, howned, hlive,
          ?_, ?_⟩
        · simp
        · simp [reserved, active]
    · simp only [hlive, ne_eq, not_false_eq_true, if_true]
      exact .inl ⟨⟨_, rfl⟩, rfl⟩

def Execution.slot (execution : Execution) (g : Geometry) : Nat :=
  execution.lease.id.node * g.laneCapacity + execution.lease.id.slot

def retains (g : Geometry) (mem : Mem Addr) (k : Nat) : Option Nat → Bool
  | some limit => !g.spec.fleetAvailability || decide (mem (.available k) < limit)
  | none => true

theorem run_retainUnit (k : Nat) (maxIdle : Option Nat) :
    (retainUnit g k maxIdle).run mem = (retains g mem k maxIdle, update mem (.available k)
      (if retains g mem k maxIdle ∧ g.spec.fleetAvailability then
        match maxIdle with
        | some _ => mem (.available k) + 1
        | none => (mem (.available k) + 1) % 2 ^ 32
      else mem (.available k))) := by
  cases maxIdle with
  | none =>
    by_cases hg : g.spec.fleetAvailability = true <;> simp [retainUnit, retains, added, hg]
  | some limit =>
    by_cases hg : g.spec.fleetAvailability = true
    · by_cases hlt : mem (.available k) < limit <;>
        simp [retainUnit, retainAvailableBelow, retains, hg, hlt]
    · simp [retainUnit, retainAvailableBelow, retains, hg]

section Finish

variable (execution : Execution) (maxIdle : Option Nat)

theorem run_finish_ended (h : mem (.generation (execution.slot g)) ≠ execution.lease.id.generation ∨
    ¬Held mem (execution.slot g)) : (execution.finish g maxIdle).run mem = (false, mem) := by
  have h' : mem (.generation (execution.slot g)) ≠ execution.lease.id.generation ∨
      (mem (.state (execution.slot g)) ≠ resourceLive ∧
        mem (.state (execution.slot g)) ≠ resourceDraining) := by
    rcases h with h | h
    · exact .inl h
    · exact .inr (not_or.mp h)
  unfold Execution.slot at h'
  simp only [Execution.finish, Prog.run_bind, run_load, h', if_true, Prog.run_pure]

theorem run_finish_draining
    (hgen : mem (.generation (execution.slot g)) = execution.lease.id.generation)
    (hstate : mem (.state (execution.slot g)) = resourceDraining) :
    (execution.finish g maxIdle).run mem = (false, update mem (.units (execution.slot g))
      (packCounts (reserved mem (execution.slot g)) (active mem (execution.slot g) - 1))) := by
  unfold Execution.slot reserved active at *
  have hne : ¬resourceDraining = resourceLive := by decide
  simp [Execution.finish, hgen, hstate, hne]

theorem run_finish_live
    (hgen : mem (.generation (execution.slot g)) = execution.lease.id.generation)
    (hstate : mem (.state (execution.slot g)) = resourceLive) :
    (execution.finish g maxIdle).run mem =
      (retains g mem (mem (.keyIndex (execution.slot g))) maxIdle,
        if retains g mem (mem (.keyIndex (execution.slot g))) maxIdle then
          update (update mem (.available (mem (.keyIndex (execution.slot g))))
            (if g.spec.fleetAvailability then
              match maxIdle with
              | some _ => mem (.available (mem (.keyIndex (execution.slot g)))) + 1
              | none => (mem (.available (mem (.keyIndex (execution.slot g)))) + 1) % 2 ^ 32
            else mem (.available (mem (.keyIndex (execution.slot g))))))
            (.units (execution.slot g))
            (packCounts (reserved mem (execution.slot g)) (active mem (execution.slot g) - 1))
        else mem) := by
  unfold Execution.slot reserved active at *
  have hne : ¬resourceLive = resourceDraining := by decide
  generalize hk : mem (.keyIndex (execution.lease.id.node * g.laneCapacity +
    execution.lease.id.slot)) = k
  simp only [Execution.finish, Prog.run_bind, run_load, hgen, hstate, hk, ne_eq, not_true_eq_false,
    false_and, or_self, if_false, if_true, run_retainUnit]
  cases hret : retains g mem k maxIdle with
  | true => simp [hne]
  | false => simp [hne]

theorem run_complete_mem : ((execution.complete g).run mem).2 =
    ((execution.finish g none).run mem).2 := by
  simp [Execution.complete]

theorem run_completeIdle_mem (limit : Nat) : ((execution.completeIdle g limit).run mem).2 =
    ((execution.finish g (if g.spec.fleetAvailability then some limit else none)).run mem).2 := by
  unfold Execution.completeIdle
  cases g.spec.fleetAvailability with
  | false => simp [run_complete_mem]
  | true => simp

end Finish

/-- What the owner's reconcile does to the words of a slot: `aged` entries are taken out, the
active half becomes what the owner says, and the ledger follows the units. -/
structure Reconciled (p : Pool g) (mem mem' : Mem Addr) (id : ResourceId) (nowActive slot aged : Nat) :
    Prop where
  owned : Owned p mem id slot
  pending : ∀ entry, mem' (.pending slot entry) = mem (.pending slot entry) ∨
    mem' (.pending slot entry) = 0
  count : pendingCount mem' slot + aged = pendingCount mem slot
  units : mem' (.units slot) = packCounts (reserved mem slot - aged) nowActive
  available : ∀ k, mem' (.available k) = if k = mem (.keyIndex slot) then
    (if mem (.capacity slot) - add32 (reserved mem slot - aged) nowActive >
        mem (.capacity slot) - add32 (reserved mem slot) (active mem slot)
      then added g (mem (.capacity slot) - add32 (reserved mem slot - aged) nowActive -
        (mem (.capacity slot) - add32 (reserved mem slot) (active mem slot))) (mem (.available k))
      else removed g (mem (.capacity slot) - add32 (reserved mem slot) (active mem slot) -
        (mem (.capacity slot) - add32 (reserved mem slot - aged) nowActive)) (mem (.available k)))
    else mem (.available k)
  words : ∀ a, (∀ entry, a ≠ .pending slot entry) → a ≠ .units slot → a.part ≠ .available →
    mem' a = mem a

theorem run_reconcile (p : Pool g) (id : ResourceId) (nowActive grace now : Nat) (mem : Mem Addr) :
    ((p.reconcile id nowActive grace now).run mem).2 = mem ∨
    ∃ slot aged, Reconciled p mem ((p.reconcile id nowActive grace now).run mem).2 id nowActive slot
      aged := by
  have hcases := @run_of_owned g mem Unit p id fun index => do
    let aged ← ageOut index now grace (range pendingReservations)
    let capacity ← load (.capacity index)
    let units ← (.access (.units index)
      (fun units => some (packCounts ((unpackCounts units).1 - aged) nowActive)) .ret : PoolM Nat)
    let reserved := (unpackCounts units).1
    let wasFree := capacity - add32 reserved (unpackCounts units).2
    let nowFree := capacity - add32 (reserved - aged) nowActive
    let keyIndex ← load (.keyIndex index)
    if nowFree > wasFree then addAvailable g keyIndex (nowFree - wasFree)
    else if nowFree < wasFree then removeAvailable g keyIndex (wasFree - nowFree)
    return .ok ()
  rcases hcases with ⟨-, hmem⟩ | ⟨slot, howned, hrun⟩
  · exact .inl hmem
  · right
    have hrun' : (p.reconcile id nowActive grace now).run mem = _ := hrun
    rw [hrun']
    obtain ⟨hwords, hpending, hcount⟩ :=
      run_ageOut slot now grace (range pendingReservations) nodup_range mem
    simp only [Prog.run_bind, run_load]
    generalize (ageOut slot now grace (range pendingReservations)).run mem = r1 at *
    obtain ⟨aged, mem1⟩ := r1
    simp only at hwords hpending hcount
    have hcap : mem1 (.capacity slot) = mem (.capacity slot) := hwords _ (by simp)
    have hunits : mem1 (.units slot) = mem (.units slot) := hwords _ (by simp)
    have hkey : mem1 (.keyIndex slot) = mem (.keyIndex slot) := hwords _ (by simp)
    have havailable : ∀ k, mem1 (.available k) = mem (.available k) := fun k => hwords _ (by simp)
    refine ⟨slot, aged, ?_⟩
    simp only [Prog.run, Mem.put_some, hcap, hunits, update_of_ne, ne_eq, reduceCtorEq,
      not_false_eq_true, hkey]
    generalize hwas : mem (.capacity slot) - add32 (unpackCounts (mem (.units slot))).1
      (unpackCounts (mem (.units slot))).2 = was
    generalize hnow : mem (.capacity slot) - add32 ((unpackCounts (mem (.units slot))).1 - aged)
      nowActive = free
    have hresult : ∀ (value : Nat) (mem' : Mem Addr), mem' = update (update mem1
        (.units slot) (packCounts ((unpackCounts (mem (.units slot))).1 - aged) nowActive))
        (.available (mem (.keyIndex slot))) value →
        value = (if free > was then added g (free - was) (mem (.available (mem (.keyIndex slot))))
          else removed g (was - free) (mem (.available (mem (.keyIndex slot))))) →
        Reconciled p mem mem' id nowActive slot aged := by
      rintro value mem' rfl rfl
      subst hwas hnow
      refine ⟨howned, fun entry => ?_, ?_, ?_, fun k => ?_, fun a h1 h2 h3 => ?_⟩
      · simpa using hpending entry
      · simpa [pendingCount] using hcount
      · simp [reserved]
      · by_cases hk : k = mem (.keyIndex slot)
        · subst hk
          simp [reserved, active]
        · simp [hk, havailable]
      · have h4 : a ≠ .available (mem (.keyIndex slot)) := by rintro rfl; exact h3 rfl
        simp [h2, h4, hwords a fun e _ => h1 e]
    by_cases hmore : free > was
    · simp only [hmore, if_true, Prog.run_bind, run_addAvailable, Prog.run_pure]
      refine hresult _ _ rfl ?_
      simp [hmore, havailable]
    · by_cases hless : free < was
      · simp only [hmore, hless, if_false, if_true, Prog.run_bind, run_removeAvailable,
          Prog.run_pure]
        refine hresult _ _ rfl ?_
        simp [hmore, havailable]
      · have hsame : was - free = 0 := by omega
        simp only [hmore, hless, if_false, Prog.run_pure]
        refine hresult (mem (.available (mem (.keyIndex slot)))) _ ?_ ?_
        · have hval : mem (.available (mem (.keyIndex slot))) = update mem1 (.units slot)
              (packCounts ((unpackCounts (mem (.units slot))).1 - aged) nowActive)
              (.available (mem (.keyIndex slot))) := by simp [havailable]
          rw [hval, update_eq_self]
        · simp [hmore, hsame, removed]

end OrbitPool
