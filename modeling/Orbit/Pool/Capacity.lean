import Orbit.Pool.Exactness
import Orbit.Pool.Installing

/-! Capacity under interleaved calls: in every run whose calls stay within the generation they were
given, the leases and the executions of a resource are within the capacity it was installed with. -/

namespace OrbitPool

open Orbit.Atomic

variable {g : Geometry}

section Begin

variable {m : Share} {h : History} {mem : Mem Addr} {i : Nat}

theorem Inv.learn (hI : Inv g m h mem) {token : SlotToken} (hholds : token.Holds (h i) (words mem i))
    (hfact : ∀ v f lease, token ≠ .unit v ∧ token ≠ .act v ∧ token ≠ .minted v f ∧
      token ≠ .placed v f ∧ token ≠ .taken lease) : Inv g (hold i {token} + m) h mem := by
  have hempty : Inv g (hold i 0 + m) h mem := by rwa [hold_zero, zero_add]
  refine hempty.exchange (fun _ => rfl) (fun _ _ => rfl) (fun _ _ => rfl) ?_
  have hslot := hempty.at_hold
  rw [zero_add] at hslot
  rw [Multiset.singleton_add]
  exact hslot.learn hholds hfact

theorem Inv.dropped (hI : Inv g m h mem) {execution : Execution} {h' : History}
    (hbegins : begins g execution h = some h') :
    Inv g (hold (execution.lease.id.index g) {.act execution.lease.id.generation} + m) h' mem := by
  unfold OrbitPool.begins at hbegins
  simp only at hbegins
  split at hbegins
  · rename_i hmem
    cases hbegins
    have hempty : Inv g (hold (execution.lease.id.index g) 0 + m) h mem := by
      rwa [hold_zero, zero_add]
    refine hempty.exchange (fun _ => rfl) (fun j hj => Function.update_of_ne hj _ _)
      (fun _ _ => rfl) ?_
    have hslot := hempty.at_hold
    rw [zero_add] at hslot
    rw [Multiset.singleton_add, Function.update_self]
    exact hslot.dropped hmem
  · cases hbegins

theorem Inv.begins {thread : Nat} {call : Call g} {h' : History} (hI : Inv g m h mem)
    (hbegin : (inTenancy g).begin call h mem) (hcall : (poolSys g).begins call h = some h') :
    ∃ mc, Inv g (mc + m) h' mem ∧
      Safe (poolSys g) (inTenancy g) (Inv g) thread call ((poolSys g).body call)
        (fun _ _ => True) mc := by
  cases call with
  | register p key capacity now =>
    cases hcall
    exact ⟨0, by rwa [zero_add], .bind ((safe_register p key capacity now).mono fun _ _ _ => trivial)⟩
  | registerActive p key capacity now =>
    cases hcall
    exact ⟨0, by rwa [zero_add],
      .bind ((safe_registerActive p key capacity now rfl).mono fun _ _ _ => trivial)⟩
  | unregister p id =>
    cases hcall
    exact ⟨0, by rwa [zero_add], .bind ((safe_unregister p id).mono fun _ _ _ => trivial)⟩
  | drain p id =>
    cases hcall
    exact ⟨0, by rwa [zero_add], .bind ((safe_drain p id).mono fun _ _ _ => trivial)⟩
  | reserve p id now =>
    cases hcall
    cases hlocate : p.locate id with
    | error e =>
      refine ⟨0, by rwa [zero_add], ?_⟩
      show Safe _ _ _ _ _ (p.reserve id now >>= fun _ => _) _ _
      rw [Pool.reserve, hlocate]
      trivial
    | ok i =>
      have hi : i = id.index g := (locateIn_ok hlocate).2.2.2
      have hseen : (SlotToken.seen id.generation).Holds (h i) (words mem i) := by
        refine ⟨locateIn_generation hlocate, ?_⟩
        rw [hi]
        exact hbegin
      refine ⟨hold i {SlotToken.seen id.generation}, hI.learn hseen (by simp), ?_⟩
      exact .bind ((safe_reserve p id now rfl hlocate).mono fun _ _ _ => trivial)
  | cancelReservation p lease =>
    cases hcall
    refine ⟨hold _ {SlotToken.presents lease}, hI.learn hbegin (by simp), ?_⟩
    exact .bind ((safe_cancelReservation p lease rfl rfl).mono fun _ _ _ => trivial)
  | accept p lease =>
    cases hcall
    refine ⟨hold _ {SlotToken.presents lease}, hI.learn hbegin (by simp), ?_⟩
    exact .bind ((safe_accept p lease rfl rfl).mono fun _ _ _ => trivial)
  | complete execution => exact ⟨_, hI.dropped hcall, safe_complete execution rfl rfl⟩
  | completeIdle execution maxIdle =>
    exact ⟨_, hI.dropped hcall,
      .bind ((safe_completeIdle execution maxIdle.toNat rfl rfl).mono fun _ _ _ => trivial)⟩

end Begin

theorem SlotOk.held {slot : Nat} {mutex : Multiset LaneToken} {tokens : Multiset SlotToken}
    {t : Tenancy} {w : Words} (h : SlotOk slot mutex tokens t w) (hheld : w.Held) :
    t.tenant = w.generation := by
  rcases h.window with heq | ⟨_, _, _, _, _, hmem⟩
  · exact heq
  · exact absurd hheld (h.lane _ hmem rfl).1

theorem SlotOk.within {slot : Nat} {mutex : Multiset LaneToken} {tokens : Multiset SlotToken}
    {t : Tenancy} {w : Words} (h : SlotOk slot mutex tokens t w) :
    t.running t.tenant + t.leased t.tenant ≤ t.granted t.tenant := by
  by_cases hs : t.tenant = w.generation
  · have hold := h.settled hs
    have h1 := hold.room
    have h2 := hold.reserved
    have h3 := hold.active
    omega
  · have hle := h.generation_le
    have hleased : t.leased t.tenant = 0 := by
      rw [Tenancy.leased, List.countP_eq_zero]
      intro lease hlease heq
      have hreached := h.reached lease (h.leases lease hlease)
      rw [decide_eq_true_eq] at heq
      omega
    have hrunning : t.running t.tenant = 0 := by
      rw [Tenancy.running, List.countP_eq_zero]
      intro execution hexec heq
      have hreached := h.executions execution hexec
      rw [decide_eq_true_eq] at heq
      omega
    omega

theorem reach_inv {s : Config Addr Event (Call g) History}
    (hs : Reach (poolSys g) (inTenancy g) (poolStart g) s) : ∃ m, Inv g m s.hist s.mem := by
  obtain ⟨shares, hshares⟩ :
      ∃ shares, Shares (poolSys g) (inTenancy g) (Inv g) (fun _ => True) s shares :=
    Reach.holds (Inv.init g) (fun _ _ _ _ _ _ hI hbegin hcall => hI.begins hbegin hcall) hs
  exact ⟨_, hshares.2.1⟩

/-- At every reachable state of a run in which no call outlives the generation it was given, for
every slot: the live executions of the slot's current generation and its leases that are neither
accepted nor cancelled are within the capacity the generation was installed with.  That is the
capacity in the slot, and the current generation the one in the slot, whenever the slot has a
resource or is not being installed. -/
theorem capacity_never_exceeded {s : Config Addr Event (Call g) History}
    (hs : Reach (poolSys g) (inTenancy g) (poolStart g) s) (slot : Nat) :
    (s.hist slot).running (s.hist slot).tenant + (s.hist slot).leased (s.hist slot).tenant ≤
        (s.hist slot).granted (s.hist slot).tenant ∧
      (s.mem (.generation slot) = (s.hist slot).tenant →
        s.mem (.capacity slot) = (s.hist slot).granted (s.hist slot).tenant) ∧
      (s.mem (.state slot) = resourceLive ∨ s.mem (.state slot) = resourceDraining →
        s.mem (.generation slot) = (s.hist slot).tenant) := by
  obtain ⟨m, hI⟩ := reach_inv hs
  have hslot := hI.slot slot
  refine ⟨hslot.within, fun heq => ?_, fun hheld => ?_⟩
  · exact (hslot.settled heq.symm).capacity
  · exact (hslot.held hheld).symm

/-- A call on the only slot of `soloTable`, and accesses of the thread that makes it. -/
def runOf (thread : Nat) (call : Call soloTable) (steps : Nat) : List (Action (Call soloTable)) :=
  .begin call :: List.replicate steps (.step thread)

def registerOne : Call soloTable := .register soloNode .sample 1 0
def reserveOf (generation : Nat) : Call soloTable := .reserve soloNode (tenant generation) 0

def inTurn : List (Action (Call soloTable)) := runOf 0 registerOne 64 ++ runOf 1 (reserveOf 1) 11

theorem capacity_never_exceeded_inTurn : ∃ s,
    Reach (poolSys soloTable) (inTenancy soloTable) (poolStart soloTable) s ∧
      (s.hist 0).leased 1 = 1 ∧ s.mem (.capacity 0) = 1 ∧
      (s.hist 0).running (s.hist 0).tenant + (s.hist 0).leased (s.hist 0).tenant ≤
        (s.hist 0).granted (s.hist 0).tenant := by
  have hrun : ((inTenancy soloTable).runs (poolSys soloTable) (poolStart soloTable) inTurn).any
      (fun s => (s.hist 0).leased 1 = 1 ∧ s.mem (.capacity 0) = 1) = true := by decide +kernel
  obtain ⟨s, hs, hp⟩ := Reach.exists_of_runs _ hrun
  obtain ⟨hleased, hcapacity⟩ := of_decide_eq_true hp
  exact ⟨s, hs, hleased, hcapacity, (capacity_never_exceeded hs 0).1⟩

/-- `reserve` of the first generation stops between its count and its look at the generation, the
slot is closed and installed anew, and the unit it then gives back is the next tenant's. -/
def overtaken : List (Action (Call soloTable)) :=
  runOf 0 registerOne 64 ++ runOf 1 (reserveOf 1) 4 ++
    runOf 2 (.unregister soloNode (tenant 1)) 8 ++ runOf 3 registerOne 55 ++
    runOf 4 (reserveOf 2) 11 ++ List.replicate 3 (.step 1) ++ runOf 5 (reserveOf 2) 12

theorem stale_undo_takes_unit : ∃ s,
    Reach (poolSys soloTable) .free (poolStart soloTable) s ∧ s.mem (.state 0) = resourceLive ∧
      s.mem (.generation 0) = (s.hist 0).tenant ∧
      s.mem (.capacity 0) < (s.hist 0).running (s.mem (.generation 0)) +
        (s.hist 0).leased (s.mem (.generation 0)) := by
  have hrun : (Discipline.free.runs (poolSys soloTable) (poolStart soloTable) overtaken).any
      (fun s => s.mem (.state 0) = resourceLive ∧ s.mem (.generation 0) = (s.hist 0).tenant ∧
        s.mem (.capacity 0) < (s.hist 0).running (s.mem (.generation 0)) +
          (s.hist 0).leased (s.mem (.generation 0))) = true := by decide +kernel
  obtain ⟨s, hs, hp⟩ := Reach.exists_of_runs _ hrun
  exact ⟨s, hs, of_decide_eq_true hp⟩

end OrbitPool
