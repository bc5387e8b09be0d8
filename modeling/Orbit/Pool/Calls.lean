import Orbit.Atomic.Threads
import Orbit.Pool.Leases

/-! Calls of any number of processes on one table, one access at a time.  The history keeps, for
each slot, the generation whose installation began last and the capacity every generation was
installed with, the leases `reserve` has returned, those of them not yet accepted or cancelled, and
the live executions. -/

namespace OrbitPool

open Orbit.Atomic Function

variable {g : Geometry}

inductive Call (g : Geometry) where
  | register (p : Pool g) (key : Key) (capacity : UInt32) (now : Nat)
  | registerActive (p : Pool g) (key : Key) (capacity : UInt32) (now : Nat)
  | unregister (p : Pool g) (id : ResourceId)
  | drain (p : Pool g) (id : ResourceId)
  | reserve (p : Pool g) (id : ResourceId) (now : Nat)
  | cancelReservation (p : Pool g) (lease : Lease)
  | accept (p : Pool g) (lease : Lease)
  | complete (execution : Execution)
  | completeIdle (execution : Execution) (maxIdle : UInt32)

def ResourceId.index (id : ResourceId) (g : Geometry) : Nat := id.node * g.laneCapacity + id.slot

/-- What the history of a run keeps of one slot. -/
structure Tenancy where
  tenant : Nat
  granted : Nat → Nat
  issued : List Lease
  leases : List Lease
  executions : List Execution

abbrev History := Nat → Tenancy

def History.init : History := fun _ => ⟨0, fun _ => 0, [], [], []⟩

/-- The leases of a generation returned and neither accepted nor cancelled, and its live
executions. -/
def Tenancy.leased (t : Tenancy) (generation : Nat) : Nat :=
  t.leases.countP fun lease => lease.id.generation = generation

def Tenancy.running (t : Tenancy) (generation : Nat) : Nat :=
  t.executions.countP fun execution => execution.lease.id.generation = generation

namespace Tenancy

def installing (t : Tenancy) (generation capacity : Nat) : Tenancy :=
  { t with tenant := generation, granted := update t.granted generation capacity }

def started (t : Tenancy) (lease : Lease) : Tenancy :=
  { t with executions := ⟨lease⟩ :: t.executions }

def reserved (t : Tenancy) (lease : Lease) : Tenancy :=
  { t with issued := lease :: t.issued, leases := lease :: t.leases }

def cancelled (t : Tenancy) (lease : Lease) : Tenancy := { t with leases := t.leases.erase lease }

def accepted (t : Tenancy) (lease : Lease) : Tenancy :=
  { t with leases := t.leases.erase lease, executions := ⟨lease⟩ :: t.executions }

def dropped (t : Tenancy) (execution : Execution) : Tenancy :=
  { t with executions := t.executions.erase execution }

end Tenancy

def record (g : Geometry) (event : Event) (h : History) : History :=
  match event with
  | .installing slot generation capacity =>
    update h slot ((h slot).installing generation capacity)
  | .started lease => update h (lease.id.index g) ((h (lease.id.index g)).started lease)
  | .reserved lease => update h (lease.id.index g) ((h (lease.id.index g)).reserved lease)
  | .cancelled lease => update h (lease.id.index g) ((h (lease.id.index g)).cancelled lease)
  | .accepted lease => update h (lease.id.index g) ((h (lease.id.index g)).accepted lease)

/-- An execution ends once: it is no longer live when its completion begins. -/
def begins (g : Geometry) (execution : Execution) (h : History) : Option History :=
  let slot := execution.lease.id.index g
  if execution ∈ (h slot).executions then
    some (update h slot ((h slot).dropped execution))
  else none

def poolSys (g : Geometry) : Sys Addr Event (Call g) History where
  body
    | .register p key capacity now => do let _ ← p.register key capacity.toNat now
    | .registerActive p key capacity now => do let _ ← p.registerActive key capacity.toNat now
    | .unregister p id => do let _ ← p.unregister id
    | .drain p id => do let _ ← p.drain id
    | .reserve p id now => do let _ ← p.reserve id now
    | .cancelReservation p lease => do let _ ← p.cancelReservation lease
    | .accept p lease => do let _ ← p.accept lease
    | .complete execution => execution.complete g
    | .completeIdle execution maxIdle => do let _ ← execution.completeIdle g maxIdle.toNat
  begins
    | .complete execution, h | .completeIdle execution _, h => begins g execution h
    | _, h => some h
  record _ _ := record g

def poolStart (g : Geometry) : Config Addr Event (Call g) History := ⟨fun _ => 0, .init, []⟩

def Call.generation? : Call g → Option Nat
  | .reserve _ id _ => some id.generation
  | .cancelReservation _ lease | .accept _ lease => some lease.id.generation
  | .complete execution | .completeIdle execution _ => some execution.lease.id.generation
  | _ => none

def Call.activates : Call g → Bool
  | .registerActive .. => true
  | _ => false

/-- Calls do not outlive the generation they were given: an id presented to `reserve` is of a
generation the slot has reached, a lease presented to `accept` or `cancel_reservation` was returned
by `reserve`, and no such call, nor the completion of an execution, writes to the units, the fence
or a pending entry of a slot once a later generation is being installed.  A fence is not minted
beyond the values of an entry, and `register_active` counts its unit before anyone else has. -/
def inTenancy (g : Geometry) : Discipline Addr (Call g) History where
  begin
    | .reserve _ id _, _, mem => id.generation ≤ mem (.generation (id.index g))
    | .cancelReservation _ lease, h, _ | .accept _ lease, h, _ => lease ∈ (h (lease.id.index g)).issued
    | _, _, _ => True
  write _ call place old new h _ :=
    match place with
    | .units slot =>
      (∀ generation ∈ call.generation?, (h slot).tenant = generation) ∧
        (call.activates → new = packCounts 0 1 → old = 0)
    | .fence slot =>
      ∀ generation ∈ call.generation?, (h slot).tenant = generation ∧ old + 1 < placing
    | .pending slot _ => ∀ generation ∈ call.generation?, (h slot).tenant = generation
    | _ => True

instance (call : Call g) (h : History) (mem : Mem Addr) :
    Decidable ((inTenancy g).begin call h mem) :=
  match call with
  | .reserve _ id _ => inferInstanceAs (Decidable (id.generation ≤ mem (.generation (id.index g))))
  | .cancelReservation _ lease | .accept _ lease =>
    inferInstanceAs (Decidable (lease ∈ (h (lease.id.index g)).issued))
  | .register .. | .registerActive .. | .unregister .. | .drain .. | .complete ..
  | .completeIdle .. => inferInstanceAs (Decidable True)

instance (thread : Nat) (call : Call g) (place : Addr) (old new : Nat) (h : History)
    (mem : Mem Addr) : Decidable ((inTenancy g).write thread call place old new h mem) :=
  match place with
  | .units slot => inferInstanceAs (Decidable
      ((∀ generation ∈ call.generation?, (h slot).tenant = generation) ∧
        (call.activates → new = packCounts 0 1 → old = 0)))
  | .fence slot => inferInstanceAs (Decidable
      (∀ generation ∈ call.generation?, (h slot).tenant = generation ∧ old + 1 < placing))
  | .pending slot _ => inferInstanceAs (Decidable
      (∀ generation ∈ call.generation?, (h slot).tenant = generation))
  | .keyState .. | .keyLo .. | .keyHi .. | .counts .. | .available .. | .admitted .. | .members ..
  | .claims .. | .admissions .. | .state .. | .ownerNode .. | .generation ..
  | .ownerIncarnation .. | .slotKeyLo .. | .slotKeyHi .. | .capacity .. | .keyIndex ..
  | .lastReserveMs .. | .sinceMs .. | .structural .. | .hint .. | .region =>
    inferInstanceAs (Decidable True)

end OrbitPool
