import Orbit.Atomic.Tasks
import Orbit.Fleet.Hands

/-! The clients and the reservations of a fleet, counted over its processes and calls, and the
invariant of its runs. -/

namespace FleetPool

open ClientPool (Entry State)
open Orbit.Atomic List
open Option hiding guard

variable {c : Config} {w : World} {node me id p : Nat} {process : Process} {task task' : Task}
  {choice : Choice} {move : Move} {lease : Lease} {resource : Resource}

def World.queue (w : World) (p : Nat) : List Nat :=
  match w.processes[p]? with
  | some process => process.state.clients
  | none => []

def handful (p id : Nat) (task : Task) : Nat :=
  if task.process = p then task.stage.clients.count id else 0

def World.clients (w : World) (p id : Nat) : Nat :=
  (w.queue p).count id + total (handful p id) w.tasks

def Table.owns (t : Table) (p id : Nat) : Bool := (t.live? id).any fun r => decide (r.owner = p)

def reserves (id : Nat) (task : Task) : Nat :=
  if (task.stage.reservation.map Lease.id) = some id then 1 else 0

def World.leases (w : World) (id : Nat) : Nat :=
  total (reserves id) w.tasks + w.offers.countP fun lease => lease.id = id

def Reserved (w : World) (lease : Lease) : Prop :=
  ∃ resource, w.table.resources[lease.id]? = some resource ∧
    resource.occupancy = .reserved lease.fence

def Stage.missing : Stage → Bool
  | .release _ (.missingLocal _) | .done (.missingLocal _) | .retire _ (.missingLocal _)
  | .abandon _ (.missingLocal _) | .failedCreate (.missingLocal _)
  | .dropPermit (.missingLocal _) => true
  | _ => false

/-- A client that is dropped under the mutex: its unit is not free, and no call looks for it. -/
def Pruned (w : World) (id : Nat) : Prop :=
  (∃ resource, w.table.resources[id]? = some resource ∧ resource.occupancy ≠ .free) ∧
    ∀ task ∈ w.tasks, task.stage.seeks ≠ some id

/-- The invariant of a run. -/
structure Possesses (w : World) : Prop where
  place : ∀ p id, w.clients p id = (w.table.owns p id).toNat
  guard : ∀ task ∈ w.tasks, ∀ id, task.stage.guard = some id →
    ∃ resource, w.table.resources[id]? = some resource ∧ resource.owner = task.process ∧
      resource.occupancy = .active
  alone : ∀ (i j : Nat) (a b : Task), w.tasks[i]? = some a → w.tasks[j]? = some b →
    ∀ id, a.stage.guard = some id → b.stage.guard = some id → i = j
  seeks : ∀ task ∈ w.tasks, ∀ id, task.stage.seeks = some id → (w.table.live? id).isSome
  reservation : ∀ task ∈ w.tasks, ∀ lease, task.stage.reservation = some lease → Reserved w lease
  offer : ∀ lease ∈ w.offers, Reserved w lease
  once : ∀ id, w.leases id ≤ 1
  pruned : ∀ task ∈ w.tasks, ∀ id ∈ task.stage.pruned, Pruned w id
  found : ∀ task ∈ w.tasks, task.stage.missing = false

def World.land (w : World) (me : Nat) (task : Task) (move : Move) : World :=
  { w with
    table := move.table
    processes := w.processes.set task.process move.process
    offers := move.offers
    tasks := w.tasks.set me { task with stage := move.stage } }

/-- A step that finds its task and its process. -/
structure Lands (c : Config) (w : World) (me : Nat) (choice : Choice) (task : Task)
    (process : Process) : Prop where
  running : w.tasks[me]? = some task
  found : w.processes[task.process]? = some process
  after : exec c w (.step me choice) =
    w.land me task (act c w me task.process process task.stage choice)

theorem land_task {i : Nat} (h : (w.land me task move).tasks[i]? = some task') :
    (i = me ∧ task' = { task with stage := move.stage }) ∨ i ≠ me ∧ w.tasks[i]? = some task' := by
  unfold World.land at h
  dsimp only at h
  by_cases hid : i = me
  · subst hid
    have hlt := (List.getElem?_eq_some_iff.mp h).1
    rw [length_set] at hlt
    rw [getElem?_set_self hlt] at h
    cases h
    exact .inl ⟨rfl, rfl⟩
  · rw [getElem?_set_ne (Ne.symm hid)] at h
    exact .inr ⟨hid, h⟩

theorem land_queue (hfound : w.processes[task.process]? = some process) :
    (w.land me task move).queue p =
      if p = task.process then move.process.state.clients else w.queue p := by
  unfold World.queue World.land
  dsimp only
  by_cases h : p = task.process
  · rw [if_pos h, h, getElem?_set_self (List.getElem?_eq_some_iff.mp hfound).1]
  · rw [if_neg h, getElem?_set_ne (Ne.symm h)]

theorem queue_self (hfound : w.processes[task.process]? = some process) :
    w.queue task.process = process.state.clients := by
  unfold World.queue
  rw [hfound]

theorem clients_self (move : Move) (hrunning : w.tasks[me]? = some task)
    (hfound : w.processes[task.process]? = some process) (id : Nat) :
    ∃ others, w.clients task.process id =
        (process.state.clients ++ task.stage.clients).count id + others ∧
      (w.land me task move).clients task.process id =
        (move.process.state.clients ++ move.stage.clients).count id + others := by
  refine ⟨totalBut (handful task.process id) w.tasks me, ?_, ?_⟩
  · rw [World.clients, queue_self hfound, total_eq hrunning, handful, if_pos rfl, count_append]
    omega
  · rw [World.clients, land_queue hfound, if_pos rfl, World.land, total_set hrunning, handful,
      if_pos rfl, count_append]
    dsimp only
    omega

theorem clients_other (hrunning : w.tasks[me]? = some task)
    (hfound : w.processes[task.process]? = some process) (hne : p ≠ task.process) (id : Nat) :
    (w.land me task move).clients p id = w.clients p id := by
  rw [World.clients, World.clients, land_queue hfound, if_neg hne, World.land, total_set hrunning,
    total_eq hrunning]
  simp only [handful, if_neg (Ne.symm hne)]

theorem leases_land (move : Move) (hrunning : w.tasks[me]? = some task) (id : Nat) :
    ∃ others, w.leases id = reserves id task + others + w.offers.countP (fun l => l.id = id) ∧
      (w.land me task move).leases id = reserves id { task with stage := move.stage } + others +
        move.offers.countP (fun l => l.id = id) := by
  refine ⟨totalBut (reserves id) w.tasks me, ?_, ?_⟩
  · rw [World.leases, total_eq hrunning]
  · rw [World.leases, World.land, total_set hrunning]

variable {t t' : Table} {resource' : Resource}

theorem live_iff :
    t.live? id = some resource ↔ t.resources[id]? = some resource ∧ resource.registered := by
  unfold Table.live?
  split
  · rename_i found hfound
    rw [hfound]
    constructor
    · intro h
      split at h
      · rename_i hregistered
        cases h
        exact ⟨rfl, hregistered⟩
      · cases h
    · rintro ⟨heq, hregistered⟩
      cases heq
      exact if_pos hregistered
  · rename_i hfound
    rw [hfound]
    exact ⟨fun h => (nomatch h), fun h => (nomatch h.1)⟩

theorem owns_iff : t.owns p id ↔ ∃ resource, t.live? id = some resource ∧ resource.owner = p := by
  unfold Table.owns
  cases t.live? id with
  | none => exact ⟨fun h => (nomatch h), fun ⟨_, h, _⟩ => (nomatch h)⟩
  | some resource =>
    rw [any_some, decide_eq_true_iff]
    exact ⟨fun h => ⟨resource, rfl, h⟩, fun ⟨_, h, howner⟩ => Option.some.inj h ▸ howner⟩

theorem resource_set (h : t.resources[id]? = some resource) (id' : Nat) :
    (t.resources.set id resource')[id']? =
      if id' = id then some resource' else t.resources[id']? := by
  split
  · rename_i heq
    rw [heq, getElem?_set_self (List.getElem?_eq_some_iff.mp h).1]
  · rename_i hne
    exact getElem?_set_ne (Ne.symm hne)

/-- A change of the unit of one resource. -/
structure Reoccupied (t t' : Table) (id : Nat) (resource resource' : Resource) : Prop where
  before : t.resources[id]? = some resource
  after : t'.resources[id]? = some resource'
  other : ∀ id', id' ≠ id → t'.resources[id']? = t.resources[id']?
  owner : resource'.owner = resource.owner
  registered : resource'.registered = resource.registered

theorem Reoccupied.mk' (h : t.resources[id]? = some resource)
    (hset : t'.resources = t.resources.set id resource') (howner : resource'.owner = resource.owner)
    (hregistered : resource'.registered = resource.registered) :
    Reoccupied t t' id resource resource' := by
  constructor
  · exact h
  · rw [hset, resource_set h, if_pos rfl]
  · intro id' hne
    rw [hset, resource_set h, if_neg hne]
  · exact howner
  · exact hregistered

theorem live_other (h : t'.resources[id]? = t.resources[id]?) : t'.live? id = t.live? id := by
  unfold Table.live?
  rw [h]

theorem Reoccupied.owns {id' : Nat} (h : Reoccupied t t' id resource resource') :
    t'.owns p id' = t.owns p id' := by
  by_cases hid : id' = id
  · subst hid
    unfold Table.owns Table.live?
    rw [h.before, h.after]
    dsimp only
    rw [h.registered]
    split
    · rw [any_some, any_some, h.owner]
    · rfl
  · unfold Table.owns
    rw [live_other (h.other id' hid)]

theorem Reoccupied.live_isSome {id' : Nat} (h : Reoccupied t t' id resource resource') :
    (t'.live? id').isSome = (t.live? id').isSome := by
  by_cases hid : id' = id
  · subst hid
    unfold Table.live?
    rw [h.before, h.after]
    dsimp only
    rw [h.registered]
    split
    · rfl
    · rfl
  · rw [live_other (h.other id' hid)]

theorem live_congr (h : t'.resources = t.resources) (id : Nat) :
    t'.live? id = t.live? id := live_other (congrArg (·[id]?) h)

theorem owns_congr (h : t'.resources = t.resources) : t'.owns p id = t.owns p id := by
  unfold Table.owns
  rw [live_congr h]

theorem Reserved.congr {w' : World} (h : w'.table.resources = w.table.resources)
    (hreserved : Reserved w lease) : Reserved w' lease := by
  obtain ⟨resource, hfound, hoccupancy⟩ := hreserved
  exact ⟨resource, (congrArg (·[lease.id]?) h).trans hfound, hoccupancy⟩

theorem Reserved.other {w' : World} (h : w'.table.resources[lease.id]? = w.table.resources[lease.id]?)
    (hreserved : Reserved w lease) : Reserved w' lease := by
  obtain ⟨resource, hfound, hoccupancy⟩ := hreserved
  exact ⟨resource, h.trans hfound, hoccupancy⟩

theorem count_pos_owned (h : Possesses w) (hpos : 0 < w.clients p id) :
    ∃ resource, w.table.live? id = some resource ∧ resource.owner = p := by
  rw [h.place p id] at hpos
  cases howns : w.table.owns p id with
  | true => exact owns_iff.mp howns
  | false =>
    rw [howns] at hpos
    cases hpos

theorem hand_owned (h : Possesses w) (htask : task ∈ w.tasks) (hid : id ∈ task.stage.clients) :
    ∃ resource, w.table.live? id = some resource ∧ resource.owner = task.process := by
  apply count_pos_owned h
  have hle := le_total htask (handful task.process id)
  rw [handful, if_pos rfl] at hle
  have hpos := count_pos_iff.mpr hid
  rw [World.clients]
  omega

theorem queue_owned (h : Possesses w) (hid : id ∈ w.queue p) :
    ∃ resource, w.table.live? id = some resource ∧ resource.owner = p := by
  apply count_pos_owned h
  have hpos := count_pos_iff.mpr hid
  rw [World.clients]
  omega

theorem queue_hand (h : Possesses w) (hid : id ∈ w.queue p) (htask : task ∈ w.tasks)
    (hprocess : task.process = p) : id ∉ task.stage.clients := by
  intro hmem
  have hle := le_total htask (handful p id)
  rw [handful, if_pos hprocess] at hle
  have hpos := count_pos_iff.mpr hmem
  have hqueue := count_pos_iff.mpr hid
  have hplace := h.place p id
  have hone := (w.table.owns p id).toNat_le
  rw [World.clients] at hplace
  omega

theorem idle_of (h : Possesses w) (hlive : w.table.live? id = some resource)
    (hhands : ∀ task ∈ w.tasks, task.process = resource.owner → id ∉ task.stage.clients) :
    id ∈ w.queue resource.owner := by
  have howns : w.table.owns resource.owner id := owns_iff.mpr ⟨resource, hlive, rfl⟩
  have hplace := h.place resource.owner id
  rw [howns, Bool.toNat_true, World.clients] at hplace
  have hzero : total (handful resource.owner id) w.tasks = 0 := by
    apply total_eq_zero
    intro task htask
    unfold handful
    split
    · rename_i hprocess
      exact List.count_eq_zero.mpr (hhands task htask hprocess)
    · rfl
  apply count_pos_iff.mp
  omega

theorem guard_live (h : Possesses w) (htask : task ∈ w.tasks) (hguard : task.stage.guard = some id)
    (hlive : w.table.live? id = some resource) :
    resource.owner = task.process ∧ resource.occupancy = .active := by
  obtain ⟨resource', hfound, howner, hactive⟩ := h.guard task htask id hguard
  rw [(live_iff.mp hlive).1] at hfound
  cases hfound
  exact ⟨howner, hactive⟩

theorem hand_busy (h : Possesses w) (htask : task ∈ w.tasks) (hid : id ∈ task.stage.clients)
    (hlive : w.table.live? id = some resource) : resource.occupancy ≠ .free := by
  rcases mem_append.mp hid with hid | hid
  · have hguard := holds_guard (mem_toList.mp hid)
    rw [(guard_live h htask hguard hlive).2]
    rintro ⟨⟩
  · obtain ⟨⟨resource', hfound, hbusy⟩, -⟩ := h.pruned task htask id hid
    rw [(live_iff.mp hlive).1] at hfound
    cases hfound
    exact hbusy

theorem reserves_eq (h : task.stage.reservation = some lease) (id : Nat) :
    reserves id task = if lease.id = id then 1 else 0 := by
  unfold reserves
  rw [h, map_some]
  by_cases hid : lease.id = id
  · rw [if_pos hid]
    exact if_pos (congrArg some hid)
  · rw [if_neg hid]
    exact if_neg fun heq => hid (Option.some.inj heq)

theorem reserves_pos (h : task.stage.reservation = some lease) : reserves lease.id task = 1 :=
  (reserves_eq h lease.id).trans (if_pos rfl)

theorem reserves_none (h : task.stage.reservation = none) (id : Nat) : reserves id task = 0 := by
  unfold reserves
  rw [h]
  exact if_neg fun heq => (nomatch heq)

theorem reservation_once (h : Possesses w) {i : Nat} (hrunning : w.tasks[me]? = some task)
    (hi : w.tasks[i]? = some task') (hne : i ≠ me) {lease' : Lease}
    (hlease : task.stage.reservation = some lease)
    (hlease' : task'.stage.reservation = some lease') : lease'.id ≠ lease.id := by
  intro hid
  have honce := h.once lease.id
  have hmem : task' ∈ w.tasks.eraseIdx me := mem_eraseIdx_iff_getElem?.mpr ⟨i, hne, hi⟩
  have hle := le_total hmem (reserves lease.id)
  rw [← hid, reserves_pos hlease', hid] at hle
  have htotal := total_eq hrunning (reserves lease.id)
  rw [reserves_pos hlease] at htotal
  rw [World.leases, htotal, totalBut] at honce
  omega

theorem offer_once (h : Possesses w) (htask : task ∈ w.tasks) {lease' : Lease}
    (hlease : task.stage.reservation = some lease) (hoffer : lease' ∈ w.offers) :
    lease'.id ≠ lease.id := by
  intro hid
  have honce := h.once lease.id
  have hle := le_total htask (reserves lease.id)
  rw [reserves_pos hlease] at hle
  have hpos : 0 < w.offers.countP (fun l => l.id = lease.id) :=
    countP_pos_iff.mpr ⟨lease', hoffer, decide_eq_true hid⟩
  rw [World.leases] at honce
  omega

end FleetPool
