import Mathlib.Data.List.Perm.Basic
import Orbit.Atomic.Sequence
import Orbit.Fleet.Clients

/-! Fleet selection and local possession: a resource is registered while its owner has one client
for it, its unit is free only while that client is idle, and a granted unit finds its client. -/

namespace FleetPool

open ClientPool (Entry State)
open Orbit.Atomic List Option

variable {c : Config} {w : World} {node me id p : Nat} {process : Process} {task task' : Task}
  {choice : Choice} {move : Move} {lease : Lease} {resource : Resource}

def World.prunes (w : World) (id : Nat) : Bool :=
  w.tasks.any fun task => decide (id ∈ task.stage.pruned)

/-- The unit of the resource is free, or it was granted to a call that has yet to find its client. -/
def World.wanted (w : World) (id : Nat) : Bool :=
  (w.table.resources[id]?.any fun resource => decide (resource.occupancy = .free)) ||
    w.tasks.any fun task => decide (task.stage.seeks = some id)

/-- A section takes no expired client that is wanted, and no unit is granted or freed while its
client is dropped under the mutex. -/
def calm (c : Config) (w : World) (node : Nat) (process : Process) (stage : Stage)
    (choice : Choice) : Bool :=
  (exposes c w node stage choice).all (fun id => !w.prunes id) &&
    (!stage.locks || process.locked.isSome || process.state.idle.all fun entry =>
      !ClientPool.expired c.local w.now entry || !w.wanted entry.client)

def settles (c : Config) (w : World) : Op → Bool
  | .step me choice =>
    match w.tasks[me]? with
    | none => true
    | some task =>
      match w.processes[task.process]? with
      | none => true
      | some process => calm c w task.process process task.stage choice
  | .join | .tick _ | .call _ _ => true

theorem exec_step (c : Config) (w : World) (me : Nat) (choice : Choice) :
    exec c w (.step me choice) = w ∧ settles c w (.step me choice) ∨
      ∃ task process, Lands c w me choice task process := by
  cases htask : w.tasks[me]? with
  | none =>
    left
    unfold settles
    rw [exec]
    dsimp only
    rw [htask]
    exact ⟨rfl, rfl⟩
  | some task =>
    cases hprocess : w.processes[task.process]? with
    | none =>
      left
      unfold settles
      rw [exec]
      dsimp only
      rw [htask]
      dsimp only
      rw [hprocess]
      exact ⟨rfl, rfl⟩
    | some process =>
      refine .inr ⟨task, process, htask, hprocess, ?_⟩
      rw [exec, htask]
      dsimp only
      rw [hprocess]
      rfl

theorem calm_exposes {stage : Stage} (h : calm c w p process stage choice)
    (hexposed : exposes c w p stage choice = some id) : ∀ t ∈ w.tasks, id ∉ t.stage.pruned := by
  unfold calm at h
  rw [hexposed] at h
  obtain ⟨hprunes, -⟩ := Bool.and_eq_true_iff.mp h
  intro t ht hid
  have hany : w.prunes id = true := List.any_eq_true.mpr ⟨t, ht, decide_eq_true hid⟩
  rw [all_some, hany] at hprunes
  cases hprunes

theorem calm_pruned {stage : Stage} (h : calm c w p process stage choice) (hlocks : stage.locks)
    (hlocked : process.locked = none) {entry : Entry} (hentry : entry ∈ process.state.idle)
    (hexpired : ClientPool.expired c.local w.now entry) :
    (∀ resource, w.table.resources[entry.client]? = some resource → resource.occupancy ≠ .free) ∧
      ∀ t ∈ w.tasks, t.stage.seeks ≠ some entry.client := by
  obtain ⟨-, hall⟩ := Bool.and_eq_true_iff.mp h
  rw [hlocks, hlocked] at hall
  have hwanted := List.all_eq_true.mp hall entry hentry
  rw [hexpired, Bool.not_true, Bool.false_or, Bool.not_eq_true', World.wanted,
    Bool.or_eq_false_iff] at hwanted
  constructor
  · intro resource hfound hfree
    have hnone := hwanted.1
    rw [hfound, any_some, hfree] at hnone
    cases hnone
  · intro t ht hseeks
    exact List.any_eq_false.mp hwanted.2 t ht (decide_eq_true hseeks)

theorem seeks_holds {stage : Stage} (h : stage.seeks = some id) : stage.holds = none := by
  cases stage with
  | lookup id' | pruning gone after => rfl
  | _ => cases h

theorem reserves_le (hkeeps : Keeps task.stage move.stage) (id : Nat) :
    reserves id { task with stage := move.stage } ≤ reserves id task := by
  unfold reserves
  split
  · rename_i hnew
    obtain ⟨lease, hlease, hid⟩ := map_eq_some_iff.mp hnew
    have hold : task.stage.reservation.map Lease.id = some id := by
      rw [hkeeps.reservation lease hlease, map_some, hid]
    exact Nat.le_of_eq (if_pos hold).symm
  · exact Nat.zero_le _

section

variable (h : Possesses w) (hlands : Lands c w me choice task process)
include h hlands

theorem alone_land (hguard : ∀ id, move.stage.guard = some id → task.stage.guard = some id ∨
      ∀ i t, i ≠ me → w.tasks[i]? = some t → t.stage.guard ≠ some id) :
    ∀ (i j : Nat) (a b : Task), (w.land me task move).tasks[i]? = some a →
      (w.land me task move).tasks[j]? = some b →
        ∀ id, a.stage.guard = some id → b.stage.guard = some id → i = j := by
  intro i j a b ha hb id hida hidb
  rcases land_task ha with ⟨hi, rfl⟩ | ⟨hi, ha⟩
  · rcases land_task hb with ⟨hj, rfl⟩ | ⟨hj, hb⟩
    · exact hi.trans hj.symm
    · rcases hguard id hida with hold | hnone
      · exact absurd (h.alone j me b task hb hlands.running id hidb hold) hj
      · exact absurd hidb (hnone j b hj hb)
  · rcases land_task hb with ⟨hj, rfl⟩ | ⟨hj, hb⟩
    · rcases hguard id hidb with hold | hnone
      · exact absurd (h.alone i me a task ha hlands.running id hida hold) hi
      · exact absurd hida (hnone i a hi ha)
    · exact h.alone i j a b ha hb id hida hidb

omit hlands in
theorem found_land (hmissing : move.stage.missing = false) :
    ∀ task' ∈ (w.land me task move).tasks, task'.stage.missing = false := by
  intro task' htask'
  rcases mem_or_eq_of_mem_set htask' with htask' | rfl
  · exact h.found task' htask'
  · exact hmissing

theorem place_land
    (hself : ∀ id, (move.process.state.clients ++ move.stage.clients).count id +
      (w.table.owns task.process id).toNat =
        (process.state.clients ++ task.stage.clients).count id +
          (move.table.owns task.process id).toNat)
    (hother : ∀ p id, p ≠ task.process → move.table.owns p id = w.table.owns p id) :
    ∀ p id, (w.land me task move).clients p id =
      ((w.land me task move).table.owns p id).toNat := by
  intro p id
  by_cases hp : p = task.process
  · subst hp
    obtain ⟨others, hbefore, hafter⟩ := clients_self move hlands.running hlands.found id
    have hplace := h.place task.process id
    have hcount := hself id
    rw [hafter]
    have htable : (w.land me task move).table = move.table := rfl
    rw [htable]
    omega
  · rw [clients_other hlands.running hlands.found hp, h.place p id]
    exact congrArg Bool.toNat (hother p id hp).symm

omit hlands in
theorem pruned_land (hnew : ∀ id ∈ move.stage.pruned, Pruned w id)
    (hstep : ∀ id, Pruned w id → ((∃ t ∈ w.tasks, id ∈ t.stage.pruned) ∨ id ∈ move.stage.pruned) →
      (∃ resource, move.table.resources[id]? = some resource ∧ resource.occupancy ≠ .free) ∧
        move.stage.seeks ≠ some id) :
    ∀ task' ∈ (w.land me task move).tasks, ∀ id ∈ task'.stage.pruned,
      Pruned (w.land me task move) id := by
  intro task' htask' id hid
  have hold : Pruned w id ∧ ((∃ t ∈ w.tasks, id ∈ t.stage.pruned) ∨ id ∈ move.stage.pruned) := by
    rcases mem_or_eq_of_mem_set htask' with htask' | rfl
    · exact ⟨h.pruned task' htask' id hid, .inl ⟨task', htask', hid⟩⟩
    · exact ⟨hnew id hid, .inr hid⟩
  obtain ⟨hbusy, hseeks⟩ := hstep id hold.1 hold.2
  refine ⟨hbusy, fun t ht => ?_⟩
  rcases mem_or_eq_of_mem_set ht with ht | rfl
  · exact hold.1.2 t ht
  · exact hseeks

theorem Possesses.carries (hresources : move.table.resources = w.table.resources)
    (hclients : (move.process.state.clients ++ move.stage.clients).Perm
      (process.state.clients ++ task.stage.clients))
    (hguard : ∀ id, move.stage.guard = some id → task.stage.guard = some id)
    (hseeks : ∀ id, move.stage.seeks = some id → task.stage.seeks = some id)
    (hreservation : ∀ lease, move.stage.reservation = some lease → Reserved w lease)
    (hoffers : ∀ lease ∈ move.offers, Reserved w lease)
    (honce : ∀ id, reserves id { task with stage := move.stage } +
        move.offers.countP (fun lease => lease.id = id) ≤
      reserves id task + w.offers.countP fun lease => lease.id = id)
    (hpruned : ∀ id ∈ move.stage.pruned, Pruned w id) (hmissing : move.stage.missing = false) :
    Possesses (w.land me task move) := by
  have hmem := mem_of_getElem? hlands.running
  constructor
  · refine place_land h hlands (fun id => ?_) fun p id _ => owns_congr hresources
    rw [owns_congr hresources, hclients.count_eq]
  · intro task' htask' id hid
    have hland : (w.land me task move).table.resources = w.table.resources := hresources
    rw [hland]
    rcases mem_or_eq_of_mem_set htask' with htask' | rfl
    · exact h.guard task' htask' id hid
    · exact h.guard task hmem id (hguard id hid)
  · exact alone_land h hlands fun id hid => .inl (hguard id hid)
  · intro task' htask' id hid
    have hlive : (w.land me task move).table.live? id = w.table.live? id := live_congr hresources id
    rw [hlive]
    rcases mem_or_eq_of_mem_set htask' with htask' | rfl
    · exact h.seeks task' htask' id hid
    · exact h.seeks task hmem id (hseeks id hid)
  · intro task' htask' lease hlease
    apply Reserved.congr hresources
    rcases mem_or_eq_of_mem_set htask' with htask' | rfl
    · exact h.reservation task' htask' lease hlease
    · exact hreservation lease hlease
  · exact fun lease hlease => (hoffers lease hlease).congr hresources
  · intro id
    obtain ⟨others, hbefore, hafter⟩ := leases_land move hlands.running id
    have hold := h.once id
    have hle := honce id
    rw [hafter]
    omega
  · refine pruned_land h hpruned fun id hid _ => ⟨?_, fun hsought => ?_⟩
    · rw [hresources]
      exact hid.1
    · exact hid.2 task hmem (hseeks id hsought)
  · exact found_land h hmissing

theorem Possesses.moves (hcalm : calm c w task.process process task.stage choice)
    (hresources : move.table.resources = w.table.resources) (hoffers : move.offers = w.offers)
    (hkeeps : Keeps task.stage move.stage)
    (hclients : (move.process.state.clients ++ move.stage.clients).Perm
      (process.state.clients ++ task.stage.clients))
    (hpruned : ∀ id ∈ move.stage.pruned, id ∈ task.stage.pruned ∨ (task.stage.locks ∧
      process.locked = none ∧ ∃ entry ∈ process.state.idle,
        ClientPool.expired c.local w.now entry ∧ entry.client = id))
    (hmissing : move.stage.missing = false) : Possesses (w.land me task move) := by
  have hmem := mem_of_getElem? hlands.running
  refine h.carries hlands hresources hclients hkeeps.guard hkeeps.seeks (fun lease hlease => ?_)
    (fun lease hlease => ?_) (fun id => ?_) (fun id hid => ?_) hmissing
  · exact h.reservation task hmem lease (hkeeps.reservation lease hlease)
  · exact h.offer lease (hoffers ▸ hlease)
  · rw [hoffers]
    exact Nat.add_le_add_right (reserves_le hkeeps id) _
  · rcases hpruned id hid with hid | ⟨hlocks, hlocked, entry, hentry, hexpired, rfl⟩
    · exact h.pruned task hmem id hid
    · obtain ⟨hbusy, hunsought⟩ := calm_pruned hcalm hlocks hlocked hentry hexpired
      have hqueue : entry.client ∈ w.queue task.process := by
        rw [queue_self hlands.found]
        exact List.mem_map.mpr ⟨entry, hentry, rfl⟩
      obtain ⟨resource, hlive, -⟩ := queue_owned h hqueue
      have hfound := (live_iff.mp hlive).1
      exact ⟨⟨resource, hfound, hbusy resource hfound⟩, hunsought⟩

theorem Possesses.send (hreservation : task.stage.reservation = some lease)
    (hresources : move.table.resources = w.table.resources)
    (hoffers : move.offers = w.offers ++ [lease]) (hstate : move.process.state = process.state)
    (hbefore : task.stage.clients = []) (hafter : move.stage.empty)
    (hmissing : move.stage.missing = false) : Possesses (w.land me task move) := by
  have hreserved := h.reservation task (mem_of_getElem? hlands.running) lease hreservation
  obtain ⟨hclients, hpruned, hguard, hnone⟩ := hafter
  refine h.carries hlands hresources (.of_eq ?_) (fun id hid => ?_) (fun id hid => ?_)
    (fun lease' hlease' => ?_) (fun lease' hlease' => ?_) (fun id => ?_) (fun id hid => ?_) hmissing
  · rw [hstate, hbefore, hclients]
  · rw [hguard] at hid
    cases hid
  · rw [seeks_guard hid] at hguard
    cases hguard
  · rw [hnone] at hlease'
    cases hlease'
  · rw [hoffers] at hlease'
    rcases mem_append.mp hlease' with hold | hnew
    · exact h.offer lease' hold
    · rw [mem_singleton.mp hnew]
      exact hreserved
  · have hnew : reserves id { task with stage := move.stage } = 0 := reserves_none hnone id
    rw [hnew, reserves_eq hreservation, hoffers, countP_append, countP_singleton]
    simp only [decide_eq_true_eq]
    omega
  · rw [hpruned] at hid
    cases hid

theorem Possesses.receive {offer : Nat} (hbefore : task.stage.empty)
    (hfound : w.offers[offer]? = some lease)
    (hresources : move.table.resources = w.table.resources)
    (hoffers : move.offers = w.offers.eraseIdx offer) (hstate : move.process.state = process.state)
    (hnext : move.stage = .acceptOffered lease) : Possesses (w.land me task move) := by
  obtain ⟨hlt, hget⟩ := List.getElem?_eq_some_iff.mp hfound
  have hperm := getElem_cons_eraseIdx_perm hlt
  rw [hget] at hperm
  refine h.carries hlands hresources (.of_eq ?_) (fun id hid => ?_) (fun id hid => ?_)
    (fun lease' hlease' => ?_) (fun lease' hlease' => ?_) (fun id => ?_) (fun id hid => ?_) ?_
  · rw [hstate, hnext, hbefore.1]
    rfl
  · rw [hnext] at hid
    cases hid
  · rw [hnext] at hid
    cases hid
  · rw [hnext] at hlease'
    cases hlease'
    exact h.offer lease (mem_of_getElem? hfound)
  · rw [hoffers] at hlease'
    exact h.offer lease' (List.mem_of_mem_eraseIdx hlease')
  · have hcount := hperm.countP_eq fun lease => decide (lease.id = id)
    rw [countP_cons] at hcount
    have hnew : reserves id { task with stage := move.stage } = if lease.id = id then 1 else 0 :=
      reserves_eq (hnext ▸ rfl) id
    rw [hnew, hoffers, ← hcount]
    simp only [decide_eq_true_eq]
    omega
  · rw [hnext] at hid
    cases hid
  · rw [hnext]
    rfl

theorem Possesses.reoccupies {resource' : Resource}
    (hset : Reoccupied w.table move.table id resource resource')
    (hoffers : move.offers = w.offers) (hstate : move.process.state = process.state)
    (hclients : move.stage.clients = task.stage.clients) (hpruned : move.stage.pruned = [])
    (hothers : ∀ i t, i ≠ me → w.tasks[i]? = some t → t.stage.guard ≠ some id)
    (hguard : ∀ id', move.stage.guard = some id' →
      id' = id ∧ resource'.owner = task.process ∧ resource'.occupancy = .active)
    (hseeks : move.stage.seeks = some id → (w.table.live? id).isSome)
    (hreserved : ∀ i t lease, i ≠ me → w.tasks[i]? = some t → t.stage.reservation = some lease →
      lease.id ≠ id)
    (hoffered : ∀ lease ∈ w.offers, lease.id ≠ id)
    (hreservation : ∀ lease, move.stage.reservation = some lease →
      lease.id = id ∧ resource'.occupancy = .reserved lease.fence)
    (hunpruned : resource'.occupancy = .free ∨ move.stage.seeks = some id →
      ∀ t ∈ w.tasks, id ∉ t.stage.pruned)
    (hmissing : move.stage.missing = false) : Possesses (w.land me task move) := by
  -- what another resource has is what it had
  have hland : ∀ id', id' ≠ id →
      (w.land me task move).table.resources[id']? = w.table.resources[id']? := hset.other
  constructor
  · refine place_land h hlands (fun id' => ?_) fun p id' _ => hset.owns
    rw [hset.owns, hstate, hclients]
  · intro task' htask' id' hid'
    obtain ⟨i, hi⟩ := getElem?_of_mem htask'
    rcases land_task hi with ⟨-, rfl⟩ | ⟨hne, hi⟩
    · obtain ⟨rfl, howner, hactive⟩ := hguard id' hid'
      exact ⟨resource', hset.after, howner, hactive⟩
    · have hid : id' ≠ id := by
        rintro rfl
        exact hothers i task' hne hi hid'
      rw [hland id' hid]
      exact h.guard task' (mem_of_getElem? hi) id' hid'
  · refine alone_land h hlands fun id' hid' => .inr fun i t hne hi => ?_
    rw [(hguard id' hid').1]
    exact hothers i t hne hi
  · intro task' htask' id' hid'
    have hlive : ((w.land me task move).table.live? id').isSome = (w.table.live? id').isSome :=
      hset.live_isSome
    rw [hlive]
    rcases mem_or_eq_of_mem_set htask' with htask' | rfl
    · exact h.seeks task' htask' id' hid'
    · obtain ⟨rfl, -⟩ := hguard id' (seeks_guard hid')
      exact hseeks hid'
  · intro task' htask' lease hlease
    obtain ⟨i, hi⟩ := getElem?_of_mem htask'
    rcases land_task hi with ⟨-, rfl⟩ | ⟨hne, hi⟩
    · obtain ⟨hid, hoccupancy⟩ := hreservation lease hlease
      refine ⟨resource', ?_, hoccupancy⟩
      rw [hid]
      exact hset.after
    · have hid := hreserved i task' lease hne hi hlease
      exact (h.reservation task' (mem_of_getElem? hi) lease hlease).other (hland lease.id hid)
  · intro lease hlease
    have hlease : lease ∈ w.offers := hoffers ▸ hlease
    exact (h.offer lease hlease).other (hland lease.id (hoffered lease hlease))
  · intro id'
    by_cases hid : id' = id
    · subst hid
      have hbut : totalBut (reserves id') w.tasks me = 0 := by
        refine total_eq_zero fun t ht => ?_
        obtain ⟨i, hne, hi⟩ := mem_eraseIdx_iff_getElem?.mp ht
        refine if_neg fun hsome => ?_
        obtain ⟨lease, hlease, hid⟩ := map_eq_some_iff.mp hsome
        exact hreserved i t lease hne hi hlease hid
      have hcount : w.offers.countP (fun lease => lease.id = id') = 0 :=
        countP_eq_zero.mpr fun lease hlease hid =>
          hoffered lease hlease (of_decide_eq_true hid)
      have hone : reserves id' { task with stage := move.stage } ≤ 1 := by
        unfold reserves
        split
        · exact Nat.le_refl 1
        · exact Nat.zero_le 1
      have hleases : (w.land me task move).leases id' = reserves id' { task with stage := move.stage } +
          totalBut (reserves id') w.tasks me + w.offers.countP fun lease => lease.id = id' := by
        rw [World.leases, World.land, total_set hlands.running, hoffers]
      omega
    · obtain ⟨others, hbefore, hafter⟩ := leases_land move hlands.running id'
      have hnone : reserves id' { task with stage := move.stage } = 0 := by
        refine if_neg fun hsome => ?_
        obtain ⟨lease, hlease, rfl⟩ := map_eq_some_iff.mp hsome
        exact hid (hreservation lease hlease).1
      have hold := h.once id'
      rw [hafter, hoffers]
      omega
  · refine pruned_land h (fun id' hid' => ?_) fun id' hid' hhold => ?_
    · rw [hpruned] at hid'
      cases hid'
    · have hold : ∃ t ∈ w.tasks, id' ∈ t.stage.pruned := by
        rcases hhold with hhold | hnew
        · exact hhold
        · rw [hpruned] at hnew
          cases hnew
      obtain ⟨t, ht, hidt⟩ := hold
      have hsought : move.stage.seeks ≠ some id' := by
        intro hsought
        obtain ⟨rfl, -⟩ := hguard id' (seeks_guard hsought)
        exact hunpruned (.inr hsought) t ht hidt
      refine ⟨?_, hsought⟩
      by_cases hid : id' = id
      · subst hid
        exact ⟨resource', hset.after, fun hfree => hunpruned (.inl hfree) t ht hidt⟩
      · rw [hset.other id' hid]
        exact hid'.1
  · exact found_land h hmissing

omit hlands in
theorem guard_none (hfound : w.table.resources[id]? = some resource)
    (hinactive : resource.occupancy ≠ .active) : ∀ t ∈ w.tasks, t.stage.guard ≠ some id := by
  intro t ht hguard
  obtain ⟨resource', hfound', -, hactive⟩ := h.guard t ht id hguard
  rw [hfound] at hfound'
  cases hfound'
  exact hinactive hactive

omit h hlands in
theorem Reserved.ne (hreserved : Reserved w lease) (hfound : w.table.resources[id]? = some resource)
    (hunreserved : ∀ fence, resource.occupancy ≠ .reserved fence) : lease.id ≠ id := by
  rintro rfl
  obtain ⟨resource', hfound', hoccupancy⟩ := hreserved
  rw [hfound] at hfound'
  cases hfound'
  exact hunreserved lease.fence hoccupancy

theorem Possesses.reserve (hlive : w.table.live? lease.id = some resource)
    (hfree : resource.occupancy = .free)
    (hresources : move.table.resources = w.table.resources.set lease.id
      { resource with occupancy := .reserved lease.fence, fence := lease.fence })
    (hoffers : move.offers = w.offers) (hstate : move.process.state = process.state)
    (hbefore : task.stage.clients = []) (hafter : move.stage.clients = [] ∧ move.stage.guard = none)
    (hnext : move.stage.reservation = some lease) (hmissing : move.stage.missing = false) :
    Possesses (w.land me task move) := by
  have hfound := (live_iff.mp hlive).1
  have hset := Reoccupied.mk' hfound hresources rfl rfl
  have hinactive : resource.occupancy ≠ .active := by
    rw [hfree]
    rintro ⟨⟩
  have hunreserved : ∀ fence, resource.occupancy ≠ .reserved fence := by
    rw [hfree]
    rintro fence ⟨⟩
  have hguard : ∀ id, move.stage.guard ≠ some id := by
    rw [hafter.2]
    rintro id ⟨⟩
  refine h.reoccupies hlands hset hoffers hstate (hafter.1.trans hbefore.symm)
    (append_eq_nil_iff.mp hafter.1).2 (fun i t _ hi => ?_)
    (fun id' hid' => absurd hid' (hguard id'))
    (fun hseeks => absurd (seeks_guard hseeks) (hguard lease.id)) (fun i t lease' _ hi hlease' => ?_)
    (fun lease' hlease' => ?_) (fun lease' hlease' => ?_) (fun hor => ?_) hmissing
  · exact guard_none h hfound hinactive t (mem_of_getElem? hi)
  · exact (h.reservation t (mem_of_getElem? hi) lease' hlease').ne hfound hunreserved
  · exact (h.offer lease' hlease').ne hfound hunreserved
  · rw [hnext] at hlease'
    cases hlease'
    exact ⟨rfl, rfl⟩
  · rcases hor with ⟨⟨⟩⟩ | hseeks
    exact absurd (seeks_guard hseeks) (hguard lease.id)

theorem Possesses.settle {resource' : Resource} (hreservation : task.stage.reservation = some lease)
    (hfound : w.table.resources[lease.id]? = some resource)
    (hreserved : resource.occupancy = .reserved lease.fence)
    (hset : Reoccupied w.table move.table lease.id resource resource')
    (hoffers : move.offers = w.offers) (hstate : move.process.state = process.state)
    (hbefore : task.stage.clients = []) (hafter : move.stage.clients = [])
    (hnext : move.stage.reservation = none)
    (hguard : ∀ id, move.stage.guard = some id →
      id = lease.id ∧ resource'.owner = task.process ∧ resource'.occupancy = .active)
    (hseeks : move.stage.seeks = some lease.id → (w.table.live? lease.id).isSome)
    (hunpruned : ∀ t ∈ w.tasks, lease.id ∉ t.stage.pruned) (hmissing : move.stage.missing = false) :
    Possesses (w.land me task move) := by
  have hmem := mem_of_getElem? hlands.running
  have hinactive : resource.occupancy ≠ .active := by
    rw [hreserved]
    rintro ⟨⟩
  refine h.reoccupies hlands hset hoffers hstate (hafter.trans hbefore.symm)
    (append_eq_nil_iff.mp hafter).2 (fun i t _ hi => ?_) hguard hseeks
    (fun i t lease' hne hi hlease' => ?_) (fun lease' hlease' => ?_) (fun lease' hlease' => ?_)
    (fun _ => hunpruned) hmissing
  · exact guard_none h hfound hinactive t (mem_of_getElem? hi)
  · exact reservation_once h hlands.running hi hne hreservation hlease'
  · exact offer_once h hmem hreservation hlease'
  · rw [hnext] at hlease'
    cases hlease'

theorem Possesses.free (hguard : task.stage.guard = some id)
    (hlive : w.table.live? id = some resource)
    (hresources : move.table.resources = w.table.resources.set id { resource with
      occupancy := if resource.occupancy = .active then .free else resource.occupancy })
    (hoffers : move.offers = w.offers) (hstate : move.process.state = process.state)
    (hbefore : task.stage.clients = []) (hafter : move.stage.empty)
    (hunpruned : ∀ t ∈ w.tasks, id ∉ t.stage.pruned) (hmissing : move.stage.missing = false) :
    Possesses (w.land me task move) := by
  have hfound := (live_iff.mp hlive).1
  have hactive := (guard_live h (mem_of_getElem? hlands.running) hguard hlive).2
  have hunreserved : ∀ fence, resource.occupancy ≠ .reserved fence := by
    rw [hactive]
    rintro fence ⟨⟩
  obtain ⟨hclients, hpruned, hguardless, hreservation⟩ := hafter
  have hunguarded : ∀ id, move.stage.guard ≠ some id := by
    rw [hguardless]
    rintro id ⟨⟩
  refine h.reoccupies hlands (Reoccupied.mk' hfound hresources rfl rfl) hoffers hstate
    (hclients.trans hbefore.symm) hpruned (fun i t hne hi hid => ?_)
    (fun id' hid' => absurd hid' (hunguarded id'))
    (fun hseeks => absurd (seeks_guard hseeks) (hunguarded id)) (fun i t lease _ hi hlease => ?_)
    (fun lease hlease => ?_) (fun lease hlease => ?_) (fun _ => hunpruned) hmissing
  · exact hne (h.alone i me t task hi hlands.running id hid hguard)
  · exact (h.reservation t (mem_of_getElem? hi) lease hlease).ne hfound hunreserved
  · exact (h.offer lease hlease).ne hfound hunreserved
  · rw [hreservation] at hlease
    cases hlease

theorem Possesses.register {entry : Entry} {warm : Bool}
    (htable : move.table = (w.table.registerActive task.process).2) (hoffers : move.offers = w.offers)
    (hstate : move.process.state = process.state) (hbefore : task.stage.empty)
    (hnext : move.stage = .created warm entry) (hid : entry.client = w.table.resources.length) :
    Possesses (w.land me task move) := by
  have hold : ∀ {id : Nat} {resource : Resource}, w.table.resources[id]? = some resource →
      move.table.resources[id]? = some resource := by
    intro id resource hfound
    have hlt := (List.getElem?_eq_some_iff.mp hfound).1
    rw [htable]
    exact (getElem?_append_left hlt).trans hfound
  have hnew : move.table.resources[entry.client]? = some ⟨task.process, true, .active, 0⟩ := by
    rw [htable, hid]
    exact getElem?_concat_length
  have hnone : w.table.resources[entry.client]? = none := by
    rw [hid]
    exact List.getElem?_eq_none_iff.mpr (Nat.le_refl _)
  have hlive : ∀ id, id ≠ entry.client → move.table.live? id = w.table.live? id := by
    intro id hne
    apply live_other
    cases hfound : w.table.resources[id]? with
    | some resource => exact hold hfound
    | none =>
      have hle := List.getElem?_eq_none_iff.mp hfound
      have hlength : move.table.resources.length = w.table.resources.length + 1 := by
        rw [htable]
        exact length_append
      apply List.getElem?_eq_none_iff.mpr
      omega
  obtain ⟨hclients, hpruned, hguard, hreservation⟩ := hbefore
  have hunowned : ∀ p, w.table.owns p entry.client = false := by
    intro p
    unfold Table.owns Table.live?
    rw [hnone]
    rfl
  constructor
  · refine place_land h hlands (fun id => ?_) fun p id hp => ?_
    · rw [hstate, hnext, hclients, append_nil, count_append]
      have hcount : (Stage.created warm entry).clients.count id =
          if id = entry.client then 1 else 0 := by
        change [entry.client].count id = _
        rw [count_singleton]
        by_cases hsame : id = entry.client
        · rw [if_pos hsame, if_pos (beq_iff_eq.mpr hsame.symm)]
        · rw [if_neg hsame, if_neg (fun heq => hsame (beq_iff_eq.mp heq).symm)]
      rw [hcount]
      by_cases hsame : id = entry.client
      · subst hsame
        have howns : move.table.owns task.process entry.client = true :=
          owns_iff.mpr ⟨_, live_iff.mpr ⟨hnew, rfl⟩, rfl⟩
        rw [howns, hunowned, if_pos rfl]
        rfl
      · unfold Table.owns
        rw [hlive id hsame, if_neg hsame]
        rfl
    · by_cases hsame : id = entry.client
      · subst hsame
        rw [hunowned]
        unfold Table.owns
        rw [live_iff.mpr ⟨hnew, rfl⟩, any_some]
        exact decide_eq_false (Ne.symm hp)
      · unfold Table.owns
        rw [hlive id hsame]
  · intro task' htask' id hid
    rcases mem_or_eq_of_mem_set htask' with htask' | rfl
    · obtain ⟨resource, hfound, howner⟩ := h.guard task' htask' id hid
      exact ⟨resource, hold hfound, howner⟩
    · rw [hnext] at hid
      cases hid
      exact ⟨_, hnew, rfl, rfl⟩
  · refine alone_land h hlands fun id hid => .inr fun i t _ hi ht => ?_
    rw [hnext] at hid
    cases hid
    obtain ⟨resource, hfound, -⟩ := h.guard t (mem_of_getElem? hi) entry.client ht
    rw [hnone] at hfound
    cases hfound
  · intro task' htask' id hid
    rcases mem_or_eq_of_mem_set htask' with htask' | rfl
    · have hsome := h.seeks task' htask' id hid
      obtain ⟨resource, hsome⟩ := isSome_iff_exists.mp hsome
      obtain ⟨hfound, hregistered⟩ := live_iff.mp hsome
      exact isSome_iff_exists.mpr ⟨resource, live_iff.mpr ⟨hold hfound, hregistered⟩⟩
    · rw [hnext] at hid
      cases hid
  · intro task' htask' lease hlease
    rcases mem_or_eq_of_mem_set htask' with htask' | rfl
    · obtain ⟨resource, hfound, hoccupancy⟩ := h.reservation task' htask' lease hlease
      exact ⟨resource, hold hfound, hoccupancy⟩
    · rw [hnext] at hlease
      cases hlease
  · intro lease hlease
    have hlease : lease ∈ w.offers := hoffers ▸ hlease
    obtain ⟨resource, hfound, hoccupancy⟩ := h.offer lease hlease
    exact ⟨resource, hold hfound, hoccupancy⟩
  · intro id
    obtain ⟨others, hbefore, hafter⟩ := leases_land move hlands.running id
    have honce := h.once id
    have hzero : reserves id { task with stage := move.stage } = 0 := by
      rw [hnext]
      exact if_neg fun h => (nomatch h)
    rw [hafter, hoffers]
    omega
  · refine pruned_land h (fun id hid => ?_) fun id hid _ => ⟨?_, ?_⟩
    · rw [hnext] at hid
      cases hid
    · obtain ⟨resource, hfound, hbusy⟩ := hid.1
      exact ⟨resource, hold hfound, hbusy⟩
    · rw [hnext]
      rintro ⟨⟩
  · apply found_land h
    rw [hnext]
    rfl

theorem Possesses.unregister (htable : move.table = w.table.unregister task.process id)
    (hoffers : move.offers = w.offers) (hstate : move.process.state = process.state)
    (hkeeps : Keeps task.stage move.stage)
    (hclients : task.stage.clients.Perm (id :: move.stage.clients))
    (hholder : task.stage.holds = some id ∨ id ∈ task.stage.pruned)
    (hpruned : ∀ id ∈ move.stage.pruned, id ∈ task.stage.pruned)
    (hmissing : move.stage.missing = false) : Possesses (w.land me task move) := by
  have hmem := mem_of_getElem? hlands.running
  have hhand : id ∈ task.stage.clients := hclients.symm.subset mem_cons_self
  obtain ⟨resource, hlive, howner⟩ := hand_owned h hmem hhand
  have hfound := (live_iff.mp hlive).1
  have hset : move.table.resources =
      w.table.resources.set id { resource with registered := false } := by
    rw [htable, Table.unregister, hlive]
    exact congrArg Table.resources (if_neg (not_not_intro howner))
  have hafter : ∀ id', move.table.resources[id']? =
      if id' = id then some { resource with registered := false } else w.table.resources[id']? := by
    intro id'
    rw [hset]
    exact resource_set hfound id'
  have hother : ∀ id', id' ≠ id → move.table.resources[id']? = w.table.resources[id']? := by
    intro id' hne
    rw [hafter id', if_neg hne]
  -- a resource keeps its owner and its unit
  have hsame : ∀ {id' : Nat} {resource' : Resource}, w.table.resources[id']? = some resource' →
      ∃ after, move.table.resources[id']? = some after ∧ after.owner = resource'.owner ∧
        after.occupancy = resource'.occupancy := by
    intro id' resource' hfound'
    by_cases hid : id' = id
    · subst hid
      rw [hfound] at hfound'
      cases hfound'
      exact ⟨_, (hafter id').trans (if_pos rfl), rfl, rfl⟩
    · exact ⟨resource', (hother id' hid).trans hfound', rfl, rfl⟩
  have hgone : move.table.live? id = none := by
    unfold Table.live?
    rw [hafter id, if_pos rfl]
    rfl
  -- who seeks the client would have its execution
  have hseek : ∀ task' ∈ w.tasks, task'.stage.seeks ≠ some id := by
    intro task' htask' hseeks
    rcases hholder with hholds | hid
    · obtain ⟨j, hj⟩ := getElem?_of_mem htask'
      have hsame := h.alone me j task task' hlands.running hj id (holds_guard hholds)
        (seeks_guard hseeks)
      subst hsame
      rw [hlands.running] at hj
      cases hj
      rw [seeks_holds hseeks] at hholds
      cases hholds
    · exact (h.pruned task hmem id hid).2 task' htask' hseeks
  have hreserved : ∀ lease, Reserved w lease → Reserved (w.land me task move) lease := by
    rintro lease ⟨resource', hfound', hoccupancy⟩
    obtain ⟨after, hland, -, hunit⟩ := hsame hfound'
    exact ⟨after, hland, hunit.trans hoccupancy⟩
  constructor
  · refine place_land h hlands (fun id' => ?_) fun p id' hp => ?_
    · rw [hstate, count_append, count_append, hclients.count_eq, count_cons]
      by_cases hid : id' = id
      · subst hid
        have hbefore : w.table.owns task.process id' = true :=
          owns_iff.mpr ⟨resource, hlive, howner⟩
        have hafter : move.table.owns task.process id' = false := by
          unfold Table.owns
          rw [hgone]
          rfl
        rw [hbefore, hafter, if_pos (beq_self_eq_true id')]
        rfl
      · have hsame : move.table.owns task.process id' = w.table.owns task.process id' := by
          unfold Table.owns
          rw [live_other (hother id' hid)]
        have hne : ¬(id == id') = true := fun heq => hid (beq_iff_eq.mp heq).symm
        rw [hsame, if_neg hne]
        rfl
    · by_cases hid : id' = id
      · subst hid
        unfold Table.owns
        rw [hgone, hlive, any_some, howner]
        exact (decide_eq_false (Ne.symm hp)).symm
      · unfold Table.owns
        rw [live_other (hother id' hid)]
  · intro task' htask' id' hguard
    have hold : ∃ resource, w.table.resources[id']? = some resource ∧
        resource.owner = task'.process ∧ resource.occupancy = .active := by
      rcases mem_or_eq_of_mem_set htask' with htask' | rfl
      · exact h.guard task' htask' id' hguard
      · exact h.guard task hmem id' (hkeeps.guard id' hguard)
    obtain ⟨resource', hfound', howner', hactive'⟩ := hold
    obtain ⟨after, hland, hown, hunit⟩ := hsame hfound'
    exact ⟨after, hland, hown.trans howner', hunit.trans hactive'⟩
  · exact alone_land h hlands fun id hid => .inl (hkeeps.guard id hid)
  · intro task' htask' id' hseeks
    have hold : id' ≠ id ∧ (w.table.live? id').isSome := by
      rcases mem_or_eq_of_mem_set htask' with htask' | rfl
      · refine ⟨?_, h.seeks task' htask' id' hseeks⟩
        rintro rfl
        exact hseek task' htask' hseeks
      · have hseeks := hkeeps.seeks id' hseeks
        refine ⟨?_, h.seeks task hmem id' hseeks⟩
        rintro rfl
        exact hseek task hmem hseeks
    have hland : (w.land me task move).table.live? id' = w.table.live? id' :=
      live_other (hother id' hold.1)
    rw [hland]
    exact hold.2
  · intro task' htask' lease hlease
    apply hreserved lease
    rcases mem_or_eq_of_mem_set htask' with htask' | rfl
    · exact h.reservation task' htask' lease hlease
    · exact h.reservation task hmem lease (hkeeps.reservation lease hlease)
  · exact fun lease hlease => hreserved lease (h.offer lease (hoffers ▸ hlease))
  · intro id'
    obtain ⟨others, hbefore, hafter⟩ := leases_land move hlands.running id'
    have honce := h.once id'
    have hle := reserves_le hkeeps id'
    rw [hafter, hoffers]
    omega
  · refine pruned_land h (fun id' hid' => h.pruned task hmem id' (hpruned id' hid'))
      fun id' hid _ => ⟨?_, fun hsought => hid.2 task hmem (hkeeps.seeks id' hsought)⟩
    obtain ⟨resource', hfound', hbusy⟩ := hid.1
    obtain ⟨after, hland, -, hunit⟩ := hsame hfound'
    exact ⟨after, hland, hunit ▸ hbusy⟩
  · exact found_land h hmissing

end

end FleetPool
