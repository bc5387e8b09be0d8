import Orbit.Atomic.Sequence
import Orbit.Fleet.Possession

/-! Fleet selection and local possession agree over a whole run: a resource is registered while its
owner has one client for it, its unit is free only while that client is idle, and whoever is granted
the unit finds the client. -/

namespace FleetPool

open ClientPool (Entry State)
open Orbit.Atomic Option
open List hiding drop take

variable {c : Config} {w : World} {node me id p : Nat} {process : Process} {stage : Stage}
  {task : Task} {choice : Choice} {resource : Resource}

theorem free_idle (h : Possesses w) (hlive : w.table.live? id = some resource)
    (hfree : resource.occupancy = .free) : id ∈ w.queue resource.owner :=
  idle_of h hlive fun _ ht _ hid => hand_busy h ht hid hlive hfree

theorem granted_idle (h : Possesses w) (htask : task ∈ w.tasks) (hseeks : task.stage.seeks = some id) :
    id ∈ w.queue task.process := by
  obtain ⟨resource, hlive⟩ := isSome_iff_exists.mp (h.seeks task htask id hseeks)
  have hguard := seeks_guard hseeks
  rw [← (guard_live h htask hguard hlive).1]
  refine idle_of h hlive fun t ht _ hid => ?_
  rcases mem_append.mp hid with hid | hid
  · have hholds := mem_toList.mp hid
    obtain ⟨i, hi⟩ := getElem?_of_mem htask
    obtain ⟨j, hj⟩ := getElem?_of_mem ht
    have hsame := h.alone i j task t hi hj id hguard (holds_guard hholds)
    subst hsame
    rw [hi] at hj
    cases hj
    rw [seeks_holds hseeks] at hholds
    cases hholds
  · exact (h.pruned t ht id hid).2 task htask hseeks

theorem awaits_missing (h : stage.missing = false) {next : Stage} (hnext : next.missing = false) :
    (awaits stage next choice).missing = false := by
  cases choice with
  | go | ok => exact hnext
  | fail | drop => rfl
  | reuse id | create | wait | reject | take offer => exact h

theorem section_missing (h : stage.missing = false) {body : State → Stage × State}
    (hbody : ∀ s, (body s).1.missing = false) : (process.section stage body).1.missing = false := by
  unfold Process.section
  split
  · exact h
  · exact hbody _

theorem lock_missing (h : stage.missing = false) (after : After) :
    (w.lock c me process stage after).stage.missing = false := by
  unfold World.lock
  split
  · exact h
  · rfl

theorem acceptLease_missing (lease : Lease) :
    (w.acceptLease node process lease).stage.missing = false := by
  unfold World.acceptLease World.with
  dsimp only
  split
  · rfl
  · rfl

theorem plan_missing (attempts : Nat) : (w.plan c node process attempts choice).stage.missing = false := by
  cases choice with
  | reuse id =>
    unfold World.plan
    dsimp only
    split
    · dsimp only [World.with]
      split
      · rfl
      · rfl
    · rfl
  | create =>
    unfold World.plan World.with
    dsimp only
    split
    · rfl
    · rfl
  | go | ok | fail | drop | wait | reject | take offer => rfl

theorem search_missing (hid : id ∈ process.state.clients) :
    (finishSection c process (.search id)).1.missing = false := by
  unfold finishSection
  dsimp only
  rcases idleTurn_cases c.local (fun client => client = id) process.state with
    ⟨entry, idle, -, hturn⟩ | ⟨hnone, -⟩ | hturn | hturn
  · rw [hturn]
    rfl
  · obtain ⟨entry, hentry, hclient⟩ := List.mem_map.mp hid
    exact absurd hclient (of_decide_eq_false (takeIdle_none hnone entry hentry))
  · rw [hturn]
    rfl
  · rw [hturn]
    rfl

theorem createTurn_missing (warm : Bool) (action : ClientPool.Action) :
    (afterCreate warm action).missing = false := by
  cases action with
  | closed | full | atCapacity | noIdle | reuse entry | create | wait | proceed => rfl

theorem act_missing (hstage : stage.missing = false)
    (hidle : ∀ id, stage.seeks = some id → id ∈ process.state.clients) :
    (act c w me node process stage choice).stage.missing = false := by
  cases stage with
  | waitOpen admitted =>
    rw [act]
    split
    · refine awaits_missing rfl ?_
      split
      · rfl
      · rfl
    · exact awaits_missing rfl rfl
    · rfl
    · rfl
  | admission => exact awaits_missing rfl rfl
  | plan attempts =>
    cases attempts with
    | zero => rfl
    | succ attempts => exact plan_missing attempts
  | acceptLocal lease => exact acceptLease_missing lease
  | openExchange lease =>
    cases choice with
    | ok | fail | go | drop | reuse id | create | wait | reject | take offer => rfl
  | cancelReservation lease => rfl
  | capacityWait => exact awaits_missing rfl rfl
  | takeOffer =>
    cases choice with
    | take offer =>
      rw [act]
      split
      · rfl
      · rfl
    | fail | drop | go | ok | reuse id | create | wait | reject => rfl
  | acceptOffered lease =>
    cases choice with
    | fail => rfl
    | go | ok | drop | reuse id | create | wait | reject | take offer =>
      exact acceptLease_missing lease
  | lookup id => exact lock_missing rfl _
  | recycling entry =>
    cases choice with
    | ok | fail | drop | go | reuse id | create | wait | reject | take offer => rfl
  | abandon entry outcome =>
    cases outcome with
    | missingLocal id => cases hstage
    | _ => rfl
  | retire id outcome =>
    refine section_missing hstage fun s => ?_
    cases outcome with
    | missingLocal id => cases hstage
    | _ => rfl
  | release id outcome =>
    cases outcome with
    | missingLocal id => cases hstage
    | _ => rfl
  | pruning gone after =>
    cases gone with
    | cons id gone => rfl
    | nil =>
      cases after with
      | search id => exact search_missing (hidle id rfl)
      | create warm => exact createTurn_missing warm _
      | nothing => rfl
  | warm =>
    rw [act]
    dsimp only [World.with]
    split
    · rfl
    · exact awaits_missing rfl rfl
  | createLook warm => exact lock_missing rfl _
  | creating warm =>
    cases choice with
    | ok | fail | drop | go | reuse id | create | wait | reject | take offer => rfl
  | registering warm =>
    cases choice with
    | ok | fail | go | drop | reuse id | create | wait | reject | take offer => rfl
  | failedCreate outcome =>
    refine section_missing hstage fun s => ?_
    cases outcome with
    | missingLocal id => cases hstage
    | _ => rfl
  | dropPermit outcome =>
    cases outcome with
    | missingLocal id => cases hstage
    | _ => rfl
  | created warm entry => exact section_missing rfl fun s => rfl
  | finishPermit warm entry =>
    rw [act]
    dsimp only [World.with]
    split
    · rfl
    · rfl
  | leased entry =>
    cases choice with
    | drop | go | ok | fail | reuse id | create | wait | reject | take offer => rfl
  | giveBack entry => rfl
  | returning entry now =>
    refine section_missing rfl fun s => ?_
    dsimp only
    split
    · rfl
    · rfl
  | discarded entry => rfl
  | completing id =>
    rw [act]
    dsimp only [World.with]
    split
    · rfl
    · rfl
  | discarding id =>
    refine section_missing rfl fun s => ?_
    split
    · rfl
    · rfl
  | retired entry => rfl
  | prune => exact lock_missing rfl _
  | pause reason => exact section_missing rfl fun s => rfl
  | resume => exact section_missing rfl fun s => rfl
  | done outcome => exact hstage

theorem Possesses.step (h : Possesses w) (hlands : Lands c w me choice task process)
    (hcalm : calm c w task.process process task.stage choice) :
    Possesses (w.land me task (act c w me task.process process task.stage choice)) := by
  have hmem := mem_of_getElem? hlands.running
  have hmissing : (act c w me task.process process task.stage choice).stage.missing = false := by
    refine act_missing (h.found task hmem) fun id hid => ?_
    rw [← queue_self hlands.found]
    exact granted_idle h hmem hid
  cases act_goes c w me task.process process task.stage choice with
  | moves hresources hoffers hkeeps hclients hpruned =>
    exact h.moves hlands hcalm hresources hoffers hkeeps hclients hpruned hmissing
  | reserve lease resource hlive hfree hresources hoffers hstate hbefore hafter hnext =>
    exact h.reserve hlands hlive hfree hresources hoffers hstate hbefore hafter hnext hmissing
  | accept lease resource hbefore hexposed hlive hreserved howner hresources hoffers hstate hclients
      hnext =>
    have hfound := (live_iff.mp hlive).1
    refine h.settle hlands hbefore hfound hreserved (Reoccupied.mk' hfound hresources rfl rfl)
      hoffers hstate hclients (hnext ▸ rfl) (hnext ▸ rfl) (fun id hid => ?_)
      (fun _ => isSome_iff_exists.mpr ⟨resource, hlive⟩) (calm_exposes hcalm hexposed)
      hmissing
    rw [hnext] at hid
    cases hid
    exact ⟨rfl, howner, rfl⟩
  | cancel lease resource hbefore hfound hreserved hresources hoffers hstate hclients hnext =>
    have hexposed : exposes c w task.process task.stage choice = some lease.id := by
      rw [hbefore]
      rfl
    refine h.settle hlands (hbefore ▸ rfl) hfound hreserved
      (Reoccupied.mk' hfound hresources rfl rfl) hoffers hstate hclients (hnext ▸ rfl) (hnext ▸ rfl)
      (fun id hid => ?_) (fun hseeks => ?_) (calm_exposes hcalm hexposed) hmissing
    · rw [hnext] at hid
      cases hid
    · rw [hnext] at hseeks
      cases hseeks
  | send lease hbefore hresources hoffers hstate hclients hnext =>
    exact h.send hlands hbefore hresources hoffers hstate hclients (hnext ▸ done_empty _) hmissing
  | receive lease offer hbefore hfound hresources hoffers hstate hnext =>
    exact h.receive hlands (hbefore ▸ ⟨rfl, rfl, rfl, rfl⟩) hfound hresources hoffers hstate hnext
  | free id resource outcome hbefore hexposed hlive hresources hoffers hstate hnext =>
    have hguard : task.stage.guard = some id ∧ task.stage.clients = [] := by
      rcases hbefore with ⟨outcome', hbefore⟩ | hbefore
      · rw [hbefore]
        exact ⟨rfl, rfl⟩
      · rw [hbefore]
        exact ⟨rfl, rfl⟩
    exact h.free hlands hguard.1 hlive hresources hoffers hstate hguard.2
      (hnext ▸ done_empty outcome) (calm_exposes hcalm hexposed) hmissing
  | register warm hbefore htable hoffers hstate hnext =>
    exact h.register hlands htable hoffers hstate (hbefore ▸ ⟨rfl, rfl, rfl, rfl⟩) hnext rfl
  | unregister id htable hoffers hstate hkeeps hclients hholder hpruned =>
    exact h.unregister hlands htable hoffers hstate hkeeps hclients hholder hpruned hmissing

theorem possesses_init : Possesses .init := by
  constructor
  · intro p id
    rfl
  · exact fun _ h => (nomatch h)
  · intro i j a b ha
    cases ha
  · exact fun _ h => (nomatch h)
  · exact fun _ h => (nomatch h)
  · exact fun _ h => (nomatch h)
  · exact fun id => Nat.zero_le 1
  · exact fun _ h => (nomatch h)
  · exact fun _ h => (nomatch h)

theorem Possesses.join (h : Possesses w) : Possesses (exec c w .join) := by
  have hqueue : ∀ p, (exec c w .join).queue p = w.queue p := by
    intro p
    unfold World.queue
    rw [exec]
    dsimp only
    by_cases hlt : p < w.processes.length
    · rw [getElem?_append_left hlt]
    · have hnone : w.processes[p]? = none := List.getElem?_eq_none_iff.mpr (Nat.le_of_not_lt hlt)
      rw [hnone, getElem?_append_right (Nat.le_of_not_lt hlt)]
      cases p - w.processes.length with
      | zero => rfl
      | succ n => rfl
  refine ⟨fun p id => ?_, h.guard, h.alone, h.seeks, h.reservation, h.offer, h.once, h.pruned, h.found⟩
  unfold World.clients
  rw [hqueue p]
  exact h.place p id

theorem Possesses.call (h : Possesses w) (node : Nat) (call : Call) :
    Possesses (exec c w (.call node call)) := by
  rw [exec]
  split
  · have hempty : call.stage.empty ∧ call.stage.missing = false := by
      cases call with
      | acquire | accept | warm | prune | pause reason | resume => exact ⟨⟨rfl, rfl, rfl, rfl⟩, rfl⟩
    obtain ⟨⟨hclients, hpruned, hguard, hreservation⟩, hmissing⟩ := hempty
    have hseeks : call.stage.seeks = none := by
      cases hseeks : call.stage.seeks with
      | none => rfl
      | some id =>
        rw [seeks_guard hseeks] at hguard
        cases hguard
    -- the new call has nothing in its hands
    have hnew : ∀ {P : Task → Prop}, (∀ task ∈ w.tasks, P task) → P ⟨node, call.stage⟩ →
        ∀ task ∈ w.tasks ++ [⟨node, call.stage⟩], P task := by
      intro P hold hlast task htask
      rcases mem_append.mp htask with htask | htask
      · exact hold task htask
      · rw [mem_singleton.mp htask]
        exact hlast
    constructor
    · intro p id
      have hzero : handful p id ⟨node, call.stage⟩ = 0 := by
        unfold handful
        rw [hclients]
        split
        · rfl
        · rfl
      have htotal : total (handful p id) (w.tasks ++ [⟨node, call.stage⟩]) =
          total (handful p id) w.tasks := by
        simp only [total_append, total_cons, hzero, total_nil, Nat.add_zero]
      unfold World.clients
      dsimp only
      rw [htotal]
      exact h.place p id
    · refine hnew h.guard fun id hid => ?_
      rw [hguard] at hid
      cases hid
    · intro i j a b ha hb id hida hidb
      have hold : ∀ {i : Nat} {a : Task}, (w.tasks ++ [⟨node, call.stage⟩])[i]? = some a →
          a.stage.guard = some id → w.tasks[i]? = some a := by
        intro i a ha hid
        rcases getElem?_append ▸ ha with ha
        split at ha
        · exact ha
        · rw [mem_singleton.mp (mem_of_getElem? ha), hguard] at hid
          cases hid
      exact h.alone i j a b (hold ha hida) (hold hb hidb) id hida hidb
    · refine hnew h.seeks fun id hid => ?_
      rw [hseeks] at hid
      cases hid
    · refine hnew h.reservation fun id hid => ?_
      rw [hreservation] at hid
      cases hid
    · exact h.offer
    · intro id
      have htotal : total (reserves id) (w.tasks ++ [⟨node, call.stage⟩]) =
          total (reserves id) w.tasks := by
        have hzero : reserves id ⟨node, call.stage⟩ = 0 := reserves_none hreservation id
        simp only [total_append, total_cons, hzero, total_nil, Nat.add_zero]
      unfold World.leases
      dsimp only
      rw [htotal]
      exact h.once id
    · have hkept : ∀ id, Pruned w id → Pruned { w with tasks := w.tasks ++ [⟨node, call.stage⟩] } id :=
        fun id hid => ⟨hid.1, hnew hid.2 fun h =>
          some_ne_none id (Eq.trans (Eq.symm h) hseeks)⟩
      refine hnew (fun task htask id hid => hkept id (h.pruned task htask id hid)) fun id hid => ?_
      rw [hpruned] at hid
      cases hid
    · exact hnew h.found hmissing
  · exact h

theorem settles_step (hlands : Lands c w me choice task process) :
    settles c w (.step me choice) = calm c w task.process process task.stage choice := by
  unfold settles
  dsimp only
  rw [hlands.running]
  dsimp only
  rw [hlands.found]

theorem Possesses.exec (h : Possesses w) {op : Op} (hsettles : settles c w op) :
    Possesses (exec c w op) := by
  cases op with
  | join => exact h.join
  | tick elapsed =>
    exact ⟨h.place, h.guard, h.alone, h.seeks, h.reservation, h.offer, h.once, h.pruned, h.found⟩
  | call node call => exact h.call node call
  | step me choice =>
    rcases exec_step c w me choice with ⟨heq, -⟩ | ⟨task, process, hlands⟩
    · rw [heq]
      exact h
    · rw [hlands.after]
      exact h.step hlands (settles_step hlands ▸ hsettles)

/-- The shared pool and the local pools agree. -/
structure Agrees (w : World) : Prop where
  /-- A process has one client of each resource that it registered, and none of the others. -/
  registered : ∀ p id, w.clients p id = (w.table.owns p id).toNat
  /-- A registered unit is free only while its client is idle in the owner's pool. -/
  selectable : ∀ id resource, w.table.live? id = some resource → resource.occupancy = .free →
    id ∈ w.queue resource.owner
  /-- A granted unit has its client idle in the pool that looks for it. -/
  granted : ∀ task ∈ w.tasks, ∀ id, task.stage.seeks = some id → id ∈ w.queue task.process
  found : ∀ task ∈ w.tasks, ∀ id, task.stage ≠ .done (.missingLocal id)

theorem Possesses.agrees (h : Possesses w) : Agrees w := by
  refine ⟨h.place, fun id resource => free_idle h, fun task htask id => granted_idle h htask,
    fun task htask id hdone => ?_⟩
  have hfound := h.found task htask
  rw [hdone] at hfound
  cases hfound

theorem land_queue_same (hlands : Lands c w me choice task process) (move : Move)
    (hstate : move.process.state = process.state) (p : Nat) :
    (w.land me task move).queue p = w.queue p := by
  rw [land_queue hlands.found, hstate]
  split
  · rename_i hp
    rw [hp, queue_self hlands.found]
  · rfl

theorem freed_idle (hlands : Lands c w me choice task process) {move : Move}
    (hagrees : Agrees (w.land me task move)) (hlive : w.table.live? id = some resource)
    (hstate : move.process.state = process.state)
    (hset : move.table.resources = w.table.resources.set id { resource with occupancy := .free }) :
    id ∈ w.queue resource.owner := by
  obtain ⟨hfound, hregistered⟩ := live_iff.mp hlive
  have hset : Reoccupied w.table move.table id resource { resource with occupancy := .free } :=
    .mk' hfound hset rfl rfl
  have hafter : (w.land me task move).table.live? id =
      some { resource with occupancy := .free } := live_iff.mpr ⟨hset.after, hregistered⟩
  rw [← land_queue_same hlands move hstate]
  have hqueue := hagrees.selectable id _ hafter rfl
  exact hqueue

theorem accept_takes {lease : Lease} (haccept : (w.table.accept node lease).1)
    (hlive : w.table.live? lease.id = some resource) :
    resource.owner = node ∧ (w.acceptLease node process lease).stage = .lookup lease.id := by
  refine ⟨?_, if_pos haccept⟩
  unfold Table.accept at haccept
  rw [hlive] at haccept
  dsimp only at haccept
  split at haccept
  · cases haccept
  · rename_i hor
    exact Decidable.of_not_not (not_or.mp hor).1

theorem finish_active {t : Table} {maxIdle : Option Nat} (hlive : t.live? id = some resource)
    (hactive : resource.occupancy = .active) (hretains : t.retains maxIdle) :
    (t.finish id maxIdle).2.resources =
      t.resources.set id { resource with occupancy := .free } := by
  unfold Table.finish
  rw [hlive]
  dsimp only
  rw [if_pos hretains, hactive, if_pos rfl]

theorem accepted_idle (hlands : Lands c w me choice task process) {lease : Lease}
    (hagrees : Agrees (w.land me task (w.acceptLease task.process process lease)))
    (haccept : (w.table.accept task.process lease).1)
    (hlive : w.table.live? lease.id = some resource) : lease.id ∈ w.queue resource.owner := by
  obtain ⟨howner, hstage⟩ : resource.owner = task.process ∧
      (w.acceptLease task.process process lease).stage = .lookup lease.id :=
    accept_takes haccept hlive
  have hlt := (List.getElem?_eq_some_iff.mp hlands.running).1
  have hqueue := hagrees.granted _ (mem_set hlt _) lease.id (congrArg Stage.seeks hstage)
  have hsame := land_queue_same hlands (w.acceptLease task.process process lease) rfl
    task.process
  rw [howner, ← hsame]
  exact hqueue

theorem exposed_idle (h : Possesses w) (hlands : Lands c w me choice task process)
    (hagrees : Agrees (w.land me task (act c w me task.process process task.stage choice)))
    (hexposed : exposes c w task.process task.stage choice = some id)
    (hlive : w.table.live? id = some resource) : id ∈ w.queue resource.owner := by
  obtain ⟨p, stage⟩ := task
  have hmem := mem_of_getElem? hlands.running
  dsimp only at hagrees hexposed
  cases stage with
  | acceptLocal lease =>
    obtain ⟨haccept, ⟨⟩⟩ := ite_none_right_eq_some.mp hexposed
    exact accepted_idle hlands hagrees haccept hlive
  | acceptOffered lease =>
    obtain ⟨⟨hchoice, haccept⟩, ⟨⟩⟩ := ite_none_right_eq_some.mp hexposed
    cases choice with
    | fail => exact absurd rfl hchoice
    | go | ok | drop | reuse id | create | wait | reject | take offer =>
      exact accepted_idle hlands hagrees haccept hlive
  | cancelReservation lease =>
    cases hexposed
    obtain ⟨resource', hfound, hreserved⟩ := h.reservation _ hmem lease rfl
    rw [(live_iff.mp hlive).1] at hfound
    cases hfound
    refine freed_idle hlands hagrees hlive rfl ?_
    change (w.table.cancelReservation lease).resources = _
    unfold Table.cancelReservation
    rw [(live_iff.mp hlive).1]
    dsimp only
    rw [if_neg (not_not_intro hreserved)]
  | release id' outcome =>
    cases hexposed
    have hactive := (guard_live h hmem rfl hlive).2
    exact freed_idle hlands hagrees hlive rfl (finish_active hlive hactive rfl)
  | completing id' =>
    obtain ⟨hretains, ⟨⟩⟩ := ite_none_right_eq_some.mp hexposed
    have hactive := (guard_live h hmem rfl hlive).2
    exact freed_idle hlands hagrees hlive rfl (finish_active hlive hactive hretains)
  | _ => cases hexposed

theorem lock_queue (h : Possesses w) (hfound : w.processes[task.process]? = some process)
    {entry : Entry} (hentry : entry ∈ process.state.idle)
    (hexpired : ClientPool.expired c.local w.now entry) :
    entry.client ∉ (ClientPool.pruneExpired c.local w.now process.state).2.clients := by
  intro hkept
  have hpruned : entry.client ∈ (ClientPool.pruneExpired c.local w.now process.state).1 :=
    List.mem_map.mpr ⟨entry, mem_filter.mpr ⟨hentry, hexpired⟩, rfl⟩
  have hperm := (ClientPool.pruneExpired_perm c.local w.now process.state).count_eq entry.client
  have hplace := h.place task.process entry.client
  have hone := (w.table.owns task.process entry.client).toNat_le
  have hpos := count_pos_iff.mpr hkept
  have hpos' := count_pos_iff.mpr hpruned
  rw [World.clients, queue_self hfound] at hplace
  rw [count_append] at hperm
  omega

theorem lock_unwanted (h : Possesses w) (hlands : Lands c w me choice task process) {after : After}
    (hagrees : Agrees (w.land me task (w.lock c me process task.stage after)))
    (hseeks : ∀ id, task.stage.seeks = some id → after = .search id)
    (hlocked : process.locked = none) {entry : Entry} (hentry : entry ∈ process.state.idle)
    (hexpired : ClientPool.expired c.local w.now entry) : w.wanted entry.client = false := by
  have hmem : entry.client ∈ w.queue task.process := by
    rw [queue_self hlands.found]
    exact List.mem_map.mpr ⟨entry, hentry, rfl⟩
  obtain ⟨resource, hlive, howner⟩ := queue_owned h hmem
  have hlock : w.lock c me process task.stage after =
      w.go ⟨(ClientPool.pruneExpired c.local w.now process.state).2, some me⟩
        (.pruning (ClientPool.pruneExpired c.local w.now process.state).1 after) := by
    unfold World.lock
    rw [hlocked]
    rfl
  rw [hlock] at hagrees
  have hgone : ∀ p, p = task.process →
      entry.client ∉ (w.land me task (w.go ⟨(ClientPool.pruneExpired c.local w.now process.state).2,
        some me⟩ (.pruning (ClientPool.pruneExpired c.local w.now process.state).1 after))).queue p := by
    intro p hp
    rw [land_queue hlands.found, if_pos hp]
    exact lock_queue h hlands.found hentry hexpired
  unfold World.wanted
  rw [Bool.or_eq_false_iff]
  constructor
  · rw [(live_iff.mp hlive).1, any_some, decide_eq_false_iff_not]
    exact fun hfree => hgone _ howner (hagrees.selectable entry.client resource hlive hfree)
  · rw [List.any_eq_false]
    intro t ht hsought
    have hsought := of_decide_eq_true hsought
    have hprocess := (guard_live h ht (seeks_guard hsought) hlive).1
    obtain ⟨i, hi⟩ := getElem?_of_mem ht
    have hlt := (List.getElem?_eq_some_iff.mp hlands.running).1
    by_cases hid : i = me
    · subst hid
      rw [hlands.running] at hi
      cases hi
      refine hgone task.process rfl (hagrees.granted _ (mem_set hlt _) entry.client ?_)
      rw [hseeks entry.client hsought]
      rfl
    · refine hgone t.process (hprocess.symm.trans howner) (hagrees.granted t ?_ entry.client hsought)
      exact mem_of_getElem? ((getElem?_set_ne (Ne.symm hid)).trans hi)

theorem Agrees.calm (h : Possesses w) (hlands : Lands c w me choice task process)
    (hagrees : Agrees (w.land me task (act c w me task.process process task.stage choice))) :
    calm c w task.process process task.stage choice := by
  have hmem := mem_of_getElem? hlands.running
  refine Bool.and_eq_true_iff.mpr ⟨?_, ?_⟩
  · cases hexposed : exposes c w task.process task.stage choice with
    | none => rfl
    | some id =>
      rw [all_some, Bool.not_eq_true', World.prunes, List.any_eq_false]
      intro t ht hid
      have hhand : id ∈ t.stage.clients := mem_append_right _ (of_decide_eq_true hid)
      obtain ⟨resource, hlive, howner⟩ := hand_owned h ht hhand
      exact queue_hand h (exposed_idle h hlands hagrees hexposed hlive) ht howner.symm hhand
  · by_cases hfree : task.stage.locks ∧ process.locked = none
    · obtain ⟨hlocks, hlocked⟩ := hfree
      have hall : ∀ entry ∈ process.state.idle, ClientPool.expired c.local w.now entry →
          w.wanted entry.client = false := by
        intro entry hentry hexpired
        obtain ⟨p, stage⟩ := task
        cases stage with
        | lookup id =>
          refine lock_unwanted h hlands hagrees (fun id' hid => ?_) hlocked hentry hexpired
          cases hid
          rfl
        | createLook warm | prune =>
          exact lock_unwanted h hlands hagrees (fun _ h => (nomatch h)) hlocked hentry hexpired
        | _ => cases hlocks
      refine Bool.or_eq_true_iff.mpr (.inr (List.all_eq_true.mpr fun entry hentry => ?_))
      cases hexpired : ClientPool.expired c.local w.now entry with
      | false => rfl
      | true =>
        rw [hall entry hentry hexpired]
        rfl
    · rcases not_and_or.mp hfree with hlocks | hlocked
      · rw [Bool.not_eq_true] at hlocks
        rw [hlocks]
        rfl
      · have hsome := isSome_iff_ne_none.mpr hlocked
        rw [hsome, Bool.or_true]
        rfl

theorem possession_agrees (c : Config) (ops : List Op) :
    (∀ n, Agrees (run c (ops.take n))) ↔
      Meets (exec c) (fun w op => settles c w op) .init ops := by
  refine meets_iff (fun w op hw hop => hw.exec hop) (fun w hw => hw.agrees) (fun w op hw hagrees => ?_)
    ops possesses_init
  cases op with
  | join | tick elapsed | call node call => rfl
  | step me choice =>
    rcases exec_step c w me choice with ⟨-, hsettles⟩ | ⟨task, process, hlands⟩
    · exact hsettles
    · rw [settles_step hlands]
      rw [hlands.after] at hagrees
      exact hagrees.calm hw hlands

def sampleConfig : Config where
  options := ⟨0, 1, 1, 1, 0, 1, none, some 5, none⟩
  lastInstant := 2 ^ 63
  valid := rfl

/-- A process makes a client, keeps it idle for too long and plans to reuse it: the unit is granted,
and the lookup drops the client before it looks for it. -/
def expiredRun : List Op :=
  [.join, .call 0 .acquire, .step 0 .go, .step 0 .ok, .step 0 .go, .step 0 .create, .step 0 .go,
    .step 0 .go, .step 0 .ok, .step 0 .ok, .step 0 .go, .step 0 .go, .step 0 .drop, .step 0 .go,
    .step 0 .go, .step 0 .go, .tick 10, .call 0 .acquire, .step 1 .go, .step 1 .ok, .step 1 .go,
    .step 1 (.reuse 0)] ++ replicate 6 (.step 1 .go)

theorem expired_client_missing :
    ¬∀ task ∈ (run sampleConfig expiredRun).tasks, ∀ id, task.stage ≠ .done (.missingLocal id) := by
  intro h
  exact h ⟨0, .done (.missingLocal 0)⟩ (by decide) 0 rfl

end FleetPool
