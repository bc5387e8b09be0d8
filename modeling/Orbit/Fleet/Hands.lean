import Orbit.Client.Ledger
import Orbit.Fleet.World

/-! What a call has in its hands, and what one step of it can do to the clients, the executions and
the reservations. -/

namespace FleetPool

open ClientPool (Entry State)

variable {c : Config} {w : World} {node me id : Nat} {process : Process} {stage : Stage}
  {choice : Choice} {entry : Entry} {s : State} {resource : Resource}

def Stage.holds : Stage → Option Nat
  | .recycling entry | .abandon entry _ | .created _ entry | .finishPermit _ entry | .leased entry
  | .giveBack entry | .returning entry _ | .discarded entry | .retired entry => some entry.client
  | _ => none

def Stage.pruned : Stage → List Nat
  | .pruning gone _ => gone
  | _ => []

def Stage.clients (stage : Stage) : List Nat := stage.holds.toList ++ stage.pruned

/-- The resource whose unit was granted to a call, and whose client it has yet to find. -/
def Stage.seeks : Stage → Option Nat
  | .lookup id | .pruning _ (.search id) => some id
  | _ => none

def Stage.guard (stage : Stage) : Option Nat :=
  match stage with
  | .retire id _ | .release id _ | .completing id | .discarding id => some id
  | _ => stage.holds.or stage.seeks

def Stage.reservation : Stage → Option Lease
  | .acceptLocal lease | .openExchange lease | .cancelReservation lease | .acceptOffered lease =>
    some lease
  | _ => none

def Stage.locks : Stage → Bool
  | .lookup _ | .createLook _ | .prune => true
  | _ => false

def exposes (c : Config) (w : World) (node : Nat) (stage : Stage) (choice : Choice) : Option Nat :=
  match stage with
  | .acceptLocal lease => if (w.table.accept node lease).1 then some lease.id else none
  | .acceptOffered lease =>
    if choice ≠ .fail ∧ (w.table.accept node lease).1 then some lease.id else none
  | .cancelReservation lease => some lease.id
  | .release id _ => some id
  | .completing id => if w.table.retains (some c.options.maxIdle) then some id else none
  | _ => none

/-- The call takes nothing new in its hands. -/
structure Keeps (stage stage' : Stage) : Prop where
  guard : ∀ id, stage'.guard = some id → stage.guard = some id
  seeks : ∀ id, stage'.seeks = some id → stage.seeks = some id
  reservation : ∀ lease, stage'.reservation = some lease → stage.reservation = some lease

/-- What a step does to the clients, the units and the offers. -/
inductive Goes (c : Config) (w : World) (node : Nat) (process : Process) (stage : Stage)
    (choice : Choice) (move : Move) : Prop
  /-- Clients only move between the queue and the hands of the call. -/
  | moves (resources : move.table.resources = w.table.resources) (offers : move.offers = w.offers)
      (keeps : Keeps stage move.stage)
      (clients : (move.process.state.clients ++ move.stage.clients).Perm
        (process.state.clients ++ stage.clients))
      (pruned : ∀ id ∈ move.stage.pruned, id ∈ stage.pruned ∨ (stage.locks ∧
        process.locked = none ∧ ∃ entry ∈ process.state.idle,
          ClientPool.expired c.local w.now entry ∧ entry.client = id))
  | reserve (lease : Lease) (resource : Resource) (live : w.table.live? lease.id = some resource)
      (free : resource.occupancy = .free)
      (resources : move.table.resources = w.table.resources.set lease.id
        { resource with occupancy := .reserved lease.fence, fence := lease.fence })
      (offers : move.offers = w.offers) (state : move.process.state = process.state)
      (before : stage.clients = []) (after : move.stage.clients = [] ∧ move.stage.guard = none)
      (next : move.stage.reservation = some lease)
  | accept (lease : Lease) (resource : Resource) (before : stage.reservation = some lease)
      (exposed : exposes c w node stage choice = some lease.id)
      (live : w.table.live? lease.id = some resource)
      (reserved : resource.occupancy = .reserved lease.fence) (owner : resource.owner = node)
      (resources : move.table.resources = w.table.resources.set lease.id
        { resource with occupancy := .active })
      (offers : move.offers = w.offers) (state : move.process.state = process.state)
      (clients : stage.clients = []) (next : move.stage = .lookup lease.id)
  | cancel (lease : Lease) (resource : Resource) (before : stage = .cancelReservation lease)
      (found : w.table.resources[lease.id]? = some resource)
      (reserved : resource.occupancy = .reserved lease.fence)
      (resources : move.table.resources = w.table.resources.set lease.id
        { resource with occupancy := .free })
      (offers : move.offers = w.offers) (state : move.process.state = process.state)
      (clients : stage.clients = []) (next : move.stage = .done .orbit)
  | send (lease : Lease) (before : stage.reservation = some lease)
      (resources : move.table.resources = w.table.resources)
      (offers : move.offers = w.offers ++ [lease]) (state : move.process.state = process.state)
      (clients : stage.clients = []) (next : move.stage = .done .remote)
  | receive (lease : Lease) (offer : Nat) (before : stage = .takeOffer)
      (found : w.offers[offer]? = some lease)
      (resources : move.table.resources = w.table.resources)
      (offers : move.offers = w.offers.eraseIdx offer) (state : move.process.state = process.state)
      (next : move.stage = .acceptOffered lease)
  /-- The unit of a resource becomes free, if it was active. -/
  | free (id : Nat) (resource : Resource) (outcome : Outcome)
      (before : (∃ outcome, stage = .release id outcome) ∨ stage = .completing id)
      (exposed : exposes c w node stage choice = some id)
      (live : w.table.live? id = some resource)
      (resources : move.table.resources = w.table.resources.set id { resource with
        occupancy := if resource.occupancy = .active then .free else resource.occupancy })
      (offers : move.offers = w.offers) (state : move.process.state = process.state)
      (next : move.stage = .done outcome)
  | register (warm : Bool) (before : stage = .registering warm)
      (table : move.table = (w.table.registerActive node).2) (offers : move.offers = w.offers)
      (state : move.process.state = process.state)
      (next : move.stage = .created warm ⟨w.table.resources.length, w.now, w.now⟩)
  /-- A client is dropped. -/
  | unregister (id : Nat) (table : move.table = w.table.unregister node id)
      (offers : move.offers = w.offers) (state : move.process.state = process.state)
      (keeps : Keeps stage move.stage)
      (clients : stage.clients.Perm (id :: move.stage.clients))
      (holder : stage.holds = some id ∨ id ∈ stage.pruned)
      (pruned : ∀ id ∈ move.stage.pruned, id ∈ stage.pruned)

theorem holds_guard (h : stage.holds = some id) : stage.guard = some id := by
  cases stage with
  | retire id outcome | release id outcome | completing id | discarding id => cases h
  | _ =>
    unfold Stage.guard
    rw [h]
    rfl

theorem seeks_guard (h : stage.seeks = some id) : stage.guard = some id := by
  cases stage with
  | lookup id' => exact h
  | pruning gone after =>
    cases after with
    | search id' => exact h
    | create warm | nothing => cases h
  | _ => cases h

theorem Keeps.refl (stage : Stage) : Keeps stage stage :=
  ⟨fun _ h => h, fun _ h => h, fun _ h => h⟩

theorem Keeps.empty {stage' : Stage} (hguard : stage'.guard = none)
    (hreservation : stage'.reservation = none) : Keeps stage stage' := by
  constructor
  · intro id h
    rw [hguard] at h
    cases h
  · intro id h
    rw [seeks_guard h] at hguard
    cases hguard
  · intro lease h
    rw [hreservation] at h
    cases h

theorem Keeps.same {stage' : Stage} (hguard : stage'.guard = stage.guard)
    (hseeks : stage'.seeks = none) (hreservation : stage'.reservation = none) : Keeps stage stage' := by
  constructor
  · intro id h
    rw [← hguard]
    exact h
  · intro id h
    rw [hseeks] at h
    cases h
  · intro lease h
    rw [hreservation] at h
    cases h

theorem Goes.quiet {move : Move} (hresources : move.table.resources = w.table.resources)
    (hoffers : move.offers = w.offers) (hqueue : move.process.state.clients = process.state.clients)
    (hkeeps : Keeps stage move.stage) (hclients : move.stage.clients = stage.clients)
    (hpruned : move.stage.pruned = stage.pruned) : Goes c w node process stage choice move := by
  refine .moves hresources hoffers hkeeps (.of_eq ?_) fun id h => .inl (hpruned ▸ h)
  rw [hqueue, hclients]

theorem Goes.go {stage' : Stage} (hkeeps : Keeps stage stage') (hclients : stage'.clients = stage.clients)
    (hpruned : stage'.pruned = stage.pruned) :
    Goes c w node process stage choice (w.go process stage') :=
  .quiet rfl rfl rfl hkeeps hclients hpruned

theorem Goes.stay : Goes c w node process stage choice (w.go process stage) := .go (.refl _) rfl rfl

theorem Goes.section {next : Stage} {body : State → Stage × State}
    (hnext : ∀ s, (body s).1 = next) (hqueue : ∀ s, (body s).2.clients = s.clients)
    (hkeeps : Keeps stage next) (hclients : next.clients = stage.clients)
    (hpruned : next.pruned = stage.pruned) :
    Goes c w node process stage choice
      (w.go (process.section stage body).2 (process.section stage body).1) := by
  unfold Process.section
  split
  · exact .stay
  · dsimp only
    rw [hnext]
    exact .quiet rfl rfl (hqueue _) hkeeps hclients hpruned

theorem awaits_cases (stage next : Stage) (choice : Choice) : awaits stage next choice = next ∨
    awaits stage next choice = stage ∨ ∃ outcome, awaits stage next choice = .done outcome := by
  cases choice with
  | go | ok => exact .inl rfl
  | fail | drop => exact .inr (.inr ⟨_, rfl⟩)
  | reuse id | create | wait | reject | take offer => exact .inr (.inl rfl)

def Stage.empty (stage : Stage) : Prop :=
  stage.clients = [] ∧ stage.pruned = [] ∧ stage.guard = none ∧ stage.reservation = none

theorem Goes.open {stage' : Stage} {table : Table} (hresources : table.resources = w.table.resources)
    (h : stage.clients = [] ∧ stage.pruned = []) (h' : stage'.empty) :
    Goes c w node process stage choice (w.with process stage' table) :=
  .quiet hresources rfl rfl (.empty h'.2.2.1 h'.2.2.2) (h'.1.trans h.1.symm)
    (h'.2.1.trans h.2.symm)

theorem done_empty (outcome : Outcome) : (Stage.done outcome).empty := ⟨rfl, rfl, rfl, rfl⟩

theorem Goes.awaits {next : Stage} (h : stage.empty) (hnext : next.empty) :
    Goes c w node process stage choice (w.go process (awaits stage next choice)) := by
  rcases awaits_cases stage next choice with heq | heq | ⟨outcome, heq⟩
  · rw [heq]
    exact .open rfl ⟨h.1, h.2.1⟩ hnext
  · rw [heq]
    exact .stay
  · rw [heq]
    exact .open rfl ⟨h.1, h.2.1⟩ (done_empty outcome)

theorem pruneExpired_clients (c : ClientPool.Config) (now : Nat) (s : State) {id : Nat}
    (h : id ∈ (ClientPool.pruneExpired c now s).1) :
    ∃ entry ∈ s.idle, ClientPool.expired c now entry ∧ entry.client = id := by
  obtain ⟨entry, hentry, rfl⟩ := List.mem_map.mp h
  obtain ⟨hmem, hexpired⟩ := List.mem_filter.mp hentry
  exact ⟨entry, hmem, hexpired, rfl⟩

theorem idleTurn_cases (c : ClientPool.Config) (predicate : Nat → Bool) (s : State) :
    (∃ entry idle, ClientPool.takeIdle predicate s.idle = some (entry, idle) ∧
      ClientPool.idleTurn c predicate s =
        (.reuse entry, { s with idle := idle, inFlight := s.inFlight + 1 })) ∨
    (ClientPool.takeIdle predicate s.idle = none ∧
      ClientPool.idleTurn c predicate s = (.noIdle, s)) ∨
    ClientPool.idleTurn c predicate s = (.closed, s) ∨
    ClientPool.idleTurn c predicate s = (.atCapacity, s) := by
  unfold ClientPool.idleTurn
  split
  · exact .inr (.inr (.inl rfl))
  split
  · exact .inr (.inr (.inr rfl))
  cases htake : ClientPool.takeIdle predicate s.idle with
  | none => exact .inr (.inl ⟨rfl, rfl⟩)
  | some found => exact .inl ⟨found.1, found.2, rfl, rfl⟩

theorem takeIdle_predicate {predicate : Nat → Bool} {idle rest : List Entry}
    (h : ClientPool.takeIdle predicate idle = some (entry, rest)) : predicate entry.client := by
  induction idle generalizing rest with
  | nil => cases h
  | cons first idle ih =>
    rw [ClientPool.takeIdle] at h
    split at h
    · rename_i hfirst
      cases h
      exact hfirst
    · obtain ⟨found, hfound, heq⟩ := Option.map_eq_some_iff.mp h
      cases heq
      exact ih hfound

theorem takeIdle_none {predicate : Nat → Bool} {idle : List Entry}
    (h : ClientPool.takeIdle predicate idle = none) :
    ∀ entry ∈ idle, predicate entry.client = false := by
  induction idle with
  | nil => exact fun _ hmem => (nomatch hmem)
  | cons first idle ih =>
    rw [ClientPool.takeIdle] at h
    split at h
    · cases h
    · rename_i hfirst
      intro entry hmem
      rcases List.mem_cons.mp hmem with rfl | hmem
      · exact Bool.not_eq_true _ ▸ hfirst
      · exact ih (Option.map_eq_none_iff.mp h) entry hmem

theorem takeIdle_clients {predicate : Nat → Bool} {idle : List Entry}
    (h : ClientPool.takeIdle predicate s.idle = some (entry, idle)) :
    (idle.map Entry.client ++ [entry.client]).Perm s.clients := by
  have hperm := (ClientPool.takeIdle_perm h).map Entry.client
  exact ((List.perm_append_singleton entry.client (idle.map Entry.client)).trans hperm.symm)

theorem createTurn_clients (c : ClientPool.Config) (s : State) :
    (ClientPool.createTurn c s).2.clients = s.clients := by
  unfold ClientPool.createTurn
  split
  · rfl
  split
  · rfl
  split
  · rfl
  · rfl

theorem returnEntry_clients (c : ClientPool.Config) (now : Nat) (entry : Entry) (s : State) :
    ((ClientPool.returnEntry c now entry s).2.clients ++
      if (ClientPool.returnEntry c now entry s).1 then [] else [entry.client]).Perm
        (s.clients ++ [entry.client]) := by
  unfold ClientPool.returnEntry
  dsimp only
  split
  · apply List.Perm.of_eq
    simp [State.clients, State.subInFlight]
  · exact .of_eq rfl

theorem finishCreate_clients (succeeded admitted : Bool) (s : State) :
    (ClientPool.finishCreate succeeded admitted s).clients = s.clients := by
  cases succeeded <;> cases admitted <;> rfl

theorem pauseTurn_clients (reason : String) (s : State) :
    (ClientPool.pauseTurn reason s).clients = s.clients := by
  unfold ClientPool.pauseTurn
  split
  · rfl
  · rfl

theorem resumeTurn_clients (s : State) : (ClientPool.resumeTurn s).2.clients = s.clients := by
  unfold ClientPool.resumeTurn
  split
  · rfl
  · rfl
  · rfl
  · rfl

theorem claimCreate_resources (t : Table) (maxLive : Nat) :
    (t.claimCreate maxLive).2.resources = t.resources := by
  unfold Table.claimCreate
  split
  · rfl
  · rfl

theorem claimWarm_resources (t : Table) (maxLive minIdle : Nat) :
    (t.claimWarm maxLive minIdle).2.resources = t.resources := by
  unfold Table.claimWarm
  dsimp only
  split
  · split
    · exact claimCreate_resources t maxLive
    · exact claimCreate_resources t maxLive
  · exact claimCreate_resources t maxLive

theorem goes_plan (attempts : Nat) (choice : Choice) :
    Goes c w node process (.plan (attempts + 1)) choice (w.plan c node process attempts choice) := by
  have hempty : ∀ attempts, (Stage.plan attempts).empty := fun _ => ⟨rfl, rfl, rfl, rfl⟩
  cases choice with
  | reuse id =>
    unfold World.plan
    dsimp only
    cases hlive : w.table.live? id with
    | none =>
      rw [Table.reserve, hlive]
      exact .open rfl ⟨rfl, rfl⟩ (hempty attempts)
    | some resource =>
      by_cases hbusy : w.table.available = 0 ∨ resource.occupancy ≠ .free
      · rw [Table.reserve, hlive]
        dsimp only
        rw [if_pos hbusy]
        exact .open rfl ⟨rfl, rfl⟩ (hempty attempts)
      · rw [Table.reserve, hlive]
        dsimp only
        rw [if_neg hbusy]
        obtain ⟨-, hfree⟩ := not_or.mp hbusy
        refine .reserve ⟨id, resource.fence + 1⟩ resource hlive (Decidable.of_not_not hfree) rfl rfl
          rfl rfl ?_ ?_
        · dsimp only [World.with]
          split
          · exact ⟨rfl, rfl⟩
          · exact ⟨rfl, rfl⟩
        · dsimp only [World.with]
          split
          · rfl
          · rfl
  | create =>
    refine .open (claimCreate_resources ..) ⟨rfl, rfl⟩ ?_
    split
    · exact ⟨rfl, rfl, rfl, rfl⟩
    · exact hempty attempts
  | wait => exact .open rfl ⟨rfl, rfl⟩ ⟨rfl, rfl, rfl, rfl⟩
  | reject => exact .open rfl ⟨rfl, rfl⟩ (done_empty _)
  | go | ok | fail | drop | take offer => exact .stay

theorem goes_accept {lease : Lease} (hreservation : stage.reservation = some lease)
    (hexposes : (w.table.accept node lease).1 → exposes c w node stage choice = some lease.id)
    (hclients : stage.clients = [] ∧ stage.pruned = []) :
    Goes c w node process stage choice (w.acceptLease node process lease) := by
  have hfail : Goes c w node process stage choice (w.with process (.done .orbit) w.table) :=
    .open rfl hclients (done_empty _)
  unfold World.acceptLease
  unfold Table.accept at hexposes ⊢
  cases hlive : w.table.live? lease.id with
  | none => exact hfail
  | some resource =>
    dsimp only
    by_cases hbad : resource.owner ≠ node ∨ resource.occupancy ≠ .reserved lease.fence
    · rw [if_pos hbad]
      exact hfail
    · rw [if_neg hbad]
      have hexposed : exposes c w node stage choice = some lease.id := by
        apply hexposes
        rw [hlive]
        dsimp only
        rw [if_neg hbad]
      obtain ⟨howner, hreserved⟩ := not_or.mp hbad
      exact .accept lease resource hreservation hexposed hlive (Decidable.of_not_not hreserved)
        (Decidable.of_not_not howner) rfl rfl rfl hclients.1 rfl

theorem goes_cancel {lease : Lease} :
    Goes c w node process (.cancelReservation lease) choice
      (w.with process (.done .orbit) (w.table.cancelReservation lease)) := by
  have hfail : Goes c w node process (.cancelReservation lease) choice
      (w.with process (.done .orbit) w.table) := .open rfl ⟨rfl, rfl⟩ (done_empty _)
  unfold Table.cancelReservation
  cases hfound : w.table.resources[lease.id]? with
  | none => exact hfail
  | some resource =>
    dsimp only
    by_cases hbad : resource.occupancy ≠ .reserved lease.fence
    · rw [if_pos hbad]
      exact hfail
    · rw [if_neg hbad]
      exact .cancel lease resource rfl hfound (Decidable.of_not_not hbad) rfl rfl rfl rfl rfl

theorem goes_release (outcome : Outcome) :
    Goes c w node process (.release id outcome) choice
      (w.with process (.done outcome) (w.table.finish id none).2) := by
  unfold Table.finish
  cases hlive : w.table.live? id with
  | none => exact .open rfl ⟨rfl, rfl⟩ (done_empty _)
  | some resource =>
    exact .free id resource outcome (.inl ⟨outcome, rfl⟩) rfl hlive rfl rfl rfl rfl

theorem goes_complete : Goes c w node process (.completing id) choice
    (w.with process (if (w.table.finish id (some c.options.maxIdle)).1 then .done .finished
      else .discarding id) (w.table.finish id (some c.options.maxIdle)).2) := by
  have hdiscard : Goes c w node process (.completing id) choice
      (w.with process (.discarding id) w.table) := .quiet rfl rfl rfl (.same rfl rfl rfl) rfl rfl
  cases hlive : w.table.live? id with
  | none =>
    have hfinish : w.table.finish id (some c.options.maxIdle) = (false, w.table) := by
      rw [Table.finish, hlive]
    rw [hfinish]
    exact hdiscard
  | some resource =>
    by_cases hretains : w.table.retains (some c.options.maxIdle)
    · have hfinish : w.table.finish id (some c.options.maxIdle) = (true, { w.table with
          resources := w.table.resources.set id { resource with
            occupancy := if resource.occupancy = .active then .free else resource.occupancy }
          available := w.table.available + 1 }) := by
        rw [Table.finish, hlive]
        exact if_pos hretains
      rw [hfinish]
      exact .free id resource .finished (.inr rfl) (if_pos hretains) hlive rfl rfl rfl rfl
    · have hfinish : w.table.finish id (some c.options.maxIdle) = (false, w.table) := by
        rw [Table.finish, hlive]
        exact if_neg hretains
      rw [hfinish]
      exact hdiscard

theorem goes_lock {after : After} (hstage : stage.clients = [] ∧ stage.pruned = [])
    (hlocks : stage.locks) (hkeeps : ∀ gone, Keeps stage (.pruning gone after)) :
    Goes c w node process stage choice (w.lock c me process stage after) := by
  unfold World.lock
  by_cases hlocked : process.locked.isSome
  · rw [if_pos hlocked]
    exact .stay
  · rw [if_neg hlocked]
    have hlocked : process.locked = none := by simpa using hlocked
    refine .moves rfl rfl (hkeeps _) ?_ fun id hid =>
      .inr ⟨hlocks, hlocked, pruneExpired_clients c.local w.now process.state hid⟩
    rw [hstage.1, List.append_nil]
    exact List.perm_append_comm.trans (ClientPool.pruneExpired_perm c.local w.now process.state)

theorem goes_search : Goes c w node process (.pruning [] (.search id)) choice
    (w.go (finishSection c process (.search id)).2 (finishSection c process (.search id)).1) := by
  have hrelease : ∀ outcome, Keeps (.pruning [] (.search id)) (.release id outcome) := fun _ =>
    .same rfl rfl rfl
  unfold finishSection
  dsimp only
  rcases idleTurn_cases c.local (fun client => client = id) process.state with
    ⟨entry, idle, htake, hturn⟩ | ⟨-, hturn⟩ | hturn | hturn
  · rw [hturn]
    have hid : entry.client = id := of_decide_eq_true (takeIdle_predicate htake)
    refine .moves rfl rfl ⟨?_, fun _ h => (nomatch h), fun _ h => (nomatch h)⟩ ?_
      fun _ h => (nomatch h)
    · intro id' h
      rw [← h, ← hid]
      rfl
    · refine (takeIdle_clients htake).trans (.of_eq ?_)
      exact (List.append_nil _).symm
  · rw [hturn]
    exact .quiet rfl rfl rfl (hrelease _) rfl rfl
  · rw [hturn]
    exact .quiet rfl rfl rfl (hrelease _) rfl rfl
  · rw [hturn]
    exact .quiet rfl rfl rfl (hrelease _) rfl rfl

theorem goes_createTurn (warm : Bool) : Goes c w node process (.pruning [] (.create warm)) choice
    (w.go (finishSection c process (.create warm)).2
      (finishSection c process (.create warm)).1) := by
  have hafter : ∀ action, (afterCreate warm action).empty := by
    intro action
    cases action with
    | closed | full | atCapacity | noIdle | reuse entry | create | wait | proceed =>
      exact ⟨rfl, rfl, rfl, rfl⟩
  obtain ⟨hclients, hpruned, hguard, hreservation⟩ :=
    hafter (ClientPool.createTurn c.local process.state).1
  exact .quiet rfl rfl (createTurn_clients ..) (.empty hguard hreservation) hclients hpruned

theorem goes_returning (entry : Entry) (now : Nat) :
    Goes c w node process (.returning entry now) choice
      (act c w me node process (.returning entry now) choice) := by
  rw [act]
  unfold Process.section
  split
  · exact .stay
  dsimp only
  have hperm := returnEntry_clients c.local now entry process.state
  generalize ClientPool.returnEntry c.local now entry process.state = returned at hperm
  obtain ⟨kept, s⟩ := returned
  cases kept with
  | true =>
    exact .moves rfl rfl (.same rfl rfl rfl) hperm fun _ h => (nomatch h)
  | false =>
    exact .moves rfl rfl (.same rfl rfl rfl) hperm fun _ h => (nomatch h)

theorem goes_discarding : Goes c w node process (.discarding id) choice
    (act c w me node process (.discarding id) choice) := by
  rw [act]
  unfold Process.section
  split
  · exact .stay
  dsimp only
  unfold ClientPool.discardIdleTurn
  cases htake : ClientPool.takeIdle (fun client => decide (client = id)) process.state.idle with
  | none => exact .quiet rfl rfl rfl (.empty rfl rfl) rfl rfl
  | some found =>
    obtain ⟨entry, idle⟩ := found
    have hid : entry.client = id := of_decide_eq_true (takeIdle_predicate htake)
    refine .moves rfl rfl ⟨?_, fun _ h => (nomatch h), fun _ h => (nomatch h)⟩ ?_
      fun _ h => (nomatch h)
    · intro id' h
      rw [← h, ← hid]
      rfl
    · refine (takeIdle_clients htake).trans (.of_eq ?_)
      exact (List.append_nil _).symm

theorem goes_drop {stage' : Stage} (hkeeps : Keeps stage stage')
    (hholds : stage.clients = id :: stage'.clients) (holder : stage.holds = some id ∨ id ∈ stage.pruned)
    (hpruned : ∀ id ∈ stage'.pruned, id ∈ stage.pruned) :
    Goes c w node process stage choice (w.with process stage' (w.table.unregister node id)) :=
  .unregister id rfl rfl rfl hkeeps (.of_eq hholds) holder hpruned

theorem goes_pruning (id : Nat) (gone : List Nat) (after : After) :
    Goes c w node process (.pruning (id :: gone) after) choice
      (w.with process (.pruning gone after) (w.table.unregister node id)) := by
  refine goes_drop ⟨fun _ h => ?_, fun _ h => ?_, fun _ h => (nomatch h)⟩ rfl
    (.inr List.mem_cons_self) fun _ h => List.mem_cons_of_mem _ h
  · cases after with
    | search id' => exact h
    | create warm | nothing => cases h
  · cases after with
    | search id' => exact h
    | create warm | nothing => cases h

theorem act_goes (c : Config) (w : World) (me node : Nat) (process : Process) (stage : Stage)
    (choice : Choice) : Goes c w node process stage choice (act c w me node process stage choice) := by
  cases stage with
  | waitOpen admitted =>
    rw [act]
    split
    · refine .awaits ⟨rfl, rfl, rfl, rfl⟩ ?_
      split
      · exact ⟨rfl, rfl, rfl, rfl⟩
      · exact ⟨rfl, rfl, rfl, rfl⟩
    · exact .awaits ⟨rfl, rfl, rfl, rfl⟩ ⟨rfl, rfl, rfl, rfl⟩
    · exact .open rfl ⟨rfl, rfl⟩ (done_empty _)
    · exact .open rfl ⟨rfl, rfl⟩ (done_empty _)
  | admission => exact .awaits ⟨rfl, rfl, rfl, rfl⟩ ⟨rfl, rfl, rfl, rfl⟩
  | plan attempts =>
    cases attempts with
    | zero => exact .open rfl ⟨rfl, rfl⟩ ⟨rfl, rfl, rfl, rfl⟩
    | succ attempts => exact goes_plan attempts choice
  | acceptLocal lease => exact goes_accept rfl (fun h => if_pos h) ⟨rfl, rfl⟩
  | openExchange lease =>
    cases choice with
    | ok => exact .send lease rfl rfl rfl rfl rfl rfl
    | fail => exact .go ⟨fun _ h => h, fun _ h => h, fun _ h => h⟩ rfl rfl
    | go | drop | reuse id | create | wait | reject | take offer => exact .stay
  | cancelReservation lease => exact goes_cancel
  | capacityWait => exact .awaits ⟨rfl, rfl, rfl, rfl⟩ ⟨rfl, rfl, rfl, rfl⟩
  | takeOffer =>
    cases choice with
    | take offer =>
      rw [act]
      cases hoffered : w.offered node offer with
      | none => exact .stay
      | some lease =>
        unfold World.offered at hoffered
        split at hoffered
        · cases hoffered
        · rename_i lease' hfound
          split at hoffered
          · cases hoffered
            exact .receive lease offer rfl hfound rfl rfl rfl rfl
          · cases hoffered
    | fail | drop => exact .open rfl ⟨rfl, rfl⟩ (done_empty _)
    | go | ok | reuse id | create | wait | reject => exact .stay
  | acceptOffered lease =>
    cases choice with
    | fail => exact .open rfl ⟨rfl, rfl⟩ (done_empty _)
    | go | ok | drop | reuse id | create | wait | reject | take offer =>
      exact goes_accept rfl (fun h => if_pos ⟨by rintro ⟨⟩, h⟩) ⟨rfl, rfl⟩
  | lookup id =>
    exact goes_lock ⟨rfl, rfl⟩ rfl fun gone => ⟨fun _ h => h, fun _ h => h, fun _ h => (nomatch h)⟩
  | recycling entry =>
    cases choice with
    | ok | fail | drop => exact .go (.same rfl rfl rfl) rfl rfl
    | go | reuse id | create | wait | reject | take offer => exact .stay
  | abandon entry outcome =>
    exact goes_drop (.same rfl rfl rfl) rfl (.inl rfl) fun _ h => (nomatch h)
  | retire id outcome =>
    exact .section (fun _ => rfl) (fun _ => rfl) (.same rfl rfl rfl) rfl rfl
  | release id outcome => exact goes_release outcome
  | pruning gone after =>
    cases gone with
    | cons id gone => exact goes_pruning id gone after
    | nil =>
      cases after with
      | search id => exact goes_search
      | create warm => exact goes_createTurn warm
      | nothing => exact .quiet rfl rfl rfl (.empty rfl rfl) rfl rfl
  | warm =>
    rw [act]
    split
    · exact .open (claimWarm_resources ..) ⟨rfl, rfl⟩ ⟨rfl, rfl, rfl, rfl⟩
    · rcases awaits_cases .warm .warm choice with heq | heq | ⟨outcome, heq⟩
      · rw [heq]
        exact .open (claimWarm_resources ..) ⟨rfl, rfl⟩ ⟨rfl, rfl, rfl, rfl⟩
      · rw [heq]
        exact .open (claimWarm_resources ..) ⟨rfl, rfl⟩ ⟨rfl, rfl, rfl, rfl⟩
      · rw [heq]
        exact .open (claimWarm_resources ..) ⟨rfl, rfl⟩ (done_empty _)
  | createLook warm => exact goes_lock ⟨rfl, rfl⟩ rfl fun gone => .empty rfl rfl
  | creating warm =>
    cases choice with
    | ok | fail | drop => exact .open rfl ⟨rfl, rfl⟩ ⟨rfl, rfl, rfl, rfl⟩
    | go | reuse id | create | wait | reject | take offer => exact .stay
  | registering warm =>
    cases choice with
    | ok => exact .register warm rfl rfl rfl rfl rfl
    | fail => exact .open rfl ⟨rfl, rfl⟩ ⟨rfl, rfl, rfl, rfl⟩
    | go | drop | reuse id | create | wait | reject | take offer => exact .stay
  | failedCreate outcome =>
    exact .section (fun _ => rfl) (finishCreate_clients false true) (.empty rfl rfl) rfl rfl
  | dropPermit outcome => exact .open rfl ⟨rfl, rfl⟩ (done_empty _)
  | created warm entry =>
    exact .section (fun _ => rfl) (finishCreate_clients true true) (.same rfl rfl rfl) rfl rfl
  | finishPermit warm entry =>
    rw [act]
    split
    · exact .quiet rfl rfl rfl (.same rfl rfl rfl) rfl rfl
    · exact .quiet rfl rfl rfl (.same rfl rfl rfl) rfl rfl
  | leased entry =>
    cases choice with
    | drop => exact .go (.same rfl rfl rfl) rfl rfl
    | go | ok | fail | reuse id | create | wait | reject | take offer => exact .stay
  | giveBack entry => exact .go (.same rfl rfl rfl) rfl rfl
  | returning entry now => exact goes_returning entry now
  | discarded entry =>
    exact goes_drop (.same rfl rfl rfl) rfl (.inl rfl) fun _ h => (nomatch h)
  | completing id => exact goes_complete
  | discarding id => exact goes_discarding
  | retired entry => exact goes_drop (.empty rfl rfl) rfl (.inl rfl) fun _ h => (nomatch h)
  | prune => exact goes_lock ⟨rfl, rfl⟩ rfl fun gone => .empty rfl rfl
  | pause reason =>
    exact .section (fun _ => rfl) (pauseTurn_clients reason) (.empty rfl rfl) rfl rfl
  | resume => exact .section (fun _ => rfl) resumeTurn_clients (.empty rfl rfl) rfl rfl
  | done outcome => exact .stay

end FleetPool
