import Orbit.Atomic.Sequence
import Orbit.Atomic.Tasks
import Orbit.Client.Calls

/-! The counters of a pool are what its calls hold, in every run. -/

open Orbit.Atomic
open List hiding drop

namespace ClientPool

namespace Stage

def creates : Stage → Nat
  | reserved _ | creating _ | warmFinish _ | registering _ true | finishing _ _ => 1
  | failedCreate _ next => next.creates + 1
  | retire next | notify next | drop _ next | cancelTokens _ next
  | closeAdmission next => next.creates
  | _ => 0

def units : Stage → Nat
  | recycling _ | registering _ false | leased _ _ | unregister _ _ | giveBack _
  | returning _ _ => 1
  | retire next => next.units + 1
  | failedCreate _ next | notify next | drop _ next | cancelTokens _ next
  | closeAdmission next => next.units
  | _ => 0

def flights : Stage → Nat
  | reserved true | creating true | recycling _ | registering _ _ | finishing _ _ | leased _ _
  | unregister _ _ | giveBack _ | returning _ _ => 1
  | retire next | failedCreate true next => next.flights + 1
  | failedCreate false next | notify next | drop _ next
  | cancelTokens _ next | closeAdmission next => next.flights
  | _ => 0

def waits : Stage → Nat
  | top _ true | listen _ true | look _ true _ | parked _ _ | leaving true _ => 1
  | retire next | failedCreate _ next | notify next | drop _ next
  | cancelTokens _ next | closeAdmission next => next.waits
  | _ => 0

def clients : Stage → List Nat
  | recycling entry | registering entry _ | finishing entry _ | leased entry _ | giveBack entry
  | returning entry _ | warmFinish entry => [entry.client]
  | unregister _ entry => (entry.map Entry.client).toList
  | drop clients next => clients ++ next.clients
  | retire next | failedCreate _ next | notify next | cancelTokens _ next
  | closeAdmission next => next.clients
  | _ => []

end Stage

/-- The counters of `s` stand for these numbers of pending creations, of leases and pending
recycles, of requests in flight and of waiting acquirers. -/
structure Fits (c : Config) (s : State) (creates units flights waits : Nat) : Prop where
  creating : s.creating = creates
  live : s.live = s.idle.length + creates + units
  inFlight : s.inFlight = flights
  waiting : s.waiting = waits
  live_le : s.live ≤ c.options.maxLive
  inFlight_le : s.inFlight ≤ c.options.maxConcurrency
  idle_le : s.idle.length ≤ c.options.maxIdle
  waiting_le : s.waiting ≤ c.options.maxWaiting
  exact : s.saturated = false

def State.clients (s : State) : List Nat := s.idle.map Entry.client

theorem takeIdle_perm {predicate : Nat → Bool} {idle rest : List Entry} {entry : Entry}
    (h : takeIdle predicate idle = some (entry, rest)) : idle.Perm (entry :: rest) := by
  induction idle generalizing rest with
  | nil => cases h
  | cons first idle ih =>
    rw [takeIdle] at h
    split at h
    · cases h
      exact List.Perm.refl _
    · cases hfound : takeIdle predicate idle with
      | none => rw [hfound] at h; cases h
      | some found =>
        obtain ⟨entry', rest'⟩ := found
        rw [hfound] at h
        cases h
        exact ((ih hfound).cons first).trans (List.Perm.swap _ _ _)

theorem pruneExpired_perm (c : Config) (now : Nat) (s : State) :
    ((pruneExpired c now s).1 ++ (pruneExpired c now s).2.clients).Perm s.clients := by
  have h := (filter_append_perm (expired c now) s.idle).map Entry.client
  rwa [map_append] at h

theorem pruneExpired_queue (c : Config) (now : Nat) (s : State) :
    ((pruneExpired c now s).1 ++ (pruneExpired c now s).2.clients).Perm (s.clients ++ []) := by
  rw [append_nil]
  exact pruneExpired_perm c now s

namespace Fits

variable {c : Config} {s : State} {C U F W : Nat}

theorem subLive {n : Nat} (h : Fits c s C (U + n) F W) : Fits c (s.subLive n) C U F W := by
  have hlive := h.live
  have hle := h.live_le
  refine { h with live := ?_, live_le := ?_, exact := ?_ }
  · simp only [State.subLive]
    omega
  · simp only [State.subLive]
    omega
  · rw [State.subLive, h.exact, Bool.false_or, decide_eq_false_iff_not]
    omega

theorem subCreating (h : Fits c s (C + 1) U F W) : Fits c (s.subCreating 1) C (U + 1) F W := by
  have hcreating := h.creating
  have hlive := h.live
  refine { h with creating := ?_, live := ?_, exact := ?_ }
  · simp only [State.subCreating]
    omega
  · simp only [State.subCreating]
    omega
  · rw [State.subCreating, h.exact, Bool.false_or, decide_eq_false_iff_not]
    omega

theorem subInFlight (h : Fits c s C U (F + 1) W) : Fits c (s.subInFlight 1) C U F W := by
  have hflight := h.inFlight
  have hle := h.inFlight_le
  refine { h with inFlight := ?_, inFlight_le := ?_, exact := ?_ }
  · simp only [State.subInFlight]
    omega
  · simp only [State.subInFlight]
    omega
  · rw [State.subInFlight, h.exact, Bool.false_or, decide_eq_false_iff_not]
    omega

theorem subWaiting (h : Fits c s C U F (W + 1)) : Fits c (s.subWaiting 1) C U F W := by
  have hwaiting := h.waiting
  have hle := h.waiting_le
  refine { h with waiting := ?_, waiting_le := ?_, exact := ?_ }
  · simp only [State.subWaiting]
    omega
  · simp only [State.subWaiting]
    omega
  · rw [State.subWaiting, h.exact, Bool.false_or, decide_eq_false_iff_not]
    omega

theorem takeOut {n : Nat} {idle : List Entry} (h : Fits c s C U F W)
    (hn : s.idle.length = idle.length + n) : Fits c { s with idle := idle } C (U + n) F W := by
  have hlive := h.live
  have hidle := h.idle_le
  refine { h with live := ?_, idle_le := ?_ }
  · dsimp only
    omega
  · dsimp only
    omega

theorem putBack {entry : Entry} (h : Fits c s C (U + 1) F W)
    (hroom : s.idle.length < c.options.maxIdle) :
    Fits c { s with idle := s.idle ++ [entry] } C U F W := by
  have hlive := h.live
  refine { h with live := ?_, idle_le := ?_ }
  · simp only [length_append, length_singleton]
    omega
  · simp only [length_append, length_singleton]
    omega

theorem addInFlight (h : Fits c s C U F W) (hroom : s.inFlight < c.options.maxConcurrency) :
    Fits c { s with inFlight := s.inFlight + 1 } C U (F + 1) W :=
  { h with
    inFlight := congrArg (· + 1) h.inFlight
    inFlight_le := hroom }

theorem addWaiting (h : Fits c s C U F W) (hroom : s.waiting < c.options.maxWaiting) :
    Fits c { s with waiting := s.waiting + 1 } C U F (W + 1) :=
  { h with
    waiting := congrArg (· + 1) h.waiting
    waiting_le := hroom }

theorem addCreating (h : Fits c s C U F W) (hroom : s.live < c.options.maxLive) :
    Fits c { s with live := s.live + 1, creating := s.creating + 1 } (C + 1) U F W := by
  have hlive := h.live
  refine { h with creating := congrArg (· + 1) h.creating, live := ?_, live_le := hroom }
  dsimp only
  omega

theorem prune (h : Fits c s C U F W) (now : Nat) : Fits c (pruneExpired c now s).2 C U F W := by
  have hlength := (pruneExpired_perm c now s).length_eq
  simp only [pruneExpired, State.clients, State.subLive, length_append, length_map]
    at hlength
  exact (h.takeOut (by omega)).subLive

theorem retireIdle (h : Fits c s C U F W) : Fits c (retireIdle s).2 C U F W :=
  (h.takeOut (Nat.zero_add _).symm).subLive

theorem retireOne (h : Fits c s C (U + 1) (F + 1) W) : Fits c (retireOne s) C U F W :=
  h.subLive.subInFlight

theorem finishCreate_ok (h : Fits c s (C + 1) U F W) (admitted : Bool) :
    Fits c (finishCreate true admitted s) C (U + 1) F W :=
  h.subCreating

theorem finishCreate_failed {admitted : Bool} (h : Fits c s (C + 1) U (F + admitted.toNat) W) :
    Fits c (finishCreate false admitted s) C U F W := by
  cases admitted
  · exact h.subCreating.subLive
  · exact h.subCreating.subLive.subInFlight

theorem leave {entered : Bool} (h : Fits c s C U F (W + entered.toNat)) :
    Fits c (leave entered s) C U F W := by
  cases entered
  · exact h
  · exact h.subWaiting

theorem returnEntry (h : Fits c s C (U + 1) (F + 1) W) (now : Nat) (entry : Entry) :
    Fits c (returnEntry c now entry s).2 C U F W := by
  have hback := h.subInFlight
  unfold ClientPool.returnEntry
  dsimp only
  split
  case isTrue hkept => exact hback.putBack hkept.2.1
  case isFalse => exact hback.subLive

theorem finishWarmCreate (h : Fits c s (C + 1) U F W) (entry : Entry) :
    Fits c (finishWarmCreate c entry s).2 C U F W := by
  have hmade := h.subCreating
  unfold ClientPool.finishWarmCreate
  dsimp only
  split
  case isTrue => exact hmade.subLive
  case isFalse hkept => exact hmade.putBack (by have := not_or.mp hkept; omega)

theorem reserveWarmCreate (h : Fits c s C U F W) :
    Fits c (reserveWarmCreate c s).2 (C + (ClientPool.reserveWarmCreate c s).1.toNat) U F W := by
  unfold ClientPool.reserveWarmCreate
  split
  case isTrue => exact h
  case isFalse hroom => exact h.addCreating (by have := not_or.mp (not_or.mp hroom).2; omega)

theorem takeDue (h : Fits c s C U F W) (now : Nat) :
    Fits c (takeDueCancellations c now s).2 C U F W := by
  unfold takeDueCancellations
  split
  · exact h
  · exact { h with }

theorem drainFirst (h : Fits c s C U F W) (now : Nat) :
    Fits c (drainFirst c now s).2.2 C U F W := by
  have hbegun : Fits c (beginDrain now s) C U F W := { h with }
  exact hbegun.retireIdle.takeDue _

theorem drainTurn (h : Fits c s C U F W) (now : Nat) : Fits c (drainTurn c now s).2 C U F W := by
  unfold ClientPool.drainTurn
  split
  · exact { h with }
  · exact h.takeDue now

end Fits

/-- The counters stand for what the call at `stage` and the other calls hold. -/
def Books (c : Config) (s : State) (stage : Stage) (C U F W : Nat) : Prop :=
  Fits c s (C + stage.creates) (U + stage.units) (F + stage.flights) (W + stage.waits)

section

variable {c : Config} {s : State} {C U F W seen : Nat} {waiting : Waiting} {entered : Bool}

theorem Books.enter (h : Fits c s C U F (W + entered.toNat)) :
    Books c (enter c entered s).2 (afterLook waiting entered seen (enter c entered s).1)
      C U F W := by
  unfold ClientPool.enter
  cases entered
  case true => exact h
  case false =>
    simp only [Bool.false_eq_true, if_false]
    split
    case isTrue => exact h
    case isFalse hroom => exact h.addWaiting (by omega)

theorem Books.acquireTurn (h : Fits c s C U F (W + entered.toNat)) :
    Books c (acquireTurn c entered s).2
      (afterLook waiting entered seen (acquireTurn c entered s).1) C U F W := by
  have hclosed : Books c s (.leaving entered .closed) C U F W := by
    cases entered <;> exact h
  unfold ClientPool.acquireTurn
  split
  · exact hclosed
  · exact hclosed
  · exact Books.enter h
  split
  · exact Books.enter h
  case isFalse hflight =>
    split
    case h_1 entry idle hidle =>
      have htaken := h.takeOut (show _ = idle.length + 1 by rw [hidle]; rfl)
      exact (htaken.addInFlight (Nat.lt_of_not_le hflight)).leave
    case h_2 =>
      split
      case isTrue hlive =>
        exact ((h.addCreating hlive).addInFlight (Nat.lt_of_not_le hflight)).leave
      case isFalse => exact Books.enter h

theorem Books.openTurn (h : Fits c s C U F (W + entered.toNat)) :
    Books c (openTurn c entered s).2
      (afterLook waiting entered seen (openTurn c entered s).1) C U F W := by
  have hclosed : Books c s (.leaving entered .closed) C U F W := by
    cases entered <;> exact h
  unfold ClientPool.openTurn
  split
  · exact h.leave
  · exact Books.enter h
  · exact hclosed
  · exact hclosed

theorem Books.createTurn (h : Fits c s C U F W) :
    Books c (createTurn c s).2 (afterTurn (createTurn c s).1) C U F W := by
  unfold ClientPool.createTurn
  split
  · exact h
  split
  · exact h
  case isFalse hlive =>
    split
    · exact h
    case isFalse hflight => 
      exact (h.addCreating (Nat.lt_of_not_le hlive)).addInFlight (Nat.lt_of_not_le hflight)

theorem Books.idleTurn (h : Fits c s C U F W) (predicate : Nat → Bool) :
    Books c (idleTurn c predicate s).2 (afterTurn (idleTurn c predicate s).1) C U F W := by
  unfold ClientPool.idleTurn
  split
  · exact h
  split
  · exact h
  case isFalse hflight =>
    split
    case h_1 => exact h
    case h_2 entry idle hfound =>
      have htaken := h.takeOut (n := 1) (takeIdle_perm hfound).length_eq
      exact htaken.addInFlight (Nat.lt_of_not_le hflight)

end

variable {c : Config} {p : Pool} {C F U W : Nat} {t : Task} {w : World}

theorem Fits.register (h : Fits c p.state C U F W) (me : Nat) (policy : ActiveRequestPolicy) :
    Fits c (register c me policy p).2.state C U F W := by
  unfold ClientPool.register registerActive
  dsimp only
  split
  · exact h
  split
  · split <;> exact { h with }
  · split <;> exact { h with }

theorem Fits.unregister {s : State} (h : Fits c s C U F W) (id : Nat) :
    Fits c (unregisterActive id s) C U F W :=
  { h with }

theorem Books.failed {s : State} {admitted : Bool} (h : Fits c s (C + 1) U (F + admitted.toNat) W)
    (ending : OperationEnd) :
    Books c s (.failedCreate admitted (ending.after admitted)) C U F W := by
  cases admitted
  · cases ending <;> exact h
  · exact h

theorem Books.notifyIf {s : State} {next : Stage} (h : Books c s next C U F W) (notified : Bool) :
    Books c s (notifyIf notified next) C U F W := by
  cases notified <;> exact h

theorem act_books (me : Nat) (choice : Choice) (h : Books c p.state t.stage C U F W) :
    Books c (act c me t choice p).2.state (act c me t choice p).1 C U F W := by
  unfold act
  cases hstage : t.stage <;> rw [hstage] at h <;> dsimp only
  case top waiting entered =>
    cases t.cancelled <;> cases entered <;> exact h
  case listen waiting entered => cases entered <;> exact h
  case look waiting entered seen =>
    have hfits : Fits c p.state C U F (W + entered.toNat) := by cases entered <;> exact h
    cases waiting
    · exact Books.acquireTurn (hfits.prune p.now)
    · exact Books.openTurn hfits
  case parked waiting seen =>
    cases waitEnds t.cancelled seen t.deadline p choice with
    | none => exact h
    | some ending => cases ending <;> exact h
  case leaving entered outcome =>
    cases entered
    · exact h
    · exact h.subWaiting
  case createLook => exact Books.createTurn (Fits.prune h p.now)
  case idleLook predicate => exact Books.idleTurn (Fits.prune h p.now) predicate
  case discardLook predicate =>
    unfold discardIdleTurn
    cases hfound : takeIdle predicate p.state.idle with
    | none => exact h
    | some found =>
      have htaken := Fits.takeOut (n := 1) h (takeIdle_perm hfound).length_eq
      exact htaken.subLive
  case reserved admitted =>
    have hfits : Fits c p.state (C + 1) U (F + admitted.toNat) W := by cases admitted <;> exact h
    cases choice <;> dsimp only
    case go => cases admitted <;> exact h
    case interrupt | shut =>
      cases operationEnds t p _ with
      | none => exact h
      | some ending => exact Books.failed hfits ending
    all_goals exact h
  case creating admitted =>
    have hfits : Fits c p.state (C + 1) U (F + admitted.toNat) W := by cases admitted <;> exact h
    cases operationEnds t p choice with
    | none => exact h
    | some ending =>
      cases ending
      case ok => cases admitted <;> exact h
      all_goals exact Books.failed hfits _
  case recycling entry =>
    cases operationEnds t p choice with
    | none => exact h
    | some ending => cases ending <;> exact h
  case registering entry created =>
    apply Books.notifyIf
    cases created <;> exact Fits.register h me t.policy
  case finishing entry registration => exact Fits.finishCreate_ok h true
  case leased entry registration => cases choice <;> exact h
  case returning entry now =>
    have hreturned := Fits.returnEntry h now entry
    cases (returnEntry c now entry p.state).1 <;> exact hreturned
  case runTop => cases t.cancelled <;> exact h
  case runPrune => exact Fits.prune h p.now
  case runStats => cases p.state.status.ended <;> exact h
  case runReserve =>
    have hreserved := Fits.reserveWarmCreate h
    cases hwarm : (reserveWarmCreate c p.state).1 <;> rw [hwarm] at hreserved <;> exact hreserved
  case warmFinish entry =>
    have hfinished := Fits.finishWarmCreate h entry
    cases (finishWarmCreate c entry p.state).1 <;> exact hfinished
  case runParked seen deadline =>
    cases waitEnds t.cancelled seen deadline p choice with
    | none => exact h
    | some ending => cases ending <;> exact h
  case close => exact Fits.retireIdle { h with }
  case drain => exact Fits.drainFirst h p.now
  case drainLook seen =>
    have hturn := Fits.drainTurn h p.now
    cases hresult : drainTurn c p.now p.state with
    | mk result s =>
      rw [hresult] at hturn
      cases result <;> exact hturn
  case drainParked seen deadline =>
    cases waitEnds false seen deadline p choice with
    | none => exact h
    | some ending => cases ending <;> exact h
  case pause reason =>
    unfold pauseTurn
    split
    · exact h
    · exact { h with }
  case resume =>
    unfold resumeTurn
    split
    · exact { h with }
    all_goals exact h
  case cancelActive => cases p.state.status.ended <;> exact h
  case maintainLook seen => cases p.state.status <;> exact h
  case maintainParked seen =>
    cases waitEnds t.cancelled seen none p choice with
    | none => exact h
    | some ending => cases ending <;> exact h
  case unregister registration entry =>
    have hafter : Books c p.state (afterLease entry) C U F W := by cases entry <;> exact h
    cases registration with
    | none => exact hafter
    | some id => exact Fits.unregister hafter id
  case retire next => exact Fits.retireOne h
  case failedCreate admitted next =>
    apply Fits.finishCreate_failed
    cases admitted <;> exact h
  case drop clients next => cases clients <;> exact h
  case cancelTokens tokens next => cases tokens <;> exact h
  all_goals exact h

def places (client : Nat) (p : Pool) (stage : Stage) : Nat :=
  p.state.clients.count client + stage.clients.count client + p.dropped.count client

def made (client : Nat) (p : Pool) : Nat := if client < p.made then 1 else 0

section

variable {c : Config} {s : State} {seen : Nat} {waiting : Waiting} {entered : Bool}

theorem clients_leave : (leave entered s).clients = s.clients := by
  cases entered <;> rfl

theorem enter_clients (waiting : Waiting) (seen : Nat) :
    (enter c entered s).2.clients = s.clients ∧
      (afterLook waiting entered seen (enter c entered s).1).clients = [] := by
  unfold enter
  split
  · exact ⟨rfl, rfl⟩
  split <;> exact ⟨rfl, rfl⟩

theorem acquireTurn_perm (c : Config) (s : State) (waiting : Waiting) (entered : Bool)
    (seen : Nat) : ((acquireTurn c entered s).2.clients ++
    (afterLook waiting entered seen (acquireTurn c entered s).1).clients).Perm s.clients := by
  have henter : ((enter c entered s).2.clients ++
      (afterLook waiting entered seen (enter c entered s).1).clients).Perm s.clients := by
    rw [(enter_clients waiting seen).1, (enter_clients waiting seen).2, append_nil]
  unfold acquireTurn
  split
  · exact .of_eq (append_nil _)
  · exact .of_eq (append_nil _)
  · exact henter
  split
  · exact henter
  split
  case h_1 entry idle hidle =>
    dsimp only
    rw [clients_leave, State.clients, State.clients, hidle]
    exact perm_append_singleton _ _
  case h_2 =>
    split
    · dsimp only
      rw [clients_leave]
      exact .of_eq (append_nil _)
    · exact henter

theorem openTurn_clients (waiting : Waiting) (seen : Nat) :
    (openTurn c entered s).2.clients = s.clients ∧
      (afterLook waiting entered seen (openTurn c entered s).1).clients = [] := by
  unfold openTurn
  split
  · exact ⟨clients_leave, rfl⟩
  · exact enter_clients waiting seen
  · exact ⟨rfl, rfl⟩
  · exact ⟨rfl, rfl⟩

theorem createTurn_clients : (createTurn c s).2.clients = s.clients ∧
    (afterTurn (createTurn c s).1).clients = [] := by
  unfold createTurn
  split
  · exact ⟨rfl, rfl⟩
  split
  · exact ⟨rfl, rfl⟩
  split <;> exact ⟨rfl, rfl⟩

theorem idleTurn_perm (predicate : Nat → Bool) : ((idleTurn c predicate s).2.clients ++
    (afterTurn (idleTurn c predicate s).1).clients).Perm s.clients := by
  unfold idleTurn
  split
  · exact .of_eq (append_nil _)
  split
  · exact .of_eq (append_nil _)
  split
  case h_1 => exact .of_eq (append_nil _)
  case h_2 entry idle hfound =>
    exact (perm_append_singleton _ _).trans ((takeIdle_perm hfound).map Entry.client).symm

end

theorem drainTurn_clients (c : Config) (now : Nat) (s : State) :
    (drainTurn c now s).2.clients = s.clients := by
  unfold drainTurn takeDueCancellations
  split
  · rfl
  · cases s.drainStarted <;> rfl

theorem register_clients (me : Nat) (policy : ActiveRequestPolicy) :
    (register c me policy p).2.state.clients = p.state.clients ∧
      (register c me policy p).2.dropped = p.dropped ∧
      (register c me policy p).2.made = p.made := by
  unfold register registerActive
  dsimp only
  split
  · exact ⟨rfl, rfl, rfl⟩
  split
  · split <;> exact ⟨rfl, rfl, rfl⟩
  · split <;> exact ⟨rfl, rfl, rfl⟩

theorem places_of_perm {p' : Pool} {stage stage' : Stage} (retired : List Nat)
    (hperm : (retired ++ (p'.state.clients ++ stage'.clients)).Perm
      (p.state.clients ++ stage.clients)) (hdropped : p'.dropped = p.dropped ++ retired)
    (hmade : p'.made = p.made) (client : Nat) :
    places client p' stage' + made client p = places client p stage + made client p' := by
  have hcount := hperm.count_eq client
  simp only [count_append] at hcount
  rw [places, places, made, made, hdropped, hmade, count_append]
  omega

theorem places_moved {p' : Pool} {stage stage' : Stage}
    (hperm : (p'.state.clients ++ stage'.clients).Perm (p.state.clients ++ stage.clients))
    (hdropped : p'.dropped = p.dropped) (hmade : p'.made = p.made) (client : Nat) :
    places client p' stage' + made client p = places client p stage + made client p' :=
  places_of_perm [] hperm (hdropped.trans (append_nil _).symm) hmade client

theorem act_places (me : Nat) (choice : Choice) (client : Nat) :
    places client (act c me t choice p).2 (act c me t choice p).1 + made client p =
      places client p t.stage + made client (act c me t choice p).2 := by
  unfold act
  cases hstage : t.stage <;> dsimp only
  case top waiting entered => cases t.cancelled <;> rfl
  case listen waiting entered => rfl
  case look waiting entered seen =>
    cases waiting
    case acquire =>
      apply places_of_perm (pruneExpired c p.now p.state).1
      · have hpruned := pruneExpired_queue c p.now p.state
        exact ((acquireTurn_perm c _ _ entered seen).append_left _).trans hpruned
      · rfl
      · rfl
    case untilOpen =>
      apply places_moved
      · apply List.Perm.of_eq
        dsimp only [lookTurn, Pool.withState]
        rw [(openTurn_clients .untilOpen seen).1, (openTurn_clients .untilOpen seen).2]
        rfl
      · rfl
      · rfl
  case parked waiting seen =>
    cases waitEnds t.cancelled seen t.deadline p choice with
    | none => rfl
    | some ending => cases ending <;> rfl
  case leaving entered outcome => cases entered <;> rfl
  case createLook =>
    apply places_of_perm (pruneExpired c p.now p.state).1
    · dsimp only [Pool.withState]
      rw [createTurn_clients.1, createTurn_clients.2, append_nil]
      exact pruneExpired_queue c p.now p.state
    · rfl
    · rfl
  case idleLook predicate =>
    apply places_of_perm (pruneExpired c p.now p.state).1
    · have hpruned := pruneExpired_queue c p.now p.state
      exact ((idleTurn_perm predicate).append_left _).trans hpruned
    · rfl
    · rfl
  case discardLook predicate =>
    unfold discardIdleTurn
    cases hfound : takeIdle predicate p.state.idle with
    | none => rfl
    | some found =>
      apply places_moved
      · have htaken := ((takeIdle_perm hfound).map Entry.client).symm
        exact ((perm_append_singleton _ _).trans htaken).trans
          (.of_eq (append_nil _).symm)
      · rfl
      · rfl
  case returning entry now =>
    apply places_moved
    · unfold returnEntry
      dsimp only
      split
      · exact .of_eq (by simp [State.clients, Stage.clients, Pool.withState, State.subInFlight])
      · exact .refl _
    · rfl
    · rfl
  case reserved admitted =>
    cases choice <;> dsimp only
    case interrupt | shut =>
      cases operationEnds t p _ with
      | none => rfl
      | some ending => cases admitted <;> cases ending <;> rfl
    all_goals rfl
  case creating admitted =>
    cases operationEnds t p choice with
    | none => rfl
    | some ending =>
      cases ending
      case ok =>
        cases admitted <;> simp only [places, made, Pool.make, Stage.clients, if_true, if_false,
          Bool.false_eq_true] <;> grind
      all_goals cases admitted <;> rfl
  case recycling entry =>
    cases operationEnds t p choice with
    | none => rfl
    | some ending => cases ending <;> rfl
  case registering entry created =>
    obtain ⟨hclients, hdropped, hmade⟩ := register_clients (c := c) (p := p) me t.policy
    apply places_moved
    · rw [hclients]
      cases (register c me t.policy p).1.isSome <;> cases created <;> exact .refl _
    · exact hdropped
    · exact hmade
  case leased entry registration => cases choice <;> rfl
  case runTop => cases t.cancelled <;> rfl
  case runPrune =>
    apply places_of_perm (pruneExpired c p.now p.state).1
    · have hpruned := pruneExpired_queue c p.now p.state
      exact (List.Perm.of_eq (congrArg _ (append_nil _))).trans hpruned
    · rfl
    · rfl
  case runStats => cases p.state.status.ended <;> rfl
  case runReserve =>
    unfold reserveWarmCreate
    split <;> rfl
  case warmFinish entry =>
    apply places_moved
    · unfold finishWarmCreate
      dsimp only
      split
      · exact .refl _
      · exact .of_eq (by simp [State.clients, Stage.clients, Pool.withState, State.subCreating])
    · rfl
    · rfl
  case runParked seen deadline =>
    cases waitEnds t.cancelled seen deadline p choice with
    | none => rfl
    | some ending => cases ending <;> rfl
  case close =>
    apply places_moved
    · exact .of_eq rfl
    · rfl
    · rfl
  case drain =>
    apply places_moved
    · exact .of_eq rfl
    · rfl
    · rfl
  case drainLook seen =>
    have hclients := drainTurn_clients c p.now p.state
    cases hresult : drainTurn c p.now p.state with
    | mk result s =>
      rw [hresult] at hclients
      apply places_moved
      · cases result <;> exact .of_eq (congrArg (· ++ []) hclients)
      · cases result <;> rfl
      · cases result <;> rfl
  case drainParked seen deadline =>
    cases waitEnds false seen deadline p choice with
    | none => rfl
    | some ending => cases ending <;> rfl
  case pause reason =>
    unfold pauseTurn
    split <;> rfl
  case resume =>
    unfold resumeTurn
    split <;> rfl
  case cancelActive => cases p.state.status.ended <;> rfl
  case maintainLook seen => cases p.state.status <;> rfl
  case maintainParked seen =>
    cases waitEnds t.cancelled seen none p choice with
    | none => rfl
    | some ending => cases ending <;> rfl
  case unregister registration entry => cases registration <;> cases entry <;> rfl
  case failedCreate admitted next => cases admitted <;> rfl
  case drop clients next =>
    cases clients with
    | nil => rfl
    | cons first clients =>
      apply places_of_perm [first]
      · show (first :: (p.state.clients ++ (clients ++ next.clients))).Perm
          (p.state.clients ++ first :: (clients ++ next.clients))
        exact perm_middle.symm
      · rfl
      · rfl
  case cancelTokens tokens next => cases tokens <;> rfl
  all_goals rfl

/-- The ledger of the whole pool. -/
structure Exact (c : Config) (w : World) : Prop where
  fits : Fits c w.pool.state (total (fun t => t.stage.creates) w.tasks)
    (total (fun t => t.stage.units) w.tasks) (total (fun t => t.stage.flights) w.tasks)
    (total (fun t => t.stage.waits) w.tasks)
  placed : ∀ client, w.pool.state.clients.count client +
    total (fun t => t.stage.clients.count client) w.tasks + w.pool.dropped.count client =
      made client w.pool

theorem Exact.init (c : Config) : Exact c .init := by
  constructor
  · constructor <;> first | rfl | exact Nat.zero_le _
  · intro client
    rfl

theorem Call.task_empty (c : Config) (now : Nat) (call : Call) :
    (call.task c now).stage.creates = 0 ∧ (call.task c now).stage.units = 0 ∧
      (call.task c now).stage.flights = 0 ∧ (call.task c now).stage.waits = 0 ∧
      (call.task c now).stage.clients = [] := by
  cases call with
  | acquire policy | acquireCancellable policy =>
    rcases Call.acquireTask_stage c now policy _ with h | h
    · rw [Call.task, h]
      exact ⟨rfl, rfl, rfl, rfl, rfl⟩
    · rw [Call.task, h]
      exact ⟨rfl, rfl, rfl, rfl, rfl⟩
  | _ => exact ⟨rfl, rfl, rfl, rfl, rfl⟩

theorem Exact.begin (h : Exact c w) (call : Call) :
    Exact c { w with tasks := w.tasks ++ [call.task c w.pool.now] } := by
  obtain ⟨hcreates, hunits, hflights, hwaits, hclients⟩ := call.task_empty c w.pool.now
  constructor
  · simp only [total_append, total_cons, total_nil, hcreates, hunits, hflights, hwaits]
    exact h.fits
  · intro client
    simp only [total_append, total_cons, total_nil, hclients]
    exact h.placed client

theorem Exact.stepTask {i : Nat} (h : Exact c w) (hi : w.tasks[i]? = some t) (choice : Choice) :
    Exact c (stepTask c w i t choice) := by
  constructor
  · have hbooks : Books c w.pool.state t.stage (totalBut (fun t => t.stage.creates) w.tasks i)
        (totalBut (fun t => t.stage.units) w.tasks i)
        (totalBut (fun t => t.stage.flights) w.tasks i)
        (totalBut (fun t => t.stage.waits) w.tasks i) := by
      have hfits := h.fits
      simp only [total_eq hi, Nat.add_comm (Stage.creates _), Nat.add_comm (Stage.units _),
        Nat.add_comm (Stage.flights _), Nat.add_comm (Stage.waits _)] at hfits
      exact hfits
    have hstep := act_books i choice hbooks
    simp only [ClientPool.stepTask, total_set hi, Nat.add_comm (Stage.creates _),
      Nat.add_comm (Stage.units _), Nat.add_comm (Stage.flights _), Nat.add_comm (Stage.waits _)]
    exact hstep
  · intro client
    have hplaced := h.placed client
    have hstep := act_places (c := c) (p := w.pool) (t := t) i choice client
    rw [total_eq hi] at hplaced
    simp only [places] at hstep
    simp only [ClientPool.stepTask, total_set hi]
    omega

theorem Exact.cancel {i : Nat} (h : Exact c w) (hi : w.tasks[i]? = some t) :
    Exact c { w with tasks := w.tasks.set i t.cancel } := by
  constructor
  · have hfits := h.fits
    simp only [total_eq hi] at hfits
    simp only [total_set hi]
    exact hfits
  · intro client
    have hplaced := h.placed client
    simp only [total_eq hi] at hplaced
    simp only [total_set hi]
    exact hplaced

theorem Exact.exec (h : Exact c w) (op : Op) : Exact c (exec c w op) := by
  apply exec_cases c h
  · exact fun call => h.begin call
  · exact fun i t choice hi => h.stepTask hi choice
  · exact fun i t hi => h.cancel hi
  · exact fun duration => ⟨h.fits, h.placed⟩

theorem exact_run (c : Config) (ops : List Op) : Exact c (run c ops) :=
  foldl_holds (fun _ op h => h.exec op) ops (Exact.init c)

/-- At every moment the four counters are what the queue and the calls hold, no limit is passed, no
subtraction was cut off, and each client the manager made is in the queue, with one call or
dropped. -/
theorem counters_exact (c : Config) (ops : List Op) :
    let w := run c ops
    let s := w.pool.state
    (s.live = s.idle.length + s.creating + total (fun t => t.stage.units) w.tasks ∧
      s.creating = total (fun t => t.stage.creates) w.tasks ∧
      s.inFlight = total (fun t => t.stage.flights) w.tasks ∧
      s.waiting = total (fun t => t.stage.waits) w.tasks) ∧
    (s.live ≤ c.options.maxLive ∧ s.inFlight ≤ c.options.maxConcurrency ∧
      s.idle.length ≤ c.options.maxIdle ∧ s.waiting ≤ c.options.maxWaiting) ∧
    s.saturated = false ∧
    ∀ client, s.clients.count client + total (fun t => t.stage.clients.count client) w.tasks +
      w.pool.dropped.count client = if client < w.pool.made then 1 else 0 := by
  have h := exact_run c ops
  refine ⟨⟨?_, h.fits.creating, h.fits.inFlight, h.fits.waiting⟩, ⟨h.fits.live_le,
    h.fits.inFlight_le, h.fits.idle_le, h.fits.waiting_le⟩, h.fits.exact, h.placed⟩
  rw [h.fits.creating]
  exact h.fits.live

end ClientPool
