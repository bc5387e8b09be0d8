import Orbit.Link.Events

/-! What the bridge forwards: never an event it received, as long as no event is tested between its
publication and its being remembered; and every event of the process itself once, unless the far
side does not want it or the send fails. -/

namespace OrbitLink

open Orbit.Atomic List

variable {b : Bridge} {s : State}

/-- An entry wants a key: every position of the key is set in it. -/
def Wants (bits : Interest) (key : List UInt8) : Prop :=
  (positions interestTag key).all (hasBit bits) = true

theorem hasBit_or (a c : Interest) (bit : Fin interestBits) :
    hasBit (fun word => a word ||| c word) bit = (hasBit a bit || hasBit c bit) := by
  simp only [hasBit, Nat.and_or_distrib_right]
  rw [Bool.eq_iff_iff]
  simp only [ne_eq, decide_eq_true_eq, Bool.or_eq_true, Nat.or_eq_zero_iff]
  exact not_and_or

theorem hasBit_foldl (entries : List Interest) (start : Interest) (bit : Fin interestBits) :
    hasBit (entries.foldl (fun union bits word => union word ||| bits word) start) bit =
      (hasBit start bit || entries.any fun bits => hasBit bits bit) := by
  induction entries generalizing start with
  | nil => simp
  | cons bits rest ih => rw [foldl_cons, ih, hasBit_or, any_cons, Bool.or_assoc]

theorem Bridge.not_wants {lanes : List LaneSeen} {watchers : List WatcherSeen} {key : List UInt8}
    (h : b.farWants lanes watchers key = false) :
    ∀ bits ∈ b.farEntries lanes watchers, ¬Wants bits key := by
  intro bits hbits hwants
  rw [← Bool.not_eq_true] at h
  apply h
  simp only [Bridge.farWants, all_eq_true, hasBit_foldl, Bool.or_eq_true, any_eq_true]
  simp only [Wants, all_eq_true] at hwants
  exact fun bit hbit => .inr ⟨bits, hbits, hwants bit hbit⟩

/-- An outcome says what was the case. -/
def Outcome.Sound (b : Bridge) (event : FleetEvent) : Outcome → Prop
  | .foreign => event.id.node ≠ b.node
  | .noKey => b.keyOf event = none
  | .unwanted key lanes watchers =>
    b.keyOf event = some key ∧ ∀ bits ∈ b.farEntries lanes watchers, ¬Wants bits key
  | _ => True

/-- What holds of the node's events, whoever published them. -/
structure Published (b : Bridge) (s : State) : Prop where
  node : ∀ e ∈ s.own ++ s.accepted, e.id.node = b.node
  distinct : s.counters.Nodup
  accepting : ∀ c ∈ s.accepting, ∃ e ∈ s.accepted, e.id.counter = c
  remembered : ∀ c ∈ s.remembered, ∃ e ∈ s.accepted, e.id.counter = c
  republished : ∀ c ∈ s.republished, ∃ e ∈ s.accepted, e.id.counter = c

/-- What holds of the events `pump` polled. -/
structure Polled (b : Bridge) (s : State) : Prop where
  all : s.polled = s.tested ++ s.untested
  known : ∀ e ∈ s.tested ++ s.untested, e.id.node = b.node → e ∈ s.own ++ s.accepted
  ordered : (b.ownCounters (s.tested ++ s.untested)).Pairwise (· < ·)
  /-- A counter is forgotten only once the tests have passed it. -/
  kept : ∀ c ∈ s.remembered, c ∈ s.republished ∨ ∃ e ∈ s.tested, e.id.node = b.node ∧
    c ≤ e.id.counter

/-- What holds of the outcomes. -/
structure Judged (b : Bridge) (s : State) : Prop where
  sound : ∀ h ∈ s.handled, h.2.Sound b h.1
  back : ∀ h ∈ s.handled, h.2 = .cameBack → h.1 ∈ s.accepted
  inHand : ∀ e stage, s.inHand = some (e, stage) → e.id.node = b.node ∧
    ∀ key, stage = .wants key → b.keyOf e = some key

structure Inv (b : Bridge) (s : State) : Prop where
  published : Published b s
  polled : Polled b s
  judged : Judged b s

theorem Inv.init (b : Bridge) : Inv b .init := by
  refine ⟨⟨?_, ?_, ?_, ?_, ?_⟩, ⟨?_, ?_, ?_, ?_⟩, ?_, ?_, ?_⟩ <;>
    simp [State.init, State.counters, State.tested, Bridge.ownCounters]

theorem Published.eq_of_counter (h : Published b s) {e e' : FleetEvent}
    (he : e ∈ s.own ++ s.accepted) (he' : e' ∈ s.own ++ s.accepted)
    (hcounter : e.id.counter = e'.id.counter) : e = e' :=
  inj_on_of_nodup_map h.distinct he he' hcounter

theorem Inv.publish (h : Inv b s) {e : FleetEvent} (hnode : e.id.node = b.node)
    (hfresh : e.id.counter ∉ s.counters) : Inv b { s with own := e :: s.own } where
  published :=
    { h.published with
      node := by
        intro e' he'
        obtain rfl | he' := mem_cons.mp he'
        · exact hnode
        · exact h.published.node e' he'
      distinct := nodup_cons.mpr ⟨hfresh, h.published.distinct⟩ }
  polled :=
    { h.polled with
      known := fun e' he' hown => mem_cons_of_mem _ (h.polled.known e' he' hown) }
  judged := ⟨h.judged.sound, h.judged.back, h.judged.inHand⟩

theorem Inv.accept (h : Inv b s) {e : FleetEvent} (hnode : e.id.node = b.node)
    (hfresh : e.id.counter ∉ s.counters) (notified : Bool) :
    Inv b { s with accepted := e :: s.accepted
                   accepting := if notified then e.id.counter :: s.accepting else s.accepting } := by
  have hmem : ∀ e', e' ∈ s.own ++ e :: s.accepted ↔ e' = e ∨ e' ∈ s.own ++ s.accepted := by
    intro e'
    simp only [mem_append, mem_cons]
    tauto
  have hgrow : ∀ {c}, (∃ e' ∈ s.accepted, e'.id.counter = c) →
      ∃ e' ∈ e :: s.accepted, e'.id.counter = c :=
    fun ⟨e', he', hc⟩ => ⟨e', mem_cons_of_mem _ he', hc⟩
  refine ⟨⟨?_, ?_, ?_, ?_, ?_⟩, ⟨h.polled.all, ?_, h.polled.ordered, h.polled.kept⟩, h.judged.sound, ?_,
    h.judged.inHand⟩
  · intro e' he'
    obtain rfl | he' := (hmem e').mp he'
    · exact hnode
    · exact h.published.node e' he'
  · have hperm : (s.own ++ e :: s.accepted).Perm (e :: (s.own ++ s.accepted)) :=
      perm_middle
    rw [State.counters, (hperm.map _).nodup_iff]
    exact nodup_cons.mpr ⟨hfresh, h.published.distinct⟩
  · intro c hc
    cases notified with
    | false => exact hgrow (h.published.accepting c (by simpa using hc))
    | true =>
      obtain rfl | hc := mem_cons.mp (by simpa using hc)
      · exact ⟨e, mem_cons_self, rfl⟩
      · exact hgrow (h.published.accepting c hc)
  · exact fun c hc => hgrow (h.published.remembered c hc)
  · exact fun c hc => hgrow (h.published.republished c hc)
  · exact fun e' he' hown => (hmem e').mpr (.inr (h.polled.known e' he' hown))
  · exact fun e' he' hback => mem_cons_of_mem _ (h.judged.back e' he' hback)

theorem Inv.remember (h : Inv b s) {counter : Nat} (hc : counter ∈ s.accepting) :
    Inv b { s with accepting := s.accepting.erase counter
                   remembered := counter :: s.remembered
                   republished := insert counter s.republished } := by
  have hevent := h.published.accepting counter hc
  refine ⟨⟨h.published.node, h.published.distinct, ?_, ?_, ?_⟩,
    ⟨h.polled.all, h.polled.known, h.polled.ordered, ?_⟩, h.judged.sound, h.judged.back, h.judged.inHand⟩
  · exact fun c hc => h.published.accepting c (mem_of_mem_erase hc)
  · intro c hc
    obtain rfl | hc := mem_cons.mp hc
    · exact hevent
    · exact h.published.remembered c hc
  · intro c hc
    obtain rfl | hc := Finset.mem_insert.mp hc
    · exact hevent
    · exact h.published.republished c hc
  · intro c hc
    obtain rfl | hc := mem_cons.mp hc
    · exact .inl (Finset.mem_insert_self _ _)
    · exact (h.polled.kept c hc).imp_left Finset.mem_insert_of_mem

theorem Inv.poll (h : Inv b s) {events : List FleetEvent} (hpolls : b.polls s events)
    (huntested : s.untested = []) (lagged : Nat) :
    Inv b { s with polled := s.polled ++ events, untested := events, lagged := lagged } := by
  refine ⟨⟨h.published.node, h.published.distinct, h.published.accepting, h.published.remembered,
    h.published.republished⟩, ⟨?_, ?_, hpolls.2, h.polled.kept⟩, h.judged.sound, h.judged.back,
    h.judged.inHand⟩
  · have hall := h.polled.all
    rw [huntested, append_nil] at hall
    exact congrArg (· ++ events) hall
  · intro e he hown
    obtain he | he := mem_append.mp he
    · exact h.polled.known e (mem_append_left _ he) hown
    · exact hpolls.1 e he hown

theorem Inv.take (h : Inv b s) {s' : State} {event : FleetEvent} (hown : s'.own = s.own)
    (haccepted : s'.accepted = s.accepted) (haccepting : s'.accepting = s.accepting)
    (hremembered : s'.remembered = s.remembered) (hpolled : s'.polled = s.polled)
    (hrepublished : s'.republished ⊆ s.republished)
    (hforget : ∀ c ∈ s.republished, c ∈ s'.republished ∨ event.id.node = b.node ∧
      c ≤ event.id.counter)
    (htested : s'.tested = s.tested ++ [event]) (huntested : s.untested = event :: s'.untested)
    (hjudged : Judged b s') : Inv b s' := by
  have hlist : s'.tested ++ s'.untested = s.tested ++ s.untested := by
    rw [htested, huntested, append_assoc, singleton_append]
  refine ⟨⟨?_, ?_, ?_, ?_, ?_⟩, ⟨?_, ?_, ?_, ?_⟩, hjudged⟩
  · rw [hown, haccepted]
    exact h.published.node
  · rw [State.counters, hown, haccepted]
    exact h.published.distinct
  · rw [haccepting, haccepted]
    exact h.published.accepting
  · rw [hremembered, haccepted]
    exact h.published.remembered
  · rw [haccepted]
    exact fun c hc => h.published.republished c (hrepublished hc)
  · rw [hpolled, hlist]
    exact h.polled.all
  · rw [hlist, hown, haccepted]
    exact h.polled.known
  · rw [hlist]
    exact h.polled.ordered
  · rw [hremembered, htested]
    intro c hc
    obtain hc | ⟨e, he, hnode, hle⟩ := h.polled.kept c hc
    · refine (hforget c hc).imp_right fun hpass => ⟨event, ?_, hpass⟩
      exact mem_append_right _ (mem_singleton_self event)
    · exact .inr ⟨e, mem_append_left _ he, hnode, hle⟩

theorem Inv.done (h : Inv b s) {event : FleetEvent} {stage : Stage}
    (hhand : s.inHand = some (event, stage)) {outcome : Outcome} (hsound : outcome.Sound b event)
    (hback : outcome ≠ .cameBack) : Inv b (s.done event outcome) := by
  have htested : (s.done event outcome).tested = s.tested := by
    simp [State.tested, State.done, hhand]
  refine ⟨⟨h.published.node, h.published.distinct, h.published.accepting, h.published.remembered,
    h.published.republished⟩, ⟨?_, ?_, ?_, ?_⟩, ?_, ?_, ?_⟩
  · rw [htested]
    exact h.polled.all
  · rw [htested]
    exact h.polled.known
  · rw [htested]
    exact h.polled.ordered
  · rw [htested]
    exact h.polled.kept
  · intro e he
    obtain he | he := mem_append.mp he
    · exact h.judged.sound e he
    · rw [mem_singleton.mp he]
      exact hsound
  · intro e he heq
    obtain he | he := mem_append.mp he
    · exact h.judged.back e he heq
    · rw [mem_singleton.mp he] at heq
      exact absurd heq hback
  · intro e stage he
    cases he

theorem Judged.append (h : Judged b s) {s' : State} {event : FleetEvent} {outcome : Outcome}
    (haccepted : s'.accepted = s.accepted) (hhandled : s'.handled = s.handled ++ [(event, outcome)])
    (hhand : s'.inHand = none) (hsound : outcome.Sound b event)
    (hback : outcome = .cameBack → event ∈ s.accepted) : Judged b s' where
  sound := by
    intro e he
    rw [hhandled] at he
    obtain he | he := mem_append.mp he
    · exact h.sound e he
    · rw [mem_singleton.mp he]
      exact hsound
  back := by
    intro e he heq
    rw [hhandled] at he
    rw [haccepted]
    obtain he | he := mem_append.mp he
    · exact h.back e he heq
    · rw [mem_singleton.mp he] at heq ⊢
      exact hback heq
  inHand := by
    intro e stage he
    rw [hhand] at he
    cases he

theorem Inv.test (h : Inv b s) : Inv b (b.exec s .test) := by
  simp only [Bridge.exec]
  split
  swap
  · exact h
  next event rest hhand huntested =>
  have htested : s.tested = s.handled.map Prod.fst := by simp [State.tested, hhand]
  by_cases hnode : event.id.node = b.node
  swap
  · rw [if_pos hnode]
    refine h.take rfl rfl rfl rfl rfl (Finset.Subset.refl _) (fun c hc => .inl hc) ?_ huntested ?_
    · simp [State.tested, State.done, hhand]
    · exact h.judged.append rfl rfl rfl hnode (by simp)
  rw [if_neg (by simpa using hnode)]
  have hforget : ∀ c ∈ s.republished, c ∈ s.republished.filter (event.id.counter + 1 ≤ ·) ∨
      event.id.node = b.node ∧ c ≤ event.id.counter := by
    intro c hc
    by_cases hle : c ≤ event.id.counter
    · exact .inr ⟨hnode, hle⟩
    · exact .inl (Finset.mem_filter.mpr ⟨hc, by omega⟩)
  split
  · next hback =>
    have hback : event.id.counter ∈ s.republished := of_decide_eq_true hback
    -- an event of the node that is remembered is one that was accepted
    have haccepted : event ∈ s.accepted := by
      obtain ⟨e, he, hcounter⟩ := h.published.republished _ hback
      have hevent := h.polled.known event (by simp [huntested]) hnode
      rw [h.published.eq_of_counter hevent (mem_append_right _ he) hcounter.symm]
      exact he
    refine h.take rfl rfl rfl rfl rfl (Finset.filter_subset _ _) hforget ?_ huntested ?_
    · simp [State.tested, State.done, State.cameBack, hhand]
    · exact h.judged.append rfl rfl rfl trivial fun _ => haccepted
  · split
    · next hkey =>
      refine h.take rfl rfl rfl rfl rfl (Finset.filter_subset _ _) hforget ?_ huntested ?_
      · simp [State.tested, State.done, State.cameBack, hhand]
      · exact h.judged.append rfl rfl rfl hkey (by simp)
    · next key hkey =>
      refine h.take rfl rfl rfl rfl rfl (Finset.filter_subset _ _) hforget ?_ huntested ?_
      · simp [State.tested, State.cameBack, hhand]
      · refine ⟨h.judged.sound, h.judged.back, ?_⟩
        rintro e stage he
        cases he
        refine ⟨hnode, ?_⟩
        rintro key' hkey'
        cases hkey'
        exact hkey

theorem Inv.exec (h : Inv b s) (action : Action) : Inv b (b.exec s action) := by
  cases action with
  | publish topic payload timestampMs write =>
    simp only [Bridge.exec]
    split
    · exact h
    · split
      · next hfresh => exact h.publish rfl hfresh.2
      · exact h
  | accept frame timestampMs write =>
    simp only [Bridge.exec]
    split
    · split
      · next hfresh => exact h.accept (e := ⟨⟨b.node, _⟩, _, _, _⟩) rfl hfresh.2 _
      · exact h
    · exact h
  | remember counter =>
    simp only [Bridge.exec]
    split
    · next hc => exact h.remember hc
    · exact h
  | poll events lagged =>
    simp only [Bridge.exec]
    split
    · next hpolls => exact h.poll hpolls.2.2 hpolls.2.1 _
    · exact h
  | test => exact h.test
  | wants lanes watchers =>
    simp only [Bridge.exec]
    split
    · next event key hhand =>
      split
      · have hnode := (h.judged.inHand event _ hhand).1
        have htested : ({ s with inHand := some (event, Stage.sends) } : State).tested =
            s.tested := by simp [State.tested, hhand]
        refine ⟨⟨h.published.node, h.published.distinct, h.published.accepting,
          h.published.remembered, h.published.republished⟩, ⟨?_, ?_, ?_, ?_⟩, h.judged.sound,
          h.judged.back, ?_⟩
        · rw [htested]
          exact h.polled.all
        · rw [htested]
          exact h.polled.known
        · rw [htested]
          exact h.polled.ordered
        · rw [htested]
          exact h.polled.kept
        · rintro e stage he
          cases he
          exact ⟨hnode, by simp⟩
      · next hwants =>
        refine h.done hhand ⟨(h.judged.inHand event _ hhand).2 key rfl, ?_⟩ (by simp)
        exact b.not_wants (by simpa using hwants)
    · exact h
  | send lanes write =>
    simp only [Bridge.exec]
    split
    · next event hhand =>
      split
      · exact h.done hhand trivial (by simp)
      · have hdone : Inv b (s.done event .sendFailed) := h.done hhand trivial (by simp)
        exact ⟨⟨hdone.published.node, hdone.published.distinct, hdone.published.accepting,
          hdone.published.remembered, hdone.published.republished⟩, ⟨hdone.polled.all,
          hdone.polled.known, hdone.polled.ordered, hdone.polled.kept⟩, hdone.judged.sound, hdone.judged.back,
          hdone.judged.inHand⟩
    · exact h

/-- `pump` tests an event that `accept` published only once `accept` has remembered it. -/
def TestsRemembered (b : Bridge) (s : State) (action : Action) : Prop :=
  match action, s.inHand, s.untested with
  | .test, none, event :: _ =>
    event.id.node = b.node → event ∈ s.accepted → event.id.counter ∈ s.remembered
  | _, _, _ => True

instance (b : Bridge) (s : State) (action : Action) : Decidable (TestsRemembered b s action) := by
  unfold TestsRemembered
  split <;> infer_instance

/-- Every accepted event that is done with was recognised, and the one in hand is none. -/
structure NoEcho (s : State) : Prop where
  handled : ∀ h ∈ s.handled, h.1 ∈ s.accepted → h.2 = .cameBack
  inHand : ∀ e stage, s.inHand = some (e, stage) → e ∉ s.accepted

theorem NoEcho.done (h : NoEcho s) {event : FleetEvent} {stage : Stage}
    (hhand : s.inHand = some (event, stage)) (outcome : Outcome) :
    NoEcho (s.done event outcome) where
  handled := by
    intro e he haccepted
    obtain he | he := mem_append.mp he
    · exact h.handled e he haccepted
    · rw [mem_singleton.mp he] at haccepted
      exact absurd haccepted (h.inHand event stage hhand)
  inHand := by
    intro e stage he
    cases he

theorem Inv.not_tested (h : Inv b s) {e : FleetEvent} (hnode : e.id.node = b.node)
    (hfresh : e.id.counter ∉ s.counters) : e ∉ s.tested := by
  intro he
  have hknown := h.polled.known e (mem_append_left _ he) hnode
  exact hfresh (mem_map_of_mem hknown)

theorem NoEcho.accept (h : NoEcho s) (hinv : Inv b s) {e : FleetEvent}
    (hnode : e.id.node = b.node) (hfresh : e.id.counter ∉ s.counters) {s' : State}
    (hhandled : s'.handled = s.handled) (hhand : s'.inHand = s.inHand)
    (haccepted : s'.accepted = e :: s.accepted) : NoEcho s' where
  handled := by
    intro e' he' hmem
    rw [hhandled] at he'
    rw [haccepted] at hmem
    obtain heq | hmem := mem_cons.mp hmem
    · refine absurd ?_ (hinv.not_tested hnode hfresh)
      rw [← heq]
      exact mem_append_left _ (mem_map_of_mem he')
    · exact h.handled e' he' hmem
  inHand := by
    intro e' stage he' hmem
    rw [hhand] at he'
    rw [haccepted] at hmem
    obtain rfl | hmem := mem_cons.mp hmem
    · refine hinv.not_tested hnode hfresh ?_
      simp [State.tested, he']
    · exact h.inHand e' stage he' hmem

theorem Inv.recognised (h : Inv b s) {event : FleetEvent} {rest : List FleetEvent}
    (huntested : s.untested = event :: rest) (hnode : event.id.node = b.node)
    (hremembered : event.id.counter ∈ s.remembered) : event.id.counter ∈ s.republished := by
  obtain hkept | ⟨e, he, hown, hle⟩ := h.polled.kept _ hremembered
  · exact hkept
  · have hordered := h.polled.ordered
    rw [huntested, Bridge.ownCounters, filter_append, map_append,
      pairwise_append] at hordered
    have hlt := hordered.2.2 e.id.counter
      (mem_map_of_mem (mem_filter.mpr ⟨he, by simpa using hown⟩)) event.id.counter
      (mem_map_of_mem (mem_filter.mpr ⟨mem_cons_self, by simpa using hnode⟩))
    omega

theorem NoEcho.test (h : NoEcho s) (hinv : Inv b s) (hok : TestsRemembered b s .test) :
    NoEcho (b.exec s .test) := by
  simp only [Bridge.exec]
  split
  swap
  · exact h
  next event rest hhand huntested =>
  simp only [TestsRemembered, hhand, huntested] at hok
  -- the log after the event is done with at once
  have happend : ∀ (s' : State) outcome, s'.accepted = s.accepted → s'.inHand = none →
      s'.handled = s.handled ++ [(event, outcome)] →
      (event ∈ s.accepted → outcome = .cameBack) → NoEcho s' := by
    intro s' outcome haccepted hnone hhandled hout
    constructor
    · intro e he hmem
      rw [hhandled] at he
      rw [haccepted] at hmem
      obtain he | he := mem_append.mp he
      · exact h.handled e he hmem
      · rw [mem_singleton.mp he] at hmem ⊢
        exact hout hmem
    · intro e stage he
      rw [hnone] at he
      cases he
  split
  · next hnode =>
    refine happend _ .foreign rfl rfl rfl fun hmem => absurd ?_ hnode
    exact hinv.published.node event (mem_append_right _ hmem)
  next hnode =>
  have hnode : event.id.node = b.node := by simpa using hnode
  split
  · exact happend _ .cameBack rfl rfl rfl fun _ => rfl
  next hback =>
  have hnot : event ∉ s.accepted := by
    intro hmem
    apply hback
    exact decide_eq_true (hinv.recognised huntested hnode (hok hnode hmem))
  split
  · exact happend _ .noKey rfl rfl rfl fun hmem => absurd hmem hnot
  · constructor
    · exact h.handled
    · intro e stage he
      cases he
      exact hnot

theorem NoEcho.exec (h : NoEcho s) (hinv : Inv b s) {action : Action}
    (hok : TestsRemembered b s action) : NoEcho (b.exec s action) := by
  cases action with
  | publish topic payload timestampMs write =>
    simp only [Bridge.exec]
    split
    · exact h
    · split <;> exact ⟨h.handled, h.inHand⟩
  | accept frame timestampMs write =>
    simp only [Bridge.exec]
    split
    · split
      · next hfresh => exact h.accept hinv rfl hfresh.2 rfl rfl rfl
      · exact h
    · exact h
  | remember counter =>
    simp only [Bridge.exec]
    split <;> exact ⟨h.handled, h.inHand⟩
  | poll events lagged =>
    simp only [Bridge.exec]
    split <;> exact ⟨h.handled, h.inHand⟩
  | test => exact h.test hinv hok
  | wants lanes watchers =>
    simp only [Bridge.exec]
    split
    · next event key hhand =>
      split
      · refine ⟨h.handled, ?_⟩
        rintro e stage he
        cases he
        exact h.inHand event _ hhand
      · exact h.done hhand _
    · exact h
  | send lanes write =>
    simp only [Bridge.exec]
    split
    · next event hhand =>
      split
      · exact h.done hhand _
      · exact ⟨(h.done hhand .sendFailed).handled, (h.done hhand .sendFailed).inHand⟩
    · exact h

theorem run_inv (b : Bridge) (actions : List Action) : Inv b (b.run actions) :=
  foldl_holds (fun _ action h => h.exec action) actions (.init b)

theorem Polled.cases (h : Polled b s) {e : FleetEvent} (he : e ∈ s.polled) :
    e ∈ s.handled.map Prod.fst ∨ e ∈ s.untested ∨ ∃ stage, s.inHand = some (e, stage) := by
  rw [h.all, State.tested, mem_append, mem_append] at he
  obtain (he | he) | he := he
  · exact .inl he
  · obtain ⟨⟨e', stage⟩, hhand, rfl⟩ := Option.map_eq_some_iff.mp (Option.mem_toList.mp he)
    exact .inr (.inr ⟨stage, hhand⟩)
  · exact .inr (.inl he)

theorem Inv.handled_once (h : Inv b s) {e : FleetEvent} (hnode : e.id.node = b.node) :
    (s.handled.map Prod.fst).count e ≤ 1 := by
  have hordered := h.polled.ordered
  rw [State.tested, append_assoc, Bridge.ownCounters, filter_append, map_append,
    pairwise_append] at hordered
  have hnodup : ((s.handled.map Prod.fst).filter fun e => e.id.node = b.node).Nodup :=
    Nodup.of_map _ (hordered.1.imp fun hlt => Nat.ne_of_lt hlt)
  rw [← count_filter (p := fun e : FleetEvent => e.id.node = b.node) (by simpa using hnode)]
  exact nodup_iff_count_le_one.mp hnodup e

/-- In every run whose tests find each accepted event remembered, no event that `accept` published
is written back; and in every run an event of the process itself is handled at most once, and is
left unwritten only when it has no routing key, when no far entry wants its key, or when the send
failed. -/
theorem bridged_events (b : Bridge) (actions : List Action) :
    (Meets b.exec (TestsRemembered b) .init actions →
      ∀ e ∈ (b.run actions).accepted, ∀ lane, (e, .written lane) ∉ (b.run actions).handled) ∧
    ∀ e ∈ (b.run actions).own,
      (e ∈ (b.run actions).polled → e ∈ (b.run actions).handled.map Prod.fst ∨
        e ∈ (b.run actions).untested ∨ ∃ stage, (b.run actions).inHand = some (e, stage)) ∧
      ((b.run actions).handled.map Prod.fst).count e ≤ 1 ∧
      (∀ outcome, (e, outcome) ∈ (b.run actions).handled →
        (∃ lane, outcome = .written lane) ∨ outcome = .sendFailed ∨
        (outcome = .noKey ∧ b.keyOf e = none) ∨
        ∃ key lanes watchers, outcome = .unwanted key lanes watchers ∧ b.keyOf e = some key ∧
          ∀ bits ∈ b.farEntries lanes watchers, ¬Wants bits key) := by
  have hinv := run_inv b actions
  constructor
  · intro hmeets e he lane hwritten
    have hecho : Inv b (b.run actions) ∧ NoEcho (b.run actions) :=
      hmeets.holds (I := fun s => Inv b s ∧ NoEcho s)
        (fun s action h hok => ⟨h.1.exec action, h.2.exec h.1 hok⟩)
        ⟨.init b, by simp [State.init], by simp [State.init]⟩
    have := hecho.2.handled _ hwritten he
    cases this
  · intro e he
    have hnode := hinv.published.node e (mem_append_left _ he)
    refine ⟨fun hpolled => hinv.polled.cases hpolled, hinv.handled_once hnode,
      fun outcome hout => ?_⟩
    have hsound := hinv.judged.sound _ hout
    cases outcome with
    | foreign => exact absurd hnode hsound
    | cameBack =>
      -- its counter would be that of an accepted event
      have haccepted := hinv.judged.back _ hout rfl
      have hdistinct := hinv.published.distinct
      rw [State.counters, map_append, nodup_append] at hdistinct
      exact absurd rfl (hdistinct.2.2 _ (mem_map_of_mem he) _ (mem_map_of_mem haccepted))
    | noKey => exact .inr (.inr (.inl ⟨rfl, hsound⟩))
    | unwanted key lanes watchers =>
      exact .inr (.inr (.inr ⟨key, lanes, watchers, rfl, hsound.1, hsound.2⟩))
    | sendFailed => exact .inr (.inl rfl)
    | written lane => exact .inl ⟨lane, rfl⟩

/-- A bridge whose far side is the lanes of role `php`, over a ring of frames of 64 bytes. -/
def phpBridge : Bridge := ⟨1, (· = "php"), none, 64⟩

/-- An event of topic `a` without payload, as the lane reader publishes it. -/
def echoed : FleetEvent := ⟨⟨1, 7⟩, [97], [], 0⟩

def eagerLane : LaneSeen := ⟨1, some "php", fun _ => 2 ^ 64 - 1, true, 0⟩

def echoActions : List Action :=
  [.accept [0xf1, 1, 0, 97, 0, 0, 0, 0] 0 (.written 7 true), .poll [echoed] 0, .test,
    .wants [eagerLane] [], .send [eagerLane] (.ok ()), .remember 7]

theorem accepted_event_echoes :
    echoed ∈ (phpBridge.run echoActions).accepted ∧
    (echoed, Outcome.written 0) ∈ (phpBridge.run echoActions).handled := by
  have hrun : (phpBridge.run echoActions).accepted = [echoed] ∧
      (phpBridge.run echoActions).handled = [(echoed, .written 0)] := ⟨rfl, rfl⟩
  rw [hrun.1, hrun.2]
  exact ⟨mem_singleton_self _, mem_singleton_self _⟩

end OrbitLink
