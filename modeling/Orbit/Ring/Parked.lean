import Orbit.Atomic.Machine
import Mathlib.Algebra.Group.Nat.Defs
import Mathlib.Logic.Function.Basic

/-! Readiness of a ring whose publishers wake only parked readers: publishers, the driver that parks
on the generation of the ring, and the consumer of the descriptor that the driver signals. -/

namespace OrbitRing.Parked

open Orbit.Atomic List Function Option

/-- Where a publisher is in `publish_notified_parked`. -/
inductive Publisher where
  | idle
  /-- The frames are written, the generation is next. -/
  | written
  /-- The generation is incremented, the waiters are next. -/
  | counted
  /-- There were waiters, the wake is next. -/
  | waking
  deriving DecidableEq

/-- Where the driver is in its loop. -/
inductive Driver where
  | top
  /-- Counted in, the generation is next. -/
  | within
  /-- The generation was the observed one, the wait is next. -/
  | waiting
  | parked
  /-- The wait is over, the driver counts out next. -/
  | woken
  /-- The generation was another, the driver counts out next. -/
  | changed (current : Nat)
  /-- Counted out, `pending` is set next. -/
  | observed
  /-- The descriptor is signalled next. -/
  | flagged
  /-- The driver looks at `pending` next. -/
  | signalled
  /-- In the wait for a drain. -/
  | asleep
  deriving DecidableEq

/-- Where the consumer is: it drains the descriptor, polls the ring and waits for the descriptor. -/
inductive Consumer where
  | draining
  /-- The descriptor is empty, `pending` is cleared next. -/
  | drained
  /-- The driver is notified next. -/
  | released
  /-- The head of the ring is loaded next. -/
  | polls
  | polling (head : Nat)
  | waiting
  deriving DecidableEq

structure State where
  /-- The frames in the ring. -/
  frames : Nat
  /-- The counters that the consumer's cursor has passed. -/
  polled : Nat
  /-- How often the generation has been incremented. -/
  notifications : Nat
  waiters : Nat
  publishers : Nat → Publisher
  driver : Driver
  /-- The notifications there were when the driver loaded the generation it goes by. -/
  observed : Nat
  pending : Bool
  tokens : Nat
  consumer : Consumer

/-- The word of 32 bits that counts notifications. -/
def word (notifications : Nat) : Nat := notifications % 2 ^ 32

def State.generation (s : State) : Nat := word s.notifications

def State.setPublisher (s : State) (p : Nat) (publisher : Publisher) : State :=
  { s with publishers := update s.publishers p publisher }

def State.wake (s : State) : State :=
  { s with driver := if s.driver = .parked then .woken else s.driver }

/-- A publisher with `count` frames. -/
def publish (s : State) (p count : Nat) : Option State :=
  match s.publishers p with
  | .idle => if count = 0 then none
    else some ({ s with frames := s.frames + count }.setPublisher p .written)
  | .written => some ({ s with notifications := s.notifications + 1 }.setPublisher p .counted)
  | .counted => some (s.setPublisher p (if s.waiters = 0 then .idle else .waking))
  | .waking => some (s.wake.setPublisher p .idle)

def drive (s : State) : Option State :=
  match s.driver with
  | .top => some { s with waiters := (s.waiters + 1) % 2 ^ 32, driver := .within }
  | .within =>
    some { s with driver :=
      if s.generation = word s.observed then .waiting else .changed s.notifications }
  | .waiting =>
    some { s with driver := if s.generation = word s.observed then .parked else .woken }
  | .woken => some { s with waiters := (s.waiters + (2 ^ 32 - 1)) % 2 ^ 32, driver := .top }
  | .changed current =>
    some { s with
      waiters := (s.waiters + (2 ^ 32 - 1)) % 2 ^ 32
      observed := current
      driver := .observed }
  | .observed => some { s with pending := true, driver := .flagged }
  | .flagged => some { s with tokens := s.tokens + 1, driver := .signalled }
  | .signalled => some { s with driver := if s.pending then .asleep else .top }
  | .parked | .asleep => none

def interrupt (s : State) : Option State :=
  match s.driver with
  | .parked => some { s with driver := .woken }
  | .asleep => some { s with driver := .signalled }
  | _ => none

def consume (s : State) : Option State :=
  match s.consumer with
  | .draining =>
    some (if s.tokens = 0 then { s with consumer := .drained } else { s with tokens := 0 })
  | .drained => some { s with pending := false, consumer := .released }
  | .released =>
    some { s with
      driver := if s.driver = .asleep then .signalled else s.driver
      consumer := .polls }
  | .polls => some { s with consumer := .polling s.frames }
  | .polling head => some { s with polled := head, consumer := .waiting }
  | .waiting => if s.tokens = 0 then none else some { s with consumer := .draining }

inductive Action where
  | publish (p count : Nat)
  | drive
  | interrupt
  | consume

def step (s : State) : Action → Option State
  | .publish p count => Parked.publish s p count
  | .drive => Parked.drive s
  | .interrupt => Parked.interrupt s
  | .consume => Parked.consume s

/-- `ParkedRingEventFd::new` has loaded the generation, whatever the publishers have been at. -/
structure Start (s : State) : Prop where
  polled_le : s.polled ≤ s.frames
  waiters : s.waiters = 0
  driver : s.driver = .top
  observed : s.observed = s.notifications
  pending : s.pending = false
  tokens : s.tokens = 0
  consumer : s.consumer = .draining

/-- The publishers are done, and nobody tells the consumer of the frames it has not polled. -/
def Lost (s : State) : Prop :=
  (∀ p, s.publishers p = .idle) ∧ s.polled < s.frames ∧ s.consumer = .waiting ∧ s.tokens = 0 ∧
    (s.driver = .parked ∨ s.driver = .asleep)

/-- The driver does not take a generation for the one it observed after the word went all round. -/
def Fresh (s : State) : Action → Prop
  | .drive => s.driver = .waiting → s.generation = word s.observed → s.notifications = s.observed
  | _ => True

def State.loaded (s : State) : Nat :=
  match s.driver with
  | .changed current => current
  | _ => s.observed

def Driver.isWithin : Driver → Bool
  | within | waiting | parked | woken | changed _ => true
  | top | observed | flagged | signalled | asleep => false

def Driver.owes : Driver → Bool
  | changed _ | observed | flagged => true
  | top | within | waiting | parked | woken | signalled | asleep => false

def Consumer.willPoll : Consumer → Bool
  | draining | drained | released | polls => true
  | polling _ | waiting => false

/-- The consumer clears `pending` before it waits again. -/
def Consumer.willClear : Consumer → Bool
  | draining | drained => true
  | released | polls | polling _ | waiting => false

/-- The frames up to `due` were in the ring when the driver last loaded the generation. -/
structure Inv (due : Nat) (s : State) : Prop where
  waiters : s.waiters = if s.driver.isWithin then 1 else 0
  loaded_le : s.loaded ≤ s.notifications
  due_le : due ≤ s.frames
  polled_le : s.polled ≤ s.frames
  polling : ∀ head, s.consumer = .polling head → s.polled ≤ head ∧ head ≤ s.frames
  /-- Whoever changed the generation since the driver compared it is about to wake it. -/
  parked : s.driver = .parked → s.notifications = s.observed ∨
    ∃ p, s.publishers p = .counted ∨ s.publishers p = .waking
  /-- A driver that waits for a drain has one to come. -/
  flagged : s.driver = .signalled ∨ s.driver = .asleep → s.pending = true →
    0 < s.tokens ∨ s.consumer.willClear = true
  asleep : s.driver = .asleep → s.pending = false → s.consumer = .released
  told : due ≤ s.polled ∨ s.driver.owes = true ∨ 0 < s.tokens ∨ s.consumer.willPoll = true ∨
    ∃ head, s.consumer = .polling head ∧ due ≤ head
  /-- A frame that is not due has its notification to come, or since the load. -/
  later : due < s.frames → s.loaded < s.notifications ∨ ∃ p, s.publishers p = .written

section

variable {s s' : State} {due p count : Nat}

theorem Start.inv (h : Start s) : Inv s.frames s where
  waiters := by
    rw [h.waiters, h.driver]
    rfl
  loaded_le := by
    rw [State.loaded, h.driver]
    exact Nat.le_of_eq h.observed
  due_le := Nat.le_refl _
  polled_le := h.polled_le
  polling head hhead := by
    rw [h.consumer] at hhead
    cases hhead
  parked hparked := by
    rw [h.driver] at hparked
    cases hparked
  flagged _ hpending := by
    rw [h.pending] at hpending
    cases hpending
  asleep hasleep := by
    rw [h.driver] at hasleep
    cases hasleep
  told := by
    rw [h.consumer]
    exact .inr (.inr (.inr (.inl rfl)))
  later hlt := (Nat.lt_irrefl _ hlt).elim

@[simp] theorem setPublisher_self (publisher : Publisher) :
    (s.setPublisher p publisher).publishers p = publisher := update_self _ _ _

theorem exists_other {publishers : Nat → Publisher} {P : Publisher → Prop} {publisher : Publisher}
    (h : ∃ q, P (publishers q)) (hold : ¬P (publishers p)) :
    ∃ q, P (update publishers p publisher q) := by
  obtain ⟨q, hq⟩ := h
  have hne : q ≠ p := by
    rintro rfl
    exact hold hq
  refine ⟨q, ?_⟩
  rw [update_of_ne hne]
  exact hq

theorem other_written {publisher : Publisher} (h : ∃ q, s.publishers q = .written)
    (hphase : s.publishers p ≠ .written) :
    ∃ q, (s.setPublisher p publisher).publishers q = .written :=
  exists_other (P := (· = .written)) h hphase

theorem Inv.write (h : Inv due s) (hphase : s.publishers p = .idle) :
    Inv due ({ s with frames := s.frames + count }.setPublisher p .written) where
  waiters := h.waiters
  loaded_le := h.loaded_le
  due_le := Nat.le_add_right_of_le h.due_le
  polled_le := Nat.le_add_right_of_le h.polled_le
  polling head hhead := (h.polling head hhead).imp_right Nat.le_add_right_of_le
  parked hparked := by
    refine Or.imp_right (fun hwakes => ?_) (h.parked hparked)
    refine exists_other (P := fun x => x = .counted ∨ x = .waking) hwakes ?_
    rw [hphase]
    rintro (h | h) <;> cases h
  flagged := h.flagged
  asleep := h.asleep
  told := h.told
  later _ := .inr ⟨p, setPublisher_self _⟩

theorem Inv.notify (h : Inv due s) :
    Inv due ({ s with notifications := s.notifications + 1 }.setPublisher p .counted) :=
  { h with
    loaded_le := Nat.le_succ_of_le h.loaded_le
    parked := fun _ => .inr ⟨p, .inl (setPublisher_self _)⟩
    later := fun _ => .inl (Nat.lt_succ_of_le h.loaded_le) }

theorem Inv.look (h : Inv due s) (hphase : s.publishers p = .counted) :
    Inv due (s.setPublisher p (if s.waiters = 0 then .idle else .waking)) := by
  have hwritten : s.publishers p ≠ .written := by
    rw [hphase]
    rintro ⟨⟩
  refine { h with
    parked := fun hparked => .inr ⟨p, .inr ?_⟩
    later := fun hlt => Or.imp_right (other_written · hwritten) (h.later hlt) }
  have hwaiters := h.waiters
  have hdriver : s.driver = .parked := hparked
  rw [hdriver] at hwaiters
  rw [setPublisher_self, hwaiters]
  rfl

attribute [local grind] State.loaded Driver.isWithin Driver.owes Consumer.willPoll
  Consumer.willClear

theorem Inv.wake (h : Inv due s) (hphase : s.publishers p = .waking) :
    Inv due (s.wake.setPublisher p .idle) := by
  have hwritten : s.publishers p ≠ .written := by
    rw [hphase]
    rintro ⟨⟩
  have hother : (∃ q, s.publishers q = .written) →
      ∃ q, (s.wake.setPublisher p .idle).publishers q = .written :=
    fun h => exists_other (P := (· = .written)) h hwritten
  have hdriver : (s.wake.setPublisher p .idle).driver =
      if s.driver = .parked then .woken else s.driver := rfl
  constructor <;> grind [Inv, State.wake, State.setPublisher]

theorem Inv.publish (h : Inv due s) (hstep : Parked.publish s p count = some s') : Inv due s' := by
  unfold Parked.publish at hstep
  generalize hphase : s.publishers p = phase at hstep
  cases phase with
  | idle =>
    obtain ⟨-, hs'⟩ := ite_none_left_eq_some.mp hstep
    cases hs'
    exact h.write hphase
  | written =>
    cases hstep
    exact h.notify
  | counted =>
    cases hstep
    exact h.look hphase
  | waking =>
    cases hstep
    exact h.wake hphase

theorem Inv.drive_top (h : Inv due s) (hphase : s.driver = .top) :
    Inv due { s with waiters := (s.waiters + 1) % 2 ^ 32, driver := .within } := by
  constructor <;> grind [Inv]

/-- When the generation is another, every frame that is in the ring has been announced, or is
announced from now on. -/
theorem Inv.drive_changed (h : Inv due s) (hphase : s.driver = .within) :
    Inv s.frames { s with driver := .changed s.notifications } := by
  constructor <;> grind [Inv]

theorem Inv.drive_same (h : Inv due s) (hphase : s.driver = .within) :
    Inv due { s with driver := .waiting } := by
  constructor <;> grind [Inv]

theorem Inv.drive_waiting (h : Inv due s) (hphase : s.driver = .waiting)
    (hparks : s.generation = word s.observed → s.notifications = s.observed) :
    Inv due { s with driver := if s.generation = word s.observed then .parked else .woken } := by
  constructor <;> grind [Inv]

theorem Inv.drive_woken (h : Inv due s) (hphase : s.driver = .woken) :
    Inv due { s with waiters := (s.waiters + (2 ^ 32 - 1)) % 2 ^ 32, driver := .top } := by
  constructor <;> grind [Inv]

theorem Inv.drive_out {current : Nat} (h : Inv due s) (hphase : s.driver = .changed current) :
    Inv due { s with
      waiters := (s.waiters + (2 ^ 32 - 1)) % 2 ^ 32
      observed := current
      driver := .observed } := by
  constructor <;> grind [Inv]

theorem Inv.drive_observed (h : Inv due s) (hphase : s.driver = .observed) :
    Inv due { s with pending := true, driver := .flagged } := by
  constructor <;> grind [Inv]

theorem Inv.drive_flagged (h : Inv due s) (hphase : s.driver = .flagged) :
    Inv due { s with tokens := s.tokens + 1, driver := .signalled } := by
  constructor <;> grind [Inv]

theorem Inv.drive_signalled (h : Inv due s) (hphase : s.driver = .signalled) :
    Inv due { s with driver := if s.pending then .asleep else .top } := by
  constructor <;> grind [Inv]

theorem Inv.drive (h : Inv due s) (hfresh : Fresh s .drive) (hstep : Parked.drive s = some s') :
    ∃ due, Inv due s' := by
  unfold Parked.drive at hstep
  generalize hphase : s.driver = phase at hstep
  cases phase with
  | top =>
    cases hstep
    exact ⟨due, h.drive_top hphase⟩
  | within =>
    cases hstep
    split
    · exact ⟨due, h.drive_same hphase⟩
    · exact ⟨s.frames, h.drive_changed hphase⟩
  | waiting =>
    cases hstep
    exact ⟨due, h.drive_waiting hphase (hfresh hphase)⟩
  | woken =>
    cases hstep
    exact ⟨due, h.drive_woken hphase⟩
  | changed current =>
    cases hstep
    exact ⟨due, h.drive_out hphase⟩
  | observed =>
    cases hstep
    exact ⟨due, h.drive_observed hphase⟩
  | flagged =>
    cases hstep
    exact ⟨due, h.drive_flagged hphase⟩
  | signalled =>
    cases hstep
    exact ⟨due, h.drive_signalled hphase⟩
  | parked | asleep =>
    cases hstep

theorem Inv.interrupt (h : Inv due s) (hstep : Parked.interrupt s = some s') : Inv due s' := by
  unfold Parked.interrupt at hstep
  split at hstep <;> cases hstep <;> constructor <;> grind [Inv]

theorem Inv.consume_drains (h : Inv due s) (hphase : s.consumer = .draining) :
    Inv due { s with tokens := 0, consumer := .draining } := by
  constructor <;> grind [Inv]

theorem Inv.consume_drained (h : Inv due s) (hphase : s.consumer = .draining) :
    Inv due { s with consumer := .drained } := by
  constructor <;> grind [Inv]

theorem Inv.consume_clears (h : Inv due s) :
    Inv due { s with pending := false, consumer := .released } := by
  constructor <;> grind [Inv]

theorem Inv.consume_released (h : Inv due s) (hphase : s.consumer = .released) :
    Inv due { s with
      driver := if s.driver = .asleep then .signalled else s.driver
      consumer := .polls } := by
  constructor <;> grind [Inv]

theorem Inv.consume_polls (h : Inv due s) (hphase : s.consumer = .polls) :
    Inv due { s with consumer := .polling s.frames } := by
  constructor <;> grind [Inv]

theorem Inv.consume_polling {head : Nat} (h : Inv due s) (hphase : s.consumer = .polling head) :
    Inv due { s with polled := head, consumer := .waiting } := by
  constructor <;> grind [Inv]

theorem Inv.consume_waiting (h : Inv due s) (hphase : s.consumer = .waiting) :
    Inv due { s with consumer := .draining } := by
  constructor <;> grind [Inv]

theorem Inv.consume (h : Inv due s) (hstep : Parked.consume s = some s') : Inv due s' := by
  unfold Parked.consume at hstep
  generalize hphase : s.consumer = phase at hstep
  cases phase with
  | draining =>
    cases hstep
    split
    · exact h.consume_drained hphase
    · exact h.consume_drains hphase
  | drained =>
    cases hstep
    exact h.consume_clears
  | released =>
    cases hstep
    exact h.consume_released hphase
  | polls =>
    cases hstep
    exact h.consume_polls hphase
  | polling head =>
    cases hstep
    exact h.consume_polling hphase
  | waiting =>
    obtain ⟨-, hs'⟩ := ite_none_left_eq_some.mp hstep
    cases hs'
    exact h.consume_waiting hphase

theorem Inv.step {a : Action} (h : Inv due s) (hfresh : Fresh s a)
    (hstep : Parked.step s a = some s') : ∃ due, Inv due s' := by
  cases a with
  | publish p count => exact ⟨due, h.publish hstep⟩
  | drive => exact h.drive hfresh hstep
  | interrupt => exact ⟨due, h.interrupt hstep⟩
  | consume => exact ⟨due, h.consume hstep⟩

theorem Inv.wakes (h : Inv due s) : ¬Lost s := by
  rintro ⟨hidle, hunpolled, hwaiting, htokens, hdriver⟩
  -- a driver that is asleep has a drain to come
  have hparked : s.driver = .parked := by
    refine hdriver.resolve_right fun hasleep => ?_
    cases hpending : s.pending with
    | true =>
      have hflagged := h.flagged (.inr hasleep) hpending
      rw [htokens, hwaiting] at hflagged
      rcases hflagged with hlt | hclears
      · exact Nat.lt_irrefl _ hlt
      · cases hclears
    | false =>
      have hreleased := h.asleep hasleep hpending
      rw [hwaiting] at hreleased
      cases hreleased
  have hdue : due ≤ s.polled := by
    have htold := h.told
    rw [hparked, hwaiting, htokens] at htold
    rcases htold with hle | howes | hlt | hpolls | ⟨head, hhead, -⟩
    · exact hle
    · cases howes
    · exact absurd hlt (Nat.lt_irrefl _)
    · cases hpolls
    · cases hhead
  -- so the frame came later, and so did its notification
  rcases h.later (Nat.lt_of_le_of_lt hdue hunpolled) with hlt | ⟨p, hp⟩
  · rw [State.loaded, hparked] at hlt
    rcases h.parked hparked with heq | ⟨p, hp⟩
    · exact absurd heq (Nat.ne_of_gt hlt)
    · rw [hidle p] at hp
      rcases hp with hp | hp <;> cases hp
  · rw [hidle p] at hp
    cases hp

end

/-- In a run in which the driver never waits on a generation that went all round since it observed
it, no frame is left without a reader that is told of it. -/
theorem not_lost {s : State} (h : Reached step Fresh Start s) : ¬Lost s := by
  obtain ⟨due, hs⟩ := h.holds (I := fun s => ∃ due, Inv due s)
    (fun s hstart => ⟨s.frames, hstart.inv⟩)
    fun s a s' ⟨_, hs⟩ hfresh hstep => hs.step hfresh hstep
  exact hs.wakes

instance (s : State) (a : Action) : Decidable (Fresh s a) :=
  match a with
  | .drive => inferInstanceAs (Decidable (_ → _ → _))
  | .publish .. | .interrupt | .consume => inferInstanceAs (Decidable True)

def State.new : State where
  frames := 0
  polled := 0
  notifications := 0
  waiters := 0
  publishers _ := .idle
  driver := .top
  observed := 0
  pending := false
  tokens := 0
  consumer := .draining

theorem start_new : Start .new := ⟨Nat.le_refl _, rfl, rfl, rfl, rfl, rfl, rfl⟩

/-- The driver parks, a frame is published, and the consumer waits after it has polled it. -/
def told : List Action :=
  replicate 3 .drive ++ replicate 5 .consume ++ replicate 4 (.publish 0 1) ++
    replicate 7 .drive ++ replicate 7 .consume

theorem not_lost_told : ∃ s, Reached step Fresh Start s ∧ s.polled = 1 ∧ s.consumer = .waiting ∧
    ¬Lost s := by
  have hrun : (actAll step Fresh .new told).any
      (fun s => s.polled == 1 && s.consumer == .waiting) = true := by decide
  obtain ⟨s, hs, hpolled⟩ := Reached.exists_of_actAll (.start start_new) hrun
  rw [Bool.and_eq_true, beq_iff_eq, beq_iff_eq] at hpolled
  exact ⟨s, hs, hpolled.1, hpolled.2, not_lost hs⟩

theorem publish_unheard {s : State} (hidle : s.publishers 0 = .idle) (hwaiters : s.waiters = 0) :
    actAll step anyAction s (replicate 3 (.publish 0 1)) =
      some { s with frames := s.frames + 1, notifications := s.notifications + 1 } := by
  have hself : update s.publishers 0 .idle = s.publishers := by
    rw [← hidle, update_eq_self]
  simp [actAll, anyAction, step, publish, State.setPublisher, hidle, hwaiters, hself]

theorem publishes {s : State} (h : Reached step anyAction Start s)
    (hidle : s.publishers 0 = .idle) (hwaiters : s.waiters = 0) (n : Nat) :
    Reached step anyAction Start
      { s with frames := s.frames + n, notifications := s.notifications + n } := by
  induction n with
  | zero => exact h
  | succ n ih => exact ih.actAll (publish_unheard hidle hwaiters)

theorem parks {s : State} (hdriver : s.driver = .top) (hwaiters : s.waiters = 0)
    (hsame : s.generation = word s.observed) :
    actAll step anyAction s (replicate 3 .drive) =
      some { s with waiters := 1, driver := .parked } := by
  have hsame' : word s.notifications = word s.observed := hsame
  simp [actAll, anyAction, step, drive, State.generation, hdriver, hwaiters, hsame']

/-- The consumer waits, the word goes all round, and the driver parks on it. -/
theorem lost : ∃ s, Reached step anyAction Start s ∧ Lost s := by
  have hwaiting : Reached step anyAction Start { State.new with consumer := .waiting } :=
    Reached.actAll (l := replicate 5 .consume) (.start start_new) rfl
  have hround := publishes hwaiting rfl rfl (2 ^ 32)
  have hparked := hround.actAll (parks rfl rfl (by decide))
  exact ⟨_, hparked, fun _ => rfl, by decide, rfl, rfl, .inl rfl⟩

end OrbitRing.Parked
