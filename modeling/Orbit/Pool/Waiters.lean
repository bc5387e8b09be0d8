import Orbit.Atomic.Word
import Orbit.Atomic.Machine
import Mathlib.Logic.Function.Basic

/-! Tasks that wait for the capacity of a key: their polls, the calls that change a key, and the
driver of each node, which turns the node's doorbell into wakes. -/

namespace OrbitPool.Waiters

open Orbit.Atomic List Function Option

/-- The geometry of a table; one that is not shared has the node of its process only. -/
structure Table where
  shared : Bool
  fleetCapacity : Nat
  keyCapacity : Nat
  node : Nat

def Table.keyWords (T : Table) : Nat := (T.keyCapacity + 63) / 64

/-- The arguments of `poll_capacity`, and the node that calls it. -/
structure Poll where
  node : Nat
  key : Nat
  since : Nat
  deriving DecidableEq

def Poll.Of (T : Table) (poll : Poll) : Prop :=
  poll.key < T.keyCapacity ∧ poll.node < T.fleetCapacity ∧ (T.shared = false → poll.node = T.node)

instance (T : Table) (poll : Poll) : Decidable (poll.Of T) :=
  inferInstanceAs (Decidable (_ ∧ _ ∧ (_ → _)))

/-- Where a task is in `poll_capacity`. -/
inductive Task where
  | idle
  /-- The changes are loaded next. -/
  | looks (poll : Poll)
  /-- The waker is pushed next. -/
  | pushes (poll : Poll)
  /-- The interest of the node is set next. -/
  | marks (poll : Poll)
  /-- The driver is started next, if there is none. -/
  | starts (poll : Poll)
  /-- The changes are loaded again next. -/
  | looksAgain (poll : Poll)
  | pending (poll : Poll)
  deriving DecidableEq

/-- Where a call is in `key_changed_with`. -/
inductive Call where
  | idle
  /-- The changes are incremented next. -/
  | counts (key : Nat)
  /-- The wakers of the process are taken next. -/
  | wakesHere (key : Nat)
  /-- The interest of the node is loaded next. -/
  | scans (key node : Nat)
  /-- The pending bit of the node is set next. -/
  | sets (key node : Nat)
  /-- The generation of the node's doorbell is incremented next. -/
  | rings (key node : Nat)
  /-- The listening count of the node's doorbell is loaded next. -/
  | listens (key node : Nat)
  /-- The node's driver is woken next. -/
  | wakes (key node : Nat)

/-- Where the driver of a node is in `run_driver`. -/
inductive Driver where
  | off
  | enters
  | loads
  /-- The pending bits of the word are swapped out next. -/
  | swaps (seen word : Nat)
  /-- The interest is cleared of the bits next. -/
  | clears (seen word bits : Nat)
  /-- The wakers of the lowest of the bits are taken next. -/
  | drains (seen word bits : Nat)
  /-- The generation is loaded again next. -/
  | checks (seen : Nat)
  /-- The driver waits on the generation next. -/
  | waits (seen : Nat)
  | parked (seen : Nat)

def Driver.woken : Driver → Driver
  | parked seen => swaps seen 0
  | driver => driver

/-- A task is known by its waker, and one that polls several keys counts for each of them. -/
structure State where
  changes : Nat → Nat
  interest : Nat → Nat → Nat
  pending : Nat → Nat → Nat
  generation : Nat → Nat
  listening : Nat → Nat
  wakers : Nat → Nat → List Nat
  tasks : Nat → Task
  calls : Nat → Call
  drivers : Nat → Driver

def put {α : Type} (f : Nat → Nat → α) (node index : Nat) (value : α) : Nat → Nat → α :=
  update f node (update (f node) index value)

def bitOf (key : Nat) : Nat := 2 ^ (key % 64)

/-- The bit of a key is set in the words of a node. -/
def hasBit (words : Nat → Nat) (key : Nat) : Bool := (words (key / 64)).testBit (key % 64)

def State.setTask (s : State) (t : Nat) (task : Task) : State :=
  { s with tasks := update s.tasks t task }

def State.setCall (s : State) (c : Nat) (call : Call) : State :=
  { s with calls := update s.calls c call }

def State.setDriver (s : State) (node : Nat) (driver : Driver) : State :=
  { s with drivers := update s.drivers node driver }

/-- `Table::wake`. -/
def State.takeWakers (s : State) (node key : Nat) : State :=
  { s with wakers := put s.wakers node key [] }

section

variable (T : Table)

/-- A step of a task; `refused` is a driver that cannot be started. -/
def stepTask (s : State) (t : Nat) (refused : Bool) : Option State :=
  match s.tasks t with
  | .idle | .pending _ => none
  | .looks poll =>
    some (s.setTask t (if s.changes poll.key ≠ poll.since then .idle else .pushes poll))
  | .pushes poll =>
    let wakers := s.wakers poll.node poll.key
    let listed := if t ∈ wakers then wakers else wakers ++ [t]
    some ({ s with wakers := put s.wakers poll.node poll.key listed }.setTask t
      (if T.shared then .marks poll else .looksAgain poll))
  | .marks poll =>
    let word := s.interest poll.node (poll.key / 64) ||| bitOf poll.key
    some ({ s with interest := put s.interest poll.node (poll.key / 64) word }.setTask t
      (.starts poll))
  | .starts poll =>
    match s.drivers poll.node with
    | .off =>
      if refused then some (s.setTask t .idle)
      else some ((s.setDriver poll.node .enters).setTask t (.looksAgain poll))
    | _ => some (s.setTask t (.looksAgain poll))
  | .looksAgain poll =>
    some (s.setTask t (if s.changes poll.key ≠ poll.since then .idle else .pending poll))

def stepCall (s : State) (c : Nat) : Option State :=
  match s.calls c with
  | .idle => none
  | .counts key =>
    let count := (s.changes key + 1) % 2 ^ 32
    some ({ s with changes := update s.changes key count }.setCall c
      (if T.shared then .scans key 0 else .wakesHere key))
  | .wakesHere key => some ((s.takeWakers T.node key).setCall c .idle)
  | .scans key node =>
    some (s.setCall c
      (if node < T.fleetCapacity then
        if hasBit (s.interest node) key then .sets key node else .scans key (node + 1)
      else .idle))
  | .sets key node =>
    let word := s.pending node (key / 64) ||| bitOf key
    some ({ s with pending := put s.pending node (key / 64) word }.setCall c (.rings key node))
  | .rings key node =>
    let generation := (s.generation node + 1) % 2 ^ 32
    some ({ s with generation := update s.generation node generation }.setCall c
      (.listens key node))
  | .listens key node =>
    some (s.setCall c (if s.listening node > 0 then .wakes key node else .scans key (node + 1)))
  | .wakes key node =>
    some ((s.setDriver node (s.drivers node).woken).setCall c (.scans key (node + 1)))

/-- A step of the driver of a node; the loop over the words starts again when the generation is
another, and when a wait is over. -/
def stepDriver (s : State) (node : Nat) : Option State :=
  match s.drivers node with
  | .off => none
  | .enters =>
    let listening := (s.listening node + 1) % 2 ^ 32
    some ({ s with listening := update s.listening node listening }.setDriver node .loads)
  | .loads => some (s.setDriver node (.swaps (s.generation node) 0))
  | .swaps seen word =>
    if word < T.keyWords then
      let bits := s.pending node word
      some ({ s with pending := put s.pending node word 0 }.setDriver node
        (if bits ≠ 0 then .clears seen word bits else .swaps seen (word + 1)))
    else some (s.setDriver node (.checks seen))
  | .clears seen word bits =>
    let cleared := s.interest node word ^^^ (s.interest node word &&& bits)
    some ({ s with interest := put s.interest node word cleared }.setDriver node
      (.drains seen word bits))
  | .drains seen word bits =>
    if bits = 0 then some (s.setDriver node (.swaps seen (word + 1)))
    else
      let key := word * 64 + trailingZeros bits
      some ((if key < T.keyCapacity then s.takeWakers node key else s).setDriver node
        (.drains seen word (clearLowest bits)))
  | .checks seen =>
    some (s.setDriver node
      (if s.generation node ≠ seen then .swaps (s.generation node) 0 else .waits seen))
  | .waits seen =>
    some (s.setDriver node (if s.generation node = seen then .parked seen else .swaps seen 0))
  | .parked _ => none

inductive Action where
  | poll (t : Nat) (poll : Poll)
  | task (t : Nat) (refused : Bool)
  | change (c key : Nat)
  | call (c : Nat)
  | driver (node : Nat)
  | interrupt (node : Nat)

def step (s : State) : Action → Option State
  | .poll t poll =>
    match s.tasks t with
    | .idle | .pending _ =>
      if poll.Of T then some (s.setTask t (.looks poll)) else none
    | _ => none
  | .task t refused => stepTask T s t refused
  | .change c key =>
    match s.calls c with
    | .idle => if key < T.keyCapacity then some (s.setCall c (.counts key)) else none
    | _ => none
  | .call c => stepCall T s c
  | .driver node => stepDriver T s node
  | .interrupt node => some (s.setDriver node (s.drivers node).woken)

end

/-- Nobody waits, calls or drives yet. -/
structure Start (s : State) : Prop where
  tasks : ∀ t, s.tasks t = .idle
  calls : ∀ c, s.calls c = .idle
  drivers : ∀ node, s.drivers node = .off

def Call.key : Call → Option Nat
  | idle => none
  | counts key | wakesHere key => some key
  | scans key _ | sets key _ | rings key _ | listens key _ | wakes key _ => some key

def Call.isScan : Call → Bool
  | scans .. | sets .. | rings .. | listens .. | wakes .. => true
  | idle | counts _ | wakesHere _ => false

/-- The bits of a key that a driver has taken and not yet drained. -/
def Driver.holds (key : Nat) : Driver → Bool
  | clears _ word bits | drains _ word bits => word = key / 64 && bits.testBit (key % 64)
  | _ => false

def Call.coming (key node : Nat) : Call → Bool
  | idle | counts _ => false
  | wakesHere k => k = key
  | scans k n | sets k n => k = key && n ≤ node
  | rings k n | listens k n | wakes k n => k = key && n < node

def Coming (s : State) (node key : Nat) : Prop :=
  hasBit (s.pending node) key = true ∨ (s.drivers node).holds key = true ∨
    ∃ c, (s.calls c).coming key node = true

def Task.marked : Task → Option Poll
  | starts poll | looksAgain poll | pending poll => some poll
  | idle | looks _ | pushes _ | marks _ => none

def Task.poll : Task → Option Poll
  | idle => none
  | looks poll | pushes poll | marks poll | starts poll | looksAgain poll | pending poll =>
    some poll

structure Inv (T : Table) (s : State) : Prop where
  polls : ∀ t poll, (s.tasks t).poll = some poll → poll.Of T
  /-- A node is interested as long as a waker is listed whose task has set the interest. -/
  marked : ∀ t poll, T.shared = true → (s.tasks t).marked = some poll →
    t ∈ s.wakers poll.node poll.key →
      hasBit (s.interest poll.node) poll.key = true ∨ (s.drivers poll.node).holds poll.key = true
  told : ∀ t poll, s.tasks t = .pending poll → t ∈ s.wakers poll.node poll.key →
    s.changes poll.key = poll.since ∨ Coming s poll.node poll.key
  here : ∀ c key, s.calls c = .wakesHere key → T.shared = false
  there : ∀ c, (s.calls c).isScan = true → T.shared = true

section

variable {T : Table} {s s' : State} {t c node key : Nat} {poll : Poll}

theorem Start.inv (h : Start s) : Inv T s where
  polls t poll hpoll := by
    rw [h.tasks t] at hpoll
    cases hpoll
  marked t poll _ hmarked := by
    rw [h.tasks t] at hmarked
    cases hmarked
  told t poll htask := by
    rw [h.tasks t] at htask
    cases htask
  here c key hcall := by
    rw [h.calls c] at hcall
    cases hcall
  there c hcall := by
    rw [h.calls c] at hcall
    cases hcall

theorem setTask_self (s : State) (t : Nat) (task : Task) : (s.setTask t task).tasks t = task :=
  update_self _ _ _

theorem setTask_ne (s : State) {t t' : Nat} (task : Task) (h : t' ≠ t) :
    (s.setTask t task).tasks t' = s.tasks t' := update_of_ne h _ _

theorem setCall_self (s : State) (c : Nat) (call : Call) : (s.setCall c call).calls c = call :=
  update_self _ _ _

theorem setCall_ne (s : State) {c c' : Nat} (call : Call) (h : c' ≠ c) :
    (s.setCall c call).calls c' = s.calls c' := update_of_ne h _ _

theorem setDriver_self (s : State) (node : Nat) (driver : Driver) :
    (s.setDriver node driver).drivers node = driver := update_self _ _ _

theorem setDriver_ne (s : State) {node n : Nat} (driver : Driver) (h : n ≠ node) :
    (s.setDriver node driver).drivers n = s.drivers n := update_of_ne h _ _

theorem put_apply {α : Type} (f : Nat → Nat → α) (node index : Nat) (value : α) (n i : Nat) :
    put f node index value n i = if n = node ∧ i = index then value else f n i := by
  unfold put
  by_cases hn : n = node
  · subst hn
    by_cases hi : i = index
    · subst hi
      simp
    · simp [hi]
  · simp [hn]

theorem key_eq (key k : Nat) : key = k ↔ key / 64 = k / 64 ∧ key % 64 = k % 64 := by omega

theorem hasBit_set (words : Nat → Nat → Nat) (node key n k : Nat) :
    hasBit (put words node (key / 64) (words node (key / 64) ||| bitOf key) n) k =
      (hasBit (words n) k || (decide (n = node) && decide (k = key))) := by
  unfold hasBit
  rw [put_apply]
  by_cases hword : n = node ∧ k / 64 = key / 64
  · rw [if_pos hword, bitOf, testBit_set, hword.1, hword.2]
    have hbit : key % 64 = k % 64 ↔ k = key := by
      rw [key_eq k key]
      exact ⟨fun h => ⟨hword.2, h.symm⟩, fun h => h.2.symm⟩
    simp [hbit]
  · rw [if_neg hword]
    have hne : ¬(n = node ∧ k = key) := fun h => hword ⟨h.1, by rw [h.2]⟩
    have hfalse : (decide (n = node) && decide (k = key)) = false := by
      rw [← Bool.decide_and]
      exact decide_eq_false hne
    rw [hfalse, Bool.or_false]

theorem hasBit_clear (words : Nat → Nat → Nat) (node word bits n k : Nat) :
    hasBit (put words node word (words node word ^^^ (words node word &&& bits)) n) k =
      (hasBit (words n) k && !(decide (n = node) && decide (k / 64 = word) &&
        bits.testBit (k % 64))) := by
  unfold hasBit
  rw [put_apply]
  by_cases hword : n = node ∧ k / 64 = word
  · rw [if_pos hword, testBit_clear, hword.1, hword.2]
    simp
  · rw [if_neg hword]
    have hfalse : (decide (n = node) && decide (k / 64 = word)) = false := by
      rw [← Bool.decide_and]
      exact decide_eq_false hword
    rw [hfalse]
    simp

theorem poll_of_marked {task : Task} (h : task.marked = some poll) : task.poll = some poll := by
  cases task <;> first | exact h | cases h

theorem poll_of_pending {task : Task} (h : task = .pending poll) : task.poll = some poll := by
  rw [h]
  rfl

theorem Inv.moves {task : Task} (h : Inv T s)
    (hpoll : ∀ poll, task.poll = some poll → poll.Of T)
    (hmarked : T.shared = true → ∀ poll, task.marked = some poll →
      (s.tasks t).marked = some poll)
    (htold : ∀ poll, task = .pending poll → s.changes poll.key = poll.since) :
    Inv T (s.setTask t task) := by
  refine { h with
    polls := fun t' poll hp => ?_
    marked := fun t' poll hshared hm => ?_
    told := fun t' poll ht => ?_ }
  · by_cases ht' : t' = t
    · subst ht'
      rw [setTask_self] at hp
      exact hpoll poll hp
    · rw [setTask_ne s _ ht'] at hp
      exact h.polls _ poll hp
  · by_cases ht' : t' = t
    · subst ht'
      rw [setTask_self] at hm
      exact h.marked _ poll hshared (hmarked hshared poll hm)
    · rw [setTask_ne s _ ht'] at hm
      exact h.marked _ poll hshared hm
  · by_cases ht' : t' = t
    · subst ht'
      rw [setTask_self] at ht
      exact fun _ => .inl (htold poll ht)
    · rw [setTask_ne s _ ht'] at ht
      exact h.told _ poll ht

theorem Inv.list (h : Inv T s) {listed : List Nat}
    (hlisted : ∀ t', t' ≠ t → t' ∈ listed → t' ∈ s.wakers node key)
    (hmarked : T.shared = true → (s.tasks t).marked = none)
    (htold : ∀ poll, s.tasks t ≠ .pending poll) :
    Inv T { s with wakers := put s.wakers node key listed } := by
  have hmem : ∀ t' n k, t' ≠ t → t' ∈ put s.wakers node key listed n k → t' ∈ s.wakers n k := by
    intro t' n k hne hmem
    rw [put_apply] at hmem
    split at hmem
    · rename_i hsame
      rw [hsame.1, hsame.2]
      exact hlisted t' hne hmem
    · exact hmem
  refine { h with
    marked := fun t' poll hshared hm hmem' => ?_
    told := fun t' poll ht hmem' => ?_ }
  · refine h.marked t' poll hshared hm (hmem t' _ _ ?_ hmem')
    rintro rfl
    rw [hmarked hshared] at hm
    cases hm
  · refine h.told t' poll ht (hmem t' _ _ ?_ hmem')
    rintro rfl
    exact htold poll ht

theorem Inv.mark (h : Inv T s) (hphase : s.tasks t = .marks poll) {interest : Nat → Nat → Nat}
    (hinterest : ∀ n k, hasBit (interest n) k =
      (hasBit (s.interest n) k || (decide (n = poll.node) && decide (k = poll.key)))) :
    Inv T ({ s with interest := interest }.setTask t (.starts poll)) := by
  have hgrown : Inv T { s with interest := interest } :=
    { h with
      marked := fun t' poll' hshared hm hmem => by
        refine (h.marked t' poll' hshared hm hmem).imp_left fun hbit => ?_
        rw [hinterest, hbit, Bool.true_or] }
  refine { hgrown with
    polls := fun t' poll' hp => ?_
    marked := fun t' poll' hshared hm hmem => ?_
    told := fun t' poll' ht => ?_ }
  · by_cases ht' : t' = t
    · subst ht'
      rw [setTask_self] at hp
      exact h.polls _ poll' (by rw [hphase]; exact hp)
    · rw [setTask_ne _ _ ht'] at hp
      exact h.polls _ poll' hp
  · by_cases ht' : t' = t
    · subst ht'
      rw [setTask_self] at hm
      cases hm
      refine .inl ((hinterest _ _).trans ?_)
      simp
    · rw [setTask_ne _ _ ht'] at hm
      exact hgrown.marked t' poll' hshared hm hmem
  · by_cases ht' : t' = t
    · subst ht'
      rw [setTask_self] at ht
      cases ht
    · rw [setTask_ne _ _ ht'] at ht
      exact hgrown.told _ poll' ht

theorem holds_setDriver {driver : Driver}
    (hold : ∀ key, (s.drivers node).holds key = true → driver.holds key = true) {n key : Nat}
    (h : (s.drivers n).holds key = true) :
    ((s.setDriver node driver).drivers n).holds key = true := by
  by_cases hn : n = node
  · subst hn
    rw [setDriver_self]
    exact hold key h
  · rw [setDriver_ne s _ hn]
    exact h

theorem Inv.drives {driver : Driver} (h : Inv T s)
    (hold : ∀ key, (s.drivers node).holds key = true → driver.holds key = true) :
    Inv T (s.setDriver node driver) :=
  { h with
    marked := fun t poll hshared hm hmem =>
      (h.marked t poll hshared hm hmem).imp_right (holds_setDriver hold)
    told := fun t poll ht hmem => (h.told t poll ht hmem).imp_right
      (Or.imp_right (Or.imp_left (holds_setDriver hold))) }

theorem Inv.wakes (h : Inv T s) (node : Nat) :
    Inv T (s.setDriver node (s.drivers node).woken) := by
  refine h.drives fun key hkey => ?_
  unfold Driver.woken
  split
  · rename_i hparked
    rw [hparked] at hkey
    cases hkey
  · exact hkey

theorem Inv.task {refused : Bool} (h : Inv T s) (hstep : stepTask T s t refused = some s') :
    Inv T s' := by
  have hof : ∀ {poll}, (s.tasks t).poll = some poll → poll.Of T := h.polls t _
  unfold stepTask at hstep
  generalize hphase : s.tasks t = phase at hstep
  cases phase with
  | idle | pending poll =>
    cases hstep
  | looks poll =>
    cases hstep
    split
    · exact h.moves (by rintro _ ⟨⟩) (by rintro _ _ ⟨⟩) (by rintro _ ⟨⟩)
    · exact h.moves (fun _ hp => hof (by rw [hphase]; exact hp)) (by rintro _ _ ⟨⟩) (by rintro _ ⟨⟩)
  | pushes poll =>
    cases hstep
    have hlisted : ∀ t', t' ≠ t →
        t' ∈ (if t ∈ s.wakers poll.node poll.key then s.wakers poll.node poll.key
          else s.wakers poll.node poll.key ++ [t]) → t' ∈ s.wakers poll.node poll.key := by
      intro t' hne hmem
      split at hmem
      · exact hmem
      · exact (mem_append.mp hmem).resolve_right fun h => hne (mem_singleton.mp h)
    have hlist := h.list hlisted (fun _ => by rw [hphase]; rfl) fun _ => by rw [hphase]; rintro ⟨⟩
    by_cases hshared : T.shared = true
    · rw [if_pos hshared]
      exact hlist.moves (fun _ hp => hof (by rw [hphase]; exact hp)) (by rintro _ _ ⟨⟩)
        (by rintro _ ⟨⟩)
    · rw [if_neg hshared]
      exact hlist.moves (fun _ hp => hof (by rw [hphase]; exact hp)) (fun h => absurd h hshared)
        (by rintro _ ⟨⟩)
  | marks poll =>
    cases hstep
    exact h.mark hphase fun n k => hasBit_set _ _ _ _ _
  | starts poll =>
    have hlooks : ∀ {s : State}, Inv T s → s.tasks t = .starts poll →
        Inv T (s.setTask t (.looksAgain poll)) := fun h hphase =>
      h.moves (fun _ hp => h.polls t _ (by rw [hphase]; exact hp))
        (fun _ _ hm => by rw [hphase]; exact hm) (by rintro _ ⟨⟩)
    dsimp only at hstep
    split at hstep
    · rename_i hoff
      split at hstep
      · cases hstep
        exact h.moves (by rintro _ ⟨⟩) (by rintro _ _ ⟨⟩) (by rintro _ ⟨⟩)
      · cases hstep
        refine hlooks (h.drives fun key hkey => ?_) hphase
        rw [hoff] at hkey
        cases hkey
    · cases hstep
      exact hlooks h hphase
  | looksAgain poll =>
    cases hstep
    split
    · exact h.moves (by rintro _ ⟨⟩) (by rintro _ _ ⟨⟩) (by rintro _ ⟨⟩)
    · rename_i hsame
      refine h.moves (fun _ hp => hof (by rw [hphase]; exact hp))
        (fun _ _ hm => by rw [hphase]; exact hm) ?_
      rintro _ ⟨⟩
      exact not_not.mp hsame

theorem Inv.goes {call : Call} (h : Inv T s)
    (htells : ∀ t poll, s.tasks t = .pending poll → t ∈ s.wakers poll.node poll.key →
      (s.calls c).coming poll.key poll.node = true →
        hasBit (s.pending poll.node) poll.key = true ∨
          (s.drivers poll.node).holds poll.key = true ∨ call.coming poll.key poll.node = true)
    (hhere : ∀ key, call = .wakesHere key → T.shared = false)
    (hthere : call.isScan = true → T.shared = true) : Inv T (s.setCall c call) := by
  refine { h with
    told := fun t poll ht hmem => (h.told t poll ht hmem).imp_right ?_
    here := fun c' key hcall => ?_
    there := fun c' hcall => ?_ }
  · rintro (hbit | hholds | ⟨c', hcoming⟩)
    · exact .inl hbit
    · exact .inr (.inl hholds)
    · by_cases hc : c' = c
      · subst hc
        refine Or.imp_right (Or.imp_right fun hcall => ⟨c', ?_⟩) (htells t poll ht hmem hcoming)
        rw [setCall_self]
        exact hcall
      · refine .inr (.inr ⟨c', ?_⟩)
        rw [setCall_ne s _ hc]
        exact hcoming
  · by_cases hc : c' = c
    · subst hc
      rw [setCall_self] at hcall
      exact hhere key hcall
    · rw [setCall_ne s _ hc] at hcall
      exact h.here c' key hcall
  · by_cases hc : c' = c
    · subst hc
      rw [setCall_self] at hcall
      exact hthere hcall
    · rw [setCall_ne s _ hc] at hcall
      exact h.there c' hcall

theorem Inv.counts {count : Nat} (h : Inv T s) (hphase : s.calls c = .counts key) :
    Inv T ({ s with changes := update s.changes key count }.setCall c
      (if T.shared then .scans key 0 else .wakesHere key)) := by
  have hgoes : Inv T (s.setCall c (if T.shared then .scans key 0 else .wakesHere key)) := by
    refine h.goes (fun t poll _ _ hcoming => ?_) (fun k hcall => ?_) fun hcall => ?_
    · rw [hphase] at hcoming
      cases hcoming
    · by_contra hshared
      rw [if_pos (Bool.eq_true_of_not_eq_false hshared)] at hcall
      cases hcall
    · by_contra hshared
      rw [if_neg hshared] at hcall
      cases hcall
  refine { hgoes with told := fun t poll ht hmem => ?_ }
  by_cases hkey : poll.key = key
  · refine .inr (.inr (.inr ⟨c, ?_⟩))
    rw [setCall_self]
    split <;> simp [Call.coming, hkey]
  · refine (hgoes.told t poll ht hmem).imp_left fun hsince => ?_
    exact (update_of_ne hkey _ _).trans hsince

theorem takeWakers_apply (s : State) (node key n k : Nat) :
    (s.takeWakers node key).wakers n k = if n = node ∧ k = key then [] else s.wakers n k :=
  put_apply _ _ _ _ _ _

theorem take_mem {n k : Nat} (h : t ∈ (s.takeWakers node key).wakers n k) : t ∈ s.wakers n k := by
  rw [takeWakers_apply] at h
  split at h
  · cases h
  · exact h

theorem take_not_mem (s : State) (node key t : Nat) :
    t ∉ (s.takeWakers node key).wakers node key := by
  rw [takeWakers_apply, if_pos ⟨rfl, rfl⟩]
  exact not_mem_nil

theorem Inv.take (h : Inv T s) (node key : Nat) : Inv T (s.takeWakers node key) :=
  { h with
    marked := fun t poll hshared hm hin => h.marked t poll hshared hm (take_mem hin)
    told := fun t poll ht hin => h.told t poll ht (take_mem hin) }

theorem Inv.rings {pending : Nat → Nat → Nat} (h : Inv T s)
    (hpending : ∀ n k, hasBit (s.pending n) k = true → hasBit (pending n) k = true) :
    Inv T { s with pending := pending } :=
  { h with
    told := fun t poll ht hmem => (h.told t poll ht hmem).imp_right (Or.imp_left (hpending _ _)) }

theorem Inv.call (h : Inv T s) (hstep : stepCall T s c = some s') : Inv T s' := by
  have hscan := h.there c
  unfold stepCall at hstep
  generalize hphase : s.calls c = phase at hstep hscan
  cases phase with
  | idle =>
    cases hstep
  | counts key =>
    cases hstep
    exact h.counts hphase
  | wakesHere key =>
    cases hstep
    refine (h.take T.node key).goes (fun t poll ht hmem hcoming => ?_) (by rintro _ ⟨⟩)
      (by rintro ⟨⟩)
    have hcoming : (s.calls c).coming poll.key poll.node = true := hcoming
    rw [hphase] at hcoming
    have hkey : key = poll.key := of_decide_eq_true hcoming
    have htask : s.tasks t = .pending poll := ht
    have hnode := (h.polls t poll (by rw [htask]; rfl)).2.2 (h.here c key hphase)
    rw [hnode, ← hkey] at hmem
    exact (take_not_mem s _ _ t hmem).elim
  | scans key node =>
    cases hstep
    have hshared := hscan rfl
    refine h.goes (fun t poll ht hmem hcoming => ?_) (fun k hcall => ?_) fun _ => hshared
    · rw [hphase] at hcoming
      obtain ⟨hkey, hle⟩ := Bool.and_eq_true_iff.mp hcoming
      have hkey : key = poll.key := of_decide_eq_true hkey
      have hle : node ≤ poll.node := of_decide_eq_true hle
      have hnode := (h.polls t poll (by rw [ht]; rfl)).2.1
      have hmarked := h.marked t poll hshared (by rw [ht]; rfl) hmem
      rw [if_pos (Nat.lt_of_le_of_lt hle hnode)]
      split
      · exact .inr (.inr hcoming)
      · rename_i hnone
        by_cases hsame : node = poll.node
        -- the node is not interested, as its driver is about to wake the task
        · rw [hsame, hkey] at hnone
          exact .inr (.inl (hmarked.resolve_left hnone))
        · have hlt : node + 1 ≤ poll.node := by omega
          exact .inr (.inr (Bool.and_eq_true_iff.mpr ⟨decide_eq_true hkey, decide_eq_true hlt⟩))
    · exfalso
      split at hcall
      · split at hcall <;> cases hcall
      · cases hcall
  | sets key node =>
    cases hstep
    have hshared := hscan rfl
    have hset := hasBit_set s.pending node key
    refine (h.rings fun n k hbit => ?_).goes (fun t poll ht hmem hcoming => ?_) (by rintro _ ⟨⟩)
      fun _ => hshared
    · rw [hset, hbit, Bool.true_or]
    · have hcoming : (s.calls c).coming poll.key poll.node = true := hcoming
      rw [hphase] at hcoming
      obtain ⟨hkey, hle⟩ := Bool.and_eq_true_iff.mp hcoming
      have hkey : key = poll.key := of_decide_eq_true hkey
      have hle : node ≤ poll.node := of_decide_eq_true hle
      by_cases hsame : poll.node = node
      · refine .inl ((hset poll.node poll.key).trans ?_)
        simp [hsame, hkey]
      · have hlt : node < poll.node := by omega
        exact .inr (.inr (Bool.and_eq_true_iff.mpr ⟨decide_eq_true hkey, decide_eq_true hlt⟩))
  | rings key node =>
    cases hstep
    have hshared := hscan rfl
    have hrings : ∀ generation, Inv T { s with generation := generation } := fun _ => { h with }
    refine (hrings _).goes (fun t poll ht hmem hcoming => .inr (.inr ?_)) (by rintro _ ⟨⟩)
      fun _ => hshared
    have hcoming : (s.calls c).coming poll.key poll.node = true := hcoming
    rw [hphase] at hcoming
    exact hcoming
  | listens key node =>
    cases hstep
    have hshared := hscan rfl
    refine h.goes (fun t poll ht hmem hcoming => .inr (.inr ?_)) (fun k hcall => ?_)
      fun _ => hshared
    · rw [hphase] at hcoming
      split <;> exact hcoming
    · split at hcall <;> cases hcall
  | wakes key node =>
    cases hstep
    have hshared := hscan rfl
    refine (h.wakes node).goes (fun t poll ht hmem hcoming => .inr (.inr ?_)) (by rintro _ ⟨⟩)
      fun _ => hshared
    have hcoming : (s.calls c).coming poll.key poll.node = true := hcoming
    rw [hphase] at hcoming
    exact hcoming

theorem Inv.swaps {seen word : Nat} (h : Inv T s) (hphase : s.drivers node = .swaps seen word) :
    Inv T ({ s with pending := put s.pending node word 0 }.setDriver node
      (if s.pending node word ≠ 0 then .clears seen word (s.pending node word)
        else .swaps seen (word + 1))) := by
  have hdrives : Inv T (s.setDriver node (if s.pending node word ≠ 0 then
      .clears seen word (s.pending node word) else .swaps seen (word + 1))) :=
    h.drives fun key hkey => by
      rw [hphase] at hkey
      cases hkey
  refine { hdrives with
    told := fun t poll ht hmem => (hdrives.told t poll ht hmem).imp_right ?_ }
  rintro (hold | hrest)
  · have hbit : (s.pending poll.node (poll.key / 64)).testBit (poll.key % 64) = true := hold
    by_cases hsame : poll.node = node ∧ poll.key / 64 = word
    · obtain ⟨rfl, rfl⟩ := hsame
      have hne : s.pending poll.node (poll.key / 64) ≠ 0 := by
        intro hzero
        rw [hzero, Nat.zero_testBit] at hbit
        cases hbit
      refine .inr (.inl ?_)
      rw [setDriver_self, if_pos hne]
      simp [Driver.holds, hbit]
    · refine .inl ?_
      unfold hasBit
      rw [State.setDriver]
      dsimp only
      rw [put_apply, if_neg hsame]
      exact hbit
  · exact .inr hrest

theorem Inv.clears {seen word bits : Nat} (h : Inv T s)
    (hphase : s.drivers node = .clears seen word bits) {interest : Nat → Nat → Nat}
    (hinterest : ∀ n k, hasBit (interest n) k = (hasBit (s.interest n) k &&
      !(decide (n = node) && decide (k / 64 = word) && bits.testBit (k % 64)))) :
    Inv T ({ s with interest := interest }.setDriver node (.drains seen word bits)) := by
  have hdrives : Inv T (s.setDriver node (.drains seen word bits)) :=
    h.drives fun key hkey => by
      rw [hphase] at hkey
      exact hkey
  refine { hdrives with marked := fun t poll hshared hm hmem => ?_ }
  rcases hdrives.marked t poll hshared hm hmem with hbit | hholds
  · have hbit : hasBit (s.interest poll.node) poll.key = true := hbit
    by_cases hmine : poll.node = node ∧ poll.key / 64 = word ∧ bits.testBit (poll.key % 64) = true
    · obtain ⟨rfl, rfl, htaken⟩ := hmine
      refine .inr ?_
      rw [setDriver_self]
      simp [Driver.holds, htaken]
    · refine .inl ((hinterest _ _).trans ?_)
      rw [hbit, Bool.true_and, Bool.not_eq_true', Bool.eq_false_iff]
      intro htaken
      simp only [Bool.and_eq_true, decide_eq_true_eq] at htaken
      exact hmine ⟨htaken.1.1, htaken.1.2, htaken.2⟩
  · exact .inr hholds

theorem Inv.drains {seen word bits : Nat} (h : Inv T s)
    (hphase : s.drivers node = .drains seen word bits) :
    Inv T ((if word * 64 + trailingZeros bits < T.keyCapacity then
      s.takeWakers node (word * 64 + trailingZeros bits) else s).setDriver node
        (.drains seen word (clearLowest bits))) := by
  generalize hkey : word * 64 + trailingZeros bits = key
  obtain ⟨wakers, hwakers, hle, hgone⟩ : ∃ wakers,
      (if key < T.keyCapacity then s.takeWakers node key else s) = { s with wakers := wakers } ∧
      (∀ n k t, t ∈ wakers n k → t ∈ s.wakers n k) ∧
      (key < T.keyCapacity → ∀ t, t ∉ wakers node key) := by
    by_cases hlt : key < T.keyCapacity
    · rw [if_pos hlt]
      exact ⟨_, rfl, fun _ _ _ => take_mem, fun _ => take_not_mem s node key⟩
    · rw [if_neg hlt]
      exact ⟨_, rfl, fun _ _ _ => id, fun h => absurd h hlt⟩
  rw [hwakers]
  -- a task that waits for another key is still to be woken
  have hkeeps : ∀ t poll, (s.tasks t).poll = some poll → t ∈ wakers poll.node poll.key →
      (s.drivers poll.node).holds poll.key = true →
        ((s.setDriver node (.drains seen word (clearLowest bits))).drivers poll.node).holds
          poll.key = true := by
    intro t poll hp hmem hholds
    by_cases hnode : poll.node = node
    · subst hnode
      rw [hphase] at hholds
      obtain ⟨hword, hbit⟩ := Bool.and_eq_true_iff.mp hholds
      have hword : word = poll.key / 64 := of_decide_eq_true hword
      have hne : poll.key % 64 ≠ trailingZeros bits := by
        intro heq
        have hsame : key = poll.key := by omega
        rw [← hsame] at hmem
        exact hgone (by rw [hsame]; exact (h.polls t poll hp).1) t hmem
      rw [setDriver_self]
      refine Bool.and_eq_true_iff.mpr ⟨decide_eq_true hword, ?_⟩
      rw [testBit_clearLowest (Nat.mod_lt _ (by omega)) hbit]
      exact decide_eq_true hne
    · rw [setDriver_ne s _ hnode]
      exact hholds
  exact { h with
    marked := fun t poll hshared hm hmem =>
      (h.marked t poll hshared hm (hle _ _ _ hmem)).imp_right
        (hkeeps t poll (poll_of_marked hm) hmem)
    told := fun t poll ht hmem => (h.told t poll ht (hle _ _ _ hmem)).imp_right
      (Or.imp_right (Or.imp_left (hkeeps t poll (poll_of_pending ht) hmem))) }

theorem Inv.driver (h : Inv T s) (hstep : stepDriver T s node = some s') : Inv T s' := by
  unfold stepDriver at hstep
  generalize hphase : s.drivers node = phase at hstep
  cases phase with
  | off | parked =>
    cases hstep
  | enters =>
    cases hstep
    have hlistens : ∀ listening, Inv T { s with listening := listening } := fun _ => { h with }
    refine (hlistens _).drives fun key hkey => ?_
    have hkey : (s.drivers node).holds key = true := hkey
    rw [hphase] at hkey
    cases hkey
  | loads =>
    cases hstep
    refine h.drives fun key hkey => ?_
    rw [hphase] at hkey
    cases hkey
  | swaps seen word =>
    dsimp only at hstep
    split at hstep <;> cases hstep
    · exact h.swaps hphase
    · refine h.drives fun key hkey => ?_
      rw [hphase] at hkey
      cases hkey
  | clears seen word bits =>
    cases hstep
    exact h.clears hphase fun n k => hasBit_clear _ _ _ _ _ _
  | drains seen word bits =>
    dsimp only at hstep
    split at hstep <;> cases hstep
    · rename_i hzero
      refine h.drives fun key hkey => ?_
      rw [hphase, hzero, Driver.holds, Nat.zero_testBit, Bool.and_false] at hkey
      cases hkey
    · exact h.drains hphase
  | checks seen =>
    cases hstep
    refine h.drives fun key hkey => ?_
    rw [hphase] at hkey
    cases hkey
  | waits seen =>
    cases hstep
    refine h.drives fun key hkey => ?_
    rw [hphase] at hkey
    cases hkey

theorem Inv.begins (h : Inv T s) (hphase : s.calls c = .idle) :
    Inv T (s.setCall c (.counts key)) := by
  refine h.goes (fun t poll _ _ hcoming => ?_) (by rintro _ ⟨⟩) (by rintro ⟨⟩)
  rw [hphase] at hcoming
  cases hcoming

theorem Inv.step {a : Action} (h : Inv T s) (hstep : Waiters.step T s a = some s') : Inv T s' := by
  cases a with
  | poll t poll =>
    have hbegins : (if poll.Of T then some (s.setTask t (.looks poll)) else none) = some s' →
        Inv T s' := by
      intro hs'
      obtain ⟨hof, hs'⟩ := ite_none_right_eq_some.mp hs'
      cases hs'
      exact h.moves (by rintro _ ⟨⟩; exact hof) (by rintro _ _ ⟨⟩) (by rintro _ ⟨⟩)
    unfold Waiters.step at hstep
    dsimp only at hstep
    split at hstep
    · exact hbegins hstep
    · exact hbegins hstep
    · cases hstep
  | task t refused => exact h.task hstep
  | change c key =>
    unfold Waiters.step at hstep
    dsimp only at hstep
    split at hstep
    · rename_i hphase
      obtain ⟨-, hs'⟩ := ite_none_right_eq_some.mp hstep
      cases hs'
      exact h.begins hphase
    · cases hstep
  | call c => exact h.call hstep
  | driver node => exact h.driver hstep
  | interrupt node =>
    cases hstep
    exact h.wakes node

end

/-- A task that got `Pending` for a count that is no longer that of its key, and whose waker is
still registered. -/
def Waits (s : State) (t : Nat) (poll : Poll) : Prop :=
  s.tasks t = .pending poll ∧ s.changes poll.key ≠ poll.since ∧ t ∈ s.wakers poll.node poll.key

instance (s : State) (t : Nat) (poll : Poll) : Decidable (Waits s t poll) :=
  inferInstanceAs (Decidable (_ ∧ _ ∧ _))

/-- A change of the key is in progress, or a node has it pending, or its driver is about to drain
it. -/
def Told (s : State) (node key : Nat) : Prop :=
  (∃ c, (s.calls c).key = some key) ∨ hasBit (s.pending node) key = true ∨
    (s.drivers node).holds key = true

theorem key_of_coming {call : Call} {key node : Nat} (h : call.coming key node = true) :
    call.key = some key := by
  cases call with
  | idle | counts => cases h
  | wakesHere k => exact congrArg some (of_decide_eq_true h)
  | scans k n | sets k n | rings k n | listens k n | wakes k n =>
    exact congrArg some (of_decide_eq_true (Bool.and_eq_true_iff.mp h).1)

/-- No task waits for a change that nobody tells its node of. -/
theorem capacity_told {T : Table} {s : State} (h : Reached (step T) anyAction Start s) {t : Nat}
    {poll : Poll} (hwaits : Waits s t poll) : Told s poll.node poll.key := by
  have hinv : Inv T s := h.holds (fun s hs => hs.inv) fun s a s' hs _ hstep => hs.step hstep
  obtain ⟨hpending, hchanged, hlisted⟩ := hwaits
  rcases hinv.told t poll hpending hlisted with hsince | hbit | hholds | ⟨c, hcoming⟩
  · exact absurd hsince hchanged
  · exact .inr (.inl hbit)
  · exact .inr (.inr hholds)
  · exact .inl ⟨c, key_of_coming hcoming⟩

def Table.sample : Table := ⟨true, 1, 4, 0⟩

def State.new : State where
  changes _ := 0
  interest _ _ := 0
  pending _ _ := 0
  generation _ := 0
  listening _ := 0
  wakers _ _ := []
  tasks _ := .idle
  calls _ := .idle
  drivers _ := .off

def changed : List Action :=
  .poll 7 ⟨0, 3, 0⟩ :: replicate 5 (.task 7 false) ++
    .change 0 3 :: replicate 6 (.call 0)

theorem start_new : Start .new := ⟨fun _ => rfl, fun _ => rfl, fun _ => rfl⟩

theorem capacity_told_sample : ∃ s, Reached (step .sample) anyAction Start s ∧
    Waits s 7 ⟨0, 3, 0⟩ ∧ Told s 0 3 := by
  have hrun : (actAll (step .sample) anyAction .new changed).any
      (fun s => decide (Waits s 7 ⟨0, 3, 0⟩)) = true := by decide
  obtain ⟨s, hs, hwaits⟩ := Reached.exists_of_actAll (.start start_new) hrun
  have hwaits := of_decide_eq_true hwaits
  exact ⟨s, hs, hwaits, capacity_told hs hwaits⟩

end OrbitPool.Waiters
