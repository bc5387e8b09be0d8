import Orbit.Pool.Occupancy
import Mathlib.Algebra.Order.Group.Multiset
import Mathlib.Algebra.Group.Pi.Basic
import Mathlib.Algebra.Group.Prod

/-! The invariant of every slot together, with what each call holds of the slots and of the lanes'
mutexes, and the rules for one access of a call. -/

namespace OrbitPool

open Orbit.Atomic Function

variable {g : Geometry}

/-- The words of a slot that decide its occupancy, by name. -/
inductive Field where
  | state | generation | capacity | units | fence
  | pending (entry : Nat)

def Field.addr (slot : Nat) : Field → Addr
  | state => .state slot
  | generation => .generation slot
  | capacity => .capacity slot
  | units => .units slot
  | fence => .fence slot
  | pending entry => .pending slot entry

def Words.get (w : Words) : Field → Nat
  | .state => w.state
  | .generation => w.generation
  | .capacity => w.capacity
  | .units => w.units
  | .fence => w.fence
  | .pending entry => w.pending entry

def Words.set (w : Words) (value : Nat) : Field → Words
  | .state => { w with state := value }
  | .generation => { w with generation := value }
  | .capacity => { w with capacity := value }
  | .units => { w with units := value }
  | .fence => { w with fence := value }
  | .pending entry => { w with pending := update w.pending entry value }

def words (mem : Mem Addr) (slot : Nat) : Words where
  state := mem (.state slot)
  generation := mem (.generation slot)
  capacity := mem (.capacity slot)
  units := mem (.units slot)
  fence := mem (.fence slot)
  pending entry := mem (.pending slot entry)

theorem words_get (mem : Mem Addr) (slot : Nat) (f : Field) :
    (words mem slot).get f = mem (f.addr slot) := by
  cases f <;> rfl

theorem words_update (mem : Mem Addr) (slot value : Nat) (f : Field) :
    words (update mem (f.addr slot) value) slot = (words mem slot).set value f := by
  cases f with
  | pending entry =>
    simp only [words, Words.set, Field.addr, ne_eq, reduceCtorEq, not_false_eq_true,
      update_of_ne, Words.mk.injEq, true_and]
    funext e
    by_cases he : e = entry
    · simp [he]
    · simp [he]
  | _ => simp [words, Words.set, Field.addr]

def Addr.Watched : Addr → Prop
  | structural _ => True
  | state _ | generation _ | capacity _ | units _ | fence _ | pending _ _ => True
  | _ => False

theorem words_unseen {mem mem' : Mem Addr} {slot : Nat}
    (h : ∀ f : Field, mem' (f.addr slot) = mem (f.addr slot)) : words mem' slot = words mem slot := by
  simp only [words, Words.mk.injEq]
  exact ⟨h .state, h .generation, h .capacity, h .units, h .fence, funext fun e => h (.pending e)⟩

theorem Field.addr_watched (f : Field) (slot : Nat) : (f.addr slot).Watched := by
  cases f <;> exact trivial

theorem Field.addr_ne {f f' : Field} {slot slot' : Nat} (h : slot ≠ slot') :
    f.addr slot ≠ f'.addr slot' := by
  cases f <;> cases f' <;> simp [Field.addr, h]

theorem Field.addr_ne_structural (f : Field) (slot node : Nat) :
    f.addr slot ≠ .structural node := by
  cases f <;> simp [Field.addr]

abbrev Share := (Nat → Multiset LaneToken) × (Nat → Multiset SlotToken)

def hold (slot : Nat) (tokens : Multiset SlotToken) : Share := (0, Pi.single slot tokens)

def grip (node : Nat) (token : LaneToken) (slot : Nat) (tokens : Multiset SlotToken) : Share :=
  (Pi.single node {token}, Pi.single slot tokens)

structure Inv (g : Geometry) (m : Share) (h : History) (mem : Mem Addr) : Prop where
  lock : ∀ node, (m.1 node).card = mem (.structural node) ∧ mem (.structural node) ≤ 1
  slot : ∀ i, SlotOk i (m.1 (i / g.laneCapacity)) (m.2 i) (h i) (words mem i)

theorem Inv.init (g : Geometry) : Inv g 0 .init fun _ => 0 :=
  ⟨fun _ => ⟨rfl, Nat.zero_le _⟩, fun i => .init i⟩

theorem Inv.unseen {m : Share} {h : History} {mem : Mem Addr} (hI : Inv g m h mem) {a : Addr}
    (ha : ¬a.Watched) (value : Nat) : Inv g m h (update mem a value) := by
  have hne : ∀ b : Addr, b.Watched → update mem a value b = mem b := by
    intro b hb
    refine update_of_ne ?_ _ _
    rintro rfl
    exact ha hb
  refine ⟨fun node => ?_, fun i => ?_⟩
  · rw [hne (.structural node) trivial]
    exact hI.lock node
  · rw [words_unseen fun f => hne _ (f.addr_watched i)]
    exact hI.slot i

section

variable {m : Share} {h h' : History} {mem mem' : Mem Addr} {others : Share} {i : Nat}
  {tokens tokens' : Multiset SlotToken}

theorem Inv.at_hold (hI : Inv g (hold i tokens + others) h mem) :
    SlotOk i (others.1 (i / g.laneCapacity)) (tokens + others.2 i) (h i) (words mem i) := by
  have hs := hI.slot i
  simpa [hold] using hs

theorem Inv.exchange (hI : Inv g (hold i tokens + others) h mem)
    (hlock : ∀ node, mem' (.structural node) = mem (.structural node))
    (hhist : ∀ j ≠ i, h' j = h j) (hwords : ∀ j ≠ i, words mem' j = words mem j)
    (hslot : SlotOk i (others.1 (i / g.laneCapacity)) (tokens' + others.2 i) (h' i) (words mem' i)) :
    Inv g (hold i tokens' + others) h' mem' := by
  refine ⟨fun node => ?_, fun j => ?_⟩
  · rw [hlock]
    exact hI.lock node
  · by_cases hj : j = i
    · subst hj
      simpa [hold] using hslot
    · have hs := hI.slot j
      rw [hhist j hj, hwords j hj]
      simpa [hold, hj] using hs

theorem Inv.grip_alone {node : Nat} {token : LaneToken}
    (hI : Inv g (grip node token i tokens + others) h mem) :
    others.1 node = 0 ∧ mem (.structural node) = 1 := by
  have hlock := hI.lock node
  have hcard : ((grip node token i tokens + others).1 node).card = 1 + (others.1 node).card := by
    simp [grip, Nat.add_comm]
  rw [hcard] at hlock
  exact ⟨Multiset.card_eq_zero.mp (by omega), by omega⟩

theorem Inv.at_grip {token : LaneToken}
    (hI : Inv g (grip (i / g.laneCapacity) token i tokens + others) h mem) :
    SlotOk i {token} (tokens + others.2 i) (h i) (words mem i) := by
  have halone := hI.grip_alone.1
  have hs := hI.slot i
  simpa [grip, halone] using hs

theorem Inv.exchange_grip {first second : LaneToken}
    (hI : Inv g (grip (i / g.laneCapacity) first i tokens + others) h mem)
    (hlock : ∀ node, mem' (.structural node) = mem (.structural node))
    (hhist : ∀ j ≠ i, h' j = h j) (hwords : ∀ j ≠ i, words mem' j = words mem j)
    (hfirst : first.slot? = none ∨ first.slot? = some i)
    (hsecond : second.slot? = none ∨ second.slot? = some i)
    (hslot : SlotOk i {second} (tokens' + others.2 i) (h' i) (words mem' i)) :
    Inv g (grip (i / g.laneCapacity) second i tokens' + others) h' mem' := by
  have halone := hI.grip_alone.1
  refine ⟨fun node => ?_, fun j => ?_⟩
  · have hcard : ((grip (i / g.laneCapacity) second i tokens' + others).1 node).card =
        ((grip (i / g.laneCapacity) first i tokens + others).1 node).card := by
      by_cases hn : node = i / g.laneCapacity
      · subst hn
        simp [grip]
      · simp [grip, hn]
    rw [hlock, hcard]
    exact hI.lock node
  · by_cases hj : j = i
    · subst hj
      simpa [grip, halone] using hslot
    · have hs := hI.slot j
      rw [hhist j hj, hwords j hj]
      by_cases hlane : j / g.laneCapacity = i / g.laneCapacity
      · simp only [grip, Prod.fst_add, Prod.snd_add, Pi.add_apply, hlane, Pi.single_eq_same, halone,
          add_zero, ne_eq, hj, not_false_eq_true, Pi.single_eq_of_ne, zero_add] at hs ⊢
        refine hs.elsewhere second (fun v c s b n heq => ?_) fun heq => ?_
        · subst heq
          rcases hfirst with hf | hf <;> simp [LaneToken.slot?] at hf
          exact hj hf
        · rcases hsecond with hf | hf <;> rw [hf] at heq <;> cases heq
          exact absurd rfl hj
      · simpa [grip, hlane, hj] using hs

theorem words_lock (mem : Mem Addr) (node value i : Nat) :
    words (update mem (.structural node) value) i = words mem i :=
  words_unseen fun f => update_of_ne (f.addr_ne_structural i node) _ _

theorem Inv.acquired {node : Nat} (i : Nat) (hI : Inv g (0 + others) h mem)
    (hfree : mem (.structural node) = 0) :
    Inv g (grip node .held i 0 + others) h (update mem (.structural node) 1) := by
  have hnone : others.1 node = 0 := by
    have hlock := (hI.lock node).1
    rw [hfree, zero_add] at hlock
    exact Multiset.card_eq_zero.mp hlock
  refine ⟨fun n => ?_, fun j => ?_⟩
  · by_cases hn : n = node
    · subst hn
      simp [grip, hnone]
    · have hlock := hI.lock n
      simpa [grip, hn] using hlock
  · have hs := hI.slot j
    rw [words_lock]
    by_cases hlane : j / g.laneCapacity = node
    · subst hlane
      have hs' : SlotOk j 0 (others.2 j) (h j) (words mem j) := by simpa [hnone] using hs
      simpa [grip, hnone] using hs'.acquired
    · simpa [grip, hlane] using hs

theorem Inv.released {node : Nat} (hI : Inv g (grip node .held i tokens + others) h mem) :
    Inv g (hold i tokens + others) h (update mem (.structural node) 0) := by
  have halone := hI.grip_alone.1
  refine ⟨fun n => ?_, fun j => ?_⟩
  · by_cases hn : n = node
    · subst hn
      simp [hold, halone]
    · have hlock := hI.lock n
      simpa [grip, hold, hn] using hlock
  · have hs := hI.slot j
    rw [words_lock]
    by_cases hlane : j / g.laneCapacity = node
    · subst hlane
      simp only [grip, Prod.fst_add, Prod.snd_add, Pi.add_apply, Pi.single_eq_same, halone,
        add_zero] at hs
      simpa [hold, halone] using hs.released
    · simpa [grip, hold, hlane] using hs

end

section Rules

variable {thread : Nat} {call : Call g} {α : Type} {Q : α → Share → Prop}

def Allowed (call : Call g) (t : Tenancy) (old new : Nat) : Field → Prop
  | .units => (∀ generation ∈ call.generation?, t.tenant = generation) ∧
    (call.activates → new = packCounts 0 1 → old = 0)
  | .fence => ∀ generation ∈ call.generation?, t.tenant = generation ∧ old + 1 < placing
  | .pending _ => ∀ generation ∈ call.generation?, t.tenant = generation
  | _ => True

theorem write_iff (f : Field) (i old new : Nat) (h : History) (mem : Mem Addr) :
    (inTenancy g).write thread call (f.addr i) old new h mem ↔ Allowed call (h i) old new f := by
  cases f <;> exact Iff.rfl

variable {i : Nat} {tokens : Multiset SlotToken} {change : Nat → Option Nat}

theorem words_put_ne (mem : Mem Addr) (f : Field) {j : Nat} (hj : j ≠ i) (change : Option Nat) :
    words (mem.put (f.addr i) change) j = words mem j :=
  words_unseen fun _ => mem.put_apply_ne change (Field.addr_ne hj)

theorem words_put (mem : Mem Addr) (f : Field) (i : Nat) (change : Option Nat) :
    words (mem.put (f.addr i) change) i =
      change.elim (words mem i) fun value => (words mem i).set value f := by
  cases change with
  | none => rfl
  | some value => exact words_update mem i value f

theorem put_structural (mem : Mem Addr) (f : Field) (i node : Nat) (change : Option Nat) :
    mem.put (f.addr i) change (.structural node) = mem (.structural node) :=
  mem.put_apply_ne change (Field.addr_ne_structural f i node).symm

theorem safe_field (f : Field) {next : Nat → PoolM α}
    (hstep : ∀ mutex rest t w, SlotOk i mutex (tokens + rest) t w →
      (∀ new, change (w.get f) = some new → Allowed call t (w.get f) new f) →
      ∃ tokens', SlotOk i mutex (tokens' + rest) t
          ((change (w.get f)).elim w fun value => w.set value f) ∧
        Safe (poolSys g) (inTenancy g) (Inv g) thread call (next (w.get f)) Q (hold i tokens')) :
    Safe (poolSys g) (inTenancy g) (Inv g) thread call (.access (f.addr i) change next) Q
      (hold i tokens) := by
  intro others h mem hI hallowed
  obtain ⟨tokens', hslot, hnext⟩ := hstep _ _ _ _ hI.at_hold fun new hnew => by
    rw [words_get] at hnew ⊢
    exact (write_iff f i _ new h mem).mp (hallowed new hnew)
  rw [words_get] at hslot hnext
  refine hnext.goes (hI.exchange (put_structural mem f i · _) (fun _ _ => rfl)
    (fun j hj => words_put_ne mem f hj _) ?_)
  rw [words_put]
  exact hslot

theorem safe_mark {event : Event} {next : PoolM α} (after : Tenancy → Tenancy)
    (hrecord : ∀ h : History, record g event h = update h i (after (h i)))
    (hstep : ∀ mutex rest t w, SlotOk i mutex (tokens + rest) t w →
      ∃ tokens', SlotOk i mutex (tokens' + rest) (after t) w ∧
        Safe (poolSys g) (inTenancy g) (Inv g) thread call next Q (hold i tokens')) :
    Safe (poolSys g) (inTenancy g) (Inv g) thread call (.mark event next) Q (hold i tokens) := by
  intro others h mem hI
  obtain ⟨tokens', hslot, hnext⟩ := hstep _ _ _ _ hI.at_hold
  refine hnext.goes (hI.exchange (fun _ => rfl) (fun j hj => ?_) (fun _ _ => rfl) ?_)
  · rw [show (poolSys g).record thread call event h = _ from hrecord h, update_of_ne hj]
  · rw [show (poolSys g).record thread call event h = _ from hrecord h, update_self]
    exact hslot

theorem safe_field_mark (f : Field) {event : Event} {next : PoolM α} (after : Tenancy → Tenancy)
    (hrecord : ∀ h : History, record g event h = update h i (after (h i)))
    (hstep : ∀ mutex rest t w, SlotOk i mutex (tokens + rest) t w →
      (∀ new, change (w.get f) = some new → Allowed call t (w.get f) new f) →
      ∃ tokens', SlotOk i mutex (tokens' + rest) (after t)
          ((change (w.get f)).elim w fun value => w.set value f) ∧
        Safe (poolSys g) (inTenancy g) (Inv g) thread call next Q (hold i tokens')) :
    Safe (poolSys g) (inTenancy g) (Inv g) thread call
      (.access (f.addr i) change fun _ => .mark event next) Q (hold i tokens) := by
  intro others h mem hI hallowed
  obtain ⟨tokens', hslot, hnext⟩ := hstep _ _ _ _ hI.at_hold fun new hnew => by
    rw [words_get] at hnew ⊢
    exact (write_iff f i _ new h mem).mp (hallowed new hnew)
  rw [words_get] at hslot
  have hhist : (poolSys g).record thread call event h = _ := hrecord h
  refine hnext.goes (hI.exchange (put_structural mem f i · _) (fun j hj => ?_)
    (fun j hj => words_put_ne mem f hj _) ?_)
  · rw [hhist, update_of_ne hj]
  · rw [words_put, hhist, update_self]
    exact hslot

theorem safe_grip (f : Field) {token : LaneToken} {next : Nat → PoolM α}
    (htoken : token.slot? = none ∨ token.slot? = some i)
    (hstep : ∀ rest t w, SlotOk i {token} (tokens + rest) t w →
      ∃ token' tokens', (token'.slot? = none ∨ token'.slot? = some i) ∧
        SlotOk i {token'} (tokens' + rest) t ((change (w.get f)).elim w fun v => w.set v f) ∧
        Safe (poolSys g) (inTenancy g) (Inv g) thread call (next (w.get f)) Q
          (grip (i / g.laneCapacity) token' i tokens')) :
    Safe (poolSys g) (inTenancy g) (Inv g) thread call (.access (f.addr i) change next) Q
      (grip (i / g.laneCapacity) token i tokens) := by
  intro others h mem hI _
  obtain ⟨token', tokens', htoken', hslot, hnext⟩ := hstep _ _ _ hI.at_grip
  rw [words_get] at hslot hnext
  refine hnext.goes (hI.exchange_grip (put_structural mem f i · _) (fun _ _ => rfl)
    (fun j hj => words_put_ne mem f hj _) htoken htoken' ?_)
  rw [words_put]
  exact hslot

theorem safe_grip_mark {event : Event} {token token' : LaneToken} {Q : Unit → Share → Prop}
    (after : Tenancy → Tenancy)
    (hrecord : ∀ h : History, record g event h = update h i (after (h i)))
    (htoken : token.slot? = none ∨ token.slot? = some i)
    (htoken' : token'.slot? = none ∨ token'.slot? = some i)
    (hstep : ∀ rest t w, SlotOk i {token} (tokens + rest) t w →
      SlotOk i {token'} (tokens + rest) (after t) w)
    (hQ : Q () (grip (i / g.laneCapacity) token' i tokens)) :
    Safe (poolSys g) (inTenancy g) (Inv g) thread call (mark event) Q
      (grip (i / g.laneCapacity) token i tokens) := by
  intro others h mem hI
  have hhist : (poolSys g).record thread call event h = _ := hrecord h
  refine ⟨_, hI.exchange_grip (fun _ => rfl) (fun j hj => ?_) (fun _ _ => rfl) htoken htoken' ?_, hQ⟩
  · rw [hhist, update_of_ne hj]
  · rw [hhist, update_self]
    exact hstep _ _ _ hI.at_grip

theorem safe_skip {place : Addr} {next : Nat → PoolM α} {m : Share}
    (hplace : ¬place.Watched ∨ ∀ v, change v = none)
    (hnext : ∀ v, Safe (poolSys g) (inTenancy g) (Inv g) thread call (next v) Q m) :
    Safe (poolSys g) (inTenancy g) (Inv g) thread call (.access place change next) Q m := by
  intro others h mem hI _
  refine (hnext _).goes ?_
  cases hv : change (mem place) with
  | none => exact hI
  | some v =>
    rcases hplace with hw | hnone
    · exact hI.unseen hw v
    · rw [hnone] at hv
      cases hv

theorem safe_store {place : Addr} {value : Nat} {m : Share} {Q : Unit → Share → Prop}
    (hplace : ¬place.Watched) (hQ : Q () m) :
    Safe (poolSys g) (inTenancy g) (Inv g) thread call (store place value) Q m :=
  safe_skip (.inl hplace) fun _ => hQ

theorem safe_lock {place : Addr} {m : Share} {Q : Unit → Share → Prop} (hplace : ¬place.Watched)
    (hQ : Q () m) : Safe (poolSys g) (inTenancy g) (Inv g) thread call (acquire place) Q m :=
  fun _ _ _ hI _ => ⟨m, hI.unseen hplace 1, hQ⟩

theorem safe_acquire {node : Nat} (i : Nat) {Q : Unit → Share → Prop}
    (hQ : Q () (grip node .held i 0)) :
    Safe (poolSys g) (inTenancy g) (Inv g) thread call (acquire (.structural node)) Q 0 :=
  fun _ _ _ hI hfree => ⟨grip node .held i 0, hI.acquired i hfree, hQ⟩

theorem safe_release {node : Nat} {Q : Unit → Share → Prop} (hQ : Q () (hold i tokens)) :
    Safe (poolSys g) (inTenancy g) (Inv g) thread call (release (.structural node)) Q
      (grip node .held i tokens) :=
  fun _ _ _ hI _ => ⟨hold i tokens, hI.released, hQ⟩

end Rules

end OrbitPool
