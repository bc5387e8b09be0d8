import Orbit.Atomic.Threads
import Orbit.Stream.Table
import Mathlib.Algebra.Group.Pi.Lemmas
import Mathlib.Algebra.Group.Prod
import Mathlib.Algebra.Order.Group.Multiset
import Mathlib.Tactic.Abel

/-! Who holds the sides of slots that are created, opened, re-armed and dropped by any number of
processes at once. -/

namespace OrbitStream

open Orbit.Atomic Function
open Multiset hiding Mem

variable {g : Geometry}

inductive SlotCall (g : Geometry) where
  | create (s : Streams g)
  | openTicket (s : Streams g) (ticket : Ticket)
  | rearm (s : Streams g) (id : StreamId)
  | drop (handle : Handle)

/-- The history is the handles that calls have returned and no drop has taken yet. -/
abbrev Live := List Handle

/-- A drop takes a handle; everything else may begin at any time. -/
def slotBegins : SlotCall g → Live → Option Live
  | .drop handle, live => if handle ∈ live then some (live.erase handle) else none
  | _, live => some live

def slotSys (g : Geometry) : Sys Addr Event (SlotCall g) Live where
  body
    | .create s => do
      let _ ← s.create
    | .openTicket s ticket => do
      let _ ← s.open ticket
    | .rearm s id => do
      let _ ← s.rearm id
    | .drop handle => handle.drop
  begins := slotBegins
  record _ _
    | .held handle, live => handle :: live
    | _, live => live

def slotStart (g : Geometry) : Config Addr Event (SlotCall g) Live := ⟨fun _ => 0, [], []⟩

/-- An open claims a side only while the slot is live in its ticket's generation, and a drop empties
a slot only while no side of it is claimed. -/
def inGeneration : Discipline Addr (SlotCall g) Live where
  begin _ _ _ := True
  write _ call place old new _ mem :=
    match call, place with
    | .openTicket _ ticket, .claimed i _ => old = sideFree → new = sideClaimed →
      mem (.state i) = slotLive ∧ mem (.generation i) = ticket.id.generation
    | .drop _, .state i => ∀ side, mem (.claimed i side) ≠ sideClaimed
    | _, _ => True

/-- The words that say who holds a slot. -/
structure SlotWords where
  state : Nat
  generation : Nat
  claimed : Side → Nat

def slotWords (mem : Mem Addr) (i : Nat) : SlotWords :=
  ⟨mem (.state i), mem (.generation i), fun side => mem (.claimed i side)⟩

/-- The slot is live in the handle's generation, and the handle's side is claimed. -/
structure SlotWords.Held (w : SlotWords) (handle : Handle) : Prop where
  state : w.state = slotLive
  generation : w.generation = handle.id.generation
  claimed : w.claimed handle.side = sideClaimed

def Handle.place (handle : Handle) : Nat × Side := (handle.index, handle.side)

/-- How far the installation of a slot has come. -/
structure Stage where
  slot : Nat
  creator : Bool
  far : Bool
  generation : Option Nat

structure Stage.Ok (stage : Stage) (w : SlotWords) : Prop where
  state : w.state = slotEmpty
  creator : stage.creator = true → w.claimed .a = sideClaimed
  far : stage.far = true → w.claimed .b = sideFree
  generation : ∀ n, stage.generation = some n → w.generation = n

/-- What the calls hold: sides claimed for handles not yet returned or no longer held, duties to
empty a slot, and the locks of lanes with what is being installed under them. -/
abbrev SlotShare := Multiset Handle × (Nat → Nat) × (Nat → Multiset (Option Stage))

def claim (handle : Handle) : SlotShare := ({handle}, 0, 0)
def duty (i : Nat) : SlotShare := (0, Pi.single i 1, 0)
def locked (node : Nat) (stage : Option Stage) : SlotShare := (0, 0, Pi.single node {stage})

def holders (m : SlotShare) (live : Live) : Multiset Handle := m.1 + (live : Multiset Handle)

structure SlotInv (g : Geometry) (m : SlotShare) (live : Live) (mem : Mem Addr) : Prop where
  held : ∀ handle ∈ holders m live, (slotWords mem handle.index).Held handle
  apart : ((holders m live).map Handle.place).Nodup
  owned : ∀ i side, (slotWords mem i).state = slotLive →
    (slotWords mem i).claimed side = sideClaimed → (i, side) ∈ (holders m live).map Handle.place
  kept : ∀ i, (slotWords mem i).state = slotLive →
    (∃ side, (slotWords mem i).claimed side = sideClaimed) ∨ 0 < m.2.1 i
  state : ∀ i, (slotWords mem i).state = slotEmpty ∨ (slotWords mem i).state = slotLive ∨
    (slotWords mem i).state = slotExhausted
  lock : ∀ node, (m.2.2 node).card = mem (.allocate node) ∧ mem (.allocate node) ≤ 1
  stage : ∀ node, ∀ stage, some stage ∈ m.2.2 node →
    stage.Ok (slotWords mem stage.slot) ∧ stage.slot / g.laneCapacity = node

theorem SlotInv.init (g : Geometry) : SlotInv g 0 [] fun _ => 0 where
  held handle h := by simp [holders] at h
  apart := by simp [holders]
  owned i side h := by cases h
  kept i h := by cases h
  state i := .inl rfl
  lock node := ⟨rfl, Nat.zero_le 1⟩
  stage node stage h := by simp at h

section

variable {m m' : SlotShare} {live live' : Live} {mem mem' : Mem Addr} {handle : Handle}
  {i node : Nat} {stage stage' : Stage}

theorem SlotInv.same (hI : SlotInv g m live mem) (hslots : ∀ i, slotWords mem' i = slotWords mem i)
    (hholders : holders m' live' = holders m live) (hduties : m'.2.1 = m.2.1)
    (hlock : ∀ node, (m'.2.2 node).card = mem' (.allocate node) ∧ mem' (.allocate node) ≤ 1)
    (hstage : ∀ node, ∀ stage, some stage ∈ m'.2.2 node →
      stage.Ok (slotWords mem stage.slot) ∧ stage.slot / g.laneCapacity = node) :
    SlotInv g m' live' mem' := by
  constructor
  · simpa only [hslots, hholders] using hI.held
  · simpa only [hholders] using hI.apart
  · simpa only [hslots, hholders] using hI.owned
  · simpa only [hslots, hduties] using hI.kept
  · simpa only [hslots] using hI.state
  · exact hlock
  · simpa only [hslots] using hstage

/-- The word says nothing of who holds a slot, nor of a lock. -/
def Addr.Unwatched : Addr → Prop
  | .state _ | .generation _ | .claimed .. | .allocate _ => False
  | _ => True

theorem slotWords_unwatched {place : Addr} (hplace : place.Unwatched) (value i : Nat) :
    slotWords (update mem place value) i = slotWords mem i := by
  cases place <;> first | exact hplace.elim | rfl

theorem SlotInv.unwatched {place : Addr} {value : Nat} (hplace : place.Unwatched)
    (hI : SlotInv g m live mem) : SlotInv g m live (update mem place value) := by
  refine hI.same (slotWords_unwatched hplace value) rfl rfl (fun node => ?_) hI.stage
  rw [update_of_ne]
  · exact hI.lock node
  · rintro rfl
    exact hplace

theorem SlotInv.not_held (hI : SlotInv g m live mem) (hstate : (slotWords mem i).state ≠ slotLive) :
    ∀ handle ∈ holders m live, handle.index ≠ i := by
  rintro handle hmem rfl
  exact hstate (hI.held handle hmem).state

theorem SlotInv.not_placed (hI : SlotInv g m live mem) {side : Side}
    (hclaimed : (slotWords mem i).claimed side ≠ sideClaimed) :
    (i, side) ∉ (holders m live).map Handle.place := by
  rw [mem_map]
  rintro ⟨handle, hmem, heq⟩
  have hh := (hI.held handle hmem).claimed
  simp only [Handle.place, Prod.mk.injEq] at heq
  rw [heq.1, heq.2] at hh
  exact hclaimed hh

theorem SlotInv.at_slot (hI : SlotInv g m live mem) (i : Nat)
    (hslots : ∀ j ≠ i, slotWords mem' j = slotWords mem j)
    (hlocks : ∀ node, mem' (.allocate node) = mem (.allocate node))
    (hothers : ∀ handle : Handle, handle.index ≠ i →
      (handle ∈ holders m' live' ↔ handle ∈ holders m live))
    (hduties : ∀ j ≠ i, m'.2.1 j = m.2.1 j)
    (hcards : ∀ node, (m'.2.2 node).card = (m.2.2 node).card)
    (hheld : ∀ handle ∈ holders m' live', handle.index = i → (slotWords mem' i).Held handle)
    (hapart : ((holders m' live').map Handle.place).Nodup)
    (howned : ∀ side, (slotWords mem' i).state = slotLive →
      (slotWords mem' i).claimed side = sideClaimed →
      (i, side) ∈ (holders m' live').map Handle.place)
    (hkept : (slotWords mem' i).state = slotLive →
      (∃ side, (slotWords mem' i).claimed side = sideClaimed) ∨ 0 < m'.2.1 i)
    (hstate : (slotWords mem' i).state = slotEmpty ∨ (slotWords mem' i).state = slotLive ∨
      (slotWords mem' i).state = slotExhausted)
    (hstages : ∀ node, ∀ stage, some stage ∈ m'.2.2 node →
      stage.Ok (slotWords mem' stage.slot) ∧ stage.slot / g.laneCapacity = node) :
    SlotInv g m' live' mem' := by
  constructor
  · intro handle h
    by_cases heq : handle.index = i
    · rw [heq]
      exact hheld handle h heq
    · rw [hslots _ heq]
      exact hI.held handle ((hothers handle heq).mp h)
  · exact hapart
  · intro j side hj
    by_cases hji : j = i
    · subst hji
      exact howned side hj
    · rw [hslots j hji] at hj ⊢
      intro hclaimed
      obtain ⟨handle, hmem, hplace⟩ := mem_map.mp (hI.owned j side hj hclaimed)
      have hne : handle.index ≠ i := by
        rw [show handle.index = j from congrArg Prod.fst hplace]
        exact hji
      exact mem_map.mpr ⟨handle, (hothers handle hne).mpr hmem, hplace⟩
  · intro j hj
    by_cases hji : j = i
    · subst hji
      exact hkept hj
    · rw [hslots j hji] at hj ⊢
      rw [hduties j hji]
      exact hI.kept j hj
  · intro j
    by_cases hji : j = i
    · rw [hji]
      exact hstate
    · rw [hslots j hji]
      exact hI.state j
  · intro node
    rw [hcards, hlocks]
    exact hI.lock node
  · exact hstages

theorem SlotInv.at_idle (hI : SlotInv g m live mem) (i : Nat)
    (hslots : ∀ j ≠ i, slotWords mem' j = slotWords mem j)
    (hlocks : ∀ node, mem' (.allocate node) = mem (.allocate node))
    (hstate : (slotWords mem i).state ≠ slotLive)
    (hstate' : (slotWords mem' i).state = slotEmpty ∨ (slotWords mem' i).state = slotExhausted)
    (hholders : holders m' live' = holders m live) (hduties : m'.2.1 = m.2.1)
    (hcards : ∀ node, (m'.2.2 node).card = (m.2.2 node).card)
    (hstages : ∀ node, ∀ stage, some stage ∈ m'.2.2 node →
      stage.Ok (slotWords mem' stage.slot) ∧ stage.slot / g.laneCapacity = node) :
    SlotInv g m' live' mem' := by
  have hdead : (slotWords mem' i).state ≠ slotLive := by
    rcases hstate' with h | h <;> rw [h] <;> decide
  apply hI.at_slot i hslots hlocks
  · intro handle _
    rw [hholders]
  · intro j _
    rw [hduties]
  · exact hcards
  · intro handle h heq
    rw [hholders] at h
    exact absurd heq (hI.not_held hstate handle h)
  · rw [hholders]
    exact hI.apart
  · exact fun _ hlive => absurd hlive hdead
  · exact fun hlive => absurd hlive hdead
  · exact hstate'.imp_right .inr
  · exact hstages

theorem slotWords_allocate (node value : Nat) (i : Nat) :
    slotWords (update mem (.allocate node) value) i = slotWords mem i := rfl

theorem SlotInv.acquired (hI : SlotInv g m live mem) (hfree : mem (.allocate node) = 0) :
    SlotInv g (locked node none + m) live (update mem (.allocate node) 1) := by
  refine hI.same (slotWords_allocate node 1) (by simp [locked, holders]) (by simp [locked])
    (fun node' => ?_) fun node' stage h => ?_
  · by_cases heq : node' = node
    · subst heq
      have := (hI.lock node').1
      simp [locked, this, hfree]
    · simpa [locked, heq] using hI.lock node'
  · by_cases heq : node' = node
    · subst heq
      simp only [locked, Prod.snd_add, Pi.add_apply, Pi.single_eq_same, mem_add,
        mem_singleton, reduceCtorEq, false_or] at h
      exact hI.stage node' stage h
    · exact hI.stage node' stage (by simpa [locked, heq] using h)

theorem SlotInv.lock_alone {tok : Option Stage} (hI : SlotInv g (locked node tok + m) live mem) :
    m.2.2 node = 0 := by
  have h := hI.lock node
  simp only [locked, Prod.snd_add, Pi.add_apply, Pi.single_eq_same, card_add,
    card_singleton] at h
  exact card_eq_zero.mp (by omega)

theorem SlotInv.released (hI : SlotInv g (locked node none + m) live mem) :
    SlotInv g m live (update mem (.allocate node) 0) := by
  have halone := hI.lock_alone
  refine hI.same (slotWords_allocate node 0) (by simp [locked, holders]) (by simp [locked])
    (fun node' => ?_) fun node' stage h => ?_
  · by_cases heq : node' = node
    · subst heq
      simp [halone]
    · have := hI.lock node'
      simpa [locked, heq] using this
  · exact hI.stage node' stage (by simp [locked, h])

theorem locked_holders (node : Nat) (tok : Option Stage) (m : SlotShare) (live : Live) :
    holders (locked node tok + m) live = holders m live := by
  simp [locked, holders]

theorem locked_duties (node : Nat) (tok : Option Stage) (m : SlotShare) :
    (locked node tok + m).2.1 = m.2.1 := by
  simp [locked]

theorem locked_cards (node : Nat) (tok tok' : Option Stage) (m : SlotShare) (node' : Nat) :
    ((locked node tok + m).2.2 node').card = ((locked node tok' + m).2.2 node').card := by
  by_cases heq : node' = node
  · subst heq
    simp [locked]
  · simp [locked, heq]

theorem SlotInv.stages {tok : Option Stage} (hI : SlotInv g (locked node tok + m) live mem)
    (tok' : Option Stage)
    (hwords : ∀ j, j / g.laneCapacity ≠ node → slotWords mem' j = slotWords mem j)
    (htok : ∀ stage, tok' = some stage →
      stage.Ok (slotWords mem' stage.slot) ∧ stage.slot / g.laneCapacity = node) :
    ∀ node', ∀ stage, some stage ∈ (locked node tok' + m).2.2 node' →
      stage.Ok (slotWords mem' stage.slot) ∧ stage.slot / g.laneCapacity = node' := by
  intro node' stage h
  have halone := hI.lock_alone
  by_cases heq : node' = node
  · subst heq
    simp only [locked, Prod.snd_add, Pi.add_apply, Pi.single_eq_same, halone, add_zero,
      mem_singleton] at h
    exact htok stage h.symm
  · obtain ⟨hok, hlane⟩ := hI.stage node' stage (by simpa [locked, heq] using h)
    rw [hwords _ (by rw [hlane]; exact heq)]
    exact ⟨hok, hlane⟩

theorem SlotInv.picked (hI : SlotInv g (locked node none + m) live mem)
    (hempty : mem (.state i) = slotEmpty) (hlane : i / g.laneCapacity = node) :
    SlotInv g (locked node (some ⟨i, false, false, none⟩) + m) live mem := by
  refine hI.same (fun _ => rfl) ?_ ?_ (fun node' => ?_) (hI.stages _ (fun _ _ => rfl) ?_)
  · rw [locked_holders, locked_holders]
  · rw [locked_duties, locked_duties]
  · rw [locked_cards node _ none]
    exact hI.lock node'
  · rintro stage ⟨⟩
    exact ⟨⟨hempty, nofun, nofun, nofun⟩, hlane⟩

theorem SlotInv.installs (hI : SlotInv g (locked node (some stage) + m) live mem)
    (hslots : ∀ j ≠ stage.slot, slotWords mem' j = slotWords mem j)
    (hlocks : ∀ node, mem' (.allocate node) = mem (.allocate node))
    (hstage : stage.Ok (slotWords mem stage.slot) → stage'.Ok (slotWords mem' stage.slot))
    (hslot : stage'.slot = stage.slot) :
    SlotInv g (locked node (some stage') + m) live mem' := by
  obtain ⟨hok, hlane⟩ := hI.stage node stage (by simp [locked])
  have hok' := hstage hok
  have hnot : (slotWords mem stage.slot).state ≠ slotLive := by
    rw [hok.state]
    decide
  refine hI.at_idle stage.slot hslots hlocks hnot (.inl hok'.state) ?_ ?_ ?_ (hI.stages _ ?_ ?_)
  · rw [locked_holders, locked_holders]
  · rw [locked_duties, locked_duties]
  · exact fun node' => locked_cards ..
  · intro j hj
    exact hslots j fun heq => hj (heq ▸ hlane)
  · rintro _ ⟨⟩
    rw [hslot]
    exact ⟨hok', hlane⟩

theorem SlotInv.exhausted (hI : SlotInv g (locked node (some stage) + m) live mem) :
    SlotInv g (locked node none + m) live
      (update mem (.state stage.slot) slotExhausted) := by
  obtain ⟨hok, hlane⟩ := hI.stage node stage (by simp [locked])
  have hnot : (slotWords mem stage.slot).state ≠ slotLive := by
    rw [hok.state]
    decide
  have hslots : ∀ j ≠ stage.slot,
      slotWords (update mem (.state stage.slot) slotExhausted) j = slotWords mem j := by
    intro j hj
    simp [slotWords, hj]
  refine hI.at_idle stage.slot hslots (fun _ => rfl) hnot (.inr (by simp [slotWords])) ?_ ?_ ?_
    (hI.stages _ ?_ ?_)
  · rw [locked_holders, locked_holders]
  · rw [locked_duties, locked_duties]
  · exact fun node' => locked_cards ..
  · intro j hj
    exact hslots j fun heq => hj (heq ▸ hlane)
  · rintro _ ⟨⟩

theorem mem_claimed (handle : Handle) (m : SlotShare) (live : Live) :
    handle ∈ holders (claim handle + m) live := by
  simp [claim, holders]

theorem claimed_holders (handle : Handle) (m : SlotShare) (live : Live) :
    holders (claim handle + m) live = handle ::ₘ holders m live := by
  simp [claim, holders]

theorem SlotInv.claim_held (hI : SlotInv g (claim handle + m) live mem) :
    (slotWords mem handle.index).Held handle :=
  hI.held handle (mem_claimed handle m live)

theorem SlotInv.returned (hI : SlotInv g (claim handle + m) live mem) :
    SlotInv g m (handle :: live) mem := by
  refine hI.same (fun _ => rfl) ?_ (by simp [claim]) (fun node => ?_) fun node stage h => ?_
  · rw [claimed_holders, holders, holders, ← cons_coe, add_cons]
  · simpa [claim] using hI.lock node
  · exact hI.stage node stage (by simpa [claim] using h)

theorem SlotInv.taken (hI : SlotInv g m live mem) (hmem : handle ∈ live) :
    SlotInv g (claim handle + m) (live.erase handle) mem := by
  refine hI.same (fun _ => rfl) ?_ (by simp [claim]) (fun node => ?_) fun node stage h => ?_
  · rw [claimed_holders, holders, holders, ← coe_erase, ← add_cons,
      cons_erase (mem_coe.mpr hmem)]
  · simpa [claim] using hI.lock node
  · exact hI.stage node stage (by simpa [claim] using h)

theorem SlotInv.not_staged (hI : SlotInv g m live mem) (hlive : (slotWords mem i).state = slotLive) :
    ∀ node, ∀ stage, some stage ∈ m.2.2 node → stage.slot ≠ i := by
  rintro node stage hmem rfl
  have hempty := (hI.stage node stage hmem).1.state
  rw [hlive] at hempty
  cases hempty

theorem SlotInv.stages_apart (hI : SlotInv g m live mem)
    (hslots : ∀ j ≠ i, slotWords mem' j = slotWords mem j)
    (hnot : ∀ node, ∀ stage, some stage ∈ m.2.2 node → stage.slot ≠ i) :
    ∀ node, ∀ stage, some stage ∈ m.2.2 node →
      stage.Ok (slotWords mem' stage.slot) ∧ stage.slot / g.laneCapacity = node := by
  intro node stage hmem
  rw [hslots _ (hnot node stage hmem)]
  exact hI.stage node stage hmem

theorem slotWords_claimed_ne (side : Side) (value : Nat) :
    ∀ j ≠ i, slotWords (update mem (.claimed i side) value) j = slotWords mem j := by
  intro j hj
  simp [slotWords, hj]

theorem slotWords_claimed (side : Side) (value : Nat) :
    slotWords (update mem (.claimed i side) value) i =
      ⟨(slotWords mem i).state, (slotWords mem i).generation,
        update (slotWords mem i).claimed side value⟩ := by
  simp only [slotWords, SlotWords.mk.injEq]
  refine ⟨rfl, rfl, funext fun side' => ?_⟩
  by_cases heq : side' = side
  · subst heq
    simp
  · simp [heq]

theorem slotWords_state_ne (value : Nat) :
    ∀ j ≠ i, slotWords (update mem (.state i) value) j = slotWords mem j := by
  intro j hj
  simp [slotWords, hj]

theorem slotWords_state (value : Nat) :
    slotWords (update mem (.state i) value) i = { slotWords mem i with state := value } := by
  simp [slotWords]

theorem SlotInv.born {n : Nat}
    (hI : SlotInv g (locked node (some ⟨handle.index, true, true, some n⟩) + m) live mem)
    (hside : handle.side = .a) (hgeneration : handle.id.generation = n) :
    SlotInv g (claim handle + (locked node none + m)) live
      (update mem (.state handle.index) slotLive) := by
  obtain ⟨hok, hlane⟩ := hI.stage node ⟨handle.index, true, true, some n⟩ (by simp [locked])
  have hcreator := hok.creator rfl
  have hfar := hok.far rfl
  have hgen := hok.generation n rfl
  have hnot : (slotWords mem handle.index).state ≠ slotLive := by
    rw [hok.state]
    decide
  have hnone := hI.not_held hnot
  rw [locked_holders] at hnone
  apply hI.at_slot handle.index (slotWords_state_ne slotLive) (fun _ => rfl)
  · intro handle' hne
    rw [claimed_holders, locked_holders, locked_holders, mem_cons]
    refine or_iff_right ?_
    rintro rfl
    exact hne rfl
  · intro j _
    simp [claim, locked]
  · intro node'
    rw [locked_cards node _ none]
    simp [claim]
  · intro handle' hmem heq
    rw [claimed_holders, locked_holders, mem_cons] at hmem
    obtain rfl := hmem.resolve_right fun h => hnone handle' h heq
    rw [slotWords_state]
    exact ⟨rfl, hgen.trans hgeneration.symm, by rw [hside]; exact hcreator⟩
  · rw [claimed_holders, locked_holders, map_cons, nodup_cons]
    refine ⟨fun hmem => ?_, ?_⟩
    · obtain ⟨handle', hmem', hplace⟩ := mem_map.mp hmem
      exact hnone handle' hmem' (congrArg Prod.fst hplace)
    · have hapart := hI.apart
      rwa [locked_holders] at hapart
  · intro side _ hclaimed
    rw [slotWords_state] at hclaimed
    rw [claimed_holders, map_cons, mem_cons]
    cases side with
    | a => exact .inl (by rw [Handle.place, hside])
    | b =>
      have hfree : (slotWords mem handle.index).claimed .b = sideClaimed := hclaimed
      rw [show (slotWords mem handle.index).claimed .b = sideFree from hfar] at hfree
      cases hfree
  · intro _
    rw [slotWords_state]
    exact .inl ⟨.a, hcreator⟩
  · rw [slotWords_state]
    exact .inr (.inl rfl)
  · intro node' stage hmem
    have hmem' : some stage ∈ (locked node none + m).2.2 node' := by simpa [claim] using hmem
    exact hI.stages none
      (fun j hj => slotWords_state_ne slotLive j fun heq => hj (heq ▸ hlane)) nofun node' stage hmem'

theorem SlotInv.claims (hI : SlotInv g m live mem)
    (hlive : mem (.state handle.index) = slotLive)
    (hgeneration : mem (.generation handle.index) = handle.id.generation)
    (hfree : mem (.claimed handle.index handle.side) = sideFree) :
    SlotInv g (claim handle + m) live
      (update mem (.claimed handle.index handle.side) sideClaimed) := by
  have hnot : (slotWords mem handle.index).claimed handle.side ≠ sideClaimed := by
    show mem _ ≠ _
    rw [hfree]
    decide
  have hnew := hI.not_placed hnot
  apply hI.at_slot handle.index (slotWords_claimed_ne _ _) (fun _ => rfl)
  · intro handle' hne
    rw [claimed_holders, mem_cons]
    refine or_iff_right ?_
    rintro rfl
    exact hne rfl
  · intro j _
    simp [claim]
  · intro node
    simp [claim]
  · intro handle' hmem heq
    rw [slotWords_claimed]
    rw [claimed_holders, mem_cons] at hmem
    rcases hmem with rfl | hmem
    · exact ⟨hlive, hgeneration, update_self _ _ _⟩
    · have hheld := hI.held handle' hmem
      rw [heq] at hheld
      have hne : handle'.side ≠ handle.side := by
        intro hside
        refine hnew (mem_map.mpr ⟨handle', hmem, ?_⟩)
        rw [Handle.place, heq, hside]
      exact ⟨hlive, hheld.generation, (update_of_ne hne _ _).trans hheld.claimed⟩
  · rw [claimed_holders, map_cons, nodup_cons]
    exact ⟨hnew, hI.apart⟩
  · intro side _ hclaimed
    rw [claimed_holders, map_cons, mem_cons]
    by_cases heq : side = handle.side
    · exact .inl (by rw [heq, Handle.place])
    · rw [slotWords_claimed] at hclaimed
      exact .inr (hI.owned _ side hlive ((update_of_ne heq _ _).symm.trans hclaimed))
  · intro _
    rw [slotWords_claimed]
    exact .inl ⟨handle.side, update_self _ _ _⟩
  · rw [slotWords_claimed]
    exact .inr (.inl hlive)
  · intro node stage hmem
    exact hI.stages_apart (slotWords_claimed_ne _ _) (hI.not_staged hlive) node stage
      (by simpa [claim] using hmem)

theorem SlotInv.lets_go (hI : SlotInv g (claim handle + m) live mem) :
    SlotInv g (duty handle.index + m) live
      (update mem (.claimed handle.index handle.side) sideReleased) := by
  have hheld := hI.claim_held
  have hapart := hI.apart
  rw [claimed_holders, map_cons, nodup_cons] at hapart
  have hholders : holders (duty handle.index + m) live = holders m live := by
    simp [duty, holders]
  apply hI.at_slot handle.index (slotWords_claimed_ne _ _) (fun _ => rfl)
  · intro handle' hne
    rw [hholders, claimed_holders, mem_cons]
    refine (or_iff_right ?_).symm
    rintro rfl
    exact hne rfl
  · intro j hj
    simp [duty, claim, hj]
  · intro node
    simp [duty, claim]
  · intro handle' hmem heq
    rw [hholders] at hmem
    have hheld' := hI.held handle' (by rw [claimed_holders]; exact mem_cons_of_mem hmem)
    rw [heq] at hheld'
    have hne : handle'.side ≠ handle.side := by
      intro hside
      refine hapart.1 (mem_map.mpr ⟨handle', hmem, ?_⟩)
      rw [Handle.place, Handle.place, heq, hside]
    rw [slotWords_claimed]
    exact ⟨hheld'.state, hheld'.generation,
      (update_of_ne hne _ _).trans hheld'.claimed⟩
  · rw [hholders]
    exact hapart.2
  · intro side _ hclaimed
    rw [slotWords_claimed] at hclaimed
    have hne : side ≠ handle.side := by
      rintro rfl
      have hclaimed' := (update_self _ _ _).symm.trans hclaimed
      cases hclaimed'
    have hmem := hI.owned _ side hheld.state
      ((update_of_ne hne _ _).symm.trans hclaimed)
    rw [claimed_holders, map_cons, mem_cons] at hmem
    rw [hholders]
    refine hmem.resolve_left fun heq => hne ?_
    exact congrArg Prod.snd heq
  · intro _
    refine .inr ?_
    simp only [duty, Prod.snd_add, Prod.fst_add, Pi.add_apply, Pi.single_eq_same]
    omega
  · rw [slotWords_claimed]
    exact .inr (.inl hheld.state)
  · intro node stage hmem
    exact hI.stages_apart (slotWords_claimed_ne _ _) (hI.not_staged hheld.state) node stage
      (by simpa [duty, claim] using hmem)

theorem SlotInv.relieved (hI : SlotInv g (duty i + m) live mem)
    (hkept : mem (.state i) = slotLive → ∃ side, mem (.claimed i side) = sideClaimed) :
    SlotInv g m live mem := by
  have hholders : holders m live = holders (duty i + m) live := by simp [duty, holders]
  apply hI.at_slot i (fun _ _ => rfl) (fun _ => rfl)
  · intro handle _
    rw [hholders]
  · intro j hj
    simp [duty, hj]
  · intro node
    simp [duty]
  · intro handle hmem heq
    rw [← heq]
    exact hI.held handle (hholders ▸ hmem)
  · rw [hholders]
    exact hI.apart
  · rw [hholders]
    exact hI.owned i
  · exact fun hlive => .inl (hkept hlive)
  · exact hI.state i
  · intro node stage hmem
    exact hI.stage node stage (by simpa [duty] using hmem)

theorem SlotInv.emptied (hI : SlotInv g (duty i + m) live mem)
    (hlive : mem (.state i) = slotLive) (hfree : ∀ side, mem (.claimed i side) ≠ sideClaimed) :
    SlotInv g m live (update mem (.state i) slotEmpty) := by
  have hholders : holders m live = holders (duty i + m) live := by simp [duty, holders]
  have hnone : ∀ handle ∈ holders (duty i + m) live, handle.index ≠ i := by
    rintro handle hmem rfl
    exact hfree handle.side (hI.held handle hmem).claimed
  have hdead : (slotWords (update mem (.state i) slotEmpty) i).state ≠ slotLive := by
    rw [slotWords_state]
    nofun
  apply hI.at_slot i (slotWords_state_ne slotEmpty) (fun _ => rfl)
  · intro handle _
    rw [hholders]
  · intro j hj
    simp [duty, hj]
  · intro node
    simp [duty]
  · exact fun handle hmem heq => absurd heq (hnone handle (hholders ▸ hmem))
  · rw [hholders]
    exact hI.apart
  · exact fun _ hstate => absurd hstate hdead
  · exact fun hstate => absurd hstate hdead
  · rw [slotWords_state]
    exact .inl rfl
  · intro node stage hmem
    exact hI.stages_apart (slotWords_state_ne slotEmpty) (hI.not_staged hlive) node stage
      (by simpa [duty] using hmem)

theorem SlotInv.rearmed (hI : SlotInv g m live mem) (hreleased : mem (.claimed i .b) = sideReleased) :
    SlotInv g m live (update mem (.claimed i .b) sideFree) := by
  have hnot : (slotWords mem i).claimed .b ≠ sideClaimed := by
    show mem _ ≠ _
    rw [hreleased]
    decide
  have hclaimed : ∀ side, (slotWords (update mem (.claimed i .b) sideFree) i).claimed side =
      sideClaimed ↔ (slotWords mem i).claimed side = sideClaimed := by
    intro side
    rw [slotWords_claimed]
    cases side with
    | a => rfl
    | b => simpa only [update_self] using iff_of_false nofun hnot
  apply hI.at_slot i (slotWords_claimed_ne _ _) (fun _ => rfl) (fun _ _ => .rfl) (fun _ _ => rfl)
    (fun _ => rfl)
  · intro handle hmem heq
    have hheld := hI.held handle hmem
    rw [heq] at hheld
    exact ⟨hheld.state, hheld.generation, (hclaimed _).mpr hheld.claimed⟩
  · exact hI.apart
  · exact fun side hlive h => hI.owned i side hlive ((hclaimed side).mp h)
  · intro hlive
    simp only [hclaimed]
    exact hI.kept i hlive
  · exact hI.state i
  · intro node stage hmem
    obtain ⟨hok, hlane⟩ := hI.stage node stage hmem
    refine ⟨?_, hlane⟩
    by_cases heq : stage.slot = i
    · rw [heq] at hok ⊢
      refine ⟨hok.state, fun h => (hclaimed .a).mpr (hok.creator h), fun _ => ?_, hok.generation⟩
      simp only [slotWords_claimed, update_self]
    · rw [slotWords_claimed_ne _ _ _ heq]
      exact hok

end

end OrbitStream
