import Mathlib.Data.Finset.Card
import Mathlib.Data.Finset.Filter
import Orbit.Atomic.Word
import Orbit.Stream.Holders

/-! Offers of a shared stream table.  An offer is a bit for the slot in the bitmap of a node, and
whoever takes it makes the ticket from what the slot holds then. -/

namespace OrbitStream.Offers

open Orbit.Atomic Function
open List hiding Mem

variable {g : Geometry}

/-- What the processes hold, and the words of each node's offer bitmap.  `offered` and `taken` keep
which tickets were offered to which nodes and which were taken there. -/
structure World where
  base : OrbitStream.World
  offers : Nat → Nat → Nat
  offered : List (Nat × Ticket)
  taken : List (Nat × Ticket)

def World.init : World := ⟨.init, fun _ _ => 0, [], []⟩

def World.bit (w : World) (node index : Nat) : Bool :=
  (w.offers node (index / 64)).testBit (index % 64)

/-- `slot.is(generation)`. -/
def slotIs (mem : Mem Addr) (index generation : Nat) : Bool :=
  ((isGeneration index generation).run mem).1

def World.offer (w : World) (s : Streams g) (ticket : Ticket) (target : Nat) :
    Except Error Unit × World :=
  match s.locate ticket.id with
  | .error e => (.error e, w)
  | .ok index =>
    if ticket.epoch ≠ w.base.mem .epoch ∨ !slotIs w.base.mem index ticket.id.generation then
      (.error (.stale ticket.id), w)
    else if target ≥ g.fleetCapacity then
      (.error (.malformed s!"node {target} is outside the fleet"), w)
    else
      let word := w.offers target (index / 64) ||| 2 ^ (index % 64)
      let words := update (w.offers target) (index / 64) word
      (.ok (), { w with
        offers := update w.offers target words
        offered := (target, ticket) :: w.offered })

/-- The loop over the bits of one word, which holds `place`. -/
def takeBits (totalSlots word : Nat) : List Nat → Nat → Option Nat × Nat
  | [], place => (none, place)
  | bit :: rest, place =>
    if place.testBit bit then
      let place := place ^^^ (place &&& 2 ^ bit)
      if word * 64 + bit < totalSlots then (some (word * 64 + bit), place)
      else takeBits totalSlots word rest place
    else takeBits totalSlots word rest place

/-- `Table::take_offer`, over the words of a node. -/
def takeWords (totalSlots : Nat) : List Nat → (Nat → Nat) → Option Nat × (Nat → Nat)
  | [], words => (none, words)
  | word :: rest, words =>
    let taken := takeBits totalSlots word (range 64) (words word)
    let words := update words word taken.2
    match taken.1 with
    | some index => (some index, words)
    | none => takeWords totalSlots rest words

/-- `total_slots.div_ceil(64)`. -/
def bitmapWords (g : Geometry) : Nat := (g.totalSlots + 63) / 64

def ticketAt (g : Geometry) (mem : Mem Addr) (index : Nat) : Ticket :=
  ⟨⟨g.spec.kind, index / g.laneCapacity, index % g.laneCapacity, mem (.generation index)⟩, .b,
    mem .epoch⟩

def ticketFor (g : Geometry) (mem : Mem Addr) (index : Nat) : Option Ticket :=
  if !slotIs mem index (mem (.generation index)) then none else some (ticketAt g mem index)

/-- `Streams::take_offer`: slots that have ended are skipped.  Each turn clears a bit, so that there
is a turn for every slot and one more. -/
def takeOffer (g : Geometry) (mem : Mem Addr) : Nat → (Nat → Nat) → Option Ticket × (Nat → Nat)
  | 0, words => (none, words)
  | turns + 1, words =>
    let found := takeWords g.totalSlots (range (bitmapWords g)) words
    match found.1 with
    | none => (none, found.2)
    | some index =>
      match ticketFor g mem index with
      | some ticket => (some ticket, found.2)
      | none => takeOffer g mem turns found.2

def World.takeOffer (w : World) (s : Streams g) : Option Ticket × World :=
  let found := Offers.takeOffer g w.base.mem (g.totalSlots + 1) (w.offers s.node)
  (found.1, { w with
    offers := update w.offers s.node found.2
    taken := (found.1.map fun ticket => ((s.node : Nat), ticket)).toList ++ w.taken })

inductive Op (g : Geometry) where
  | base (op : OrbitStream.Op g)
  | offer (s : Streams g) (ticket : Ticket) (target : Nat)
  | takeOffer (s : Streams g)

def exec (w : World) : Op g → World
  | .base op => { w with base := OrbitStream.exec w.base op }
  | .offer s ticket target => (w.offer s ticket target).2
  | .takeOffer s => (w.takeOffer s).2

def run (ops : List (Op g)) : World := ops.foldl exec .init

/-- No stream is installed in a slot that is still in the bitmap of a node, and what is offered is
side B. -/
def Clear (w : World) : Op g → Prop
  | .base (.create s) => ∀ handle ticket, (s.create.run w.base.mem).1 = .ok (handle, ticket) →
      ∀ node, w.bit node handle.index = false
  | .offer s ticket target => (w.offer s ticket target).1 = .ok () → ticket.side = .b
  | _ => True

variable {w w' : World} {mem mem' : Mem Addr} {words : Nat → Nat} {totalSlots index : Nat}

def bitOf (words : Nat → Nat) (index : Nat) : Bool := (words (index / 64)).testBit (index % 64)

/-- What a search leaves of the bits: all but the one that it found. -/
def Took (totalSlots : Nat) (before after : Nat → Bool) : Option Nat → Prop
  | none => ∀ i < totalSlots, before i = false ∧ after i = false
  | some index => index < totalSlots ∧ before index = true ∧
      ∀ i < totalSlots, after i = (before i && decide (i ≠ index))

theorem testBit_cleared (place bit b : Nat) :
    (place ^^^ (place &&& 2 ^ bit)).testBit b = (place.testBit b && decide (b ≠ bit)) := by
  rw [testBit_clear, Nat.testBit_two_pow]
  by_cases hb : bit = b
  · simp [hb]
  · simp [hb, Ne.symm hb]

theorem takeBits_none {word : Nat} {bits : List Nat} {place : Nat}
    (h : (takeBits totalSlots word bits place).1 = none) :
    (∀ b ∈ bits, word * 64 + b < totalSlots → place.testBit b = false) ∧
      ∀ b, word * 64 + b < totalSlots →
        (takeBits totalSlots word bits place).2.testBit b = place.testBit b := by
  induction bits generalizing place with
  | nil => exact ⟨fun b hb => absurd hb not_mem_nil, fun b _ => rfl⟩
  | cons bit rest ih =>
    rw [takeBits] at h ⊢
    by_cases hset : place.testBit bit = true
    · rw [if_pos hset] at h ⊢
      by_cases hslot : word * 64 + bit < totalSlots
      · rw [if_pos hslot] at h
        cases h
      · rw [if_neg hslot] at h ⊢
        obtain ⟨hnone, hsame⟩ := ih h
        have hother : ∀ b, word * 64 + b < totalSlots →
            (place ^^^ (place &&& 2 ^ bit)).testBit b = place.testBit b := by
          intro b hb
          have hne : b ≠ bit := fun heq => hslot (heq ▸ hb)
          rw [testBit_cleared, decide_eq_true hne, Bool.and_true]
        refine ⟨fun b hb hlt => ?_, fun b hlt => (hsame b hlt).trans (hother b hlt)⟩
        rcases mem_cons.mp hb with rfl | hb
        · exact absurd hlt hslot
        · rw [← hother b hlt]
          exact hnone b hb hlt
    · rw [if_neg hset] at h ⊢
      obtain ⟨hnone, hsame⟩ := ih h
      refine ⟨fun b hb hlt => ?_, hsame⟩
      rcases mem_cons.mp hb with rfl | hb
      · exact Bool.not_eq_true _ ▸ hset
      · exact hnone b hb hlt

theorem takeBits_some {word : Nat} {bits : List Nat} {place : Nat}
    (h : (takeBits totalSlots word bits place).1 = some index) :
    ∃ bit ∈ bits, index = word * 64 + bit ∧ index < totalSlots ∧ place.testBit bit = true ∧
      ∀ b, word * 64 + b < totalSlots →
        (takeBits totalSlots word bits place).2.testBit b =
          (place.testBit b && decide (b ≠ bit)) := by
  induction bits generalizing place with
  | nil => cases h
  | cons bit rest ih =>
    rw [takeBits] at h ⊢
    by_cases hset : place.testBit bit = true
    · rw [if_pos hset] at h ⊢
      by_cases hslot : word * 64 + bit < totalSlots
      · rw [if_pos hslot] at h ⊢
        obtain rfl := Option.some.inj h
        exact ⟨bit, mem_cons_self, rfl, hslot, hset, fun b _ => testBit_cleared ..⟩
      · rw [if_neg hslot] at h ⊢
        obtain ⟨found, hmem, hindex, hlt, hfound, hrest⟩ := ih h
        have hother : ∀ b, word * 64 + b < totalSlots →
            (place ^^^ (place &&& 2 ^ bit)).testBit b = place.testBit b := by
          intro b hb
          have hne : b ≠ bit := fun heq => hslot (heq ▸ hb)
          rw [testBit_cleared, decide_eq_true hne, Bool.and_true]
        refine ⟨found, mem_cons_of_mem _ hmem, hindex, hlt, ?_, fun b hb => ?_⟩
        · rw [← hother found (hindex ▸ hlt)]
          exact hfound
        · rw [hrest b hb, hother b hb]
    · rw [if_neg hset] at h ⊢
      obtain ⟨found, hmem, hrest⟩ := ih h
      exact ⟨found, mem_cons_of_mem _ hmem, hrest⟩

theorem bitOf_update (words : Nat → Nat) (word place i : Nat) :
    bitOf (update words word place) i =
      if i / 64 = word then place.testBit (i % 64) else bitOf words i := by
  rw [bitOf]
  split
  next heq => rw [heq, update_self]
  next hne => rw [update_of_ne hne, bitOf]

theorem takeWords_none {list : List Nat} (h : (takeWords totalSlots list words).1 = none) :
    (∀ i < totalSlots, i / 64 ∈ list → bitOf words i = false) ∧
      ∀ i < totalSlots, bitOf (takeWords totalSlots list words).2 i = bitOf words i := by
  induction list generalizing words with
  | nil => exact ⟨fun i _ hi => absurd hi not_mem_nil, fun i _ => rfl⟩
  | cons word rest ih =>
    rw [takeWords] at h ⊢
    cases hword : (takeBits totalSlots word (range 64) (words word)).1 with
    | some index =>
      simp only [hword] at h
      cases h
    | none =>
      simp only [hword] at h ⊢
      obtain ⟨hbits, hplace⟩ := takeBits_none hword
      obtain ⟨hnone, hsame⟩ := ih h
      have hother : ∀ i < totalSlots, bitOf (update words word
          (takeBits totalSlots word (range 64) (words word)).2) i = bitOf words i := by
        intro i hi
        rw [bitOf_update]
        split
        next heq =>
          rw [hplace _ (by omega), bitOf, heq]
        next => rfl
      refine ⟨fun i hi hmem => ?_, fun i hi => (hsame i hi).trans (hother i hi)⟩
      rcases mem_cons.mp hmem with heq | hmem
      · rw [bitOf, heq]
        exact hbits _ (mem_range.mpr (Nat.mod_lt _ (by decide))) (by omega)
      · rw [← hother i hi]
        exact hnone i hi hmem

theorem takeWords_some {list : List Nat} (h : (takeWords totalSlots list words).1 = some index) :
    Took totalSlots (bitOf words) (bitOf (takeWords totalSlots list words).2) (some index) := by
  induction list generalizing words with
  | nil => cases h
  | cons word rest ih =>
    rw [takeWords] at h ⊢
    cases hword : (takeBits totalSlots word (range 64) (words word)).1 with
    | some found =>
      simp only [hword] at h ⊢
      obtain rfl := Option.some.inj h
      obtain ⟨bit, hmem, hindex, hlt, hset, hrest⟩ := takeBits_some hword
      have hbit := mem_range.mp hmem
      refine ⟨hlt, ?_, fun i hi => ?_⟩
      · have hdiv : found / 64 = word := by omega
        have hmod : found % 64 = bit := by omega
        rw [bitOf, hdiv, hmod]
        exact hset
      · rw [bitOf_update]
        split
        next heq =>
          rw [hrest _ (by omega), bitOf, heq]
          congr 1
          exact decide_eq_decide.mpr (by omega)
        next hne =>
          have hother : i ≠ found := by omega
          rw [decide_eq_true hother, Bool.and_true]
    | none =>
      simp only [hword] at h ⊢
      obtain ⟨-, hplace⟩ := takeBits_none hword
      have hother : ∀ i < totalSlots, bitOf (update words word
          (takeBits totalSlots word (range 64) (words word)).2) i = bitOf words i := by
        intro i hi
        rw [bitOf_update]
        split
        next heq =>
          rw [hplace _ (by omega), bitOf, heq]
        next => rfl
      obtain ⟨hlt, hset, hrest⟩ := ih h
      refine ⟨hlt, hother _ hlt ▸ hset, fun i hi => ?_⟩
      rw [hrest i hi, hother i hi]

theorem took_takeWords (g : Geometry) (words : Nat → Nat) :
    Took g.totalSlots (bitOf words)
      (bitOf (takeWords g.totalSlots (range (bitmapWords g)) words).2)
      (takeWords g.totalSlots (range (bitmapWords g)) words).1 := by
  cases h : (takeWords g.totalSlots (range (bitmapWords g)) words).1 with
  | some index => exact takeWords_some h
  | none =>
    obtain ⟨hnone, hsame⟩ := takeWords_none h
    intro i hi
    have hword : i / 64 ∈ range (bitmapWords g) := by
      rw [mem_range, bitmapWords]
      omega
    exact ⟨hnone i hi hword, (hsame i hi).trans (hnone i hi hword)⟩

theorem slotIs_iff {generation : Nat} : slotIs mem index generation = true ↔
    mem (.state index) = slotLive ∧ mem (.generation index) = generation := by
  rw [slotIs, run_isGeneration]
  exact decide_eq_true_iff

theorem ticketFor_eq : ticketFor g mem index =
    if mem (.state index) = slotLive then some (ticketAt g mem index) else none := by
  unfold ticketFor
  by_cases hlive : mem (.state index) = slotLive
  · rw [slotIs_iff.mpr ⟨hlive, rfl⟩, if_pos hlive]
    rfl
  · have hnot : slotIs mem index (mem (.generation index)) = false :=
      Bool.eq_false_iff.mpr fun h => hlive (slotIs_iff.mp h).1
    rw [hnot, if_neg hlive]
    rfl

/-- The ticket that is taken is that of a live slot whose bit was set and no longer is. -/
structure Takes (g : Geometry) (mem : Mem Addr) (words words' : Nat → Nat) (taken : Option Ticket) :
    Prop where
  clears : ∀ i < g.totalSlots, bitOf words' i = true → bitOf words i = true
  ticket : ∀ ticket, taken = some ticket → ∃ i < g.totalSlots, bitOf words i = true ∧
    bitOf words' i = false ∧ mem (.state i) = slotLive ∧ ticket = ticketAt g mem i

theorem takeOffer_takes (g : Geometry) (mem : Mem Addr) (turns : Nat) (words : Nat → Nat) :
    Takes g mem words (takeOffer g mem turns words).2 (takeOffer g mem turns words).1 := by
  induction turns generalizing words with
  | zero => exact ⟨fun i _ h => h, fun ticket h => (by cases h)⟩
  | succ turns ih =>
    have htook := took_takeWords g words
    rw [takeOffer]
    generalize takeWords g.totalSlots (range (bitmapWords g)) words = found at htook ⊢
    cases hfound : found.1 with
    | none =>
      rw [hfound] at htook
      simp only
      refine ⟨fun i hi h => ?_, fun ticket h => (by cases h)⟩
      rw [(htook i hi).2] at h
      cases h
    | some index =>
      rw [hfound] at htook
      obtain ⟨hlt, hset, hrest⟩ := htook
      have hclears : ∀ i < g.totalSlots, bitOf found.2 i = true → bitOf words i = true := by
        intro i hi h
        rw [hrest i hi] at h
        exact (Bool.and_eq_true_iff.mp h).1
      simp only [ticketFor_eq]
      by_cases hlive : mem (.state index) = slotLive
      · rw [if_pos hlive]
        refine ⟨hclears, fun ticket h => ⟨index, hlt, hset, ?_, hlive, ?_⟩⟩
        · rw [hrest index hlt]
          simp
        · exact (Option.some.inj h).symm
      · rw [if_neg hlive]
        obtain ⟨hmore, hticket⟩ := ih found.2
        refine ⟨fun i hi h => hclears i hi (hmore i hi h), fun ticket h => ?_⟩
        obtain ⟨i, hi, hbit, hgone, hstate, heq⟩ := hticket ticket h
        exact ⟨i, hi, hclears i hi hbit, hgone, hstate, heq⟩

end OrbitStream.Offers
