import Orbit.Stream.Offers
import Orbit.Stream.Rings
import Orbit.Stream.Exclusive

/-! What an operation does to the words that a ticket is made from, and from it that every ticket
taken is one that was offered. -/

namespace OrbitStream.Offers

open Orbit.Atomic Function

variable {g : Geometry} {mem mem' : Mem Addr}

/-- The words that the ticket of a slot is made from. -/
def Named : Addr → Prop
  | .generation _ | .epoch => True
  | _ => False

def SameNames (mem mem' : Mem Addr) : Prop := ∀ a, Named a → mem' a = mem a

theorem SameNames.of_within {α : Type} {p : StreamM α} (h : p.Within fun a => ¬Named a)
    (mem : Mem Addr) : SameNames mem (p.run mem).2 := fun _ ha => h.run_eq mem fun hn => hn ha

theorem SameNames.ticketAt (h : SameNames mem mem') (index : Nat) :
    ticketAt g mem' index = ticketAt g mem index := by
  rw [Offers.ticketAt, Offers.ticketAt, h (.generation index) trivial, h .epoch trivial]

theorem names_setFlag (handle : Handle) (direction : Side) (flag : Nat) :
    (handle.setFlag direction flag).Within fun a => ¬Named a := by
  refine .bind (within_isGeneration _ _) fun is => ?_
  split
  · refine .bind (within_fetchOr id _) fun before => ?_
    split
    · split
      · exact .ret _
      split
      · exact .ret _
      · exact within_writerMayPark _ _ _
    · exact .ret _
  · exact .ret _

theorem names_drop (handle : Handle) : handle.drop.Within fun a => ¬Named a := by
  refine (within_drop handle).mono fun a ha => ?_
  rcases ha with rfl | rfl <;> exact id

theorem names_clear (slot : Nat) (direction : Side) :
    (clear slot direction).Within fun a => ¬Named a :=
  .bind (within_store id _) fun _ => .bind (within_store id _) fun _ =>
    .bind (within_store id _) fun _ => within_store id _

theorem names_open (s : Streams g) (ticket : Ticket) :
    (s.open ticket).Within fun a => ¬Named a := by
  unfold Streams.open
  split
  · exact .ret _
  refine .bind (within_load _) fun epoch => ?_
  split
  · exact .ret _
  refine .bind (within_isGeneration _ _) fun is => ?_
  split
  · exact .ret _
  refine .bind (within_compareExchange id _ _) fun claimed => ?_
  split
  · exact .ret _
  refine .bind (within_isGeneration _ _) fun still => ?_
  split
  · exact .bind (within_compareExchange id _ _) fun _ => .ret _
  · refine .bind (within_store id _) fun _ => .bind (within_store id _) fun _ => ?_
    exact .bind (within_mark _) fun _ => .ret _

theorem names_rearm (s : Streams g) (id : StreamId) : (s.rearm id).Within fun a => ¬Named a := by
  unfold Streams.rearm
  split
  · exact .ret _
  refine .bind (within_isGeneration _ _) fun is => ?_
  split
  · exact .ret _
  refine .bind (within_load _) fun far => ?_
  split
  · exact .ret _
  split
  · exact .ret _
  refine .bind (names_clear _ _) fun _ => .bind (names_clear _ _) fun _ => ?_
  refine .bind (within_store (fun h => h) _) fun _ => ?_
  refine .bind (within_store (fun h => h) _) fun _ => ?_
  refine .bind (within_compareExchange (fun h => h) _ _) fun freed => ?_
  split
  · exact .ret _
  · exact .ret _

theorem names_endSides (node : Nat) (dead : Nat → Bool) (slots : List Nat) :
    (endSides node dead slots).Within fun a => ¬Named a := by
  refine (within_endSides slots).mono fun a ha hnamed => ?_
  obtain ⟨i, -, hi⟩ := ha
  cases a <;> first | exact hnamed | cases hi

theorem names_dropRead (e : Endpoint) : e.dropRead.Within fun a => ¬Named a := by
  refine .bind (.bind (names_setFlag _ _ _) fun _ => .ret _) fun _ => ?_
  split
  · exact names_drop _
  · exact .ret _

theorem names_dropWrite (e : Endpoint) : e.dropWrite.Within fun a => ¬Named a := by
  have hreset : e.reset.Within fun a => ¬Named a :=
    .bind (names_setFlag _ _ _) fun _ => .ret _
  obtain ⟨handle, reading, writing, shut⟩ := e
  cases shut with
  | false =>
    cases reading with
    | false => exact .bind hreset fun _ => names_drop handle
    | true => exact .bind hreset fun _ => .ret _
  | true =>
    cases reading with
    | false => exact names_drop handle
    | true => exact .ret _

theorem epoch_clear (slot : Nat) (direction : Side) :
    (clear slot direction).Within fun a => a ≠ .epoch :=
  .bind (within_store (by simp) _) fun _ => .bind (within_store (by simp) _) fun _ =>
    .bind (within_store (by simp) _) fun _ => within_store (by simp) _

theorem epoch_install (slot creator incarnation : Nat) :
    (install slot creator incarnation).Within fun a => a ≠ .epoch := by
  refine .bind (within_load _) fun generation => ?_
  split
  · exact .bind (within_store (by simp) _) fun _ => .ret _
  refine .bind (within_store (by simp) _) fun _ => .bind (within_store (by simp) _) fun _ => ?_
  refine .bind (within_store (by simp) _) fun _ => .bind (within_store (by simp) _) fun _ => ?_
  refine .bind (within_store (by simp) _) fun _ => .bind (within_store (by simp) _) fun _ => ?_
  refine .bind (epoch_clear _ _) fun _ => .bind (epoch_clear _ _) fun _ => ?_
  refine .bind (within_store (by simp) _) fun _ => .bind (within_store (by simp) _) fun _ => ?_
  exact .ret _

theorem epoch_allocateFrom (s : Streams g) (hint : Nat) (offsets : List Nat) :
    (allocateFrom s hint offsets).Within fun a => a ≠ .epoch := by
  induction offsets with
  | nil => exact .ret _
  | cons offset rest ih =>
    refine .bind (within_load _) fun state => ?_
    split
    · refine .bind (epoch_install _ _ _) fun installed => ?_
      split
      · exact .bind (within_store (by simp) _) fun _ => .ret _
      · exact ih
    · exact ih

theorem epoch_create (s : Streams g) : s.create.Within fun a => a ≠ .epoch := by
  have hallocate : s.allocate.Within fun a => a ≠ .epoch := by
    refine .bind (within_acquire (by simp)) fun _ => .bind (within_load _) fun hint => ?_
    refine .bind (epoch_allocateFrom _ _ _) fun taken => ?_
    exact .bind (within_release (by simp)) fun _ => .ret _
  refine .bind hallocate fun taken => ?_
  split
  · exact .ret _
  · exact .bind (within_mark _) fun _ => .bind (within_load _) fun _ => .ret _

theorem create_ticketAt (s : Streams g) (mem : Mem Addr) (index : Nat)
    (h : ∀ handle ticket, (s.create.run mem).1 = .ok (handle, ticket) → handle.index ≠ index) :
    ticketAt g (s.create.run mem).2 index = ticketAt g mem index := by
  have hepoch : (s.create.run mem).2 .epoch = mem .epoch :=
    (epoch_create s).run_eq mem fun hne => hne rfl
  have hspent : ∀ m1, Spent mem m1 → m1 (.generation index) = mem (.generation index) := by
    intro m1 hspent
    rcases hspent (.generation index) trivial with heq | ⟨i, hi, -⟩
    · exact heq
    · cases hi
  have hgeneration : (s.create.run mem).2 (.generation index) = mem (.generation index) := by
    rcases run_create s mem with ⟨-, hfailed⟩ | ⟨i, m1, ticket, hok, hbefore, hinstalled⟩
    · exact hspent _ hfailed
    · have hne := h _ _ hok
      rw [hinstalled.others (.generation index) trivial fun heq => hne (Option.some.inj heq).symm]
      exact hspent _ hbefore
  rw [ticketAt, ticketAt, hepoch, hgeneration]

theorem sameNames_at {w : OrbitStream.World} {n : Nat} {needs : Endpoint → Bool}
    {act : Endpoint → OrbitStream.World} (h : ∀ e, SameNames w.mem (act e).mem) :
    SameNames w.mem (w.at n needs act).mem := by
  unfold World.at
  split
  · split
    · exact h _
    · exact fun _ _ => rfl
  · exact fun _ _ => rfl

theorem exec_sameNames (w : OrbitStream.World) (op : OrbitStream.Op g) (h : ∀ s, op ≠ .create s) :
    SameNames w.mem (OrbitStream.exec w op).mem := by
  cases op with
  | create s => exact absurd rfl (h s)
  | openTicket s ticket =>
    have hopen := SameNames.of_within (names_open s ticket) w.mem
    rw [OrbitStream.exec]
    split <;> exact hopen
  | finish n =>
    exact sameNames_at fun e => .of_within (.bind (names_setFlag _ _ _) fun _ => .ret _) _
  | reset n =>
    exact sameNames_at fun e => .of_within (.bind (names_setFlag _ _ _) fun _ => .ret _) _
  | stopReading n =>
    exact sameNames_at fun e => .of_within (.bind (names_setFlag _ _ _) fun _ => .ret _) _
  | dropRead n => exact sameNames_at fun e => .of_within (names_dropRead e) _
  | dropWrite n => exact sameNames_at fun e => .of_within (names_dropWrite e) _
  | drop n =>
    exact sameNames_at fun e =>
      .of_within (.bind (names_dropRead e) fun _ => names_dropWrite _) _
  | rearm s id => exact .of_within (names_rearm s id) _
  | rearmEndpoint s n =>
    refine sameNames_at fun e => ?_
    have hrearm : SameNames w.mem ((e.rearm s).run w.mem).2 := by
      refine .of_within ?_ _
      unfold Endpoint.rearm
      split
      · exact .ret _
      · exact names_rearm _ _
    dsimp only
    split <;> exact hrearm
  | nodeDead node incarnation => exact .of_within (names_endSides _ _ _) _
  | supersede s => exact .of_within (names_endSides _ _ _) _

variable {w : World}

/-- A node has taken no ticket more often than it was offered, and the ticket of a slot in its
bitmap less often. -/
structure Owed (g : Geometry) (w : World) : Prop where
  taken : ∀ p, w.taken.count p ≤ w.offered.count p
  due : ∀ node, ∀ i < g.totalSlots, w.bit node i = true →
    w.taken.count (node, ticketAt g w.base.mem i) < w.offered.count (node, ticketAt g w.base.mem i)

theorem Owed.init : Owed g .init where
  taken _ := Nat.le_refl _
  due node i _ h := by
    rw [World.bit, World.init, Nat.zero_testBit] at h
    cases h

theorem Owed.base (h : Owed g w) {op : OrbitStream.Op g} (hclear : Clear w (.base op)) :
    Owed g { w with base := OrbitStream.exec w.base op } where
  taken := h.taken
  due node i hi hbit := by
    have hsame : ticketAt g (OrbitStream.exec w.base op).mem i = ticketAt g w.base.mem i := by
      by_cases hop : ∀ s, op ≠ .create s
      · exact (exec_sameNames w.base op hop).ticketAt i
      · obtain ⟨s, hs⟩ := not_forall.mp hop
        obtain rfl := not_not.mp hs
        have hcreate : (OrbitStream.exec w.base (.create s)).mem = (s.create.run w.base.mem).2 := by
          rw [OrbitStream.exec]
          split <;> rfl
        rw [hcreate]
        refine create_ticketAt s w.base.mem i fun handle ticket hok heq => ?_
        have hnot := hclear handle ticket hok node
        rw [heq, show w.bit node i = true from hbit] at hnot
        cases hnot
    change w.taken.count _ < w.offered.count _
    rw [hsame]
    exact h.due node i hi hbit

theorem locate_slot {s : Streams g} {id : StreamId} {index : Nat} (h : s.locate id = .ok index) :
    index < g.totalSlots ∧ id = ⟨g.spec.kind, index / g.laneCapacity, index % g.laneCapacity,
      id.generation⟩ := by
  unfold Streams.locate locateIn at h
  split at h
  · cases h
  next hin =>
    simp only [not_or, ge_iff_le, Nat.not_le, gt_iff_lt, not_not] at hin
    obtain ⟨hkind, hnode, hslot, -⟩ := hin
    obtain rfl := Except.ok.inj h
    refine ⟨?_, ?_⟩
    · calc id.node * g.laneCapacity + id.slot < (id.node + 1) * g.laneCapacity := by
            rw [Nat.succ_mul]
            exact Nat.add_lt_add_left hslot _
        _ ≤ g.totalSlots := Nat.mul_le_mul_right _ hnode
    · obtain ⟨kind, node, slot, generation⟩ := id
      rw [Nat.mul_comm, Nat.mul_add_div g.lane_pos, Nat.div_eq_of_lt hslot, Nat.mul_add_mod,
        Nat.mod_eq_of_lt hslot, ← hkind]
      rfl

theorem World.offer_cases (w : World) (s : Streams g) (ticket : Ticket) (target : Nat) :
    (w.offer s ticket target).2 = w ∨
      (w.offer s ticket target).1 = .ok () ∧ ∃ index < g.totalSlots,
        (ticket.side = .b → ticket = ticketAt g w.base.mem index) ∧
        (w.offer s ticket target).2.base = w.base ∧
        (w.offer s ticket target).2.taken = w.taken ∧
        (w.offer s ticket target).2.offered = (target, ticket) :: w.offered ∧
        ∀ node i, (w.offer s ticket target).2.bit node i =
          (w.bit node i || decide (node = target ∧ i = index)) := by
  generalize hr : w.offer s ticket target = r
  unfold World.offer at hr
  cases hlocate : s.locate ticket.id with
  | error e =>
    rw [hlocate] at hr
    subst hr
    exact .inl rfl
  | ok index =>
    simp only [hlocate] at hr
    by_cases hstale : ticket.epoch ≠ w.base.mem .epoch ∨
        (!slotIs w.base.mem index ticket.id.generation) = true
    · rw [if_pos hstale] at hr
      subst hr
      exact .inl rfl
    by_cases hout : target ≥ g.fleetCapacity
    · rw [if_neg hstale, if_pos hout] at hr
      subst hr
      exact .inl rfl
    rw [if_neg hstale, if_neg hout] at hr
    subst hr
    obtain ⟨hin, hid⟩ := locate_slot hlocate
    simp only [not_or, not_not, Bool.not_eq_true', Bool.not_eq_false] at hstale
    obtain ⟨hepoch, his⟩ := hstale
    refine .inr ⟨rfl, index, hin, fun hside => ?_, rfl, rfl, rfl, fun node i => ?_⟩
    · rw [ticketAt, (slotIs_iff.mp his).2, ← hid, ← hepoch, ← hside]
    · rw [World.bit, World.bit]
      dsimp only
      by_cases hnode : node = target
      · subst hnode
        rw [update_self]
        by_cases hword : i / 64 = index / 64
        · rw [hword, update_self, testBit_set]
          congr 1
          exact decide_eq_decide.mpr ⟨fun h => ⟨rfl, by omega⟩, fun h => by rw [h.2]⟩
        · rw [update_of_ne hword, decide_eq_false fun h => hword (by rw [h.2]),
            Bool.or_false]
      · rw [update_of_ne hnode, decide_eq_false fun h => hnode h.1, Bool.or_false]

theorem Owed.offer (h : Owed g w) {s : Streams g} {ticket : Ticket} {target : Nat}
    (hclear : Clear w (.offer s ticket target)) : Owed g (w.offer s ticket target).2 := by
  rcases w.offer_cases s ticket target with hsame | ⟨hok, index, hin, hticket, hbase, htaken,
    hoffered, hbits⟩
  · rw [hsame]
    exact h
  have hticket := hticket (hclear hok)
  generalize (w.offer s ticket target).2 = w' at hbase htaken hoffered hbits
  refine ⟨fun p => ?_, fun node i hi hbit => ?_⟩
  · rw [htaken, hoffered]
    exact (h.taken p).trans List.count_le_count_cons
  · rw [htaken, hoffered, hbase]
    rw [hbits] at hbit
    rcases Bool.or_eq_true_iff.mp hbit with hbit | hnew
    · exact Nat.lt_of_lt_of_le (h.due node i hi hbit) List.count_le_count_cons
    · obtain ⟨rfl, rfl⟩ := of_decide_eq_true hnew
      rw [← hticket, List.count_cons_self]
      exact Nat.lt_succ_of_le (h.taken _)

theorem ticketAt_inj {i j : Nat} (h : ticketAt g mem i = ticketAt g mem j) : i = j := by
  have hid := congrArg Ticket.id h
  have hnode : i / g.laneCapacity = j / g.laneCapacity := congrArg StreamId.node hid
  have hslot : i % g.laneCapacity = j % g.laneCapacity := congrArg StreamId.slot hid
  rw [← Nat.div_add_mod i g.laneCapacity, hnode, hslot, Nat.div_add_mod]

theorem World.takeOffer_takes (w : World) (s : Streams g) :
    Takes g w.base.mem (w.offers s.node) ((w.takeOffer s).2.offers s.node) (w.takeOffer s).1 := by
  have htakes := Offers.takeOffer_takes g w.base.mem (g.totalSlots + 1) (w.offers s.node)
  change Takes g w.base.mem _ (update w.offers s.node _ s.node) _
  rw [update_self]
  exact htakes

theorem Owed.takeOffer (h : Owed g w) (s : Streams g) : Owed g (w.takeOffer s).2 := by
  obtain ⟨hclears, hticket⟩ := w.takeOffer_takes s
  have hothers : ∀ node : Nat, node ≠ s.node → (w.takeOffer s).2.offers node = w.offers node :=
    fun node hne => update_of_ne hne _ _
  have hbits : ∀ node, ∀ i < g.totalSlots, (w.takeOffer s).2.bit node i = true →
      w.bit node i = true := by
    intro node i hi hbit
    by_cases hnode : node = s.node
    · subst hnode
      exact hclears i hi hbit
    · rw [World.bit, hothers node hnode] at hbit
      exact hbit
  have htaken : (w.takeOffer s).2.taken =
      ((w.takeOffer s).1.map fun ticket => ((s.node : Nat), ticket)).toList ++ w.taken := rfl
  have hoffered : (w.takeOffer s).2.offered = w.offered := rfl
  have hbase : (w.takeOffer s).2.base = w.base := rfl
  cases hfound : (w.takeOffer s).1 with
  | none =>
    rw [hfound] at htaken
    refine ⟨fun p => ?_, fun node i hi hbit => ?_⟩
    · rw [htaken, hoffered]
      exact h.taken p
    · rw [htaken, hoffered, hbase]
      exact h.due node i hi (hbits node i hi hbit)
  | some ticket =>
    obtain ⟨index, hin, hset, hgone, -, heq⟩ := hticket ticket hfound
    have hdue := h.due s.node index hin hset
    rw [← heq] at hdue
    rw [hfound] at htaken
    have hcount : ∀ p, (w.takeOffer s).2.taken.count p =
        w.taken.count p + if p = ((s.node : Nat), ticket) then 1 else 0 := by
      intro p
      rw [htaken]
      change ((_, ticket) :: w.taken).count p = _
      rw [List.count_cons]
      congr 1
      exact if_congr (by rw [beq_iff_eq, eq_comm]) rfl rfl
    refine ⟨fun p => ?_, fun node i hi hbit => ?_⟩
    · rw [hcount, hoffered]
      split
      next hp => exact hp ▸ hdue
      next => exact h.taken p
    · rw [hcount, hoffered, hbase]
      split
      next hp =>
        -- the ticket is that of one slot, whose bit is gone
        obtain ⟨rfl, hsame⟩ := Prod.mk.inj hp
        obtain rfl := ticketAt_inj (hsame.trans heq)
        rw [World.bit] at hbit
        rw [bitOf, hbit] at hgone
        cases hgone
      next => exact h.due node i hi (hbits node i hi hbit)

theorem Owed.exec (h : Owed g w) (op : Op g) (hclear : Clear w op) : Owed g (Offers.exec w op) := by
  cases op with
  | base op => exact h.base hclear
  | offer s ticket target => exact h.offer hclear
  | takeOffer s => exact h.takeOffer s

/-- The ticket names a stream that is live. -/
def Ticket.Live (g : Geometry) (mem : Mem Addr) (ticket : Ticket) : Prop :=
  ticket.epoch = mem .epoch ∧ ∃ index < g.totalSlots,
    ticket.id = ⟨g.spec.kind, index / g.laneCapacity, index % g.laneCapacity,
      mem (.generation index)⟩ ∧ mem (.state index) = slotLive

/-- Where no slot is reused with an offer of it still in a bitmap, every node is given a ticket at
most as often as it was offered to it; a ticket that it is given has an offer of its own and names a
live stream. -/
theorem offers_delivered (ops : List (Op g)) (h : Meets exec Clear .init ops) :
    (∀ node ticket, (run ops).taken.count (node, ticket) ≤ (run ops).offered.count (node, ticket)) ∧
      ∀ (s : Streams g) (ticket : Ticket), ((run ops).takeOffer s).1 = some ticket →
        (run ops).taken.count (↑s.node, ticket) < (run ops).offered.count (↑s.node, ticket) ∧
          Ticket.Live g (run ops).base.mem ticket := by
  have howed : Owed g (run ops) := h.holds (fun w op hw hop => hw.exec op hop) .init
  refine ⟨fun node ticket => howed.taken _, fun s ticket hfound => ?_⟩
  obtain ⟨index, hin, hset, -, hlive, rfl⟩ := ((run ops).takeOffer_takes s).ticket ticket hfound
  exact ⟨howed.due s.node index hin hset, rfl, index, hin, rfl, hlive⟩

def ticketOf (generation : Nat) : Ticket := ⟨⟨1, 0, 0, generation⟩, .b, 0⟩

def handedOver : List (Op oneSlot) :=
  [.base (.create (processOf 1)), .offer (processOf 1) (ticketOf 1) 0]

theorem handedOver_clear : Meets exec Clear .init handedOver :=
  ⟨fun _ _ _ _ => Nat.zero_testBit _, fun _ => rfl, trivial⟩

theorem handedOver_found : ((run handedOver).takeOffer (processOf 1)).1 = some (ticketOf 1) := by
  decide

theorem offers_delivered_once :
    (run handedOver).taken.count (0, ticketOf 1) < (run handedOver).offered.count (0, ticketOf 1) :=
  ((offers_delivered handedOver handedOver_clear).2 (processOf 1) (ticketOf 1) handedOver_found).1

/-- The stream that was offered ends, another takes its slot, and the node is given that one. -/
def reused : List (Op oneSlot) :=
  handedOver ++ [.base (.drop 0), .base (.create (processOf 1)), .takeOffer (processOf 1)]

theorem reused_given_unoffered : (run reused).taken = [(0, ticketOf 2)] ∧
    (run reused).offered = [(0, ticketOf 1)] := by decide

end OrbitStream.Offers
