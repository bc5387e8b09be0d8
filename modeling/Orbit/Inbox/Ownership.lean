import Orbit.Inbox.Lanes
import Mathlib.Algebra.Order.Group.Multiset
import Mathlib.Algebra.Group.Pi.Basic
import Mathlib.Algebra.Group.Prod

/-! What holds of one lane while any number of calls join and leave: who may write its words, what
its words spell, and what the scans of other calls know of it. -/

namespace OrbitInbox

open Orbit.Atomic
open Multiset hiding Mem

/-- The words of a lane that decide who holds it and what it advertises. -/
structure LaneWords where
  hold : Nat
  consumers : Nat
  serviceLen : Nat
  roleLen : Nat
  service : Nat → Nat
  role : Nat → Nat

def laneWords (mem : Mem Addr) (lane : Nat) : LaneWords where
  hold := mem (.hold lane)
  consumers := mem (.consumers lane)
  serviceLen := mem (.serviceLen lane)
  roleLen := mem (.roleLen lane)
  service index := mem (.service lane index)
  role index := mem (.role lane index)

/-- The words spell this identity, whatever their lengths say. -/
structure Identity.Spelled (id : Identity) (w : LaneWords) : Prop where
  service : ∀ i (hi : i < id.service.length), w.service i = (id.service[i]).toNat
  role : ∀ i (hi : i < id.role.length), w.role i = (id.role[i]).toNat
  fits : checkIdentity id.service id.role = .ok ()

/-- What the calls hold of a lane. `own` is the right to write its words and its log, with their
values. The others are what scans know of it: `saw`, of an identity advertised before a stamp;
`look` and `ask`, of a lane that does not change hands meanwhile. -/
abbrev ScanShare := Multiset (Nat × (Identity → Prop)) × Multiset Identity × Multiset Identity

abbrev LaneShare := Multiset (LaneWords × LaneLog) × ScanShare

def own (w : LaneWords) (log : LaneLog) : LaneShare := ({(w, log)}, 0, 0, 0)
def saw (stamp : Nat) (fact : Identity → Prop) : LaneShare := (0, {(stamp, fact)}, 0, 0)
def look (id : Identity) : LaneShare := (0, 0, {id}, 0)
def ask (id : Identity) : LaneShare := (0, 0, 0, {id})

/-- Who may write the lane. -/
structure Held (owns : Multiset (LaneWords × LaneLog)) (w : LaneWords) (log : LaneLog) : Prop where
  card : owns.card + (if log.joined then 1 else 0) = w.hold
  le : w.hold ≤ 1
  own : ∀ o ∈ owns, o = (w, log)
  joined : log.joined = true → log.advert.isSome = true
  idle : owns = 0 → log.joined = false → w.serviceLen = 0

/-- What the words and the log of a lane satisfy by themselves. -/
structure Written (w : LaneWords) (log : LaneLog) (published : Nat) : Prop where
  advert : ∀ stamp, log.advert = some stamp → stamp < published ∧ ∃ id, log.last = some id ∧
    w.consumers ≠ 0 ∧ w.serviceLen = id.service.length ∧ w.roleLen = id.role.length
  last : ∀ id, log.last = some id → id.Spelled w ∧ (w.consumers ≠ 0 → log.advert.isSome = true)
  named : w.serviceLen ≠ 0 → ∃ id, log.last = some id ∧ w.serviceLen = id.service.length
  free : w.consumers = 0 → log.holders = []
  holders : log.holders.length ≤ 1

/-- What the scans know of a lane. -/
structure Scans (P : Prop) (share : ScanShare) (w : LaneWords) (log : LaneLog)
    (looking asking published : Nat) : Prop where
  saw : ∀ s ∈ share.1, s.1 ≤ published ∧
    ∀ stamp id, log.advert = some stamp → stamp < s.1 → log.last = some id → s.2 id
  looking : share.2.1.card = looking
  look : ∀ id ∈ share.2.1, P → log.last = some id
  asking : share.2.2.card = asking
  ask : ∀ id ∈ share.2.2, P → log.last = some id ∧ w.roleLen = id.role.length

structure LaneOk (P : Prop) (share : LaneShare) (w : LaneWords) (log : LaneLog)
    (looking asking published : Nat) : Prop where
  held : Held share.1 w log
  written : Written w log published
  scans : Scans P share.2 w log looking asking published

def LaneLog.init : LaneLog := ⟨[], none, none, false⟩

section

variable {P : Prop} {share rest : LaneShare} {w w' : LaneWords} {log log' : LaneLog}
  {looking asking published : Nat}

theorem LaneOk.init (P : Prop) (published : Nat) :
    LaneOk P 0 ⟨0, 0, 0, 0, fun _ => 0, fun _ => 0⟩ .init 0 0 published := by
  refine ⟨?_, ?_, ?_⟩ <;> constructor <;> simp [LaneLog.init]

theorem own_add_snd (w : LaneWords) (log : LaneLog) (rest : LaneShare) :
    (own w log + rest).2 = rest.2 := by
  simp [own]

theorem LaneOk.alone (h : LaneOk P (own w' log' + rest) w log looking asking published) :
    w' = w ∧ log' = log ∧ rest.1 = 0 ∧ log.joined = false ∧ w.hold = 1 := by
  have howner := h.held.own (w', log') (by simp [OrbitInbox.own])
  have hcard := h.held.card
  have hle := h.held.le
  have hadd : (own w' log' + rest).1.card = rest.1.card + 1 := by
    simp [OrbitInbox.own]
  rw [hadd] at hcard
  cases hj : log.joined with
  | true =>
    rw [hj] at hcard
    simp only [if_true] at hcard
    omega
  | false =>
    rw [hj] at hcard
    simp only [Bool.false_eq_true, if_false] at hcard
    cases howner
    exact ⟨rfl, rfl, card_eq_zero.mp (by omega), rfl, by omega⟩

theorem LaneOk.owned (hwritten : Written w log published) (hhold : w.hold = 1)
    (hjoined : log.joined = false) (hrest : rest.1 = 0)
    (hscans : Scans P rest.2 w log looking asking published) :
    LaneOk P (own w log + rest) w log looking asking published where
  held := by
    constructor
    · simp [OrbitInbox.own, hrest, hjoined, hhold]
    · omega
    · intro o ho
      simpa [OrbitInbox.own, hrest] using ho
    · intro hj
      rw [hjoined] at hj
      cases hj
    · intro hzero
      simp [OrbitInbox.own, hrest] at hzero
  written := hwritten
  scans := by
    rw [own_add_snd]
    exact hscans

theorem LaneOk.rest_scans (h : LaneOk P (own w' log' + rest) w log looking asking published) :
    Scans P rest.2 w log looking asking published := by
  rw [← own_add_snd w' log' rest]
  exact h.scans

/-- The owner writes words that nobody reads meanwhile: the lane is not advertised, was not
published since it was won, and its name stays empty. -/
theorem LaneOk.write_unnamed (h : LaneOk P (own w log + rest) w log looking asking published)
    (hlast : log.last = none) (hhold : w'.hold = w.hold) (hname : w'.serviceLen = 0)
    (hconsumers : w'.consumers = w.consumers) :
    LaneOk P (own w' log + rest) w' log looking asking published := by
  obtain ⟨-, -, hrest, hjoined, hone⟩ := h.alone
  have hadvert : log.advert = none := by
    cases ha : log.advert with
    | none => rfl
    | some stamp =>
      obtain ⟨-, id, hid, -⟩ := h.written.advert stamp ha
      rw [hlast] at hid
      cases hid
  refine .owned ⟨?_, ?_, ?_, ?_, h.written.holders⟩ (by rw [hhold, hone]) hjoined hrest ?_
  · simp [hadvert]
  · simp [hlast]
  · exact fun hne => absurd hname hne
  · rw [hconsumers]
    exact h.written.free
  · have hs := h.rest_scans
    refine ⟨hs.saw, hs.looking, hs.look, hs.asking, fun id hid hP => ?_⟩
    have := (hs.ask id hid hP).1
    rw [hlast] at this
    cases this

theorem LaneOk.not_advertised (h : LaneOk P share w log looking asking published)
    (hfree : w.consumers = 0) : log.advert = none := by
  cases ha : log.advert with
  | none => rfl
  | some stamp =>
    obtain ⟨-, id, -, hne, -⟩ := h.written.advert stamp ha
    exact absurd hfree hne

theorem LaneOk.won (h : LaneOk P (own w log + rest) w log looking asking published) (thread : Nat)
    (hfree : w.consumers = 0) (hname : w.serviceLen = 0)
    (hlooking : P → looking = 0 ∧ asking = 0) :
    LaneOk P (own { w with consumers := 1 } { log with holders := thread :: log.holders, last := none }
      + rest) { w with consumers := 1 } { log with holders := thread :: log.holders, last := none }
      looking asking published := by
  obtain ⟨-, -, hrest, hjoined, hone⟩ := h.alone
  have hs := h.rest_scans
  have hadvert := h.not_advertised hfree
  have hlooks : P → rest.2.2.1 = 0 ∧ rest.2.2.2 = 0 := fun hP =>
    ⟨card_eq_zero.mp (hs.looking.trans (hlooking hP).1),
      card_eq_zero.mp (hs.asking.trans (hlooking hP).2)⟩
  refine .owned ⟨?_, ?_, ?_, ?_, ?_⟩ hone hjoined hrest ⟨?_, hs.looking, ?_, hs.asking, ?_⟩
  · simp [hadvert]
  · simp
  · exact fun hne => absurd hname hne
  · simp
  · simp [h.written.free hfree]
  · intro s hmem
    exact ⟨(hs.saw s hmem).1, by simp⟩
  · intro id hid hP
    rw [(hlooks hP).1] at hid
    exact absurd hid (notMem_zero id)
  · intro id hid hP
    rw [(hlooks hP).2] at hid
    exact absurd hid (notMem_zero id)

theorem LaneOk.publish (h : LaneOk P (own w log + rest) w log looking asking published)
    {id : Identity} (hspelled : id.Spelled w) (hrole : w.roleLen = id.role.length)
    (hclaimed : w.consumers ≠ 0) (hlast : log.last = none) :
    LaneOk P (own { w with serviceLen := id.service.length }
        { log with last := some id, advert := some published } + rest)
      { w with serviceLen := id.service.length }
      { log with last := some id, advert := some published } looking asking (published + 1) := by
  obtain ⟨-, -, hrest, hjoined, hone⟩ := h.alone
  have hs := h.rest_scans
  have hnone : ∀ id, ¬log.last = some id := by simp [hlast]
  refine .owned ⟨?_, ?_, ?_, ?_, h.written.holders⟩ hone hjoined hrest
    ⟨?_, hs.looking, ?_, hs.asking, ?_⟩
  · intro stamp hstamp
    cases hstamp
    exact ⟨by omega, id, rfl, hclaimed, rfl, hrole⟩
  · intro id' hid'
    cases hid'
    exact ⟨⟨hspelled.service, hspelled.role, hspelled.fits⟩, fun _ => rfl⟩
  · exact fun _ => ⟨id, rfl, rfl⟩
  · exact fun hzero => absurd hzero hclaimed
  · intro s hmem
    obtain ⟨hle, -⟩ := hs.saw s hmem
    refine ⟨by omega, fun stamp id' hstamp hlt _ => ?_⟩
    cases hstamp
    omega
  · exact fun id' hid' hP => absurd (hs.look id' hid' hP) (hnone id')
  · exact fun id' hid' hP => absurd (hs.ask id' hid' hP).1 (hnone id')

theorem LaneOk.withdrawn (h : LaneOk P (own w log + rest) w log looking asking published) :
    LaneOk P (own { w with consumers := 0 } { log with advert := none, holders := [] } + rest)
      { w with consumers := 0 } { log with advert := none, holders := [] } looking asking
      published := by
  obtain ⟨-, -, hrest, hjoined, hone⟩ := h.alone
  have hs := h.rest_scans
  refine .owned ⟨?_, ?_, h.written.named, ?_, ?_⟩ hone hjoined hrest
    ⟨?_, hs.looking, hs.look, hs.asking, hs.ask⟩
  · simp
  · intro id hid
    obtain ⟨hspelled, -⟩ := h.written.last id hid
    exact ⟨⟨hspelled.service, hspelled.role, hspelled.fits⟩, by simp⟩
  · simp
  · simp
  · intro s hmem
    exact ⟨(hs.saw s hmem).1, by simp⟩

theorem LaneOk.unnamed (h : LaneOk P (own w log + rest) w log looking asking published)
    (hfree : w.consumers = 0) :
    LaneOk P (own { w with serviceLen := 0 } log + rest) { w with serviceLen := 0 } log looking asking
      published := by
  obtain ⟨-, -, hrest, hjoined, hone⟩ := h.alone
  have hs := h.rest_scans
  have hadvert := h.not_advertised hfree
  refine .owned ⟨?_, ?_, ?_, h.written.free, h.written.holders⟩ hone hjoined hrest
    ⟨hs.saw, hs.looking, hs.look, hs.asking, hs.ask⟩
  · simp [hadvert]
  · intro id hid
    obtain ⟨hspelled, hopen⟩ := h.written.last id hid
    exact ⟨⟨hspelled.service, hspelled.role, hspelled.fits⟩, hopen⟩
  · exact fun hne => absurd rfl hne

theorem LaneOk.unroled (h : LaneOk P (own w log + rest) w log looking asking published)
    (hfree : w.consumers = 0) (hasking : P → asking = 0) :
    LaneOk P (own { w with roleLen := 0 } log + rest) { w with roleLen := 0 } log looking asking
      published := by
  obtain ⟨-, -, hrest, hjoined, hone⟩ := h.alone
  have hs := h.rest_scans
  have hadvert := h.not_advertised hfree
  refine .owned ⟨?_, ?_, h.written.named, h.written.free, h.written.holders⟩ hone hjoined hrest
    ⟨hs.saw, hs.looking, hs.look, hs.asking, ?_⟩
  · simp [hadvert]
  · intro id hid
    obtain ⟨hspelled, hopen⟩ := h.written.last id hid
    exact ⟨⟨hspelled.service, hspelled.role, hspelled.fits⟩, hopen⟩
  · intro id hid hP
    rw [card_eq_zero.mp (hs.asking.trans (hasking hP))] at hid
    exact absurd hid (notMem_zero id)

theorem LaneOk.taken (h : LaneOk P share w log looking asking published) (hfree : w.hold = 0) :
    w.serviceLen = 0 ∧ LaneOk P (own { w with hold := 1 } log + share) { w with hold := 1 } log
      looking asking published := by
  have hcard := h.held.card
  rw [hfree] at hcard
  have hjoined : log.joined = false := by
    cases hj : log.joined with
    | true =>
      rw [hj] at hcard
      simp at hcard
    | false => rfl
  have hnone : share.1 = 0 := card_eq_zero.mp (by omega)
  refine ⟨h.held.idle hnone hjoined, .owned ⟨h.written.advert, ?_, h.written.named, h.written.free,
    h.written.holders⟩ rfl hjoined hnone ⟨h.scans.saw, h.scans.looking, h.scans.look,
    h.scans.asking, h.scans.ask⟩⟩
  intro id hid
  obtain ⟨hspelled, hopen⟩ := h.written.last id hid
  exact ⟨⟨hspelled.service, hspelled.role, hspelled.fits⟩, hopen⟩

theorem LaneOk.dropped (h : LaneOk P (own w log + rest) w log looking asking published)
    (hname : w.serviceLen = 0) :
    LaneOk P rest { w with hold := 0 } log looking asking published := by
  obtain ⟨-, -, hrest, hjoined, hone⟩ := h.alone
  have hs := h.rest_scans
  refine ⟨⟨?_, ?_, ?_, ?_, fun _ _ => hname⟩, ⟨h.written.advert, ?_, h.written.named,
    h.written.free, h.written.holders⟩, ⟨hs.saw, hs.looking, hs.look, hs.asking, hs.ask⟩⟩
  · simp [hrest, hjoined]
  · simp
  · simp [hrest]
  · simp [hjoined]
  · intro id hid
    obtain ⟨hspelled, hopen⟩ := h.written.last id hid
    exact ⟨⟨hspelled.service, hspelled.role, hspelled.fits⟩, hopen⟩

theorem LaneOk.joined (h : LaneOk P (own w log + rest) w log looking asking published)
    (hadvert : log.advert.isSome = true) :
    LaneOk P rest w { log with joined := true } looking asking published := by
  obtain ⟨-, -, hrest, hjoined, hone⟩ := h.alone
  have hs := h.rest_scans
  refine ⟨⟨?_, h.held.le, ?_, fun _ => hadvert, by simp⟩, ⟨h.written.advert, h.written.last,
    h.written.named, h.written.free, h.written.holders⟩,
    ⟨hs.saw, hs.looking, hs.look, hs.asking, hs.ask⟩⟩
  · simp [hrest, hone]
  · simp [hrest]

theorem LaneOk.released (h : LaneOk P share w log looking asking published)
    (hjoined : log.joined = true) :
    LaneOk P (own w { log with joined := false } + share) w { log with joined := false } looking
      asking published := by
  have hcard := h.held.card
  have hle := h.held.le
  rw [hjoined] at hcard
  simp only [if_true] at hcard
  exact .owned ⟨h.written.advert, h.written.last, h.written.named, h.written.free,
    h.written.holders⟩ (by omega) rfl (card_eq_zero.mp (by omega)) ⟨h.scans.saw,
    h.scans.looking, h.scans.look, h.scans.asking, h.scans.ask⟩

theorem LaneOk.sees (h : LaneOk P share w log looking asking published) {stamp : Nat}
    (hstamp : stamp ≤ published) {fact : Identity → Prop}
    (hfact : ∀ s id, log.advert = some s → s < stamp → log.last = some id → fact id) :
    LaneOk P (saw stamp fact + share) w log looking asking published := by
  refine ⟨?_, h.written, ?_, ?_, ?_, ?_, ?_⟩
  · simpa [OrbitInbox.saw] using h.held
  · intro s hs
    simp only [OrbitInbox.saw, Prod.snd_add, Prod.fst_add, mem_add,
      mem_singleton] at hs
    obtain rfl | hs := hs
    · exact ⟨hstamp, hfact⟩
    · exact h.scans.saw s hs
  · simpa [OrbitInbox.saw] using h.scans.looking
  · simpa [OrbitInbox.saw] using h.scans.look
  · simpa [OrbitInbox.saw] using h.scans.asking
  · simpa [OrbitInbox.saw] using h.scans.ask

theorem LaneOk.seen {stamp : Nat} {fact : Identity → Prop}
    (h : LaneOk P (saw stamp fact + rest) w log looking asking published) :
    stamp ≤ published ∧
      ∀ s id, log.advert = some s → s < stamp → log.last = some id → fact id :=
  h.scans.saw (stamp, fact) (by simp [OrbitInbox.saw])

theorem LaneOk.unsee {stamp : Nat} {fact : Identity → Prop}
    (h : LaneOk P (saw stamp fact + rest) w log looking asking published) :
    LaneOk P rest w log looking asking published := by
  refine ⟨?_, h.written, ?_, ?_, ?_, ?_, ?_⟩
  · simpa [OrbitInbox.saw] using h.held
  · intro s hs
    exact h.scans.saw s (by simp [OrbitInbox.saw, hs])
  · simpa [OrbitInbox.saw] using h.scans.looking
  · simpa [OrbitInbox.saw] using h.scans.look
  · simpa [OrbitInbox.saw] using h.scans.asking
  · simpa [OrbitInbox.saw] using h.scans.ask

theorem LaneOk.looks (h : LaneOk P share w log looking asking published) {id : Identity}
    (hlast : P → log.last = some id) :
    LaneOk P (look id + share) w log (looking + 1) asking published := by
  refine ⟨?_, h.written, ?_, ?_, ?_, ?_, ?_⟩
  · simpa [OrbitInbox.look] using h.held
  · simpa [OrbitInbox.look] using h.scans.saw
  · have := h.scans.looking
    simp [OrbitInbox.look]
    omega
  · intro id' hid'
    simp only [OrbitInbox.look, Prod.snd_add, Prod.fst_add, mem_add,
      mem_singleton] at hid'
    obtain rfl | hid' := hid'
    · exact hlast
    · exact h.scans.look id' hid'
  · simpa [OrbitInbox.look] using h.scans.asking
  · simpa [OrbitInbox.look] using h.scans.ask

theorem LaneOk.looked {id : Identity}
    (h : LaneOk P (look id + rest) w log looking asking published) (hP : P) :
    log.last = some id :=
  h.scans.look id (by simp [OrbitInbox.look]) hP

theorem LaneOk.leaves {id : Identity}
    (h : LaneOk P (look id + rest) w log looking asking published) :
    LaneOk P rest w log (looking - 1) asking published := by
  refine ⟨?_, h.written, ?_, ?_, ?_, ?_, ?_⟩
  · simpa [OrbitInbox.look] using h.held
  · simpa [OrbitInbox.look] using h.scans.saw
  · have := h.scans.looking
    simp [OrbitInbox.look] at this
    omega
  · intro id' hid'
    exact h.scans.look id' (by simp [OrbitInbox.look, hid'])
  · simpa [OrbitInbox.look] using h.scans.asking
  · simpa [OrbitInbox.look] using h.scans.ask

theorem LaneOk.asks (h : LaneOk P share w log looking asking published) {id : Identity}
    (hask : P → log.last = some id ∧ w.roleLen = id.role.length) :
    LaneOk P (ask id + share) w log looking (asking + 1) published := by
  refine ⟨?_, h.written, ?_, ?_, ?_, ?_, ?_⟩
  · simpa [OrbitInbox.ask] using h.held
  · simpa [OrbitInbox.ask] using h.scans.saw
  · simpa [OrbitInbox.ask] using h.scans.looking
  · simpa [OrbitInbox.ask] using h.scans.look
  · have := h.scans.asking
    simp [OrbitInbox.ask]
    omega
  · intro id' hid'
    simp only [OrbitInbox.ask, Prod.snd_add, mem_add, mem_singleton] at hid'
    obtain rfl | hid' := hid'
    · exact hask
    · exact h.scans.ask id' hid'

theorem LaneOk.answered {id : Identity}
    (h : LaneOk P (ask id + rest) w log looking asking published) :
    (P → log.last = some id ∧ w.roleLen = id.role.length) ∧
      LaneOk P rest w log looking (asking - 1) published := by
  refine ⟨h.scans.ask id (by simp [OrbitInbox.ask]), ?_, h.written, ?_, ?_, ?_, ?_, ?_⟩
  · simpa [OrbitInbox.ask] using h.held
  · simpa [OrbitInbox.ask] using h.scans.saw
  · simpa [OrbitInbox.ask] using h.scans.looking
  · simpa [OrbitInbox.ask] using h.scans.look
  · have := h.scans.asking
    simp [OrbitInbox.ask] at this
    omega
  · intro id' hid'
    exact h.scans.ask id' (by simp [OrbitInbox.ask, hid'])

end

end OrbitInbox
