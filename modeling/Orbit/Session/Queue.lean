import Orbit.Session.Pushing

/-! The tickets of a key are a bounded bag: a take finds a ticket unless it meets one that has expired
before. -/

namespace OrbitSession

open Orbit.Atomic Function
open List hiding take set

variable {g : Sizes} {domain key value : List UInt8} {nowMs : Nat}

/-- What a reading does to the set of its key. -/
structure Reading (domain key : List UInt8) (nowMs : Nat) (consume : Bool)
    (set set' : List (SessionSlot g)) (answer : Option (List UInt8)) : Prop where
  missed : answer = none → ∀ (i : Nat) s, s.InUse nowMs → (set[i]? = some s ↔ set'[i]? = some s)
  found : ∀ value, answer = some value → ∃ index slot, set[index]? = some slot ∧
    slot.Valid domain key nowMs ∧ slot.value.upto slot.valueLen = value ∧
      set' = if consume then set.set index slot.release else set

/-- The first entry of the key has expired only when all of them have. -/
def Reaches (domain key : List UInt8) (nowMs : Nat) (set : List (SessionSlot g)) : Prop :=
  ∀ slot, set.find? (fun s => s.Holds domain key) = some slot → slot.expiresAtMs ≤ nowMs →
    ∀ s ∈ set, ¬s.Valid domain key nowMs

theorem readSet_passes {before : List (SessionSlot g)} (h : ∀ s ∈ before, ¬s.Holds domain key)
    (rest : List (SessionSlot g)) (nowMs : Nat) (consume : Bool) :
    readSet (entryHash domain key) domain key nowMs consume (before ++ rest) =
      (before ++ (readSet (entryHash domain key) domain key nowMs consume rest).1,
        (readSet (entryHash domain key) domain key nowMs consume rest).2) := by
  induction before with
  | nil => rfl
  | cons first before ih =>
    have hfirst : (!first.matches (entryHash domain key) domain key) = true := by
      rw [Bool.not_eq_true']
      exact (Bool.not_eq_true _).mp (h first mem_cons_self)
    rw [cons_append, readSet, if_pos hfirst, ih fun s hs => h s (mem_cons_of_mem _ hs)]
    rfl

variable {set : List (SessionSlot g)} {maxValues : Nat} {b : Backing g}

theorem readSet_first (hcommitted : ∀ s ∈ set, s.Committed) (domain key : List UInt8) (nowMs : Nat)
    (consume : Bool) :
    (∀ s ∈ set, ¬s.Holds domain key) ∧
        readSet (entryHash domain key) domain key nowMs consume set = (set, none) ∨
      ∃ index slot, set.find? (fun s => s.Holds domain key) = some slot ∧
        set[index]? = some slot ∧ slot.Holds domain key ∧
        (slot.expiresAtMs ≤ nowMs ∧ readSet (entryHash domain key) domain key nowMs consume set =
            (set.set index slot.release, none) ∨
          nowMs < slot.expiresAtMs ∧ readSet (entryHash domain key) domain key nowMs consume set =
            (if consume then set.set index slot.release else set,
              some (slot.value.upto slot.valueLen))) := by
  cases hfind : set.find? (fun s => s.Holds domain key) with
  | none =>
    have hnone : ∀ s ∈ set, ¬s.Holds domain key := fun s hs => by
      simpa using find?_eq_none.mp hfind s hs
    have hread := readSet_passes hnone [] nowMs consume
    rw [append_nil] at hread
    refine .inl ⟨hnone, hread.trans ?_⟩
    rw [readSet, append_nil]
  | some slot =>
    obtain ⟨hholds, before, rest, rfl, hbefore⟩ := find?_eq_some_iff_append.mp hfind
    have hbefore : ∀ s ∈ before, ¬s.Holds domain key := fun s hs => by simpa using hbefore s hs
    have hholds : slot.Holds domain key := of_decide_eq_true hholds
    have hslot : (before ++ slot :: rest)[before.length]? = some slot := by
      rw [getElem?_append_right (Nat.le_refl _), Nat.sub_self]
      rfl
    have hset : ∀ s : SessionSlot g,
        (before ++ slot :: rest).set before.length s = before ++ s :: rest := fun s => by
      rw [set_append_right _ _ (Nat.le_refl _), Nat.sub_self]
      rfl
    have hmatch : ¬(!slot.matches (entryHash domain key) domain key) = true := by
      rw [Bool.not_eq_true', Bool.not_eq_false]
      exact hholds
    refine .inr ⟨before.length, slot, rfl, hslot, hholds, ?_⟩
    rw [readSet_passes hbefore, readSet, if_neg hmatch, hset]
    by_cases hexpired : slot.expiresAtMs ≤ nowMs
    · exact .inl ⟨hexpired, by rw [if_pos hexpired]⟩
    · refine .inr ⟨Nat.lt_of_not_le hexpired, ?_⟩
      rw [if_neg hexpired,
        (hcommitted slot (mem_append_right _ mem_cons_self)).storedValue hholds.occupied]
      cases consume <;> rfl

variable {s : SessionSlot g}

theorem getElem?_set_idle {index i : Nat} {old new : SessionSlot g} (hold : set[index]? = some old)
    (hidle : ¬old.InUse nowMs) (hnew : new.state = .empty) (huse : s.InUse nowMs) :
    set[i]? = some s ↔ (set.set index new)[i]? = some s := by
  by_cases hi : i = index
  · subst hi
    rw [hold, getElem?_set_self (List.getElem?_eq_some_iff.mp hold).1]
    constructor
    · intro h
      rw [Option.some.inj h] at hidle
      exact absurd huse hidle
    · intro h
      rw [Option.some.inj h, huse.1] at hnew
      cases hnew
  · rw [getElem?_set_ne (Ne.symm hi)]

theorem readSet_reading (hcommitted : ∀ s ∈ set, s.Committed) (domain key : List UInt8)
    (nowMs : Nat) (consume : Bool) :
    Reading domain key nowMs consume set
      (readSet (entryHash domain key) domain key nowMs consume set).1
      (readSet (entryHash domain key) domain key nowMs consume set).2 := by
  rcases readSet_first hcommitted domain key nowMs consume with
    ⟨-, hread⟩ | ⟨index, slot, -, hslot, hholds, ⟨hexpired, hread⟩ | ⟨hlive, hread⟩⟩
  · rw [hread]
    exact ⟨fun _ _ _ _ => Iff.rfl, fun _ h => by cases h⟩
  · rw [hread]
    have hidle : ¬slot.InUse nowMs := fun huse => absurd huse.2 (Nat.not_lt.mpr hexpired)
    exact ⟨fun _ _ _ huse => getElem?_set_idle hslot hidle slot.release_state huse,
      fun _ h => by cases h⟩
  · rw [hread]
    constructor
    · intro h
      cases h
    · exact fun value hvalue => ⟨index, slot, hslot, ⟨hholds, hlive⟩, Option.some.inj hvalue, rfl⟩

theorem readSet_missed (hcommitted : ∀ s ∈ set, s.Committed) (domain key : List UInt8) (nowMs : Nat)
    (consume : Bool) :
    ((readSet (entryHash domain key) domain key nowMs consume set).2 = none →
      ∀ s ∈ set, ¬s.Valid domain key nowMs) ↔ Reaches domain key nowMs set := by
  rcases readSet_first hcommitted domain key nowMs consume with
    ⟨hnone, hread⟩ | ⟨index, slot, hfind, -, -, ⟨hexpired, hread⟩ | ⟨hlive, hread⟩⟩
  · exact ⟨fun _ _ _ _ s hs hvalid => hnone s hs hvalid.1,
      fun _ _ s hs hvalid => hnone s hs hvalid.1⟩
  · rw [hread]
    exact ⟨fun h _ _ _ => h rfl, fun h _ => h slot hfind hexpired⟩
  · rw [hread]
    refine ⟨fun _ other hother hexpired => ?_, fun _ h => by cases h⟩
    rw [hfind] at hother
    rw [← Option.some.inj hother] at hexpired
    exact absurd hlive (Nat.not_lt.mpr hexpired)

/-- What every slot keeps. -/
structure SessionSlot.Sound (s : SessionSlot g) : Prop where
  committed : s.Committed
  expires : s.expiresAtMs ≤ u64Max

structure Queue.Inv (maxValues : Nat) (q : Queue g) : Prop where
  idle : q.table.Idle
  filled : ∀ index, 0 < (q.table.sets index).length
  sound : ∀ index, ∀ s ∈ q.table.sets index, s.Sound
  held : ∀ index domain key, held (q.table.sets index) domain key q.clock ≤ maxValues

def Queue.Elsewhere (q q' : Queue g) (domain key : List UInt8) : Prop :=
  ∀ index, index ≠ setIndex g (entryHash domain key) →
    q'.table.sets index = q.table.sets index

def Fits (g : Sizes) (domain key value : List UInt8) (ttl maxValues : Nat) : Prop :=
  entryFits g domain key value = true ∧ ttl ≠ 0 ∧ maxValues ≠ 0

/-- The call does to the tickets what it is there for. -/
def Queue.Proper (q : Queue g) (call : TicketCall) : Prop :=
  match call.op with
  | .push domain key value ttl maxValues => ∀ nowMs, call.monotonicMs = .ok nowMs →
    (Fits g domain key value ttl maxValues → (q.table.ticket call).2 = .stored (.ok true) ∧
      Pushed domain key value nowMs maxValues (q.set domain key) ((q.exec call).set domain key) ∧
        q.Elsewhere (q.exec call) domain key) ∧
    (¬Fits g domain key value ttl maxValues → (q.table.ticket call).2 = .stored (.ok false) ∧
      (q.exec call).table.sets = q.table.sets)
  | .get domain key => ∀ nowMs, call.monotonicMs = .ok nowMs → ∃ answer,
    (q.table.ticket call).2 = .found (.ok answer) ∧
      Reading domain key nowMs false (q.set domain key) ((q.exec call).set domain key) answer ∧
        q.Elsewhere (q.exec call) domain key
  | .take domain key => ∀ nowMs, call.monotonicMs = .ok nowMs → ∃ answer,
    (q.table.ticket call).2 = .found (.ok answer) ∧
      Reading domain key nowMs true (q.set domain key) ((q.exec call).set domain key) answer ∧
        q.Elsewhere (q.exec call) domain key ∧
          (answer = none → ∀ s ∈ q.set domain key, ¬s.Valid domain key nowMs)

/-- The clock has not come to its end for a ticket that is stored, and a take meets no expired
ticket before one that has not expired. -/
def Queue.Serves (q : Queue g) (call : TicketCall) : Prop :=
  match call.op with
  | .push domain key value ttl maxValues => ∀ nowMs, call.monotonicMs = .ok nowMs →
    Fits g domain key value ttl maxValues → nowMs < u64Max
  | .get _ _ => True
  | .take domain key => ∀ nowMs, call.monotonicMs = .ok nowMs →
    Reaches domain key nowMs (q.set domain key)

theorem Queue.Inv.at_clock {q : Queue g} (h : q.Inv maxValues) (hclock : q.clock ≤ nowMs)
    (index : Nat) (domain key : List UInt8) :
    OrbitSession.held (q.table.sets index) domain key nowMs ≤ maxValues :=
  (held_mono hclock).trans (h.held index domain key)

theorem Queue.Inv.update {q : Queue g} (h : q.Inv maxValues) {index : Nat}
    (hclock : q.clock ≤ nowMs) (hidle : b.Idle)
    (hsets : b.sets = Function.update q.table.sets index set) (hfilled : 0 < set.length)
    (hsound : ∀ s ∈ set, s.Sound)
    (hheld : ∀ domain key, OrbitSession.held set domain key nowMs ≤ maxValues) :
    Queue.Inv maxValues ⟨b, nowMs⟩ where
  idle := hidle
  filled other := by
    rw [hsets]
    by_cases hother : other = index
    · subst hother
      rw [update_self]
      exact hfilled
    · rw [update_of_ne hother]
      exact h.filled other
  sound other := by
    rw [hsets]
    by_cases hother : other = index
    · subst hother
      rw [update_self]
      exact hsound
    · rw [update_of_ne hother]
      exact h.sound other
  held other domain key := by
    rw [hsets]
    by_cases hother : other = index
    · subst hother
      rw [update_self]
      exact hheld domain key
    · rw [update_of_ne hother]
      exact h.at_clock hclock other domain key

theorem SessionSlot.release_sound (h : s.Sound) : s.release.Sound := by
  refine ⟨SessionSlot.committed_of_empty s.release_state, ?_⟩
  unfold SessionSlot.release
  split
  · exact h.expires
  split
  · exact Nat.zero_le _
  · exact Nat.zero_le _

theorem SessionSlot.tidied_sound (h : s.Sound) : (s.tidied nowMs).Sound := by
  unfold SessionSlot.tidied
  split
  · exact SessionSlot.release_sound h
  · exact h

theorem mem_set_cases {index : Nat} {new : SessionSlot g} (h : s ∈ set.set index new) :
    s = new ∨ s ∈ set :=
  (mem_or_eq_of_mem_set h).symm

theorem sound_pushSet (hset : 0 < set.length) (hmax : maxValues ≠ 0)
    (hfits : entryFits g domain key value = true) (hsound : ∀ s ∈ set, s.Sound) (nowMs ttl : Nat) :
    0 < (pushSet (entryHash domain key) domain key value nowMs (expiresAt nowMs ttl) maxValues
        set).length ∧
      ∀ s ∈ pushSet (entryHash domain key) domain key value nowMs (expiresAt nowMs ttl) maxValues
        set, s.Sound := by
  obtain ⟨index, old, -, heq⟩ := pushSet_eq hset hmax domain key value nowMs (expiresAt nowMs ttl)
  rw [heq, length_set, length_map]
  refine ⟨hset, fun s hs => ?_⟩
  rcases mem_set_cases hs with rfl | hs
  · exact ⟨SessionSlot.write_committed _ hfits _ _ _, expiresAt_le nowMs ttl⟩
  · obtain ⟨before, hbefore, rfl⟩ := mem_map.mp hs
    exact SessionSlot.tidied_sound (hsound before hbefore)

theorem readSet_keeps (hsound : ∀ s ∈ set, s.Sound) (domain key : List UInt8) (nowMs : Nat)
    (consume : Bool) : let set' := (readSet (entryHash domain key) domain key nowMs consume set).1
    set'.length = set.length ∧ (∀ s ∈ set', s.Sound) ∧
      ∀ domain' key', held set' domain' key' nowMs ≤ held set domain' key' nowMs := by
  have hgone : ∀ index slot, set[index]? = some slot →
      (set.set index slot.release).length = set.length ∧
        (∀ s ∈ set.set index slot.release, s.Sound) ∧ ∀ domain' key',
          held (set.set index slot.release) domain' key' nowMs ≤ held set domain' key' nowMs := by
    intro index slot hslot
    refine ⟨length_set, fun s hs => ?_, fun domain' key' => ?_⟩
    · rcases mem_set_cases hs with rfl | hs
      · exact SessionSlot.release_sound (hsound slot (mem_of_getElem? hslot))
      · exact hsound s hs
    · have hcount := held_set hslot slot.release domain' key' nowMs
      have hnone : ¬slot.release.Valid domain' key' nowMs := fun hvalid =>
        SessionSlot.not_holds_of_empty slot.release_state hvalid.1
      rw [if_neg hnone] at hcount
      omega
  intro set'
  rcases readSet_first (fun s hs => (hsound s hs).committed) domain key nowMs consume with
    ⟨-, hread⟩ | ⟨index, slot, -, hslot, -, ⟨-, hread⟩ | ⟨-, hread⟩⟩
  · have hset : set' = set := congrArg Prod.fst hread
    rw [hset]
    exact ⟨rfl, hsound, fun _ _ => Nat.le_refl _⟩
  · have hset : set' = set.set index slot.release := congrArg Prod.fst hread
    rw [hset]
    exact hgone index slot hslot
  · cases consume with
    | true =>
      have hset : set' = set.set index slot.release := congrArg Prod.fst hread
      rw [hset]
      exact hgone index slot hslot
    | false =>
      have hset : set' = set := congrArg Prod.fst hread
      rw [hset]
      exact ⟨rfl, hsound, fun _ _ => Nat.le_refl _⟩

theorem push_stores (hb : b.Idle) (tryHoldLane : Nat → Bool) {ttl : Nat}
    (hfits : Fits g domain key value ttl maxValues) (nowMs : Nat) :
    let r := b.push tryHoldLane (.ok nowMs) domain key value ttl maxValues
    r.1.Idle ∧ r.2 = .ok true ∧ r.1.sets = Function.update b.sets (setIndex g (entryHash domain key))
      (pushSet (entryHash domain key) domain key value nowMs (expiresAt nowMs ttl) maxValues
        (b.sets (setIndex g (entryHash domain key)))) := by
  have hskip : ¬((!entryFits g domain key value) = true ∨ ttl = 0 ∨ maxValues = 0) := by
    rw [not_or, not_or, Bool.not_eq_true', Bool.not_eq_false]
    exact hfits
  obtain ⟨hidle, hsets, hresult⟩ := hb.withSet tryHoldLane (entryHash domain key) true
    fun set => (pushSet (entryHash domain key) domain key value nowMs (expiresAt nowMs ttl)
      maxValues set, ())
  simp only [Backing.push, if_neg hskip]
  refine ⟨hidle, ?_, hsets⟩
  rw [hresult]
  rfl

theorem push_refused (b : Backing g) (tryHoldLane : Nat → Bool) {ttl : Nat}
    (hfits : ¬Fits g domain key value ttl maxValues) (monotonicMs : Except Error Nat) :
    b.push tryHoldLane monotonicMs domain key value ttl maxValues = (b, .ok false) := by
  refine if_pos ?_
  by_contra hskip
  rw [not_or, not_or, Bool.not_eq_true', Bool.not_eq_false] at hskip
  exact hfits hskip

theorem read_reads (hb : b.Idle) (hsound : ∀ index, ∀ s ∈ b.sets index, s.Sound)
    (tryHoldLane : Nat → Bool) (domain key : List UInt8) (nowMs : Nat) (consume : Bool) :
    let r := b.read tryHoldLane (.ok nowMs) domain key consume
    let out := readSet (entryHash domain key) domain key nowMs consume
      (b.sets (setIndex g (entryHash domain key)))
    r.1.Idle ∧ r.2 = .ok out.2 ∧
      r.1.sets = Function.update b.sets (setIndex g (entryHash domain key)) out.1 := by
  intro r out
  by_cases hskip : domain.isEmpty = true ∨ g.domainMax < domain.length ∨ key.isEmpty = true ∨
      g.keyCapacity < key.length
  · have hr : r = (b, .ok none) := if_pos hskip
    have hnone : ∀ s ∈ b.sets (setIndex g (entryHash domain key)), ¬s.Holds domain key :=
      fun s hs hholds => (hsound _ s hs).committed.not_refused hholds hskip
    have hout : out = (b.sets (setIndex g (entryHash domain key)), none) := by
      have hread := readSet_passes hnone [] nowMs consume
      rw [append_nil] at hread
      refine hread.trans ?_
      rw [readSet, append_nil]
    rw [hr, hout]
    exact ⟨hb, rfl, (update_eq_self ..).symm⟩
  · obtain ⟨hidle, hsets, hresult⟩ := hb.withSet tryHoldLane (entryHash domain key) false
      (readSet (entryHash domain key) domain key nowMs consume)
    have hr : r = (_, _) := if_neg hskip
    rw [hr]
    refine ⟨hidle, ?_, hsets⟩
    dsimp only
    rw [hresult]
    rfl

theorem Queue.Inv.advance {q : Queue g} (h : q.Inv maxValues) (hclock : q.clock ≤ nowMs) :
    Queue.Inv maxValues ⟨q.table, nowMs⟩ :=
  ⟨h.idle, h.filled, h.sound, h.at_clock hclock⟩

section step

variable {q : Queue g} {maxValues : Nat} {tryHoldLane : Nat → Bool}

theorem exec_push (h : q.Inv maxValues) (hclock : q.clock ≤ nowMs) {ttl : Nat} :
    let call : TicketCall := ⟨.push domain key value ttl maxValues, .ok nowMs, tryHoldLane⟩
    (q.exec call).Inv maxValues ∧ (q.Proper call ↔ q.Serves call) := by
  intro call
  by_cases hfits : Fits g domain key value ttl maxValues
  · obtain ⟨hidle, hanswer, hsets⟩ := push_stores h.idle tryHoldLane hfits nowMs
    have hfilled := h.filled (setIndex g (entryHash domain key))
    have hsound := h.sound (setIndex g (entryHash domain key))
    have hheld := h.at_clock hclock (setIndex g (entryHash domain key))
    obtain ⟨hfilled', hsound'⟩ := sound_pushSet hfilled hfits.2.2 hfits.1 hsound nowMs ttl
    have hinv : (q.exec call).Inv maxValues :=
      h.update hclock hidle hsets hfilled' hsound' fun domain' key' =>
        held_pushSet hfilled hfits.2.2 hfits.1 _ (hheld domain' key')
    have hset : (q.exec call).set domain key = pushSet (entryHash domain key) domain key value nowMs
        (expiresAt nowMs ttl) maxValues (q.set domain key) :=
      (congrFun hsets _).trans (update_self ..)
    refine ⟨hinv, fun hproper now hnow hfits => ?_, fun hserves now hnow => ?_⟩
    · obtain ⟨-, hpushed, -⟩ := (hproper now hnow).1 hfits
      obtain ⟨index, old, new, -, hnew, hvalid, -⟩ := hpushed.stored
      have hexpires := (hinv.sound _ new (mem_of_getElem? hnew)).expires
      exact hvalid.2.trans_le hexpires
    · obtain rfl : nowMs = now := Except.ok.inj hnow
      have hlive := hserves nowMs rfl hfits
      refine ⟨fun _ => ⟨congrArg Answer.stored hanswer, ?_, fun index hindex => ?_⟩,
        fun hnot => absurd hfits hnot⟩
      · rw [hset]
        exact pushSet_pushed hfilled hfits.2.2 hfits.1 (hheld domain key) hlive
      · exact (congrFun hsets index).trans (update_of_ne hindex ..)
  · have hrefused := push_refused q.table tryHoldLane hfits (.ok nowMs)
    have htable : (q.exec call).table = q.table := congrArg Prod.fst hrefused
    have hexec : q.exec call = ⟨q.table, nowMs⟩ := by
      rw [← htable]
      rfl
    refine ⟨hexec ▸ h.advance hclock, fun _ _ _ hnot => absurd hnot hfits,
      fun _ _ _ => ⟨fun hnot => absurd hnot hfits, fun _ => ⟨?_, by rw [htable]⟩⟩⟩
    exact congrArg (fun r => Answer.stored r.2) hrefused

theorem exec_read (h : q.Inv maxValues) (hclock : q.clock ≤ nowMs) (tryHoldLane : Nat → Bool)
    (domain key : List UInt8) (consume : Bool) (call : TicketCall)
    (hcall : q.table.ticket call = ((q.table.read tryHoldLane (.ok nowMs) domain key consume).1,
      .found (q.table.read tryHoldLane (.ok nowMs) domain key consume).2))
    (hnow : call.monotonicMs = .ok nowMs) :
    (q.exec call).Inv maxValues ∧ ∃ answer, (q.table.ticket call).2 = .found (.ok answer) ∧
      Reading domain key nowMs consume (q.set domain key) ((q.exec call).set domain key) answer ∧
        q.Elsewhere (q.exec call) domain key ∧
          ((answer = none → ∀ s ∈ q.set domain key, ¬s.Valid domain key nowMs) ↔
            Reaches domain key nowMs (q.set domain key)) := by
  obtain ⟨hidle, hanswer, hsets⟩ := read_reads h.idle h.sound tryHoldLane domain key nowMs consume
  have hsound := h.sound (setIndex g (entryHash domain key))
  have hcommitted : ∀ s ∈ q.set domain key, s.Committed := fun s hs => (hsound s hs).committed
  obtain ⟨hlength, hsound', hheld⟩ := readSet_keeps hsound domain key nowMs consume
  have htable : (q.exec call).table =
      (q.table.read tryHoldLane (.ok nowMs) domain key consume).1 := congrArg Prod.fst hcall
  have hexec : q.exec call =
      ⟨(q.table.read tryHoldLane (.ok nowMs) domain key consume).1, nowMs⟩ := by
    rw [← htable, Queue.exec, hnow]
    rfl
  have hset : (q.exec call).set domain key =
      (readSet (entryHash domain key) domain key nowMs consume (q.set domain key)).1 := by
    rw [Queue.set, htable, hsets, update_self]
    rfl
  refine ⟨?_, _, ?_, ?_, ?_, readSet_missed hcommitted domain key nowMs consume⟩
  · rw [hexec]
    refine h.update hclock hidle hsets ?_ hsound' fun domain' key' => ?_
    · rw [hlength]
      exact h.filled _
    · exact (hheld domain' key').trans (h.at_clock hclock _ domain' key')
  · rw [hcall]
    exact congrArg Answer.found hanswer
  · rw [hset]
    exact readSet_reading hcommitted domain key nowMs consume
  · intro index hindex
    rw [htable, hsets]
    exact update_of_ne hindex ..

theorem exec_failed (h : q.Inv maxValues) {op : TicketOp} {e : Error} :
    (q.exec ⟨op, .error e, tryHoldLane⟩).Inv maxValues := by
  have hread : ∀ domain key consume,
      (q.table.read tryHoldLane (.error e) domain key consume).1 = q.table := by
    intro domain key consume
    unfold Backing.read
    split <;> rfl
  have hexec : q.exec ⟨op, .error e, tryHoldLane⟩ = q := by
    have htable : (q.table.ticket ⟨op, .error e, tryHoldLane⟩).1 = q.table := by
      cases op with
      | push domain key value ttl max =>
        change (q.table.push tryHoldLane (.error e) domain key value ttl max).1 = q.table
        unfold Backing.push
        split <;> rfl
      | get domain key => exact hread domain key false
      | take domain key => exact hread domain key true
    rw [Queue.exec, htable]
    rfl
  rw [hexec]
  exact h

theorem exec_queue (h : q.Inv maxValues) {call : TicketCall} (hgiven : q.Given maxValues call) :
    (q.exec call).Inv maxValues ∧ (q.Proper call ↔ q.Serves call) := by
  obtain ⟨op, monotonicMs, tryHoldLane⟩ := call
  obtain ⟨hclock, hmax⟩ := hgiven
  cases monotonicMs with
  | error e =>
    have hnever : ∀ nowMs, (.error e : Except Error Nat) ≠ .ok nowMs := fun _ h => by cases h
    refine ⟨exec_failed h, ?_⟩
    cases op with
    | push domain key value ttl max =>
      exact ⟨fun _ now hnow => absurd hnow (hnever now), fun _ now hnow => absurd hnow (hnever now)⟩
    | get domain key => exact ⟨fun _ => trivial, fun _ now hnow => absurd hnow (hnever now)⟩
    | take domain key =>
      exact ⟨fun _ now hnow => absurd hnow (hnever now), fun _ now hnow => absurd hnow (hnever now)⟩
  | ok nowMs =>
    have hle := hclock nowMs rfl
    cases op with
    | push domain key value ttl max =>
      obtain rfl := hmax domain key value ttl max rfl
      exact exec_push h hle
    | get domain key =>
      obtain ⟨hinv, answer, hanswer, hreading, helse, -⟩ :=
        exec_read h hle tryHoldLane domain key false ⟨.get domain key, .ok nowMs, tryHoldLane⟩ rfl rfl
      refine ⟨hinv, fun _ => trivial, fun _ now hnow => ?_⟩
      obtain rfl : nowMs = now := Except.ok.inj hnow
      exact ⟨answer, hanswer, hreading, helse⟩
    | take domain key =>
      obtain ⟨hinv, answer, hanswer, hreading, helse, hmissed⟩ :=
        exec_read h hle tryHoldLane domain key true ⟨.take domain key, .ok nowMs, tryHoldLane⟩ rfl rfl
      refine ⟨hinv, fun hproper now hnow => ?_, fun hserves now hnow => ?_⟩
      · obtain rfl : nowMs = now := Except.ok.inj hnow
        obtain ⟨answer', hanswer', -, -, hnone⟩ := hproper nowMs rfl
        rw [hanswer] at hanswer'
        have hsame : answer = answer' := Except.ok.inj (Answer.found.inj hanswer')
        rw [← hsame] at hnone
        exact hmissed.mp hnone
      · obtain rfl : nowMs = now := Except.ok.inj hnow
        exact ⟨answer, hanswer, hreading, helse, hmissed.mpr (hserves nowMs rfl)⟩

end step

theorem queue_created {isShm : Bool} {exclusion : Exclusion} {name : String}
    {tryHoldLane : Nat → Bool} (h : openCreated g isShm exclusion name tryHoldLane = .ok b)
    (maxValues : Nat) : Queue.Inv maxValues ⟨b, 0⟩ := by
  obtain ⟨hidle, hsets⟩ := openCreated_spec h
  have hempty : ∀ index, ∀ s ∈ b.sets index, s = .empty := fun index s hs => by
    rw [hsets] at hs
    exact eq_of_mem_replicate hs
  refine ⟨hidle, fun index => ?_, fun index s hs => ?_, fun index domain key => ?_⟩
  · rw [hsets, Sets.zero, length_replicate]
    exact g.ways_fits.1
  · rw [hempty index s hs]
    exact ⟨SessionSlot.committed_of_empty rfl, Nat.zero_le _⟩
  · have hnone : held (b.sets index) domain key 0 = 0 := by
      refine countP_eq_zero.mpr fun s hs hvalid => ?_
      rw [hempty index s hs] at hvalid
      exact SessionSlot.not_holds_of_empty rfl (of_decide_eq_true hvalid).1
    exact hnone.le.trans (Nat.zero_le _)

/-- In a table just created, the tickets are a bounded bag along a sequence of calls just when no take
meets an expired ticket before one that has not expired, and no ticket is stored at the end of the
clock. -/
theorem ticket_queue_bag {isShm : Bool} {exclusion : Exclusion} {name : String}
    {tryHoldLane : Nat → Bool} {b : Backing g}
    (h : openCreated g isShm exclusion name tryHoldLane = .ok b) {maxValues : Nat}
    {calls : List TicketCall} (hgiven : Meets Queue.exec (Queue.Given maxValues) ⟨b, 0⟩ calls) :
    Meets Queue.exec Queue.Proper ⟨b, 0⟩ calls ↔ Meets Queue.exec Queue.Serves ⟨b, 0⟩ calls :=
  Meets.iff_of (I := Queue.Inv maxValues) (fun _ _ h hgiven => exec_queue h hgiven)
    (queue_created h maxValues) hgiven

def emptyQueue : Queue oneSet := ⟨.memory (.zero oneSet), 0⟩

/-- Two tickets of one key are stored, and the second one is asked for when the first has expired. -/
def lapsedCalls : List TicketCall :=
  [⟨.push [1] [1] [10] (10 ^ 7) 2, .ok 0, fun _ => true⟩,
    ⟨.push [1] [1] [11] (10 ^ 7) 2, .ok 5, fun _ => true⟩,
    ⟨.take [1] [1], .ok 12, fun _ => true⟩]

theorem lapsed_given : Meets Queue.exec (Queue.Given 2) emptyQueue lapsedCalls := by
  refine ⟨⟨?_, ?_⟩, ⟨?_, ?_⟩, ⟨?_, ?_⟩, trivial⟩
  · exact fun now _ => Nat.zero_le now
  · intro _ _ _ _ _ hop
    cases hop
    rfl
  · intro now hnow
    exact Except.ok.inj hnow ▸ Nat.zero_le 5
  · intro _ _ _ _ _ hop
    cases hop
    rfl
  · intro now hnow
    exact Except.ok.inj hnow ▸ Nat.le_add_right 5 7
  · intro _ _ _ _ _ hop
    cases hop

theorem ticket_queue_bag_first :
    Meets Queue.exec Queue.Proper emptyQueue (lapsedCalls.take 1) ↔
      Meets Queue.exec Queue.Serves emptyQueue (lapsedCalls.take 1) := by
  have hcreated : openCreated oneSet false .table "tickets" (fun _ => true) =
      .ok (.memory (.zero oneSet)) := rfl
  exact ticket_queue_bag hcreated (lapsed_given.take 1)

theorem lapsed_ticket_hides_another :
    openCreated oneSet false .table "tickets" (fun _ => true) = .ok (.memory (.zero oneSet)) ∧
      Meets Queue.exec (Queue.Given 2) emptyQueue lapsedCalls ∧
      ¬Meets Queue.exec Queue.Proper emptyQueue lapsedCalls := by
  refine ⟨rfl, lapsed_given, fun h => ?_⟩
  obtain ⟨-, -, htake, -⟩ := h
  obtain ⟨answer, hanswer, -, -, hnone⟩ := htake 12 rfl
  have hmissed : (((lapsedCalls.take 2).foldl Queue.exec emptyQueue).table.ticket
      ⟨.take [1] [1], .ok 12, fun _ => true⟩).2 = .found (.ok none) := rfl
  have hsame : answer = none := Except.ok.inj (Answer.found.inj (hanswer.symm.trans hmissed))
  have hvalid : (((lapsedCalls.take 2).foldl Queue.exec emptyQueue).set [1] [1]).any
      (fun s => s.Valid [1] [1] 12) = true := rfl
  obtain ⟨s, hs, hlive⟩ := any_eq_true.mp hvalid
  exact hnone hsame s hs (of_decide_eq_true hlive)

end OrbitSession
