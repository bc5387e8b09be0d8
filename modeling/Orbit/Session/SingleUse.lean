import Orbit.Session.Store
import Mathlib.Data.Nat.Find

/-! A stored session is the last one stored and is used once, as long as no store stops its scan at
a free or expired way that stands before the entry it is to replace. -/

namespace OrbitSession

open Orbit.Atomic Function
open List hiding take set

variable {g : Sizes} {domain key domain' key' value : List UInt8} {nowMs : Nat}

/-- The slot is occupied for this domain and key. -/
def SessionSlot.Holds (s : SessionSlot g) (domain key : List UInt8) : Prop :=
  s.matches (entryHash domain key) domain key = true

instance (s : SessionSlot g) (domain key : List UInt8) : Decidable (s.Holds domain key) :=
  inferInstanceAs (Decidable (_ = true))

variable {s : SessionSlot g} {call : Call} {sets : Sets g} {set : Nat} {w : World g}

theorem SessionSlot.Holds.occupied (h : s.Holds domain key) : s.state = .occupied := by
  simp only [SessionSlot.Holds, SessionSlot.matches, Bool.and_eq_true, decide_eq_true_eq] at h
  exact h.1.1.1.1.1

theorem SessionSlot.Holds.eq (h : s.Holds domain key) (h' : s.Holds domain' key') :
    domain' = domain ∧ key' = key := by
  simp only [SessionSlot.Holds, SessionSlot.matches, Bool.and_eq_true, decide_eq_true_eq] at h h'
  obtain ⟨⟨⟨⟨-, hdlen⟩, hklen⟩, hdomain⟩, hkey⟩ := h
  obtain ⟨⟨⟨⟨-, hdlen'⟩, hklen'⟩, hdomain'⟩, hkey'⟩ := h'
  constructor
  · rw [← hdomain, ← hdomain', ← hdlen, ← hdlen']
  · rw [← hkey, ← hkey', ← hklen, ← hklen']

@[simp] theorem SessionSlot.clear_state (s : SessionSlot g) : s.clear.state = .empty := rfl

@[simp] theorem SessionSlot.release_state (s : SessionSlot g) : s.release.state = .empty := by
  unfold SessionSlot.release
  split
  · assumption
  · split <;> rfl

theorem SessionSlot.not_holds_of_empty (h : s.state = .empty) : ¬s.Holds domain key := by
  intro hholds
  rw [hholds.occupied] at h
  cases h

theorem Buffer.upto_copyFrom {n : Nat} (b : Buffer n) {source : List UInt8}
    (h : source.length ≤ n) : (b.copyFrom source).upto source.length = source := by
  simp [Buffer.copyFrom, Buffer.upto, take_take, h]

theorem entryFits_iff : entryFits g domain key value = true ↔
    (domain ≠ [] ∧ domain.length ≤ g.domainMax) ∧ (key ≠ [] ∧ key.length ≤ g.keyCapacity) ∧
      value ≠ [] ∧ value.length ≤ g.valueMax := by
  simp [entryFits, and_assoc]

theorem SessionSlot.write_spec (s : SessionSlot g) (hfits : entryFits g domain key value = true)
    (inserted expires : Nat) :
    let s' := s.write (entryHash domain key) domain key value inserted expires
    s'.Holds domain key ∧ s'.value.upto s'.valueLen = value ∧ s'.expiresAtMs = expires := by
  obtain ⟨⟨-, hdomain⟩, ⟨-, hkey⟩, -, hvalue⟩ := entryFits_iff.mp hfits
  have hdlen : domain.length % 2 ^ 8 = domain.length :=
    Nat.mod_eq_of_lt (by have := g.domain_fits; omega)
  have hklen : key.length % 2 ^ 8 = key.length := Nat.mod_eq_of_lt (by have := g.key_fits; omega)
  have hvlen : value.length % 2 ^ 32 = value.length :=
    Nat.mod_eq_of_lt (by have := g.value_fits; omega)
  refine ⟨?_, ?_, rfl⟩
  · simp only [SessionSlot.Holds, SessionSlot.matches, SessionSlot.write, hdlen, hklen,
      Buffer.upto_copyFrom _ hdomain, Buffer.upto_copyFrom _ hkey]
    simp
  · simp only [SessionSlot.write, hvlen]
    exact Buffer.upto_copyFrom _ hvalue

theorem SessionSlot.storedValue_eq (h : s.storedValue = some value) :
    s.value.upto s.valueLen = value := by
  unfold SessionSlot.storedValue at h
  split at h
  · cases h
  · split at h
    · exact Option.some.inj h
    · cases h

/-- `put` passes this slot: it is occupied for another key and has not expired. -/
def SessionSlot.Passed (s : SessionSlot g) (domain key : List UInt8) (nowMs : Nat) : Prop :=
  ¬s.Holds domain key ∧ s.state = .occupied ∧ nowMs < s.expiresAtMs

variable {slot : SessionSlot g}

theorem candidate_eq {set : List (SessionSlot g)} {j : Nat} (hj : set[j]? = some slot)
    (hstop : ¬slot.Passed domain key nowMs)
    (hbefore : ∀ i < j, ∀ s, set[i]? = some s → s.Passed domain key nowMs) (index : Nat)
    (oldest : Nat × Nat) :
    candidate (entryHash domain key) domain key nowMs set index oldest = index + j := by
  induction set generalizing j index oldest with
  | nil => simp at hj
  | cons first rest ih =>
    cases j with
    | zero =>
      obtain rfl : first = slot := by simpa using hj
      unfold candidate
      split
      · rfl
      · next hmatch =>
        rw [if_pos]
        · rfl
        · by_contra hpass
          apply hstop
          refine ⟨hmatch, ?_⟩
          simpa [not_or, Nat.not_le] using hpass
    | succ j =>
      obtain ⟨hmatch, hocc, hlive⟩ := hbefore 0 (by omega) first rfl
      unfold candidate
      have hmatch : ¬first.matches (entryHash domain key) domain key = true := hmatch
      rw [if_neg hmatch, if_neg (by simp [hocc, hlive])]
      rw [ih (by simpa using hj) fun i hi s hs => hbefore (i + 1) (by omega) s (by simpa using hs)]
      omega

theorem readSet_cases (set : List (SessionSlot g)) (domain key : List UInt8) (nowMs : Nat)
    (consume : Bool) :
    let r := readSet (entryHash domain key) domain key nowMs consume set
    r = (set, none) ∨ ∃ i slot slot', set[i]? = some slot ∧ slot.Holds domain key ∧
      r.1 = set.set i slot' ∧
      (r.2 = none ∧ slot'.state = .empty ∨
        ∃ value, r.2 = some value ∧ slot.value.upto slot.valueLen = value ∧
          nowMs < slot.expiresAtMs ∧ slot' = if consume then slot.release else slot) := by
  induction set with
  | nil => exact .inl rfl
  | cons first rest ih =>
    simp only [readSet]
    by_cases hmatch : first.matches (entryHash domain key) domain key = true
    · simp only [hmatch, Bool.not_true, Bool.false_eq_true, if_false]
      right
      refine ⟨0, first, ?_⟩
      split
      · exact ⟨first.release, rfl, hmatch, rfl, .inl ⟨rfl, by simp⟩⟩
      · next hlive =>
        split
        · exact ⟨first.clear, rfl, hmatch, rfl, .inl ⟨rfl, rfl⟩⟩
        · next value hvalue =>
          exact ⟨_, rfl, hmatch, rfl,
            .inr ⟨value, rfl, first.storedValue_eq hvalue, by omega, rfl⟩⟩
    · simp only [hmatch, Bool.not_false, if_true]
      obtain hnone | ⟨i, slot, slot', hi, hholds, hset, hresult⟩ := ih
      · left
        rw [hnone]
      · right
        exact ⟨i + 1, slot, slot', by simpa using hi, hholds, by simp [hset], hresult⟩

/-- Nobody else is in the table: no set is claimed and the handle's registration is its own. -/
def Backing.Idle : Backing g → Prop
  | .memory _ => True
  | .locked _ => True
  | .claimed t => (∀ set, t.claims set = 0) ∧ t.generations t.owner = t.generation

variable {b : Backing g}

theorem Backing.Idle.withSet (h : b.Idle) {α : Type} (tryHoldLane : Nat → Bool) (hash : Nat)
    (recover : Bool) (operation : List (SessionSlot g) → List (SessionSlot g) × α) :
    let r := b.withSet tryHoldLane hash recover operation
    let out := operation (b.sets (setIndex g hash))
    r.1.Idle ∧ r.1.sets = update b.sets (setIndex g hash) out.1 ∧
      r.2 = .ok (some out.2) := by
  cases b with
  | memory sets => exact ⟨trivial, rfl, rfl⟩
  | locked sets => exact ⟨trivial, rfl, rfl⟩
  | claimed t =>
    obtain ⟨hfree, hown⟩ := h
    have hclaim : t.claim tryHoldLane (setIndex g hash) recover =
        .ok (some (t.claimOf (setIndex g hash) t.identity)) := by
      simp [ClaimTable.claim, ClaimTable.check, hown, hfree]
    simp only [Backing.withSet, hclaim]
    refine ⟨⟨fun set => ?_, hown⟩, rfl, rfl⟩
    by_cases hset : set = setIndex g hash <;>
      simp [ClaimTable.claimOf, hset, hfree]

theorem takeBackOwn_free (t : ClaimTable g) (h : ∀ set, t.claims set = 0) (sets : List Nat) :
    t.takeBackOwn sets = t := by
  induction sets with
  | nil => rfl
  | cons set rest ih => simp [ClaimTable.takeBackOwn, h, claimant, ih]

theorem openCreated_spec {isShm : Bool} {exclusion : Exclusion} {name : String}
    {tryHoldLane : Nat → Bool} (h : openCreated g isShm exclusion name tryHoldLane = .ok b) :
    b.Idle ∧ b.sets = .zero g := by
  unfold openCreated at h
  split at h
  · cases exclusion with
    | table =>
      cases h
      exact ⟨trivial, rfl⟩
    | set =>
      simp only [ClaimTable.openCreated] at h
      cases hreg : register name (fun _ => 0) tryHoldLane g.owners (range g.owners) with
      | error e =>
        rw [hreg] at h
        cases h
      | ok r =>
        rw [hreg] at h
        have hback := takeBackOwn_free (g := g) ⟨name, .zero g, fun _ => 0,
          update (fun _ => 0) r.1 r.2, r.1, r.2⟩ (fun _ => rfl) (range g.setCount)
        simp only [hback] at h
        cases h
        exact ⟨⟨fun _ => rfl, by simp⟩, rfl⟩
  · cases h
    exact ⟨trivial, rfl⟩

/-- What a call does to an idle table. -/
inductive Called (b : Backing g) (call : Call) (r : Backing g × Answer) : Prop where
  /-- The call was refused before it looked at the table, or found nothing. -/
  | same (hsets : r.1.sets = b.sets)
      (hstored : r.2 ≠ .stored (.ok true)) (hfound : ∀ value, r.2 ≠ .found (.ok (some value)))
  | put (domain key value : List UInt8) (ttl nowMs : Nat) (hop : call.op = .put domain key value ttl)
      (hnow : call.monotonicMs = .ok nowMs) (hfits : entryFits g domain key value = true)
      (httl : ttl ≠ 0)
      (hsets : r.1.sets = update b.sets (setIndex g (entryHash domain key))
        ((b.sets (setIndex g (entryHash domain key))).modify
          (candidate (entryHash domain key) domain key nowMs
            (b.sets (setIndex g (entryHash domain key))) 0 (0, u64Max))
          fun slot => slot.write (entryHash domain key) domain key value nowMs
            (expiresAt nowMs ttl)))
      (hanswer : r.2 = .stored (.ok true))
  | dropped (domain key : List UInt8) (i : Nat) (slot' : SessionSlot g)
      (hempty : slot'.state = .empty)
      (hsets : r.1.sets = update b.sets (setIndex g (entryHash domain key))
        ((b.sets (setIndex g (entryHash domain key))).set i slot'))
      (hanswer : r.2 = .found (.ok none))
  | found (domain key value : List UInt8) (nowMs i : Nat) (slot slot' : SessionSlot g)
      (hnow : call.monotonicMs = .ok nowMs)
      (hslot : (b.sets (setIndex g (entryHash domain key)))[i]? = some slot)
      (hholds : slot.Holds domain key) (hvalue : slot.value.upto slot.valueLen = value)
      (hlive : nowMs < slot.expiresAtMs)
      (hsets : r.1.sets = update b.sets (setIndex g (entryHash domain key))
        ((b.sets (setIndex g (entryHash domain key))).set i slot'))
      (hanswer : r.2 = .found (.ok (some value)))
      (hop : call.op = .get domain key ∧ slot' = slot ∨
        call.op = .take domain key ∧ slot'.state = .empty)

theorem call_put_stores (hb : b.Idle) {ttl : Nat} (hop : call.op = .put domain key value ttl)
    (hnow : call.monotonicMs = .ok nowMs) (hfits : entryFits g domain key value = true)
    (httl : ttl ≠ 0) :
    (b.call call).1.Idle ∧ (b.call call).2 = .stored (.ok true) ∧
      (b.call call).1.sets = update b.sets (setIndex g (entryHash domain key))
        ((b.sets (setIndex g (entryHash domain key))).modify
          (candidate (entryHash domain key) domain key nowMs
            (b.sets (setIndex g (entryHash domain key))) 0 (0, u64Max))
          fun slot => slot.write (entryHash domain key) domain key value nowMs
            (expiresAt nowMs ttl)) := by
  obtain ⟨hidle, hsets, hresult⟩ := hb.withSet call.tryHoldLane (entryHash domain key) true
    fun set => (set.modify (candidate (entryHash domain key) domain key nowMs set 0 (0, u64Max))
      fun slot => slot.write (entryHash domain key) domain key value nowMs
        (expiresAt nowMs ttl), ())
  simp only [Backing.call, hop, Backing.put, hfits, Bool.not_true, Bool.false_eq_true, httl,
    or_self, if_false, hnow]
  refine ⟨hidle, ?_, hsets⟩
  rw [hresult]
  rfl

theorem call_put (b : Backing g) (hb : b.Idle) (call : Call) {ttl : Nat}
    (hop : call.op = .put domain key value ttl) :
    (b.call call).1.Idle ∧ Called b call (b.call call) := by
  by_cases hskip : (!entryFits g domain key value) = true ∨ ttl = 0
  · simp only [Backing.call, hop, Backing.put, if_pos hskip]
    exact ⟨hb, .same rfl (by simp) (by simp)⟩
  cases hnow : call.monotonicMs with
  | error e =>
    simp only [Backing.call, hop, Backing.put, if_neg hskip, hnow]
    exact ⟨hb, .same rfl (by simp) (by simp)⟩
  | ok nowMs =>
    simp only [not_or, Bool.not_eq_true', Bool.not_eq_false] at hskip
    obtain ⟨hidle, hanswer, hsets⟩ := call_put_stores hb hop hnow hskip.1 hskip.2
    exact ⟨hidle, .put domain key value ttl nowMs hop hnow hskip.1 hskip.2 hsets hanswer⟩

theorem call_read (b : Backing g) (hb : b.Idle) (call : Call) (domain key : List UInt8)
    (consume : Bool) (hop : call.op = if consume then .take domain key else .get domain key) :
    let r := b.read call.tryHoldLane call.monotonicMs domain key consume
    r.1.Idle ∧ Called b call (r.1, .found r.2) := by
  simp only [Backing.read]
  by_cases hskip : domain.isEmpty = true ∨ g.domainMax < domain.length ∨ key.isEmpty = true ∨
      g.keyCapacity < key.length
  · rw [if_pos hskip]
    exact ⟨hb, .same rfl (by simp) (by simp)⟩
  rw [if_neg hskip]
  cases hnow : call.monotonicMs with
  | error e => exact ⟨hb, .same rfl (by simp) (by simp)⟩
  | ok nowMs =>
    obtain ⟨hidle, hsets, hresult⟩ := hb.withSet call.tryHoldLane (entryHash domain key) false
      (readSet (entryHash domain key) domain key nowMs consume)
    refine ⟨hidle, ?_⟩
    simp only [hresult]
    obtain hnone | ⟨i, slot, slot', hi, hholds, hset, ⟨hmiss, hempty⟩ | ⟨v, hsome, hv, hlive, hs⟩⟩ :=
      readSet_cases (b.sets (setIndex g (entryHash domain key))) domain key nowMs consume
    · rw [hnone] at hsets ⊢
      refine .same ?_ (by simp) fun value h => by cases h
      rw [hsets, update_eq_self]
    · rw [hmiss]
      refine .dropped domain key i slot' hempty ?_ rfl
      rw [hsets, hset]
    · rw [hsome]
      refine .found domain key v nowMs i slot slot' hnow hi hholds hv hlive ?_ rfl ?_
      · rw [hsets, hset]
      · cases consume with
        | false => exact .inl ⟨hop, by simpa using hs⟩
        | true => exact .inr ⟨hop, by simp [hs]⟩

theorem call_cases (b : Backing g) (hb : b.Idle) (call : Call) :
    (b.call call).1.Idle ∧ Called b call (b.call call) := by
  cases hop : call.op with
  | put domain key value ttl => exact call_put b hb call hop
  | get domain key =>
    have h := call_read b hb call domain key false (by simp [hop])
    simpa only [Backing.call, Backing.get, hop] using h
  | take domain key =>
    have h := call_read b hb call domain key true (by simp [hop])
    simpa only [Backing.call, Backing.take, hop] using h

/-- At most one slot of a set is occupied for a domain and key. -/
def Single (sets : Sets g) : Prop :=
  ∀ (set : Nat) domain key (i j : Nat) (a b : SessionSlot g), (sets set)[i]? = some a → (sets set)[j]? = some b →
    a.Holds domain key → b.Holds domain key → i = j

def current (domain key : List UInt8) : List (Call × Answer) → Option (List UInt8 × Nat)
  | [] => none
  | (call, answer) :: before =>
    match call.op, call.monotonicMs, answer with
    | .put domain' key' value ttl, .ok nowMs, .stored (.ok true) =>
      if domain' = domain ∧ key' = key then some (value, expiresAt nowMs ttl)
      else current domain key before
    | .take domain' key', _, .found (.ok (some _)) =>
      if domain' = domain ∧ key' = key then none else current domain key before
    | _, _, _ => current domain key before

/-- No free or expired way stands before the entry of the key. -/
def NoHoleBefore (set : List (SessionSlot g)) (domain key : List UInt8) (nowMs : Nat) : Prop :=
  ∀ (j : Nat) slot, set[j]? = some slot → slot.Holds domain key →
    ∀ i < j, ∀ s, set[i]? = some s → s.state = .occupied ∧ nowMs < s.expiresAtMs

/-- A store that looks at its set finds no free or expired way before the entry it replaces. -/
def ReachesEntry (w : World g) (call : Call) : Prop :=
  match call.op, call.monotonicMs with
  | .put domain key value ttl, .ok nowMs =>
    entryFits g domain key value = true → ttl ≠ 0 →
      NoHoleBefore (w.table.sets (setIndex g (entryHash domain key))) domain key nowMs
  | _, _ => True

/-- What holds of a table and its history: every occupied slot is in the set of its key and is the
session most recently stored there. -/
structure Fresh (w : World g) : Prop where
  single : Single w.table.sets
  latest : ∀ (set i : Nat) (slot : SessionSlot g) domain key, (w.table.sets set)[i]? = some slot →
    slot.Holds domain key → set = setIndex g (entryHash domain key) ∧
      current domain key w.history = some (slot.value.upto slot.valueLen, slot.expiresAtMs)

theorem current_same {answer : Answer} (before : List (Call × Answer))
    (hstored : answer ≠ .stored (.ok true))
    (htake : ∀ domain' key' value, call.op = .take domain' key' → answer ≠ .found (.ok (some value))) :
    current domain key ((call, answer) :: before) = current domain key before := by
  conv_lhs => unfold current
  split
  · exact absurd rfl hstored
  · next hop => exact absurd rfl (htake _ _ _ hop)
  · rfl

/-- Slots only change by being emptied. -/
def Fewer (sets sets' : Sets g) : Prop :=
  ∀ (set i : Nat) (slot : SessionSlot g), (sets' set)[i]? = some slot →
    slot.state = .empty ∨ (sets set)[i]? = some slot

theorem Fewer.kept {sets' : Sets g} (h : Fewer sets sets') {i : Nat}
    (hslot : (sets' set)[i]? = some slot) (hholds : slot.Holds domain key) :
    (sets set)[i]? = some slot :=
  (h set i slot hslot).resolve_left fun hempty => slot.not_holds_of_empty hempty hholds

theorem Fewer.single {sets' : Sets g} (h : Fewer sets sets') (hs : Single sets) : Single sets' :=
  fun set domain key i j a b ha hb hka hkb =>
    hs set domain key i j a b (h.kept ha hka) (h.kept hb hkb) hka hkb

theorem Fewer.of_set {i : Nat} {slot' : SessionSlot g}
    (h : slot'.state = .empty ∨ (sets set)[i]? = some slot') :
    Fewer sets (update sets set ((sets set).set i slot')) := by
  intro set' j slot hslot
  by_cases hset : set' = set
  · subst hset
    rw [update_self, getElem?_set] at hslot
    split at hslot
    · next hij =>
      subst hij
      split at hslot
      · cases hslot
        exact h
      · cases hslot
    · exact .inr hslot
  · rw [update_of_ne hset] at hslot
    exact .inr hslot

theorem Fresh.fewer {w' : World g} (h : Fresh w) (hsets : Fewer w.table.sets w'.table.sets)
    (hcurrent : ∀ (set i : Nat) (slot : SessionSlot g) domain key,
      (w'.table.sets set)[i]? = some slot → slot.Holds domain key →
        current domain key w'.history = current domain key w.history) : Fresh w' where
  single := hsets.single h.single
  latest := by
    intro set i slot domain key hslot hholds
    rw [hcurrent set i slot domain key hslot hholds]
    exact h.latest set i slot domain key (hsets.kept hslot hholds) hholds

theorem candidate_of_holds (hs : Single sets) {j : Nat}
    (hno : NoHoleBefore (sets set) domain key nowMs) (hj : (sets set)[j]? = some slot)
    (hholds : slot.Holds domain key) :
    candidate (entryHash domain key) domain key nowMs (sets set) 0 (0, u64Max) = j := by
  rw [candidate_eq hj (fun hpass => hpass.1 hholds), Nat.zero_add]
  intro i hi s hget
  refine ⟨fun hsame => ?_, hno j slot hj hholds i hi s hget⟩
  have := hs set domain key i j s slot hget hj hsame hholds
  omega

theorem candidate_lt {set : List (SessionSlot g)} (hno : ¬NoHoleBefore set domain key nowMs) :
    ∃ (i j : Nat) (a b : SessionSlot g), i < j ∧ set[i]? = some a ∧ set[j]? = some b ∧
      b.Holds domain key ∧
      candidate (entryHash domain key) domain key nowMs set 0 (0, u64Max) = i := by
  simp only [NoHoleBefore, not_forall] at hno
  obtain ⟨j, slot, hj, hholds, i, hij, s, hi, hhole⟩ := hno
  have hex : ∃ n : Nat, ∃ a, set[n]? = some a ∧ ¬a.Passed domain key nowMs :=
    ⟨i, s, hi, fun hpass => hhole hpass.2⟩
  classical
  obtain ⟨a, ha, hstop⟩ := Nat.find_spec hex
  have hle : Nat.find hex ≤ i := Nat.find_min' hex ⟨s, hi, fun hpass => hhole hpass.2⟩
  refine ⟨Nat.find hex, j, a, slot, by omega, ha, hj, hholds, ?_⟩
  rw [candidate_eq ha hstop, Nat.zero_add]
  intro n hn b hb
  by_contra hpass
  exact Nat.find_min hex hn ⟨b, hb, hpass⟩

theorem modify_get (set : List (SessionSlot g)) (c i : Nat) (f : SessionSlot g → SessionSlot g)
    (h : (set.modify c f)[i]? = some slot) :
    (i = c ∧ ∃ old, set[i]? = some old ∧ slot = f old) ∨ (i ≠ c ∧ set[i]? = some slot) := by
  rw [getElem?_modify] at h
  by_cases hi : i = c
  · subst hi
    left
    obtain ⟨old, hold, hf⟩ := Option.map_eq_some_iff.mp h
    exact ⟨rfl, old, hold, by simpa using hf.symm⟩
  · right
    refine ⟨hi, ?_⟩
    simpa [Ne.symm hi] using h

theorem Fresh.put (h : Fresh w) {ttl : Nat} (hop : call.op = .put domain key value ttl)
    (hnow : call.monotonicMs = .ok nowMs) (hfits : entryFits g domain key value = true)
    (hno : NoHoleBefore (w.table.sets (setIndex g (entryHash domain key))) domain key nowMs)
    (hsets : b.sets = update w.table.sets (setIndex g (entryHash domain key))
      ((w.table.sets (setIndex g (entryHash domain key))).modify
        (candidate (entryHash domain key) domain key nowMs
          (w.table.sets (setIndex g (entryHash domain key))) 0 (0, u64Max))
        fun slot => slot.write (entryHash domain key) domain key value nowMs
          (expiresAt nowMs ttl))) :
    Fresh (⟨b, (call, .stored (.ok true)) :: w.history⟩ : World g) := by
  -- a slot of the new table is the one written, or an old one of another key
  have hslots : ∀ (set i : Nat) (slot : SessionSlot g) domain' key', (b.sets set)[i]? = some slot →
      slot.Holds domain' key' →
      (set = setIndex g (entryHash domain key) ∧
        i = candidate (entryHash domain key) domain key nowMs
          (w.table.sets (setIndex g (entryHash domain key))) 0 (0, u64Max) ∧
        domain' = domain ∧ key' = key ∧ slot.value.upto slot.valueLen = value ∧
        slot.expiresAtMs = expiresAt nowMs ttl) ∨
      (¬(domain = domain' ∧ key = key') ∧ (w.table.sets set)[i]? = some slot) := by
    intro set i slot domain' key' hslot hholds
    rw [hsets] at hslot
    by_cases hset : set = setIndex g (entryHash domain key)
    · subst hset
      rw [update_self] at hslot
      obtain ⟨hi, old, -, rfl⟩ | ⟨hi, hold⟩ := modify_get _ _ _ _ hslot
      · obtain ⟨hnew, hvalue, hexpires⟩ := old.write_spec hfits nowMs (expiresAt nowMs ttl)
        obtain ⟨hdomain, hkey⟩ := hnew.eq hholds
        exact .inl ⟨rfl, hi, hdomain, hkey, hvalue, hexpires⟩
      · refine .inr ⟨?_, hold⟩
        rintro ⟨rfl, rfl⟩
        exact hi (candidate_of_holds h.single hno hold hholds).symm
    · rw [update_of_ne hset] at hslot
      refine .inr ⟨?_, hslot⟩
      rintro ⟨rfl, rfl⟩
      exact hset (h.latest set i slot domain key hslot hholds).1
  constructor
  · intro set domain' key' i j a a' ha ha' hholds hholds'
    obtain ⟨-, hi, hd, hk, -⟩ | ⟨hne, hold⟩ := hslots set i a domain' key' ha hholds
    · obtain ⟨-, hj, -⟩ | ⟨hne', -⟩ := hslots set j a' domain' key' ha' hholds'
      · rw [hi, hj]
      · exact absurd ⟨hd.symm, hk.symm⟩ hne'
    · obtain ⟨-, -, hd, hk, -⟩ | ⟨-, hold'⟩ := hslots set j a' domain' key' ha' hholds'
      · exact absurd ⟨hd.symm, hk.symm⟩ hne
      · exact h.single set domain' key' i j a a' hold hold' hholds hholds'
  · intro set i slot domain' key' hslot hholds
    obtain ⟨hset, -, rfl, rfl, hvalue, hexpires⟩ | ⟨hne, hold⟩ :=
      hslots set i slot domain' key' hslot hholds
    · refine ⟨hset, ?_⟩
      simp [current, hop, hnow, hvalue, hexpires]
    · obtain ⟨hset, hcur⟩ := h.latest set i slot domain' key' hold hholds
      refine ⟨hset, ?_⟩
      simp only [current, hop, hnow, hcur, if_neg hne]

theorem not_single_of_hole {sets' : Sets g} {expires : Nat}
    (hfits : entryFits g domain key value = true) (hno : ¬NoHoleBefore (sets set) domain key nowMs)
    (hsets : sets' = update sets set ((sets set).modify
      (candidate (entryHash domain key) domain key nowMs (sets set) 0 (0, u64Max))
      fun slot => slot.write (entryHash domain key) domain key value nowMs expires)) :
    ¬Single sets' := by
  obtain ⟨i, j, a, b, hij, ha, hb, hholds, hcandidate⟩ := candidate_lt hno
  intro hs'
  have hwritten : (sets' set)[i]? = some (a.write (entryHash domain key) domain key value nowMs
      expires) := by
    rw [hsets, update_self, getElem?_modify, hcandidate, ha]
    simp
  have hkept : (sets' set)[j]? = some b := by
    rw [hsets, update_self, getElem?_modify, hcandidate, hb]
    simp [show i ≠ j by omega]
  have := hs' set domain key i j _ _ hwritten hkept
    (a.write_spec hfits nowMs expires).1 hholds
  omega

theorem exec_idle (h : w.table.Idle) (call : Call) : (exec w call).table.Idle :=
  (call_cases w.table h call).1

theorem Fresh.exec (h : Fresh w) (hidle : w.table.Idle) (hok : ReachesEntry w call) :
    Fresh (exec w call) := by
  obtain ⟨-, hcall⟩ := call_cases w.table hidle call
  unfold OrbitSession.exec
  cases hcall with
  | same hsets hstored hfound =>
    refine h.fewer ?_ fun set i slot domain key _ _ =>
      current_same _ hstored fun _ _ value _ => hfound value
    intro set i slot hslot
    rw [← hsets]
    exact .inr hslot
  | put domain key value ttl nowMs hop hnow hfits httl hsets hanswer =>
    simp only [hanswer]
    refine h.put hop hnow hfits ?_ hsets
    simp only [ReachesEntry, hop, hnow] at hok
    exact hok hfits httl
  | dropped domain key i slot' hempty hsets hanswer =>
    refine h.fewer ?_ fun set i slot domain key _ _ => ?_
    · simp only [hsets]
      exact .of_set (.inl hempty)
    · simp only [hanswer]
      exact current_same _ (by simp) (by simp)
  | found domain key value nowMs i slot slot' hnow hslot hholds hvalue hlive hsets hanswer hop =>
    obtain ⟨hop, rfl⟩ | ⟨hop, hempty⟩ := hop
    · refine h.fewer ?_ fun set i slot domain key _ _ => ?_
      · simp only [hsets]
        exact .of_set (.inr hslot)
      · exact current_same _ (by simp [hanswer]) (by simp [hop])
    · have hfewer : Fewer w.table.sets (w.table.call call).1.sets := by
        rw [hsets]
        exact .of_set (.inl hempty)
      refine h.fewer hfewer fun set j a domain' key' ha hsame => ?_
      -- the slot taken was the only one of its key
      have hne : ¬(domain = domain' ∧ key = key') := by
        rintro ⟨rfl, rfl⟩
        have hold := hfewer.kept ha hsame
        obtain ⟨hset, -⟩ := h.latest set j a domain key hold hsame
        subst hset
        obtain rfl := h.single _ domain key j i a slot hold hslot hsame hholds
        simp only [hsets, update_self] at ha
        rw [getElem?_set_self (List.getElem?_eq_some_iff.mp hslot).1] at ha
        cases ha
        exact slot'.not_holds_of_empty hempty hsame
      simp only [hanswer, current, hop, if_neg hne]

theorem ReachesEntry.of_single (hidle : w.table.Idle) (hs : Single (exec w call).table.sets) :
    ReachesEntry w call := by
  unfold ReachesEntry
  split
  · next domain key value ttl nowMs hop hnow =>
    intro hfits httl
    by_contra hno
    obtain ⟨-, -, hsets⟩ := call_put_stores hidle hop hnow hfits httl
    exact not_single_of_hole hfits hno hsets hs
  · trivial

theorem meets_of_single (hidle : w.table.Idle) {calls : List Call}
    (hs : ∀ n, Single ((calls.take n).foldl exec w).table.sets) :
    Meets exec ReachesEntry w calls := by
  induction calls generalizing w with
  | nil => trivial
  | cons call rest ih =>
    constructor
    · exact .of_single hidle (hs 1)
    · exact ih (exec_idle hidle call) fun n => hs (n + 1)

theorem fresh_created {isShm : Bool} {exclusion : Exclusion} {name : String}
    {tryHoldLane : Nat → Bool} (h : openCreated g isShm exclusion name tryHoldLane = .ok b) :
    Fresh (⟨b, []⟩ : World g) := by
  obtain ⟨-, hzero⟩ := openCreated_spec h
  have hempty : ∀ (set i : Nat) (slot : SessionSlot g), (b.sets set)[i]? = some slot →
      slot.state = .empty := by
    intro set i slot hslot
    rw [hzero, Sets.zero] at hslot
    obtain rfl := eq_of_mem_replicate (mem_of_getElem? hslot)
    rfl
  constructor
  · intro set domain key i j a _ ha _ hholds
    exact absurd hholds (a.not_holds_of_empty (hempty set i a ha))
  · intro set i slot domain key hslot hholds
    exact absurd hholds (slot.not_holds_of_empty (hempty set i slot hslot))

theorem run_fresh {isShm : Bool} {exclusion : Exclusion} {name : String} {tryHoldLane : Nat → Bool}
    (h : openCreated g isShm exclusion name tryHoldLane = .ok b) {calls : List Call}
    (hmeets : Meets exec ReachesEntry ⟨b, []⟩ calls) :
    (run b calls).table.Idle ∧ Fresh (run b calls) := by
  have hstep : ∀ (w : World g) call, (w.table.Idle ∧ Fresh w) → ReachesEntry w call →
      (exec w call).table.Idle ∧ Fresh (exec w call) :=
    fun w call hw hok => ⟨exec_idle hw.1 call, hw.2.exec hw.1 hok⟩
  exact hmeets.holds hstep ⟨(openCreated_spec h).1, fresh_created h⟩

/-- What a read that finds a session returned: the session most recently stored for its key, not
taken since and not expired. -/
theorem Fresh.found (h : Fresh w) (hidle : w.table.Idle)
    (hfound : (w.table.call call).2 = .found (.ok (some value))) :
    ∃ domain key nowMs expires, (call.op = .get domain key ∨ call.op = .take domain key) ∧
      call.monotonicMs = .ok nowMs ∧ nowMs < expires ∧
      current domain key w.history = some (value, expires) := by
  obtain ⟨-, hcall⟩ := call_cases w.table hidle call
  cases hcall with
  | same _ _ hnot => exact absurd hfound (hnot value)
  | put _ _ _ _ _ _ _ _ _ _ hanswer =>
    rw [hanswer] at hfound
    cases hfound
  | dropped _ _ _ _ _ _ hanswer =>
    rw [hanswer] at hfound
    cases hfound
  | found domain key value' nowMs i slot slot' hnow hslot hholds hvalue hlive _ hanswer hop =>
    rw [hanswer] at hfound
    cases hfound
    obtain ⟨-, hcurrent⟩ := h.latest _ i slot domain key hslot hholds
    rw [hvalue] at hcurrent
    exact ⟨domain, key, nowMs, slot.expiresAtMs, hop.imp And.left And.left, hnow, hlive, hcurrent⟩

/-- Every session a call of the sequence returns is the last one stored for its key, has not
expired and was not taken since. -/
def LastStored (b : Backing g) (calls : List Call) : Prop :=
  ∀ (n : Nat) call value, calls[n]? = some call →
    ((run b (calls.take n)).table.call call).2 = .found (.ok (some value)) →
    ∃ domain key nowMs expires, (call.op = .get domain key ∨ call.op = .take domain key) ∧
      call.monotonicMs = .ok nowMs ∧ nowMs < expires ∧
      current domain key (run b (calls.take n)).history = some (value, expires)

/-- In a table just created, each key keeps one slot along a sequence of calls exactly when every
store finds no free or expired way before the entry it replaces; and then every session returned is
the last one stored. -/
theorem session_used_once {isShm : Bool} {exclusion : Exclusion} {name : String}
    {tryHoldLane : Nat → Bool} {b : Backing g}
    (h : openCreated g isShm exclusion name tryHoldLane = .ok b) (calls : List Call) :
    (Meets exec ReachesEntry ⟨b, []⟩ calls ↔
      ∀ n, Single (run b (calls.take n)).table.sets) ∧
    (Meets exec ReachesEntry ⟨b, []⟩ calls → LastStored b calls) := by
  refine ⟨⟨fun hmeets n => ?_, fun hs => ?_⟩, fun hmeets n call value _ hfound => ?_⟩
  · exact (run_fresh h (hmeets.take n)).2.single
  · exact meets_of_single (openCreated_spec h).1 hs
  · obtain ⟨hidle, hfresh⟩ := run_fresh h (hmeets.take n)
    exact hfresh.found hidle hfound

/-- The clock readings never decrease along the sequence. -/
def Clocked (calls : List Call) : Prop :=
  (calls.filterMap fun call => call.monotonicMs.toOption).Pairwise (· ≤ ·)

instance (calls : List Call) : Decidable (Clocked calls) :=
  inferInstanceAs (Decidable (List.Pairwise _ _))

theorem oneSet_fits : 0 < 1 ∧ 1 ≤ 255 := by decide

theorem oneSet_value : 0 < 1 ∧ 1 < 2 ^ 32 := by decide

theorem oneSet_count : 1 ≤ 65535 := by decide

theorem oneSet_ways : 0 < 2 ∧ 2 ≤ 65535 := by decide

theorem oneSet_owners : 0 < 1 ∧ 1 < 65535 := by decide

def oneSet : Sizes where
  domainMax := 1
  keyCapacity := 1
  valueMax := 1
  setCount := 1
  ways := 2
  owners := 1
  domain_fits := oneSet_fits
  key_fits := oneSet_fits
  value_fits := oneSet_value
  setCount_pow := isPowerOfTwo_one
  setCount_le := oneSet_count
  ways_fits := oneSet_ways
  owners_fits := oneSet_owners

/-- Two keys are stored, the first is taken, and the second is stored again: its new session goes
into the way the first left, before its old one. Then it is taken twice. -/
def supersededCalls : List Call :=
  [Op.put [1] [1] [10] (10 ^ 9), .put [1] [2] [20] (10 ^ 9), .take [1] [1],
    .put [1] [2] [21] (10 ^ 9), .take [1] [2], .take [1] [2]].map fun op =>
      ⟨op, .ok 5, fun _ => true⟩

theorem session_used_once_stored :
    (∀ n, Single (run (g := oneSet) (.memory (.zero oneSet))
      ((supersededCalls.take 1).take n)).table.sets) ∧
    LastStored (g := oneSet) (.memory (.zero oneSet)) (supersededCalls.take 1) := by
  have hcreated : openCreated oneSet false .set "sessions" (fun _ => true) =
      .ok (.memory (.zero oneSet)) := rfl
  have hmeets : Meets exec ReachesEntry
      (⟨.memory (.zero oneSet), []⟩ : World oneSet) (supersededCalls.take 1) := by
    refine ⟨fun _ _ j slot hslot hholds => absurd hholds (slot.not_holds_of_empty ?_), trivial⟩
    exact congrArg SessionSlot.state (eq_of_mem_replicate (mem_of_getElem? hslot))
  exact ⟨(session_used_once hcreated _).1.mp hmeets, (session_used_once hcreated _).2 hmeets⟩

theorem superseded_session_comes_back :
    openCreated oneSet false .set "sessions" (fun _ => true) = .ok (.memory (.zero oneSet)) ∧
    Clocked supersededCalls ∧
    ¬LastStored (g := oneSet) (.memory (.zero oneSet)) supersededCalls := by
  refine ⟨rfl, by decide, fun h => ?_⟩
  obtain ⟨domain, key, nowMs, expires, hop, -, -, hcurrent⟩ := h 5 _ [20] rfl rfl
  have hop : Op.take [1] [2] = .get domain key ∨ Op.take [1] [2] = .take domain key := hop
  obtain hop | hop := hop
  · cases hop
  · cases hop
    have hnone : current [1] [2]
        (run (g := oneSet) (.memory (.zero oneSet)) (supersededCalls.take 5)).history = none := rfl
    rw [hnone] at hcurrent
    cases hcurrent

end OrbitSession
