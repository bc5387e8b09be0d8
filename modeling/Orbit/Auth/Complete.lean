import Orbit.Auth.Stored
import Orbit.Table.Probing

/-! Lookups without a lock, while one writer at a time stores word after word into the inactive bank of a
slot.  A writer may die in between; the words it has stored stay, and so does the revision. -/

namespace OrbitAuth

open Orbit.Table Function

def probeSlot (capacity : Nat) (key : StoreKey) (offset : Nat) : Nat :=
  (key.first.toNat + offset) % 2 ^ 64 % capacity

abbrev View := Nat → Option Record

/-- Where a lookup is. -/
inductive Reader where
  | idle
  /-- It is going to load the revision of the slot at the offset. -/
  | looking (key : StoreKey) (offset : Nat)
  /-- It has loaded the revision, and the words of its bank up to now. -/
  | copying (key : StoreKey) (offset revision : Nat) (words : List UInt64)
  /-- The slot changed while it was copied: it is going to look again, under the lock. -/
  | raced (key : StoreKey)

/-- Where the writer is that has the lock. -/
inductive Writer where
  | idle
  /-- The words before `next` are in the inactive bank. -/
  | storing (index : Nat) (record : Record) (wire : List UInt64) (next : Nat)

/-- What a lookup has returned, and what the table has been while it was under way. -/
structure LookupAnswer where
  key : StoreKey
  result : Result (Option Record)
  since : List View

/-- A table, its writer and its readers, and for each reader what the table has been since it began. -/
structure TableWorld where
  table : StateTable
  writer : Writer
  readers : Nat → Reader
  since : Nat → List View
  answers : List LookupAnswer

inductive TableAct where
  /-- A key that is not there is inserted. -/
  | insert (record : Record) (now : UInt64) (nonce : Option Nonce)
  /-- A record takes the place of one of its key. -/
  | replace (index : Nat) (record : Record) (nonce : Option Nonce)
  | word
  | commit
  | dies
  | lookup (reader : Nat) (key : StoreKey)
  | step (reader : Nat)
  /-- The lock for another look cannot be taken. -/
  | refused (reader : Nat)

section

variable (p : RecordProtection)

/-- The checks of `store` are made, and its words are next. -/
def TableWorld.begin (w : TableWorld) (index : Nat) (record : Record) (nonce : Option Nonce) :
    TableWorld :=
  match Record.fromWords record.words, decide (2 ^ 64 ≤ (w.table.slots index).revision + 1),
    p.encode index ((w.table.slots index).revision + 1) record nonce with
  | .ok _, false, .ok wire => { w with writer := .storing index record wire 0 }
  | _, _, _ => w

/-- `insert`, after `find` has not found the key, up to its store. -/
def TableWorld.insert (w : TableWorld) (record : Record) (now : UInt64) (nonce : Option Nonce) :
    TableWorld :=
  match w.table.find p record.key,
    reusableIn p w.table now (probePath w.table.capacity record.key) with
  | .ok none, .ok (some index) => w.begin p index record nonce
  | _, _ => w

def TableWorld.replace (w : TableWorld) (index : Nat) (record : Record) (nonce : Option Nonce) :
    TableWorld :=
  match w.table.current p index with
  | some old => if old.key = record.key then w.begin p index record nonce else w
  | none => w

def TableWorld.word (w : TableWorld) : TableWorld :=
  match w.writer with
  | .storing index record wire next =>
    if next < bankWords then
      let slot := w.table.slots index
      let bank := slot.banks ((slot.revision + 1) &&& 1)
      { w with
        table := w.table.setSlot index { slot with
          banks := update slot.banks ((slot.revision + 1) &&& 1)
            (update bank next (wire.getD next (bank next))) }
        writer := .storing index record wire (next + 1) }
    else w
  | .idle => w

def TableWorld.commit (w : TableWorld) : TableWorld :=
  match w.writer with
  | .storing index _ _ next =>
    if next < bankWords then w
    else
      let slot := w.table.slots index
      let table := w.table.setSlot index { slot with revision := slot.revision + 1 }
      { w with table, writer := .idle, since := fun reader => table.current p :: w.since reader }
  | .idle => w

def TableWorld.answer (w : TableWorld) (reader : Nat) (key : StoreKey)
    (result : Result (Option Record)) : TableWorld :=
  { w with
    readers := update w.readers reader .idle
    answers := ⟨key, result, w.since reader⟩ :: w.answers }

def TableWorld.moves (w : TableWorld) (reader : Nat) (r : Reader) : TableWorld :=
  { w with readers := update w.readers reader r }

def TableWorld.step (w : TableWorld) (reader : Nat) : TableWorld :=
  match w.readers reader with
  | .idle => w
  | .looking key offset =>
    if offset < w.table.capacity then
      let slot := w.table.slots (probeSlot w.table.capacity key offset)
      if slot.revision = 0 then w.answer reader key (.ok none)
      else w.moves reader (.copying key offset slot.revision [])
    else w.answer reader key (.ok none)
  | .copying key offset revision words =>
    let index := probeSlot w.table.capacity key offset
    let slot := w.table.slots index
    if words.length < bankWords then
      w.moves reader (.copying key offset revision
        (words ++ [slot.banks (revision &&& 1) words.length]))
    else if slot.revision ≠ revision then w.moves reader (.raced key)
    else
      match p.decode index revision words with
      | .error e => w.answer reader key (.error e)
      | .ok record =>
        if record.key = key then w.answer reader key (.ok (some record))
        else w.moves reader (.looking key (offset + 1))
  | .raced key =>
    match w.writer with
    | .idle => w.answer reader key ((w.table.find p key).map (Option.map Snapshot.record))
    | .storing .. => w

/-- A step that cannot be taken changes nothing. -/
def TableWorld.act (w : TableWorld) : TableAct → TableWorld
  | .insert record now nonce =>
    match w.writer with
    | .idle => w.insert p record now nonce
    | .storing .. => w
  | .replace index record nonce =>
    match w.writer with
    | .idle => w.replace p index record nonce
    | .storing .. => w
  | .word => w.word
  | .commit => w.commit p
  | .dies => { w with writer := .idle }
  | .lookup reader key =>
    match w.readers reader with
    | .idle =>
      { w with
        readers := update w.readers reader (.looking key 0)
        since := update w.since reader [w.table.current p] }
    | _ => w
  | .step reader => w.step p reader
  | .refused reader =>
    match w.readers reader with
    | .raced key => w.answer reader key (.error .policyUnavailable)
    | _ => w

def TableWorld.zeroed (capacity : Nat) (h : 0 < capacity) : TableWorld where
  table := ⟨capacity, h, fun _ => .empty⟩
  writer := .idle
  readers _ := .idle
  since _ := []
  answers := []

def TableWorld.run (w : TableWorld) (acts : List TableAct) : TableWorld := acts.foldl (·.act p) w

end

/-! The table forgets no record: every key is in one slot at most, where its probe finds it, and what a
lookup without the lock returns was there at a moment while it was under way. -/

open Option

variable {p : RecordProtection} {t : StateTable} {w : TableWorld} {key : StoreKey} {index : Nat}
  {record : Record} {nonce : Option Nonce}

def probing (capacity : Nat) : Probing (Option Record) StoreKey where
  stops := isNone
  key := Option.map Record.key
  path := probePath capacity
  key_of_stops s h := by
    rw [isNone_iff_eq_none.mp h]
    rfl

/-- Every slot that has been written can be read, and every key is found. -/
structure StateInv (p : RecordProtection) (t : StateTable) : Prop where
  readable : ∀ i, (t.slots i).revision ≠ 0 → ∃ s, (t.slots i).read p i = .ok (some s)
  probed : Probed (probing t.capacity) (t.current p)

/-- No record of the table has the key. -/
def Absent (view : View) (key : StoreKey) : Prop := ∀ i r, view i = some r → r.key ≠ key

theorem key_iff {o : Option Record} : (probing t.capacity).key o = some key ↔
    ∃ r, o = some r ∧ r.key = key :=
  map_eq_some_iff

theorem matches_iff {o : Option Record} :
    (o.any fun r => decide (r.key = key)) = true ↔ ∃ r, o = some r ∧ r.key = key := by
  rw [any_eq_true]
  simp only [decide_eq_true_eq]

theorem current_none (h : (t.slots index).revision = 0) : t.current p index = none := by
  rw [StateTable.current, StateSlot.read, if_pos h]

namespace StateInv

theorem current_isSome (h : StateInv p t) (hi : (t.slots index).revision ≠ 0) :
    ∃ r, t.current p index = some r ∧
      p.decode index (t.slots index).revision ((t.slots index).wire (t.slots index).revision) =
        .ok r := by
  obtain ⟨s, hs⟩ := h.readable index hi
  have hcurrent := current_of_read hs
  rw [StateSlot.read, if_neg hi] at hs
  cases hdecode : p.decode index (t.slots index).revision
    ((t.slots index).wire (t.slots index).revision) with
  | error e =>
    rw [hdecode] at hs
    cases hs
  | ok r =>
    rw [hdecode] at hs
    obtain rfl := Option.some.inj (Except.ok.inj hs)
    exact ⟨r, hcurrent, rfl⟩

theorem read_error (h : StateInv p t) {e : Error} : (t.slots index).read p index ≠ .error e := by
  intro hread
  by_cases hi : (t.slots index).revision = 0
  · rw [StateSlot.read, if_pos hi] at hread
    cases hread
  · obtain ⟨s, hs⟩ := h.readable index hi
    rw [hs] at hread
    cases hread

theorem findIn_probe (h : StateInv p t) (key : StoreKey) (path : List Nat) :
    ∃ found, findIn p t key path = .ok found ∧
      found.map Snapshot.index =
        probe (probing t.capacity).stops (fun o => o.any fun r => r.key = key) (t.current p) path ∧
      ∀ s, found = some s → t.current p s.index = some s.record ∧ s.record.key = key := by
  induction path with
  | nil => exact ⟨none, rfl, rfl, fun _ h => by cases h⟩
  | cons first rest ih =>
    rw [findIn, probe]
    cases hread : (t.slots first).read p first with
    | error e => exact absurd hread h.read_error
    | ok found =>
      cases found with
      | none =>
        have hnone : t.current p first = none := by rw [StateTable.current, hread]
        rw [hnone]
        exact ⟨none, rfl, rfl, fun _ h => by cases h⟩
      | some s =>
        have hsome := current_of_read hread
        have hindex := read_index hread
        have hstops : (probing t.capacity).stops (some s.record) = false := rfl
        rw [hsome, hstops, if_neg Bool.false_ne_true]
        dsimp only
        by_cases hkey : s.record.key = key
        · rw [if_pos hkey, if_pos (matches_iff.mpr ⟨s.record, rfl, hkey⟩)]
          refine ⟨some s, rfl, congrArg some hindex, fun s' hs' => ?_⟩
          obtain rfl := Option.some.inj hs'
          rw [hindex]
          exact ⟨hsome, hkey⟩
        · have hmatch : ¬((some s.record).any fun r => decide (r.key = key)) = true := by
            rintro hmatch
            obtain ⟨r, hr, hrkey⟩ := matches_iff.mp hmatch
            exact hkey (Option.some.inj hr ▸ hrkey)
          rw [if_neg hkey, if_neg hmatch]
          exact ih

theorem probe_eq (h : StateInv p t) (hi : t.current p index = some record) :
    probe (probing t.capacity).stops (fun o => o.any fun r => r.key = record.key) (t.current p)
      (probePath t.capacity record.key) = some index := by
  have hkey : (probing t.capacity).key (t.current p index) = some record.key := by
    rw [hi]
    rfl
  refine (h.probed.reaches index record.key hkey).probe (key_stops hkey)
    (matches_iff.mpr ⟨record, hi, rfl⟩) fun j hj => ?_
  obtain ⟨r, hr, hrkey⟩ := matches_iff.mp hj
  refine h.probed.unique j index record.key ?_ hkey
  rw [hr, ← hrkey]
  rfl

theorem find_some (h : StateInv p t) (hi : t.current p index = some record) :
    ∃ s, t.find p record.key = .ok (some s) ∧ s.index = index ∧ s.record = record := by
  obtain ⟨found, hfind, hindex, hsome⟩ :=
    h.findIn_probe record.key (probePath t.capacity record.key)
  rw [h.probe_eq hi] at hindex
  obtain ⟨s, rfl, hs⟩ := map_eq_some_iff.mp hindex
  obtain ⟨hcurrent, -⟩ := hsome s rfl
  rw [hs, hi] at hcurrent
  exact ⟨s, hfind, hs, (Option.some.inj hcurrent).symm⟩

theorem find_none (h : StateInv p t) (hfind : t.find p key = .ok none) :
    Absent (t.current p) key := by
  intro i r hr hkey
  subst hkey
  obtain ⟨s, hs, -⟩ := h.find_some hr
  rw [hfind] at hs
  cases hs

theorem find_spec (h : StateInv p t) (key : StoreKey) :
    (t.find p key = .ok none ∧ Absent (t.current p) key) ∨
      ∃ s, t.find p key = .ok (some s) ∧ t.current p s.index = some s.record ∧
        s.record.key = key := by
  obtain ⟨found, hfind, -, hsome⟩ := h.findIn_probe key (probePath t.capacity key)
  cases found with
  | none => exact .inl ⟨hfind, h.find_none hfind⟩
  | some s => exact .inr ⟨s, hfind, hsome s rfl⟩

end StateInv

/-- The writer is between its checks and its commit. -/
structure Storing (p : RecordProtection) (t : StateTable) (index : Nat) (record : Record)
    (wire : List UInt64) (next : Nat) : Prop where
  length : wire.length = bankWords
  decodes : p.decode index ((t.slots index).revision + 1) wire = .ok record
  written : ∀ j < next, (t.slots index).banks (((t.slots index).revision + 1) &&& 1) j = wire.getD j 0
  entitled : (∃ old, t.current p index = some old ∧ old.key = record.key) ∨
    Absent (t.current p) record.key ∧
      Reaches (probing t.capacity) (t.current p) (probePath t.capacity record.key) index

def WriterInv (p : RecordProtection) (w : TableWorld) : Prop :=
  match w.writer with
  | .idle => True
  | .storing index record wire next => Storing p w.table index record wire next

theorem parity_ne (n : Nat) : (n + 1) &&& 1 ≠ n &&& 1 := by
  rw [Nat.and_one_is_mod, Nat.and_one_is_mod]
  omega

theorem wire_word {s : StateSlot} (bank : Nat → UInt64) : StateSlot.wire { s with
    banks := update s.banks ((s.revision + 1) &&& 1) bank } s.revision =
      s.wire s.revision := by
  have hbank : update s.banks ((s.revision + 1) &&& 1) bank (s.revision &&& 1) =
      s.banks (s.revision &&& 1) := update_of_ne (parity_ne s.revision).symm ..
  exact congrArg (List.map · (List.range bankWords)) hbank

end OrbitAuth
