import Orbit.Auth.Limit
import Orbit.Auth.Overlap

/-! What the table keeps: every key is found, an insertion takes a free or expired slot, and it fails on a
full table alone, as long as the probe of its key goes through every slot. -/

namespace OrbitAuth

open Orbit.Table List Function

variable {p : RecordProtection} {t t' : StateTable} {w : TableWorld} {key : StoreKey} {index : Nat}
  {record : Record} {now : UInt64} {getrandom : Randomness} {reader : Nat}

theorem copies (n : Nat) {offset revision k : Nat} (hk : k + n ≤ bankWords)
    (h : w.readers reader = .copying key offset revision
      (((w.table.slots (probeSlot w.table.capacity key offset)).wire revision).take k)) :
    w.run p (replicate n (.step reader)) = w.moves reader (.copying key offset revision
      (((w.table.slots (probeSlot w.table.capacity key offset)).wire revision).take (k + n))) := by
  induction n generalizing w k with
  | zero =>
    rw [Nat.add_zero, TableWorld.moves, ← h, update_eq_self]
    rfl
  | succ n ih =>
    have hlength : (((w.table.slots (probeSlot w.table.capacity key offset)).wire revision).take
        k).length = k := by
      rw [length_take, StateSlot.wire, length_map, length_range]
      omega
    have hstep : w.act p (.step reader) = w.moves reader (.copying key offset revision
        (((w.table.slots (probeSlot w.table.capacity key offset)).wire revision).take (k + 1))) := by
      change w.step p reader = _
      unfold TableWorld.step
      rw [h]
      dsimp only
      rw [hlength, if_pos (by omega), take_wire _ _ (by omega)]
    have hrest := ih (w := w.moves reader (.copying key offset revision
        (((w.table.slots (probeSlot w.table.capacity key offset)).wire revision).take (k + 1))))
      (k := k + 1) (by omega) (update_self ..)
    rw [replicate_succ]
    change (w.act p (.step reader)).run p _ = _
    rw [hstep, hrest, Nat.add_right_comm k 1 n, Nat.add_assoc k n 1]
    exact congrArg (fun readers => { w with readers }) (update_idem ..)

theorem run_append (w : TableWorld) (first second : List TableAct) :
    w.run p (first ++ second) = (w.run p first).run p second :=
  foldl_append

theorem looks_up (h : StateInv p w.table) (left : Nat) {offset : Nat}
    (hleft : offset + left = w.table.capacity) (hlooking : w.readers reader = .looking key offset) :
    ∃ n, w.run p (replicate n (.step reader)) = w.answer reader key
      ((findIn p w.table key
        ((range' offset left).map (probeSlot w.table.capacity key))).map
          (Option.map Snapshot.record)) := by
  induction left generalizing w offset with
  | zero =>
    refine ⟨1, ?_⟩
    change w.step p reader = _
    unfold TableWorld.step
    rw [hlooking]
    dsimp only
    rw [if_neg (by omega)]
    rfl
  | succ left ih =>
    rw [range'_succ, map_cons, findIn]
    have hstep : w.step p reader =
        if (w.table.slots (probeSlot w.table.capacity key offset)).revision = 0 then
          w.answer reader key (.ok none)
        else w.moves reader (.copying key offset
          (w.table.slots (probeSlot w.table.capacity key offset)).revision []) := by
      unfold TableWorld.step
      rw [hlooking]
      dsimp only
      rw [if_pos (by omega)]
    by_cases hempty : (w.table.slots (probeSlot w.table.capacity key offset)).revision = 0
    · refine ⟨1, ?_⟩
      change w.step p reader = _
      rw [hstep, if_pos hempty, StateSlot.read, if_pos hempty]
      rfl
    rw [if_neg hempty] at hstep
    obtain ⟨r, -, hdecode⟩ := h.current_isSome hempty
    let slot := w.table.slots (probeSlot w.table.capacity key offset)
    have hread : slot.read p (probeSlot w.table.capacity key offset) =
        .ok (some ⟨probeSlot w.table.capacity key offset, slot.revision, r,
          slot.wire slot.revision⟩) := by
      rw [StateSlot.read, if_neg hempty, hdecode]
      rfl
    rw [hread]
    dsimp only
    -- the load of the revision, the words of its bank, and the second load of the revision
    have hcopied : w.run p (replicate (1 + bankWords) (.step reader)) =
        w.moves reader (.copying key offset slot.revision (slot.wire slot.revision)) := by
      rw [replicate_add, run_append]
      change (w.step p reader).run p _ = _
      rw [hstep, copies (k := 0) bankWords (Nat.le_of_eq (Nat.zero_add _)) (update_self ..),
        Nat.zero_add]
      change TableWorld.moves _ reader (.copying key offset slot.revision
        ((slot.wire slot.revision).take bankWords)) = _
      rw [take_of_length_le (by rw [StateSlot.wire, length_map, length_range])]
      exact congrArg (fun readers => { w with readers }) (update_idem ..)
    have hlast : (w.moves reader (.copying key offset slot.revision
        (slot.wire slot.revision))).step p reader =
          if r.key = key then w.answer reader key (.ok (some r))
          else w.moves reader (.looking key (offset + 1)) := by
      unfold TableWorld.step TableWorld.moves TableWorld.answer
      dsimp only
      rw [update_self]
      dsimp only
      rw [if_neg (by rw [StateSlot.wire, length_map, length_range]; exact Nat.lt_irrefl _),
        if_neg (not_not_intro rfl), hdecode]
      dsimp only
      rw [update_idem, update_idem]
    have hslot : w.run p (replicate (1 + bankWords + 1) (.step reader)) =
        if r.key = key then w.answer reader key (.ok (some r))
        else w.moves reader (.looking key (offset + 1)) := by
      rw [replicate_add, run_append, hcopied]
      exact hlast
    by_cases hkey : r.key = key
    · rw [if_pos hkey] at hslot ⊢
      exact ⟨_, hslot⟩
    · rw [if_neg hkey] at hslot ⊢
      have hlooking : (w.moves reader (.looking key (offset + 1))).readers reader =
          .looking key (offset + 1) := update_self ..
      obtain ⟨n, hn⟩ := ih (w := w.moves reader (.looking key (offset + 1))) h
        ((Nat.succ_add_eq_add_succ offset left).trans hleft) hlooking
      refine ⟨1 + bankWords + 1 + n, ?_⟩
      rw [replicate_add, run_append, hslot, hn]
      exact congrArg (fun readers => ({ w with
        readers, answers := _ :: w.answers } : TableWorld)) (update_idem ..)

theorem probePath_all {capacity : Nat} (hcapacity : 0 < capacity)
    (h : capacity ∣ 2 ^ 64 ∨ key.first.toNat + capacity ≤ 2 ^ 64) :
    ∀ i < capacity, i ∈ probePath capacity key := by
  intro i hi
  -- the offset at which the slot comes, if the sum does not wrap or the capacity divides the modulus
  let offset := (i + (capacity - key.first.toNat % capacity)) % capacity
  have hoffset : offset < capacity := Nat.mod_lt _ hcapacity
  refine mem_map.mpr ⟨offset, mem_range.mpr hoffset, ?_⟩
  have hwrap : (key.first.toNat + offset) % 2 ^ 64 % capacity =
      (key.first.toNat + offset) % capacity := by
    rcases h with hdvd | hle
    · exact Nat.mod_mod_of_dvd _ hdvd
    · have hlt : key.first.toNat + offset < 2 ^ 64 := by omega
      rw [Nat.mod_eq_of_lt hlt]
  have hmod := Nat.mod_lt key.first.toNat hcapacity
  rw [hwrap, Nat.add_mod_mod, ← Nat.mod_add_mod,
    show key.first.toNat % capacity + (i + (capacity - key.first.toNat % capacity)) = i + capacity by
      omega, Nat.add_mod_right, Nat.mod_eq_of_lt hi]

/-- The slot is free, or its record has expired. -/
def StateTable.Reusable (p : RecordProtection) (t : StateTable) (now : UInt64) (index : Nat) : Prop :=
  (t.slots index).revision = 0 ∨ ∃ old, t.current p index = some old ∧ old.expiresAt ≤ now

/-- The slot holds a record that has not expired. -/
def StateTable.Held (p : RecordProtection) (t : StateTable) (now : UInt64) (index : Nat) : Prop :=
  ∃ r, t.current p index = some r ∧ now < r.expiresAt

theorem not_reusable (h : StateInv p t) : ¬t.Reusable p now index ↔ t.Held p now index := by
  constructor
  · intro hnot
    rw [StateTable.Reusable, not_or] at hnot
    obtain ⟨r, hr, -⟩ := h.current_isSome hnot.1
    exact ⟨r, hr, UInt64.not_le.mp fun hle => hnot.2 ⟨r, hr, hle⟩⟩
  · rintro ⟨r, hr, hlt⟩ (hempty | ⟨old, hold, hle⟩)
    · rw [current_none hempty] at hr
      cases hr
    · rw [hr] at hold
      obtain rfl := Option.some.inj hold
      exact absurd hle (UInt64.not_le.mpr hlt)

theorem reusableIn_ne_error (h : StateInv p t) {path : List Nat} {e : Error} :
    reusableIn p t now path ≠ .error e := by
  induction path with
  | nil => exact fun heq => (by cases heq)
  | cons first rest ih =>
    rw [reusableIn]
    split
    · rename_i hread
      exact absurd hread h.read_error
    · exact fun heq => (by cases heq)
    · split
      · exact fun heq => (by cases heq)
      · exact ih

theorem reusableIn_none (h : StateInv p t) {path : List Nat} :
    reusableIn p t now path = .ok none ↔ ∀ i ∈ path, t.Held p now i := by
  induction path with
  | nil => exact ⟨fun _ _ hi => absurd hi not_mem_nil, fun _ => rfl⟩
  | cons first rest ih =>
    rw [reusableIn, forall_mem_cons]
    cases hread : (t.slots first).read p first with
    | error e => exact absurd hread h.read_error
    | ok found =>
      cases found with
      | none =>
        refine ⟨fun heq => (by cases heq), fun hheld => absurd hheld.1 ?_⟩
        rintro ⟨r, hr, -⟩
        rw [current_none (read_empty hread)] at hr
        cases hr
      | some s =>
        have hcurrent := current_of_read hread
        dsimp only
        by_cases hexpired : s.record.expiresAt ≤ now
        · rw [if_pos hexpired]
          refine ⟨fun heq => (by cases heq), fun hheld => absurd hheld.1 ?_⟩
          exact fun hheld => (not_reusable h).mpr hheld (.inr ⟨_, hcurrent, hexpired⟩)
        · rw [if_neg hexpired, ih]
          exact ⟨fun hrest => ⟨⟨_, hcurrent, UInt64.not_le.mp hexpired⟩, hrest⟩, And.right⟩

theorem storeAt_checked (h : t.storeAt p index record getrandom = .ok t') :
    record.check = .ok record := by
  unfold StateTable.storeAt StateSlot.store at h
  cases hchecked : Record.fromWords record.words with
  | error e =>
    rw [hchecked] at h
    cases h
  | ok r => exact check_ok hchecked

theorem insert_checked (h : t.insert p record now getrandom = .ok t') :
    record.check = .ok record := by
  unfold StateTable.insert at h
  split at h
  · cases h
  · cases h
  · exact storeAt_checked h

theorem storeAt_ne_stateFull (hp : p.crypto.Ideal) :
    t.storeAt p index record getrandom ≠ .error .stateFull := by
  intro h
  by_cases hchecked : record.check = .ok record
  · rcases storeAt_error hp hchecked h with herror | ⟨herror, -⟩ <;> cases herror
  · have hinvalid : record.check = .error .policyUnavailable := by
      unfold Record.check at hchecked ⊢
      split
      · rfl
      · rename_i hvalid
        exact absurd (if_neg hvalid) hchecked
    unfold StateTable.storeAt StateSlot.store at h
    rw [Record.fromWords_words, hinvalid] at h
    cases h

def inserted (record : Record) (now : UInt64) (nonce : Option Nonce) : List TableAct :=
  .insert record now nonce :: (replicate bankWords .word ++ [.commit])

theorem insert_stateFull (hp : p.crypto.Ideal) (h : StateInv p t) :
    t.insert p record now getrandom = .error .stateFull ↔
      ∀ i ∈ probePath t.capacity record.key, t.Held p now i := by
  rw [← reusableIn_none h]
  unfold StateTable.insert
  constructor
  · intro hfull
    split at hfull
    · rename_i e hreusable
      obtain rfl := Except.error.inj hfull
      exact absurd hreusable (reusableIn_ne_error h)
    · assumption
    · exact absurd hfull (storeAt_ne_stateFull hp)
  · intro hnone
    rw [hnone]

/-- An insertion fails with a full table exactly if every slot is held, under the condition that its way
passes every slot, or one that it can take, or that there is none that it could take. -/
theorem insert_stateFull_iff (hp : p.crypto.Ideal) (h : StateInv p t) :
    (t.insert p record now getrandom = .error .stateFull ↔ ∀ i < t.capacity, t.Held p now i) ↔
      (t.capacity ∣ 2 ^ 64 ∨ record.key.first.toNat + t.capacity ≤ 2 ^ 64) ∨
        (∃ i ∈ probePath t.capacity record.key, t.Reusable p now i) ∨
          ∀ i < t.capacity, ¬t.Reusable p now i := by
  rw [insert_stateFull hp h]
  constructor
  · intro hexact
    by_cases hpath : ∀ i ∈ probePath t.capacity record.key, t.Held p now i
    · exact .inr (.inr fun i hi => (not_reusable h).mpr (hexact.mp hpath i hi))
    · obtain ⟨i, hi, hheld⟩ : ∃ i ∈ probePath t.capacity record.key, ¬t.Held p now i := by
        by_contra hnone
        exact hpath fun i hi => by_contra fun hheld => hnone ⟨i, hi, hheld⟩
      exact .inr (.inl ⟨i, hi, by_contra fun hnot => hheld ((not_reusable h).mp hnot)⟩)
  · rintro hwhen
    refine ⟨fun hpath i hi => ?_, fun hall i hi => hall i (probePath_lt t hi)⟩
    rcases hwhen with hprobes | ⟨j, hj, hreusable⟩ | hnone
    · exact hpath i (probePath_all t.capacity_pos hprobes i hi)
    · exact absurd hreusable ((not_reusable h).mpr (hpath j hj))
    · exact (not_reusable h).mp (hnone i hi)

/-- Every key is in one slot at most, no free slot is before it on its way, and it is found. -/
structure Complete (p : RecordProtection) (t : StateTable) : Prop where
  unique : ∀ i j r r', t.current p i = some r → t.current p j = some r' → r.key = r'.key → i = j
  chained : ∀ i r, t.current p i = some r → ∃ before after,
    probePath t.capacity r.key = before ++ i :: after ∧ ∀ j ∈ before, (t.slots j).revision ≠ 0
  found : ∀ i r, t.current p i = some r →
    ∃ s, t.find p r.key = .ok (some s) ∧ s.index = i ∧ s.record = r

theorem StateInv.complete (h : StateInv p t) : Complete p t where
  unique i j r r' hr hr' hkey :=
    h.probed.unique i j r'.key (key_iff.mpr ⟨r, hr, hkey⟩) (key_iff.mpr ⟨r', hr', rfl⟩)
  chained i r hr := by
    obtain ⟨before, after, hpath, hbefore⟩ := h.probed.reaches i r.key (key_iff.mpr ⟨r, hr, rfl⟩)
    refine ⟨before, after, hpath, fun j hj hempty => ?_⟩
    have hpass := hbefore j hj
    rw [current_none hempty] at hpass
    cases hpass
  found _ _ hr := h.find_some hr

/-- In every state that insertions and replacements lead to, with any lookups beside them, every key is
found in its one slot; a lookup returns what was there while it was under way; an insertion takes a free
or expired slot; and it fails on a full table alone exactly if its way passes every slot, or one that it
can take, or there is none that it could take. -/
theorem auth_table_complete (hp : p.crypto.Ideal) (capacity : Nat) (h : 0 < capacity)
    (acts : List TableAct) :
    let w := (TableWorld.zeroed capacity h).run p acts
    let t := w.table
    Complete p t ∧ (∀ a ∈ w.answers, a.Explained) ∧
      (∀ reader key, w.readers reader = .idle →
        ∃ n, (w.run p (.lookup reader key :: replicate n (.step reader))).answers =
          ⟨key, (t.find p key).map (Option.map Snapshot.record), [t.current p]⟩ :: w.answers) ∧
      ∀ record now getrandom,
        (∀ t', t.insert p record now getrandom = .ok t' → ∃ index < t.capacity,
          t.Reusable p now index ∧ Stores p t t' index record) ∧
        ((t.insert p record now getrandom = .error .stateFull ↔ ∀ i < t.capacity, t.Held p now i) ↔
          (t.capacity ∣ 2 ^ 64 ∨ record.key.first.toNat + t.capacity ≤ 2 ^ 64) ∨
            (∃ i ∈ probePath t.capacity record.key, t.Reusable p now i) ∨
              ∀ i < t.capacity, ¬t.Reusable p now i) := by
  intro w t
  have hinv : LookupInv p w := (zeroed_inv p capacity h).run hp acts
  refine ⟨hinv.state.complete, hinv.answers, fun reader key hidle => ?_, fun record now getrandom =>
    ⟨fun t' hinsert => ?_, insert_stateFull_iff hp hinv.state⟩⟩
  · let begun : TableWorld := { w with
      readers := update w.readers reader (.looking key 0)
      since := update w.since reader [t.current p] }
    have hbegun : w.act p (.lookup reader key) = begun := by
      unfold TableWorld.act
      dsimp only
      rw [hidle]
    have hlooking : begun.readers reader = .looking key 0 := update_self ..
    obtain ⟨n, hn⟩ := looks_up (w := begun) hinv.state t.capacity (Nat.zero_add _) hlooking
    refine ⟨n, ?_⟩
    change ((w.act p (.lookup reader key)).run p _).answers = _
    have hpath : (range' 0 t.capacity).map (probeSlot t.capacity key) = probePath t.capacity key := by
      rw [← range_eq_range']
      rfl
    rw [hbegun, hn]
    change ⟨key, (findIn p t key ((range' 0 t.capacity).map (probeSlot t.capacity key))).map _,
      update w.since reader [t.current p] reader⟩ :: w.answers = _
    rw [hpath, update_self]
    rfl
  · obtain ⟨index, hlt, hstores, htaken⟩ := insert_ok hp (insert_checked hinsert) hinsert
    exact ⟨index, hlt, htaken, hstores⟩

def lastKey (second : UInt64) : StoreKey := ⟨UInt64.ofNat (2 ^ 64 - 1), second, 0, 0⟩

def lastRecord (second : UInt64) : Record := ⟨lastKey second, ⟨0, 0, 0, 0⟩, 1, 9, 0, statusSession⟩

def twoHeld : TableWorld :=
  (TableWorld.zeroed 3 (Nat.succ_pos 2)).run ⟨.unprotected, .sample⟩
    (inserted (lastRecord 1) 1 none ++ inserted (lastRecord 2) 1 none)

theorem auth_table_complete_sample :
    let p : RecordProtection := ⟨.unprotected, .sample⟩
    let t := twoHeld.table
    Complete p t ∧ (∀ a ∈ twoHeld.answers, a.Explained) ∧
      (∀ reader key, twoHeld.readers reader = .idle →
        ∃ n, (twoHeld.run p (.lookup reader key :: replicate n (.step reader))).answers =
          ⟨key, (t.find p key).map (Option.map Snapshot.record), [t.current p]⟩ :: twoHeld.answers) ∧
      ∀ record now getrandom,
        (∀ t', t.insert p record now getrandom = .ok t' → ∃ index < t.capacity,
          t.Reusable p now index ∧ Stores p t t' index record) ∧
        ((t.insert p record now getrandom = .error .stateFull ↔ ∀ i < t.capacity, t.Held p now i) ↔
          (t.capacity ∣ 2 ^ 64 ∨ record.key.first.toNat + t.capacity ≤ 2 ^ 64) ∨
            (∃ i ∈ probePath t.capacity record.key, t.Reusable p now i) ∨
              ∀ i < t.capacity, ¬t.Reusable p now i) :=
  auth_table_complete StateCrypto.sample_ideal 3 (Nat.succ_pos 2)
    (inserted (lastRecord 1) 1 none ++ inserted (lastRecord 2) 1 none)

/-- The way of a third key comes back to the first slot instead of the last one, which is free. -/
theorem wrapped_probe_misses_slot :
    let p : RecordProtection := ⟨.unprotected, .sample⟩
    twoHeld.table.find p (lastKey 3) = .ok none ∧
      ¬(twoHeld.table.insert p (lastRecord 3) 1 (fun _ _ => none) = .error .stateFull ↔
        ∀ i < twoHeld.table.capacity, twoHeld.table.Held p 1 i) := by
  intro p
  have hfind : twoHeld.table.find p (lastKey 3) = .ok none := rfl
  have hinsert : twoHeld.table.insert p (lastRecord 3) 1 (fun _ _ => none) = .error .stateFull := rfl
  have hfree : (twoHeld.table.slots 2).revision = 0 := rfl
  refine ⟨hfind, fun hexact => ?_⟩
  obtain ⟨r, hr, -⟩ := hexact.mp hinsert 2 (by decide)
  rw [current_none hfree] at hr
  cases hr

end OrbitAuth
