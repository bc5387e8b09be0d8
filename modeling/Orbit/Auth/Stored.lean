import Orbit.Auth.Table

/-! What is stored is read back. -/

namespace OrbitAuth

open List Function

variable {p : RecordProtection} {index revision : Nat} {record : Record} {nonce : Option Nonce}
  {wire : List UInt64} {s s' : StateSlot} {t t' : StateTable} {getrandom : Randomness}

theorem Record.fromWords_words (r : Record) : Record.fromWords r.words = r.check := rfl

theorem Record.words_length (r : Record) : r.words.length = recordWords := rfl

theorem Nonce.words_length (n : Nonce) : n.words.length = 3 := rfl

/-- The cipher takes every message of the length of a record, gives it back, and keeps lengths. -/
structure StateCrypto.Ideal (crypto : StateCrypto) : Prop where
  encrypts : ∀ nonce data words, ∃ text tag, crypto.encrypt nonce data words = some (text, tag)
  decrypts : ∀ nonce data words text tag, crypto.encrypt nonce data words = some (text, tag) →
    crypto.decrypt nonce data text tag = some words
  lengths : ∀ nonce data words text tag, crypto.encrypt nonce data words = some (text, tag) →
    text.length = words.length ∧ tag.length = 2

theorem overwritten_wire (bank : Nat → UInt64) (h : wire.length = bankWords) :
    (range bankWords).map (overwritten bank wire) = wire := by
  refine ext_getElem (by rw [length_map, length_range, h]) fun i hi hi' => ?_
  rw [getElem_map, getElem_range, overwritten, getD_eq_getElem?_getD,
    getElem?_eq_getElem hi', Option.getD_some]

theorem encode_decode (hp : p.crypto.Ideal) (hrecord : record.check = .ok record)
    (h : p.encode index revision record nonce = .ok wire) :
    wire.length = bankWords ∧ p.decode index revision wire = .ok record := by
  unfold RecordProtection.encode at h
  unfold RecordProtection.decode
  cases hpolicy : p.policy with
  | blake3 =>
    rw [hpolicy] at h
    obtain rfl := Except.ok.inj h
    refine ⟨rfl, ?_⟩
    dsimp only
    rw [if_neg]
    · exact hrecord
    · rintro (hne | hrest)
      · exact hne rfl
      · cases hrest
  | unprotected =>
    rw [hpolicy] at h
    obtain rfl := Except.ok.inj h
    exact ⟨rfl, hrecord⟩
  | encrypted =>
    rw [hpolicy] at h
    cases nonce with
    | none => cases h
    | some nonce =>
      obtain ⟨text, tag, hencrypt⟩ :=
        hp.encrypts nonce.words (p.context index revision) record.words
      dsimp only at h
      rw [hencrypt] at h
      obtain rfl := Except.ok.inj h
      obtain ⟨htext, htag⟩ := hp.lengths _ _ _ _ _ hencrypt
      have hlength : text.length = 12 := htext.trans record.words_length
      have htake : (nonce.words ++ text ++ tag).take 3 = nonce.words := by
        rw [append_assoc]
        exact take_left' nonce.words_length
      have hdrop : (nonce.words ++ text ++ tag).drop 3 = text ++ tag := by
        rw [append_assoc]
        exact drop_left' nonce.words_length
      have hrest : (nonce.words ++ text ++ tag).drop 15 = tag := by
        refine drop_left' ?_
        rw [length_append, nonce.words_length, hlength]
      constructor
      · rw [length_append, length_append, nonce.words_length, hlength, htag]
        rfl
      · dsimp only
        rw [htake, hdrop, hrest, take_left' hlength, hp.decrypts _ _ _ _ _ hencrypt]
        exact hrecord

theorem encode_error (hp : p.crypto.Ideal) {e : Error}
    (h : p.encode index revision record nonce = .error e) : e = .randomness := by
  unfold RecordProtection.encode at h
  split at h
  · cases h
  · split at h
    · exact (Except.error.inj h).symm
    · rename_i nonce
      obtain ⟨text, tag, hencrypt⟩ :=
        hp.encrypts nonce.words (p.context index revision) record.words
      rw [hencrypt] at h
      cases h
  · cases h

/-- The revision of the slot is the last one there is. -/
def StateSlot.Exhausted (s : StateSlot) : Prop := 2 ^ 64 ≤ s.revision + 1

theorem store_ok (hp : p.crypto.Ideal) (hrecord : record.check = .ok record)
    (h : s.store p record index nonce = .ok s') :
    ∃ wire, s'.revision = s.revision + 1 ∧
      s'.read p index = .ok (some ⟨index, s.revision + 1, record, wire⟩) := by
  unfold StateSlot.store at h
  rw [Record.fromWords_words, hrecord] at h
  change (if 2 ^ 64 ≤ s.revision + 1 then _ else _) = _ at h
  split at h
  · cases h
  cases hencode : p.encode index (s.revision + 1) record nonce with
  | error e =>
    rw [hencode] at h
    cases h
  | ok wire =>
    rw [hencode] at h
    obtain rfl := Except.ok.inj h
    obtain ⟨hlength, hdecode⟩ := encode_decode hp hrecord hencode
    refine ⟨wire, rfl, ?_⟩
    have hwire : StateSlot.wire ⟨s.revision + 1, update s.banks ((s.revision + 1) &&& 1)
        (overwritten (s.banks ((s.revision + 1) &&& 1)) wire)⟩ (s.revision + 1) = wire :=
      (congrArg (map · (range bankWords)) (update_self ..)).trans
        (overwritten_wire _ hlength)
    rw [StateSlot.read, if_neg (Nat.succ_ne_zero _), hwire, hdecode]
    rfl

theorem store_error (hp : p.crypto.Ideal) (hrecord : record.check = .ok record) {e : Error}
    (h : s.store p record index nonce = .error e) :
    e = .randomness ∨ e = .policyUnavailable ∧ s.Exhausted := by
  unfold StateSlot.store at h
  rw [Record.fromWords_words, hrecord] at h
  change (if 2 ^ 64 ≤ s.revision + 1 then _ else _) = _ at h
  split at h
  · rename_i hexhausted
    exact .inr ⟨(Except.error.inj h).symm, hexhausted⟩
  cases hencode : p.encode index (s.revision + 1) record nonce with
  | error e' =>
    rw [hencode] at h
    obtain rfl := Except.error.inj h
    exact .inl (encode_error hp hencode)
  | ok wire =>
    rw [hencode] at h
    cases h

def StateTable.current (p : RecordProtection) (t : StateTable) (index : Nat) : Option Record :=
  match (t.slots index).read p index with
  | .ok (some snapshot) => some snapshot.record
  | _ => none

theorem current_of_read {snapshot : Snapshot}
    (h : (t.slots index).read p index = .ok (some snapshot)) :
    t.current p index = some snapshot.record := by
  rw [StateTable.current, h]

theorem read_of_current (h : t.current p index = some record) :
    ∃ snapshot, (t.slots index).read p index = .ok (some snapshot) ∧ snapshot.record = record := by
  unfold StateTable.current at h
  split at h
  · rename_i snapshot hread
    exact ⟨snapshot, hread, Option.some.inj h⟩
  · cases h

theorem read_index {snapshot : Snapshot} (h : s.read p index = .ok (some snapshot)) :
    snapshot.index = index := by
  unfold StateSlot.read at h
  split at h
  · cases h
  · cases hdecode : p.decode index s.revision (s.wire s.revision) with
    | error e =>
      rw [hdecode] at h
      cases h
    | ok record =>
      rw [hdecode] at h
      rw [← Option.some.inj (Except.ok.inj h)]

theorem read_empty (h : s.read p index = .ok none) : s.revision = 0 := by
  unfold StateSlot.read at h
  split at h
  · assumption
  · cases hdecode : p.decode index s.revision (s.wire s.revision) with
    | error e =>
      rw [hdecode] at h
      cases h
    | ok record =>
      rw [hdecode] at h
      cases h

theorem setSlot_self (t : StateTable) (index : Nat) (s : StateSlot) :
    (t.setSlot index s).slots index = s :=
  update_self ..

theorem setSlot_other {i : Nat} (t : StateTable) (s : StateSlot) (h : i ≠ index) :
    (t.setSlot index s).slots i = t.slots i :=
  update_of_ne h ..

/-- What a store into a slot has done. -/
structure Stores (p : RecordProtection) (t t' : StateTable) (index : Nat) (record : Record) : Prop where
  capacity : t'.capacity = t.capacity
  stored : t'.current p index = some record
  others : ∀ i, i ≠ index → t'.slots i = t.slots i

theorem storeAt_ok (hp : p.crypto.Ideal) (hrecord : record.check = .ok record)
    (h : t.storeAt p index record getrandom = .ok t') : Stores p t t' index record := by
  unfold StateTable.storeAt at h
  cases hstore : (t.slots index).store p record index (getrandom index (t.slots index).revision) with
  | error e =>
    rw [hstore] at h
    cases h
  | ok s =>
    rw [hstore] at h
    obtain rfl := Except.ok.inj h
    obtain ⟨wire, -, hread⟩ := store_ok hp hrecord hstore
    rw [← setSlot_self t index s] at hread
    exact ⟨rfl, current_of_read hread, fun i hi => setSlot_other t s hi⟩

theorem storeAt_error (hp : p.crypto.Ideal) (hrecord : record.check = .ok record) {e : Error}
    (h : t.storeAt p index record getrandom = .error e) :
    e = .randomness ∨ e = .policyUnavailable ∧ (t.slots index).Exhausted := by
  unfold StateTable.storeAt at h
  cases hstore : (t.slots index).store p record index (getrandom index (t.slots index).revision) with
  | error e' =>
    rw [hstore] at h
    obtain rfl := Except.error.inj h
    exact store_error hp hrecord hstore
  | ok s =>
    rw [hstore] at h
    cases h

theorem probePath_lt (t : StateTable) {key : StoreKey} (h : index ∈ probePath t.capacity key) :
    index < t.capacity := by
  obtain ⟨offset, -, rfl⟩ := mem_map.mp h
  exact Nat.mod_lt _ t.capacity_pos

theorem reusableIn_some {now : UInt64} {path : List Nat}
    (h : reusableIn p t now path = .ok (some index)) :
    ∃ before after, path = before ++ index :: after ∧
      (∀ i ∈ before, ∃ old, t.current p i = some old ∧ now < old.expiresAt) ∧
      ((t.slots index).revision = 0 ∨
        ∃ old, t.current p index = some old ∧ old.expiresAt ≤ now) := by
  induction path with
  | nil => cases h
  | cons first rest ih =>
    rw [reusableIn] at h
    split at h
    · cases h
    · rename_i hread
      obtain rfl := Option.some.inj (Except.ok.inj h)
      exact ⟨[], rest, rfl, fun _ h => absurd h not_mem_nil, .inl (read_empty hread)⟩
    · rename_i old hread
      have hcurrent := current_of_read hread
      split at h
      · rename_i hexpired
        obtain rfl := Option.some.inj (Except.ok.inj h)
        exact ⟨[], rest, rfl, fun _ h => absurd h not_mem_nil, .inr ⟨_, hcurrent, hexpired⟩⟩
      · rename_i hlive
        obtain ⟨before, after, rfl, hbefore, hindex⟩ := ih h
        refine ⟨first :: before, after, rfl, fun i hi => ?_, hindex⟩
        rcases mem_cons.mp hi with rfl | hi
        · exact ⟨_, hcurrent, UInt64.not_le.mp hlive⟩
        · exact hbefore i hi

end OrbitAuth
