import Orbit.Auth.Acceptance
import Orbit.Auth.Sessions
import Orbit.Auth.Stored
import Mathlib.Data.Finset.Card
import Mathlib.Data.Finset.Sort

/-! The limit on the sessions of a subject: a new one is admitted in a free or expired slot, the oldest
beyond the limit are revoked, and nothing else changes. -/

namespace OrbitAuth

variable {p : RecordProtection} {t t' : StateTable} {getrandom : Randomness} {subject : Mac}
  {now : UInt64} {record : Record} {limit : ℕ+}

def Record.Live (r : Record) (subject : Mac) (now : UInt64) : Prop :=
  r.status = statusSession ∧ r.subject = subject ∧ r.createdAt ≤ now ∧ now < r.expiresAt

instance (r : Record) (subject : Mac) (now : UInt64) : Decidable (r.Live subject now) :=
  inferInstanceAs (Decidable (_ ∧ _))

def StateTable.live (p : RecordProtection) (t : StateTable) (subject : Mac) (now : UInt64) :
    Finset Nat :=
  (Finset.range t.capacity).filter fun index =>
    (t.current p index).any fun r => r.Live subject now

theorem mem_live {index : Nat} : index ∈ t.live p subject now ↔
    index < t.capacity ∧ ∃ r, t.current p index = some r ∧ r.Live subject now := by
  rw [StateTable.live, Finset.mem_filter, Finset.mem_range, Option.any_eq_true]
  simp only [decide_eq_true_eq]

/-- The snapshots are those of the live sessions among the slots. -/
structure Listed (p : RecordProtection) (t : StateTable) (subject : Mac) (now : UInt64)
    (indices : List Nat) (live : List Snapshot) : Prop where
  read : ∀ s ∈ live, (t.slots s.index).read p s.index = .ok (some s) ∧ s.record.Live subject now
  order : (live.map Snapshot.index).Sublist indices
  complete : ∀ index ∈ indices, ∀ r, t.current p index = some r → r.Live subject now →
    index ∈ live.map Snapshot.index

theorem sessionsIn_listed {indices : List Nat} {live : List Snapshot}
    (h : sessionsIn p t subject now indices = .ok live) : Listed p t subject now indices live := by
  induction indices generalizing live with
  | nil =>
    obtain rfl := Except.ok.inj h
    exact ⟨fun _ h => absurd h List.not_mem_nil, .slnil, fun _ h => absurd h List.not_mem_nil⟩
  | cons index rest ih =>
    -- a slot that is left out is one of no live session
    have hskip : sessionsIn p t subject now rest = .ok live →
        (∀ r, t.current p index = some r → ¬r.Live subject now) →
        Listed p t subject now (index :: rest) live := by
      intro hrest hnone
      obtain ⟨hread, horder, hcomplete⟩ := ih hrest
      refine ⟨hread, horder.cons index, fun i hi r hr hlive => ?_⟩
      rcases List.mem_cons.mp hi with rfl | hi
      · exact absurd hlive (hnone r hr)
      · exact hcomplete i hi r hr hlive
    rw [sessionsIn] at h
    split at h
    · cases h
    · rename_i hread
      refine hskip h fun r hr => ?_
      obtain ⟨snapshot, hread', -⟩ := read_of_current hr
      rw [hread] at hread'
      cases hread'
    · rename_i snapshot hread
      have hcurrent := current_of_read hread
      split at h
      · rename_i hmatch
        split at h
        · cases h
        · rename_i hcreated
          cases hrest : sessionsIn p t subject now rest with
          | error e =>
            rw [hrest] at h
            cases h
          | ok others =>
            rw [hrest] at h
            obtain rfl := Except.ok.inj h
            obtain ⟨hreads, horder, hcomplete⟩ := ih hrest
            have hindex := read_index hread
            refine ⟨fun s hs => ?_, ?_, fun i hi r hr hlive => ?_⟩
            · rcases List.mem_cons.mp hs with rfl | hs
              · rw [hindex]
                exact ⟨hread, hmatch.1, hmatch.2.1, UInt64.not_lt.mp hcreated, hmatch.2.2⟩
              · exact hreads s hs
            · rw [List.map_cons, hindex]
              exact horder.cons_cons index
            · rw [List.map_cons, hindex]
              rcases List.mem_cons.mp hi with rfl | hi
              · exact List.mem_cons_self
              · exact List.mem_cons_of_mem _ (hcomplete i hi r hr hlive)
      · rename_i hmatch
        refine hskip h fun r hr hlive => hmatch ?_
        rw [hcurrent] at hr
        obtain rfl := Option.some.inj hr
        exact ⟨hlive.1, hlive.2.1, hlive.2.2.2⟩

theorem Listed.live {live : List Snapshot} (h : Listed p t subject now (List.range t.capacity) live) :
    (live.map Snapshot.index).Nodup ∧ (live.map Snapshot.index).toFinset = t.live p subject now := by
  refine ⟨h.order.nodup List.nodup_range, Finset.ext fun index => ?_⟩
  rw [List.mem_toFinset, mem_live]
  constructor
  · intro hmem
    obtain ⟨s, hs, rfl⟩ := List.mem_map.mp hmem
    obtain ⟨hread, hlive⟩ := h.read s hs
    exact ⟨List.mem_range.mp (h.order.subset hmem), s.record, current_of_read hread, hlive⟩
  · rintro ⟨hlt, r, hr, hlive⟩
    exact h.complete index (List.mem_range.mpr hlt) r hr hlive

def Record.asRevoked (r : Record) : Record := { r with status := statusRevoked }

theorem revoked_ne_session : statusRevoked ≠ statusSession := by decide

theorem revoked_ne_consumed : statusRevoked ≠ statusConsumed := by decide

theorem asRevoked_check {r : Record} (h : r.check = .ok r) : r.asRevoked.check = .ok r.asRevoked := by
  unfold Record.check at h ⊢
  split at h
  · cases h
  · rename_i hvalid
    rw [not_or, not_or] at hvalid
    rw [if_neg]
    rintro (⟨-, hne, -⟩ | htimes | hconsumed)
    · exact hne rfl
    · exact hvalid.2.1 htimes
    · exact revoked_ne_consumed hconsumed.1

theorem check_self {words : List UInt64} (h : Record.fromWords words = .ok record) :
    record.check = .ok record := by
  unfold Record.fromWords at h
  split at h
  · unfold Record.check at h ⊢
    split at h
    · cases h
    · rename_i hvalid
      obtain rfl := Except.ok.inj h
      exact if_neg hvalid
  · cases h

theorem decode_check {index revision : Nat} {wire : List UInt64}
    (h : p.decode index revision wire = .ok record) : record.check = .ok record := by
  unfold RecordProtection.decode at h
  split at h
  · split at h
    · cases h
    · exact check_self h
  · split at h
    · cases h
    · exact check_self h
  · split at h
    · cases h
    · exact check_self h

theorem read_check {index : Nat} {s : StateSlot} {snapshot : Snapshot}
    (h : s.read p index = .ok (some snapshot)) : snapshot.record.check = .ok snapshot.record := by
  unfold StateSlot.read at h
  split at h
  · cases h
  · cases hdecode : p.decode index s.revision (s.wire s.revision) with
    | error e =>
      rw [hdecode] at h
      cases h
    | ok record =>
      rw [hdecode] at h
      obtain rfl := Option.some.inj (Except.ok.inj h)
      exact decode_check hdecode

/-- What the revocation of sessions has done. -/
structure Revokes (p : RecordProtection) (t t' : StateTable) (sessions : List Snapshot) : Prop where
  capacity : t'.capacity = t.capacity
  revoked : ∀ s ∈ sessions, t'.current p s.index = some s.record.asRevoked
  others : ∀ i, i ∉ sessions.map Snapshot.index → t'.slots i = t.slots i

theorem revokeEach_spec (getrandom : Randomness) (hp : p.crypto.Ideal) {sessions : List Snapshot}
    (hread : ∀ s ∈ sessions, (t.slots s.index).read p s.index = .ok (some s) ∧
      s.record.status = statusSession) (hnodup : (sessions.map Snapshot.index).Nodup) :
    ((t.revokeEach p getrandom sessions).2 = .ok () →
      Revokes p t (t.revokeEach p getrandom sessions).1 sessions) ∧
    ∀ e, (t.revokeEach p getrandom sessions).2 = .error e → e = .randomness ∨
      e = .policyUnavailable ∧ ∃ s ∈ sessions, (t.slots s.index).Exhausted := by
  induction sessions generalizing t with
  | nil => exact ⟨fun _ => ⟨rfl, fun _ h => absurd h List.not_mem_nil, fun _ _ => rfl⟩,
      fun _ h => by cases h⟩
  | cons session rest ih =>
    obtain ⟨hfirst, -⟩ := hread session List.mem_cons_self
    have hcheck := asRevoked_check (read_check hfirst)
    rw [List.map_cons, List.nodup_cons] at hnodup
    rw [StateTable.revokeEach]
    split
    · rename_i e hstore
      refine ⟨fun h => (by cases h), fun e' h => ?_⟩
      obtain rfl := Except.error.inj h
      exact (storeAt_error hp hcheck hstore).imp_right fun ⟨heq, hexhausted⟩ =>
        ⟨heq, session, List.mem_cons_self, hexhausted⟩
    · rename_i t₁ hstore
      have hstores := storeAt_ok hp hcheck hstore
      have hne : ∀ s ∈ rest, s.index ≠ session.index := fun s hs heq =>
        hnodup.1 (heq ▸ List.mem_map_of_mem hs)
      have hread' : ∀ s ∈ rest, (t₁.slots s.index).read p s.index = .ok (some s) ∧
          s.record.status = statusSession := fun s hs => by
        rw [hstores.others s.index (hne s hs)]
        exact hread s (List.mem_cons_of_mem _ hs)
      obtain ⟨hok, herror⟩ := ih (t := t₁) hread' hnodup.2
      refine ⟨fun h => ?_, fun e h => ?_⟩
      · obtain ⟨hcapacity, hrevoked, hothers⟩ := hok h
        refine ⟨hcapacity.trans hstores.capacity, fun s hs => ?_, fun i hi => ?_⟩
        · rcases List.mem_cons.mp hs with rfl | hs
          · rw [StateTable.current, hothers s.index hnodup.1, ← StateTable.current]
            exact hstores.stored
          · exact hrevoked s hs
        · rw [List.map_cons, List.mem_cons, not_or] at hi
          rw [hothers i hi.2, hstores.others i hi.1]
      · rcases herror e h with hrandom | ⟨heq, s, hs, hexhausted⟩
        · exact .inl hrandom
        · rw [hstores.others s.index (hne s hs)] at hexhausted
          exact .inr ⟨heq, s, List.mem_cons_of_mem _ hs, hexhausted⟩

def remaining (live : List Snapshot) (limit : ℕ+) : List Snapshot :=
  (live.mergeSort Snapshot.goesBefore).drop (live.length - ((limit : Nat) - 1))

theorem excess_append_remaining (live : List Snapshot) (limit : ℕ+) :
    (excess live limit ++ remaining live limit).Perm live := by
  rw [excess, remaining, List.take_append_drop]
  exact List.mergeSort_perm live Snapshot.goesBefore

/-- A new session has been admitted, within the limit. -/
structure Limited (p : RecordProtection) (t t' : StateTable) (record : Record) (now : UInt64)
    (limit : ℕ+) (index : Nat) (kept : Finset Nat) : Prop where
  lt : index < t.capacity
  taken : (t.slots index).revision = 0 ∨
    ∃ old, t.current p index = some old ∧ old.expiresAt ≤ now
  stored : t'.current p index = some record
  subset : kept ⊆ t.live p record.subject now
  card : kept.card = min ((limit : Nat) - 1) (t.live p record.subject now).card
  latest : ∀ i ∈ kept, ∀ j ∈ t.live p record.subject now \ kept, ∃ r r',
    t.current p i = some r ∧ t.current p j = some r' ∧
      (r'.createdAt < r.createdAt ∨ r'.createdAt = r.createdAt ∧ j < i)
  live : t'.live p record.subject now = insert index kept
  revoked : ∀ j ∈ t.live p record.subject now \ kept, ∃ old, t.current p j = some old ∧
    t'.current p j = some old.asRevoked
  others : ∀ i, i ≠ index → i ∉ t.live p record.subject now \ kept → t'.slots i = t.slots i

theorem insert_ok (hp : p.crypto.Ideal) (hrecord : record.check = .ok record)
    (h : t.insert p record now getrandom = .ok t') : ∃ index < t.capacity,
      Stores p t t' index record ∧ ((t.slots index).revision = 0 ∨
        ∃ old, t.current p index = some old ∧ old.expiresAt ≤ now) := by
  unfold StateTable.insert at h
  split at h
  · cases h
  · cases h
  · rename_i index hreusable
    obtain ⟨before, after, hpath, -, htaken⟩ := reusableIn_some hreusable
    have hmem : index ∈ probePath t.capacity record.key := by
      rw [hpath]
      exact List.mem_append_right _ List.mem_cons_self
    exact ⟨index, probePath_lt t hmem, storeAt_ok hp hrecord h, htaken⟩

theorem not_live_of_taken {index : Nat} (htaken : (t.slots index).revision = 0 ∨
    ∃ old, t.current p index = some old ∧ old.expiresAt ≤ now) :
    index ∉ t.live p subject now := by
  intro hmem
  obtain ⟨-, r, hr, hlive⟩ := mem_live.mp hmem
  rcases htaken with hempty | ⟨old, hold, hexpired⟩
  · obtain ⟨snapshot, hread, -⟩ := read_of_current hr
    rw [StateSlot.read, if_pos hempty] at hread
    cases hread
  · rw [hold] at hr
    obtain rfl := Option.some.inj hr
    exact absurd hlive.2.2.2 (UInt64.not_lt.mpr hexpired)

section admission

variable {t₁ : StateTable} {index : Nat} {live : List Snapshot}

end admission

def FleetAuth.newSession (auth : FleetAuth) (id : Vector UInt8 16) (subject : Label)
    (now expiresAt : UInt64) : Record :=
  ⟨auth.sessionKey id, auth.subjectTag subject, now, expiresAt, 0, statusSession⟩

def StateCrypto.sample : StateCrypto where
  tag _ _ := ⟨0, 0, 0, 0⟩
  encrypt _ _ words := some (words, [0, 0])
  decrypt _ _ text _ := some text

theorem StateCrypto.sample_ideal : StateCrypto.sample.Ideal where
  encrypts _ _ words := ⟨words, [0, 0], rfl⟩
  decrypts _ _ words text tag h := by
    cases h
    rfl
  lengths _ _ words text tag h := by
    cases h
    exact ⟨rfl, rfl⟩

def FleetAuth.sample : FleetAuth where
  crypto := ⟨fun _ data => data, fun _ name => ⟨(name.getLastD 0).toUInt64, 0, 0, 0⟩⟩
  stateKey := []
  protection := ⟨.unprotected, .sample⟩
  realm := .sample
  issuer := .sample

def StateTable.sample : StateTable := ⟨2, Nat.succ_pos 1, fun _ => .empty⟩

end OrbitAuth
