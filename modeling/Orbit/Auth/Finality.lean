import Orbit.Auth.Fleet
import Orbit.Auth.Probes

/-! A session that is revoked stays so, a generation is refreshed once and a token is consumed once, and a
view that a handle has kept answers as the table does. -/

namespace OrbitAuth

open Orbit.Table Function

variable {p : RecordProtection} {t t' : StateTable} {index : Nat} {old record : Record}
  {getrandom : Randomness} {now : UInt64} {name : Option StoreKey}

/-! ### Stores -/

theorem storeAt_revision (hp : p.crypto.Ideal) (h : t.storeAt p index record getrandom = .ok t') :
    (t'.slots index).revision = (t.slots index).revision + 1 := by
  have hrecord := storeAt_checked h
  unfold StateTable.storeAt at h
  cases hstore : (t.slots index).store p record index (getrandom index (t.slots index).revision) with
  | error e =>
    rw [hstore] at h
    cases h
  | ok s =>
    rw [hstore] at h
    obtain rfl := Except.ok.inj h
    obtain ⟨-, hrevision, -⟩ := store_ok hp hrecord hstore
    rw [setSlot_self, hrevision]

theorem Stores.current (h : Stores p t t' index record) :
    t'.current p = update (t.current p) index (some record) := by
  funext i
  by_cases hi : i = index
  · subst hi
    rw [update_self, h.stored]
  · rw [update_of_ne hi, StateTable.current, StateTable.current, h.others i hi]

theorem StateInv.stores (hs : StateInv p t) (h : Stores p t t' index record)
    (hentitled : (∃ old, t.current p index = some old ∧ old.key = record.key) ∨
      Absent (t.current p) record.key ∧
        Reaches (probing t.capacity) (t.current p) (probePath t.capacity record.key) index) :
    StateInv p t' where
  readable i hi := by
    by_cases hindex : i = index
    · subst hindex
      obtain ⟨s, hread, -⟩ := read_of_current h.stored
      exact ⟨s, hread⟩
    · rw [h.others i hindex] at hi ⊢
      exact hs.readable i hi
  probed := by
    rw [h.current, h.capacity]
    rcases hentitled with ⟨old, hold, hkey⟩ | ⟨habsent, hreaches⟩
    · exact hs.probed.rewrite (key_iff.mpr ⟨old, hold, hkey⟩) rfl
    · refine hs.probed.insert rfl (fun j hj => ?_) hreaches
      obtain ⟨r, hr, hrkey⟩ := key_iff.mp hj
      exact habsent j r hr hrkey

/-! ### What becomes of a record -/

/-- A record has been replaced by one that goes on from it. -/
structure Record.Continues (r r' : Record) : Prop where
  key : r'.key = r.key
  subject : r'.subject = r.subject
  createdAt : r'.createdAt = r.createdAt
  expiresAt : r.expiresAt ≤ r'.expiresAt
  generation : r.generation ≤ r'.generation
  status : r'.status = r.status ∨ r.status = statusSession ∧ r'.status = statusRevoked

theorem Record.Continues.refl (r : Record) : r.Continues r :=
  ⟨rfl, rfl, rfl, UInt64.le_refl _, UInt64.le_refl _, .inl rfl⟩

theorem Record.Continues.trans {r r' r'' : Record} (h : r.Continues r') (h' : r'.Continues r'') :
    r.Continues r'' := by
  refine ⟨h'.key.trans h.key, h'.subject.trans h.subject, h'.createdAt.trans h.createdAt,
    UInt64.le_trans h.expiresAt h'.expiresAt, UInt64.le_trans h.generation h'.generation, ?_⟩
  rcases h.status with hsame | ⟨hsession, hrevoked⟩
  · rw [← hsame]
    exact h'.status
  · rcases h'.status with hsame | ⟨hsession', -⟩
    · exact .inr ⟨hsession, hsame.trans hrevoked⟩
    · rw [hrevoked] at hsession'
      exact absurd hsession' revoked_ne_session

/-- What a call at this time does to the table, when it may insert a record of this name. -/
structure Turns (p : RecordProtection) (name : Option StoreKey) (now : UInt64) (t t' : StateTable) :
    Prop where
  inv : StateInv p t'
  capacity : t'.capacity = t.capacity
  slot : ∀ i, t'.slots i = t.slots i ∨ (t.slots i).revision < (t'.slots i).revision
  goes : ∀ i r, t.current p i = some r →
    (∃ r', t'.current p i = some r' ∧ r.Continues r') ∨ r.expiresAt ≤ now
  comes : ∀ i r', t'.current p i = some r' →
    (∃ r, t.current p i = some r ∧ r.Continues r') ∨ name = some r'.key

namespace Turns

theorem refl (hs : StateInv p t) : Turns p name now t t :=
  ⟨hs, rfl, fun _ => .inl rfl, fun _ r hr => .inl ⟨r, hr, .refl r⟩, fun _ r hr => .inl ⟨r, hr, .refl r⟩⟩

theorem trans {t'' : StateTable} (h : Turns p name now t t') (h' : Turns p name now t' t'') :
    Turns p name now t t'' := by
  refine ⟨h'.inv, h'.capacity.trans h.capacity, fun i => ?_, fun i r hr => ?_, fun i r'' hr'' => ?_⟩
  · rcases h.slot i with hsame | hlt
    · rw [← hsame]
      exact h'.slot i
    · rcases h'.slot i with hsame | hlt'
      · rw [hsame]
        exact .inr hlt
      · exact .inr (hlt.trans hlt')
  · rcases h.goes i r hr with ⟨r', hr', hcont⟩ | hexpired
    · exact (h'.goes i r' hr').imp (fun ⟨r'', hr'', hcont'⟩ => ⟨r'', hr'', hcont.trans hcont'⟩)
        (UInt64.le_trans hcont.expiresAt)
    · exact .inr hexpired
  · rcases h'.comes i r'' hr'' with ⟨r', hr', hcont'⟩ | hname
    · refine (h.comes i r' hr').imp (fun ⟨r, hr, hcont⟩ => ⟨r, hr, hcont.trans hcont'⟩) fun hname => ?_
      rw [hname, hcont'.key]
    · exact .inr hname

theorem of_stores (hp : p.crypto.Ideal)
    (h : t.storeAt p index record getrandom = .ok t') (hinv : StateInv p t')
    (hgoes : ∀ r, t.current p index = some r → r.Continues record ∨ r.expiresAt ≤ now)
    (hcomes : (∃ r, t.current p index = some r ∧ r.Continues record) ∨ name = some record.key) :
    Turns p name now t t' := by
  have hstores := storeAt_ok hp (storeAt_checked h) h
  refine ⟨hinv, hstores.capacity, fun i => ?_, fun i r hr => ?_, fun i r' hr' => ?_⟩
  · by_cases hi : i = index
    · subst hi
      exact .inr (by rw [storeAt_revision hp h]; omega)
    · exact .inl (hstores.others i hi)
  · by_cases hi : i = index
    · subst hi
      exact (hgoes r hr).imp_left fun hcont => ⟨record, hstores.stored, hcont⟩
    · rw [hstores.current, update_of_ne hi]
      exact .inl ⟨r, hr, .refl r⟩
  · by_cases hi : i = index
    · subst hi
      rw [hstores.stored] at hr'
      obtain rfl := Option.some.inj hr'
      exact hcomes
    · rw [hstores.current, update_of_ne hi] at hr'
      exact .inl ⟨r', hr', .refl r'⟩

theorem stores (hs : StateInv p t) (hp : p.crypto.Ideal)
    (h : t.storeAt p index record getrandom = .ok t') (hold : t.current p index = some old)
    (hcont : old.Continues record) : Turns p name now t t' := by
  refine of_stores hp h (hs.stores (storeAt_ok hp (storeAt_checked h) h)
    (.inl ⟨old, hold, hcont.key.symm⟩)) (fun r hr => ?_) (.inl ⟨old, hold, hcont⟩)
  rw [hold] at hr
  obtain rfl := Option.some.inj hr
  exact .inl hcont

theorem inserts (hs : StateInv p t) (hp : p.crypto.Ideal)
    (hnone : t.find p record.key = .ok none) (h : t.insert p record now getrandom = .ok t') :
    Turns p (some record.key) now t t' := by
  unfold StateTable.insert at h
  split at h
  · cases h
  · cases h
  · rename_i index hreusable
    obtain ⟨before, after, hpath, hbefore, hfree⟩ := reusableIn_some hreusable
    refine of_stores hp h (hs.stores (storeAt_ok hp (storeAt_checked h) h)
      (.inr ⟨hs.find_none hnone, before, after, hpath, fun j hj => ?_⟩)) (fun r hr => .inr ?_)
        (.inr rfl)
    · obtain ⟨old, hold, -⟩ := hbefore j hj
      rw [hold]
      rfl
    · rcases hfree with hempty | ⟨old, hold, hexpired⟩
      · rw [current_none hempty] at hr
        cases hr
      · rw [hr] at hold
        obtain rfl := Option.some.inj hold
        exact hexpired

end Turns

/-! ### What each call does -/

theorem write_turns {α : Type} {locks : Bool} {f : StateTable → StateTable × Result α}
    (hs : StateInv p t) (h : Turns p name now t (f t).1) : Turns p name now t (t.write locks f).1 := by
  unfold StateTable.write
  split
  · exact h
  · exact .refl hs

theorem rewrite_turns {key : StoreKey} {next : Record → Result (Record × Bool)} (hs : StateInv p t)
    (hp : p.crypto.Ideal) (hnext : ∀ r r' stored, next r = .ok (r', stored) → r.Continues r') :
    Turns p name now t (t.rewrite p key getrandom next).1 := by
  unfold StateTable.rewrite
  rcases hs.find_spec key with ⟨hfind, -⟩ | ⟨s, hfind, hcurrent, -⟩ <;> rw [hfind] <;> dsimp only
  · exact .refl hs
  · split
    · exact .refl hs
    · exact .refl hs
    · rename_i record hrecord
      split
      · exact .refl hs
      · exact .stores hs hp ‹_› hcurrent (hnext _ _ _ hrecord)

theorem checkLive_ok {r : Record} (h : r.checkLive now = .ok ()) : r.status = statusSession := by
  simp only [Record.checkLive, ite_error_eq_ok, ne_eq, not_not] at h
  exact h.2.1

theorem checkMetadata_ok {r : Record} {principal : Principal}
    (h : r.checkMetadata principal now = .ok ()) : r.status = statusSession ∧
      ∀ binding, principal.session = some binding → principal.claims.purpose = .refresh →
        binding.generation = r.generation := by
  obtain ⟨⟨⟩, hlive, hrest⟩ := bind_eq_ok.mp h
  refine ⟨checkLive_ok hlive, fun binding hbinding hpurpose => ?_⟩
  obtain ⟨-, hrest⟩ := ite_error_eq_ok.mp hrest
  rw [hbinding] at hrest
  obtain ⟨hcurrent, -⟩ := ite_error_eq_ok.mp hrest
  exact by_contra fun hne => hcurrent ⟨hpurpose, hne⟩

theorem checkRecord_ok {r : Record} {subject : Mac} {principal : Principal}
    (h : r.checkRecord subject principal now = .ok ()) :
    r.subject = subject ∧ r.checkMetadata principal now = .ok () := by
  obtain ⟨hsubject, hrest⟩ := ite_error_eq_ok.mp h
  exact ⟨not_not.mp hsubject, hrest⟩

theorem revoked_continues {r r' : Record} {stored : Bool} (h : r.revoked now = .ok (r', stored)) :
    r.Continues r' ∧ r'.status = statusRevoked ∧ stored = true := by
  obtain ⟨hstatus, h⟩ := ite_error_eq_ok.mp h
  obtain ⟨-, h⟩ := ite_error_eq_ok.mp h
  cases h
  refine ⟨⟨rfl, rfl, rfl, UInt64.le_refl _, UInt64.le_refl _, ?_⟩, rfl, rfl⟩
  by_cases hsession : r.status = statusSession
  · exact .inr ⟨hsession, rfl⟩
  · exact .inl (by_contra fun hne => hstatus ⟨hsession, fun heq => hne heq.symm⟩)

theorem extended_continues {subject : Mac} {expiresAt : UInt64} {r r' : Record} {stored : Bool}
    (h : r.extended subject now expiresAt = .ok (r', stored)) :
    r.Continues r' ∧ r.status = statusSession := by
  obtain ⟨-, h⟩ := ite_error_eq_ok.mp h
  obtain ⟨⟨⟩, hlive, h⟩ := bind_eq_ok.mp h
  obtain ⟨hlonger, h⟩ := ite_error_eq_ok.mp h
  cases h
  exact ⟨⟨rfl, rfl, rfl, UInt64.not_lt.mp hlonger, UInt64.le_refl _, .inl rfl⟩, checkLive_ok hlive⟩

theorem refreshed_continues {subject : Mac} {principal : Principal} {expiresAt : UInt64}
    {r r' : Record} {stored : Bool}
    (h : r.refreshed subject principal now expiresAt = .ok (r', stored)) :
    r.Continues r' ∧ r.generation < r'.generation ∧ stored = true ∧
      r.checkMetadata principal now = .ok () := by
  obtain ⟨⟨⟩, hcheck, h⟩ := bind_eq_ok.mp h
  obtain ⟨hlonger, h⟩ := ite_error_eq_ok.mp h
  split at h
  · rename_i hroom
    cases h
    have hlt : r.generation < r.generation + 1 := by
      rw [UInt64.lt_iff_toNat_lt, UInt64.toNat_add, UInt64.toNat_one]
      omega
    exact ⟨⟨rfl, rfl, rfl, UInt64.not_lt.mp hlonger, UInt64.le_of_lt hlt, .inl rfl⟩, hlt, rfl,
      (checkRecord_ok hcheck).2⟩
  · cases h

/-- Sessions of different slots that are where they were when they were listed. -/
structure Kept (p : RecordProtection) (t : StateTable) (sessions : List Snapshot) : Prop where
  current : ∀ s ∈ sessions, t.current p s.index = some s.record ∧ s.record.status = statusSession
  nodup : (sessions.map Snapshot.index).Nodup

theorem Kept.tail {s : Snapshot} {rest : List Snapshot} (h : Kept p t (s :: rest))
    (hstores : Stores p t t' s.index record) : Kept p t' rest := by
  obtain ⟨hne, hnodup⟩ := List.nodup_cons.mp h.nodup
  refine ⟨fun s' hs' => ?_, hnodup⟩
  have hother : s'.index ≠ s.index := fun heq => hne (heq ▸ List.mem_map_of_mem hs')
  rw [hstores.current, update_of_ne hother]
  exact h.current s' (List.mem_cons_of_mem _ hs')

theorem revokeEach_turns (hp : p.crypto.Ideal) {sessions : List Snapshot} (hs : StateInv p t)
    (h : Kept p t sessions) : Turns p name now t (t.revokeEach p getrandom sessions).1 := by
  induction sessions generalizing t with
  | nil => exact .refl hs
  | cons s rest ih =>
    rw [StateTable.revokeEach]
    split
    · exact .refl hs
    · rename_i t₁ hstore
      obtain ⟨hcurrent, hstatus⟩ := h.current s List.mem_cons_self
      have hturns : Turns p name now t t₁ := .stores hs hp hstore hcurrent
        ⟨rfl, rfl, rfl, UInt64.le_refl _, UInt64.le_refl _, .inr ⟨hstatus, rfl⟩⟩
      exact hturns.trans (ih hturns.inv (h.tail (storeAt_ok hp (storeAt_checked hstore) hstore)))

theorem extendEach_turns (hp : p.crypto.Ideal) {targets : List (Snapshot × UInt64)}
    (hs : StateInv p t) (h : Kept p t (targets.map Prod.fst)) :
    Turns p name now t (t.extendEach p getrandom targets).1 := by
  induction targets generalizing t with
  | nil => exact .refl hs
  | cons target rest ih =>
    obtain ⟨s, target⟩ := target
    rw [List.map_cons] at h
    rw [StateTable.extendEach]
    split
    · rename_i hlonger
      split
      · exact .refl hs
      · rename_i t₁ hstore
        have hturns : Turns p name now t t₁ := .stores hs hp hstore
          (h.current s List.mem_cons_self).1
          ⟨rfl, rfl, rfl, UInt64.le_of_lt hlonger, UInt64.le_refl _, .inl rfl⟩
        exact hturns.trans (ih hturns.inv (h.tail (storeAt_ok hp (storeAt_checked hstore) hstore)))
    · exact ih hs ⟨fun s' hs' => h.current s' (List.mem_cons_of_mem _ hs'),
        (List.nodup_cons.mp h.nodup).2⟩

theorem subjectSessions_kept {subject : Mac} {live : List Snapshot}
    (h : t.subjectSessions p subject now = .ok live) : Kept p t live := by
  have hlisted := sessionsIn_listed h
  refine ⟨fun s hs => ?_, hlisted.live.1⟩
  obtain ⟨hread, hlive⟩ := hlisted.read s hs
  exact ⟨current_of_read hread, hlive.1⟩

theorem createLocked_turns (hp : p.crypto.Ideal) (hs : StateInv p t) (record : Record)
    (limit : Option ℕ+) :
    Turns p (some record.key) now t (t.createLocked p record now limit getrandom).1 := by
  unfold StateTable.createLocked
  split
  · exact .refl hs
  · exact .refl hs
  rename_i hnone
  split
  · exact .refl hs
  rename_i live hsessions
  split
  · exact .refl hs
  rename_i t₁ hinsert
  have hturns := Turns.inserts hs hp hnone hinsert
  cases limit with
  | none => exact hturns
  | some limit =>
    refine hturns.trans (revokeEach_turns hp hturns.inv ?_)
    have hkept := subjectSessions_kept (p := p) hsessions
    have hperm := (excess_append_remaining live limit).map Snapshot.index
    rw [List.map_append] at hperm
    refine ⟨fun s hs' => ?_, (List.nodup_append'.mp (hperm.nodup_iff.mpr hkept.nodup)).1⟩
    have hmem : s ∈ live :=
      (excess_append_remaining live limit).mem_iff.mp (List.mem_append_left _ hs')
    obtain ⟨index, -, hstores, htaken⟩ := insert_ok hp (insert_checked hinsert) hinsert
    obtain ⟨hread, hlive⟩ := (sessionsIn_listed hsessions).read s hmem
    have hin : s.index ∈ t.live p record.subject now :=
      mem_live.mpr ⟨List.mem_range.mp ((sessionsIn_listed hsessions).order.subset
        (List.mem_map_of_mem hmem)), s.record, current_of_read hread, hlive⟩
    rw [hstores.current, update_of_ne]
    · exact hkept.current s hmem
    · -- the slot that was taken is of no live session
      rintro heq
      exact not_live_of_taken htaken (heq ▸ hin)

/-! ### Runs -/

section

variable {Key : Type} (crypto : Crypto Key) {auth : FleetAuth} {w : AuthWorld}

theorem act_turns (hp : auth.protection.crypto.Ideal) (hs : StateInv auth.protection w.table)
    (c : AuthCall Key) :
    Turns auth.protection (c.draws auth) c.now w.table (w.act crypto auth c).table := by
  cases c with
  | create subject now expiresAt limit id locks getrandom =>
    simp only [AuthWorld.act, FleetAuth.create]
    split
    · rename_i hvalid
      cases id with
      | none => exact .refl hs
      | some id =>
        dsimp only
        split
        · exact createLocked_turns hp hs (auth.newSession id ⟨subject, hvalid.1⟩ now expiresAt) limit
        · exact .refl hs
    · exact .refl hs
  | revoke id now locks getrandom =>
    exact write_turns hs (rewrite_turns hs hp fun _ _ _ h => (revoked_continues h).1)
  | revokeSubject subject now locks getrandom =>
    simp only [AuthWorld.act, FleetAuth.revokeSubjectSessions]
    split
    · refine write_turns hs ?_
      split
      · exact .refl hs
      · exact revokeEach_turns hp hs (subjectSessions_kept ‹_›)
    · exact .refl hs
  | extend id subject now expiresAt locks getrandom =>
    simp only [AuthWorld.act, FleetAuth.extendSession]
    split
    · exact write_turns hs (rewrite_turns hs hp fun _ _ _ h => (extended_continues h).1)
    · exact .refl hs
  | extendSubject subject now horizon locks getrandom =>
    simp only [AuthWorld.act, FleetAuth.extendSubjectSessions]
    split
    · refine write_turns hs ?_
      (repeat' split) <;> try exact .refl hs
      refine extendEach_turns hp hs ?_
      rw [List.map_map, show Prod.fst ∘ _ = id from rfl, List.map_id]
      exact subjectSessions_kept ‹_›
    · exact .refl hs
  | refresh validator token now expiresAt hook locks getrandom =>
    simp only [AuthWorld.act, FleetAuth.refresh]
    (repeat' split) <;> try exact .refl hs
    exact write_turns hs (rewrite_turns hs hp fun _ _ _ h => (refreshed_continues h).1)
  | consume principal now locks getrandom =>
    simp only [AuthWorld.act, FleetAuth.consume]
    split
    · exact .refl hs
    refine write_turns hs ?_
    (repeat' split) <;> try exact .refl hs
    rename_i hnone _ _ hinsert
    exact .inserts hs hp hnone hinsert
  | check handle lapsed principal now =>
    simp only [AuthWorld.act]
    split <;> exact .refl hs
  | forgets handle id => exact .refl hs

theorem find_read {key : StoreKey} {s : Snapshot} (h : t.find p key = .ok (some s)) :
    (t.slots s.index).read p s.index = .ok (some s) := by
  rw [StateTable.find] at h
  generalize probePath t.capacity key = path at h
  induction path with
  | nil => cases h
  | cons first rest ih =>
    rw [findIn] at h
    split at h
    · cases h
    · cases h
    · rename_i hread
      split at h
      · cases h
        rw [read_index hread]
        exact hread
      · exact ih h

theorem read_revision {slot : StateSlot} {s : Snapshot} (h : slot.read p index = .ok (some s)) :
    s.revision = slot.revision := by
  unfold StateSlot.read at h
  split at h
  · cases h
  · cases hdecode : p.decode index slot.revision (slot.wire slot.revision) with
    | error e =>
      rw [hdecode] at h
      cases h
    | ok record =>
      rw [hdecode] at h
      cases h
      rfl

/-- A snapshot of the table as it is or was, which says so as long as the revision is the same. -/
structure Seen (p : RecordProtection) (t : StateTable) (key : StoreKey) (s : Snapshot) : Prop where
  key : s.record.key = key
  revision : s.revision ≤ (t.slots s.index).revision
  current : (t.slots s.index).revision = s.revision → t.current p s.index = some s.record

theorem Seen.turns {key : StoreKey} {s : Snapshot} (h : Seen p t key s)
    (hturns : Turns p name now t t') : Seen p t' key s := by
  rcases hturns.slot s.index with hsame | hlt
  · exact ⟨h.key, by rw [hsame]; exact h.revision, fun heq => by
      rw [hsame] at heq
      rw [StateTable.current, hsame]
      exact h.current heq⟩
  · have hle := h.revision
    exact ⟨h.key, by omega, fun heq => by omega⟩

theorem find_seen {key : StoreKey} {s : Snapshot} (hs : StateInv p t)
    (h : t.find p key = .ok (some s)) : Seen p t key s ∧ t.current p s.index = some s.record := by
  rcases hs.find_spec key with ⟨hnone, -⟩ | ⟨s', hfind, hcurrent, hkey⟩
  · rw [h] at hnone
    cases hnone
  · rw [h] at hfind
    cases hfind
    exact ⟨⟨hkey, Nat.le_of_eq (read_revision (find_read h)), fun _ => hcurrent⟩, hcurrent⟩

theorem unchanged_revision {s : Snapshot} (h : t.unchanged p s = true) :
    (t.slots s.index).revision = s.revision := by
  unfold StateTable.unchanged at h
  split at h
  · split at h
    · exact of_decide_eq_true h
    · simp only [Bool.and_eq_true, decide_eq_true_eq] at h
      exact h.1.2
    · simp only [Bool.and_eq_true, decide_eq_true_eq] at h
      exact h.1.2
  · cases h

/-- A view is of the session and of its subject. -/
structure Viewed (auth : FleetAuth) (t : StateTable) (id : Vector UInt8 16) (v : SessionView) : Prop where
  seen : Seen auth.protection t (auth.sessionKey id) v.snapshot
  subject : ∃ label : Label, label.value = v.subject ∧ v.snapshot.record.subject = auth.subjectTag label

structure AuthInv (auth : FleetAuth) (w : AuthWorld) : Prop where
  state : StateInv auth.protection w.table
  views : ∀ place v, w.views place = some v → Viewed auth w.table place.2 v

variable {view : Option SessionView} {id : Vector UInt8 16} {principal : Shaped}

theorem check_viewed {lapsed : Bool} (hs : StateInv auth.protection t)
    (h : ∀ v, view = some v → Viewed auth t id v) {v : SessionView}
    (hv : (auth.check lapsed t view id principal now).2 = some v) : Viewed auth t id v := by
  have hfound : (auth.checkFound t id principal now).2 = some v → Viewed auth t id v := by
    unfold FleetAuth.checkFound
    split
    · exact fun hv => (by cases hv)
    · exact fun hv => (by cases hv)
    rename_i snapshot hfind
    split
    · exact fun hv => (by cases hv)
    · rename_i hcheck
      intro hv
      cases hv
      exact ⟨(find_seen hs hfind).1, principal.subject, rfl, (checkRecord_ok hcheck).1⟩
  unfold FleetAuth.check at hv
  split at hv
  · exact h v hv
  unfold FleetAuth.checkSession at hv
  split at hv
  · split at hv
    · split at hv
      · exact h v hv
      · exact h v hv
    · exact hfound hv
  · exact hfound hv

theorem AuthInv.act (h : AuthInv auth w) (hp : auth.protection.crypto.Ideal) (c : AuthCall Key) :
    AuthInv auth (w.act crypto auth c) := by
  have hturns := act_turns crypto hp h.state c
  have hviews : ∀ place v, w.views place = some v →
      Viewed auth (w.act crypto auth c).table place.2 v := fun place v hv =>
    ⟨(h.views place v hv).seen.turns hturns, (h.views place v hv).subject⟩
  refine ⟨hturns.inv, ?_⟩
  cases c with
  | check handle lapsed principal now =>
    simp only [AuthWorld.act]
    split
    · exact h.views
    · rename_i binding _
      intro place v hv
      dsimp only at hv
      by_cases hplace : place = (handle, binding.id)
      · subst hplace
        rw [update_self] at hv
        exact check_viewed h.state (h.views _) hv
      · rw [update_of_ne hplace] at hv
        exact h.views place v hv
  | forgets handle id =>
    intro place v hv
    simp only [AuthWorld.act] at hv
    by_cases hplace : place = (handle, id)
    · subst hplace
      rw [update_self] at hv
      cases hv
    · rw [update_of_ne hplace] at hv
      exact h.views place v hv
  | _ => exact hviews

theorem run_holds {I : AuthWorld → Prop} {C : AuthCall Key → Prop}
    (hstep : ∀ w c, I w → C c → I (w.act crypto auth c)) (hw : I w) {calls : List (AuthCall Key)}
    (hok : ∀ c ∈ calls, C c) : I (w.run crypto auth calls) := by
  induction calls generalizing w with
  | nil => exact hw
  | cons c rest ih =>
    obtain ⟨hc, hrest⟩ := List.forall_mem_cons.mp hok
    exact ih (hstep w c hw hc) hrest

theorem run_inv (hp : auth.protection.crypto.Ideal) (capacity : Nat) (h : 0 < capacity)
    (calls : List (AuthCall Key)) :
    AuthInv auth ((AuthWorld.zeroed capacity h).run crypto auth calls) :=
  run_holds crypto (C := fun _ => True) (fun _ c hw _ => hw.act crypto hp c)
    ⟨(zeroed_inv auth.protection capacity h).state, fun _ _ hv => by cases hv⟩ fun _ _ => trivial

/-! ### One session -/

def sessionId : Vector UInt8 16 := .replicate 16 7

/-- A refresh token of the first generation of the session. -/
def Shaped.sample : Shaped where
  realm := "api"
  issuer := "api"
  jti := .replicate 16 3
  session := some ⟨sessionId, 0⟩
  claims := { Claims.sample with subject := "api", purpose := .refresh }
  shape := by decide +kernel

/-- Whatever is decrypted is this token. -/
def Crypto.one : Crypto Unit where
  derive _ _ := ()
  encrypt _ _ _ text := some text
  decrypt _ _ _ _ := some []
  toJson _ := some []
  fromJson _ := some Shaped.sample.toPrincipal

def Validator.one : Validator Unit := ⟨.sample, .sample, ⟨.sample, .refresh, ∅⟩, [(0, ())]⟩

def Token.one : List UInt8 := tokenPrefix ++ Orbit.Base64.encode (.replicate 44 0)

/-- The session is created, and the token is checked by a handle. -/
def entered : List (AuthCall Unit) :=
  [.create "api" 1 9 none (some sessionId) true fun _ _ => none, .check 0 false .sample 2]

def AuthWorld.two : AuthWorld := .zeroed 2 Nat.two_pos

/-! ### What is final -/

theorem write_ok {α : Type} {locks : Bool} {f : StateTable → StateTable × Result α} {a : α}
    (h : (t.write locks f).2 = .ok a) : t.write locks f = f t := by
  cases locks with
  | true => rfl
  | false => cases h

theorem map_ok {α β : Type} {x : Result α} {f : α → β} {b : β} (h : x.map f = .ok b) :
    ∃ a, x = .ok a ∧ f a = b := by
  cases x with
  | error e => cases h
  | ok a => exact ⟨a, rfl, Except.ok.inj h⟩

theorem ok_of_isSome {α : Type} {x : Result α} (h : x.toOption.isSome = true) : ∃ a, x = .ok a := by
  cases x with
  | error e => cases h
  | ok a => exact ⟨a, rfl⟩

theorem rewrite_ok {key : StoreKey} {next : Record → Result (Record × Bool)} {r' : Record}
    (hs : StateInv p t) (hp : p.crypto.Ideal) (h : (t.rewrite p key getrandom next).2 = .ok r') :
    ∃ i r stored, t.current p i = some r ∧ r.key = key ∧ next r = .ok (r', stored) ∧
      (stored = true → (t.rewrite p key getrandom next).1.current p i = some r') := by
  unfold StateTable.rewrite at h ⊢
  rcases hs.find_spec key with ⟨hfind, -⟩ | ⟨s, hfind, hcurrent, hkey⟩ <;> rw [hfind] at h ⊢ <;>
    dsimp only at h ⊢
  · cases h
  split at h
  · cases h
  · rename_i hnext
    cases h
    exact ⟨s.index, s.record, false, hcurrent, hkey, hnext, fun h => by cases h⟩
  · rename_i hnext
    split at h
    · cases h
    · rename_i t₁ hstore
      cases h
      exact ⟨s.index, s.record, true, hcurrent, hkey, hnext, fun _ =>
        (storeAt_ok hp (storeAt_checked hstore) hstore).stored⟩

/-- Every record of the key is like this. -/
def All (p : RecordProtection) (t : StateTable) (key : StoreKey) (holds : Record → Prop) : Prop :=
  ∀ i r, t.current p i = some r → r.key = key → holds r

theorem All.of_current {key : StoreKey} {holds : Record → Prop} {i : Nat} {r : Record}
    (hs : StateInv p t) (hr : t.current p i = some r) (hkey : r.key = key) (h : holds r) :
    All p t key holds := by
  intro j r' hr' hkey'
  obtain rfl := hs.complete.unique j i r' r hr' hr (hkey'.trans hkey.symm)
  rw [hr] at hr'
  exact Option.some.inj hr' ▸ h

/-- What records go on with is so of every record of the key, until one is inserted. -/
theorem All.run {key : StoreKey} {holds : Record → Prop} (hp : auth.protection.crypto.Ideal)
    (hw : AuthInv auth w) (h : All auth.protection w.table key holds)
    (hholds : ∀ r r', holds r → r.Continues r' → holds r') {calls : List (AuthCall Key)}
    (hdraws : ∀ c ∈ calls, c.draws auth ≠ some key) :
    AuthInv auth (w.run crypto auth calls) ∧
      All auth.protection (w.run crypto auth calls).table key holds := by
  refine run_holds crypto (I := fun w => AuthInv auth w ∧ All auth.protection w.table key holds)
    (fun w c ⟨hw, h⟩ hc => ⟨hw.act crypto hp c, fun i r' hr' hkey => ?_⟩) ⟨hw, h⟩ hdraws
  rcases (act_turns crypto hp hw.state c).comes i r' hr' with ⟨r, hr, hcont⟩ | hname
  · exact hholds r r' (h i r hr (hcont.key.symm.trans hkey)) hcont
  · rw [hkey] at hname
    exact absurd hname hc

/-- A record lives on until the clock of a call has come to its expiry. -/
theorem AuthInv.lives {i : Nat} {r : Record} (hw : AuthInv auth w) (hp : auth.protection.crypto.Ideal)
    (hr : w.table.current auth.protection i = some r) {calls : List (AuthCall Key)}
    (hclock : ∀ c ∈ calls, c.now < r.expiresAt) :
    AuthInv auth (w.run crypto auth calls) ∧
      ∃ r', (w.run crypto auth calls).table.current auth.protection i = some r' ∧ r.Continues r' := by
  refine run_holds crypto (I := fun w => AuthInv auth w ∧
    ∃ r', w.table.current auth.protection i = some r' ∧ r.Continues r')
    (fun w c ⟨hw, r', hr', hcont⟩ hc => ⟨hw.act crypto hp c, ?_⟩) ⟨hw, r, hr, .refl r⟩ hclock
  rcases (act_turns crypto hp hw.state c).goes i r' hr' with ⟨r'', hr'', hcont'⟩ | hexpired
  · exact ⟨r'', hr'', hcont.trans hcont'⟩
  · exact absurd (UInt64.lt_of_lt_of_le hc hcont.expiresAt) (UInt64.not_lt.mpr hexpired)

theorem AuthWorld.run_append (first second : List (AuthCall Key)) :
    w.run crypto auth (first ++ second) = (w.run crypto auth first).run crypto auth second :=
  List.foldl_append

def Revoked (r : Record) : Prop := r.status = statusRevoked

theorem check_revoked {handle : Nat} {lapsed : Bool} (hw : AuthInv auth w)
    (h : All auth.protection w.table (auth.sessionKey id) Revoked) :
    (auth.check lapsed w.table (w.views (handle, id)) id principal now).1 ≠ .ok () := by
  have hmetadata : ∀ i r, w.table.current auth.protection i = some r → r.key = auth.sessionKey id →
      r.checkMetadata principal.toPrincipal now ≠ .ok () := fun i r hr hkey hcheck =>
    revoked_ne_session ((h i r hr hkey).symm.trans (checkMetadata_ok hcheck).1)
  have hfound : (auth.checkFound w.table id principal now).1 ≠ .ok () := by
    unfold FleetAuth.checkFound
    split
    · exact fun h => (by cases h)
    · exact fun h => (by cases h)
    rename_i s hfind
    split
    · exact fun h => (by cases h)
    · rename_i hcheck
      obtain ⟨hseen, hcurrent⟩ := find_seen hw.state hfind
      exact absurd (checkRecord_ok hcheck).2 (hmetadata _ _ hcurrent hseen.key)
  unfold FleetAuth.check
  split
  · exact fun h => (by cases h)
  unfold FleetAuth.checkSession
  split
  · rename_i v hview
    split
    · rename_i hunchanged
      have hseen := (hw.views _ v hview).seen
      split
      · exact fun h => (by cases h)
      · exact hmetadata _ _ (hseen.current (unchanged_revision hunchanged)) hseen.key
    · exact hfound
  · exact hfound

theorem session_revoked {subject : String} {session : Session} (hs : StateInv auth.protection t)
    (h : All auth.protection t (auth.sessionKey id) Revoked) :
    auth.session t id subject now ≠ .ok session := by
  unfold FleetAuth.session
  split
  · split
    · exact fun h => (by cases h)
    · exact fun h => (by cases h)
    rename_i s hfind
    split
    · exact fun h => (by cases h)
    · intro hlive
      obtain ⟨⟨⟩, hlive, -⟩ := map_ok hlive
      obtain ⟨hseen, hcurrent⟩ := find_seen hs hfind
      exact revoked_ne_session ((h _ _ hcurrent hseen.key).symm.trans (checkLive_ok hlive))
  · exact fun h => (by cases h)

/-- A rewriting that is for live sessions alone fails for a session that is revoked. -/
theorem rewrite_revoked {key : StoreKey} {next : Record → Result (Record × Bool)} {locks : Bool}
    {r' : Record} (hs : StateInv p t) (hp : p.crypto.Ideal) (h : All p t key Revoked)
    (hnext : ∀ r stored, next r = .ok (r', stored) → r.status = statusSession) :
    (t.write locks (StateTable.rewrite p key getrandom next)).2 ≠ .ok r' := by
  intro hok
  rw [write_ok hok] at hok
  obtain ⟨i, r, stored, hr, hkey, hr', -⟩ := rewrite_ok hs hp hok
  exact revoked_ne_session ((h i r hr hkey).symm.trans (hnext r stored hr'))

theorem refresh_ok {validator : Validator Key} {token : List UInt8} {expiresAt : UInt64} {hook : Hook}
    {locks : Bool} {session : Session}
    (h : (auth.refresh crypto validator token now expiresAt hook locks getrandom t).2 = .ok session) :
    ∃ principal binding subject r', validator.validate crypto token now hook = .ok principal ∧
      principal.claims.purpose = .refresh ∧ principal.session = some binding ∧
      session.binding = ⟨binding.id, r'.generation⟩ ∧
      (t.rewrite auth.protection (auth.sessionKey binding.id) getrandom
        (Record.refreshed subject principal now expiresAt)).2 = .ok r' ∧
      (auth.refresh crypto validator token now expiresAt hook locks getrandom t).1 =
        (t.rewrite auth.protection (auth.sessionKey binding.id) getrandom
          (Record.refreshed subject principal now expiresAt)).1 := by
  unfold FleetAuth.refresh at h ⊢
  by_cases hpurpose : validator.validation.purpose ≠ .refresh
  · rw [if_pos hpurpose] at h
    cases h
  rw [if_neg hpurpose] at h ⊢
  cases hvalidate : validator.validate crypto token now hook with
  | error e =>
    rw [hvalidate] at h
    cases h
  | ok principal =>
    rw [hvalidate] at h
    dsimp only at h ⊢
    cases hsession : principal.session with
    | none =>
      rw [hsession] at h
      cases h
    | some binding =>
      rw [hsession] at h
      dsimp only at h ⊢
      split at h
      · rename_i hshape
        obtain ⟨r', hr', rfl⟩ := map_ok h
        have hwrite := write_ok hr'
        rw [hwrite] at hr'
        refine ⟨principal, binding, _, r', rfl, ?_, hsession, rfl, hr', ?_⟩
        · obtain ⟨opened, -, hrest⟩ := bind_eq_ok.mp hvalidate
          obtain ⟨⟨⟩, hcheck, hrest⟩ := bind_eq_ok.mp hrest
          obtain ⟨⟨⟩, -, hrest⟩ := bind_eq_ok.mp hrest
          cases hrest
          rw [((check_iff hshape).mp hcheck).1.2.2.2]
          exact not_not.mp hpurpose
        · rw [dif_pos hshape, hwrite]
      · cases h

theorem consume_ok {locks : Bool} (hp : auth.protection.crypto.Ideal)
    (h : (auth.consume principal now locks getrandom t).2 = .ok ()) :
    now < principal.claims.expiresAt ∧ t.find auth.protection (auth.replayKey principal.jti) = .ok none ∧
      ∃ i r, (auth.consume principal now locks getrandom t).1.current auth.protection i = some r ∧
        r.key = auth.replayKey principal.jti ∧ r.expiresAt = principal.claims.expiresAt := by
  unfold FleetAuth.consume at h ⊢
  split at h
  · cases h
  rename_i hscope
  obtain ⟨⟨⟩, -, hscope⟩ := bind_eq_ok.mp hscope
  have hwrite := write_ok h
  rw [hwrite] at h ⊢
  split at h
  · cases h
  split at h
  · cases h
  · cases h
  rename_i hnone
  split at h
  · cases h
  · rename_i hinsert
    obtain ⟨i, -, hstores, -⟩ := insert_ok hp (insert_checked hinsert) hinsert
    exact ⟨UInt64.not_le.mp (ite_error_eq_ok.mp hscope).1, hnone, i, _, hstores.stored, rfl, rfl⟩

/-- After a session was revoked, and until its identity is drawn again, no check accepts a principal of
it, whatever view a handle has kept, and it is neither handed out nor extended nor refreshed. -/
theorem revocation_is_final (hp : auth.protection.crypto.Ideal) (capacity : Nat) (h : 0 < capacity)
    (before later : List (AuthCall Key)) (id : Vector UInt8 16) (now : UInt64) (locks : Bool)
    (getrandom : Randomness)
    (hrevoked : (auth.revokeSession id now locks getrandom
      ((AuthWorld.zeroed capacity h).run crypto auth before).table).2 = .ok ())
    (hdraws : ∀ c ∈ later, c.draws auth ≠ some (auth.sessionKey id)) :
    let w := (AuthWorld.zeroed capacity h).run crypto auth
      (before ++ .revoke id now locks getrandom :: later)
    (∀ handle lapsed principal now,
      (auth.check lapsed w.table (w.views (handle, id)) id principal now).1 ≠ .ok ()) ∧
    (∀ subject now session, auth.session w.table id subject now ≠ .ok session) ∧
    (∀ subject now expiresAt locks getrandom session,
      (auth.extendSession id subject now expiresAt locks getrandom w.table).2 ≠ .ok session) ∧
    ∀ validator token now expiresAt hook locks getrandom session,
      (auth.refresh crypto validator token now expiresAt hook locks getrandom w.table).2 =
        .ok session → session.binding.id ≠ id := by
  have hbefore := run_inv crypto hp capacity h before
  obtain ⟨r', hr', -⟩ := map_ok hrevoked
  have hwrite := write_ok hr'
  rw [hwrite] at hr'
  obtain ⟨i, r, stored, -, hkey, hnext, hstored⟩ := rewrite_ok hbefore.state hp hr'
  obtain ⟨hcont, hstatus, rfl⟩ := revoked_continues hnext
  have hact := hbefore.act crypto hp (.revoke id now locks getrandom)
  have hall : All auth.protection (AuthWorld.act crypto auth _ (.revoke id now locks getrandom)).table
      (auth.sessionKey id) Revoked :=
    .of_current hact.state ((congrArg (·.1.current auth.protection i) hwrite).trans (hstored rfl))
      (hcont.key.trans hkey) hstatus
  have hstays : ∀ r r', Revoked r → r.Continues r' → Revoked r' := fun r r' hr hcont =>
    hcont.status.elim (fun hsame => hsame.trans hr) And.right
  rw [AuthWorld.run_append crypto]
  obtain ⟨hw, hall⟩ := hall.run crypto hp hact hstays hdraws
  refine ⟨fun _ _ _ _ => check_revoked hw hall, fun _ _ _ => session_revoked hw.state hall,
    fun subject now expiresAt locks getrandom session => ?_,
    fun validator token now expiresAt hook locks getrandom session hrefresh heq => ?_⟩
  · unfold FleetAuth.extendSession
    split
    · intro hextend
      obtain ⟨r', hr', -⟩ := map_ok hextend
      exact rewrite_revoked hw.state hp hall (fun _ _ h => (extended_continues h).2) hr'
    · exact fun h => (by cases h)
  · obtain ⟨principal, binding, subject, r', -, -, -, hbinding, hr', -⟩ := refresh_ok crypto hrefresh
    rw [hbinding] at heq
    obtain rfl : binding.id = id := heq
    obtain ⟨i, r, stored, hr, hkey, hnext, -⟩ := rewrite_ok hw.state hp hr'
    exact revoked_ne_session ((hall i r hr hkey).symm.trans
      (checkMetadata_ok (refreshed_continues hnext).2.2.2).1)

theorem entered_revocation_is_final :
    let w := AuthWorld.two.run .one .sample (entered ++ [.revoke sessionId 2 true fun _ _ => none])
    (FleetAuth.sample.check false w.table (w.views (0, sessionId)) sessionId .sample 3).1 ≠ .ok () :=
  (revocation_is_final .one StateCrypto.sample_ideal 2 (Nat.succ_pos 1) entered [] sessionId 2 true
    (fun _ _ => none) (by decide +kernel) (by simp)).1 0 false .sample 3

/-- After a session was refreshed, and until its identity is drawn again, it is refreshed by the tokens of
later generations alone: each of its tokens refreshes it once at most. -/
theorem refreshed_once (hp : auth.protection.crypto.Ideal) (capacity : Nat) (h : 0 < capacity)
    (before later : List (AuthCall Key)) {validator : Validator Key} {token : List UInt8}
    {now expiresAt : UInt64} {hook : Hook} {locks : Bool} {getrandom : Randomness} {session : Session}
    (hfirst : (auth.refresh crypto validator token now expiresAt hook locks getrandom
      ((AuthWorld.zeroed capacity h).run crypto auth before).table).2 = .ok session)
    (hdraws : ∀ c ∈ later, c.draws auth ≠ some (auth.sessionKey session.binding.id)) :
    (∃ principal binding, validator.validate crypto token now hook = .ok principal ∧
      principal.session = some binding ∧ binding.id = session.binding.id ∧
        binding.generation < session.binding.generation) ∧
    let w := (AuthWorld.zeroed capacity h).run crypto auth
      (before ++ .refresh validator token now expiresAt hook locks getrandom :: later)
    ∀ validator token now expiresAt hook locks getrandom again,
      (auth.refresh crypto validator token now expiresAt hook locks getrandom w.table).2 = .ok again →
        again.binding.id = session.binding.id →
          ∃ principal binding, validator.validate crypto token now hook = .ok principal ∧
            principal.session = some binding ∧ session.binding.generation ≤ binding.generation := by
  have hbefore := run_inv crypto hp capacity h before
  obtain ⟨principal, binding, subject, r', hvalidate, hpurpose, hsession, hbinding, hr', htable⟩ :=
    refresh_ok crypto hfirst
  obtain ⟨i, r, stored, -, hkey, hnext, hstored⟩ := rewrite_ok hbefore.state hp hr'
  obtain ⟨hcont, hlt, rfl, hcheck⟩ := refreshed_continues hnext
  have hgeneration := (checkMetadata_ok hcheck).2 binding hsession hpurpose
  rw [hbinding] at hdraws ⊢
  refine ⟨⟨principal, binding, hvalidate, hsession, rfl, hgeneration ▸ hlt⟩, ?_⟩
  have hact := hbefore.act crypto hp
    (.refresh validator token now expiresAt hook locks getrandom)
  have hall : All auth.protection (AuthWorld.act crypto auth _
      (.refresh validator token now expiresAt hook locks getrandom)).table
        (auth.sessionKey binding.id) fun r => r'.generation ≤ r.generation :=
    .of_current hact.state ((congrArg (·.current auth.protection i) htable).trans (hstored rfl))
      (hcont.key.trans hkey) (UInt64.le_refl _)
  rw [AuthWorld.run_append crypto]
  obtain ⟨hw, hall⟩ := hall.run crypto hp hact
    (fun r r' hr hcont => UInt64.le_trans hr hcont.generation) hdraws
  intro w validator token now expiresAt hook locks getrandom again hagain hid
  obtain ⟨principal', binding', subject', r₂, hvalidate', hpurpose', hsession', hbinding', hr₂, -⟩ :=
    refresh_ok crypto hagain
  rw [hbinding'] at hid
  obtain ⟨j, r₁, _, hr₁, hkey₁, hnext₁, -⟩ := rewrite_ok hw.state hp hr₂
  refine ⟨principal', binding', hvalidate', hsession', ?_⟩
  rw [(checkMetadata_ok (refreshed_continues hnext₁).2.2.2).2 binding' hsession' hpurpose']
  exact hall j r₁ hr₁ (hkey₁.trans (congrArg auth.sessionKey hid))

theorem entered_refreshed_once : ∃ session,
    (FleetAuth.sample.refresh .one .one Token.one 2 9 (fun _ _ => .ok ()) true (fun _ _ => none)
      (AuthWorld.two.run .one .sample entered).table).2 = .ok session ∧
    ∃ principal binding, Validator.one.validate .one Token.one 2 (fun _ _ => .ok ()) = .ok principal ∧
      principal.session = some binding ∧ binding.id = session.binding.id ∧
        binding.generation < session.binding.generation := by
  have hok : (FleetAuth.sample.refresh .one .one Token.one 2 9 (fun _ _ => .ok ()) true (fun _ _ => none)
      (AuthWorld.two.run .one .sample entered).table).2.toOption.isSome = true := by decide +kernel
  obtain ⟨session, hfirst⟩ := ok_of_isSome hok
  exact ⟨session, hfirst, (refreshed_once .one StateCrypto.sample_ideal 2 (Nat.succ_pos 1) entered []
    hfirst (by simp)).1⟩

/-- In every run a record stays where it is until the clock of a call has come to its expiry, and what
takes its place meanwhile is of the same session and subject, ends no sooner, is of no earlier generation
and is no live session again once it was revoked. -/
theorem record_lives (hp : auth.protection.crypto.Ideal) (capacity : Nat) (h : 0 < capacity)
    (before later : List (AuthCall Key)) (i : Nat) (r : Record)
    (hr : ((AuthWorld.zeroed capacity h).run crypto auth before).table.current auth.protection i =
      some r) (hclock : ∀ c ∈ later, c.now < r.expiresAt) :
    let w := (AuthWorld.zeroed capacity h).run crypto auth (before ++ later)
    ∃ r' s, w.table.current auth.protection i = some r' ∧ r.Continues r' ∧
      w.table.find auth.protection r.key = .ok (some s) ∧ s.index = i ∧ s.record = r' := by
  obtain ⟨hw, r', hr', hcont⟩ :=
    (run_inv crypto hp capacity h before).lives crypto hp hr hclock
  rw [AuthWorld.run_append crypto]
  obtain ⟨s, hfind, hindex, hrecord⟩ := hw.state.find_some hr'
  exact ⟨r', s, hr', hcont, hcont.key ▸ hfind, hindex, hrecord⟩

theorem entered_record_lives :
    let r := FleetAuth.sample.newSession sessionId .sample 1 9
    let w := AuthWorld.two.run .one .sample (entered ++ [.revoke sessionId 2 true fun _ _ => none])
    ∃ r' s, w.table.current FleetAuth.sample.protection 1 = some r' ∧ r.Continues r' ∧
      w.table.find FleetAuth.sample.protection r.key = .ok (some s) ∧ s.index = 1 ∧ s.record = r' :=
  record_lives .one StateCrypto.sample_ideal 2 (Nat.succ_pos 1) entered _ 1 _ (by decide +kernel)
    (by simp [AuthCall.now, FleetAuth.newSession])

/-- A view that a handle has kept answers as the table does, as long as no other subject has the tag of
the principal's own. -/
theorem view_agrees (hp : auth.protection.crypto.Ideal) (capacity : Nat) (h : 0 < capacity)
    (calls : List (AuthCall Key)) (handle : Nat) (lapsed : Bool) (id : Vector UInt8 16)
    (principal : Shaped) (now : UInt64)
    (htag : ∀ label, auth.subjectTag label = auth.subjectTag principal.subject →
      label = principal.subject) :
    let w := (AuthWorld.zeroed capacity h).run crypto auth calls
    (auth.check lapsed w.table (w.views (handle, id)) id principal now).1 =
      (auth.check lapsed w.table none id principal now).1 := by
  intro w
  have hw : AuthInv auth w := run_inv crypto hp capacity h calls
  unfold FleetAuth.check
  split
  · rfl
  cases hview : w.views (handle, id) with
  | none => rfl
  | some v =>
    rw [FleetAuth.checkSession]
    split
    · rename_i hunchanged
      obtain ⟨hseen, label, hlabel, hsubject⟩ := hw.views _ v hview
      obtain ⟨s, hfind, -, hrecord⟩ := hw.state.find_some (hseen.current (unchanged_revision hunchanged))
      rw [hseen.key] at hfind
      rw [FleetAuth.checkSession, FleetAuth.checkFound, hfind]
      dsimp only
      rw [hrecord, Record.checkRecord, hsubject]
      by_cases hsame : v.subject = principal.claims.subject
      · have heq : label = principal.subject := by
          cases label
          exact Label.mk.injEq .. ▸ hlabel.trans hsame
        rw [if_neg (not_not_intro hsame), heq, if_neg (not_not_intro rfl)]
        dsimp only
        split <;> rename_i hcheck <;> rw [hcheck]
      · have hne : auth.subjectTag label ≠ auth.subjectTag principal.subject := fun heq =>
          hsame (hlabel ▸ congrArg Label.value (htag _ heq))
        rw [if_pos hsame, if_pos hne]
    · rfl

/-- No other subject has the tag of one. -/
def FleetAuth.tagging : FleetAuth := { FleetAuth.sample with
  crypto := ⟨fun _ data => data, fun _ name =>
    if name = context [⟨_, subjectName_length⟩, Label.sample.slice] then ⟨1, 0, 0, 0⟩
    else ⟨(name.getLastD 0).toUInt64, 1, 0, 0⟩⟩ }

theorem entered_view_agrees :
    let w := AuthWorld.two.run .one .tagging entered
    (FleetAuth.tagging.check false w.table (w.views (0, sessionId)) sessionId .sample 3).1 =
      (FleetAuth.tagging.check false w.table none sessionId .sample 3).1 := by
  refine view_agrees .one StateCrypto.sample_ideal 2 (Nat.succ_pos 1) entered 0 false sessionId .sample 3
    fun label h => ?_
  have hown : FleetAuth.tagging.subjectTag Shaped.sample.subject = ⟨1, 0, 0, 0⟩ := by
    decide +kernel
  rw [hown] at h
  by_cases hname : context [⟨_, subjectName_length⟩, label.slice] =
      context [⟨_, subjectName_length⟩, Label.sample.slice]
  · have hparts := context_injective hname
    rw [List.cons.injEq, List.cons.injEq] at hparts
    exact Label.slice_injective hparts.2.1
  · have htag : FleetAuth.tagging.subjectTag label = _ := if_neg hname
    rw [htag] at h
    exact absurd (congrArg Mac.second h) (fun heq : (1 : UInt64) = 0 => absurd heq (by decide))

/-- A token that the guard has let through is not let through again, at no time that the clocks of the
calls since then have not passed. -/
theorem consumed_once (hp : auth.protection.crypto.Ideal) (capacity : Nat) (h : 0 < capacity)
    (before later : List (AuthCall Key)) (principal : Shaped) (now now' : UInt64) (locks : Bool)
    (getrandom : Randomness)
    (hfirst : (auth.consume principal now locks getrandom
      ((AuthWorld.zeroed capacity h).run crypto auth before).table).2 = .ok ())
    (hclock : ∀ c ∈ later, c.now ≤ now') :
    let w := (AuthWorld.zeroed capacity h).run crypto auth
      (before ++ .consume principal now locks getrandom :: later)
    ∀ locks getrandom, (auth.consume principal now' locks getrandom w.table).2 ≠ .ok () := by
  obtain ⟨-, -, i, r, hr, hkey, hexpires⟩ := consume_ok hp hfirst
  rw [AuthWorld.run_append crypto]
  intro w locks' getrandom' hagain
  obtain ⟨hbefore, hnone, -⟩ := consume_ok hp hagain
  -- the record of the token has not expired, so it is found
  obtain ⟨hw, r', hr', hcont⟩ := ((run_inv crypto hp capacity h before).act crypto hp
    (.consume principal now locks getrandom)).lives crypto hp hr
      fun c hc => UInt64.lt_of_le_of_lt (hclock c hc) (hexpires ▸ hbefore)
  obtain ⟨s, hfind, -⟩ := hw.state.find_some hr'
  rw [hcont.key, hkey] at hfind
  exact absurd (hfind.symm.trans hnone) (fun h => by cases h)

theorem entered_consumed_once :
    (FleetAuth.sample.consume .sample 3 true (fun _ _ => none)
      (AuthWorld.two.run .one .sample
        (entered ++ [.consume .sample 2 true fun _ _ => none])).table).2 ≠ .ok () :=
  consumed_once .one StateCrypto.sample_ideal 2 (Nat.succ_pos 1) entered [] .sample 2 3 true
    (fun _ _ => none) (by decide +kernel) (by simp) true fun _ _ => none

/-- Whoever revokes the sessions of a subject revokes each one that is live and changes no other record,
and learns how many they were. -/
theorem subject_revoked {subject : String} {locks : Bool} {n : Nat} (hp : auth.protection.crypto.Ideal)
    (h : (auth.revokeSubjectSessions subject now locks getrandom t).2 = .ok n) :
    ∃ valid : validLabel subject = true,
      let live := t.live auth.protection (auth.subjectTag ⟨subject, valid⟩) now
      let t' := (auth.revokeSubjectSessions subject now locks getrandom t).1
      n = live.card ∧ t'.live auth.protection (auth.subjectTag ⟨subject, valid⟩) now = ∅ ∧
        (∀ i ∈ live, ∃ r, t.current auth.protection i = some r ∧
          t'.current auth.protection i = some r.asRevoked) ∧ ∀ i, i ∉ live → t'.slots i = t.slots i := by
  unfold FleetAuth.revokeSubjectSessions at h ⊢
  split at h
  swap
  · cases h
  rename_i hvalid
  rw [dif_pos hvalid]
  have hwrite := write_ok h
  rw [hwrite] at h ⊢
  cases hsessions : t.subjectSessions auth.protection (auth.subjectTag ⟨subject, hvalid⟩) now with
  | error e =>
    rw [hsessions] at h
    cases h
  | ok live =>
    rw [hsessions] at h
    obtain ⟨⟨⟩, hrevoked, rfl⟩ := map_ok h
    have hlisted := sessionsIn_listed hsessions
    obtain ⟨hnodup, hset⟩ := hlisted.live
    obtain ⟨hcapacity, hrevokes, hothers⟩ := (revokeEach_spec getrandom hp (fun s hs =>
      ⟨(hlisted.read s hs).1, (hlisted.read s hs).2.1⟩) hnodup).1 hrevoked
    have hmem : ∀ i, i ∈ t.live auth.protection (auth.subjectTag ⟨subject, hvalid⟩) now ↔
        i ∈ live.map Snapshot.index := fun i => by rw [← hset, List.mem_toFinset]
    refine ⟨hvalid, ?_, Finset.eq_empty_of_forall_notMem fun i hi => ?_, fun i hi => ?_,
      fun i hi => hothers i (mt (hmem i).mpr hi)⟩
    · rw [← hset, List.toFinset_card_of_nodup hnodup, List.length_map]
    · obtain ⟨hlt, r, hr, hlive⟩ := mem_live.mp hi
      by_cases hin : i ∈ live.map Snapshot.index
      · obtain ⟨s, hs, rfl⟩ := List.mem_map.mp hin
        rw [hrevokes s hs] at hr
        obtain rfl := Option.some.inj hr
        exact revoked_ne_session hlive.1
      · rw [StateTable.current, hothers i hin, ← StateTable.current] at hr
        exact hin ((hmem i).mp (mem_live.mpr ⟨hcapacity ▸ hlt, r, hr, hlive⟩))
    · obtain ⟨s, hs, rfl⟩ := List.mem_map.mp ((hmem i).mp hi)
      exact ⟨s.record, current_of_read (hlisted.read s hs).1, hrevokes s hs⟩

theorem entered_subject_revoked : ∃ valid : validLabel "api" = true,
    (FleetAuth.sample.revokeSubjectSessions "api" 2 true (fun _ _ => none)
      (AuthWorld.two.run .one .sample entered).table).1.live FleetAuth.sample.protection
        (FleetAuth.sample.subjectTag ⟨"api", valid⟩) 2 = ∅ := by
  have hrevoked : (FleetAuth.sample.revokeSubjectSessions "api" 2 true (fun _ _ => none)
      (AuthWorld.two.run .one .sample entered).table).2 = .ok 1 := by decide +kernel
  obtain ⟨valid, -, hnone, -⟩ := subject_revoked StateCrypto.sample_ideal hrevoked
  exact ⟨valid, hnone⟩

end

end OrbitAuth
