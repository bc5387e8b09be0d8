import Orbit.Auth.Complete

/-! Lookups that overlap with the steps of writers: what a lookup has passed, and what it returns. -/

namespace OrbitAuth

open Orbit.Table List Function Option

variable {p : RecordProtection} {t t' : StateTable} {w : TableWorld} {key : StoreKey} {index : Nat}
  {record : Record} {nonce : Option Nonce} {since since' : List View} {offset revision : Nat}
  {words : List UInt64} {reader : Nat}

theorem check_ok {r : Record} (h : r.check = .ok record) : r.check = .ok r := by
  unfold Record.check at h ⊢
  split at h
  · cases h
  · rename_i hvalid
    exact if_neg hvalid

def Passed (capacity : Nat) (key : StoreKey) (offset : Nat) (since : List View) : Prop :=
  ∀ o < offset, ∃ view ∈ since, ∃ r, view (probeSlot capacity key o) = some r ∧ r.key ≠ key

def Steady (key : StoreKey) (since : List View) : Prop :=
  (∀ view ∈ since, ¬Absent view key) →
    ∃ i, ∀ view ∈ since, ∃ r, view i = some r ∧ r.key = key

structure Watching (p : RecordProtection) (t : StateTable) (key : StoreKey) (since : List View) :
    Prop where
  now : t.current p ∈ since
  steady : Steady key since

/-- The words are those of the revision, if the slot still has it. -/
structure Copied (s : StateSlot) (revision : Nat) (words : List UInt64) : Prop where
  pos : revision ≠ 0
  le : revision ≤ s.revision
  length : words.length ≤ bankWords
  same : s.revision = revision → words = (s.wire revision).take words.length

def ReaderInv (p : RecordProtection) (t : StateTable) (since : List View) : Reader → Prop
  | .idle => True
  | .looking key offset => Watching p t key since ∧ Passed t.capacity key offset since
  | .copying key offset revision words => Watching p t key since ∧
    Passed t.capacity key offset since ∧
      Copied (t.slots (probeSlot t.capacity key offset)) revision words
  | .raced key => Watching p t key since

/-- What a lookup returns was there while it was under way. -/
def LookupAnswer.Explained (a : LookupAnswer) : Prop :=
  match a.result with
  | .ok (some r) => r.key = a.key ∧ ∃ view ∈ a.since, ∃ i, view i = some r
  | .ok none => ∃ view ∈ a.since, Absent view a.key
  | .error e => e = .policyUnavailable

theorem Passed.mono {capacity : Nat} (h : Passed capacity key offset since)
    (hsub : ∀ view ∈ since, view ∈ since') : Passed capacity key offset since' := by
  intro o ho
  obtain ⟨view, hview, r, hr, hne⟩ := h o ho
  exact ⟨view, hsub view hview, r, hr, hne⟩

theorem Passed.next {capacity : Nat} (h : Passed capacity key offset since) {view : View}
    (hview : view ∈ since) {r : Record} (hr : view (probeSlot capacity key offset) = some r)
    (hne : r.key ≠ key) : Passed capacity key (offset + 1) since := by
  intro o ho
  rcases Nat.lt_succ_iff_lt_or_eq.mp ho with ho | rfl
  · exact h o ho
  · exact ⟨view, hview, r, hr, hne⟩

theorem not_absent {view : View} : ¬Absent view key ↔ ∃ i r, view i = some r ∧ r.key = key := by
  unfold Absent
  push Not
  rfl

theorem Watching.commit (h : Watching p t key since) (hs : StateInv p t)
    (hcurrent : t'.current p = update (t.current p) index (some record)) :
    Watching p t' key (t'.current p :: since) where
  now := mem_cons_self
  steady hpresent := by
    obtain ⟨i, hi⟩ := h.steady fun view hview => hpresent view (mem_cons_of_mem _ hview)
    obtain ⟨old, hold, holdkey⟩ := hi _ h.now
    refine ⟨i, fun view hview => ?_⟩
    rcases mem_cons.mp hview with rfl | hview
    · rw [hcurrent]
      by_cases heq : i = index
      · subst heq
        rw [update_self]
        refine ⟨record, rfl, ?_⟩
        -- the key is still there, and was nowhere else
        by_contra hne
        refine hpresent _ mem_cons_self fun j r hr hrkey => ?_
        rw [hcurrent] at hr
        by_cases hj : j = i
        · subst hj
          rw [update_self] at hr
          rw [Option.some.inj hr] at hne
          exact hne hrkey
        · rw [update_of_ne hj] at hr
          exact hj (hs.probed.unique j i key (key_iff.mpr ⟨r, hr, hrkey⟩)
            (key_iff.mpr ⟨old, hold, holdkey⟩))
      · rw [update_of_ne heq]
        exact ⟨old, hold, holdkey⟩
    · exact hi view hview

theorem Watching.missed (h : Watching p t key since) (hs : StateInv p t)
    (hpassed : Passed t.capacity key offset since)
    (hend : (t.slots (probeSlot t.capacity key offset)).revision = 0 ∨ t.capacity ≤ offset) :
    ∃ view ∈ since, Absent view key := by
  by_contra hnone
  obtain ⟨i, hi⟩ := h.steady fun view hview habsent => hnone ⟨view, hview, habsent⟩
  obtain ⟨r, hr, hrkey⟩ := hi _ h.now
  obtain ⟨before, after, hpath, hbefore⟩ :=
    hs.probed.reaches i key (key_iff.mpr ⟨r, hr, hrkey⟩)
  have hslot : ∀ o < t.capacity, (before ++ i :: after)[o]? = some (probeSlot t.capacity key o) := by
    intro o ho
    rw [← hpath]
    change ((range t.capacity).map (probeSlot t.capacity key))[o]? = _
    rw [getElem?_map, getElem?_range ho, map_some]
  have hlength : before.length < t.capacity := by
    have hsum := congrArg List.length hpath
    change ((range t.capacity).map (probeSlot t.capacity key)).length = _ at hsum
    rw [length_map, length_range, length_append, length_cons] at hsum
    omega
  have hat := hslot before.length hlength
  rw [getElem?_append_right (Nat.le_refl _), Nat.sub_self] at hat
  have hat : i = probeSlot t.capacity key before.length := Option.some.inj hat
  rcases Nat.lt_trichotomy before.length offset with hlt | heq | hgt
  · obtain ⟨view, hview, other, hother, hne⟩ := hpassed before.length hlt
    obtain ⟨r', hr', hr'key⟩ := hi view hview
    rw [← hat, hr'] at hother
    exact hne (Option.some.inj hother ▸ hr'key)
  · rcases hend with hempty | hend
    · rw [← heq, ← hat] at hempty
      rw [current_none hempty] at hr
      cases hr
    · omega
  · rcases hend with hempty | hend
    · have hmem := hslot offset (hgt.trans hlength)
      rw [getElem?_append_left hgt] at hmem
      have hpass := hbefore _ (mem_of_getElem? hmem)
      rw [current_none hempty] at hpass
      cases hpass
    · omega

theorem take_wire (s : StateSlot) (revision : Nat) {n : Nat} (h : n < bankWords) :
    (s.wire revision).take (n + 1) = (s.wire revision).take n ++ [s.banks (revision &&& 1) n] := by
  rw [take_add_one, StateSlot.wire, getElem?_map, getElem?_range h]
  rfl

/-- The slots that readers look at have not changed, or have gone on to a later revision. -/
def Moves (t t' : StateTable) : Prop := ∀ i,
  (t'.slots i).revision = (t.slots i).revision ∧
      (t'.slots i).wire (t.slots i).revision = (t.slots i).wire (t.slots i).revision ∨
    (t.slots i).revision < (t'.slots i).revision

theorem Copied.moves {s s' : StateSlot} (h : Copied s revision words)
    (hmoves : s'.revision = s.revision ∧ s'.wire s.revision = s.wire s.revision ∨
      s.revision < s'.revision) : Copied s' revision words where
  pos := h.pos
  le := by
    rcases hmoves with ⟨heq, -⟩ | hlt
    · rw [heq]
      exact h.le
    · exact h.le.trans hlt.le
  length := h.length
  same heq := by
    rcases hmoves with ⟨hrevision, hwire⟩ | hlt
    · have hold : s.revision = revision := hrevision.symm.trans heq
      rw [← hold, hwire, hold]
      exact h.same hold
    · have hle := h.le
      omega

theorem ReaderInv.same {r : Reader} (h : ReaderInv p t since r) (hcapacity : t'.capacity = t.capacity)
    (hcurrent : t'.current p = t.current p) (hmoves : Moves t t') : ReaderInv p t' since r := by
  have hwatching : ∀ key, Watching p t key since → Watching p t' key since := fun key h =>
    ⟨hcurrent ▸ h.now, h.steady⟩
  cases r with
  | idle => trivial
  | looking key offset =>
    obtain ⟨hwatch, hpassed⟩ := h
    exact ⟨hwatching key hwatch, hcapacity ▸ hpassed⟩
  | copying key offset revision words =>
    obtain ⟨hwatch, hpassed, hcopied⟩ := h
    refine ⟨hwatching key hwatch, hcapacity ▸ hpassed, ?_⟩
    rw [hcapacity]
    exact hcopied.moves (hmoves _)
  | raced key => exact hwatching key h

theorem ReaderInv.commit {r : Reader} (h : ReaderInv p t since r) (hs : StateInv p t)
    (hcapacity : t'.capacity = t.capacity)
    (hcurrent : t'.current p = update (t.current p) index (some record))
    (hmoves : Moves t t') : ReaderInv p t' (t'.current p :: since) r := by
  have hsub : ∀ view ∈ since, view ∈ t'.current p :: since := fun _ hview =>
    mem_cons_of_mem _ hview
  cases r with
  | idle => trivial
  | looking key offset =>
    obtain ⟨hwatch, hpassed⟩ := h
    exact ⟨hwatch.commit hs hcurrent, hcapacity ▸ hpassed.mono hsub⟩
  | copying key offset revision words =>
    obtain ⟨hwatch, hpassed, hcopied⟩ := h
    refine ⟨hwatch.commit hs hcurrent, hcapacity ▸ hpassed.mono hsub, ?_⟩
    rw [hcapacity]
    exact hcopied.moves (hmoves _)
  | raced key => exact Watching.commit h hs hcurrent

/-- Nothing of what is read has changed. -/
structure Unread (t t' : StateTable) : Prop where
  capacity : t'.capacity = t.capacity
  revision : ∀ i, (t'.slots i).revision = (t.slots i).revision
  wire : ∀ i, (t'.slots i).wire (t.slots i).revision = (t.slots i).wire (t.slots i).revision

namespace Unread

theorem read (h : Unread t t') (p : RecordProtection) (i : Nat) :
    (t'.slots i).read p i = (t.slots i).read p i := by
  rw [StateSlot.read, StateSlot.read, h.revision, h.wire]

theorem current (h : Unread t t') (p : RecordProtection) : t'.current p = t.current p :=
  funext fun i => by rw [StateTable.current, StateTable.current, h.read]

theorem moves (h : Unread t t') : Moves t t' := fun i => .inl ⟨h.revision i, h.wire i⟩

end Unread

theorem StateInv.unread (h : StateInv p t) (hu : Unread t t') : StateInv p t' where
  readable i hi := by
    rw [hu.read]
    exact h.readable i (hu.revision i ▸ hi)
  probed := by
    rw [hu.current, hu.capacity]
    exact h.probed

theorem unread_word (t : StateTable) (index : Nat) (bank : Nat → UInt64) :
    Unread t (t.setSlot index { t.slots index with
      banks := update (t.slots index).banks (((t.slots index).revision + 1) &&& 1) bank }) where
  capacity := rfl
  revision i := by
    by_cases hi : i = index
    · subst hi
      rw [setSlot_self]
    · rw [setSlot_other t _ hi]
  wire i := by
    by_cases hi : i = index
    · subst hi
      rw [setSlot_self]
      exact wire_word bank
    · rw [setSlot_other t _ hi]

theorem Storing.word {wire : List UInt64} {next : Nat} (h : Storing p t index record wire next)
    (hnext : next < bankWords) :
    let bank := (t.slots index).banks (((t.slots index).revision + 1) &&& 1)
    Storing p (t.setSlot index { t.slots index with
      banks := update (t.slots index).banks (((t.slots index).revision + 1) &&& 1)
        (update bank next (wire.getD next (bank next))) }) index record wire (next + 1) := by
  intro bank
  have hunread := unread_word t index (update bank next (wire.getD next (bank next)))
  refine ⟨h.length, ?_, fun j hj => ?_, ?_⟩
  · rw [hunread.revision]
    exact h.decodes
  · rw [setSlot_self]
    dsimp only
    rw [update_self]
    by_cases hlast : j = next
    · subst hlast
      rw [update_self, getD_eq_getElem?_getD, getD_eq_getElem?_getD,
        getElem?_eq_getElem (h.length ▸ hnext), getD_some, getD_some]
    · rw [update_of_ne hlast]
      exact h.written j (Nat.lt_of_le_of_ne (Nat.le_of_lt_succ hj) hlast)
  · rw [hunread.current p, hunread.capacity]
    exact h.entitled

theorem Storing.commit {wire : List UInt64} {next : Nat} (h : Storing p t index record wire next)
    (hs : StateInv p t) (hnext : ¬next < bankWords) :
    let t' := t.setSlot index { t.slots index with revision := (t.slots index).revision + 1 }
    StateInv p t' ∧ t'.current p = update (t.current p) index (some record) ∧
      Moves t t' := by
  intro t'
  have hwire : (t'.slots index).wire ((t.slots index).revision + 1) = wire := by
    refine ext_getElem ?_ fun i hi hi' => ?_
    · rw [StateSlot.wire, length_map, length_range, h.length]
    · rw [StateSlot.wire, length_map, length_range] at hi
      have hword := h.written i (Nat.lt_of_lt_of_le hi (Nat.le_of_not_lt hnext))
      rw [getD_eq_getElem?_getD, getElem?_eq_getElem hi', getD_some] at hword
      simp only [StateSlot.wire, getElem_map, getElem_range, t', setSlot_self]
      exact hword
  have hread : (t'.slots index).read p index =
      .ok (some ⟨index, (t.slots index).revision + 1, record, wire⟩) := by
    have hrevision : (t'.slots index).revision = (t.slots index).revision + 1 := by
      rw [setSlot_self]
    rw [StateSlot.read, hrevision, if_neg (Nat.succ_ne_zero _), hwire, h.decodes]
    rfl
  have hother : ∀ i, i ≠ index → t'.slots i = t.slots i := fun i hi => setSlot_other t _ hi
  have hcurrent : t'.current p = update (t.current p) index (some record) := by
    funext i
    by_cases hi : i = index
    · subst hi
      rw [update_self]
      exact current_of_read hread
    · rw [update_of_ne hi, StateTable.current, StateTable.current, hother i hi]
  refine ⟨⟨fun i hi => ?_, ?_⟩, hcurrent, fun i => ?_⟩
  · by_cases hindex : i = index
    · subst hindex
      exact ⟨_, hread⟩
    · rw [hother i hindex] at hi ⊢
      exact hs.readable i hi
  · rw [hcurrent]
    change Probed (probing t.capacity) _
    rcases h.entitled with ⟨old, hold, hkey⟩ | ⟨habsent, hreaches⟩
    · exact hs.probed.rewrite (key_iff.mpr ⟨old, hold, hkey⟩) rfl
    · refine hs.probed.insert rfl (fun j hj => ?_) hreaches
      obtain ⟨r, hr, hrkey⟩ := key_iff.mp hj
      exact habsent j r hr hrkey
  · by_cases hi : i = index
    · subst hi
      refine .inr ?_
      rw [setSlot_self]
      exact Nat.lt_succ_self _
    · rw [hother i hi]
      exact .inl ⟨rfl, rfl⟩

structure LookupInv (p : RecordProtection) (w : TableWorld) : Prop where
  state : StateInv p w.table
  writer : WriterInv p w
  readers : ∀ reader, ReaderInv p w.table (w.since reader) (w.readers reader)
  answers : ∀ a ∈ w.answers, a.Explained

namespace LookupInv

theorem begin (h : LookupInv p w) (hp : p.crypto.Ideal)
    (hentitled : (∃ old, w.table.current p index = some old ∧ old.key = record.key) ∨
      Absent (w.table.current p) record.key ∧ Reaches (probing w.table.capacity) (w.table.current p)
        (probePath w.table.capacity record.key) index) :
    LookupInv p (w.begin p index record nonce) := by
  unfold TableWorld.begin
  split
  · rename_i checked wire hchecked _ hencode
    obtain ⟨hlength, hdecode⟩ := encode_decode hp (check_ok hchecked) hencode
    refine ⟨h.state, ?_, h.readers, h.answers⟩
    exact ⟨hlength, hdecode, fun _ hj => absurd hj (Nat.not_lt_zero _), hentitled⟩
  · exact h

theorem insert (h : LookupInv p w) (hp : p.crypto.Ideal) (now : UInt64) :
    LookupInv p (w.insert p record now nonce) := by
  unfold TableWorld.insert
  split
  · rename_i index hfind hreusable
    obtain ⟨before, after, hpath, hbefore, -⟩ := reusableIn_some hreusable
    refine h.begin hp (.inr ⟨h.state.find_none hfind, before, after, hpath, fun j hj => ?_⟩)
    obtain ⟨old, hold, -⟩ := hbefore j hj
    rw [hold]
    rfl
  · exact h

theorem replace (h : LookupInv p w) (hp : p.crypto.Ideal) :
    LookupInv p (w.replace p index record nonce) := by
  unfold TableWorld.replace
  split
  · rename_i old hold
    split
    · rename_i hkey
      exact h.begin hp (.inl ⟨old, hold, hkey⟩)
    · exact h
  · exact h

theorem word (h : LookupInv p w) : LookupInv p w.word := by
  have hwriter := h.writer
  unfold TableWorld.word
  unfold WriterInv at hwriter
  split
  · rename_i index record wire next hstoring
    rw [hstoring] at hwriter
    split
    · rename_i hnext
      dsimp only
      have hunread := unread_word w.table index
        (update ((w.table.slots index).banks (((w.table.slots index).revision + 1) &&& 1)) next
          (wire.getD next
            ((w.table.slots index).banks (((w.table.slots index).revision + 1) &&& 1) next)))
      refine ⟨h.state.unread hunread, ?_, fun reader => ?_, h.answers⟩
      · exact hwriter.word hnext
      · exact (h.readers reader).same hunread.capacity (hunread.current p) hunread.moves
    · exact h
  · exact h

theorem commit (h : LookupInv p w) : LookupInv p (w.commit p) := by
  have hwriter := h.writer
  unfold TableWorld.commit
  unfold WriterInv at hwriter
  split
  · rename_i index record wire next hstoring
    rw [hstoring] at hwriter
    split
    · exact h
    · rename_i hnext
      obtain ⟨hstate, hcurrent, hmoves⟩ := hwriter.commit h.state hnext
      exact ⟨hstate, trivial, fun reader => (h.readers reader).commit h.state rfl hcurrent hmoves,
        h.answers⟩
  · exact h

theorem reader_goes (h : LookupInv p w) {r : Reader} (hr : ReaderInv p w.table (w.since reader) r)
    (other : Nat) :
    ReaderInv p w.table (w.since other) (update w.readers reader r other) := by
  by_cases hother : other = reader
  · subst hother
    rw [update_self]
    exact hr
  · rw [update_of_ne hother]
    exact h.readers other

theorem answer (h : LookupInv p w) {result : Result (Option Record)}
    (hexplained : LookupAnswer.Explained ⟨key, result, w.since reader⟩) :
    LookupInv p (w.answer reader key result) where
  state := h.state
  writer := h.writer
  readers := h.reader_goes trivial
  answers a ha := by
    rcases mem_cons.mp ha with rfl | ha
    · exact hexplained
    · exact h.answers a ha

theorem moves (h : LookupInv p w) {r : Reader} (hr : ReaderInv p w.table (w.since reader) r) :
    LookupInv p (w.moves reader r) :=
  ⟨h.state, h.writer, h.reader_goes hr, h.answers⟩

theorem step (h : LookupInv p w) (reader : Nat) : LookupInv p (w.step p reader) := by
  have hreader := h.readers reader
  unfold TableWorld.step
  split
  · exact h
  · rename_i key offset hlooking
    rw [hlooking] at hreader
    obtain ⟨hwatch, hpassed⟩ := hreader
    split
    · rename_i hoffset
      dsimp only
      split
      · rename_i hempty
        exact h.answer (hwatch.missed h.state hpassed (.inl hempty))
      · rename_i hfilled
        exact h.moves ⟨hwatch, hpassed, hfilled, Nat.le_refl _, Nat.zero_le _, fun _ => rfl⟩
    · rename_i hoffset
      exact h.answer (hwatch.missed h.state hpassed (.inr (Nat.le_of_not_lt hoffset)))
  · rename_i key offset revision words hcopying
    rw [hcopying] at hreader
    obtain ⟨hwatch, hpassed, hcopied⟩ := hreader
    dsimp only
    split
    · rename_i hwords
      refine h.moves ⟨hwatch, hpassed, hcopied.pos, hcopied.le, ?_, fun hsame => ?_⟩
      · rw [length_append, length_singleton]
        exact hwords
      · rw [length_append, length_singleton, take_wire _ _ hwords,
          ← hcopied.same hsame]
    split
    · exact h.moves hwatch
    · rename_i hwords hsame
      have hsame := Decidable.not_not.mp hsame
      have hlength : words.length = bankWords :=
        Nat.le_antisymm hcopied.length (Nat.le_of_not_lt hwords)
      have hwire : words = (w.table.slots (probeSlot w.table.capacity key offset)).wire revision := by
        rw [hcopied.same hsame, hlength, take_of_length_le]
        rw [StateSlot.wire, length_map, length_range]
      obtain ⟨r, hcurrent, hdecode⟩ := h.state.current_isSome (hsame ▸ hcopied.pos)
      rw [hsame, ← hwire] at hdecode
      rw [hdecode]
      dsimp only
      split
      · rename_i hkey
        exact h.answer ⟨hkey, _, hwatch.now, _, hcurrent⟩
      · rename_i hkey
        exact h.moves ⟨hwatch, hpassed.next hwatch.now hcurrent hkey⟩
  · rename_i key hraced
    rw [hraced] at hreader
    split
    · rcases h.state.find_spec key with ⟨hfind, habsent⟩ | ⟨s, hfind, hcurrent, hkey⟩
      · rw [hfind]
        exact h.answer ⟨_, hreader.now, habsent⟩
      · rw [hfind]
        exact h.answer ⟨hkey, _, hreader.now, s.index, hcurrent⟩
    · exact h

theorem act (h : LookupInv p w) (hp : p.crypto.Ideal) (a : TableAct) : LookupInv p (w.act p a) := by
  cases a with
  | insert record now nonce =>
    unfold TableWorld.act
    dsimp only
    split
    · exact h.insert hp now
    · exact h
  | replace index record nonce =>
    unfold TableWorld.act
    dsimp only
    split
    · exact h.replace hp
    · exact h
  | word => exact h.word
  | commit => exact h.commit
  | dies => exact ⟨h.state, trivial, h.readers, h.answers⟩
  | lookup reader key =>
    unfold TableWorld.act
    dsimp only
    split
    · refine ⟨h.state, h.writer, fun other => ?_, h.answers⟩
      by_cases hother : other = reader
      · subst hother
        dsimp only
        rw [update_self, update_self]
        refine ⟨⟨mem_singleton_self _, fun hpresent => ?_⟩,
          fun _ ho => absurd ho (Nat.not_lt_zero _)⟩
        obtain ⟨i, r, hr, hrkey⟩ := not_absent.mp (hpresent _ (mem_singleton_self _))
        refine ⟨i, fun view hview => ?_⟩
        rw [mem_singleton.mp hview]
        exact ⟨r, hr, hrkey⟩
      · dsimp only
        rw [update_of_ne hother, update_of_ne hother]
        exact h.readers other
    · exact h
  | step reader => exact h.step reader
  | refused reader =>
    unfold TableWorld.act
    dsimp only
    split
    · exact h.answer rfl
    · exact h

theorem run (h : LookupInv p w) (hp : p.crypto.Ideal) (acts : List TableAct) :
    LookupInv p (w.run p acts) := by
  induction acts generalizing w with
  | nil => exact h
  | cons a acts ih => exact ih (h.act hp a)

end LookupInv

theorem zeroed_inv (p : RecordProtection) (capacity : Nat) (h : 0 < capacity) :
    LookupInv p (.zeroed capacity h) where
  state := by
    have hnone : ∀ i, StateTable.current p ⟨capacity, h, fun _ => .empty⟩ i = none := fun _ => rfl
    refine ⟨fun _ hi => absurd rfl hi, ⟨fun i key hi => ?_, fun i _ key hi => ?_⟩⟩ <;>
    · rw [show (TableWorld.zeroed capacity h).table.current p i = none from rfl] at hi
      cases hi
  writer := trivial
  readers _ := trivial
  answers _ ha := absurd ha not_mem_nil

end OrbitAuth
