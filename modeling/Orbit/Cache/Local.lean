import Orbit.Cache.Layout

/-! What a store remembers of the mutations handed to it, in its slots and its floor. -/

namespace OrbitCache

open List

variable {st : LocalState} {slots : Slots} {key key' : Key} {slot : LocalSlot} {victim : Option Key}
  {r : CacheRevision} {n : Nat} {m m' : CacheMutation} {available : Bool} {entry : Key × LocalSlot}

theorem peek_mem (h : slots.peek key = some slot) : (key, slot) ∈ slots := by
  obtain ⟨before, after, rfl, -⟩ := lookup_eq_some_iff.mp h
  exact mem_append_right _ mem_cons_self

theorem peek_cons_self (slots : Slots) (key : Key) (slot : LocalSlot) :
    Slots.peek ((key, slot) :: slots) key = some slot := lookup_cons_self

theorem peek_cons_other (h : key' ≠ key) (slots : Slots) (slot : LocalSlot) :
    Slots.peek ((key, slot) :: slots) key' = slots.peek key' := by
  have hne : (key' == key) = false := by simpa using h
  rw [Slots.peek, lookup_cons, hne]
  rfl

theorem peek_filter (h : slots.peek key = some slot) {keep : Key × LocalSlot → Bool}
    (hkeep : keep (key, slot)) : Slots.peek (slots.filter keep) key = some slot := by
  induction slots with
  | nil => cases h
  | cons first rest ih =>
    obtain ⟨key', slot'⟩ := first
    by_cases hkey : key = key'
    · subst hkey
      rw [peek_cons_self] at h
      cases h
      rw [filter_cons_of_pos hkeep, peek_cons_self]
    · rw [peek_cons_other hkey] at h
      by_cases hfirst : keep (key', slot')
      · rw [filter_cons_of_pos hfirst, peek_cons_other hkey]
        exact ih h
      · rw [filter_cons_of_neg hfirst]
        exact ih h

theorem peek_pop (h : slots.peek key = some slot) (hne : key ≠ key') :
    (slots.pop key').peek key = some slot :=
  peek_filter h (by simpa using hne)

theorem mem_pop (h : entry ∈ slots.pop key) : entry ∈ slots := (mem_filter.mp h).1

theorem mem_push (h : entry ∈ (slots.push key slot victim).1) :
    entry = (key, slot) ∨ entry ∈ slots := by
  unfold Slots.push at h
  split at h
  · exact (mem_cons.mp h).imp_right mem_pop
  · exact mem_cons.mp h
  · exact (mem_cons.mp h).imp_right mem_pop

theorem push_peek (slots : Slots) (key : Key) (slot : LocalSlot) (victim : Option Key) :
    (slots.push key slot victim).1.peek key = some slot := by
  unfold Slots.push
  split
  · exact peek_cons_self ..
  · exact peek_cons_self ..
  · exact peek_cons_self ..

theorem push_installed (h : slots.peek key = some slot) (new : LocalSlot) (victim : Option Key) :
    (slots.push key new victim).2 = none := by
  unfold Slots.push
  rw [h]

theorem push_other (h : slots.peek key' = some slot) (hne : key' ≠ key) (new : LocalSlot)
    (victim : Option Key) : (slots.push key new victim).1.peek key' = some slot ∨
      (slots.push key new victim).2 = some slot := by
  unfold Slots.push
  split
  · left
    rw [peek_cons_other hne]
    exact peek_pop h hne
  · left
    rw [peek_cons_other hne]
    exact h
  · rename_i victim hpeek
    by_cases hvictim : key' = victim
    · subst hvictim
      exact .inr h
    · left
      rw [peek_cons_other hne]
      exact peek_pop h hvictim

def Above (st : LocalState) : Prop :=
  ∀ floor, st.revisionFloor = some floor → ∀ entry ∈ st.slots, floor < entry.2.revision.sequence

def AtLeast (st : LocalState) (n : Nat) : Prop := ∃ floor, st.revisionFloor = some floor ∧ n ≤ floor

theorem AtLeast.mono {n' : Nat} (h : AtLeast st n) (hle : n' ≤ n) : AtLeast st n' := by
  obtain ⟨floor, hfloor, hn⟩ := h
  exact ⟨floor, hfloor, Nat.le_trans hle hn⟩

theorem atLeast_of_rejects (h : st.accepts r = false) : AtLeast st r.sequence := by
  unfold LocalState.accepts at h
  split at h
  · cases h
  · rename_i floor hfloor
    exact ⟨floor, hfloor, by simpa using h⟩

theorem accepts_lt (h : st.accepts r) {floor : Nat} (hfloor : st.revisionFloor = some floor) :
    floor < r.sequence := by
  rw [LocalState.accepts, hfloor] at h
  simpa using h

theorem advanceFloor_floor (st : LocalState) (n : Nat) :
    (st.advanceFloor n).revisionFloor =
      some (st.revisionFloor.elim n fun current => max current n) := rfl

theorem le_raised (floor : Option Nat) (n : Nat) : n ≤ floor.elim n fun current => max current n := by
  cases floor with
  | none => exact Nat.le_refl n
  | some current => exact Nat.le_max_right ..

theorem advanceFloor_atLeast (st : LocalState) (n : Nat) : AtLeast (st.advanceFloor n) n :=
  ⟨_, advanceFloor_floor st n, le_raised _ n⟩

theorem AtLeast.advanceFloor (h : AtLeast st n) (n' : Nat) : AtLeast (st.advanceFloor n') n := by
  obtain ⟨floor, hfloor, hn⟩ := h
  refine ⟨_, advanceFloor_floor st n', ?_⟩
  rw [hfloor]
  exact Nat.le_trans hn (Nat.le_max_left ..)

theorem advanceFloor_above (st : LocalState) (n : Nat) : Above (st.advanceFloor n) := by
  intro floor hfloor entry hmem
  have hkeep := (mem_filter.mp hmem).2
  rw [advanceFloor_floor] at hfloor
  cases hfloor
  simpa using hkeep

theorem mem_advanceFloor (h : entry ∈ (st.advanceFloor n).slots) : entry ∈ st.slots :=
  (mem_filter.mp h).1

def Remembers (st : LocalState) (key : Key) (r : CacheRevision) : Prop :=
  AtLeast st r.sequence ∨ ∃ slot, st.slots.peek key = some slot ∧ r ≤ slot.revision

theorem Remembers.advanceFloor (h : Remembers st key r) (n : Nat) :
    Remembers (st.advanceFloor n) key r := by
  rcases h with h | ⟨slot, hpeek, hle⟩
  · exact .inl (h.advanceFloor n)
  · obtain ⟨floor, hfloor⟩ : ∃ floor, (st.advanceFloor n).revisionFloor = some floor :=
      ⟨_, advanceFloor_floor st n⟩
    by_cases hlt : floor < slot.revision.sequence
    · refine .inr ⟨slot, peek_filter hpeek ?_, hle⟩
      rw [advanceFloor_floor] at hfloor
      cases hfloor
      simpa using hlt
    · exact .inl ⟨floor, hfloor, Nat.le_trans (CacheRevision.sequence_le hle) (Nat.le_of_not_lt hlt)⟩

theorem AtLeast.putSlot (h : AtLeast st n) (key : Key) (slot : LocalSlot) (victim : Option Key) :
    AtLeast (st.putSlot key slot victim).1 n := by
  unfold LocalState.putSlot
  split
  · exact h
  · dsimp only
    split
    · have hpushed : AtLeast { st with slots := (st.slots.push key slot victim).1 } n := h
      exact hpushed.advanceFloor _
    · exact h

theorem putSlot_above (h : Above st)
    (hslot : ∀ floor, st.revisionFloor = some floor → floor < slot.revision.sequence)
    (victim : Option Key) : Above (st.putSlot key slot victim).1 := by
  unfold LocalState.putSlot
  split
  · exact h
  · dsimp only
    split
    · exact advanceFloor_above _ _
    · intro floor hfloor entry hmem
      rcases mem_push hmem with rfl | hmem
      · exact hslot floor hfloor
      · exact h floor hfloor entry hmem

theorem mem_putSlot (h : entry ∈ (st.putSlot key slot victim).1.slots) :
    entry = (key, slot) ∨ entry ∈ st.slots := by
  unfold LocalState.putSlot at h
  split at h
  · exact .inr h
  · dsimp only at h
    split at h
    · exact mem_push (mem_advanceFloor h)
    · exact mem_push h

theorem putSlot_remembers (st : LocalState) (key : Key) (slot : LocalSlot) (victim : Option Key) :
    Remembers (st.putSlot key slot victim).1 key slot.revision := by
  unfold LocalState.putSlot
  split
  · rename_i hold
    obtain ⟨current, hpeek, hle⟩ := (Option.any_eq_true ..).mp hold
    exact .inr ⟨current, hpeek, by simpa using hle⟩
  · have hpushed : Remembers { st with slots := (st.slots.push key slot victim).1 } key
        slot.revision := .inr ⟨slot, push_peek .., le_refl _⟩
    dsimp only
    split
    · exact hpushed.advanceFloor _
    · exact hpushed

theorem Remembers.putSlot (h : Remembers st key r) (key' : Key) (slot : LocalSlot)
    (victim : Option Key) : Remembers (st.putSlot key' slot victim).1 key r := by
  rcases h with h | ⟨current, hpeek, hle⟩
  · exact .inl (h.putSlot key' slot victim)
  unfold LocalState.putSlot
  split
  · exact .inr ⟨current, hpeek, hle⟩
  rename_i hnew
  dsimp only
  by_cases hkey : key = key'
  · subst hkey
    have hlt : current.revision ≤ slot.revision := by
      rw [hpeek] at hnew
      simp only [Option.any_some, decide_eq_true_eq, not_le] at hnew
      exact hnew.le
    have hpushed : Remembers { st with slots := (st.slots.push key slot victim).1 } key r :=
      .inr ⟨slot, push_peek .., hle.trans hlt⟩
    split
    · exact hpushed.advanceFloor _
    · exact hpushed
  · rcases push_other hpeek hkey slot victim with hkept | hremoved
    · have hpushed : Remembers { st with slots := (st.slots.push key' slot victim).1 } key r :=
        .inr ⟨current, hkept, hle⟩
      split
      · exact hpushed.advanceFloor _
      · exact hpushed
    · rw [hremoved]
      exact .inl ((advanceFloor_atLeast _ _).mono (CacheRevision.sequence_le hle))

def Knows (st : LocalState) : CacheMutation → Prop
  | .put _ key revision _ _ | .delete _ key revision => Remembers st key revision
  | .reset _ revision => AtLeast st revision.sequence

/-- A change of a store that forgets nothing. -/
structure Grows (st st' : LocalState) : Prop where
  atLeast : ∀ n, AtLeast st n → AtLeast st' n
  remembers : ∀ key r, Remembers st key r → Remembers st' key r

theorem Grows.refl (st : LocalState) : Grows st st := ⟨fun _ h => h, fun _ _ h => h⟩

theorem Grows.knows {st' : LocalState} (h : Grows st st') (hm : Knows st m) : Knows st' m := by
  cases m with
  | put _ key revision _ _ | delete _ key revision => exact h.remembers key revision hm
  | reset _ revision => exact h.atLeast revision.sequence hm

theorem grows_advanceFloor (st : LocalState) (n : Nat) : Grows st (st.advanceFloor n) :=
  ⟨fun _ h => h.advanceFloor n, fun _ _ h => h.advanceFloor n⟩

theorem grows_putSlot (st : LocalState) (key : Key) (slot : LocalSlot) (victim : Option Key) :
    Grows st (st.putSlot key slot victim).1 :=
  ⟨fun _ h => h.putSlot key slot victim, fun _ _ h => h.putSlot key slot victim⟩

theorem knows_of_rejects (h : st.accepts m.revision = false) : Knows st m := by
  have hfloor := atLeast_of_rejects h
  cases m with
  | put _ key revision _ _ | delete _ key revision => exact .inl hfloor
  | reset _ revision => exact hfloor

def Adds (m : CacheMutation) (entry : Key × LocalSlot) : Prop :=
  match m with
  | .put _ key revision expiresAtMs payload =>
    entry = (key, .present payload revision expiresAtMs) ∨ entry = (key, .missing revision)
  | .delete _ key revision => entry = (key, .missing revision)
  | .reset _ _ => False

/-- What handing a mutation to a store does. -/
structure Takes (st : LocalState) (m : CacheMutation) (st' : LocalState) : Prop where
  grows : Grows st st'
  knows : Knows st' m
  above : Above st → Above st'
  slots : ∀ entry ∈ st'.slots, entry ∈ st.slots ∨ Adds m entry
  coherent : st'.coherent = st.coherent

theorem putSlot_coherent (st : LocalState) (key : Key) (slot : LocalSlot) (victim : Option Key) :
    (st.putSlot key slot victim).1.coherent = st.coherent := by
  unfold LocalState.putSlot
  split
  · rfl
  · dsimp only
    split
    · rfl
    · rfl

theorem takes_rejected (h : st.accepts m.revision = false) : Takes st m st :=
  ⟨.refl st, knows_of_rejects h, fun h => h, fun _ h => .inl h, rfl⟩

theorem takes_putSlot (haccepts : st.accepts m.revision) (hrevision : slot.revision = m.revision)
    (hknows : ∀ st', Remembers st' key m.revision → Knows st' m) (hadds : Adds m (key, slot))
    (victim : Option Key) : Takes st m (st.putSlot key slot victim).1 := by
  refine ⟨grows_putSlot .., hknows _ ?_, fun habove => ?_, ?_, putSlot_coherent ..⟩
  · rw [← hrevision]
    exact putSlot_remembers ..
  · apply putSlot_above habove
    intro floor hfloor
    rw [hrevision]
    exact accepts_lt haccepts hfloor
  · intro entry hmem
    rcases mem_putSlot hmem with rfl | hmem
    · exact .inr hadds
    · exact .inl hmem

theorem takes_reset (st : LocalState) (store : Key) (revision : CacheRevision) :
    Takes st (.reset store revision) (st.advanceFloor revision.sequence) :=
  ⟨grows_advanceFloor .., advanceFloor_atLeast .., fun _ => advanceFloor_above st _,
    fun _ hmem => .inl (mem_advanceFloor hmem), rfl⟩

theorem apply_takes (st : LocalState) (m : CacheMutation) (available : Bool)
    (victim : Option Key) : Takes st m (st.apply m available victim).1 := by
  unfold LocalState.apply
  split
  · rename_i hrejects
    exact takes_rejected (by simpa using hrejects)
  · rename_i haccepts
    have haccepts : st.accepts m.revision := by simpa using haccepts
    cases m with
    | put store key revision expiresAtMs payload =>
      dsimp only
      split
      · exact takes_putSlot haccepts rfl (fun _ h => h) (.inl rfl) victim
      · exact takes_putSlot haccepts rfl (fun _ h => h) (.inr rfl) victim
    | delete store key revision =>
      exact takes_putSlot haccepts rfl (fun _ h => h) rfl victim
    | reset store revision => exact takes_reset st store revision

theorem install_takes (st : LocalState) (m : CacheMutation) (victim : Option Key) :
    Takes st m (st.install m victim) := by
  cases haccepts : st.accepts m.revision with
  | false =>
    have hsame : st.install m victim = st := by
      cases m with
      | put store key revision expiresAtMs payload =>
        exact if_neg (by rw [show st.accepts revision = false from haccepts]; simp)
      | delete store key revision =>
        exact if_neg (by rw [show st.accepts revision = false from haccepts]; simp)
      | reset store revision =>
        exact if_neg (by rw [show st.accepts revision = false from haccepts]; simp)
    rw [hsame]
    exact takes_rejected haccepts
  | true =>
    cases m with
    | put store key revision expiresAtMs payload =>
      rw [LocalState.install, LocalState.installLocal, if_pos (show st.accepts revision from haccepts)]
      exact takes_putSlot haccepts rfl (fun _ h => h) (.inl rfl) victim
    | delete store key revision =>
      rw [LocalState.install, LocalState.installMissing, if_pos (show st.accepts revision from haccepts)]
      exact takes_putSlot haccepts rfl (fun _ h => h) rfl victim
    | reset store revision =>
      rw [LocalState.install, LocalState.resetLocal, if_pos (show st.accepts revision from haccepts)]
      exact takes_reset st store revision

theorem advanceFloorFromSlots_spec (st : LocalState) :
    Grows st st.advanceFloorFromSlots ∧
      ∀ entry ∈ st.slots, AtLeast st.advanceFloorFromSlots entry.2.revision.sequence := by
  unfold LocalState.advanceFloorFromSlots
  split
  · rename_i revision hmax
    refine ⟨grows_advanceFloor st revision, fun entry hmem => ?_⟩
    apply (advanceFloor_atLeast st revision).mono
    have hle := (max?_eq_some_iff.mp hmax).2 entry.2.revision.sequence
      (mem_map.mpr ⟨entry, hmem, rfl⟩)
    exact hle
  · rename_i hmax
    refine ⟨.refl st, fun entry hmem => ?_⟩
    rw [max?_eq_none_iff, map_eq_nil_iff] at hmax
    rw [hmax] at hmem
    cases hmem

theorem grows_requireResync (st : LocalState) : Grows st st.requireResync := by
  obtain ⟨hgrows, hslots⟩ := advanceFloorFromSlots_spec st
  refine ⟨fun n h => hgrows.atLeast n h, fun key r h => ?_⟩
  rcases h with h | ⟨slot, hpeek, hle⟩
  · exact .inl (hgrows.atLeast _ h)
  · exact .inl ((hslots _ (peek_mem hpeek)).mono (CacheRevision.sequence_le hle))

theorem recoverFromBacking_atLeast (st : LocalState) (floor : Nat) :
    AtLeast (st.recoverFromBacking floor) floor := ⟨_, rfl, le_raised _ floor⟩

theorem AtLeast.recoverFromBacking (h : AtLeast st n) (floor : Nat) :
    AtLeast (st.recoverFromBacking floor) n := by
  obtain ⟨current, hcurrent, hn⟩ := h
  refine ⟨_, rfl, ?_⟩
  rw [hcurrent]
  exact Nat.le_trans hn (Nat.le_max_left ..)

theorem grows_recoverFromBacking {floor : Nat}
    (h : ∀ entry ∈ st.slots, entry.2.revision.sequence ≤ floor) :
    Grows st (st.recoverFromBacking floor) := by
  refine ⟨fun n hn => hn.recoverFromBacking floor, fun key r hr => ?_⟩
  rcases hr with hr | ⟨slot, hpeek, hle⟩
  · exact .inl (hr.recoverFromBacking floor)
  · apply Or.inl
    apply (recoverFromBacking_atLeast st floor).mono
    exact Nat.le_trans (CacheRevision.sequence_le hle) (h _ (peek_mem hpeek))

theorem readAt_hit {bodies : Nat → List UInt8} {now : Nat} {found : CacheEntry}
    (h : (st.readAt bodies available key now).2 = .hit found) :
    st.coherent = true ∧ ∃ payload,
      st.slots.peek key = some (.present payload found.revision found.expiresAtMs) ∧
      found.value = bodies payload.address := by
  unfold LocalState.readAt at h
  split at h
  · cases h
  · rename_i hcoherent
    refine ⟨by simpa using hcoherent, ?_⟩
    split at h
    · cases h
    · cases h
    · rename_i payload revision expiresAtMs hpeek
      split at h
      · cases h
        exact ⟨payload, hpeek, rfl⟩
      · cases h

theorem hit_remembers {bodies : Nat → List UInt8} {now : Nat} {found : CacheEntry}
    (h : (st.readAt bodies available key now).2 = .hit found) (habove : Above st)
    (hr : Remembers st key r) : r ≤ found.revision := by
  obtain ⟨-, payload, hpeek, -⟩ := readAt_hit h
  rcases hr with ⟨floor, hfloor, hle⟩ | ⟨slot, hslot, hle⟩
  · have hlt := habove floor hfloor _ (peek_mem hpeek)
    exact (CacheRevision.lt_of_sequence (Nat.lt_of_le_of_lt hle hlt)).le
  · rw [hpeek] at hslot
    cases hslot
    exact hle

theorem hit_above {bodies : Nat → List UInt8} {now : Nat} {found : CacheEntry}
    (h : (st.readAt bodies available key now).2 = .hit found) (habove : Above st)
    (hn : AtLeast st n) : n < found.revision.sequence := by
  obtain ⟨-, payload, hpeek, -⟩ := readAt_hit h
  obtain ⟨floor, hfloor, hle⟩ := hn
  exact Nat.lt_of_le_of_lt hle (habove floor hfloor _ (peek_mem hpeek))

/-- What a read does to a store: a value that is gone leaves its revision behind. -/
structure Reads (st st' : LocalState) : Prop where
  grows : Grows st st'
  above : Above st → Above st'
  slots : ∀ entry ∈ st'.slots, entry ∈ st.slots ∨
    ∃ old ∈ st.slots, entry = (old.1, .missing old.2.revision)
  coherent : st'.coherent = st.coherent

theorem Reads.refl (st : LocalState) : Reads st st :=
  ⟨.refl st, fun h => h, fun _ h => .inl h, rfl⟩

theorem readAt_reads (st : LocalState) (bodies : Nat → List UInt8) (available : Bool) (key : Key)
    (now : Nat) : Reads st (st.readAt bodies available key now).1 := by
  unfold LocalState.readAt
  split
  · exact .refl st
  split
  · exact .refl st
  · exact .refl st
  rename_i payload revision expiresAtMs hpeek
  split
  · exact .refl st
  have hmem := peek_mem hpeek
  refine ⟨⟨fun _ h => h, fun key' r h => ?_⟩, fun habove => ?_, fun entry hentry => ?_, rfl⟩
  · rcases h with h | ⟨slot, hslot, hle⟩
    · exact .inl h
    · by_cases hkey : key' = key
      · subst hkey
        rw [hpeek] at hslot
        cases hslot
        exact .inr ⟨_, push_peek .., hle⟩
      · rcases push_other hslot hkey (.missing revision) none with hkept | hremoved
        · exact .inr ⟨slot, hkept, hle⟩
        · rw [push_installed hpeek] at hremoved
          cases hremoved
  · intro floor hfloor entry hentry
    rcases mem_push hentry with rfl | hentry
    · have hlt : floor < revision.sequence := habove floor hfloor _ hmem
      exact hlt
    · exact habove floor hfloor entry hentry
  · rcases mem_push hentry with rfl | hentry
    · exact .inr ⟨_, hmem, rfl⟩
    · exact .inl hentry

end OrbitCache
