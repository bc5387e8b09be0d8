import Orbit.Session.Tickets

/-! What a push does to a set: it keeps every queue within its bound, and takes the place of nothing
but the oldest ticket of a full one. -/

namespace OrbitSession

open Option
open List hiding set

variable {g : Sizes} {domain key domain' key' value : List UInt8} {nowMs : Nat}

def SessionSlot.InUse (s : SessionSlot g) (nowMs : Nat) : Prop :=
  s.state = .occupied ∧ nowMs < s.expiresAtMs

instance (s : SessionSlot g) (nowMs : Nat) : Decidable (s.InUse nowMs) :=
  inferInstanceAs (Decidable (_ ∧ _))

/-- The entry is one of the key, and has not expired. -/
def SessionSlot.Valid (s : SessionSlot g) (domain key : List UInt8) (nowMs : Nat) : Prop :=
  s.Holds domain key ∧ nowMs < s.expiresAtMs

instance (s : SessionSlot g) (domain key : List UInt8) (nowMs : Nat) :
    Decidable (s.Valid domain key nowMs) :=
  inferInstanceAs (Decidable (_ ∧ _))

variable {s : SessionSlot g}

theorem SessionSlot.Valid.inUse (h : s.Valid domain key nowMs) :
    s.InUse nowMs := ⟨h.1.occupied, h.2⟩

def SessionSlot.Committed (s : SessionSlot g) : Prop :=
  s.state = .occupied → s.extents.isSome = true

theorem SessionSlot.committed_of_empty (h : s.state = .empty) : s.Committed := fun hoccupied => by
  rw [h] at hoccupied
  cases hoccupied

theorem SessionSlot.extents_isSome (h : s.extents.isSome = true) :
    (1 ≤ s.domainLen ∧ s.domainLen ≤ g.domainMax) ∧
      (1 ≤ s.keyLen ∧ s.keyLen ≤ g.keyCapacity) ∧ 1 ≤ s.valueLen ∧ s.valueLen ≤ g.valueMax := by
  unfold SessionSlot.extents at h
  split at h
  · cases h
  split at h
  · assumption
  · cases h

theorem SessionSlot.write_committed (s : SessionSlot g)
    (hfits : entryFits g domain key value = true) (hash inserted expires : Nat) :
    (s.write hash domain key value inserted expires).Committed := by
  obtain ⟨⟨hdpos, hdomain⟩, ⟨hkpos, hkey⟩, hvpos, hvalue⟩ := entryFits_iff.mp hfits
  have hdlen : domain.length % 2 ^ 8 = domain.length :=
    Nat.mod_eq_of_lt (by have := g.domain_fits; omega)
  have hklen : key.length % 2 ^ 8 = key.length := Nat.mod_eq_of_lt (by have := g.key_fits; omega)
  have hvlen : value.length % 2 ^ 32 = value.length :=
    Nat.mod_eq_of_lt (by have := g.value_fits; omega)
  have hd := length_pos_of_ne_nil hdpos
  have hk := length_pos_of_ne_nil hkpos
  have hv := length_pos_of_ne_nil hvpos
  intro _
  rw [SessionSlot.extents, SessionSlot.write]
  dsimp only
  rw [if_neg (fun h => h rfl), hdlen, hklen, hvlen, if_pos ⟨⟨hd, hdomain⟩, ⟨hk, hkey⟩, hv, hvalue⟩]
  rfl

theorem SessionSlot.Committed.storedValue (h : s.Committed) (hoccupied : s.state = .occupied) :
    s.storedValue = some (s.value.upto s.valueLen) := by
  obtain ⟨-, -, hpos, hmax⟩ := s.extents_isSome (h hoccupied)
  rw [SessionSlot.storedValue, if_neg (by omega), if_pos hmax]

theorem SessionSlot.Committed.not_refused (h : s.Committed) (hholds : s.Holds domain key) :
    ¬(domain.isEmpty = true ∨ g.domainMax < domain.length ∨
      key.isEmpty = true ∨ g.keyCapacity < key.length) := by
  obtain ⟨⟨hdpos, hdmax⟩, ⟨hkpos, hkmax⟩, -⟩ := s.extents_isSome (h hholds.occupied)
  simp only [SessionSlot.Holds, SessionSlot.matches, Bool.and_eq_true, decide_eq_true_eq] at hholds
  obtain ⟨⟨⟨⟨-, hdlen⟩, hklen⟩, -⟩, -⟩ := hholds
  rw [isEmpty_iff_length_eq_zero, isEmpty_iff_length_eq_zero]
  omega

def SessionSlot.tidied (s : SessionSlot g) (nowMs : Nat) : SessionSlot g :=
  if s.state ≠ .occupied ∨ s.expiresAtMs ≤ nowMs then s.release else s

theorem SessionSlot.idle_iff : s.state ≠ .occupied ∨ s.expiresAtMs ≤ nowMs ↔ ¬s.InUse nowMs := by
  rw [SessionSlot.InUse, not_and_or, Nat.not_lt]

theorem SessionSlot.tidied_inUse (h : s.InUse nowMs) : s.tidied nowMs = s :=
  if_neg fun hidle => SessionSlot.idle_iff.mp hidle h

theorem SessionSlot.tidied_empty (h : ¬s.InUse nowMs) : (s.tidied nowMs).state = .empty := by
  rw [SessionSlot.tidied, if_pos (SessionSlot.idle_iff.mpr h)]
  exact s.release_state

theorem SessionSlot.tidied_valid (s : SessionSlot g) :
    (s.tidied nowMs).Valid domain key nowMs ↔ s.Valid domain key nowMs := by
  by_cases h : s.InUse nowMs
  · rw [SessionSlot.tidied_inUse h]
  · have hempty := SessionSlot.tidied_empty h
    exact ⟨fun hvalid => absurd hvalid.1 (SessionSlot.not_holds_of_empty hempty),
      fun hvalid => absurd hvalid.inUse h⟩

def held (set : List (SessionSlot g)) (domain key : List UInt8) (nowMs : Nat) : Nat :=
  set.countP fun s => s.Valid domain key nowMs

/-- The slots have been seen. -/
structure Seen (domain key : List UInt8) (nowMs : Nat) (slots : List (SessionSlot g))
    (seen : PushScan) : Prop where
  matching : seen.matching = held slots domain key nowMs
  reusable : ∀ index, seen.reusable = some index → ∃ s, slots[index]? = some s ∧ ¬s.InUse nowMs
  full : seen.reusable = none → ∀ s ∈ slots, s.InUse nowMs
  oldestMatch : ∀ first, seen.oldestMatch = some first →
    ∃ s, slots[first.1]? = some s ∧ s.Valid domain key nowMs ∧ s.insertedAtMs = first.2 ∧
      ∀ other ∈ slots, other.Valid domain key nowMs → first.2 ≤ other.insertedAtMs
  unmatched : seen.oldestMatch = none → ∀ s ∈ slots, ¬s.Valid domain key nowMs
  oldest : seen.oldest.1 = 0 ∨ seen.oldest.1 < slots.length

namespace Seen

variable {slots : List (SessionSlot g)} {seen : PushScan} {slot : SessionSlot g}

theorem start : Seen (g := g) domain key nowMs [] .start where
  matching := rfl
  reusable _ h := by cases h
  full _ _ h := absurd h not_mem_nil
  oldestMatch _ h := by cases h
  unmatched _ _ h := absurd h not_mem_nil
  oldest := .inl rfl

theorem held_concat (slots : List (SessionSlot g)) (slot : SessionSlot g) :
    held (slots ++ [slot]) domain key nowMs =
      held slots domain key nowMs + if slot.Valid domain key nowMs then 1 else 0 := by
  rw [held, countP_append, countP_singleton]
  simp only [decide_eq_true_eq]
  rfl

theorem getElem?_last (slots : List (SessionSlot g)) (slot : SessionSlot g) :
    (slots ++ [slot])[slots.length]? = some slot := by
  rw [getElem?_append_right (Nat.le_refl _), Nat.sub_self]
  rfl

theorem getElem?_before {index : Nat} {s : SessionSlot g} (h : slots[index]? = some s)
    (slot : SessionSlot g) : (slots ++ [slot])[index]? = some s := by
  rw [getElem?_append_left (List.getElem?_eq_some_iff.mp h).1, h]

theorem skip (h : Seen domain key nowMs slots seen) (hidle : ¬slot.InUse nowMs) :
    Seen domain key nowMs (slots ++ [slot])
      { seen with reusable := some (seen.reusable.getD slots.length) } where
  matching := by
    rw [held_concat, if_neg fun hvalid => hidle hvalid.inUse]
    exact h.matching
  reusable index hindex := by
    have hindex := Option.some.inj hindex
    cases hreusable : seen.reusable with
    | none =>
      rw [hreusable] at hindex
      exact ⟨slot, hindex ▸ getElem?_last slots slot, hidle⟩
    | some first =>
      rw [hreusable] at hindex
      obtain ⟨s, hs, hfree⟩ := h.reusable first hreusable
      exact ⟨s, hindex ▸ getElem?_before hs slot, hfree⟩
  full hnone := by cases hnone
  oldestMatch first hfirst := by
    obtain ⟨s, hs, hvalid, htime, hleast⟩ := h.oldestMatch first hfirst
    refine ⟨s, getElem?_before hs slot, hvalid, htime, fun other hmem hother => ?_⟩
    rcases mem_append.mp hmem with hmem | hmem
    · exact hleast other hmem hother
    · rw [mem_singleton.mp hmem] at hother
      exact absurd hother.inUse hidle
  unmatched hnone other hmem hother := by
    rcases mem_append.mp hmem with hmem | hmem
    · exact h.unmatched hnone other hmem hother
    · rw [mem_singleton.mp hmem] at hother
      exact hidle hother.inUse
  oldest := by
    rw [length_append]
    exact h.oldest.imp_right fun hlt => Nat.lt_add_right 1 hlt

theorem earlier_of (index inserted : Nat) (first : Option (Nat × Nat)) :
    earlier index inserted first = (index, inserted) ∧ (∀ f, first = some f → inserted < f.2) ∨
      ∃ f, first = some f ∧ earlier index inserted first = f ∧ f.2 ≤ inserted := by
  cases first with
  | none => exact .inl ⟨rfl, fun _ h => by cases h⟩
  | some f =>
    rw [earlier]
    split
    · rename_i hlt
      exact .inl ⟨rfl, fun _ h => Option.some.inj h ▸ hlt⟩
    · rename_i hle
      exact .inr ⟨f, rfl, rfl, Nat.le_of_not_lt hle⟩

theorem count (h : Seen domain key nowMs slots seen) (huse : slot.InUse nowMs) :
    Seen domain key nowMs (slots ++ [slot])
      (seen.count (entryHash domain key) domain key slots.length slot) := by
  have hvalid : slot.Valid domain key nowMs ↔
      slot.matches (entryHash domain key) domain key = true :=
    ⟨fun h => h.1, fun h => ⟨h, huse.2⟩⟩
  refine ⟨?_, fun index hindex => ?_, fun hnone s hs => ?_, fun first hfirst => ?_,
    fun hnone s hs hs' => ?_, ?_⟩
  · rw [held_concat, ← h.matching, PushScan.count]
    simp only [hvalid]
    split <;> rfl
  · obtain ⟨s, hs, hfree⟩ := h.reusable index hindex
    exact ⟨s, getElem?_before hs slot, hfree⟩
  · rcases mem_append.mp hs with hs | hs
    · exact h.full hnone s hs
    · exact mem_singleton.mp hs ▸ huse
  · rw [PushScan.count] at hfirst
    dsimp only at hfirst
    split at hfirst
    · rename_i hmatch
      have hfirst := Option.some.inj hfirst
      rcases earlier_of slots.length slot.insertedAtMs seen.oldestMatch with ⟨hself, hbefore⟩ | ⟨f, hf, hsame, hle⟩
      · rw [hself] at hfirst
        subst hfirst
        refine ⟨slot, getElem?_last slots slot, hvalid.mpr hmatch, rfl, fun other hmem hother => ?_⟩
        rcases mem_append.mp hmem with hmem | hmem
        · cases hold : seen.oldestMatch with
          | none => exact absurd hother (h.unmatched hold other hmem)
          | some f =>
            obtain ⟨-, -, -, -, hleast⟩ := h.oldestMatch f hold
            exact ((hbefore f hold).le).trans (hleast other hmem hother)
        · rw [mem_singleton.mp hmem]
      · rw [hsame] at hfirst
        subst hfirst
        obtain ⟨s, hs, hsvalid, htime, hleast⟩ := h.oldestMatch f hf
        refine ⟨s, getElem?_before hs slot, hsvalid, htime, fun other hmem hother => ?_⟩
        rcases mem_append.mp hmem with hmem | hmem
        · exact hleast other hmem hother
        · rw [mem_singleton.mp hmem]
          exact hle
    · rename_i hmatch
      obtain ⟨s, hs, hsvalid, htime, hleast⟩ := h.oldestMatch first hfirst
      refine ⟨s, getElem?_before hs slot, hsvalid, htime, fun other hmem hother => ?_⟩
      rcases mem_append.mp hmem with hmem | hmem
      · exact hleast other hmem hother
      · rw [mem_singleton.mp hmem] at hother
        exact absurd (hvalid.mp hother) hmatch
  · rw [PushScan.count] at hnone
    dsimp only at hnone
    split at hnone
    · cases hnone
    · rename_i hmatch
      rcases mem_append.mp hs with hs | hs
      · exact h.unmatched hnone s hs hs'
      · rw [mem_singleton.mp hs] at hs'
        exact hmatch (hvalid.mp hs')
  · rw [length_append, length_singleton]
    rcases earlier_of slots.length slot.insertedAtMs (some seen.oldest) with ⟨hself, -⟩ | ⟨f, hf, hsame, -⟩
    · refine .inr ?_
      rw [PushScan.count, hself]
      exact Nat.lt_succ_self _
    · rw [PushScan.count, hsame, ← Option.some.inj hf]
      exact h.oldest.imp_right Nat.lt_succ_of_lt

theorem scan (h : Seen domain key nowMs slots seen) (rest : List (SessionSlot g)) :
    Seen domain key nowMs (slots ++ rest)
        (scanPush (entryHash domain key) domain key nowMs rest slots.length seen).2 ∧
      (scanPush (entryHash domain key) domain key nowMs rest slots.length seen).1 =
        rest.map (·.tidied nowMs) := by
  induction rest generalizing slots seen with
  | nil =>
    rw [append_nil]
    exact ⟨h, rfl⟩
  | cons slot rest ih =>
    have hlen : slots.length + 1 = (slots ++ [slot]).length := by
      rw [length_append, length_singleton]
    have happend : slots ++ slot :: rest = slots ++ [slot] ++ rest := by
      rw [append_assoc, singleton_append]
    rw [happend, map_cons, scanPush]
    split
    · rename_i hidle
      obtain ⟨hseen, htidy⟩ := ih (h.skip (SessionSlot.idle_iff.mp hidle))
      rw [hlen]
      refine ⟨hseen, ?_⟩
      dsimp only
      rw [htidy, SessionSlot.tidied, if_pos hidle]
    · rename_i hidle
      have huse : slot.InUse nowMs := by
        by_contra huse
        exact hidle (SessionSlot.idle_iff.mpr huse)
      obtain ⟨hseen, htidy⟩ := ih (h.count huse)
      rw [hlen]
      refine ⟨hseen, ?_⟩
      dsimp only
      rw [htidy, SessionSlot.tidied, if_neg hidle]

end Seen

/-- The way is in the set; when there is a full queue its oldest ticket stands there, and when
there is not, whatever is free or has expired is taken first. -/
structure Chosen (domain key : List UInt8) (nowMs maxValues : Nat) (set : List (SessionSlot g))
    (index : Nat) (old : SessionSlot g) : Prop where
  slot : set[index]? = some old
  replaced : maxValues ≤ held set domain key nowMs → old.Valid domain key nowMs ∧
    ∀ other ∈ set, other.Valid domain key nowMs → old.insertedAtMs ≤ other.insertedAtMs
  spared : held set domain key nowMs < maxValues → (∃ s ∈ set, ¬s.InUse nowMs) →
    ¬old.InUse nowMs

variable {set : List (SessionSlot g)}

theorem Seen.chosen {seen : PushScan} (h : Seen domain key nowMs set seen) (hset : 0 < set.length)
    {maxValues : Nat} (hmax : maxValues ≠ 0) :
    ∃ old, Chosen domain key nowMs maxValues set (seen.candidate maxValues) old := by
  rw [PushScan.candidate, h.matching]
  split
  · rename_i hfull
    have hpos : 0 < held set domain key nowMs := by omega
    obtain ⟨s, hs, hvalid⟩ := countP_pos_iff.mp hpos
    cases hmatch : seen.oldestMatch with
    | none => exact absurd (of_decide_eq_true hvalid) (h.unmatched hmatch s hs)
    | some first =>
      obtain ⟨old, hold, hvalid, htime, hleast⟩ := h.oldestMatch first hmatch
      exact ⟨old, hold, fun _ => ⟨hvalid, htime ▸ hleast⟩, fun hroom => absurd hfull (by omega)⟩
  · rename_i hroom
    cases hreusable : seen.reusable with
    | some index =>
      obtain ⟨old, hold, hidle⟩ := h.reusable index hreusable
      exact ⟨old, hold, fun hfull => absurd hfull hroom, fun _ _ => hidle⟩
    | none =>
      have hlt : seen.oldest.1 < set.length := by
        rcases h.oldest with hzero | hlt
        · rw [hzero]
          exact hset
        · exact hlt
      refine ⟨set[seen.oldest.1], getElem?_eq_getElem hlt, fun hfull => absurd hfull hroom,
        fun _ hfree => ?_⟩
      obtain ⟨s, hs, hidle⟩ := hfree
      exact absurd (h.full hreusable s hs) hidle

/-- What a push does to the set of its key. -/
structure Pushed (domain key value : List UInt8) (nowMs maxValues : Nat)
    (set set' : List (SessionSlot g)) : Prop where
  bounded : held set' domain key nowMs ≤ maxValues
  stored : ∃ index old new, Chosen domain key nowMs maxValues set index old ∧
    set'[index]? = some new ∧ new.Valid domain key nowMs ∧
    new.value.upto new.valueLen = value ∧ new.insertedAtMs = nowMs ∧
    ∀ i, i ≠ index → ∀ s, s.InUse nowMs → (set[i]? = some s ↔ set'[i]? = some s)

theorem held_tidied (set : List (SessionSlot g)) :
    held (set.map (·.tidied nowMs)) domain key nowMs = held set domain key nowMs := by
  rw [held, countP_map]
  refine countP_congr fun s _ => ?_
  simp only [Function.comp_apply, decide_eq_true_eq]
  exact s.tidied_valid

theorem held_set {index : Nat} {old : SessionSlot g} (hold : set[index]? = some old)
    (new : SessionSlot g) (domain key : List UInt8) (nowMs : Nat) :
    held (set.set index new) domain key nowMs + (if old.Valid domain key nowMs then 1 else 0) =
      held set domain key nowMs + if new.Valid domain key nowMs then 1 else 0 := by
  obtain ⟨hlt, hold⟩ := List.getElem?_eq_some_iff.mp hold
  subst hold
  have hle : (if set[index].Valid domain key nowMs then 1 else 0) ≤ held set domain key nowMs := by
    split
    · rename_i hvalid
      exact countP_pos_iff.mpr ⟨_, getElem_mem hlt, decide_eq_true hvalid⟩
    · exact Nat.zero_le _
  rw [held, countP_set hlt]
  simp only [decide_eq_true_eq]
  rw [held] at hle ⊢
  omega

theorem getElem?_tidied {i : Nat} (huse : s.InUse nowMs) :
    (set.map (·.tidied nowMs))[i]? = some s ↔ set[i]? = some s := by
  rw [getElem?_map]
  constructor
  · intro h
    obtain ⟨s', hs', heq⟩ := map_eq_some_iff.mp h
    by_cases huse' : s'.InUse nowMs
    · rw [SessionSlot.tidied_inUse huse'] at heq
      rw [hs', heq]
    · have hempty := SessionSlot.tidied_empty huse'
      rw [heq, huse.1] at hempty
      cases hempty
  · intro h
    rw [h, map_some, SessionSlot.tidied_inUse huse]

theorem scanPush_seen (set : List (SessionSlot g)) (domain key : List UInt8) (nowMs : Nat) :
    Seen domain key nowMs set (scanPush (entryHash domain key) domain key nowMs set 0 .start).2 ∧
      (scanPush (entryHash domain key) domain key nowMs set 0 .start).1 =
        set.map (·.tidied nowMs) :=
  Seen.start.scan set

theorem pushSet_eq (hset : 0 < set.length) {maxValues : Nat} (hmax : maxValues ≠ 0)
    (domain key value : List UInt8) (nowMs expires : Nat) :
    ∃ index old, Chosen domain key nowMs maxValues set index old ∧
      pushSet (entryHash domain key) domain key value nowMs expires maxValues set =
        (set.map (·.tidied nowMs)).set index
          ((old.tidied nowMs).write (entryHash domain key) domain key value nowMs expires) := by
  obtain ⟨hseen, htidy⟩ := scanPush_seen set domain key nowMs
  obtain ⟨old, hchosen⟩ := hseen.chosen hset hmax
  refine ⟨_, old, hchosen, ?_⟩
  have hold : (set.map (·.tidied nowMs))[((scanPush (entryHash domain key) domain key nowMs set 0
      .start).2.candidate maxValues)]? = some (old.tidied nowMs) := by
    rw [getElem?_map, hchosen.slot]
    rfl
  rw [pushSet, htidy, modify_eq_set_getElem?, hold]
  rfl

theorem held_mono {clock : Nat} (h : clock ≤ nowMs) :
    held set domain key nowMs ≤ held set domain key clock := by
  refine countP_mono_left fun s _ hvalid => ?_
  obtain ⟨hholds, hlive⟩ := of_decide_eq_true hvalid
  exact decide_eq_true ⟨hholds, h.trans_lt hlive⟩

theorem lt_expiresAt (ttl : Nat) (h : nowMs < u64Max) : nowMs < expiresAt nowMs ttl := by
  have hpos : 0 < u64Max := Nat.zero_lt_of_lt h
  unfold expiresAt
  omega

theorem expiresAt_le (nowMs ttl : Nat) : expiresAt nowMs ttl ≤ u64Max := Nat.min_le_right ..

section push

variable {set : List (SessionSlot g)} {maxValues ttl : Nat}

theorem held_pushSet (hset : 0 < set.length) (hmax : maxValues ≠ 0)
    (hfits : entryFits g domain key value = true) (expires : Nat)
    (hheld : held set domain' key' nowMs ≤ maxValues) :
    held (pushSet (entryHash domain key) domain key value nowMs expires maxValues set)
      domain' key' nowMs ≤ maxValues := by
  obtain ⟨index, old, hchosen, heq⟩ := pushSet_eq hset hmax domain key value nowMs expires
  have hold : (set.map (·.tidied nowMs))[index]? = some (old.tidied nowMs) := by
    rw [getElem?_map, hchosen.slot]
    rfl
  have hcount := held_set hold
    ((old.tidied nowMs).write (entryHash domain key) domain key value nowMs expires)
    domain' key' nowMs
  rw [held_tidied] at hcount
  rw [heq]
  by_cases hsame : domain' = domain ∧ key' = key
  · obtain ⟨rfl, rfl⟩ := hsame
    rcases Nat.lt_or_ge (held set domain' key' nowMs) maxValues with hroom | hfull
    · split at hcount <;> split at hcount <;> omega
    · have hvalid := old.tidied_valid.mpr (hchosen.replaced hfull).1
      rw [if_pos hvalid] at hcount
      split at hcount <;> omega
  · have hnew : ¬((old.tidied nowMs).write (entryHash domain key) domain key value nowMs
        expires).Valid domain' key' nowMs := fun hvalid =>
      hsame ((SessionSlot.write_spec _ hfits nowMs expires).1.eq hvalid.1)
    rw [if_neg hnew] at hcount
    omega

theorem pushSet_pushed (hset : 0 < set.length) (hmax : maxValues ≠ 0)
    (hfits : entryFits g domain key value = true)
    (hheld : held set domain key nowMs ≤ maxValues) (hlive : nowMs < u64Max) :
    Pushed domain key value nowMs maxValues set
      (pushSet (entryHash domain key) domain key value nowMs (expiresAt nowMs ttl) maxValues set) where
  bounded := held_pushSet hset hmax hfits _ hheld
  stored := by
    obtain ⟨index, old, hchosen, heq⟩ := pushSet_eq hset hmax domain key value nowMs (expiresAt nowMs ttl)
    obtain ⟨hholds, hvalue, hexpires⟩ :=
      (old.tidied nowMs).write_spec hfits nowMs (expiresAt nowMs ttl)
    have hlt : index < (set.map (·.tidied nowMs)).length := by
      rw [length_map]
      exact (List.getElem?_eq_some_iff.mp hchosen.slot).1
    refine ⟨index, old, _, hchosen, ?_, ⟨hholds, ?_⟩, hvalue, rfl, fun i hi s huse => ?_⟩
    · rw [heq, getElem?_set_self hlt]
    · rw [hexpires]
      exact lt_expiresAt ttl hlive
    · rw [heq, getElem?_set_ne (Ne.symm hi), getElem?_tidied huse]

end push

end OrbitSession
