import Orbit.Cache.Convergence
import Orbit.Cache.LastWrite
import Orbit.Table.Collect

/-! The observer and the stores read one history.  The observer sorts the mutations and folds them
into maps; a store takes them as they come, in polls, and remembers what it has dropped. -/

namespace OrbitCache

open Orbit.Table List Function Option

/-- A put that is still in the history. -/
structure RetainedEntry where
  key : Key
  revision : CacheRevision
  expiresAtMs : Option Nat
  payload : PayloadRef
  deriving DecidableEq

abbrev Stores := KeyMap Key (KeyMap Key RetainedEntry)

/-- `entry(store).or_default()`, changed in its place. -/
def Stores.change (stores : Stores) (store : Key)
    (f : KeyMap Key RetainedEntry → KeyMap Key RetainedEntry) : Stores :=
  stores.insert store (f ((stores.lookup store).getD ∅))

def Stores.take (stores : Stores) : CacheMutation → Stores
  | .put store key revision expiresAtMs payload =>
    stores.change store fun entries => entries.insert key ⟨key, revision, expiresAtMs, payload⟩
  | .delete store key _ => stores.change store fun entries => entries.erase key
  | .reset store _ => stores.change store fun _ => ∅

/-- `sort_by_key(CacheMutation::revision)`. -/
def sortByRevision (mutations : List CacheMutation) : List CacheMutation :=
  mutations.insertionSort fun m m' => m.revision ≤ m'.revision

/-- The observer's `apply`, on a new snapshot. -/
def observed (mutations : List CacheMutation) : Stores :=
  (sortByRevision mutations).foldl Stores.take ∅

def Stores.entry (stores : Stores) (store key : Key) : Option RetainedEntry :=
  (stores.lookup store).bind fun entries => entries.lookup key

/-- A store with room for `capacity` slots. -/
structure LocalCache where
  capacity : Nat
  state : LocalState

def LocalCache.new (capacity : Nat) : LocalCache := ⟨capacity, .init⟩

/-- The slot that an insertion into the LRU map pushes out.  The newest slot stands first. -/
def Slots.lru (slots : Slots) (capacity : Nat) : Option Key :=
  if slots.length < capacity then none else slots.getLast?.map fun entry => entry.1

def LocalCache.apply (cache : LocalCache) (mutation : CacheMutation) : LocalCache :=
  { cache with
    state := (cache.state.apply mutation true (cache.state.slots.lru cache.capacity)).1 }

abbrev Registry := KeyMap Key LocalCache

def Registry.dispatch (stores : Registry) (mutation : CacheMutation) : Registry :=
  match stores.lookup mutation.store with
  | some cache => stores.insert mutation.store (cache.apply mutation)
  | none => stores

/-- `Cache::poll`, on the mutations of one poll. -/
def Registry.poll (stores : Registry) (mutations : List CacheMutation) : Registry :=
  (sortByRevision mutations).foldl Registry.dispatch stores

def Registry.replay (stores : Registry) (polls : List (List CacheMutation)) : Registry :=
  polls.foldl Registry.poll stores

def LocalCache.entry (cache : LocalCache) (key : Key) : Option RetainedEntry :=
  match cache.state.slots.peek key with
  | some (.present payload revision expiresAtMs) => some ⟨key, revision, expiresAtMs, payload⟩
  | _ => none

def Registry.entry (stores : Registry) (store key : Key) : Option RetainedEntry :=
  (stores.lookup store).bind fun cache => cache.entry key

variable {mutations seen : List CacheMutation} {m : CacheMutation} {store key : Key}
  {entry found : RetainedEntry} {st : LocalState} {capacity : Nat} {slot : LocalSlot}

/-- No two mutations have one sequence. -/
def Distinct (mutations : List CacheMutation) : Prop :=
  (mutations.map fun m => m.revision.sequence).Nodup

instance (mutations : List CacheMutation) : Decidable (Distinct mutations) :=
  inferInstanceAs (Decidable (Nodup _))

/-- The entry was put, and nothing that concerns its key is newer. -/
def Survives (mutations : List CacheMutation) (store key : Key) (entry : RetainedEntry) : Prop :=
  entry.key = key ∧
    CacheMutation.put store key entry.revision entry.expiresAtMs entry.payload ∈ mutations ∧
      ∀ m ∈ mutations, m.concerns store key → m.revision.sequence ≤ entry.revision.sequence

theorem Distinct.eq (h : Distinct mutations) {m m' : CacheMutation} (hm : m ∈ mutations)
    (hm' : m' ∈ mutations) (hsame : m.revision.sequence = m'.revision.sequence) : m = m' :=
  inj_on_of_nodup_map h hm hm' hsame

theorem concerns_put (store key : Key) (revision : CacheRevision) (expiresAtMs : Option Nat)
    (payload : PayloadRef) :
    (CacheMutation.put store key revision expiresAtMs payload).concerns store key := by
  simp [CacheMutation.concerns]

theorem Survives.perm {mutations' : List CacheMutation} (hperm : mutations.Perm mutations') :
    Survives mutations store key entry ↔ Survives mutations' store key entry := by
  simp only [Survives, hperm.mem_iff]

theorem Distinct.perm {mutations' : List CacheMutation} (hperm : mutations.Perm mutations') :
    Distinct mutations ↔ Distinct mutations' := (hperm.map _).nodup_iff

theorem sortByRevision_perm (mutations : List CacheMutation) :
    (sortByRevision mutations).Perm mutations := perm_insertionSort _ _

theorem sortByRevision_sorted (mutations : List CacheMutation) :
    (sortByRevision mutations).Pairwise fun m m' => m.revision ≤ m'.revision := by
  have : Std.Total fun m m' : CacheMutation => m.revision ≤ m'.revision :=
    ⟨fun m m' => le_total _ _⟩
  have : IsTrans CacheMutation fun m m' => m.revision ≤ m'.revision :=
    ⟨fun _ _ _ h h' => le_trans h h'⟩
  exact pairwise_insertionSort _ _

theorem Stores.entry_change (stores : Stores) (store store' key : Key)
    (f : KeyMap Key RetainedEntry → KeyMap Key RetainedEntry) :
    (stores.change store f).entry store' key =
      if store' = store then (f ((stores.lookup store).getD ∅)).lookup key
      else stores.entry store' key := by
  rw [Stores.entry, Stores.change]
  split
  next heq => rw [heq, AList.lookup_insert, bind_some]
  next hne => rw [AList.lookup_insert_ne hne, Stores.entry]

theorem Stores.lookup_getD (stores : Stores) (store key : Key) :
    ((stores.lookup store).getD ∅).lookup key = stores.entry store key := by
  rw [Stores.entry]
  cases stores.lookup store with
  | none => rw [getD_none, AList.lookup_empty, bind_none]
  | some entries => rfl

def Reflects (stores : Stores) (seen : List CacheMutation) : Prop :=
  ∀ store key entry, stores.entry store key = some entry ↔ Survives seen store key entry

theorem survives_snoc (hnew : ∀ m' ∈ seen, m'.revision.sequence < m.revision.sequence) :
    Survives (seen ++ [m]) store key entry ↔
      if m.concerns store key then
        entry.key = key ∧ m = .put store key entry.revision entry.expiresAtMs entry.payload
      else Survives seen store key entry := by
  split
  next hconcerns =>
    constructor
    · rintro ⟨hkey, hput, hnewest⟩
      refine ⟨hkey, ?_⟩
      rcases mem_append.mp hput with hput | hput
      · have hle := hnewest m (mem_append_right _ (mem_singleton_self m)) hconcerns
        exact absurd (hnew _ hput) (Nat.not_lt.mpr hle)
      · exact (mem_singleton.mp hput).symm
    · rintro ⟨hkey, rfl⟩
      refine ⟨hkey, mem_append_right _ (mem_singleton_self _), fun m' hm' _ => ?_⟩
      rcases mem_append.mp hm' with hm' | hm'
      · exact Nat.le_of_lt (hnew m' hm')
      · rw [mem_singleton.mp hm']
        exact Nat.le_refl _
  next hother =>
    constructor
    · rintro ⟨hkey, hput, hnewest⟩
      refine ⟨hkey, ?_, fun m' hm' => hnewest m' (mem_append_left _ hm')⟩
      rcases mem_append.mp hput with hput | hput
      · exact hput
      · rw [← mem_singleton.mp hput] at hother
        exact absurd (concerns_put ..) hother
    · rintro ⟨hkey, hput, hnewest⟩
      refine ⟨hkey, mem_append_left _ hput, fun m' hm' hconcerns => ?_⟩
      rcases mem_append.mp hm' with hm' | hm'
      · exact hnewest m' hm' hconcerns
      · rw [mem_singleton.mp hm'] at hconcerns
        exact absurd hconcerns hother

theorem Reflects.take {stores : Stores} (h : Reflects stores seen)
    (hnew : ∀ m' ∈ seen, m'.revision.sequence < m.revision.sequence) :
    Reflects (stores.take m) (seen ++ [m]) := by
  intro store key entry
  rw [survives_snoc hnew, ← h store key entry]
  cases m with
  | put store' key' revision expiresAtMs payload =>
    rw [Stores.take, Stores.entry_change]
    by_cases hstore : store = store'
    · subst hstore
      rw [if_pos rfl]
      by_cases hkey : key = key'
      · subst hkey
        rw [AList.lookup_insert, if_pos (concerns_put ..)]
        constructor
        · intro heq
          cases heq
          exact ⟨rfl, rfl⟩
        · rintro ⟨hkey, heq⟩
          cases entry
          cases heq
          cases hkey
          rfl
      · have hother : ¬(CacheMutation.put store key' revision expiresAtMs payload).concerns store
            key := by
          simp [CacheMutation.concerns, Ne.symm hkey]
        rw [AList.lookup_insert_ne hkey, if_neg hother, Stores.lookup_getD]
    · have hother : ¬(CacheMutation.put store' key' revision expiresAtMs payload).concerns store
          key := by
        simp [CacheMutation.concerns, Ne.symm hstore]
      rw [if_neg hstore, if_neg hother]
  | delete store' key' revision =>
    rw [Stores.take, Stores.entry_change]
    by_cases hstore : store = store'
    · subst hstore
      rw [if_pos rfl]
      by_cases hkey : key = key'
      · subst hkey
        have hconcerns : (CacheMutation.delete store key revision).concerns store key := by
          simp [CacheMutation.concerns]
        rw [AList.lookup_erase, if_pos hconcerns]
        exact iff_of_false (fun heq => (by cases heq)) fun heq => (by cases heq.2)
      · have hother : ¬(CacheMutation.delete store key' revision).concerns store key := by
          simp [CacheMutation.concerns, Ne.symm hkey]
        rw [AList.lookup_erase_ne hkey, if_neg hother, Stores.lookup_getD]
    · have hother : ¬(CacheMutation.delete store' key' revision).concerns store key := by
        simp [CacheMutation.concerns, Ne.symm hstore]
      rw [if_neg hstore, if_neg hother]
  | reset store' revision =>
    rw [Stores.take, Stores.entry_change]
    by_cases hstore : store = store'
    · subst hstore
      have hconcerns : (CacheMutation.reset store revision).concerns store key := by
        simp [CacheMutation.concerns]
      rw [if_pos rfl, AList.lookup_empty, if_pos hconcerns]
      exact iff_of_false (fun heq => (by cases heq)) fun heq => (by cases heq.2)
    · have hother : ¬(CacheMutation.reset store' revision).concerns store key := by
        simp [CacheMutation.concerns, Ne.symm hstore]
      rw [if_neg hstore, if_neg hother]

theorem Reflects.foldl {stores : Stores} (h : Reflects stores seen)
    (hsorted : (seen ++ mutations).Pairwise fun m m' =>
      m.revision.sequence < m'.revision.sequence) :
    Reflects (mutations.foldl Stores.take stores) (seen ++ mutations) := by
  induction mutations generalizing stores seen with
  | nil => rwa [append_nil]
  | cons m rest ih =>
    have hsplit : seen ++ m :: rest = seen ++ [m] ++ rest := by
      rw [append_assoc, singleton_append]
    rw [hsplit] at hsorted ⊢
    refine ih (h.take fun m' hm' => ?_) hsorted
    have hbefore := (pairwise_append.mp (pairwise_append.mp hsorted).1).2.2
    exact hbefore m' hm' m (mem_singleton_self m)

theorem observed_iff (hdistinct : Distinct mutations) (store key : Key) (entry : RetainedEntry) :
    (observed mutations).entry store key = some entry ↔ Survives mutations store key entry := by
  have hperm := sortByRevision_perm mutations
  have hsorted : (sortByRevision mutations).Pairwise fun m m' =>
      m.revision.sequence < m'.revision.sequence := by
    have hne := pairwise_map.mp ((Distinct.perm hperm).mpr hdistinct)
    refine (List.Pairwise.and (sortByRevision_sorted mutations) hne).imp fun h => ?_
    exact Nat.lt_of_le_of_ne (CacheRevision.sequence_le h.1) h.2
  have hempty : Reflects ∅ [] := by
    intro store key entry
    refine iff_of_false (fun h => ?_) fun h => ?_
    · rw [Stores.entry, AList.lookup_empty] at h
      cases h
    · cases h.2.1
  rw [← Survives.perm hperm]
  exact (hempty.foldl hsorted) store key entry

def CacheMutation.written : CacheMutation → Option (Key × LocalSlot)
  | .put _ key revision expiresAtMs payload => some (key, .present payload revision expiresAtMs)
  | .delete _ key revision => some (key, .missing revision)
  | .reset _ _ => none

def CacheMutation.keyIn (store : Key) : CacheMutation → Option Key
  | .put store' key _ _ _ | .delete store' key _ => if store' = store then some key else none
  | .reset _ _ => none

def keysIn (mutations : List CacheMutation) (store : Key) : Finset Key :=
  (mutations.filterMap (CacheMutation.keyIn store)).toFinset

theorem mem_keysIn (hm : m ∈ mutations) (hstore : m.store = store)
    (hwritten : m.written = some (key, slot)) : key ∈ keysIn mutations store := by
  rw [keysIn, List.mem_toFinset, mem_filterMap]
  refine ⟨m, hm, ?_⟩
  cases m with
  | put store' key' revision expiresAtMs payload | delete store' key' revision =>
    cases hwritten
    exact if_pos hstore
  | reset store' revision => cases hwritten

/-- What a store that never had to give a slot up has of the mutations handed to it. -/
structure Complete (keys : Finset Key) (store : Key) (seen : List CacheMutation) (st : LocalState) :
    Prop where
  follows : Follows st seen
  floor : ∀ n, AtLeast st n → ∃ m ∈ seen, m.written = none ∧ m.store = store ∧
    n ≤ m.revision.sequence
  slots : ∀ entry ∈ st.slots, entry.1 ∈ keys ∧ ∃ m ∈ seen, m.written = some entry
  nodup : (st.slots.map fun entry => entry.1).Nodup

theorem peek_none (h : st.slots.peek key = none) : key ∉ st.slots.map fun entry => entry.1 := by
  intro hmem
  obtain ⟨entry, hentry, rfl⟩ := List.mem_map.mp hmem
  have hne := lookup_eq_none_iff.mp h entry hentry
  simp at hne

theorem lru_none {keys : Finset Key} (hnodup : (st.slots.map fun entry => entry.1).Nodup)
    (hslots : ∀ entry ∈ st.slots, entry.1 ∈ keys) (hkey : key ∈ keys)
    (hroom : keys.card ≤ capacity) (hpeek : st.slots.peek key = none) :
    st.slots.lru capacity = none := by
  have hnot := peek_none hpeek
  have hsub : (key :: st.slots.map fun entry => entry.1).toFinset ⊆ keys := by
    intro k hk
    rcases mem_cons.mp (List.mem_toFinset.mp hk) with rfl | hk
    · exact hkey
    · obtain ⟨entry, hentry, rfl⟩ := List.mem_map.mp hk
      exact hslots entry hentry
  have hcard := Finset.card_le_card hsub
  rw [toFinset_card_of_nodup (nodup_cons.mpr ⟨hnot, hnodup⟩), length_cons,
    length_map] at hcard
  exact if_pos (Nat.lt_of_lt_of_le hcard hroom)

theorem putSlot_room (hnodup : (st.slots.map fun entry => entry.1).Nodup)
    (hroom : st.slots.peek key = none → st.slots.lru capacity = none) :
    (st.putSlot key slot (st.slots.lru capacity)).1.revisionFloor = st.revisionFloor ∧
      ((st.putSlot key slot (st.slots.lru capacity)).1.slots.map fun entry => entry.1).Nodup := by
  unfold LocalState.putSlot
  split
  next => exact ⟨rfl, hnodup⟩
  next =>
    cases hpeek : st.slots.peek key with
    | some current =>
      simp only [Slots.push, hpeek]
      refine ⟨trivial, nodup_cons.mpr ⟨fun hmem => ?_, ?_⟩⟩
      · obtain ⟨entry, hentry, hkey⟩ := List.mem_map.mp hmem
        exact of_decide_eq_true (mem_filter.mp hentry).2 hkey
      · exact hnodup.sublist ((filter_sublist).map _)
    | none =>
      simp only [Slots.push, hpeek, hroom hpeek]
      exact ⟨trivial, nodup_cons.mpr ⟨peek_none hpeek, hnodup⟩⟩

theorem atLeast_advanceFloor {n k : Nat} (h : AtLeast (st.advanceFloor n) k) :
    AtLeast st k ∨ k ≤ n := by
  obtain ⟨floor, hfloor, hle⟩ := h
  rw [advanceFloor_floor] at hfloor
  obtain rfl := Option.some.inj hfloor
  cases hold : st.revisionFloor with
  | none =>
    rw [hold] at hle
    exact .inr hle
  | some current =>
    rw [hold] at hle
    rcases Nat.le_total current n with hmax | hmax
    · exact .inr (Nat.le_trans hle (Nat.max_le.mpr ⟨hmax, Nat.le_refl n⟩))
    · exact .inl ⟨current, hold, Nat.le_trans hle (Nat.max_le.mpr ⟨Nat.le_refl current, hmax⟩)⟩

theorem Complete.init (keys : Finset Key) (store : Key) : Complete keys store [] .init where
  follows := .init
  floor n h := by
    obtain ⟨floor, hfloor, -⟩ := h
    cases hfloor
  slots entry h := by cases h
  nodup := nodup_nil

section

variable {keys : Finset Key}

theorem Complete.skip (h : Complete keys store seen st) (hfollows : Follows st (seen ++ [m])) :
    Complete keys store (seen ++ [m]) st where
  follows := hfollows
  floor n hn := by
    obtain ⟨r, hr, hreset⟩ := h.floor n hn
    exact ⟨r, mem_append_left _ hr, hreset⟩
  slots entry hentry := by
    obtain ⟨hkey, m', hm', hwritten⟩ := h.slots entry hentry
    exact ⟨hkey, m', mem_append_left _ hm', hwritten⟩
  nodup := h.nodup

theorem Complete.putSlot (h : Complete keys store seen st) (hwritten : m.written = some (key, slot))
    (hkey : key ∈ keys) (hroom : keys.card ≤ capacity)
    (hfollows : Follows (st.putSlot key slot (st.slots.lru capacity)).1 (seen ++ [m])) :
    Complete keys store (seen ++ [m]) (st.putSlot key slot (st.slots.lru capacity)).1 := by
  obtain ⟨hfloor, hnodup⟩ := @putSlot_room key st capacity slot h.nodup
    (lru_none h.nodup (fun entry hentry => (h.slots entry hentry).1) hkey hroom)
  refine ⟨hfollows, fun n hn => ?_, fun entry hentry => ?_, hnodup⟩
  · obtain ⟨floor, hsome, hle⟩ := hn
    obtain ⟨r, hr, hreset⟩ := h.floor n ⟨floor, hfloor ▸ hsome, hle⟩
    exact ⟨r, mem_append_left _ hr, hreset⟩
  · rcases mem_putSlot hentry with rfl | hentry
    · exact ⟨hkey, m, mem_append_right _ (mem_singleton_self m), hwritten⟩
    · obtain ⟨hmem, m', hm', hm'written⟩ := h.slots entry hentry
      exact ⟨hmem, m', mem_append_left _ hm', hm'written⟩

theorem Complete.apply (h : Complete keys store seen st) (hstore : m.store = store)
    (hkeys : ∀ key slot, m.written = some (key, slot) → key ∈ keys) (hroom : keys.card ≤ capacity) :
    Complete keys store (seen ++ [m]) (st.apply m true (st.slots.lru capacity)).1 := by
  have hfollows := h.follows.takes (apply_takes st m true (st.slots.lru capacity))
  unfold LocalState.apply at hfollows ⊢
  split at hfollows
  next hrejects =>
    rw [if_pos hrejects]
    exact h.skip hfollows
  next haccepts =>
    rw [if_neg haccepts]
    cases m with
    | put store' key revision expiresAtMs payload =>
      exact h.putSlot rfl (hkeys key _ rfl) hroom hfollows
    | delete store' key revision =>
      exact h.putSlot rfl (hkeys key _ rfl) hroom hfollows
    | reset store' revision =>
      refine ⟨hfollows, fun n hn => ?_, fun entry hentry => ?_, ?_⟩
      · rcases atLeast_advanceFloor hn with hn | hn
        · obtain ⟨r, hr, hreset⟩ := h.floor n hn
          exact ⟨r, mem_append_left _ hr, hreset⟩
        · exact ⟨_, mem_append_right _ (mem_singleton_self _), rfl, hstore, hn⟩
      · obtain ⟨hkey, m', hm', hwritten⟩ := h.slots entry (mem_advanceFloor hentry)
        exact ⟨hkey, m', mem_append_left _ hm', hwritten⟩
      · exact h.nodup.sublist ((filter_sublist).map _)

theorem Complete.foldl {cache : LocalCache} (h : Complete keys store seen cache.state)
    (hroom : keys.card ≤ cache.capacity) (hstore : ∀ m ∈ mutations, m.store = store)
    (hkeys : ∀ m ∈ mutations, ∀ key slot, m.written = some (key, slot) → key ∈ keys) :
    Complete keys store (seen ++ mutations) (mutations.foldl LocalCache.apply cache).state := by
  induction mutations generalizing cache seen with
  | nil => rwa [append_nil]
  | cons m rest ih =>
    have hsplit : seen ++ m :: rest = seen ++ [m] ++ rest := by
      rw [append_assoc, singleton_append]
    rw [hsplit]
    have hnext : Complete keys store (seen ++ [m]) (cache.apply m).state :=
      h.apply (hstore m mem_cons_self) (hkeys m mem_cons_self) hroom
    refine ih hnext hroom (fun m' hm' => hstore m' ?_) fun m' hm' => hkeys m' ?_
    · exact mem_cons_of_mem _ hm'
    · exact mem_cons_of_mem _ hm'

end

theorem LocalCache.entry_eq {cache : LocalCache} :
    cache.entry key = some entry ↔ entry.key = key ∧ cache.state.slots.peek key =
      some (.present entry.payload entry.revision entry.expiresAtMs) := by
  unfold LocalCache.entry
  split
  next payload revision expiresAtMs hpeek =>
    constructor
    · intro h
      cases h
      exact ⟨rfl, hpeek⟩
    · rintro ⟨hkey, hentry⟩
      rw [hpeek] at hentry
      cases entry
      cases hentry
      cases hkey
      rfl
  next hother =>
    refine iff_of_false (fun h => (by cases h)) fun h => ?_
    exact hother _ _ _ h.2

/-- The store has what survives: its slots are newer than all that concerns their keys, and what has
no slot was reset or is older than a slot. -/
theorem Complete.entry_iff {keys : Finset Key} {cache : LocalCache}
    (h : Complete keys store seen cache.state) (hdistinct : Distinct seen)
    (hstore : ∀ m ∈ seen, m.store = store) (key : Key) (entry : RetainedEntry) :
    cache.entry key = some entry ↔ Survives seen store key entry := by
  rw [LocalCache.entry_eq]
  refine and_congr_right fun _ => ⟨fun hpeek => ?_, fun hsurvives => ?_⟩
  · obtain ⟨store', hput⟩ := h.follows.put _ _ _ _ (peek_mem hpeek)
    obtain rfl : store' = store := hstore _ hput
    exact ⟨hput, fun m hm hconcerns =>
      knows_le h.follows.above hpeek hconcerns (h.follows.knows m hm)⟩
  · obtain ⟨hput, hnewest⟩ := hsurvives
    rcases h.follows.knows _ hput with hfloor | ⟨slot, hslot, hle⟩
    · -- a floor as high as the put is the reset of the store
      obtain ⟨m, hm, hwritten, hstore', hreset⟩ := h.floor _ hfloor
      have hconcerns : m.concerns store key := by
        cases m with
        | put store' key' revision expiresAtMs payload | delete store' key' revision =>
          cases hwritten
        | reset store' revision => exact decide_eq_true hstore'
      have hsame := hdistinct.eq hm hput (Nat.le_antisymm (hnewest m hm hconcerns) hreset)
      rw [hsame] at hwritten
      cases hwritten
    · obtain ⟨-, m, hm, hwritten⟩ := h.slots _ (peek_mem hslot)
      have hconcerns : m.concerns store key := by
        have hstore' := hstore m hm
        cases m with
        | put store' key' revision expiresAtMs payload | delete store' key' revision =>
          cases hwritten
          exact Bool.and_eq_true_iff.mpr ⟨decide_eq_true hstore', decide_eq_true rfl⟩
        | reset store' revision => cases hwritten
      have hrevision : m.revision = slot.revision := by
        cases m with
        | put store' key' revision expiresAtMs payload | delete store' key' revision =>
          cases hwritten
          rfl
        | reset store' revision => cases hwritten
      have hle' := CacheRevision.sequence_le hle
      rw [← hrevision] at hle'
      have hsame := hdistinct.eq hm hput (Nat.le_antisymm (hnewest m hm hconcerns) hle')
      rw [hsame] at hwritten
      cases hwritten
      exact hslot

theorem Registry.lookup_dispatch (stores : Registry) (m : CacheMutation) (store : Key) :
    (stores.dispatch m).lookup store =
      (stores.lookup store).map fun cache => if m.store = store then cache.apply m else cache := by
  unfold Registry.dispatch
  split
  next cache hcache =>
    by_cases hstore : m.store = store
    · subst hstore
      rw [AList.lookup_insert, hcache, map_some, if_pos rfl]
    · rw [AList.lookup_insert_ne (Ne.symm hstore)]
      cases stores.lookup store with
      | none => rfl
      | some cache => rw [map_some, if_neg hstore]
  next hnone =>
    by_cases hstore : m.store = store
    · subst hstore
      rw [hnone, map_none]
    · cases stores.lookup store with
      | none => rfl
      | some cache => rw [map_some, if_neg hstore]

theorem Registry.lookup_foldl (stores : Registry) (mutations : List CacheMutation) (store : Key) :
    (mutations.foldl Registry.dispatch stores).lookup store =
      (stores.lookup store).map fun cache =>
        (mutations.filter fun m => m.store = store).foldl LocalCache.apply cache := by
  induction mutations generalizing stores with
  | nil =>
    rw [foldl_nil, filter_nil]
    exact (congrFun Option.map_id (stores.lookup store)).symm
  | cons m rest ih =>
    rw [foldl_cons, ih, Registry.lookup_dispatch, Option.map_map]
    congr 1
    funext cache
    by_cases hstore : m.store = store
    · rw [comp_apply, if_pos hstore, filter_cons, if_pos (decide_eq_true hstore),
        foldl_cons]
    · rw [comp_apply, if_neg hstore, filter_cons, if_neg (by simpa using hstore)]

theorem Registry.replay_eq (stores : Registry) (polls : List (List CacheMutation)) :
    stores.replay polls = (polls.map sortByRevision).flatten.foldl Registry.dispatch stores := by
  induction polls generalizing stores with
  | nil => rfl
  | cons poll rest ih =>
    rw [map_cons, flatten_cons, foldl_append, ← Registry.poll]
    exact ih (stores.poll poll)

theorem sorted_perm (polls : List (List CacheMutation)) :
    (polls.map sortByRevision).flatten.Perm polls.flatten := by
  induction polls with
  | nil => exact List.Perm.refl _
  | cons poll rest ih =>
    rw [map_cons, flatten_cons, flatten_cons]
    exact (sortByRevision_perm poll).append ih

theorem survives_filter :
    Survives (mutations.filter fun m => m.store = store) store key entry ↔
      Survives mutations store key entry := by
  refine and_congr_right fun _ => and_congr ?_ ?_
  · rw [mem_filter]
    exact ⟨fun h => h.1, fun h => ⟨h, decide_eq_true rfl⟩⟩
  · refine forall_congr' fun m => ⟨fun h hm hconcerns => ?_, fun h hm => ?_⟩
    · exact h (mem_filter.mpr ⟨hm, decide_eq_true (concerns_store hconcerns)⟩) hconcerns
    · exact h (mem_filter.mp hm).1

/-- New stores with room for all their keys, whatever the order in which the mutations come and the
polls they come in: the values that a store has are those that the observer has of the same history,
with their revisions, deadlines and payloads. -/
theorem replay_agrees (history : List CacheMutation) (hdistinct : Distinct history)
    (stores : Registry) (hfresh : ∀ store cache, stores.lookup store = some cache →
      cache.state = .init ∧ (keysIn history store).card ≤ cache.capacity)
    (polls : List (List CacheMutation)) (hpolls : polls.flatten.Perm history) :
    ∀ store ∈ stores, ∀ key,
      (stores.replay polls).entry store key = (observed history).entry store key := by
  intro store hmem key
  obtain ⟨cache, hcache⟩ := isSome_iff_exists.mp (AList.lookup_isSome.mpr hmem)
  obtain ⟨hinit, hroom⟩ := hfresh store cache hcache
  have hperm := (sorted_perm polls).trans hpolls
  have hstart : Complete (keysIn history store) store [] cache.state := by
    rw [hinit]
    exact .init _ _
  have hnamed : ∀ m ∈ (polls.map sortByRevision).flatten.filter (fun m => m.store = store),
      m.store = store := fun m hm => of_decide_eq_true (mem_filter.mp hm).2
  have hcomplete := hstart.foldl hroom hnamed fun m hm key slot hwritten => by
    have hin := hperm.mem_iff.mp (mem_filter.mp hm).1
    exact mem_keysIn hin (hnamed m hm) hwritten
  have hdistinct' : Distinct
      ((polls.map sortByRevision).flatten.filter fun m => m.store = store) :=
    ((Distinct.perm hperm).mpr hdistinct).sublist ((filter_sublist).map _)
  rw [nil_append] at hcomplete
  refine ext fun entry => ?_
  rw [observed_iff hdistinct, Registry.entry, Registry.replay_eq, Registry.lookup_foldl, hcache,
    map_some, bind_some, hcomplete.entry_iff hdistinct' hnamed, survives_filter,
    Survives.perm hperm]

def sampleHistory : List CacheMutation :=
  [.put [1] [10] ⟨1, 0⟩ none ⟨0, 0⟩, .reset [1] ⟨2, 0⟩, .put [1] [11] ⟨3, 0⟩ none ⟨1, 0⟩,
    .put [1] [12] ⟨4, 0⟩ (some 9) ⟨2, 0⟩, .delete [1] [11] ⟨5, 0⟩, .put [2] [10] ⟨6, 0⟩ none ⟨3, 0⟩]

/-- The same mutations in another order, in three polls. -/
def samplePolls : List (List CacheMutation) :=
  [[.delete [1] [11] ⟨5, 0⟩, .put [1] [12] ⟨4, 0⟩ (some 9) ⟨2, 0⟩],
    [.put [2] [10] ⟨6, 0⟩ none ⟨3, 0⟩],
    [.put [1] [11] ⟨3, 0⟩ none ⟨1, 0⟩, .put [1] [10] ⟨1, 0⟩ none ⟨0, 0⟩, .reset [1] ⟨2, 0⟩]]

def sampleStores : Registry := AList.singleton [1] (LocalCache.new 3)

theorem replay_agrees_sample :
    (sampleStores.replay samplePolls).entry [1] [12] = (observed sampleHistory).entry [1] [12] := by
  refine replay_agrees sampleHistory (by decide) sampleStores (fun store cache hcache => ?_)
    samplePolls (by decide) [1] (by decide) [12]
  have hstore : store = [1] := by
    have hmem : store ∈ sampleStores := AList.lookup_isSome.mp (by rw [hcache]; rfl)
    exact mem_singleton.mp (AList.mem_keys.mp hmem)
  subst hstore
  have hsome : sampleStores.lookup [1] = some (LocalCache.new 3) := rfl
  rw [hsome] at hcache
  cases hcache
  exact ⟨rfl, by decide⟩

end OrbitCache
