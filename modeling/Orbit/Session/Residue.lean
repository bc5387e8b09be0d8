import Orbit.Session.Erasure

/-! Session secrets leave no residue: whichever store a process dies after, a free slot is zero all over,
an occupied one outside its entry, and any other one is erased whole before it is used again. -/

namespace OrbitSession

open Function Option
open List hiding set

variable {g : Sizes} {m : Accesses} {domain key value : List UInt8} {nowMs : Nat}

def KeepState (g : Sizes) (stores : List SlotStore) : Prop :=
  ∀ store ∈ stores, ∀ s : SessionSlot g, (s.apply store).state = s.state

theorem KeepState.append {first second : List SlotStore} (h : KeepState g first)
    (h' : KeepState g second) : KeepState g (first ++ second) := fun store hstore =>
  (mem_append.mp hstore).elim (h store) (h' store)

theorem KeepState.bytes (area : Area) (pieces : List (Nat × Nat)) (source : Nat × Nat → List UInt8) :
    KeepState g (pieces.map fun piece => .bytes area piece.1 (source piece)) := by
  intro store hstore s
  obtain ⟨piece, -, rfl⟩ := List.mem_map.mp hstore
  cases area <;> rfl

theorem KeepState.forget : KeepState g forgetStores := by
  intro store hstore s
  simp only [forgetStores, mem_cons, not_mem_nil, or_false] at hstore
  rcases hstore with rfl | rfl | rfl | rfl | rfl | rfl <;> rfl

theorem KeepState.empty (domain key value : Nat) : KeepState g (emptyStores m domain key value) :=
  (((bytes _ _ _).append (bytes _ _ _)).append (bytes _ _ _)).append .forget

theorem KeepState.write (hash inserted expires : Nat) :
    KeepState g ([.domainLen (domain.length % 2 ^ 8), .keyLen (key.length % 2 ^ 8),
      .valueLen (value.length % 2 ^ 32), .keyHash hash, .insertedAtMs inserted,
      .expiresAtMs expires] ++ copyStores m .domain domain ++ copyStores m .key key ++
        copyStores m .value value) := by
  refine ((KeepState.append ?_ (bytes _ _ _)).append (bytes _ _ _)).append (bytes _ _ _)
  intro store hstore s
  simp only [mem_cons, not_mem_nil, or_false] at hstore
  rcases hstore with rfl | rfl | rfl | rfl | rfl | rfl <;> rfl

theorem KeepState.applyAll {stores : List SlotStore} (h : KeepState g stores) (s : SessionSlot g) :
    (s.applyAll stores).state = s.state := by
  induction stores generalizing s with
  | nil => rfl
  | cons store stores ih =>
    have hrest := ih (fun other hother => h other (mem_cons_of_mem _ hother)) (s.apply store)
    exact hrest.trans (h store mem_cons_self s)

/-- The slot is clean after every store. -/
def SessionSlot.Safe (s : SessionSlot g) (stores : List SlotStore) : Prop :=
  ∀ done rest, stores = done ++ rest → (s.applyAll done).Clean

variable {s : SessionSlot g} {way : Nat}

theorem SessionSlot.Clean.safe_nil (h : s.Clean) : s.Safe [] := by
  intro done rest heq
  obtain ⟨rfl, -⟩ := append_eq_nil_iff.mp heq.symm
  exact h

theorem SessionSlot.Safe.append {first second : List SlotStore} (h : s.Safe first)
    (h' : (s.applyAll first).Safe second) : s.Safe (first ++ second) := by
  intro done rest heq
  rcases append_eq_append_iff.mp heq with ⟨more, rfl, hrest⟩ | ⟨more, hfirst, -⟩
  · rw [SessionSlot.applyAll_append]
    exact h' more rest hrest
  · exact h done more hfirst

theorem SessionSlot.Clean.safe_between (h : s.Clean) {state : SlotState} {stores : List SlotStore}
    (hkeep : KeepState g stores) (hlast : (s.applyAll (between state stores)).Clean) :
    s.Safe (between state stores) := by
  intro done rest heq
  cases done with
  | nil => exact h
  | cons first done =>
    obtain ⟨rfl, htail⟩ := List.cons.inj heq
    rcases append_eq_append_iff.mp htail with ⟨more, rfl, hrest⟩ | ⟨more, hstores, -⟩
    · cases more with
      | nil =>
        rw [append_nil]
        exact SessionSlot.clean_writing (hkeep.applyAll _)
      | cons last more =>
        obtain ⟨rfl, hnil⟩ := List.cons.inj hrest
        obtain ⟨rfl, -⟩ := append_eq_nil_iff.mp hnil.symm
        exact hlast
    · have hdone : KeepState g done := fun store hstore =>
        hkeep store (hstores ▸ mem_append_left _ hstore)
      exact SessionSlot.clean_writing (hdone.applyAll _)

theorem SessionSlot.Clean.safe_clear (h : s.Clean) : s.Safe (clearStores m g) := by
  refine h.safe_between (.empty _ _ _) ?_
  change (s.applyAll (clearStores m g)).Clean
  rw [SessionSlot.applyAll_clear, SessionSlot.clear_eq]
  exact SessionSlot.clean_empty

theorem SessionSlot.Clean.safe_release (h : s.Clean) : s.Safe (s.releaseStores m) := by
  have hlast : (s.applyAll (s.releaseStores m)).Clean := by
    rw [SessionSlot.applyAll_release, h.release]
    exact SessionSlot.clean_empty
  unfold SessionSlot.releaseStores at hlast ⊢
  split at hlast
  · rename_i hempty
    rw [if_pos hempty]
    exact h.safe_nil
  rename_i hfilled
  rw [if_neg hfilled]
  cases hextents : s.extents with
  | none => exact h.safe_clear
  | some extents =>
    rw [hextents] at hlast
    exact h.safe_between (.empty _ _ _) hlast

theorem SessionSlot.Clean.safe_write (h : s.Clean) (hfits : entryFits g domain key value = true)
    (hash inserted expires : Nat) :
    s.Safe (s.writeStores m hash domain key value inserted expires) := by
  have hlast : (s.applyAll (s.writeStores m hash domain key value inserted expires)).Clean := by
    rw [SessionSlot.applyAll_write, h.write]
    exact SessionSlot.clean_filled hfits ..
  unfold SessionSlot.writeStores at hlast ⊢
  rw [SessionSlot.applyAll_append, SessionSlot.applyAll_release, h.release] at hlast
  refine h.safe_release.append ?_
  rw [SessionSlot.applyAll_release, h.release]
  exact SessionSlot.clean_empty.safe_between (.write _ _ _) hlast

def CleanSet (set : List (SessionSlot g)) : Prop := ∀ slot ∈ set, slot.Clean

def SafeSet (set : List (SessionSlot g)) (stores : List SetStore) : Prop :=
  ∀ done rest, stores = done ++ rest → CleanSet (applySet set done)

theorem applySet_append (set : List (SessionSlot g)) (first second : List SetStore) :
    applySet set (first ++ second) = applySet (applySet set first) second :=
  foldl_append

variable {set : List (SessionSlot g)}

theorem CleanSet.safe_nil (h : CleanSet set) : SafeSet set [] := by
  intro done rest heq
  obtain ⟨rfl, -⟩ := append_eq_nil_iff.mp heq.symm
  exact h

theorem SafeSet.append {first second : List SetStore} (h : SafeSet set first)
    (h' : SafeSet (applySet set first) second) : SafeSet set (first ++ second) := by
  intro done rest heq
  rcases append_eq_append_iff.mp heq with ⟨more, rfl, hrest⟩ | ⟨more, hfirst, -⟩
  · rw [applySet_append]
    exact h' more rest hrest
  · exact h done more hfirst

theorem applySet_atWay (set : List (SessionSlot g)) (way : Nat) (stores : List SlotStore) :
    applySet set (atWay way stores) = set.modify way fun s => s.applyAll stores := by
  induction stores generalizing set with
  | nil => exact (modify_id way set).symm
  | cons store stores ih =>
    change applySet (set.modify way fun s => s.apply store) (atWay way stores) = _
    rw [ih, modify_modify_eq]
    rfl

theorem CleanSet.modify (h : CleanSet set) {f : SessionSlot g → SessionSlot g}
    (hf : ∀ slot, set[way]? = some slot → (f slot).Clean) : CleanSet (set.modify way f) := by
  intro slot hslot
  obtain ⟨i, hi⟩ := mem_iff_getElem?.mp hslot
  rw [getElem?_modify] at hi
  obtain ⟨old, hold, heq⟩ := map_eq_some_iff.mp hi
  split at heq
  · rename_i hway
    subst hway heq
    exact hf old hold
  · subst heq
    exact h _ (mem_of_getElem? hold)

theorem CleanSet.safe_atWay (h : CleanSet set) {stores : List SlotStore}
    (hsafe : ∀ slot, set[way]? = some slot → slot.Safe stores) :
    SafeSet set (atWay way stores) := by
  intro done rest heq
  obtain ⟨first, second, rfl, rfl, rfl⟩ := map_eq_append_iff.mp heq
  change CleanSet (applySet set (atWay way first))
  rw [applySet_atWay]
  exact h.modify fun slot hslot => hsafe slot hslot first second rfl

theorem modify_length (before rest : List (SessionSlot g)) (slot : SessionSlot g)
    (f : SessionSlot g → SessionSlot g) :
    (before ++ slot :: rest).modify before.length f = before ++ f slot :: rest := by
  induction before with
  | nil => exact modify_zero_cons f slot rest
  | cons first before ih => exact (modify_succ_cons ..).trans (congrArg (first :: ·) ih)

theorem safe_scan {stores : SessionSlot g → List SlotStore} {f : SessionSlot g → SessionSlot g}
    (hf : ∀ s, s.Clean → s.Safe (stores s) ∧ s.applyAll (stores s) = f s)
    (before : List (SessionSlot g)) (h : CleanSet (before ++ set)) :
    SafeSet (before ++ set) (scanStores stores set before.length) ∧
      applySet (before ++ set) (scanStores stores set before.length) = before ++ set.map f := by
  induction set generalizing before with
  | nil => exact ⟨h.safe_nil, rfl⟩
  | cons slot rest ih =>
    have hget : (before ++ slot :: rest)[before.length]? = some slot := by
      rw [getElem?_append_right (Nat.le_refl _), Nat.sub_self]
      rfl
    obtain ⟨hsafe, hall⟩ := hf slot (h slot (mem_append_right _ mem_cons_self))
    have hfirst : SafeSet (before ++ slot :: rest) (atWay before.length (stores slot)) := by
      refine h.safe_atWay fun old hold => ?_
      rw [hget] at hold
      exact Option.some.inj hold ▸ hsafe
    have happly : applySet (before ++ slot :: rest) (atWay before.length (stores slot)) =
        (before ++ [f slot]) ++ rest := by
      rw [applySet_atWay, modify_length, hall, append_assoc]
      rfl
    have hclean : CleanSet ((before ++ [f slot]) ++ rest) := by
      rw [← happly]
      exact hfirst _ [] (append_nil _).symm
    obtain ⟨hrest, hdone⟩ := ih _ hclean
    rw [length_append, length_singleton] at hrest hdone
    rw [scanStores]
    refine ⟨hfirst.append ?_, ?_⟩
    · rw [happly]
      exact hrest
    · rw [applySet_append, happly, hdone, append_assoc]
      rfl

theorem CleanSet.write (h : CleanSet set) (hfits : entryFits g domain key value = true)
    (way hash inserted expires : Nat) :
    SafeSet set (writeWayStores m set way hash domain key value inserted expires) ∧
      applySet set (writeWayStores m set way hash domain key value inserted expires) =
        set.modify way fun s => s.write hash domain key value inserted expires := by
  unfold writeWayStores
  cases hslot : set[way]? with
  | none =>
    have hout : set.length ≤ way := List.getElem?_eq_none_iff.mp hslot
    exact ⟨h.safe_nil, (modify_eq_self hout).symm⟩
  | some slot =>
    refine ⟨h.safe_atWay fun old hold => ?_, ?_⟩
    · rw [hslot] at hold
      obtain rfl := Option.some.inj hold
      exact (h slot (mem_of_getElem? hslot)).safe_write hfits _ _ _
    · dsimp only
      rw [applySet_atWay]
      refine ext_getElem? fun i => ?_
      by_cases hway : way = i
      · subst hway
        rw [getElem?_modify_eq, getElem?_modify_eq, hslot]
        exact congrArg some (slot.applyAll_write ..)
      · rw [getElem?_modify_ne _ _ hway, getElem?_modify_ne _ _ hway]

theorem SessionSlot.Clean.tidy (h : s.Clean) :
    s.Safe (s.tidyStores m nowMs) ∧ s.applyAll (s.tidyStores m nowMs) = s.tidied nowMs := by
  unfold SessionSlot.tidyStores SessionSlot.tidied
  split
  · exact ⟨h.safe_release, s.applyAll_release⟩
  · exact ⟨h.safe_nil, rfl⟩

def SessionSlot.afterRead (s : SessionSlot g) (nowMs : Nat) (consume : Bool) : SessionSlot g :=
  if s.expiresAtMs ≤ nowMs then s.release
  else
    match s.storedValue with
    | none => s.clear
    | some _ => if consume then s.release else s

theorem SessionSlot.Clean.read (h : s.Clean) (consume : Bool) :
    s.Safe (s.readStores m nowMs consume) ∧
      s.applyAll (s.readStores m nowMs consume) = s.afterRead nowMs consume := by
  unfold SessionSlot.readStores SessionSlot.afterRead
  split
  · exact ⟨h.safe_release, s.applyAll_release⟩
  cases s.storedValue with
  | none => exact ⟨h.safe_clear, s.applyAll_clear⟩
  | some _ =>
    cases consume with
    | false => exact ⟨h.safe_nil, rfl⟩
    | true => exact ⟨h.safe_release, s.applyAll_release⟩

theorem readSet_first_eq (hash : Nat) (consume : Bool) {slot : SessionSlot g}
    (rest : List (SessionSlot g)) (hmatch : slot.matches hash domain key = true) :
    (readSet hash domain key nowMs consume (slot :: rest)).1 =
      slot.afterRead nowMs consume :: rest := by
  rw [readSet, hmatch, Bool.not_true, if_neg Bool.false_ne_true, SessionSlot.afterRead]
  split
  · rfl
  cases slot.storedValue with
  | none => rfl
  | some _ => cases consume <;> rfl

theorem CleanSet.read (hash : Nat) (consume : Bool) (before : List (SessionSlot g))
    (h : CleanSet (before ++ set)) :
    SafeSet (before ++ set) (readSetStores m hash domain key nowMs consume set before.length) ∧
      applySet (before ++ set) (readSetStores m hash domain key nowMs consume set before.length) =
        before ++ (readSet hash domain key nowMs consume set).1 := by
  induction set generalizing before with
  | nil => exact ⟨h.safe_nil, rfl⟩
  | cons slot rest ih =>
    by_cases hmatch : slot.matches hash domain key = true
    · have hget : (before ++ slot :: rest)[before.length]? = some slot := by
        rw [getElem?_append_right (Nat.le_refl _), Nat.sub_self]
        rfl
      obtain ⟨hsafe, hall⟩ : slot.Safe (slot.readStores m nowMs consume) ∧ _ :=
        (h slot (mem_append_right _ mem_cons_self)).read consume
      rw [readSet_first_eq hash consume rest hmatch, readSetStores, hmatch, Bool.not_true,
        if_neg Bool.false_ne_true]
      refine ⟨h.safe_atWay fun old hold => ?_, ?_⟩
      · rw [hget] at hold
        exact Option.some.inj hold ▸ hsafe
      · rw [applySet_atWay, modify_length, hall]
    · have hno : slot.matches hash domain key = false := Bool.eq_false_iff.mpr hmatch
      have happend : before ++ slot :: rest = (before ++ [slot]) ++ rest := by
        rw [append_assoc]
        rfl
      rw [happend] at h ⊢
      have hrest := ih _ h
      rw [length_append, length_singleton] at hrest
      rw [readSetStores, readSet, hno, Bool.not_false, if_pos rfl, if_pos rfl]
      refine ⟨hrest.1, hrest.2.trans ?_⟩
      rw [append_assoc]
      rfl

theorem CleanSet.op (h : CleanSet set) {op : SetOp} (hchecks : op.checks g = true) :
    SafeSet set (op.stores m set) ∧ applySet set (op.stores m set) = op.result set := by
  cases op with
  | put domain key value nowMs expires => exact h.write hchecks ..
  | push domain key value nowMs expires maxValues =>
    have hfits : entryFits g domain key value = true := (Bool.and_eq_true_iff.mp hchecks).1
    have htidies : ∀ s : SessionSlot g, s.Clean → s.Safe (s.tidyStores m nowMs) ∧
        s.applyAll (s.tidyStores m nowMs) = s.tidied nowMs := fun s hs => hs.tidy
    obtain ⟨hsafe, hscan⟩ := safe_scan htidies [] h
    have htidy := (scanPush_seen set domain key nowMs).2
    have hclean : CleanSet (scanPush (entryHash domain key) domain key nowMs set 0 .start).1 := by
      rw [htidy, ← nil_append (set.map (·.tidied nowMs)), ← hscan]
      exact hsafe _ [] (append_nil _).symm
    have hwrite := hclean.write (m := m) hfits
      ((scanPush (entryHash domain key) domain key nowMs set 0 .start).2.candidate maxValues)
      (entryHash domain key) nowMs expires
    have happly : applySet set (scanStores (fun s => s.tidyStores m nowMs) set 0) =
        (scanPush (entryHash domain key) domain key nowMs set 0 .start).1 := by
      rw [htidy]
      exact hscan
    refine ⟨hsafe.append ?_, ?_⟩
    · exact happly ▸ hwrite.1
    · change applySet set (_ ++ _) = _
      rw [applySet_append, happly]
      exact hwrite.2
  | read domain key nowMs consume => exact CleanSet.read _ consume [] h
  | erase _ =>
    exact safe_scan (fun s hs => ⟨hs.safe_clear, s.applyAll_clear⟩) [] h

/-- The slot holds the entry of the operation and nothing else. -/
def SetOp.Enters (op : SetOp) (slot : SessionSlot g) : Prop :=
  match op with
  | .put domain key value nowMs expiresAtMs =>
    slot = .filled g (entryHash domain key) domain key value nowMs expiresAtMs
  | .push domain key value nowMs expiresAtMs _ =>
    slot = .filled g (entryHash domain key) domain key value nowMs expiresAtMs
  | .read .. => False
  | .erase _ => False

theorem SessionSlot.Clean.tidied (h : s.Clean) (nowMs : Nat) :
    s.tidied nowMs = s ∨ s.tidied nowMs = .empty := by
  rw [SessionSlot.tidied]
  split
  · exact .inr h.release
  · exact .inl rfl

theorem SessionSlot.Clean.afterRead (h : s.Clean) (nowMs : Nat) (consume : Bool) :
    s.afterRead nowMs consume = s ∨ s.afterRead nowMs consume = .empty := by
  rw [SessionSlot.afterRead]
  split
  · exact .inr h.release
  cases s.storedValue with
  | none => exact .inr s.clear_eq
  | some _ =>
    cases consume with
    | false => exact .inl rfl
    | true => exact .inr h.release

theorem CleanSet.readSet_leaves (hash : Nat) (consume : Bool) (h : CleanSet set)
    {slot' : SessionSlot g}
    (hslot : (readSet hash domain key nowMs consume set).1[way]? = some slot') :
    set[way]? = some slot' ∨ slot' = .empty := by
  induction set generalizing way with
  | nil => exact .inl hslot
  | cons slot rest ih =>
    have hrest : CleanSet rest := fun s hs => h s (mem_cons_of_mem _ hs)
    by_cases hmatch : slot.matches hash domain key = true
    · rw [readSet_first_eq hash consume rest hmatch] at hslot
      cases way with
      | zero =>
        obtain rfl := Option.some.inj hslot
        exact ((h slot mem_cons_self).afterRead nowMs consume).imp_left fun heq =>
          congrArg some heq.symm
      | succ way => exact .inl hslot
    · rw [readSet, Bool.eq_false_iff.mpr hmatch, Bool.not_false, if_pos rfl] at hslot
      cases way with
      | zero => exact .inl hslot
      | succ way => exact ih hrest hslot

theorem CleanSet.leaves (h : CleanSet set) (op : SetOp) {slot' : SessionSlot g}
    (hslot : (op.result set)[way]? = some slot') :
    set[way]? = some slot' ∨ slot' = .empty ∨ op.Enters slot' := by
  cases op with
  | put domain key value nowMs expires =>
    change (set.modify _ _)[way]? = some slot' at hslot
    rw [getElem?_modify] at hslot
    obtain ⟨old, hold, heq⟩ := map_eq_some_iff.mp hslot
    split at heq
    · subst heq
      exact .inr (.inr ((h old (mem_of_getElem? hold)).write ..))
    · subst heq
      exact .inl hold
  | push domain key value nowMs expires maxValues =>
    change ((scanPush _ domain key nowMs set 0 .start).1.modify _ _)[way]? = some slot' at hslot
    rw [(scanPush_seen set domain key nowMs).2, getElem?_modify] at hslot
    obtain ⟨old, hold, heq⟩ := map_eq_some_iff.mp hslot
    rw [getElem?_map] at hold
    obtain ⟨first, hfirst, rfl⟩ := map_eq_some_iff.mp hold
    have hclean := h first (mem_of_getElem? hfirst)
    split at heq
    · subst heq
      have htidied : (first.tidied nowMs).Clean := by
        rcases hclean.tidied nowMs with hsame | hempty
        · rw [hsame]
          exact hclean
        · rw [hempty]
          exact SessionSlot.clean_empty
      exact .inr (.inr (htidied.write ..))
    · subst heq
      rcases hclean.tidied nowMs with hsame | hempty
      · exact .inl (hfirst.trans (congrArg some hsame.symm))
      · exact .inr (.inl hempty)
  | read domain key nowMs consume =>
    exact (h.readSet_leaves _ consume hslot).imp_right .inl
  | erase _ =>
    change (set.map SessionSlot.clear)[way]? = some slot' at hslot
    rw [getElem?_map] at hslot
    obtain ⟨old, -, rfl⟩ := map_eq_some_iff.mp hslot
    exact .inr (.inl old.clear_eq)

/-- The stores into one way, in their order. -/
def storesAt (way : Nat) (stores : List SetStore) : List SlotStore :=
  (stores.filter fun store => store.1 = way).map Prod.snd

theorem storesAt_append (way : Nat) (first second : List SetStore) :
    storesAt way (first ++ second) = storesAt way first ++ storesAt way second := by
  rw [storesAt, filter_append, map_append]
  rfl

theorem storesAt_self (way : Nat) (stores : List SlotStore) :
    storesAt way (atWay way stores) = stores := by
  induction stores with
  | nil => rfl
  | cons store stores ih =>
    change storesAt way ([(way, store)] ++ atWay way stores) = _
    rw [storesAt_append, ih]
    simp [storesAt]

theorem storesAt_other {other : Nat} (h : other ≠ way) (stores : List SlotStore) :
    storesAt way (atWay other stores) = [] := by
  induction stores with
  | nil => rfl
  | cons store stores ih =>
    change storesAt way ([(other, store)] ++ atWay other stores) = _
    rw [storesAt_append, ih]
    simp [storesAt, h]

theorem storesAt_scan_before (stores : SessionSlot g → List SlotStore) (set : List (SessionSlot g))
    {first : Nat} (h : way < first) : storesAt way (scanStores stores set first) = [] := by
  induction set generalizing first with
  | nil => rfl
  | cons slot rest ih =>
    rw [scanStores, storesAt_append, storesAt_other (by omega), ih (by omega)]
    rfl

theorem storesAt_scan (stores : SessionSlot g → List SlotStore) {i : Nat} {slot : SessionSlot g}
    (h : set[i]? = some slot) (first : Nat) :
    storesAt (first + i) (scanStores stores set first) = stores slot := by
  induction set generalizing i first with
  | nil => cases h
  | cons head rest ih =>
    rw [scanStores, storesAt_append]
    cases i with
    | zero =>
      obtain rfl := Option.some.inj h
      rw [Nat.add_zero, storesAt_self, storesAt_scan_before _ _ (Nat.lt_succ_self _), append_nil]
    | succ i =>
      have hrest := ih h (first + 1)
      rw [Nat.add_right_comm, Nat.add_assoc] at hrest
      rw [storesAt_other (by omega), hrest]
      rfl

/-- The slot is being written, or was when its writer died. -/
def SessionSlot.Unfinished (s : SessionSlot g) : Prop := s.state ≠ .empty ∧ s.state ≠ .occupied

namespace SessionSlot.Unfinished

variable {s : SessionSlot g}

theorem releaseStores (h : s.Unfinished) : s.releaseStores m = clearStores m g := by
  have hextents : s.extents = none := if_pos h.2
  rw [SessionSlot.releaseStores, if_neg h.1, hextents]

theorem not_matches (h : s.Unfinished) (hash : Nat) (domain key : List UInt8) :
    s.matches hash domain key = false := by
  rw [SessionSlot.matches, decide_eq_false h.2]
  rfl

theorem read {set : List (SessionSlot g)} (h : s.Unfinished) (hash : Nat) (consume : Bool)
    {i : Nat} (hslot : set[i]? = some s) (first : Nat) :
    storesAt (first + i) (readSetStores m hash domain key nowMs consume set first) = [] := by
  induction set generalizing i first with
  | nil => cases hslot
  | cons head rest ih =>
    rw [readSetStores]
    cases i with
    | zero =>
      obtain rfl := Option.some.inj hslot
      rw [h.not_matches, Bool.not_false, if_pos rfl]
      exact read_before rest (Nat.lt_succ_self _)
    | succ i =>
      split
      · have hrest := ih hslot (first + 1)
        rwa [Nat.add_right_comm, Nat.add_assoc] at hrest
      · exact storesAt_other (by omega) _
where
  read_before {way first : Nat} (rest : List (SessionSlot g)) (hlt : way < first) :
      storesAt way (readSetStores m hash domain key nowMs consume rest first) = [] := by
    induction rest generalizing first with
    | nil => rfl
    | cons head rest ih =>
      rw [readSetStores]
      split
      · exact ih (by omega)
      · exact storesAt_other (by omega) _

theorem write {set : List (SessionSlot g)} (h : s.Unfinished) {way : Nat}
    (hslot : set[way]? = some s) (chosen hash inserted expires : Nat) :
    storesAt way (writeWayStores m set chosen hash domain key value inserted expires) = [] ∨
      ∃ rest, storesAt way (writeWayStores m set chosen hash domain key value inserted expires) =
        clearStores m g ++ rest := by
  unfold writeWayStores
  by_cases hway : chosen = way
  · subst hway
    rw [hslot]
    dsimp only
    rw [storesAt_self, SessionSlot.writeStores, h.releaseStores]
    exact .inr ⟨_, rfl⟩
  · cases set[chosen]? with
    | none => exact .inl rfl
    | some other => exact .inl (storesAt_other hway _)

theorem erased (h : s.Unfinished) (op : SetOp) {set : List (SessionSlot g)} {way : Nat}
    (hslot : set[way]? = some s) : storesAt way (op.stores m set) = [] ∨
      ∃ rest, storesAt way (op.stores m set) = clearStores m g ++ rest := by
  have hscan : ∀ stores : SessionSlot g → List SlotStore,
      storesAt way (scanStores stores set 0) = stores s := fun stores => by
    have hat := storesAt_scan stores hslot 0
    rwa [Nat.zero_add] at hat
  cases op with
  | put domain key value nowMs expires => exact h.write hslot ..
  | push domain key value nowMs expires maxValues =>
    refine .inr ?_
    change ∃ rest, storesAt way (_ ++ _) = _
    rw [storesAt_append, hscan, SessionSlot.tidyStores, if_pos (.inl h.2), h.releaseStores]
    exact ⟨_, rfl⟩
  | read domain key nowMs consume =>
    have hnone : storesAt (0 + way) (readSetStores m (entryHash domain key) domain key nowMs consume
        set 0) = [] := h.read _ consume hslot 0
    rw [Nat.zero_add] at hnone
    exact .inl hnone
  | erase _ => exact .inr ⟨[], (hscan _).trans (append_nil _).symm⟩

end SessionSlot.Unfinished

def Underway (m : Accesses) (set : List (SessionSlot g)) (pending : List SetStore) :
    Option (SetOp × List (SessionSlot g)) → Prop
  | none => pending = [] ∧ CleanSet set
  | some (op, before) => CleanSet before ∧ op.checks g = true ∧
      ∃ done, op.stores m before = done ++ pending ∧ set = applySet before done

theorem Underway.clean {pending : List SetStore} {doing : Option (SetOp × List (SessionSlot g))}
    (h : Underway m set pending doing) : CleanSet set := by
  cases doing with
  | none => exact h.2
  | some doing =>
    obtain ⟨op, before⟩ := doing
    obtain ⟨hbefore, hchecks, done, hstores, rfl⟩ := h
    exact (hbefore.op hchecks).1 done pending hstores

def StoreWorld.Inv (m : Accesses) (w : StoreWorld g) : Prop :=
  ∀ set, Underway m (w.sets set) (w.pending set) (w.doing set)

theorem StoreWorld.Inv.act {w : StoreWorld g} (h : w.Inv m) (a : StoreAct) : (w.act m a).Inv m := by
  cases a with
  | begin op =>
    unfold StoreWorld.act
    dsimp only
    split
    · rename_i hfree
      intro set
      by_cases hset : set = op.set g
      · subst hset
        dsimp only
        rw [update_self, update_self]
        exact ⟨(h _).clean, hfree.2, [], rfl, rfl⟩
      · dsimp only
        rw [update_of_ne hset, update_of_ne hset]
        exact h set
    · exact h
  | store changed =>
    unfold StoreWorld.act
    dsimp only
    split
    · exact h
    · rename_i store rest hpending
      intro set
      by_cases hset : set = changed
      · subst hset
        have hunder := h set
        dsimp only
        rw [update_self, update_self]
        rw [hpending] at hunder
        cases hdoing : w.doing set with
        | none =>
          rw [hdoing] at hunder
          cases hunder.1
        | some doing =>
          rw [hdoing] at hunder
          obtain ⟨op, before⟩ := doing
          obtain ⟨hbefore, hchecks, done, hstores, heq⟩ := hunder
          refine ⟨hbefore, hchecks, done ++ [store], ?_, ?_⟩
          · rw [hstores, append_assoc]
            rfl
          · rw [applySet_append, ← heq]
      · dsimp only
        rw [update_of_ne hset, update_of_ne hset]
        exact h set
  | dies changed =>
    unfold StoreWorld.act
    dsimp only
    split
    · exact h
    · intro set
      by_cases hset : set = changed
      · subst hset
        dsimp only
        rw [update_self, update_self]
        exact ⟨rfl, (h set).clean⟩
      · dsimp only
        rw [update_of_ne hset, update_of_ne hset]
        exact h set

theorem StoreWorld.Inv.run {w : StoreWorld g} (h : w.Inv m) (acts : List StoreAct) :
    (w.run m acts).Inv m := by
  induction acts generalizing w with
  | nil => exact h
  | cons a acts ih => exact ih (h.act a)

theorem StoreWorld.zeroed_inv (g : Sizes) (m : Accesses) : (StoreWorld.zeroed g).Inv m := by
  intro set
  refine ⟨rfl, fun slot hslot => ?_⟩
  rw [eq_of_mem_replicate hslot]
  exact SessionSlot.clean_empty

/-- Whichever stores have been made, and whoever has died, a free slot is zero all over, and an occupied one
outside the extents that its lengths give; any other slot is found by no lookup, and erased whole by the
next operation that stores into it; and an operation that has ended leaves every slot as it was, zero all
over, or with nothing but its own entry. -/
theorem secrets_leave_no_residue (g : Sizes) (m : Accesses) (acts : List StoreAct) :
    let w := (StoreWorld.zeroed g).run m acts
    (∀ set, ∀ slot ∈ w.sets set,
      (slot.state = .empty → slot = .empty) ∧
      (slot.state = .occupied → slot.extents = some (slot.domainLen, slot.keyLen, slot.valueLen) ∧
        (∀ i, slot.domainLen ≤ i → slot.domain.get i = 0) ∧
        (∀ i, slot.keyLen ≤ i → slot.key.get i = 0) ∧
        ∀ i, slot.valueLen ≤ i → slot.value.get i = 0) ∧
      (slot.Unfinished → ∀ hash domain key, slot.matches hash domain key = false)) ∧
    (∀ (op : SetOp) way slot, (w.sets (op.set g))[way]? = some slot → slot.Unfinished →
      storesAt way (op.stores m (w.sets (op.set g))) = [] ∨
        ∃ rest, storesAt way (op.stores m (w.sets (op.set g))) = clearStores m g ++ rest ∧
          slot.applyAll (clearStores m g) = .empty) ∧
    ∀ set op (before : List (SessionSlot g)), w.doing set = some (op, before) → w.pending set = [] →
      w.sets set = op.result before ∧ ∀ (way : Nat) slot, (w.sets set)[way]? = some slot →
        before[way]? = some slot ∨ slot = .empty ∨ op.Enters slot := by
  intro w
  have hinv : w.Inv m := (StoreWorld.zeroed_inv g m).run acts
  refine ⟨fun set slot hslot => ?_, fun op way slot hslot hunfinished => ?_,
    fun set op before hdoing hpending => ?_⟩
  · have hclean := (hinv set).clean slot hslot
    exact ⟨hclean.empty, hclean.outside, fun hunfinished => hunfinished.not_matches⟩
  · rcases hunfinished.erased op hslot (m := m) with hnone | ⟨rest, hrest⟩
    · exact .inl hnone
    · exact .inr ⟨rest, hrest, slot.applyAll_clear.trans slot.clear_eq⟩
  · have hunder := hinv set
    rw [hdoing, hpending] at hunder
    obtain ⟨hbefore, hchecks, done, hstores, heq⟩ := hunder
    have hresult : w.sets set = op.result before := by
      rw [append_nil] at hstores
      rw [heq, ← hstores]
      exact (hbefore.op hchecks).2
    refine ⟨hresult, fun way slot hslot => ?_⟩
    rw [hresult] at hslot
    exact hbefore.leaves op hslot

end OrbitSession
