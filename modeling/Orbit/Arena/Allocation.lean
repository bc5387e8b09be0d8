import Orbit.Arena.Layout
import Orbit.Table.Windows

/-! Where a record goes: an allocation finds a free window of the ring whenever there is one, and
evicts only what is in the way of the ranges it tries. -/

namespace OrbitArena

open Orbit.Table List Function

variable {g : Geometry} {a a' a'' : Arena} {position len index i : Nat}

/-- Records have been retired, and nothing else has changed. -/
structure Evicts (a a' : Arena) : Prop where
  slots : ∀ i, a'.slots i = a.slots i ∨
    (a.slots i).state ≠ .empty ∧ a'.slots i = { a.slots i with state := .retired }
  pin : a'.pin = a.pin
  active : a'.active = a.active
  held : a'.held = a.held
  entries : a'.entries = a.entries

namespace Evicts

theorem refl (a : Arena) : Evicts a a := ⟨fun _ => .inl rfl, rfl, rfl, rfl, rfl⟩

theorem span (h : Evicts a a') (i : Nat) : (a'.slots i).span = (a.slots i).span := by
  rcases h.slots i with heq | ⟨-, heq⟩
  · rw [heq]
  · rw [heq]
    rfl

theorem empty_iff (h : Evicts a a') (i : Nat) :
    (a'.slots i).state = .empty ↔ (a.slots i).state = .empty := by
  rcases h.slots i with heq | ⟨hne, heq⟩
  · rw [heq]
  · rw [heq]
    constructor
    · intro h
      cases h
    · exact fun h => absurd h hne

theorem pinned (h : Evicts a a') (g : Geometry) (i : Nat) : a'.pinned g i = a.pinned g i := by
  rw [Arena.pinned, Arena.pinned, h.pin, h.active]

theorem trans (h : Evicts a a') (h' : Evicts a' a'') : Evicts a a'' where
  slots i := by
    rcases h'.slots i with heq' | ⟨hne', heq'⟩
    · rw [heq']
      exact h.slots i
    · refine .inr ⟨fun hempty => hne' ((h.empty_iff i).mpr hempty), ?_⟩
      rcases h.slots i with heq | ⟨-, heq⟩
      · rw [heq', heq]
      · rw [heq', heq]
  pin := h'.pin.trans h.pin
  active := h'.active.trans h.active
  held := h'.held.trans h.held
  entries := h'.entries.trans h.entries

end Evicts

theorem setSlot_self (a : Arena) (index : Nat) (s : Slot) : (a.setSlot index s).slots index = s :=
  update_self ..

theorem setSlot_other (a : Arena) (s : Slot) (h : i ≠ index) :
    (a.setSlot index s).slots i = a.slots i :=
  update_of_ne h ..

theorem evict_evicts (a : Arena) (index : Nat) : Evicts a (evict a index) := by
  unfold evict
  split
  · exact .refl a
  · rename_i hne
    refine ⟨fun i => ?_, rfl, rfl, rfl, rfl⟩
    by_cases hi : i = index
    · subst hi
      exact .inr ⟨hne, setSlot_self ..⟩
    · exact .inl (setSlot_other a _ hi)

theorem evict_retired (h : (a.slots index).state ≠ .empty) :
    ((evict a index).slots index).state = .retired := by
  rw [evict, if_neg h, setSlot_self]

theorem evict_other (h : i ≠ index) : (evict a index).slots i = a.slots i := by
  unfold evict
  split
  · rfl
  · exact setSlot_other a _ h

/-- A pinned record is in the way of the range. -/
structure InWay (g : Geometry) (a : Arena) (position len i : Nat) : Prop where
  filled : (a.slots i).state ≠ .empty
  meets : Meets (a.slots i).span position len
  pinned : a.pinned g i = true

/-- The slots have been looked at for the range. -/
structure Scanned (g : Geometry) (a : Arena) (position len : Nat) (indices : List Nat)
    (seen : Arena × Option Nat) : Prop where
  evicts : Evicts a seen.1
  changed : ∀ i, seen.1.slots i ≠ a.slots i →
    Meets (a.slots i).span position len ∧ a.pinned g i = false
  cleared : ∀ i ∈ indices, (a.slots i).state ≠ .empty → Meets (a.slots i).span position len →
    a.pinned g i = false → (seen.1.slots i).state = .retired
  stopped : ∀ past, seen.2 = some past →
    ∃ i ∈ indices, InWay g a position len i ∧ (a.slots i).span.2 = past
  furthest : ∀ i ∈ indices, InWay g a position len i →
    ∃ past, seen.2 = some past ∧ (a.slots i).span.2 ≤ past

namespace Scanned

variable {indices : List Nat} {seen : Arena × Option Nat}

theorem start (g : Geometry) (a : Arena) (position len : Nat) :
    Scanned g a position len [] (a, none) where
  evicts := .refl a
  changed _ h := absurd rfl h
  cleared _ h := absurd h not_mem_nil
  stopped _ h := by cases h
  furthest _ h := absurd h not_mem_nil

theorem skip (h : Scanned g a position len indices seen)
    (hskip : (a.slots index).state = .empty ∨ ¬ Meets (a.slots index).span position len) :
    Scanned g a position len (indices ++ [index]) seen where
  evicts := h.evicts
  changed := h.changed
  cleared i hi hfilled hmeets hpinned := by
    rcases mem_append.mp hi with hi | hi
    · exact h.cleared i hi hfilled hmeets hpinned
    · rw [mem_singleton.mp hi] at hfilled hmeets
      exact (hskip.elim hfilled fun hnot => hnot hmeets).elim
  stopped past hpast := by
    obtain ⟨i, hi, hway, hend⟩ := h.stopped past hpast
    exact ⟨i, mem_append_left _ hi, hway, hend⟩
  furthest i hi hway := by
    rcases mem_append.mp hi with hi | hi
    · exact h.furthest i hi hway
    · rw [mem_singleton.mp hi] at hway
      exact (hskip.elim hway.filled fun hnot => hnot hway.meets).elim

theorem block (h : Scanned g a position len indices seen) (hway : InWay g a position len index) :
    Scanned g a position len (indices ++ [index])
      (seen.1, OrbitArena.furthest seen.2 (a.slots index).span.2) where
  evicts := h.evicts
  changed := h.changed
  cleared i hi hfilled hmeets hpinned := by
    rcases mem_append.mp hi with hi | hi
    · exact h.cleared i hi hfilled hmeets hpinned
    · rw [mem_singleton.mp hi, hway.pinned] at hpinned
      cases hpinned
  stopped past hpast := by
    have hself : ∃ i ∈ indices ++ [index], InWay g a position len i ∧
        (a.slots i).span.2 = (a.slots index).span.2 :=
      ⟨index, mem_append_right _ mem_cons_self, hway, rfl⟩
    cases hseen : seen.2 with
    | none =>
      rw [hseen] at hpast
      cases hpast
      exact hself
    | some before =>
      rw [hseen] at hpast
      have hmax : max before (a.slots index).span.2 = past := Option.some.inj hpast
      rcases Nat.le_total before (a.slots index).span.2 with hle | hle
      · rw [← hmax, Nat.max_eq_right hle]
        exact hself
      · rw [← hmax, Nat.max_eq_left hle]
        obtain ⟨i, hi, hway', hend⟩ := h.stopped before hseen
        exact ⟨i, mem_append_left _ hi, hway', hend⟩
  furthest i hi hway' := by
    rcases mem_append.mp hi with hi | hi
    · obtain ⟨past, hpast, hle⟩ := h.furthest i hi hway'
      refine ⟨max past (a.slots index).span.2, ?_, Nat.le_trans hle (Nat.le_max_left ..)⟩
      rw [hpast]
      rfl
    · rw [mem_singleton.mp hi]
      cases hseen : seen.2 with
      | none => exact ⟨_, rfl, Nat.le_refl _⟩
      | some before => exact ⟨_, rfl, Nat.le_max_right ..⟩

theorem clear (h : Scanned g a position len indices seen)
    (hmeets : Meets (a.slots index).span position len) (hpinned : a.pinned g index = false) :
    Scanned g a position len (indices ++ [index]) (evict seen.1 index, seen.2) where
  evicts := h.evicts.trans (evict_evicts ..)
  changed i hi := by
    by_cases heq : i = index
    · subst heq
      exact ⟨hmeets, hpinned⟩
    · rw [evict_other heq] at hi
      exact h.changed i hi
  cleared i hi hfilled hmeets' hpinned' := by
    by_cases heq : i = index
    · subst heq
      exact evict_retired fun hempty => hfilled ((h.evicts.empty_iff i).mp hempty)
    · rw [evict_other heq]
      refine h.cleared i ?_ hfilled hmeets' hpinned'
      exact (mem_append.mp hi).resolve_right fun hi => heq (mem_singleton.mp hi)
  stopped past hpast := by
    obtain ⟨i, hi, hway, hend⟩ := h.stopped past hpast
    exact ⟨i, mem_append_left _ hi, hway, hend⟩
  furthest i hi hway := by
    refine h.furthest i ((mem_append.mp hi).resolve_right fun hi => ?_) hway
    have hpin := hway.pinned
    rw [mem_singleton.mp hi, hpinned] at hpin
    cases hpin

theorem next (h : Scanned g a position len indices seen) (index : Nat) :
    Scanned g a position len (indices ++ [index])
      (scanSlot g position (position + len) seen index) := by
  have hspan := h.evicts.span index
  have hpin := h.evicts.pinned g index
  have hpin' := (h.evicts.trans (evict_evicts seen.1 index)).pinned g index
  unfold scanSlot
  rw [hspan, hpin, hpin']
  split
  · rename_i hempty
    exact h.skip (.inl ((h.evicts.empty_iff index).mp hempty))
  rename_i hfilled
  split
  · rename_i hapart
    refine h.skip (.inr fun hmeets => ?_)
    have hstart := hmeets.1
    have hstop := hmeets.2
    omega
  rename_i hmeets
  have hmeets : Meets (a.slots index).span position len := by
    obtain ⟨hstart, hstop⟩ := not_or.mp hmeets
    exact ⟨Nat.lt_of_not_le hstart, Nat.lt_of_not_le hstop⟩
  have hfilled : (a.slots index).state ≠ .empty := fun hempty =>
    hfilled ((h.evicts.empty_iff index).mpr hempty)
  cases hpinned : a.pinned g index with
  | true => exact h.block ⟨hfilled, hmeets, hpinned⟩
  | false => exact h.clear hmeets hpinned

theorem foldl (h : Scanned g a position len indices seen) (rest : List Nat) :
    Scanned g a position len (indices ++ rest)
      (rest.foldl (scanSlot g position (position + len)) seen) := by
  induction rest generalizing indices seen with
  | nil =>
    rw [append_nil]
    exact h
  | cons index rest ih =>
    have hrest := ih (h.next index)
    rw [append_assoc] at hrest
    exact hrest

end Scanned

theorem scan_scanned (g : Geometry) (a : Arena) (position len : Nat) :
    Scanned g a position len (range g.slots) (scan g a position len) :=
  (Scanned.start g a position len).foldl (range g.slots)

theorem place_position (g : Geometry) (len cursor : Nat) :
    (place g len cursor).2 = wrap g.bytes len cursor := by
  unfold place wrap
  split <;> rfl

def triedIn (g : Geometry) (len : Nat) : Nat → Nat → Arena → List Nat
  | 0, _, _ => []
  | attempts + 1, cursor, a =>
    let placed := place g len cursor
    placed.2 ::
      match scan g a placed.2 len with
      | (a, some past) => triedIn g len attempts (placed.1 + (past - placed.2)) a
      | (_, none) => []

def Guarded (g : Geometry) (a : Arena) (i : Nat) : Prop :=
  (a.slots i).state = .live ∨ (a.slots i).state = .addressed ∨ a.pinned g i = true

theorem allocateIn_succ (g : Geometry) (len attempts cursor : Nat) (a : Arena) :
    (∃ past, (scan g a (place g len cursor).2 len).2 = some past ∧
      allocateIn g len (attempts + 1) cursor a = allocateIn g len attempts
        ((place g len cursor).1 + (past - (place g len cursor).2))
        (scan g a (place g len cursor).2 len).1 ∧
      triedIn g len (attempts + 1) cursor a = (place g len cursor).2 :: triedIn g len attempts
        ((place g len cursor).1 + (past - (place g len cursor).2))
        (scan g a (place g len cursor).2 len).1) ∨
    (scan g a (place g len cursor).2 len).2 = none ∧
      allocateIn g len (attempts + 1) cursor a =
        ({ (scan g a (place g len cursor).2 len).1 with cursor := (place g len cursor).1 + len },
          .ok (place g len cursor).2) ∧
      triedIn g len (attempts + 1) cursor a = [(place g len cursor).2] := by
  rw [allocateIn, triedIn]
  dsimp only
  split
  · rename_i past heq
    rw [heq]
    exact .inl ⟨past, rfl, rfl, rfl⟩
  · rename_i heq
    rw [heq]
    exact .inr ⟨rfl, rfl, rfl⟩

theorem allocateIn_evicts (g : Geometry) (len attempts cursor : Nat) (a : Arena) :
    Evicts a (allocateIn g len attempts cursor a).1 ∧
      ∀ i, (allocateIn g len attempts cursor a).1.slots i ≠ a.slots i → a.pinned g i = false ∧
        ∃ position ∈ triedIn g len attempts cursor a, Meets (a.slots i).span position len := by
  induction attempts generalizing cursor a with
  | zero => exact ⟨.refl a, fun _ h => absurd rfl h⟩
  | succ attempts ih =>
    have hscan := scan_scanned g a (place g len cursor).2 len
    rcases allocateIn_succ g len attempts cursor a with ⟨past, -, heq, htried⟩ | ⟨-, heq, htried⟩
    · rw [heq, htried]
      obtain ⟨hevicts, hchanged⟩ := ih ((place g len cursor).1 + (past - (place g len cursor).2))
        (scan g a (place g len cursor).2 len).1
      refine ⟨hscan.evicts.trans hevicts, fun i hi => ?_⟩
      by_cases hsame : (scan g a (place g len cursor).2 len).1.slots i = a.slots i
      · rw [← hsame] at hi
        obtain ⟨hpinned, position, hmem, hmeets⟩ := hchanged i hi
        rw [hscan.evicts.pinned] at hpinned
        rw [hscan.evicts.span] at hmeets
        exact ⟨hpinned, position, mem_cons_of_mem _ hmem, hmeets⟩
      · obtain ⟨hmeets, hpinned⟩ := hscan.changed i hsame
        exact ⟨hpinned, _, mem_cons_self, hmeets⟩
    · rw [heq, htried]
      obtain ⟨hslots, hpin, hactive, hheld, hentries⟩ := hscan.evicts
      refine ⟨⟨hslots, hpin, hactive, hheld, hentries⟩, fun i hi => ?_⟩
      obtain ⟨hmeets, hpinned⟩ := hscan.changed i hi
      exact ⟨hpinned, _, mem_cons_self, hmeets⟩

theorem allocateIn_ok (hempty : ∀ i, (a.slots i).state = .empty → (a.slots i).span.2 = 0)
    (hlen : len ≤ g.bytes) {attempts cursor : Nat}
    (h : (allocateIn g len attempts cursor a).2 = .ok position) :
    position + len ≤ g.bytes ∧ ∀ i < g.slots, Guarded g (allocateIn g len attempts cursor a).1 i →
      ¬ Meets ((allocateIn g len attempts cursor a).1.slots i).span position len := by
  induction attempts generalizing cursor a with
  | zero => cases h
  | succ attempts ih =>
    have hscan := scan_scanned g a (place g len cursor).2 len
    rcases allocateIn_succ g len attempts cursor a with ⟨past, -, heq, -⟩ | ⟨hnone, heq, -⟩
    · rw [heq] at h ⊢
      refine ih (fun i hi => ?_) h
      rw [hscan.evicts.span]
      exact hempty i ((hscan.evicts.empty_iff i).mp hi)
    · rw [heq] at h ⊢
      have hposition : (place g len cursor).2 = position := Except.ok.inj h
      subst hposition
      constructor
      · rw [place_position]
        exact wrap_fits hlen cursor
      intro i hi hguarded hmeets
      have hmeets' : Meets (a.slots i).span (place g len cursor).2 len := by
        rw [← hscan.evicts.span i]
        exact hmeets
      have hfilled : (a.slots i).state ≠ .empty := fun hstate => by
        have hstart := hmeets'.1
        rw [hempty i hstate] at hstart
        exact Nat.not_lt_zero _ hstart
      have hindex : i ∈ range g.slots := mem_range.mpr hi
      have hunpinned : a.pinned g i = false := by
        by_contra hpinned
        obtain ⟨past, hpast, -⟩ := hscan.furthest i hindex
          ⟨hfilled, hmeets', Bool.not_eq_false _ ▸ hpinned⟩
        rw [hnone] at hpast
        cases hpast
      have hretired := hscan.cleared i hindex hfilled hmeets' hunpinned
      rcases hguarded with hlive | haddressed | hpinned
      · rw [hretired] at hlive
        cases hlive
      · rw [hretired] at haddressed
        cases haddressed
      · have hsame := hscan.evicts.pinned g i
        rw [hunpinned] at hsame
        exact Bool.false_ne_true (hsame.symm.trans hpinned)

end OrbitArena
