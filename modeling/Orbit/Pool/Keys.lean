import Orbit.Pool.Footprint
import Mathlib.Tactic.Ring

/-! The key table.  A key sits at the first slot of its probe sequence that is not taken by another
key; keys are never removed, so the slot of a key is unique and stays. -/

namespace OrbitPool

open Orbit.Atomic Function
open List hiding Mem beq_eq_decide

variable {g : Geometry} {mem : Mem Addr}

theorem probe_lt (g : Geometry) (key : Key) (offset : Nat) :
    probe g key offset < g.keyCapacity := by
  have hpos := g.key_pos
  have hle : probe g key offset ≤ g.keyCapacity - 1 := Nat.and_le_right
  omega

def HoldsKey (mem : Mem Addr) (index : Nat) (key : Key) : Prop :=
  mem (.keyState index) = keyLive ∧ mem (.keyLo index) = key.lo ∧ mem (.keyHi index) = key.hi

instance (mem : Mem Addr) (index : Nat) (key : Key) : Decidable (HoldsKey mem index key) :=
  inferInstanceAs (Decidable (_ ∧ _ ∧ _))

variable {index : Nat} {key : Key} {mem' : Mem Addr}

theorem HoldsKey.unique {key' : Key} (h : HoldsKey mem index key) (h' : HoldsKey mem index key') :
    key = key' :=
  Key.ext_parts (h.2.1.symm.trans h'.2.1) (h.2.2.symm.trans h'.2.2)

theorem run_holds (index : Nat) (key : Key) :
    (holds index key).run mem = (decide (HoldsKey mem index key), mem) := by
  unfold holds HoldsKey
  by_cases hs : mem (.keyState index) = keyLive
  · by_cases hlo : mem (.keyLo index) = key.lo
    · simp only [Prog.run_bind, run_load, hs, hlo, if_true, Prog.run_pure, true_and]
      rw [beq_eq_decide]
    · simp [hs, hlo]
  · simp [hs]

/-- The slot at `offset` on the probe sequence of `key` is taken by another key. -/
def Passed (g : Geometry) (mem : Mem Addr) (key : Key) (offset : Nat) : Prop :=
  mem (.keyState (probe g key offset)) = keyLive ∧ ¬HoldsKey mem (probe g key offset) key

/-- The key is installed at `index`. -/
structure Keyed (g : Geometry) (mem : Mem Addr) (key : Key) (index : Nat) : Prop where
  holds : HoldsKey mem index key
  probed : ∃ offset, probe g key offset = index ∧ ∀ d < offset, Passed g mem key d

theorem Keyed.lt (h : Keyed g mem key index) : index < g.keyCapacity := by
  obtain ⟨offset, rfl, -⟩ := h.probed
  exact probe_lt g key offset

theorem Keyed.unique {i j : Nat} (hi : Keyed g mem key i) (hj : Keyed g mem key j) : i = j := by
  obtain ⟨di, rfl, hpi⟩ := hi.probed
  obtain ⟨dj, rfl, hpj⟩ := hj.probed
  rcases Nat.lt_trichotomy di dj with hlt | rfl | hgt
  · exact absurd hi.holds (hpj di hlt).2
  · rfl
  · exact absurd hj.holds (hpi dj hgt).2

theorem Keyed.key_unique {key' : Key} {i : Nat} (h : Keyed g mem key i) (h' : Keyed g mem key' i) :
    key = key' :=
  h.holds.unique h'.holds

/-- Every key slot is empty or holds a key that its probe sequence leads to. -/
structure KeyTable (g : Geometry) (mem : Mem Addr) : Prop where
  state : ∀ index, mem (.keyState index) = keyEmpty ∨ mem (.keyState index) = keyLive
  keyed : ∀ index, mem (.keyState index) = keyLive → ∃ key, Keyed g mem key index

theorem KeyTable.zero (g : Geometry) : KeyTable g fun _ => 0 :=
  ⟨fun _ => .inl rfl, fun _ h => by simp [keyLive] at h⟩

theorem KeyTable.keyed_of_holds (h : KeyTable g mem) (hh : HoldsKey mem index key) :
    Keyed g mem key index := by
  obtain ⟨key', hkey⟩ := h.keyed index hh.1
  have heq : key' = key := hkey.holds.unique hh
  exact heq ▸ hkey

def KeysKept (mem mem' : Mem Addr) : Prop :=
  ∀ index, mem (.keyState index) = keyLive → mem' (.keyState index) = keyLive ∧
    mem' (.keyLo index) = mem (.keyLo index) ∧ mem' (.keyHi index) = mem (.keyHi index)

theorem KeysKept.holdsKey (h : KeysKept mem mem') (hlive : mem (.keyState index) = keyLive) :
    HoldsKey mem' index key ↔ HoldsKey mem index key := by
  obtain ⟨h1, h2, h3⟩ := h index hlive
  simp only [HoldsKey, h1, h2, h3, hlive]

theorem KeysKept.passed (h : KeysKept mem mem') {offset : Nat} (hp : Passed g mem key offset) :
    Passed g mem' key offset :=
  ⟨(h _ hp.1).1, fun hh => hp.2 ((h.holdsKey hp.1).mp hh)⟩

theorem KeysKept.keyed (h : KeysKept mem mem') (hk : Keyed g mem key index) :
    Keyed g mem' key index := by
  obtain ⟨offset, hprobe, hpassed⟩ := hk.probed
  exact ⟨(h.holdsKey hk.holds.1).mpr hk.holds,
    offset, hprobe, fun d hd => h.passed (hpassed d hd)⟩

theorem KeysKept.keyed_before (h : KeysKept mem mem') (hk : KeyTable g mem)
    (hkey : Keyed g mem' key index) : Keyed g mem key index ∨ mem (.keyState index) = keyEmpty := by
  rcases hk.state index with hs | hs
  · exact .inr hs
  · obtain ⟨key', hkey'⟩ := hk.keyed index hs
    have heq : key' = key := (h.keyed hkey').key_unique hkey
    exact .inl (heq ▸ hkey')

theorem KeyTable.of_eq (h : KeyTable g mem) (heq : ∀ a, a.part = .keys → mem' a = mem a) :
    KeyTable g mem' ∧ KeysKept mem mem' := by
  have hkept : KeysKept mem mem' := fun index hlive =>
    ⟨(heq _ rfl).trans hlive, heq _ rfl, heq _ rfl⟩
  refine ⟨⟨fun index => ?_, fun index hlive => ?_⟩, hkept⟩
  · rw [heq (.keyState index) rfl]
    exact h.state index
  · rw [heq (.keyState index) rfl] at hlive
    obtain ⟨key, hkey⟩ := h.keyed index hlive
    exact ⟨key, hkept.keyed hkey⟩

theorem run_findKeyFrom (hk : KeyTable g mem) (key : Key) (count offset : Nat)
    (hpassed : ∀ d < offset, Passed g mem key d) :
    ((findKeyFrom g key (range' offset count)).run mem).2 = mem ∧
      ∀ index, ((findKeyFrom g key (range' offset count)).run mem).1 = some index →
        Keyed g mem key index := by
  induction count generalizing offset with
  | zero => simp [findKeyFrom]
  | succ count ih =>
    rw [range'_succ]
    simp only [findKeyFrom, Prog.run_bind, run_load]
    rcases hk.state (probe g key offset) with hs | hs
    · simp [hs, keyEmpty, keyLive]
    · by_cases hh : HoldsKey mem (probe g key offset) key
      · simp only [hs, if_true, run_holds, Prog.run_bind, hh, decide_true, Prog.run_pure, true_and]
        intro index h
        cases h
        exact ⟨hh, offset, rfl, hpassed⟩
      · simp only [hs, if_true, run_holds, Prog.run_bind, hh, decide_false, Bool.false_eq_true,
          if_false]
        refine ih (offset + 1) fun d hd => ?_
        rcases Nat.lt_succ_iff_lt_or_eq.mp hd with hlt | rfl
        · exact hpassed d hlt
        · exact ⟨hs, hh⟩

theorem run_clearMembers (index : Nat) (words : List Nat) (a : Addr) :
    ((clearMembers index words).run mem).2 a = mem a ∨
      ((clearMembers index words).run mem).2 a = 0 ∧ ∃ word, a = .members index word := by
  induction words generalizing mem with
  | nil => exact .inl rfl
  | cons word rest ih =>
    simp only [clearMembers, Prog.run_bind, run_store]
    rcases ih with h | h
    · rw [h]
      by_cases ha : a = .members index word
      · subst ha
        exact .inr ⟨update_self .., word, rfl⟩
      · exact .inl (update_of_ne ha ..)
    · exact .inr h

/-- The word counts something under the key at `index`. -/
def CountsKey (index : Nat) (a : Addr) : Prop :=
  a = .counts index ∨ a = .available index ∨ a = .admitted index ∨ ∃ word, a = .members index word

theorem run_installKey (index : Nat) (key : Key) :
    let mem' := ((installKey g index key).run mem).2
    HoldsKey mem' index key ∧
      (∀ i ≠ index, mem' (.keyState i) = mem (.keyState i) ∧ mem' (.keyLo i) = mem (.keyLo i) ∧
        mem' (.keyHi i) = mem (.keyHi i)) ∧
      ∀ a, a.part ≠ .keys → mem' a = mem a ∨ mem' a = 0 ∧ CountsKey index a := by
  have hmembers := fun mem a =>
    @run_clearMembers mem index (range ((g.totalResources + 63) / 64)) a
  have hother : ∀ (mem : Mem Addr) a, (∀ word, a ≠ .members index word) →
      ((clearMembers index (range ((g.totalResources + 63) / 64))).run mem).2 a = mem a := by
    intro mem a ha
    rcases hmembers mem a with h | ⟨-, word, h⟩
    · exact h
    · exact absurd h (ha word)
  simp only [installKey, Prog.run_bind, run_store]
  refine ⟨⟨by simp, ?_, ?_⟩, fun i hi => ⟨?_, ?_, ?_⟩, fun a ha => ?_⟩
  · rw [update_of_ne (by simp), hother _ _ (by simp)]
    simp
  · rw [update_of_ne (by simp), hother _ _ (by simp)]
    simp
  · rw [update_of_ne (by simpa using hi), hother _ _ (by simp)]
    simp
  · rw [update_of_ne (by simp), hother _ _ (by simp)]
    simp [hi]
  · rw [update_of_ne (by simp), hother _ _ (by simp)]
    simp [hi]
  · rw [update_of_ne (by rintro rfl; exact ha rfl)]
    rcases hmembers _ a with h | ⟨h, word, rfl⟩
    · rw [h]
      by_cases h1 : a = .admitted index
      · subst h1
        exact .inr ⟨by simp, .inr (.inr (.inl rfl))⟩
      by_cases h2 : a = .available index
      · subst h2
        exact .inr ⟨by simp, .inr (.inl rfl)⟩
      by_cases h3 : a = .counts index
      · subst h3
        exact .inr ⟨by simp, .inl rfl⟩
      have h4 : a ≠ .keyHi index := by rintro rfl; exact ha rfl
      have h5 : a ≠ .keyLo index := by rintro rfl; exact ha rfl
      simp [h1, h2, h3, h4, h5]
    · exact .inr ⟨h, .inr (.inr (.inr ⟨word, rfl⟩))⟩

/-- What a search that installs an absent key does. -/
structure KeyFound (g : Geometry) (mem : Mem Addr) (key : Key) (found : Except Error Nat)
    (mem' : Mem Addr) : Prop where
  table : KeyTable g mem'
  kept : KeysKept mem mem'
  keyed : ∀ index, found = .ok index → Keyed g mem' key index
  words : ∀ a, a.part ≠ .keys → a.part ≠ .locks → mem' a = mem a ∨
    mem' a = 0 ∧ ∃ index, CountsKey index a ∧ mem (.keyState index) = keyEmpty

theorem KeyFound.same (hk : KeyTable g mem) {found : Except Error Nat}
    (h : ∀ index, found = .ok index → Keyed g mem key index) : KeyFound g mem key found mem :=
  ⟨hk, fun _ hlive => ⟨hlive, rfl, rfl⟩, h, fun _ _ _ => .inl rfl⟩

theorem KeyFound.locks {mem1 mem2 : Mem Addr} {found : Except Error Nat}
    (h : KeyFound g mem1 key found mem2) (hpre : ∀ a, a.part ≠ .locks → mem1 a = mem a)
    (hpost : ∀ a, a.part ≠ .locks → mem' a = mem2 a) : KeyFound g mem key found mem' := by
  have heq : ∀ a, a.part = .keys → mem' a = mem2 a := fun a ha => hpost a (by simp [ha])
  obtain ⟨htable, hkept⟩ := h.table.of_eq heq
  refine ⟨htable, fun index hlive => ?_, fun index hf => hkept.keyed (h.keyed index hf), ?_⟩
  · rw [← hpre _ (by simp [Addr.part])] at hlive
    obtain ⟨h1, h2, h3⟩ := h.kept index hlive
    obtain ⟨h4, h5, h6⟩ := hkept index h1
    rw [hpre _ (by simp [Addr.part])] at h2 h3
    exact ⟨h4, h5.trans h2, h6.trans h3⟩
  · intro a ha hl
    rw [hpost a hl]
    rcases h.words a ha hl with h | ⟨h, index, hc, he⟩
    · exact .inl (h.trans (hpre a hl))
    · rw [hpre _ (by simp [Addr.part])] at he
      exact .inr ⟨h, index, hc, he⟩

theorem KeyFound.install (hk : KeyTable g mem) (key : Key) (offset : Nat)
    (hpassed : ∀ d < offset, Passed g mem key d)
    (hempty : mem (.keyState (probe g key offset)) = keyEmpty) :
    KeyFound g mem key (.ok (probe g key offset))
      ((installKey g (probe g key offset) key).run mem).2 := by
  obtain ⟨hholds, hothers, hwords⟩ := @run_installKey g mem (probe g key offset) key
  have hne : ∀ i, mem (.keyState i) = keyLive → i ≠ probe g key offset := by
    rintro i hlive rfl
    rw [hempty] at hlive
    exact absurd hlive (by decide)
  have hkept : KeysKept mem ((installKey g (probe g key offset) key).run mem).2 := by
    intro i hlive
    obtain ⟨h1, h2, h3⟩ := hothers i (hne i hlive)
    exact ⟨h1.trans hlive, h2, h3⟩
  have hkeyed : Keyed g ((installKey g (probe g key offset) key).run mem).2 key
      (probe g key offset) :=
    ⟨hholds, offset, rfl, fun d hd => hkept.passed (hpassed d hd)⟩
  refine ⟨⟨fun i => ?_, fun i hlive => ?_⟩, hkept, ?_, ?_⟩
  · by_cases hi : i = probe g key offset
    · subst hi
      exact .inr hholds.1
    · rw [(hothers i hi).1]
      exact hk.state i
  · by_cases hi : i = probe g key offset
    · subst hi
      exact ⟨key, hkeyed⟩
    · rw [(hothers i hi).1] at hlive
      obtain ⟨key', hkey'⟩ := hk.keyed i hlive
      exact ⟨key', hkept.keyed hkey'⟩
  · rintro index ⟨⟩
    exact hkeyed
  · intro a ha _
    rcases hwords a ha with h | ⟨h, hc⟩
    · exact .inl h
    · exact .inr ⟨h, _, hc, hempty⟩

theorem run_keyIndexFrom (hk : KeyTable g mem) (key : Key) (count offset : Nat)
    (hpassed : ∀ d < offset, Passed g mem key d) :
    KeyFound g mem key ((keyIndexFrom g key (range' offset count)).run mem).1
      ((keyIndexFrom g key (range' offset count)).run mem).2 := by
  induction count generalizing offset with
  | zero => exact .same hk fun index h => by cases h
  | succ count ih =>
    rw [range'_succ]
    simp only [keyIndexFrom, Prog.run_bind, run_load]
    rcases hk.state (probe g key offset) with hs | hs
    · have hne : ¬keyEmpty = keyLive := by decide
      simp only [hs, hne, if_false, if_true, Prog.run_bind, Prog.run_pure]
      exact .install hk key offset hpassed hs
    · by_cases hh : HoldsKey mem (probe g key offset) key
      · simp only [hs, if_true, run_holds, Prog.run_bind, hh, decide_true, Prog.run_pure]
        refine .same hk fun index h => ?_
        cases h
        exact ⟨hh, offset, rfl, hpassed⟩
      · simp only [hs, if_true, run_holds, Prog.run_bind, hh, decide_false, Bool.false_eq_true,
          if_false]
        refine ih (offset + 1) fun d hd => ?_
        rcases Nat.lt_succ_iff_lt_or_eq.mp hd with hlt | rfl
        · exact hpassed d hlt
        · exact ⟨hs, hh⟩

theorem run_keyIndex (hk : KeyTable g mem) (p : Pool g) (key : Key) :
    KeyFound g mem key ((p.keyIndex key).run mem).1 ((p.keyIndex key).run mem).2 := by
  obtain ⟨hmem, hfound⟩ := run_findKeyFrom hk key g.keyCapacity 0 (by simp)
  rw [← range_eq_range'] at hmem hfound
  rw [Pool.keyIndex, Prog.run_bind]
  unfold findKey
  cases hr : ((findKeyFrom g key (range g.keyCapacity)).run mem).1 with
  | some index =>
    simp only [Prog.run_pure, hmem]
    refine .same hk fun i h => ?_
    cases h
    exact hfound index hr
  | none =>
    simp only [Prog.run_bind, run_acquire, run_release, Prog.run_pure, hmem]
    have hpre : ∀ a : Addr, a.part ≠ .locks →
        update (update mem (.structural p.node) 1) .region 1 a = mem a := by
      intro a ha
      have h1 : a ≠ .region := by rintro rfl; exact ha rfl
      have h2 : a ≠ .structural p.node := by rintro rfl; exact ha rfl
      simp [h1, h2]
    have hfrom := run_keyIndexFrom (hk.of_eq fun a ha => hpre a (by simp [ha])).1 key
      g.keyCapacity 0 (by simp)
    rw [← range_eq_range'] at hfrom
    refine hfrom.locks hpre fun a ha => ?_
    have h1 : a ≠ .region := by rintro rfl; exact ha rfl
    have h2 : a ≠ .structural p.node := by rintro rfl; exact ha rfl
    simp [h1, h2]

def FreshWord (word : Nat → Addr) (mem : Mem Addr) : Prop :=
  ∀ k, mem (.keyState k) = keyEmpty → mem (word k) = 0

theorem KeyFound.fresh_eq {found : Except Error Nat} (h : KeyFound g mem key found mem') {a : Addr}
    {k : Nat} (hpart : a.part ≠ .keys ∧ a.part ≠ .locks)
    (hcounts : ∀ index, CountsKey index a → index = k)
    (hz : mem (.keyState k) = keyEmpty → mem a = 0) : mem' a = mem a := by
  rcases h.words a hpart.1 hpart.2 with heq | ⟨hzero, index, hc, hempty⟩
  · exact heq
  · rw [hzero, hz (hcounts index hc ▸ hempty)]

/-- What an operation that changes the words of `P`, and perhaps installs a key, does to the key
table and to the other words: a counter under a new key starts at 0. -/
structure KeyStep (g : Geometry) (P : Addr → Prop) (mem mem' : Mem Addr) : Prop where
  table : KeyTable g mem'
  kept : KeysKept mem mem'
  words : ∀ a, ¬P a → a.part ≠ .keys → mem' a = mem a ∨
    mem' a = 0 ∧ ∃ index, CountsKey index a ∧ mem (.keyState index) = keyEmpty

namespace KeyStep

variable {P : Addr → Prop} {mem1 : Mem Addr} {α : Type}

theorem refl (hk : KeyTable g mem) : KeyStep g P mem mem :=
  ⟨hk, fun _ hlive => ⟨hlive, rfl, rfl⟩, fun _ _ _ => .inl rfl⟩

theorem fresh_eq (h : KeyStep g P mem mem1) {a : Addr} {k : Nat} (ha : ¬P a)
    (hpart : a.part ≠ .keys) (hcounts : ∀ index, CountsKey index a → index = k)
    (hz : mem (.keyState k) = keyEmpty → mem a = 0) : mem1 a = mem a := by
  rcases h.words a ha hpart with heq | ⟨hzero, index, hc, hempty⟩
  · exact heq
  · rw [hzero, hz (hcounts index hc ▸ hempty)]

theorem empty_before (hk : KeyTable g mem) (h : KeyStep g P mem mem1) {k : Nat}
    (hempty : mem1 (.keyState k) = keyEmpty) : mem (.keyState k) = keyEmpty := by
  rcases hk.state k with hs | hs
  · exact hs
  · rw [(h.kept k hs).1] at hempty
    exact absurd hempty (by decide)

theorem of_found {key : Key} {found : Except Error Nat} (h : KeyFound g mem key found mem1)
    (hlocks : ∀ a, a.part = .locks → P a) : KeyStep g P mem mem1 :=
  ⟨h.table, h.kept, fun a ha hkeys => h.words a hkeys fun hl => ha (hlocks a hl)⟩

theorem run {q : PoolM α} (h : KeyStep g P mem mem1) (hq : q.Within P)
    (hkeys : ∀ a, P a → a.part ≠ .keys) : KeyStep g P mem (q.run mem1).2 := by
  have heq : ∀ a, a.part = .keys → (q.run mem1).2 a = mem1 a := fun a ha =>
    hq.run_eq mem1 fun hP => hkeys a hP ha
  obtain ⟨htable, hkept⟩ := h.table.of_eq heq
  refine ⟨htable, fun index hlive => ?_, fun a ha hk => ?_⟩
  · obtain ⟨h1, h2, h3⟩ := h.kept index hlive
    obtain ⟨h4, h5, h6⟩ := hkept index h1
    exact ⟨h4, h5.trans h2, h6.trans h3⟩
  · rw [hq.run_eq mem1 ha]
    exact h.words a ha hk

theorem after_keyIndex (hk : KeyTable g mem) (p : Pool g) (key : Key)
    (body : Nat → PoolM (Except Error α)) (hbody : ∀ index, (body index).Within P)
    (hlocks : ∀ a, a.part = .locks → P a) (hkeys : ∀ a, P a → a.part ≠ .keys) :
    KeyStep g P mem ((do
      match ← p.keyIndex key with
      | .error e => return .error e
      | .ok index => body index : PoolM (Except Error α)).run mem).2 := by
  have hstep := of_found (run_keyIndex hk p key) hlocks
  rw [Prog.run_bind]
  cases ((p.keyIndex key).run mem).1 with
  | error e => exact hstep
  | ok index => exact hstep.run (hbody index) hkeys

end KeyStep

end OrbitPool
