import Orbit.Stream.Deaths
import Mathlib.Data.List.InsertIdx

/-! Who holds what after any sequence of whole operations: a slot is live exactly while one of its
sides is claimed, and an endpoint holds its side until it is dropped or its process is reported
dead. -/

namespace OrbitStream

open Orbit.Atomic Function
open List hiding Mem drop

variable {g : Geometry}

/-- The slot is live in the handle's generation and the handle's process has its side. -/
def Holds (mem : Mem Addr) (h : Handle) : Prop :=
  mem (.state h.index) = slotLive ∧ mem (.generation h.index) = h.id.generation ∧
    mem (.claimed h.index h.side) = sideClaimed ∧ mem (.node h.index h.side) = h.node ∧
    mem (.incarnation h.index h.side) = h.incarnation

def Gone (mem : Mem Addr) (h : Handle) : Prop :=
  h.id.generation < mem (.generation h.index) ∨
    (mem (.generation h.index) = h.id.generation ∧
      (mem (.claimed h.index h.side) = sideDead ∨ mem (.state h.index) ≠ slotLive))

structure Tidy (mem : Mem Addr) (handles : List Handle) : Prop where
  live : ∀ i, mem (.state i) = slotLive ↔ ∃ side, mem (.claimed i side) = sideClaimed
  held : ∀ h ∈ handles, Holds mem h ∨ Gone mem h
  apart : handles.Pairwise fun h h' =>
    Holds mem h → Holds mem h' → h.index = h'.index → h.side ≠ h'.side

theorem Tidy.init : Tidy (fun _ => 0) [] where
  live i := by simp [slotLive, sideClaimed]
  held _ h := by cases h
  apart := List.Pairwise.nil

section

variable {mem mem' : Mem Addr} {handles : List Handle} {i : Nat}

theorem Tidy.change (ht : Tidy mem handles)
    (hlive : ∀ i, mem' (.state i) = slotLive ↔ ∃ side, mem' (.claimed i side) = sideClaimed)
    (hback : ∀ h ∈ handles, Holds mem' h → Holds mem h)
    (hheld : ∀ h ∈ handles, Holds mem h → Holds mem' h ∨ Gone mem' h)
    (hgone : ∀ h ∈ handles, Gone mem h → Gone mem' h) : Tidy mem' handles where
  live := hlive
  held h hmem := (ht.held h hmem).elim (hheld h hmem) fun hg => .inr (hgone h hmem hg)
  apart := by
    refine List.Pairwise.imp_of_mem ?_ ht.apart
    intro h h' hmem hmem' hne hh hh'
    exact hne (hback h hmem hh) (hback h' hmem' hh')

def Alike (mem mem' : Mem Addr) : Prop :=
  (∀ i, mem' (.state i) = slotLive ↔ mem (.state i) = slotLive) ∧
    ∀ a : Addr, a.Control → (∀ i, a ≠ .state i) → mem' a = mem a

theorem SameControl.alike (h : SameControl mem mem') : Alike mem mem' :=
  ⟨fun i => by rw [h (.state i) trivial], fun a ha _ => h a ha⟩

theorem Spent.alike (h : Spent mem mem') : Alike mem mem' := by
  refine ⟨fun i => ?_, fun a ha hne => ?_⟩
  · rcases h (.state i) trivial with heq | ⟨j, -, h1, h2⟩
    · rw [heq]
    · rw [h1, h2]
      decide
  · rcases h a ha with heq | ⟨j, hj, -⟩
    · exact heq
    · exact absurd hj (hne j)

theorem Alike.holds (h : Alike mem mem') (handle : Handle) : Holds mem' handle ↔ Holds mem handle := by
  rw [Holds, Holds, h.1, h.2 (.generation _) trivial (by simp), h.2 (.claimed _ _) trivial (by simp),
    h.2 (.node _ _) trivial (by simp), h.2 (.incarnation _ _) trivial (by simp)]

theorem Alike.gone (h : Alike mem mem') (handle : Handle) : Gone mem' handle ↔ Gone mem handle := by
  rw [Gone, Gone, ne_eq, h.1, h.2 (.generation _) trivial (by simp),
    h.2 (.claimed _ _) trivial (by simp)]

theorem Tidy.alike (ht : Tidy mem handles) (h : Alike mem mem') : Tidy mem' handles := by
  refine ht.change (fun i => ?_) (fun hd _ => (h.holds hd).mp)
    (fun hd _ hh => .inl ((h.holds hd).mpr hh)) fun hd _ => (h.gone hd).mpr
  rw [h.1, ht.live]
  exact exists_congr fun side => by rw [h.2 (.claimed i side) trivial (by simp)]

def Only (i : Nat) (mem mem' : Mem Addr) : Prop :=
  ∀ a : Addr, a.Control → a.slot? ≠ some i → mem' a = mem a

theorem Only.holds (h : Only i mem mem') {handle : Handle} (hi : handle.index ≠ i) :
    Holds mem' handle ↔ Holds mem handle := by
  have hkeep : ∀ a : Addr, a.Control → a.slot? = some handle.index → mem' a = mem a :=
    fun a ha hs => h a ha (by simpa [hs] using hi)
  rw [Holds, Holds, hkeep (.state _) trivial rfl, hkeep (.generation _) trivial rfl,
    hkeep (.claimed _ _) trivial rfl, hkeep (.node _ _) trivial rfl,
    hkeep (.incarnation _ _) trivial rfl]

theorem Only.gone (h : Only i mem mem') {handle : Handle} (hi : handle.index ≠ i) :
    Gone mem' handle ↔ Gone mem handle := by
  have hkeep : ∀ a : Addr, a.Control → a.slot? = some handle.index → mem' a = mem a :=
    fun a ha hs => h a ha (by simpa [hs] using hi)
  rw [Gone, Gone, hkeep (.state _) trivial rfl, hkeep (.generation _) trivial rfl,
    hkeep (.claimed _ _) trivial rfl]

theorem Tidy.only (ht : Tidy mem handles) (h : Only i mem mem')
    (hlive : mem' (.state i) = slotLive ↔ ∃ side, mem' (.claimed i side) = sideClaimed)
    (hback : ∀ hd ∈ handles, hd.index = i → Holds mem' hd → Holds mem hd)
    (hheld : ∀ hd ∈ handles, hd.index = i → Holds mem hd → Holds mem' hd ∨ Gone mem' hd)
    (hgone : ∀ hd ∈ handles, hd.index = i → Gone mem hd → Gone mem' hd) : Tidy mem' handles := by
  refine ht.change (fun j => ?_) (fun hd hmem => ?_) (fun hd hmem hh => ?_) fun hd hmem hg => ?_
  · by_cases hj : j = i
    · exact hj ▸ hlive
    · rw [h (.state j) trivial (by simpa [Addr.slot?] using hj), ht.live]
      refine exists_congr fun side => ?_
      rw [h (.claimed j side) trivial (by simpa [Addr.slot?] using hj)]
  · by_cases hi : hd.index = i
    · exact hback hd hmem hi
    · exact (h.holds hi).mp
  · by_cases hi : hd.index = i
    · exact hheld hd hmem hi hh
    · exact .inl ((h.holds hi).mpr hh)
  · by_cases hi : hd.index = i
    · exact hgone hd hmem hi hg
    · exact (h.gone hi).mpr hg

theorem Tidy.cons (ht : Tidy mem handles) {new : Handle} (hnew : Holds mem new)
    (hfree : ∀ h ∈ handles, h.index = new.index → h.side = new.side → ¬Holds mem h) :
    Tidy mem (new :: handles) where
  live := ht.live
  held h hmem := by
    rcases mem_cons.mp hmem with rfl | hmem
    · exact .inl hnew
    · exact ht.held h hmem
  apart := by
    refine pairwise_cons.mpr ⟨fun h hmem _ hh hi hs => ?_, ht.apart⟩
    exact hfree h hmem hi.symm hs.symm hh

end

section Operations

variable {mem mem' : Mem Addr} {handles : List Handle}

/-- What an operation leaves to the handles: the world stays tidy, and who held still does. -/
structure Kept (mem mem' : Mem Addr) (handles : List Handle) : Prop where
  tidy : Tidy mem' handles
  holds : ∀ h ∈ handles, Holds mem h → Holds mem' h

theorem Tidy.kept_alike (ht : Tidy mem handles) (h : Alike mem mem') : Kept mem mem' handles :=
  ⟨ht.alike h, fun hd _ => (h.holds hd).mpr⟩

theorem Tidy.kept_installed (ht : Tidy mem handles) {i creator incarnation : Nat}
    (h : Installed mem mem' i creator incarnation) : Kept mem mem' handles := by
  have hnone : ∀ hd ∈ handles, hd.index = i → ¬Holds mem hd := by
    rintro hd - rfl hh
    have hempty := h.empty
    rw [hh.1] at hempty
    cases hempty
  have hold : ∀ hd ∈ handles, hd.index = i → hd.id.generation < mem' (.generation i) := by
    intro hd hmem hi
    rw [h.generation]
    rcases (ht.held hd hmem).resolve_left (hnone hd hmem hi) with hlt | ⟨heq, -⟩
    · rw [hi] at hlt
      omega
    · rw [hi] at heq
      omega
  refine ⟨ht.only h.others ?_ (fun hd hmem hi hh => ?_) (fun hd hmem hi hh => ?_)
    fun hd hmem hi _ => ?_, fun hd hmem hh => ?_⟩
  · exact ⟨fun _ => ⟨.a, h.claimed⟩, fun _ => h.state⟩
  · have hlt := hold hd hmem hi
    rw [← hi, hh.2.1] at hlt
    omega
  · exact absurd hh (hnone hd hmem hi)
  · exact .inl (by rw [hi]; exact hold hd hmem hi)
  · refine (Only.holds h.others fun hi => ?_).mpr hh
    exact hnone hd hmem hi hh

theorem Tidy.create (ht : Tidy mem handles) {m1 : Mem Addr} (hspent : Spent mem m1) {h : Handle}
    (hinst : Installed m1 mem' h.index h.node h.incarnation) (hside : h.side = .a)
    (hgen : h.id.generation = m1 (.generation h.index) + 1) :
    Tidy mem' (h :: handles) ∧ ∀ hd ∈ handles, Holds mem hd → Holds mem' hd := by
  have h1 := ht.kept_alike hspent.alike
  have h2 := h1.tidy.kept_installed hinst
  have hnew : Holds mem' h := by
    refine ⟨hinst.state, hinst.generation.trans hgen.symm, ?_, ?_, ?_⟩
    · rw [hside]
      exact hinst.claimed
    · rw [hside]
      exact hinst.node
    · rw [hside]
      exact hinst.incarnation
  refine ⟨h2.tidy.cons hnew fun hd hmem hi _ hh => ?_, fun hd hmem hh => ?_⟩
  · -- the slot was empty before, so whoever had it is of an earlier generation
    have hnot : ¬Holds m1 hd := by
      intro hh1
      have hempty := hinst.empty
      rw [← hi, hh1.1] at hempty
      cases hempty
    rcases (h1.tidy.held hd hmem).resolve_left hnot with hlt | ⟨heq, -⟩
    · have hg := hh.2.1
      rw [hi, hinst.generation] at hg
      rw [hi] at hlt
      omega
    · have hg := hh.2.1
      rw [hi, hinst.generation] at hg
      rw [hi] at heq
      omega
  · exact h2.holds hd hmem (h1.holds hd hmem hh)

def Vacant (mem : Mem Addr) (handles : List Handle) (i : Nat) (side : Side) : Prop :=
  ∀ h ∈ handles, h.index = i → h.side = side → h.id.generation < mem (.generation i)

theorem Tidy.vacant (ht : Tidy mem handles) {i : Nat} {side : Side}
    (hstate : mem (.state i) = slotLive) (hdead : mem (.claimed i side) ≠ sideDead)
    (hnone : ∀ h ∈ handles, h.index = i → h.side = side → ¬Holds mem h) :
    Vacant mem handles i side := by
  rintro h hmem rfl rfl
  rcases (ht.held h hmem).resolve_left (hnone h hmem rfl rfl) with hlt | ⟨-, hd | hs⟩
  · exact hlt
  · exact absurd hd hdead
  · exact absurd hstate hs

theorem Tidy.kept_side (ht : Tidy mem handles) {i : Nat} {side : Side}
    (hv : Vacant mem handles i side) (hgen : mem' (.generation i) = mem (.generation i))
    (hlive : ∀ i, mem' (.state i) = slotLive ↔ ∃ side, mem' (.claimed i side) = sideClaimed)
    (hother : ∀ h : Handle, ¬(h.index = i ∧ h.side = side) →
      (Holds mem' h ↔ Holds mem h) ∧ (Gone mem' h ↔ Gone mem h)) : Kept mem mem' handles := by
  have hnot : ∀ h ∈ handles, h.index = i → h.side = side → ∀ m : Mem Addr,
      m (.generation i) = mem (.generation i) → ¬Holds m h := by
    rintro h hmem rfl rfl m hm hh
    have hlt := hv h hmem rfl rfl
    have hgen := hh.2.1
    omega
  have hholds : ∀ h ∈ handles, Holds mem' h ↔ Holds mem h := by
    intro h hmem
    by_cases hs : h.index = i ∧ h.side = side
    · exact iff_of_false (hnot h hmem hs.1 hs.2 mem' hgen) (hnot h hmem hs.1 hs.2 mem rfl)
    · exact (hother h hs).1
  refine ⟨ht.change hlive (fun h hmem => (hholds h hmem).mp)
    (fun h hmem hh => .inl ((hholds h hmem).mpr hh)) fun h hmem hg => ?_,
    fun h hmem => (hholds h hmem).mpr⟩
  by_cases hs : h.index = i ∧ h.side = side
  · refine .inl ?_
    rw [hs.1, hgen]
    exact hv h hmem hs.1 hs.2
  · exact (hother h hs).2.mpr hg

theorem Tidy.open (ht : Tidy mem handles) {h : Handle} (hstate : mem (.state h.index) = slotLive)
    (hgen : mem (.generation h.index) = h.id.generation)
    (hfree : mem (.claimed h.index h.side) = sideFree)
    (hmem' : mem' = update (update (update mem (.claimed h.index h.side)
      sideClaimed) (.incarnation h.index h.side) h.incarnation) (.node h.index h.side) h.node) :
    Tidy mem' (h :: handles) ∧ ∀ hd ∈ handles, Holds mem hd → Holds mem' hd := by
  have hnew : Holds mem' h := by
    subst hmem'
    exact ⟨by simpa using hstate, by simpa using hgen, by simp, by simp, by simp⟩
  have hv : Vacant mem handles h.index h.side := by
    refine ht.vacant hstate ?_ fun hd hmem hi hs hh => ?_
    · rw [hfree]
      decide
    · rw [← hi, ← hs, hh.2.2.1] at hfree
      cases hfree
  have hkept : Kept mem mem' handles := by
    refine ht.kept_side hv ?_ (fun j => ?_) fun hd hs => ?_
    · subst hmem'
      simp
    · by_cases hj : j = h.index
      · subst hj
        exact ⟨fun _ => ⟨h.side, hnew.2.2.1⟩, fun _ => hnew.1⟩
      · have hlive := ht.live j
        subst hmem'
        simpa [hj] using hlive
    · subst hmem'
      simp [Holds, Gone, hs]
  refine ⟨hkept.tidy.cons hnew fun hd hmem hi hs hh => ?_, hkept.holds⟩
  have hlt := hv hd hmem hi hs
  have h1 := hh.2.1
  have h2 := hnew.2.1
  rw [hi] at h1
  omega

theorem Tidy.rearm (ht : Tidy mem handles) {i : Nat} (hstate : mem (.state i) = slotLive)
    (hreleased : mem (.claimed i .b) = sideReleased)
    (hsame : SameControl (update (update (update mem (.node i .b) nobody)
      (.incarnation i .b) 0) (.claimed i .b) sideFree) mem') : Kept mem mem' handles := by
  generalize hm : update (update (update mem (.node i .b) nobody)
    (.incarnation i .b) 0) (.claimed i .b) sideFree = m1 at hsame
  have hv : Vacant mem handles i .b := by
    refine ht.vacant hstate ?_ fun hd hmem hi hs hh => ?_
    · rw [hreleased]
      decide
    · rw [← hi, ← hs, hh.2.2.1] at hreleased
      cases hreleased
  have hkept : Kept mem m1 handles := by
    refine ht.kept_side hv ?_ (fun j => ?_) fun hd hs => ?_
    · subst hm
      simp
    · -- side A is claimed, since side B is not and the slot is live
      have hlive := ht.live j
      subst hm
      by_cases hj : j = i
      · subst hj
        rw [Side.exists_iff] at hlive ⊢
        simpa [hreleased, sideReleased, sideFree, sideClaimed] using hlive
      · simpa [hj] using hlive
    · subst hm
      simp [Holds, Gone, hs]
  exact ⟨hkept.tidy.alike hsame.alike,
    fun h hmem hh => (hsame.alike.holds h).mpr (hkept.holds h hmem hh)⟩

theorem Tidy.sublist (ht : Tidy mem handles) {fewer : List Handle} (h : fewer.Sublist handles) :
    Tidy mem fewer :=
  ⟨ht.live, fun hd hmem => ht.held hd (h.subset hmem), ht.apart.sublist h⟩

theorem Tidy.alone (ht : Tidy mem handles) {n : Nat} {h : Handle} (hn : handles[n]? = some h)
    (hh : Holds mem h) : ∀ hd ∈ handles.eraseIdx n, hd.index = h.index → hd.side = h.side →
      ¬Holds mem hd := by
  intro hd hmem hi hs hhd
  obtain ⟨hlt, rfl⟩ := List.getElem?_eq_some_iff.mp hn
  obtain ⟨j, hj, hne, rfl⟩ := mem_eraseIdx_iff_getElem.mp hmem
  have hpair := pairwise_iff_getElem.mp ht.apart
  rcases Nat.lt_or_gt_of_ne hne with hjn | hnj
  · exact hpair j n hj hlt hjn hhd hh hi hs
  · exact hpair n j hlt hj hnj hh hhd hi.symm hs.symm

theorem Tidy.drop (ht : Tidy mem handles) {n : Nat} {h : Handle} (hn : handles[n]? = some h) :
    Kept mem (h.drop.run mem).2 (handles.eraseIdx n) := by
  have hrest := ht.sublist (eraseIdx_sublist handles n)
  rw [run_drop]
  by_cases hown : mem (.state h.index) = slotLive ∧ mem (.generation h.index) = h.id.generation ∧
      mem (.claimed h.index h.side) = sideClaimed
  · have hh : Holds mem h := by
      refine (ht.held h (mem_of_getElem? hn)).resolve_right fun hg => ?_
      rcases hg with hlt | ⟨-, hd | hs⟩
      · omega
      · rw [hown.2.2] at hd
        cases hd
      · exact hs hown.1
    have halone := ht.alone hn hh
    have hv : Vacant mem (handles.eraseIdx n) h.index h.side := by
      refine hrest.vacant hown.1 ?_ halone
      rw [hown.2.2]
      decide
    rw [if_pos hown]
    by_cases ho : mem (.claimed h.index h.side.other) = sideClaimed
    · rw [if_pos ho]
      refine hrest.kept_side hv (by simp) (fun j => ?_) fun hd hs => by simp [Holds, Gone, hs]
      have hlive := ht.live j
      by_cases hj : j = h.index
      · subst hj
        refine ⟨fun _ => ⟨h.side.other, by simpa using ho⟩, fun _ => by simpa using hown.1⟩
      · simpa [hj] using hlive
    · rw [if_neg ho]
      have hnone : ∀ hd ∈ handles.eraseIdx n, hd.index = h.index → ¬Holds mem hd := by
        intro hd hmem hi hhd
        by_cases hs : hd.side = h.side
        · exact halone hd hmem hi hs hhd
        · exact ho (by rw [← hi, ← Side.eq_other hs]; exact hhd.2.2.1)
      have honly : Only h.index mem (update (update mem
          (.claimed h.index h.side) sideReleased) (.state h.index) slotEmpty) := by
        intro a ha hne
        cases a <;> simp_all [Addr.slot?]
      refine ⟨hrest.only honly ?_ (fun hd hmem hi hh' => ?_) (fun hd hmem hi hh' => ?_)
        fun hd hmem hi hg => ?_, fun hd hmem hh' => ?_⟩
      · refine iff_of_false (by simp [slotEmpty, slotLive]) ?_
        rintro ⟨side, hside⟩
        by_cases hs : side = h.side
        · simp [hs, sideReleased, sideClaimed] at hside
        · rw [Side.eq_other hs] at hside
          exact ho (by simpa using hside)
      · have hstate := hh'.1
        rw [hi, update_self] at hstate
        cases hstate
      · exact absurd hh' (hnone hd hmem hi)
      · rcases hg with hlt | ⟨heq, -⟩
        · exact .inl (by simpa using hlt)
        · exact .inr ⟨by simpa using heq, .inr (by simp [hi, slotEmpty, slotLive])⟩
      · exact (honly.holds fun hi => hnone hd hmem hi hh').mpr hh'
  · rw [if_neg hown]
    exact ⟨hrest, fun _ _ hh => hh⟩

theorem Tidy.report (ht : Tidy mem handles) (node : Nat) (dead : Nat → Bool) {slots : List Nat}
    (hnodup : slots.Nodup) :
    Tidy ((endSides node dead slots).run mem).2 handles ∧
      ∀ h ∈ handles, Holds mem h → ¬(h.node = node ∧ dead h.incarnation = true) →
        Holds ((endSides node dead slots).run mem).2 h := by
  have hended : ∀ i ∈ slots, Ended node dead mem ((endSides node dead slots).run mem).2 i :=
    run_endSides hnodup ht.live
  have hkeep : ∀ a : Addr, (∀ i ∈ slots, a.ending? ≠ some i) →
      ((endSides node dead slots).run mem).2 a = mem a := by
    intro a ha
    refine (within_endSides slots).run_eq mem ?_
    rintro ⟨i, hi, heq⟩
    exact ha i hi heq
  generalize ((endSides node dead slots).run mem).2 = mem' at hended hkeep
  have hwords : ∀ i side, mem' (.generation i) = mem (.generation i) ∧
      mem' (.node i side) = mem (.node i side) ∧
      mem' (.incarnation i side) = mem (.incarnation i side) := fun i side =>
    ⟨hkeep _ (by simp [Addr.ending?]), hkeep _ (by simp [Addr.ending?]),
      hkeep _ (by simp [Addr.ending?])⟩
  have hlive : ∀ i, mem' (.state i) = slotLive ↔ ∃ side, mem' (.claimed i side) = sideClaimed := by
    intro i
    by_cases hi : i ∈ slots
    · exact (hended i hi).live (ht.live i)
    · have hout : ∀ a : Addr, a.ending? = some i → mem' a = mem a := by
        intro a ha
        refine hkeep a fun j hj heq => ?_
        rw [ha] at heq
        cases heq
        exact hi hj
      rw [hout (.state i) rfl, ht.live]
      exact exists_congr fun side => by rw [hout (.claimed i side) rfl]
  have hclaimed : ∀ i side, mem' (.claimed i side) = mem (.claimed i side) ∨
      (Hit node dead mem i side ∧ mem' (.claimed i side) = sideDead) := by
    intro i side
    by_cases hi : i ∈ slots
    · have hcl := (hended i hi).claimed side
      split at hcl
      · rename_i hhit
        exact .inr ⟨hhit, hcl⟩
      · exact .inl hcl
    · refine .inl (hkeep _ fun j hj heq => ?_)
      cases heq
      exact hi hj
  have hstate : ∀ i, mem' (.state i) = slotLive → mem (.state i) = slotLive := by
    intro i h
    obtain ⟨side, hside⟩ := (hlive i).mp h
    rcases hclaimed i side with heq | ⟨hhit, -⟩
    · exact (ht.live i).mpr ⟨side, heq ▸ hside⟩
    · exact (ht.live i).mpr ⟨side, hhit.1⟩
  have hholds : ∀ h, Holds mem h → mem' (.claimed h.index h.side) = sideClaimed → Holds mem' h := by
    intro h hh hc
    obtain ⟨h1, h2, h3⟩ := hwords h.index h.side
    exact ⟨(hlive _).mpr ⟨_, hc⟩, h1.trans hh.2.1, hc, h2.trans hh.2.2.2.1, h3.trans hh.2.2.2.2⟩
  refine ⟨ht.change hlive (fun h _ hh => ?_) (fun h _ hh => ?_) fun h _ hg => ?_,
    fun h _ hh hspared => ?_⟩
  · obtain ⟨h1, h2, h3⟩ := hwords h.index h.side
    refine ⟨hstate _ hh.1, h1.symm.trans hh.2.1, ?_, h2.symm.trans hh.2.2.2.1,
      h3.symm.trans hh.2.2.2.2⟩
    rcases hclaimed h.index h.side with heq | ⟨-, hd⟩
    · exact heq.symm.trans hh.2.2.1
    · rw [hh.2.2.1] at hd
      cases hd
  · rcases hclaimed h.index h.side with heq | ⟨-, hd⟩
    · exact .inl (hholds h hh (heq.trans hh.2.2.1))
    · exact .inr (.inr ⟨(hwords h.index h.side).1.trans hh.2.1, .inl hd⟩)
  · have hgen := (hwords h.index h.side).1
    rcases hg with hlt | ⟨heq, hd | hs⟩
    · exact .inl (by rw [hgen]; exact hlt)
    · refine .inr ⟨hgen.trans heq, .inl ?_⟩
      rcases hclaimed h.index h.side with he | ⟨-, hd'⟩
      · exact he.trans hd
      · exact hd'
    · exact .inr ⟨hgen.trans heq, .inr fun hl => hs (hstate _ hl)⟩
  · refine hholds h hh ?_
    rcases hclaimed h.index h.side with heq | ⟨hhit, -⟩
    · exact heq.trans hh.2.2.1
    · refine absurd ⟨hh.2.2.2.1.symm.trans hhit.2.1, ?_⟩ hspared
      rw [← hh.2.2.2.2]
      exact hhit.2.2

end Operations

/-- The operation is a report about the process that holds the handle. -/
def Op.Reports (h : Handle) : Op g → Prop
  | .nodeDead node incarnation => h.node = node ∧ h.incarnation = incarnation
  | .supersede s => h.node = s.node ∧ h.incarnation ≠ s.incarnation
  | _ => False

/-- One operation: the world stays tidy, and who held and is not reported still does. -/
structure Steps (w w' : World) (spared : Handle → Prop) : Prop where
  tidy : Tidy w'.mem w'.handles
  holds : ∀ h ∈ w'.handles, h ∈ w.handles → spared h → Holds w.mem h → Holds w'.mem h

section Steps

variable {w : World} {spared : Handle → Prop}

theorem Steps.refl (ht : Tidy w.mem w.handles) : Steps w w spared :=
  ⟨ht, fun _ _ _ _ hh => hh⟩

theorem Steps.at (ht : Tidy w.mem w.handles) {n : Nat} {needs : Endpoint → Bool}
    {act : Endpoint → World}
    (h : ∀ e, w.endpoints[n]? = some e → needs e = true → Steps w (act e) spared) :
    Steps w (w.at n needs act) spared := by
  unfold World.at
  split
  · rename_i e he
    split
    · rename_i hneeds
      exact h e he hneeds
    · exact .refl ht
  · exact .refl ht

theorem handles_set {endpoints : List Endpoint} {n : Nat} {e e' : Endpoint}
    (hn : endpoints[n]? = some e) (h : e'.handle = e.handle) :
    (endpoints.set n e').map Endpoint.handle = endpoints.map Endpoint.handle := by
  obtain ⟨hlt, rfl⟩ := List.getElem?_eq_some_iff.mp hn
  refine ext_getElem? fun k => ?_
  rw [map_set, h, getElem?_set]
  by_cases hk : n = k
  · subst hk
    simp [hlt]
  · simp [hk]

theorem Steps.same (ht : Tidy w.mem w.handles) {w' : World} (hmem : SameControl w.mem w'.mem)
    (hhandles : w'.handles = w.handles) : Steps w w' spared := by
  have hkept := ht.kept_alike hmem.alike
  exact ⟨hhandles ▸ hkept.tidy, fun h _ hmem' _ hh => hkept.holds h hmem' hh⟩

theorem Steps.dropped (ht : Tidy w.mem w.handles) {n : Nat} {e : Endpoint} {m1 : Mem Addr}
    (hn : w.endpoints[n]? = some e) (hsame : SameControl w.mem m1) :
    Steps w ⟨(e.handle.drop.run m1).2, w.endpoints.eraseIdx n⟩ spared := by
  have hkept := ht.kept_alike hsame.alike
  have hdrop := hkept.tidy.drop (n := n) (h := e.handle) (by simp [World.handles, hn])
  have hhandles : World.handles ⟨(e.handle.drop.run m1).2, w.endpoints.eraseIdx n⟩ =
      w.handles.eraseIdx n := (eraseIdx_map _ _ _).symm
  refine ⟨hhandles ▸ hdrop.tidy, fun h hmem' hmem _ hh => ?_⟩
  exact hdrop.holds h (hhandles ▸ hmem') (hkept.holds h hmem hh)

theorem same_setFlag (h : Handle) (direction : Side) (flag : Nat) (mem : Mem Addr) :
    SameControl mem ((h.setFlag direction flag).run mem).2 :=
  .of_within (within_setFlag h direction flag) mem

theorem same_stopReading (e : Endpoint) (mem : Mem Addr) :
    SameControl mem (e.stopReading.run mem).2 := by
  rw [Endpoint.stopReading, Prog.run_bind]
  exact same_setFlag e.handle _ _ mem

theorem same_finish (e : Endpoint) (mem : Mem Addr) : SameControl mem (e.finish.run mem).2 := by
  rw [Endpoint.finish, Prog.run_bind]
  exact same_setFlag e.handle _ _ mem

theorem same_reset (e : Endpoint) (mem : Mem Addr) : SameControl mem (e.reset.run mem).2 := by
  rw [Endpoint.reset, Prog.run_bind]
  exact same_setFlag e.handle _ _ mem

theorem run_dropRead (e : Endpoint) (mem : Mem Addr) : ∃ m1, SameControl mem m1 ∧
    (e.dropRead.run mem).2 = if e.writing then m1 else (e.handle.drop.run m1).2 := by
  refine ⟨(e.stopReading.run mem).2, same_stopReading e mem, ?_⟩
  rw [Endpoint.dropRead, Prog.run_bind]
  cases e.writing <;> rfl

theorem run_dropWrite (e : Endpoint) (mem : Mem Addr) : ∃ m1, SameControl mem m1 ∧
    (e.dropWrite.run mem).2 = if e.reading then m1 else (e.handle.drop.run m1).2 := by
  rw [Endpoint.dropWrite]
  cases e.shut with
  | true => exact ⟨mem, .refl mem, by cases e.reading <;> rfl⟩
  | false =>
    refine ⟨(e.reset.run mem).2, same_reset e mem, ?_⟩
    simp only [Bool.not_false, if_true, Prog.run_bind]
    cases e.reading <;> rfl

theorem run_rearm_steps (ht : Tidy w.mem w.handles) (s : Streams g) (id : StreamId) {w' : World}
    (hmem : w'.mem = ((s.rearm id).run w.mem).2) (hhandles : w'.handles = w.handles) :
    Steps w w' spared := by
  have hkept : Kept w.mem w'.mem w.handles := by
    rcases run_rearm s id w.mem with hsame | ⟨i, -, hstate, -, hreleased, hsame⟩
    · rw [hmem, hsame]
      exact ht.kept_alike (SameControl.refl _).alike
    · rw [hmem]
      exact ht.rearm hstate hreleased hsame
  exact ⟨hhandles ▸ hkept.tidy, fun h _ hmem' _ hh => hkept.holds h hmem' hh⟩

theorem exec_steps (ht : Tidy w.mem w.handles) (op : Op g) :
    Steps w (exec w op) fun h => ¬op.Reports h := by
  cases op with
  | create s =>
    rw [exec]
    rcases run_create s w.mem with ⟨⟨e, he⟩, hspent⟩ | ⟨i, m1, ticket, hok, hspent, hinst⟩
    · have hkept := ht.kept_alike hspent.alike
      simp only [he]
      exact ⟨hkept.tidy, fun h _ hmem _ hh => hkept.holds h hmem hh⟩
    · simp only [hok]
      obtain ⟨htidy, hholds⟩ := ht.create hspent
        (h := ⟨s.node, s.incarnation, i, ⟨g.spec.kind, s.node, i % g.laneCapacity,
          m1 (.generation i) + 1⟩, .a⟩) hinst rfl rfl
      exact ⟨htidy, fun h _ hmem _ hh => hholds h hmem hh⟩
  | openTicket s ticket =>
    rw [exec]
    rcases run_open s ticket w.mem with ⟨e, he, hmem⟩ | ⟨i, -, hstate, hgen, hfree, hok, hmem⟩
    · simp only [he, hmem]
      exact .refl ht
    · simp only [hok]
      obtain ⟨htidy, hholds⟩ := ht.open
        (h := ⟨s.node, s.incarnation, i, ticket.id, ticket.side⟩) hstate hgen hfree hmem
      exact ⟨htidy, fun h _ hmem _ hh => hholds h hmem hh⟩
  | finish n =>
    exact .at ht fun e hn _ => .same ht (same_finish e w.mem) (handles_set hn rfl)
  | reset n =>
    exact .at ht fun e hn _ => .same ht (same_reset e w.mem) (handles_set hn rfl)
  | stopReading n => exact .at ht fun e _ _ => .same ht (same_stopReading e w.mem) rfl
  | dropRead n =>
    refine .at ht fun e hn _ => ?_
    obtain ⟨m1, hsame, hrun⟩ := run_dropRead e w.mem
    cases hw : e.writing with
    | true =>
      rw [hw, if_pos rfl] at hrun
      simp only [hrun, shed, Bool.or_true, if_true]
      exact .same ht hsame (handles_set hn rfl)
    | false =>
      rw [hw, if_neg (by decide)] at hrun
      simp only [hrun, shed, Bool.or_false, Bool.false_eq_true, if_false]
      exact .dropped ht hn hsame
  | dropWrite n =>
    refine .at ht fun e hn _ => ?_
    obtain ⟨m1, hsame, hrun⟩ := run_dropWrite e w.mem
    cases hr : e.reading with
    | true =>
      rw [hr, if_pos rfl] at hrun
      simp only [hrun, shed, Bool.true_or, if_true]
      exact .same ht hsame (handles_set hn rfl)
    | false =>
      rw [hr, if_neg (by decide)] at hrun
      simp only [hrun, shed, Bool.or_false, Bool.false_eq_true, if_false]
      exact .dropped ht hn hsame
  | drop n =>
    refine .at ht fun e hn hboth => ?_
    have hw : e.writing = true := (Bool.and_eq_true_iff.mp hboth).2
    obtain ⟨m1, hsame1, hrun1⟩ := run_dropRead e w.mem
    rw [hw, if_pos rfl] at hrun1
    obtain ⟨m2, hsame2, hrun2⟩ := run_dropWrite { e with reading := false } m1
    simp only [Endpoint.drop, Prog.run_bind, hrun1, hrun2, Bool.false_eq_true, if_false]
    exact .dropped ht hn (hsame1.trans hsame2)
  | rearm s id => exact run_rearm_steps ht s id rfl rfl
  | rearmEndpoint s n =>
    refine .at ht fun e hn _ => ?_
    by_cases hside : e.handle.side = .a
    · have hrun : (e.rearm s).run w.mem = (s.rearm e.handle.id).run w.mem := by
        rw [Endpoint.rearm]
        simp [hside]
      simp only [hrun]
      split
      · exact run_rearm_steps ht s e.handle.id rfl (handles_set hn rfl)
      · exact run_rearm_steps ht s e.handle.id rfl rfl
    · have hrun : (e.rearm s).run w.mem = (.error (.malformed
          "only the creator side of a stream can be rearmed"), w.mem) := by
        rw [Endpoint.rearm]
        simp [hside]
      simp only [hrun]
      exact .refl ht
  | nodeDead node incarnation =>
    obtain ⟨htidy, hholds⟩ := ht.report node (fun held => held == incarnation)
      (nodup_range (n := g.totalSlots))
    refine ⟨htidy, fun h _ hmem hspared hh => hholds h hmem hh fun hr => hspared ?_⟩
    exact ⟨hr.1, eq_of_beq hr.2⟩
  | supersede s =>
    obtain ⟨htidy, hholds⟩ := ht.report s.node (fun held => held != s.incarnation)
      (nodup_range (n := g.totalSlots))
    refine ⟨htidy, fun h _ hmem hspared hh => hholds h hmem hh fun hr => hspared ?_⟩
    exact ⟨hr.1, by simpa using hr.2⟩

end Steps

theorem run_tidy (ops : List (Op g)) : Tidy (run ops).mem (run ops).handles :=
  foldl_holds (I := fun w : World => Tidy w.mem w.handles) (fun _ op ht => (exec_steps ht op).tidy)
    ops .init

theorem holds_until_dropped {w : World} (ht : Tidy w.mem w.handles) {h : Handle}
    (hmem : h ∈ w.handles) (hh : Holds w.mem h) {ops : List (Op g)}
    (hops : Meets exec (fun w op => ¬op.Reports h ∧ h ∈ (exec w op).handles) w ops) :
    Holds (ops.foldl exec w).mem h := by
  have hall : Tidy (ops.foldl exec w).mem (ops.foldl exec w).handles ∧
      h ∈ (ops.foldl exec w).handles ∧ Holds (ops.foldl exec w).mem h := by
    refine Meets.holds (I := fun w : World => Tidy w.mem w.handles ∧ h ∈ w.handles ∧ Holds w.mem h)
      (fun w op hI hop => ?_) ⟨ht, hmem, hh⟩ hops
    have hstep := exec_steps hI.1 op
    exact ⟨hstep.tidy, hop.2, hstep.holds h hop.2 hI.2.1 hop.1 hI.2.2⟩
  exact hall.2.2

section Reports

variable {mem : Mem Addr} {node incarnation : Nat}

theorem nodeDead_ended
    (hlive : ∀ i, mem (.state i) = slotLive ↔ ∃ side, mem (.claimed i side) = sideClaimed) :
    ∀ i < g.totalSlots, Ended node (fun held => held == incarnation) mem
      ((nodeDead g node incarnation).run mem).2 i := fun i hi =>
  run_endSides nodup_range hlive i (mem_range.mpr hi)

theorem nodeDead_other
    (hlive : ∀ i, mem (.state i) = slotLive ↔ ∃ side, mem (.claimed i side) = sideClaimed) {a : Addr}
    (ha : ∀ i < g.totalSlots, a.ending? = some i →
      ∀ side, ¬Hit node (fun held => held == incarnation) mem i side) :
    ((nodeDead g node incarnation).run mem).2 a = mem a := by
  by_cases hin : ∃ i < g.totalSlots, a.ending? = some i
  · obtain ⟨i, hi, hai⟩ := hin
    have hnone := ha i hi hai
    have hended : Ended node (fun held => held == incarnation) mem
        ((nodeDead g node incarnation).run mem).2 i := nodeDead_ended hlive i hi
    cases a with
    | state j =>
      cases hai
      rw [hended.state, if_neg fun h => h.1.elim hnone]
    | claimed j side =>
      cases hai
      rw [hended.claimed, if_neg (hnone side)]
    | flags j side =>
      cases hai
      rw [hended.flags, if_neg (hnone side), if_neg (hnone side.other)]
      simp
    | _ => cases hai
  · refine (within_endSides _).run_eq mem ?_
    rintro ⟨i, hi, heq⟩
    exact hin ⟨i, mem_range.mp hi, heq⟩

end Reports

/-- A death report after any sequence of whole operations.  At every slot it ends exactly the sides
that life of the node holds, with the flags of the directions they wrote and read, and empties the
slot when nobody else holds it; no other word changes; who held a side and is not reported keeps its
slot and generation until it drops; a slot is live exactly while one of its sides is claimed; and a
second report changes nothing. -/
theorem death_report_ends_one_life (ops : List (Op g)) (node incarnation : Nat) :
    let w := run ops
    let w' := exec w (.nodeDead node incarnation : Op g)
    (∀ i < g.totalSlots, Ended node (fun held => held == incarnation) w.mem w'.mem i) ∧
    (∀ a : Addr, (∀ i < g.totalSlots, a.ending? = some i →
      ∀ side, ¬Hit node (fun held => held == incarnation) w.mem i side) → w'.mem a = w.mem a) ∧
    (∀ h ∈ w.handles, Holds w.mem h → ¬(h.node = node ∧ h.incarnation = incarnation) →
      ∀ more : List (Op g),
        Meets exec (fun w op => ¬op.Reports h ∧ h ∈ (exec w op).handles) w' more →
        Holds (more.foldl exec w').mem h) ∧
    (∀ i, w'.mem (.state i) = slotLive ↔ ∃ side, w'.mem (.claimed i side) = sideClaimed) ∧
    (exec w' (.nodeDead node incarnation : Op g)).mem = w'.mem := by
  intro w w'
  have ht := run_tidy ops
  have hstep := exec_steps ht (.nodeDead node incarnation : Op g)
  have hended : ∀ i < g.totalSlots, Ended node (fun held => held == incarnation) w.mem w'.mem i :=
    nodeDead_ended ht.live
  refine ⟨hended, fun a ha => nodeDead_other ht.live ha, fun h hmem hh hspared more hmore => ?_,
    hstep.tidy.live, funext fun a => nodeDead_other hstep.tidy.live fun i hi _ side hhit => ?_⟩
  · exact holds_until_dropped hstep.tidy hmem (hstep.holds h hmem hmem hspared hh) hmore
  · -- a side that is claimed after the report was not reported, and its owner is as it was
    have hkeep : ∀ a : Addr, a.ending? = none → w'.mem a = w.mem a := fun a ha =>
      nodeDead_other ht.live fun j _ hj => by rw [ha] at hj; cases hj
    have hcl := (hended i hi).claimed side
    rw [hhit.1] at hcl
    split at hcl
    · cases hcl
    · rename_i hnot
      refine hnot ⟨hcl.symm, ?_, ?_⟩
      · rw [← hkeep (.node i side) rfl]
        exact hhit.2.1
      · rw [← hkeep (.incarnation i side) rfl]
        exact hhit.2.2

end OrbitStream
