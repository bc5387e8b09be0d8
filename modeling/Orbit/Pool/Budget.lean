import Orbit.Pool.Admission
import Orbit.Pool.Slots

/-! The creation budget: a key's counts word against the resources registered under it and the
creation claims each node holds.  A permit that is dropped after a death report has already
returned its claim takes another node's claim with it; as long as that does not happen, the budget
holds. -/

namespace OrbitPool

open Orbit.Atomic Function Finset

variable {g : Geometry} {mem : Mem Addr}

def live (mem : Mem Addr) (k : Nat) : Nat := (unpackCounts (mem (.counts k))).1
def creating (mem : Mem Addr) (k : Nat) : Nat := (unpackCounts (mem (.counts k))).2

theorem live_lt (mem : Mem Addr) (k : Nat) : live mem k < 2 ^ 32 := (unpackCounts_lt _).1
theorem creating_lt (mem : Mem Addr) (k : Nat) : creating mem k < 2 ^ 32 := (unpackCounts_lt _).2

/-- The slots whose resource is live or draining under the key in slot `k`. -/
def liveResources (g : Geometry) (mem : Mem Addr) (k : Nat) : Nat :=
  ∑ slot : Fin g.totalResources, if Held mem slot ∧ mem (.keyIndex slot) = k then 1 else 0

theorem liveResources_lt (g : Geometry) (mem : Mem Addr) (k : Nat) :
    liveResources g mem k < 2 ^ 32 := by
  have hle : liveResources g mem k ≤ ∑ _slot : Fin g.totalResources, 1 := by
    refine sum_le_sum fun slot _ => ?_
    split <;> omega
  have htotal := g.totalResources_lt
  rw [← card_eq_sum_ones, card_univ, Fintype.card_fin] at hle
  omega

variable {mem' : Mem Addr} {k slot : Nat} {key : Key}

theorem liveResources_congr (h : ∀ slot, Held mem' slot ∧ mem' (.keyIndex slot) = k ↔
      Held mem slot ∧ mem (.keyIndex slot) = k) :
    liveResources g mem' k = liveResources g mem k := by
  refine sum_congr rfl fun slot _ => ?_
  simp only [h slot]

theorem liveResources_change (mem mem' : Mem Addr) (k : Nat) (hslot : slot < g.totalResources)
    (h : ∀ other ≠ slot, Held mem' other ∧ mem' (.keyIndex other) = k ↔
      Held mem other ∧ mem (.keyIndex other) = k) :
    liveResources g mem' k + (if Held mem slot ∧ mem (.keyIndex slot) = k then 1 else 0) =
      liveResources g mem k + if Held mem' slot ∧ mem' (.keyIndex slot) = k then 1 else 0 := by
  refine sum_change
    (fun slot : Fin g.totalResources => if Held mem slot ∧ mem (.keyIndex slot) = k then 1 else 0)
    (fun slot : Fin g.totalResources => if Held mem' slot ∧ mem' (.keyIndex slot) = k then 1 else 0)
    ⟨slot, hslot⟩ fun other hother => ?_
  simp only [h other fun he => hother (Fin.ext he)]

def LiveCounted (g : Geometry) (mem : Mem Addr) : Prop :=
  ∀ k, live mem k = liveResources g mem k

theorem LiveCounted.of_eq (h : LiveCounted g mem) (hlive : ∀ k, live mem' k = live mem k)
    (hslots : ∀ slot, (Held mem' slot ↔ Held mem slot) ∧
      (Held mem slot → mem' (.keyIndex slot) = mem (.keyIndex slot))) : LiveCounted g mem' := by
  intro k
  rw [hlive, h k]
  refine (liveResources_congr fun slot => ?_).symm
  rw [(hslots slot).1]
  refine and_congr_right fun hheld => ?_
  rw [(hslots slot).2 hheld]

theorem NotRegistered.liveCounted (h : NotRegistered mem mem') (hfresh : FreshWord .counts mem)
    (hlive : LiveCounted g mem) : LiveCounted g mem' := by
  refine hlive.of_eq (fun k => ?_) fun slot => ?_
  · simp only [live, h.counts hfresh]
  · exact ⟨(h.slots slot).held_iff, fun _ => (h.slots slot).word (by simp) rfl⟩

theorem Registered.liveCounted {p : Pool g} {capacity : Nat} {active : Bool}
    (h : Registered p mem mem' key capacity active k slot) (hfresh : FreshWord .counts mem)
    (hlive : LiveCounted g mem) : LiveCounted g mem' := by
  have hheld : Held mem' slot := .inl h.installed.state
  intro j
  have hchange := liveResources_change mem mem' j h.slot_lt fun other hother => by
    rw [(h.slots other hother).held_iff, (h.slots other hother).word (by simp) rfl]
  simp only [h.free.not_held, false_and, if_false, hheld, h.installed.keyIndex, true_and] at hchange
  have hold := hlive j
  have hlt := liveResources_lt g mem' j
  have hcounts := h.counts hfresh j
  by_cases hj : j = k
  · subst hj
    rw [if_pos rfl] at hchange hcounts
    have hnew : live mem' j = (live mem j + 1) % 2 ^ 32 := by
      rw [live, hcounts, unpackCounts_packCounts]
      rfl
    rw [hnew, Nat.mod_eq_of_lt (by omega)]
    omega
  · rw [if_neg (Ne.symm hj)] at hchange
    rw [if_neg hj] at hcounts
    rw [live, hcounts, ← live]
    omega

theorem Registered.creating {p : Pool g} {capacity : Nat} {active : Bool}
    (h : Registered p mem mem' key capacity active k slot) (hfresh : FreshWord .counts mem)
    (j : Nat) : creating mem' j = creating mem j := by
  have hcounts := h.counts hfresh j
  have hlt := creating_lt mem j
  rw [OrbitPool.creating, hcounts]
  split
  · rw [unpackCounts_packCounts]
    exact Nat.mod_eq_of_lt hlt
  · rfl

theorem ResourceClosed.creating (h : ResourceClosed g mem mem' slot) (j : Nat) :
    creating mem' j = creating mem j := by
  have hlt := creating_lt mem j
  rw [OrbitPool.creating, h.counts]
  split
  · rw [unpackCounts_packCounts]
    exact Nat.mod_eq_of_lt hlt
  · rfl

theorem ResourceClosed.liveCounted (h : ResourceClosed g mem mem' slot) (hheld : Held mem slot)
    (hslot : slot < g.totalResources) (hlive : LiveCounted g mem) : LiveCounted g mem' := by
  have hkey : ∀ other, mem' (.keyIndex other) = mem (.keyIndex other) := fun other =>
    h.words _ (by simp) (by simp [Addr.part]) (by simp [Addr.part]) (by simp [Addr.part])
  have hnot : ¬Held mem' slot := by
    rintro (hs | hs) <;> rw [h.state] at hs <;> exact absurd hs (by decide)
  intro j
  have hchange := liveResources_change mem mem' j hslot fun other hother => by
    have hstate : mem' (.state other) = mem (.state other) :=
      h.words _ (by simpa using hother) (by simp [Addr.part]) (by simp [Addr.part])
        (by simp [Addr.part])
    rw [hkey, Held, Held, hstate]
  simp only [hnot, false_and, if_false, hheld, true_and] at hchange
  have hold := hlive j
  have hlt := live_lt mem j
  have hcounts := h.counts j
  by_cases hj : j = mem (.keyIndex slot)
  · rw [if_pos hj.symm] at hchange
    rw [if_pos hj] at hcounts
    have hnew : live mem' j = live mem j - 1 := by
      rw [live, hcounts, unpackCounts_packCounts]
      exact Nat.mod_eq_of_lt (by rw [← live]; omega)
    omega
  · rw [if_neg (Ne.symm hj)] at hchange
    rw [if_neg hj] at hcounts
    rw [live, hcounts, ← live]
    omega

def World.creationTally (w : World g) : Tally (Fin g.fleetCapacity) Nat where
  total k := creating w.mem k
  part node k := w.mem (.claims node k)
  permits := filed w.creations
  lost := w.reported

theorem run_claimCreate (hk : KeyTable g mem) (hfresh : FreshWord .counts mem) (p : Pool g)
    (key : Key) (m : Nat) :
    let r := (p.claimCreate key m).run mem
    (∃ k, add32 (live mem k) (creating mem k) < m ∧ r.1 = .ok ⟨p, k⟩ ∧ Keyed g r.2 key k ∧
      (∀ j, r.2 (.counts j) = if j = k then packCounts (live mem k) (creating mem k + 1)
        else mem (.counts j)) ∧
      ∀ n j, r.2 (.claims n j) = if n = p.node ∧ j = k then (mem (.claims n k) + 1) % 2 ^ 32
        else mem (.claims n j)) ∨
    (∃ e, r.1 = .error e) ∧ (∀ j, r.2 (.counts j) = mem (.counts j)) ∧
      ∀ n j, r.2 (.claims n j) = mem (.claims n j) := by
  have hfound := run_keyIndex hk p key
  have hcounts : ∀ k, ((p.keyIndex key).run mem).2 (.counts k) = mem (.counts k) := fun k =>
    hfound.fresh_eq (by simp [Addr.part]) (by simp [CountsKey]) (hfresh k)
  have hclaims : ∀ n k, ((p.keyIndex key).run mem).2 (.claims n k) = mem (.claims n k) := by
    intro n k
    rcases hfound.words (.claims n k) (by simp [Addr.part]) (by simp [Addr.part])
      with h | ⟨-, index, hc, -⟩
    · exact h
    · rcases hc with hc | hc | hc | ⟨_, hc⟩ <;> cases hc
  simp only [Pool.claimCreate, Prog.run_bind]
  generalize (p.keyIndex key).run mem = r at *
  obtain ⟨found, mem1⟩ := r
  simp only at hcounts hclaims
  cases found with
  | error e => exact .inr ⟨⟨e, rfl⟩, hcounts, hclaims⟩
  | ok k =>
    by_cases hlt : add32 (live mem k) (creating mem k) < m
    · have hle : ¬m ≤ add32 (live mem k) (creating mem k) := by omega
      have hlt' := hlt
      have hle' := hle
      unfold live creating at hlt' hle'
      refine .inl ⟨k, hlt, by simp [hcounts, hle'], ?_, ?_, ?_⟩
      · have hkept := (hfound.table.of_eq fun a ha => show
          (update (update mem1 (.counts k)
            (packCounts (unpackCounts (mem (.counts k))).1 ((unpackCounts (mem (.counts k))).2 + 1)))
            (.claims p.node k) ((mem1 (.claims p.node k) + 1) % 2 ^ 32)) a = mem1 a by
            have h1 : a ≠ .counts k := by rintro rfl; cases ha
            have h2 : a ≠ .claims p.node k := by rintro rfl; cases ha
            simp [h1, h2]).2
        simpa [hcounts, hlt', hle'] using hkept.keyed (hfound.keyed k rfl)
      · intro j
        by_cases hj : j = k <;> simp [hlt', hj, hcounts, live, creating]
      · intro n j
        by_cases hj : j = k <;> by_cases hn : n = p.node <;>
          simp [hcounts, hlt', hj, hn, hclaims]
    · have hle : m ≤ add32 (live mem k) (creating mem k) := by omega
      unfold live creating at hlt hle
      refine .inr ⟨⟨.creationBudget key m, ?_⟩, ?_, ?_⟩
      · simp [hcounts, hle]
      · simp [hcounts, hlt]
      · simp [hcounts, hclaims, hlt]

theorem run_dropCreation (permit : Permit g) (mem : Mem Addr) :
    (∀ j, (permit.dropCreation.run mem).2 (.counts j) =
      if j = permit.keyIndex then packCounts (live mem j) (creating mem j - 1)
      else mem (.counts j)) ∧
    ∀ node j, (permit.dropCreation.run mem).2 (.claims node j) =
      if node = permit.pool.node ∧ j = permit.keyIndex
      then mem (.claims permit.pool.node permit.keyIndex) - 1 else mem (.claims node j) := by
  unfold Permit.dropCreation
  constructor
  · intro j
    by_cases hheld : 0 < mem (.claims permit.pool.node permit.keyIndex) <;>
      by_cases hj : j = permit.keyIndex <;> simp [hheld, hj, live, creating]
  · intro node j
    by_cases hheld : 0 < mem (.claims permit.pool.node permit.keyIndex)
    · by_cases hn : node = permit.pool.node <;> by_cases hj : j = permit.keyIndex <;>
        simp [hheld, hn, hj]
    · have hzero : mem (.claims permit.pool.node permit.keyIndex) = 0 := by omega
      by_cases hn : node = permit.pool.node <;> by_cases hj : j = permit.keyIndex <;>
        simp [hzero, hn, hj]

theorem run_returnCreations (node keyIndex : Nat) (mem : Mem Addr) :
    (∀ k, ((returnCreations node keyIndex).run mem).2 (.counts k) =
      if k = keyIndex ∧ 0 < mem (.claims node keyIndex)
      then packCounts (live mem k) (creating mem k - mem (.claims node keyIndex))
      else mem (.counts k)) ∧
    ∀ n k, ((returnCreations node keyIndex).run mem).2 (.claims n k) =
      if n = node ∧ k = keyIndex then 0 else mem (.claims n k) := by
  unfold returnCreations
  by_cases hheld : mem (.claims node keyIndex) > 0
  · constructor
    · intro k
      by_cases hk : k = keyIndex <;> simp [hheld, hk, live, creating]
    · intro n k
      by_cases hk : k = keyIndex <;> by_cases hn : n = node <;> simp [hheld, hk, hn]
  · have hzero : mem (.claims node keyIndex) = 0 := by omega
    constructor
    · intro k
      by_cases hk : k = keyIndex <;> simp [hk, hzero]
    · intro n k
      by_cases hk : k = keyIndex <;> by_cases hn : n = node <;> simp [hk, hn, hzero]

theorem run_returnClaims_claims (node : Nat) (keys : List Nat) (mem : Mem Addr) :
    (∀ k, live ((returnClaims g node keys).run mem).2 k = live mem k) ∧
    (∀ k, creating ((returnClaims g node keys).run mem).2 k =
      if k ∈ keys then creating mem k - mem (.claims node k) else creating mem k) ∧
    (∀ k, mem (.claims node k) = 0 →
      ((returnClaims g node keys).run mem).2 (.counts k) = mem (.counts k)) ∧
    ∀ n k, ((returnClaims g node keys).run mem).2 (.claims n k) =
      if n = node ∧ k ∈ keys then 0 else mem (.claims n k) := by
  induction keys generalizing mem with
  | nil => simp [returnClaims]
  | cons keyIndex rest ih =>
    rw [returnClaims, Prog.run_bind, Prog.run_bind]
    have hframe : ∀ (mem : Mem Addr) (a : Addr), a.part = .counts ∨ a.part = .claims →
        ((returnAdmissions g node keyIndex).run mem).2 a = mem a := fun mem a ha => by
      refine (within_returnAdmissions node keyIndex fun a ha => ha).run_eq mem ?_
      rintro (rfl | rfl) <;> simp [Addr.part] at ha
    obtain ⟨hcounts, hclaims⟩ := run_returnCreations node keyIndex mem
    generalize ((returnCreations node keyIndex).run mem).2 = mem1 at *
    have hcounts2 := fun k => hframe mem1 (.counts k) (.inl rfl)
    have hclaims2 := fun n k => hframe mem1 (.claims n k) (.inr rfl)
    generalize ((returnAdmissions g node keyIndex).run mem1).2 = mem2 at *
    obtain ⟨ihlive, ihcreating, ihcounts, ihclaims⟩ := ih mem2
    have hlive1 : ∀ k, live mem2 k = live mem k := by
      intro k
      have hlt := live_lt mem k
      rw [live, hcounts2, hcounts]
      split
      · rw [unpackCounts_packCounts]
        exact Nat.mod_eq_of_lt hlt
      · rfl
    have hcreating1 : ∀ k, creating mem2 k =
        if k = keyIndex then creating mem k - mem (.claims node k) else creating mem k := by
      intro k
      have hlt := creating_lt mem k
      rw [creating, hcounts2, hcounts]
      by_cases hk : k = keyIndex
      · subst hk
        by_cases hheld : 0 < mem (.claims node k)
        · rw [if_pos ⟨rfl, hheld⟩, unpackCounts_packCounts, if_pos rfl]
          exact Nat.mod_eq_of_lt (by omega)
        · rw [if_neg fun hc => hheld hc.2, if_pos rfl, ← creating]
          omega
      · rw [if_neg fun hc => hk hc.1, if_neg hk, ← creating]
    refine ⟨fun k => (ihlive k).trans (hlive1 k), fun k => ?_, fun k hz => ?_, fun n k => ?_⟩
    · rw [ihcreating, hcreating1, hclaims2, hclaims]
      by_cases hk : k = keyIndex <;> by_cases hr : k ∈ rest <;> simp [hk, hr]
    · rw [ihcounts k (by rw [hclaims2, hclaims, hz, ite_self]), hcounts2, hcounts, if_neg]
      rintro ⟨rfl, hheld⟩
      omega
    · rw [ihclaims, hclaims2, hclaims]
      by_cases hn : n = node <;> by_cases hk : k = keyIndex <;> by_cases hr : k ∈ rest <;>
        simp [hn, hk, hr]

/-- An operation that keeps the budget: a creation permit is dropped while its node's claims count
it, or while nothing is being created; and a claim is made while the two halves add up to a
`u32`. -/
def BudgetOk (w : World g) : Op g → Prop
  | .claimCreate _ key _ => ∀ k, HoldsKey w.mem k key → live w.mem k + creating w.mem k < 2 ^ 32
  | .dropCreation n => ∀ key permit, w.creations[n]? = some (key, permit) →
      0 < w.mem (.claims permit.pool.node permit.keyIndex) ∨ creating w.mem permit.keyIndex = 0
  | _ => True

structure BudgetLedger (w : World g) : Prop where
  keys : KeyTable g w.mem
  fresh : FreshWord .counts w.mem
  live : LiveCounted g w.mem
  tally : w.creationTally.Ok
  keyed : ∀ e ∈ w.creations, Keyed g w.mem e.1 e.2.keyIndex

theorem BudgetLedger.init (g : Geometry) : BudgetLedger (World.init g) where
  keys := .zero g
  fresh _ _ := rfl
  live k := by
    rw [OrbitPool.live, liveResources, sum_eq_zero]
    · simp [World.init, unpackCounts]
    · intro slot _
      simp [Held, World.init, resourceLive, resourceDraining]
  tally := ⟨fun k => by simp [World.creationTally, World.init, creating, unpackCounts],
    fun i _ k => by simp [World.creationTally, World.init, filed]⟩
  keyed e he := by simp [World.init] at he

/-- What `BudgetLedger` asks of the world after an operation. -/
structure BudgetStep (w w' : World g) : Prop where
  fresh : FreshWord .counts w'.mem
  live : LiveCounted g w'.mem
  tally : w.creationTally.Step w'.creationTally
  keyed : ∀ e ∈ w'.creations, Keyed g w'.mem e.1 e.2.keyIndex

section

variable {w : World g} (h : BudgetLedger w)
include h

variable {op : Op g}

theorem BudgetLedger.kept (hfresh : FreshWord .counts (exec w op).mem)
    (hlive : LiveCounted g (exec w op).mem)
    (hcreating : ∀ k, creating (exec w op).mem k = creating w.mem k)
    (hclaims : ∀ n k, (exec w op).mem (.claims n k) = w.mem (.claims n k))
    (hperm : (exec w op).creations = w.creations) (hrep : w.reported ⊆ (exec w op).reported) :
    BudgetStep w (exec w op) := by
  have hkey := exec_keyStep h.keys op
  refine ⟨hfresh, hlive, .same ?_ ?_ ?_ hrep, ?_⟩
  · exact funext hcreating
  · exact funext fun node => funext fun k => hclaims node k
  · simp only [World.creationTally, hperm]
  · rw [hperm]
    exact fun e he => hkey.kept.keyed (h.keyed e he)

theorem BudgetLedger.claims_eq (op : Op g) (htouch : ¬op.touches .claims) (n k : Nat) :
    (exec w op).mem (.claims n k) = w.mem (.claims n k) := by
  rcases (exec_keyStep h.keys op).words (.claims n k) htouch (by simp [Addr.part])
    with he | ⟨-, index, hc, -⟩
  · exact he
  · rcases hc with hc | hc | hc | ⟨_, hc⟩ <;> cases hc

theorem BudgetLedger.untouched (hcounts : ¬op.touches .counts) (hclaims : ¬op.touches .claims)
    (hslots : ∀ slot, (Held (exec w op).mem slot ↔ Held w.mem slot) ∧
      (Held w.mem slot → (exec w op).mem (.keyIndex slot) = w.mem (.keyIndex slot)))
    (hperm : (exec w op).creations = w.creations) (hrep : w.reported ⊆ (exec w op).reported) :
    BudgetStep w (exec w op) := by
  have hkey := exec_keyStep h.keys op
  have heq : ∀ k, (exec w op).mem (.counts k) = w.mem (.counts k) := fun k =>
    hkey.fresh_eq hcounts (by simp [Addr.part]) (by simp [CountsKey]) (h.fresh k)
  refine h.kept (fun k hempty => ?_) ?_ (fun k => ?_) (h.claims_eq op hclaims) hperm hrep
  · rw [heq]
    exact h.fresh k (KeyStep.empty_before h.keys hkey hempty)
  · exact h.live.of_eq (fun k => by rw [OrbitPool.live, heq]; rfl) hslots
  · rw [creating, heq]
    rfl

theorem BudgetLedger.slots_eq (op : Op g) (hslot : ∀ slot, ¬op.touches (.slot slot)) (slot : Nat) :
    (Held (exec w op).mem slot ↔ Held w.mem slot) ∧
      (Held w.mem slot → (exec w op).mem (.keyIndex slot) = w.mem (.keyIndex slot)) := by
  have hstate : (exec w op).mem (.state slot) = w.mem (.state slot) :=
    exec_slot_eq h.keys op rfl (hslot slot)
  have hkey : (exec w op).mem (.keyIndex slot) = w.mem (.keyIndex slot) :=
    exec_slot_eq h.keys op rfl (hslot slot)
  simp only [Held, hstate, hkey, implies_true, and_self]

theorem BudgetLedger.registered {p : Pool g} {key : Key} {capacity : Nat} {active : Bool}
    {now : Nat} (hmem : (exec w op).mem = if capacity = 0 then w.mem else
      ((p.registerInner key capacity active now).run w.mem).2) (htouch : ¬op.touches .claims)
    (hperm : (exec w op).creations = w.creations) (hrep : w.reported ⊆ (exec w op).reported) :
    BudgetStep w (exec w op) := by
  have hclaims := h.claims_eq op htouch
  have hkey := exec_keyStep h.keys op
  by_cases hz : capacity = 0
  · rw [if_pos hz] at hmem
    refine h.kept ?_ ?_ (fun k => ?_) hclaims hperm hrep
    · rw [hmem]
      exact h.fresh
    · rw [hmem]
      exact h.live
    · rw [hmem]
  · rw [if_neg hz] at hmem
    rcases run_registerInner h.keys p key capacity active now with ⟨-, hnot⟩ | ⟨k, slot, hreg, -⟩
    · rw [← hmem] at hnot
      refine h.kept (fun k hempty => ?_) (hnot.liveCounted h.fresh h.live) (fun k => ?_) hclaims
        hperm hrep
      · rw [hnot.counts h.fresh]
        exact h.fresh k (KeyStep.empty_before h.keys hkey hempty)
      · rw [creating, hnot.counts h.fresh]
        rfl
    · rw [← hmem] at hreg
      refine h.kept (fun j hempty => ?_) (hreg.liveCounted h.fresh h.live)
        (hreg.creating h.fresh) hclaims hperm hrep
      rw [hreg.counts h.fresh, if_neg]
      · exact h.fresh j (KeyStep.empty_before h.keys hkey hempty)
      · rintro rfl
        rw [hreg.keyed.holds.1] at hempty
        exact absurd hempty (by decide)

omit h in
theorem ResourceClosed.freshCounts {mem' : Mem Addr} {slot : Nat}
    (hclosed : ResourceClosed g mem mem' slot) (hheld : Held mem slot)
    (hslot : slot < g.totalResources) (hlive : LiveCounted g mem)
    (hfresh : FreshWord .counts mem) : FreshWord .counts mem' := by
  have hstate : ∀ k, mem' (.keyState k) = mem (.keyState k) := fun k =>
    hclosed.words _ (by simp) (by simp [Addr.part]) (by simp [Addr.part]) (by simp [Addr.part])
  intro k hempty
  rw [hstate] at hempty
  rw [hclosed.counts, if_neg]
  · exact hfresh k hempty
  · rintro rfl
    -- the resource is counted under its key, and an empty key slot counts nothing
    have hcount := part_le_sum (fun slot' : Fin g.totalResources =>
      if Held mem slot' ∧ mem (.keyIndex slot') = mem (.keyIndex slot) then 1 else 0)
      ⟨slot, hslot⟩
    have hzero := hlive (mem (.keyIndex slot))
    rw [live, hfresh _ hempty] at hzero
    simp only [hheld, and_self, if_true] at hcount
    have hunpack : (unpackCounts 0).1 = 0 := by decide
    rw [hunpack, liveResources] at hzero
    omega

theorem BudgetLedger.unchanged (hmem : (exec w op).mem = w.mem)
    (hperm : (exec w op).creations = w.creations) (hrep : w.reported ⊆ (exec w op).reported) :
    BudgetStep w (exec w op) := by
  refine h.kept ?_ ?_ (fun k => ?_) (fun n k => ?_) hperm hrep
  · rw [hmem]
    exact h.fresh
  · rw [hmem]
    exact h.live
  · rw [hmem]
  · rw [hmem]

theorem BudgetLedger.unregister (p : Pool g) (id : ResourceId) :
    BudgetStep w (exec w (.unregister p id)) := by
  rcases @run_unregister g w.mem p id with hmem | ⟨slot, howned, hclosed⟩
  · exact h.unchanged hmem rfl (List.Subset.refl _)
  · have hlt := locate_lt howned.located
    exact h.kept (hclosed.freshCounts howned.held hlt h.live h.fresh)
      (hclosed.liveCounted howned.held hlt h.live) hclosed.creating
      (h.claims_eq _ (by simp [Op.touches])) rfl (List.Subset.refl _)

theorem BudgetLedger.drain (p : Pool g) (id : ResourceId) :
    BudgetStep w (exec w (.drain p id)) := by
  rcases @run_drain g w.mem p id with hmem | ⟨slot, howned, hlive, hmem⟩
  · exact h.unchanged hmem rfl (List.Subset.refl _)
  · refine h.untouched (by simp [Op.touches]) (by simp [Op.touches]) (fun i => ?_) rfl
      (List.Subset.refl _)
    have hmem' : (exec w (.drain p id)).mem = _ := hmem
    rw [hmem']
    by_cases hi : i = slot
    · subst hi
      simp [Held, hlive]
    · simp [Held, hi]

theorem BudgetLedger.claimCreate (p : Pool g) (key : Key) (m : UInt32)
    (hok : BudgetOk w (.claimCreate p key m)) :
    BudgetStep w (exec w (.claimCreate p key m)) := by
  have hkey := exec_keyStep h.keys (.claimCreate p key m)
  have hslots := h.slots_eq (.claimCreate p key m) (by simp [Op.touches])
  rcases run_claimCreate h.keys h.fresh p key m.toNat with
    ⟨k, hlt, hrun, hkeyed, hcounts, hclaims⟩ | ⟨⟨e, he⟩, hcounts, hclaims⟩
  · have hm := m.toNat_lt
    have hperm : (exec w (.claimCreate p key m)).creations = (key, ⟨p, k⟩) :: w.creations := by
      simp [exec, hrun, keep]
    have hsum : OrbitPool.live w.mem k + creating w.mem k < 2 ^ 32 := by
      rcases hkey.kept.keyed_before h.keys hkeyed with hk | hempty
      · exact hok k hk.holds
      · rw [OrbitPool.live, creating, h.fresh k hempty]
        decide
    rw [add32_of_lt hsum] at hlt
    have hcreating : ∀ j, creating (exec w (.claimCreate p key m)).mem j =
        if j = k then creating w.mem k + 1 else creating w.mem j := by
      intro j
      rw [creating, show (exec w (.claimCreate p key m)).mem (.counts j) = _ from hcounts j]
      split
      · rw [unpackCounts_packCounts]
        exact Nat.mod_eq_of_lt (by omega)
      · rfl
    have hwrap : (w.mem (.claims p.node k) + 1) % 2 ^ 32 = w.mem (.claims p.node k) + 1 := by
      have hle : w.mem (.claims p.node k) ≤ creating w.mem k := h.tally.part_le p.node k
      exact Nat.mod_eq_of_lt (by omega)
    refine ⟨fun j hempty => ?_, h.live.of_eq (fun j => ?_) hslots,
      .take p.node k hcreating (fun n j => (hclaims n j).trans ?_) ?_ rfl, ?_⟩
    · have hjk : j ≠ k := by
        rintro rfl
        rw [show (exec w (.claimCreate p key m)).mem (.keyState j) = keyLive from
          hkeyed.holds.1] at hempty
        exact absurd hempty (by decide)
      exact (hcounts j).trans ((if_neg hjk).trans
        (h.fresh j (KeyStep.empty_before h.keys hkey hempty)))
    · have hlive := live_lt w.mem k
      rw [OrbitPool.live, show (exec w (.claimCreate p key m)).mem (.counts j) = _ from hcounts j]
      split
      · rename_i hj
        rw [unpackCounts_packCounts, hj]
        exact Nat.mod_eq_of_lt hlive
      · rfl
    · by_cases he : n = p.node ∧ j = k
      · obtain ⟨rfl, rfl⟩ := he
        rw [if_pos ⟨rfl, rfl⟩, if_pos ⟨rfl, rfl⟩]
        exact hwrap
      · rw [if_neg fun hc => he ⟨Fin.ext hc.1, hc.2⟩, if_neg he]
        rfl
    · simp only [World.creationTally, filed, hperm, List.map_cons]
    · rw [hperm]
      rintro e (_ | ⟨_, he⟩)
      · exact hkeyed
      · exact hkey.kept.keyed (h.keyed e he)
  · refine h.kept (fun j hempty => ?_) (h.live.of_eq (fun j => ?_) hslots) (fun j => ?_) hclaims
      (by simp [exec, he, keep]) (List.Subset.refl _)
    · exact (hcounts j).trans (h.fresh j (KeyStep.empty_before h.keys hkey hempty))
    · exact congrArg (fun c => (unpackCounts c).1) (hcounts j)
    · exact congrArg (fun c => (unpackCounts c).2) (hcounts j)

theorem BudgetLedger.dropCreation (n : Nat) (hok : BudgetOk w (.dropCreation n)) :
    BudgetStep w (exec w (.dropCreation n)) := by
  have hkey := exec_keyStep h.keys (.dropCreation n)
  have hslots := h.slots_eq (.dropCreation n) (by simp [Op.touches])
  cases hn : w.creations[n]? with
  | none =>
    have hexec : exec w (.dropCreation n) = w := by simp only [exec, hn]
    refine h.unchanged ?_ ?_ ?_ <;> simp [hexec]
  | some e =>
    obtain ⟨key, permit⟩ := e
    have hexec : exec w (.dropCreation n) = { w with
        mem := (permit.dropCreation.run w.mem).2
        creations := w.creations.eraseIdx n } := by simp only [exec, hn]
    have hcond := hok key permit hn
    rw [hexec] at hkey hslots ⊢
    obtain ⟨hcounts, hclaims⟩ := run_dropCreation permit w.mem
    have hkeyed := h.keyed _ (List.mem_of_getElem? hn)
    refine ⟨fun j hempty => ?_, h.live.of_eq (fun j => ?_) hslots,
      .drop n permit.pool.node permit.keyIndex ?_ (fun j => ?_) (fun node j => ?_) ?_ rfl,
      fun e he => hkey.kept.keyed (h.keyed e (mem_of_mem_eraseIdx he))⟩
    · have hold := KeyStep.empty_before h.keys hkey hempty
      have hj : j ≠ permit.keyIndex := by
        rintro rfl
        rw [hkeyed.holds.1] at hold
        exact absurd hold (by decide)
      exact (hcounts j).trans ((if_neg hj).trans (h.fresh j hold))
    · have hlive := live_lt w.mem j
      show OrbitPool.live (permit.dropCreation.run w.mem).2 j = _
      rw [OrbitPool.live, hcounts]
      split
      · rw [unpackCounts_packCounts]
        exact Nat.mod_eq_of_lt hlive
      · rfl
    · simp [World.creationTally, filed, hn]
    · have hlt := creating_lt w.mem j
      show creating (permit.dropCreation.run w.mem).2 j = _
      rw [creating, hcounts]
      by_cases hj : j = permit.keyIndex
      · subst hj
        rw [if_pos rfl, unpackCounts_packCounts]
        have hmod : (creating w.mem permit.keyIndex - 1) % 2 ^ 32 =
            creating w.mem permit.keyIndex - 1 := Nat.mod_eq_of_lt (by omega)
        simp only [World.creationTally, hmod, true_and]
        split
        · rfl
        · omega
      · rw [if_neg hj, if_neg fun hc => hj hc.1]
        rfl
    · simpa [World.creationTally, Fin.ext_iff] using hclaims node j
    · simp [World.creationTally, filed, List.eraseIdx_map]

theorem BudgetLedger.nodeDead (node : Fin g.fleetCapacity) (incarnation : Nat) :
    BudgetStep w (exec w (.nodeDead node incarnation)) := by
  have hkey := exec_keyStep h.keys (.nodeDead node incarnation)
  -- closing the node's resources keeps the live half exact and the creating half as it was
  have hclose := @closeOwned_keeps g w.mem (fun mem => FreshWord .counts mem ∧
    LiveCounted g mem ∧ ∀ k, creating mem k = creating w.mem k) node incarnation
    (fun mem mem' slot hI hheld hlt _ _ hclosed =>
      ⟨hclosed.freshCounts hheld hlt hI.2.1 hI.1, hclosed.liveCounted hheld hlt hI.2.1,
        fun k => (hclosed.creating k).trans (hI.2.2 k)⟩)
    ⟨h.fresh, h.live, fun _ => rfl⟩
  have hclaims1 : ∀ n k, ((closeOwned g node incarnation (List.range g.totalResources)).run
      w.mem).2 (.claims n k) = w.mem (.claims n k) := fun n k => by
    refine (within_closeOwned (P := fun a => a.part ≠ .claims) node incarnation _
      (by simp +contextual) ?_).run_eq w.mem (by simp [Addr.part])
    rintro b (hb | hb | hb) <;> simp [hb]
  have hmem : (exec w (.nodeDead node incarnation)).mem =
      ((returnClaims g node (List.range g.keyCapacity)).run
        ((closeOwned g node incarnation (List.range g.totalResources)).run w.mem).2).2 := by
    simp [exec, OrbitPool.nodeDead]
  generalize ((closeOwned g node incarnation (List.range g.totalResources)).run w.mem).2 = mem1 at *
  obtain ⟨hfresh1, hlive1, hcreating1⟩ := hclose
  obtain ⟨hlive, hcreating, hcounts, hclaims⟩ :=
    @run_returnClaims_claims g node (List.range g.keyCapacity) mem1
  have hslot : ∀ a : Addr, (∃ i, a.part = .slot i) ∨ a.part = .keys →
      ((returnClaims g node (List.range g.keyCapacity)).run mem1).2 a = mem1 a := by
    intro a ha
    refine (within_returnClaims node _ fun a ha => ha).run_eq mem1 ?_
    rcases ha with ⟨i, ha⟩ | ha <;> simp [ha]
  rw [← hmem] at hlive hcreating hcounts hclaims hslot
  refine ⟨fun k hempty => ?_, hlive1.of_eq hlive fun i => ?_,
    .dead node (fun k => k ∈ List.range g.keyCapacity) (fun k hk => ?_) (fun k hk => ?_)
      (fun k hk => ?_) (fun n k hk => ?_) rfl rfl,
    fun e he => hkey.kept.keyed (h.keyed e he)⟩
  · rw [hslot _ (.inr rfl)] at hempty
    have hzero := hfresh1 k hempty
    rw [hcounts, hzero]
    -- nothing is being created under an empty key slot, so the node has no claim there
    have hnone : creating w.mem k = 0 := by
      rw [← hcreating1, creating, hzero]
      decide
    have hle : w.mem (.claims node k) ≤ creating w.mem k := h.tally.part_le node k
    rw [hclaims1]
    omega
  · simp only [Held, hslot (.state i) (.inl ⟨i, rfl⟩), hslot (.keyIndex i) (.inl ⟨i, rfl⟩),
      implies_true, and_self]
  · show creating (exec w (.nodeDead node incarnation)).mem k = _
    rw [hcreating, if_pos hk, hcreating1, hclaims1]
    rfl
  · show creating (exec w (.nodeDead node incarnation)).mem k = _
    rw [hcreating, if_neg hk, hcreating1]
    rfl
  · exact (hclaims node k).trans (if_pos ⟨rfl, hk⟩)
  · refine (hclaims n k).trans ((if_neg ?_).trans (hclaims1 n k))
    rintro ⟨hn, hk'⟩
    rcases hk with hk | hk
    · exact hk (Fin.ext hn)
    · exact hk hk'

theorem BudgetLedger.step (op : Op g) (hok : BudgetOk w op) : BudgetStep w (exec w op) := by
  cases op with
  | register p key capacity now =>
    exact h.registered (run_register_mem p key capacity.toNat now w.mem) (by simp [Op.touches]) rfl
      (List.Subset.refl _)
  | registerActive p key capacity now =>
    exact h.registered (run_registerActive_mem p key capacity.toNat now w.mem)
      (by simp [Op.touches]) rfl (List.Subset.refl _)
  | unregister p id => exact h.unregister p id
  | drain p id => exact h.drain p id
  | claimCreate p key m => exact h.claimCreate p key m hok
  | dropCreation n => exact h.dropCreation n hok
  | nodeDead node incarnation => exact h.nodeDead node incarnation
  | complete | completeIdle | dropAdmission =>
    refine h.untouched (by simp [Op.touches]) (by simp [Op.touches])
      (h.slots_eq _ (by simp [Op.touches])) ?_ ?_ <;> simp only [exec] <;> split <;> simp
  | _ =>
    exact h.untouched (by simp [Op.touches]) (by simp [Op.touches])
      (h.slots_eq _ (by simp [Op.touches])) rfl (List.Subset.refl _)

theorem BudgetLedger.exec (op : Op g) (hok : BudgetOk w op) :
    BudgetLedger (OrbitPool.exec w op) := by
  have hstep := h.step op hok
  exact ⟨(exec_keyStep h.keys op).table, hstep.fresh, hstep.live, h.tally.step hstep.tally,
    hstep.keyed⟩

end

theorem budgetLedger_run (ops : List (Op g)) (hok : Meets exec BudgetOk (World.init g) ops) :
    BudgetLedger (run g ops) :=
  hok.holds (fun _ op h hop => h.exec op hop) (.init g)

def World.outstanding (w : World g) (key : Key) : Nat :=
  w.creations.countP fun e => e.1 = key ∧ e.2.pool.node ∉ w.reported

def World.registered (w : World g) (key : Key) : Nat :=
  ∑ k : Fin g.keyCapacity, if HoldsKey w.mem k key then liveResources g w.mem k else 0

theorem BudgetLedger.registered_eq {w : World g} (h : BudgetLedger w)
    (hholds : HoldsKey w.mem k key) : w.registered key = OrbitPool.live w.mem k := by
  have hkeyed := h.keys.keyed_of_holds hholds
  rw [World.registered, sum_eq_single (⟨k, hkeyed.lt⟩ : Fin g.keyCapacity), if_pos hholds,
    h.live k]
  · intro j _ hj
    refine if_neg fun hh => hj (Fin.ext ?_)
    exact (h.keys.keyed_of_holds hh).unique hkeyed
  · exact fun hmem => absurd (mem_univ _) hmem

theorem BudgetLedger.outstanding_le {w : World g} (h : BudgetLedger w)
    (hholds : HoldsKey w.mem k key) : w.outstanding key ≤ creating w.mem k := by
  have hcount := h.tally.count_le k
  rw [World.creationTally, countP_filed h.keyed (h.keys.keyed_of_holds hholds)
    fun n => n ∉ w.reported] at hcount
  exact hcount

/-- In every sequence of whole operations whose steps keep the budget, the creating half of a key's
counts is never smaller than the number of undropped permits of nodes never reported dead, and a
claim fails when the registered resources and these permits have reached `max_live`. -/
theorem creation_budget (g : Geometry) (ops : List (Op g))
    (hok : Meets exec BudgetOk (World.init g) ops) :
    (∀ key k, HoldsKey (run g ops).mem k key →
      (run g ops).outstanding key ≤ creating (run g ops).mem k) ∧
    ∀ p key (maxLive : UInt32), BudgetOk (run g ops) (.claimCreate p key maxLive) →
      maxLive.toNat ≤ (run g ops).registered key + (run g ops).outstanding key →
      ∃ e, ((p.claimCreate key maxLive.toNat).run (run g ops).mem).1 = .error e := by
  have h := budgetLedger_run ops hok
  refine ⟨fun key k hholds => h.outstanding_le hholds, fun p key m hclaim hle => ?_⟩
  rcases run_claimCreate h.keys h.fresh p key m.toNat with ⟨k, hlt, -, hkeyed, -, -⟩ | ⟨he, -, -⟩
  · exfalso
    have hkey := exec_keyStep h.keys (.claimCreate p key m)
    rcases hkey.kept.keyed_before h.keys hkeyed with hk | hempty
    · have hsum := hclaim k hk.holds
      rw [add32_of_lt hsum] at hlt
      have hreg := h.registered_eq hk.holds
      have hout := h.outstanding_le hk.holds
      omega
    · -- a key without a slot has neither resources nor permits
      have hnone : ∀ j, ¬HoldsKey (run g ops).mem j key := by
        intro j hj
        have heq := (hkey.kept.keyed (h.keys.keyed_of_holds hj)).unique hkeyed
        rw [heq] at hj
        rw [hj.1] at hempty
        exact absurd hempty (by decide)
      have hreg : (run g ops).registered key = 0 := by
        refine sum_eq_zero fun j _ => if_neg (hnone j)
      have hout : (run g ops).outstanding key = 0 :=
        countP_of_not_keyed h.keyed (fun j hj => hnone j hj.holds) fun n => n ∉ (run g ops).reported
      omega
  · exact he

theorem pairTable_valid : (⟨247, 1, 1, false, false⟩ : PoolSpec).validate = .ok () := by decide

def pairTable : Geometry := ⟨⟨247, 1, 1, false, false⟩, 2, pairTable_valid, two_lt_u16⟩

def firstNode : Pool pairTable := ⟨⟨0, by decide⟩, 1⟩
def secondNode : Pool pairTable := ⟨⟨1, by decide⟩, 1⟩

theorem holds_zero (ops : List (Op pairTable)) (h : HoldsKey (run pairTable ops).mem k key) :
    k = 0 :=
  Nat.lt_one_iff.mp ((admissionLedger_run pairTable ops).keys.keyed_of_holds h).lt

def bothClaim : List (Op pairTable) :=
  [.claimCreate firstNode .sample 2, .claimCreate secondNode .sample 2]

theorem creation_budget_at_limit :
    (run pairTable bothClaim).outstanding ⟨5⟩ = 2 ∧
    ∃ e, ((firstNode.claimCreate ⟨5⟩ 2).run (run pairTable bothClaim).mem).1 = .error e := by
  have hok : Meets exec BudgetOk (World.init pairTable) bothClaim := by
    refine ⟨fun k hk => ?_, fun k hk => ?_, trivial⟩
    · obtain rfl := holds_zero [] hk
      decide +kernel
    · obtain rfl := holds_zero [.claimCreate firstNode .sample 2] hk
      decide +kernel
  refine ⟨by decide +kernel, (creation_budget pairTable bothClaim hok).2 firstNode ⟨5⟩ 2
    (fun k hk => ?_) (by decide +kernel)⟩
  obtain rfl := holds_zero bothClaim hk
  decide +kernel

/-- Both nodes hold a permit, the first is reported dead and its permit is dropped afterwards: the
second node's permit is no longer counted, and one claim later the limit of 2 no longer stops a
third. -/
def lateDrop : List (Op pairTable) :=
  [.claimCreate firstNode .sample 2, .claimCreate secondNode .sample 2, .nodeDead ⟨0, by decide⟩ 1,
    .dropCreation 1]

theorem late_drop_uncounted :
    HoldsKey (run pairTable lateDrop).mem 0 ⟨5⟩ ∧
    (run pairTable lateDrop).outstanding ⟨5⟩ = 1 ∧ creating (run pairTable lateDrop).mem 0 = 0 ∧
    (run pairTable (lateDrop ++ [.claimCreate secondNode ⟨5⟩ 2])).outstanding ⟨5⟩ = 2 ∧
    ((secondNode.claimCreate ⟨5⟩ 2).run
      (run pairTable (lateDrop ++ [.claimCreate secondNode ⟨5⟩ 2])).mem).1 =
        .ok ⟨secondNode, 0⟩ := by
  decide +kernel

end OrbitPool
