import Orbit.Inbox.Ownership
import Mathlib.Algebra.Group.Pi.Lemmas

/-! The invariant of all lanes and calls together, and what each event of a join or a release does
to it. -/

namespace OrbitInbox

open Orbit.Atomic Function Option
open Multiset hiding Mem

/-- What a call holds about itself: `mine`, with its identity and the lanes it may still hold, and
conditions under which a lane of its name by another role was seen. -/
abbrev CallShare := Multiset (Identity × List Nat) × Multiset Prop

def mine (id : Identity) (lanes : List Nat) : CallShare := ({(id, lanes)}, 0)
def seenIf (condition : Prop) : CallShare := (0, {condition})

structure CallOk (P : Prop) (share : CallShare) (asked : Option Asked) (holds : Nat → Prop) :
    Prop where
  card : share.1.card ≤ 1
  mine : ∀ m ∈ share.1, ∃ a, asked = some a ∧ a.identity = some m.1 ∧ a.refused = false ∧
    ∀ l, holds l → l ∈ m.2
  seen : ∀ condition ∈ share.2, condition → ∃ a, asked = some a ∧ a.seen = true
  refused : ∀ a, asked = some a → a.refused = true → (P → a.seen = true) ∧ ∀ l, ¬holds l
  fresh : asked = none → share = 0 ∧ ∀ l, ¬holds l

abbrev Share := (Nat → LaneShare) × (Nat → CallShare)

def ofLane (lane : Nat) (share : LaneShare) : Share := (Pi.single lane share, 0)
def ofCall (thread : Nat) (share : CallShare) : Share := (0, Pi.single thread share)

structure Inv (g : Geometry) (P : Prop) (m : Share) (h : History) (mem : Mem Addr) : Prop where
  lane : ∀ l, LaneOk P (m.1 l) (laneWords mem l) (h.lane l) (h.looking l) (h.asking l) h.published
  call : ∀ t, CallOk P (m.2 t) h.calls[t]? fun l => t ∈ (h.lane l).holders
  stamps : ∀ l l' stamp, (h.lane l).advert = some stamp → (h.lane l').advert = some stamp → l = l'
  /-- A lane that was returned does not conflict with one advertised before it. -/
  order : ∀ l l' stamp stamp' id id', (h.lane l).joined = true → (h.lane l).advert = some stamp →
    (h.lane l).last = some id → l' < g.lanes → (h.lane l').advert = some stamp' →
    (h.lane l').last = some id' → stamp' < stamp → ¬id.conflicts id'
  seen : ∀ l < g.lanes, ∀ (t : Nat) a id, h.calls[t]? = some a → a.identity = some id →
    (h.lane l).opposes id = true → a.seen = true

variable {g : Geometry} {P : Prop} {m others : Share} {h : History} {mem mem' : Mem Addr}
  {l t : Nat} {s s' : LaneShare} {k k' : CallShare} {id : Identity}

theorem Inv.init (g : Geometry) (P : Prop) : Inv g P 0 .init fun _ => 0 where
  lane _ := .init P _
  call t := by
    constructor <;> simp [History.init]
  stamps := by simp [History.init]
  order := by simp [History.init]
  seen := by simp [History.init]

@[simp] theorem ofLane_fst_same (lane : Nat) (s : LaneShare) (m : Share) :
    (ofLane lane s + m).1 lane = s + m.1 lane := by simp [ofLane]

@[simp] theorem ofLane_snd (lane : Nat) (s : LaneShare) (m : Share) : (ofLane lane s + m).2 = m.2 := by
  simp [ofLane]

theorem ofLane_fst_ne {lane lane' : Nat} (h : lane' ≠ lane) (s : LaneShare) (m : Share) :
    (ofLane lane s + m).1 lane' = m.1 lane' := by simp [ofLane, h]

@[simp] theorem ofLane_zero (lane : Nat) : ofLane lane 0 = 0 := by
  simp [ofLane, Prod.mk_zero_zero]

theorem ofLane_add (lane : Nat) (s s' : LaneShare) :
    ofLane lane (s + s') = ofLane lane s + ofLane lane s' := by
  simp [ofLane, Pi.single_add]

theorem ofCall_add (t : Nat) (k k' : CallShare) :
    ofCall t (k + k') = ofCall t k + ofCall t k' := by
  simp [ofCall, Pi.single_add]

@[simp] theorem ofCall_snd_same (t : Nat) (k : CallShare) (m : Share) : (ofCall t k + m).2 t = k + m.2 t := by
  simp [ofCall]

@[simp] theorem ofCall_fst (t : Nat) (k : CallShare) (m : Share) : (ofCall t k + m).1 = m.1 := by simp [ofCall]

theorem ofCall_snd_ne {t t' : Nat} (h : t' ≠ t) (k : CallShare) (m : Share) :
    (ofCall t k + m).2 t' = m.2 t' := by simp [ofCall, h]

theorem Inv.lane_at (hI : Inv g P (ofLane l s + m) h mem) :
    LaneOk P (s + m.1 l) (laneWords mem l) (h.lane l) (h.looking l) (h.asking l) h.published := by
  have := hI.lane l
  rwa [ofLane_fst_same] at this

theorem Inv.call_of (hI : Inv g P (ofCall t k + m) h mem) :
    CallOk P (k + m.2 t) h.calls[t]? fun l => t ∈ (h.lane l).holders := by
  have := hI.call t
  rwa [ofCall_snd_same] at this

theorem Inv.at_lane (hI : Inv g P (ofLane l s + m) h mem) {looking asking : Nat}
    (hwords : ∀ l' ≠ l, laneWords mem' l' = laneWords mem l')
    (hl : LaneOk P (s' + m.1 l) (laneWords mem' l) (h.lane l) looking asking h.published) :
    Inv g P (ofLane l s' + m)
      { h with looking := update h.looking l looking,
               asking := update h.asking l asking } mem' where
  lane l' := by
    by_cases heq : l' = l
    · subst heq
      rw [ofLane_fst_same]
      simpa using hl
    · have hlane := hI.lane l'
      rw [ofLane_fst_ne heq] at hlane ⊢
      rw [hwords l' heq]
      simpa [heq] using hlane
  call t := by
    have := hI.call t
    rw [ofLane_snd] at this ⊢
    exact this
  stamps := hI.stamps
  order := hI.order
  seen := hI.seen

theorem Inv.at_words (hI : Inv g P (ofLane l s + m) h mem)
    (hwords : ∀ l' ≠ l, laneWords mem' l' = laneWords mem l')
    (hl : LaneOk P (s' + m.1 l) (laneWords mem' l) (h.lane l) (h.looking l) (h.asking l)
      h.published) : Inv g P (ofLane l s' + m) h mem' := by
  have := hI.at_lane hwords hl
  simpa using this

theorem Inv.relog (hI : Inv g P (ofLane l s + m) h mem) (log' : LaneLog) {m' : Share}
    (hadvert : log'.advert = none)
    (hwords : ∀ l' ≠ l, laneWords mem' l' = laneWords mem l') (hm : m'.1 = m.1)
    (hl : LaneOk P (s' + m.1 l) (laneWords mem' l) log' (h.looking l) (h.asking l) h.published)
    (hcall : ∀ t, CallOk P (m'.2 t) h.calls[t]? fun l' => t ∈ ((h.setLane l log').lane l').holders) :
    Inv g P (ofLane l s' + m') (h.setLane l log') mem' where
  lane l' := by
    by_cases heq : l' = l
    · subst heq
      rw [ofLane_fst_same, hm]
      simpa [History.setLane] using hl
    · have hlane := hI.lane l'
      rw [ofLane_fst_ne heq] at hlane ⊢
      rw [hwords l' heq, hm]
      simpa [History.setLane, heq] using hlane
  call t := by
    rw [ofLane_snd]
    exact hcall t
  stamps l₁ l₂ stamp h₁ h₂ := by
    by_cases heq₁ : l₁ = l
    · subst heq₁
      simp [History.setLane, hadvert] at h₁
    · by_cases heq₂ : l₂ = l
      · subst heq₂
        simp [History.setLane, hadvert] at h₂
      · simp only [History.setLane, ne_eq, heq₁, heq₂, not_false_eq_true,
          update_of_ne] at h₁ h₂
        exact hI.stamps l₁ l₂ stamp h₁ h₂
  order l₁ l₂ stamp₁ stamp₂ id₁ id₂ hj h₁ hid₁ hlt h₂ hid₂ := by
    by_cases heq₁ : l₁ = l
    · subst heq₁
      simp [History.setLane, hadvert] at h₁
    · by_cases heq₂ : l₂ = l
      · subst heq₂
        simp [History.setLane, hadvert] at h₂
      · simp only [History.setLane, ne_eq, heq₁, heq₂, not_false_eq_true,
          update_of_ne] at hj h₁ h₂ hid₁ hid₂
        exact hI.order l₁ l₂ stamp₁ stamp₂ id₁ id₂ hj h₁ hid₁ hlt h₂ hid₂
  seen l₁ hlt t a id ha hid hopp := by
    by_cases heq₁ : l₁ = l
    · subst heq₁
      simp [History.setLane, LaneLog.opposes, hadvert] at hopp
    · simp only [History.setLane, ne_eq, heq₁, not_false_eq_true, update_of_ne] at hopp
      exact hI.seen l₁ hlt t a id ha hid hopp

theorem laneWords_update_ne {place : Addr} {l' : Nat} (value : Nat)
    (hplace : ∀ i, place ≠ .hold l' ∧ place ≠ .consumers l' ∧ place ≠ .serviceLen l' ∧
      place ≠ .roleLen l' ∧ place ≠ .service l' i ∧ place ≠ .role l' i) :
    laneWords (update mem place value) l' = laneWords mem l' := by
  simp only [laneWords, LaneWords.mk.injEq]
  refine ⟨?_, ?_, ?_, ?_, ?_, ?_⟩
  · exact update_of_ne (hplace 0).1.symm _ _
  · exact update_of_ne (hplace 0).2.1.symm _ _
  · exact update_of_ne (hplace 0).2.2.1.symm _ _
  · exact update_of_ne (hplace 0).2.2.2.1.symm _ _
  · exact funext fun i => update_of_ne (hplace i).2.2.2.2.1.symm _ _
  · exact funext fun i => update_of_ne (hplace i).2.2.2.2.2.symm _ _

theorem CallOk.relax {share : CallShare} {asked : Option Asked} {holds holds' : Nat → Prop}
    (hc : CallOk P share asked holds) (hle : ∀ l, holds' l → holds l) :
    CallOk P share asked holds' where
  card := hc.card
  mine m hm := by
    obtain ⟨a, ha, hid, hr, hl⟩ := hc.mine m hm
    exact ⟨a, ha, hid, hr, fun l hh => hl l (hle l hh)⟩
  seen := hc.seen
  refused a ha hr := ⟨(hc.refused a ha hr).1, fun l hh => (hc.refused a ha hr).2 l (hle l hh)⟩
  fresh hn := ⟨(hc.fresh hn).1, fun l hh => (hc.fresh hn).2 l (hle l hh)⟩

theorem CallOk.remine {rest : CallShare} {asked : Option Asked} {lanes lanes' : List Nat}
    {holds holds' : Nat → Prop} (hc : CallOk P (OrbitInbox.mine id lanes + rest) asked holds)
    (hlanes : ∀ l, holds' l → l ∈ lanes') : CallOk P (OrbitInbox.mine id lanes' + rest) asked holds' := by
  obtain ⟨a, ha, hid, hr, -⟩ := hc.mine (id, lanes) (by simp [OrbitInbox.mine])
  have hcard := hc.card
  have hrest : rest.1 = 0 := by
    simpa [OrbitInbox.mine] using hcard
  refine ⟨?_, ?_, ?_, ?_, ?_⟩
  · simp [OrbitInbox.mine, hrest]
  · intro m hm
    simp only [OrbitInbox.mine, Prod.fst_add, hrest, add_zero, mem_singleton] at hm
    subst hm
    exact ⟨a, ha, hid, hr, hlanes⟩
  · intro condition hmem
    exact hc.seen condition (by simpa [OrbitInbox.mine] using hmem)
  · intro a' ha' hr'
    rw [ha] at ha'
    cases ha'
    rw [hr] at hr'
    cases hr'
  · intro hn
    rw [ha] at hn
    cases hn

variable {w : LaneWords} {log : LaneLog}

theorem Inv.won (hI : Inv g P (ofLane l (own w log) + (ofCall t (mine id []) + m)) h mem)
    (hfree : w.consumers = 0) (hname : w.serviceLen = 0)
    (hlooking : P → h.looking l = 0 ∧ h.asking l = 0) :
    Inv g P (ofLane l (own { w with consumers := 1 }
        { log with holders := t :: log.holders, last := none }) + (ofCall t (mine id [l]) + m))
      (record t (.won l) h) (update mem (.consumers l) 1) := by
  have hlane := hI.lane_at
  obtain ⟨rfl, rfl, -, hjoined, -⟩ := hlane.alone
  have hadvert := hlane.not_advertised hfree
  have hholders := hlane.written.free hfree
  refine hI.relog { h.lane l with holders := t :: (h.lane l).holders, last := none } hadvert ?_
    (by rw [ofCall_fst, ofCall_fst]) ?_ ?_
  · intro l' hne
    exact laneWords_update_ne 1 fun i => by simp [Ne.symm hne]
  · have hwon := hlane.won t hfree hname hlooking
    have hwords : laneWords (update mem (.consumers l) 1) l =
        { laneWords mem l with consumers := 1 } := by simp [laneWords]
    rw [hwords]
    simpa using hwon
  · intro t'
    by_cases heq : t' = t
    · subst heq
      have hcall := (hI.call t')
      rw [ofLane_snd, ofCall_snd_same] at hcall
      rw [ofCall_snd_same]
      refine hcall.remine fun l' hl' => ?_
      by_cases hll : l' = l
      · simp [hll]
      · simp only [History.setLane, ne_eq, hll, not_false_eq_true, update_of_ne] at hl'
        obtain ⟨a, -, -, -, hheld⟩ := hcall.mine (id, []) (by simp [OrbitInbox.mine])
        exact absurd (hheld l' hl') (by simp)
    · have hcall := hI.call t'
      rw [ofLane_snd, ofCall_snd_ne heq] at hcall
      rw [ofCall_snd_ne heq]
      refine hcall.relax fun l' hl' => ?_
      by_cases hll : l' = l
      · subst hll
        simp [History.setLane, hholders, heq] at hl'
      · simpa [History.setLane, hll] using hl'

theorem Inv.withdrawn (hI : Inv g P (ofLane l (own w log) + m) h mem) :
    Inv g P (ofLane l (own { w with consumers := 0 } { log with advert := none, holders := [] }) + m)
      (record t (.withdrawn l) h) (update mem (.consumers l) 0) := by
  have hlane := hI.lane_at
  obtain ⟨rfl, rfl, -⟩ := hlane.alone
  refine hI.relog { h.lane l with advert := none, holders := [] } rfl ?_ rfl ?_ ?_
  · intro l' hne
    exact laneWords_update_ne 0 fun i => by simp [Ne.symm hne]
  · have hwords : laneWords (update mem (.consumers l) 0) l =
        { laneWords mem l with consumers := 0 } := by simp [laneWords]
    rw [hwords]
    exact hlane.withdrawn
  · intro t'
    have hcall := hI.call t'
    rw [ofLane_snd] at hcall
    refine hcall.relax fun l' hl' => ?_
    by_cases hll : l' = l
    · subst hll
      simp [History.setLane] at hl'
    · simpa [History.setLane, hll] using hl'

theorem Inv.unmine (hheld : log.holders = [])
    (hI : Inv g P (ofLane l (own w log) + (ofCall t (mine id [l]) + m)) h mem) :
    Inv g P (ofLane l (own w log) + (ofCall t (mine id []) + m)) h mem where
  lane l' := by
    have hlane := hI.lane l'
    by_cases heq : l' = l
    · subst heq
      rwa [ofLane_fst_same, ofCall_fst] at hlane ⊢
    · rwa [ofLane_fst_ne heq, ofCall_fst] at hlane ⊢
  call t' := by
    have hcall := hI.call t'
    by_cases heq : t' = t
    · subst heq
      rw [ofLane_snd, ofCall_snd_same] at hcall ⊢
      refine hcall.remine fun l' hl' => ?_
      obtain ⟨a, -, -, -, hheld'⟩ := hcall.mine (id, [l]) (by simp [OrbitInbox.mine])
      have hl := List.mem_singleton.mp (hheld' l' hl')
      subst hl
      obtain ⟨-, rfl, -⟩ := hI.lane_at.alone
      rw [hheld] at hl'
      exact absurd hl' (by simp)
    · rwa [ofLane_snd, ofCall_snd_ne heq] at hcall ⊢
  stamps := hI.stamps
  order := hI.order
  seen := hI.seen

theorem LaneOk.later {looking asking published : Nat}
    (hl : LaneOk P s w log looking asking published) :
    LaneOk P s w log looking asking (published + 1) := by
  refine ⟨hl.held, ⟨?_, hl.written.last, hl.written.named, hl.written.free, hl.written.holders⟩,
    ⟨?_, hl.scans.looking, hl.scans.look, hl.scans.asking, hl.scans.ask⟩⟩
  · intro stamp hstamp
    obtain ⟨hlt, hrest⟩ := hl.written.advert stamp hstamp
    exact ⟨by omega, hrest⟩
  · intro seen hseen
    obtain ⟨hle, hrest⟩ := hl.scans.saw seen hseen
    exact ⟨by omega, hrest⟩

theorem CallOk.notice {share : CallShare} {asked : Option Asked} {holds : Nat → Prop}
    (hc : CallOk P share asked holds) (other : Identity) :
    CallOk P share (asked.map (Asked.notice other)) holds where
  card := hc.card
  mine m hm := by
    obtain ⟨a, rfl, hid, hr, hl⟩ := hc.mine m hm
    exact ⟨_, rfl, hid, hr, hl⟩
  seen condition hmem hcond := by
    obtain ⟨a, rfl, hseen⟩ := hc.seen condition hmem hcond
    exact ⟨_, rfl, by simp [Asked.notice, hseen]⟩
  refused a ha hr := by
    obtain ⟨a', rfl, rfl⟩ := map_eq_some_iff.mp ha
    obtain ⟨hseen, hnone⟩ := hc.refused a' rfl hr
    exact ⟨fun hP => by simp [Asked.notice, hseen hP], hnone⟩
  fresh hn := hc.fresh (map_eq_none_iff.mp hn)

theorem Inv.published (hI : Inv g P (ofLane l (own w log) + m) h mem) (hspelled : id.Spelled w)
    (hrole : w.roleLen = id.role.length) (hclaimed : w.consumers ≠ 0) (hlast : log.last = none) :
    Inv g P (ofLane l (own { w with serviceLen := id.service.length }
        { log with last := some id, advert := some h.published }) + m)
      (record t (.published l id) h)
      (update mem (.serviceLen l) id.service.length) := by
  have hlane := hI.lane_at
  obtain ⟨rfl, rfl, -, hjoined, -⟩ := hlane.alone
  have hlog : ∀ l' ≠ l, (record t (.published l id) h).lane l' = h.lane l' := by
    intro l' hne
    simp [record, History.setLane, hne]
  have hnew : (record t (.published l id) h).lane l =
      { h.lane l with last := some id, advert := some h.published } := by
    simp [record, History.setLane]
  have hbefore : ∀ l' stamp, (h.lane l').advert = some stamp → stamp < h.published :=
    fun l' stamp hstamp => ((hI.lane l').written.advert stamp hstamp).1
  constructor
  · intro l'
    by_cases heq : l' = l
    · subst heq
      have hwords : laneWords (update mem (.serviceLen l') id.service.length) l' =
          { laneWords mem l' with serviceLen := id.service.length } := by simp [laneWords]
      rw [ofLane_fst_same, hwords, hnew]
      exact hlane.publish hspelled hrole hclaimed hlast
    · have hother := (hI.lane l').later
      rw [ofLane_fst_ne heq] at hother ⊢
      rw [laneWords_update_ne _ fun i => by simp [Ne.symm heq], hlog l' heq]
      exact hother
  · intro t'
    have hcall := (hI.call t').notice id
    rw [ofLane_snd] at hcall ⊢
    have hcalls : (record t (.published l id) h).calls[t']? =
        h.calls[t']?.map (Asked.notice id) := by simp [record]
    rw [hcalls]
    refine hcall.relax fun l' hl' => ?_
    by_cases heq : l' = l
    · subst heq
      rw [hnew] at hl'
      exact hl'
    · rwa [hlog l' heq] at hl'
  · intro l₁ l₂ stamp h₁ h₂
    by_cases heq₁ : l₁ = l
    · by_cases heq₂ : l₂ = l
      · rw [heq₁, heq₂]
      · rw [hlog l₂ heq₂] at h₂
        rw [heq₁, hnew] at h₁
        cases h₁
        exact absurd (hbefore l₂ _ h₂) (by omega)
    · rw [hlog l₁ heq₁] at h₁
      by_cases heq₂ : l₂ = l
      · rw [heq₂, hnew] at h₂
        cases h₂
        exact absurd (hbefore l₁ _ h₁) (by omega)
      · rw [hlog l₂ heq₂] at h₂
        exact hI.stamps l₁ l₂ stamp h₁ h₂
  · intro l₁ l₂ stamp₁ stamp₂ id₁ id₂ hj h₁ hid₁ hlt h₂ hid₂ hle
    have heq₁ : l₁ ≠ l := by
      rintro rfl
      rw [hnew] at hj
      rw [hj] at hjoined
      cases hjoined
    rw [hlog l₁ heq₁] at hj h₁ hid₁
    by_cases heq₂ : l₂ = l
    · rw [heq₂, hnew] at h₂
      cases h₂
      exact absurd (hbefore l₁ _ h₁) (by omega)
    · rw [hlog l₂ heq₂] at h₂ hid₂
      exact hI.order l₁ l₂ stamp₁ stamp₂ id₁ id₂ hj h₁ hid₁ hlt h₂ hid₂ hle
  · intro l₁ hlt t' a id' ha hid' hopp
    have hcalls : (record t (.published l id) h).calls[t']? =
        h.calls[t']?.map (Asked.notice id) := by simp [record]
    rw [hcalls] at ha
    obtain ⟨a', ha', rfl⟩ := map_eq_some_iff.mp ha
    have hid'' : a'.identity = some id' := hid'
    by_cases heq₁ : l₁ = l
    · rw [heq₁, hnew] at hopp
      simp only [LaneLog.opposes, isSome_some, Bool.true_and, any_some,
        decide_eq_true_eq] at hopp
      simp [Asked.notice, hid'', hopp]
    · rw [hlog l₁ heq₁] at hopp
      simp [Asked.notice, hI.seen l₁ hlt t' a' id' ha' hid'' hopp]

theorem Inv.set_joined (hI : Inv g P (ofLane l s + m) h mem) (joined : Bool)
    (hl : LaneOk P (s' + m.1 l) (laneWords mem l) { h.lane l with joined := joined } (h.looking l)
      (h.asking l) h.published)
    (hclear : joined = true → ∀ stamp id, (h.lane l).advert = some stamp →
      (h.lane l).last = some id → ∀ l' < g.lanes, ∀ stamp' id', (h.lane l').advert = some stamp' →
      (h.lane l').last = some id' → stamp' < stamp → ¬id.conflicts id') :
    Inv g P (ofLane l s' + m) (h.setLane l { h.lane l with joined := joined }) mem := by
  have hlog : ∀ l' ≠ l, (h.setLane l { h.lane l with joined := joined }).lane l' = h.lane l' := by
    intro l' hne
    simp [History.setLane, hne]
  have hnew : (h.setLane l { h.lane l with joined := joined }).lane l =
      { h.lane l with joined := joined } := by
    simp [History.setLane]
  have hsame : ∀ l', ((h.setLane l { h.lane l with joined := joined }).lane l').advert =
      (h.lane l').advert ∧ ((h.setLane l { h.lane l with joined := joined }).lane l').last =
      (h.lane l').last ∧ ((h.setLane l { h.lane l with joined := joined }).lane l').holders =
      (h.lane l').holders := by
    intro l'
    by_cases heq : l' = l
    · subst heq
      rw [hnew]
      exact ⟨rfl, rfl, rfl⟩
    · rw [hlog l' heq]
      exact ⟨rfl, rfl, rfl⟩
  constructor
  · intro l'
    by_cases heq : l' = l
    · subst heq
      rw [ofLane_fst_same, hnew]
      exact hl
    · have hother := hI.lane l'
      rw [ofLane_fst_ne heq] at hother ⊢
      rw [hlog l' heq]
      exact hother
  · intro t'
    have hcall := hI.call t'
    rw [ofLane_snd] at hcall ⊢
    refine hcall.relax fun l' hl' => ?_
    rwa [(hsame l').2.2] at hl'
  · intro l₁ l₂ stamp' h₁ h₂
    rw [(hsame _).1] at h₁ h₂
    exact hI.stamps l₁ l₂ stamp' h₁ h₂
  · intro l₁ l₂ stamp₁ stamp₂ id₁ id₂ hj h₁ hid₁ hlt h₂ hid₂ hle
    rw [(hsame _).1] at h₁ h₂
    rw [(hsame _).2.1] at hid₁ hid₂
    by_cases heq₁ : l₁ = l
    · subst heq₁
      rw [hnew] at hj
      exact hclear hj stamp₁ id₁ h₁ hid₁ l₂ hlt stamp₂ id₂ h₂ hid₂ hle
    · rw [hlog l₁ heq₁] at hj
      exact hI.order l₁ l₂ stamp₁ stamp₂ id₁ id₂ hj h₁ hid₁ hlt h₂ hid₂ hle
  · intro l₁ hlt t' a id' ha hid' hopp
    refine hI.seen l₁ hlt t' a id' ha hid' ?_
    simpa only [LaneLog.opposes, (hsame l₁).1, (hsame l₁).2.1] using hopp

theorem Inv.joined {stamp : Nat} (hI : Inv g P (ofLane l (own w log) + m) h mem)
    (hlast : log.last = some id) (hadvert : log.advert = some stamp)
    (hclear : ∀ l' < g.lanes, l' ≠ l → ∀ stamp' id', (h.lane l').advert = some stamp' →
      stamp' < stamp → (h.lane l').last = some id' → ¬id.conflicts id') :
    Inv g P (ofLane l 0 + m) (record t (.joined l) h) mem := by
  have hlane := hI.lane_at
  obtain ⟨rfl, rfl, -⟩ := hlane.alone
  refine hI.set_joined true ?_ ?_
  · rw [zero_add]
    exact hlane.joined (by simp [hadvert])
  · intro _ stamp₁ id₁ h₁ hid₁ l' hlt stamp₂ id₂ h₂ hid₂ hle
    rw [hadvert] at h₁
    rw [hlast] at hid₁
    cases h₁
    cases hid₁
    have hne : l' ≠ l := by
      rintro rfl
      rw [hadvert] at h₂
      cases h₂
      omega
    exact hclear l' hlt hne stamp₂ id₂ h₂ hle hid₂

theorem Inv.released (hI : Inv g P (ofLane l 0 + m) h mem) (hjoined : (h.lane l).joined = true) :
    Inv g P (ofLane l (own (laneWords mem l) { h.lane l with joined := false }) + m)
      (h.setLane l { h.lane l with joined := false }) mem := by
  have hlane := hI.lane_at
  rw [zero_add] at hlane
  exact hI.set_joined false (hlane.released hjoined) fun hj => by cases hj

theorem Inv.notices {lanes : List Nat} (hI : Inv g P (ofCall t (mine id lanes) + m) h mem)
    (hlt : l < g.lanes) (condition : Prop)
    (hopposes : condition → (h.lane l).opposes id = true) :
    Inv g P (ofCall t (seenIf condition) + (ofCall t (mine id lanes) + m)) h mem where
  lane l' := by
    rw [ofCall_fst]
    exact hI.lane l'
  call t' := by
    by_cases heq : t' = t
    · subst heq
      rw [ofCall_snd_same]
      have hcall := hI.call t'
      obtain ⟨a, ha, hid, -⟩ := hI.call_of.mine (id, lanes) (by simp [OrbitInbox.mine])
      refine ⟨?_, ?_, ?_, hcall.refused, ?_⟩
      · simpa [OrbitInbox.seenIf] using hcall.card
      · simpa [OrbitInbox.seenIf] using hcall.mine
      · intro c hmem hc
        simp only [seenIf, Prod.snd_add, mem_add, mem_singleton] at hmem
        obtain rfl | hmem := hmem
        · exact ⟨a, ha, hI.seen l hlt t' a id ha hid (hopposes hc)⟩
        · exact hcall.seen c (by simpa [ofCall] using hmem) hc
      · intro hn
        rw [hn] at ha
        cases ha
    · rw [ofCall_snd_ne heq]
      exact hI.call t'
  stamps := hI.stamps
  order := hI.order
  seen := hI.seen

theorem Inv.refused {rest : CallShare}
    (hI : Inv g P (ofCall t (mine id [] + seenIf P + rest) + m) h mem) :
    Inv g P m (record t .refused h) mem := by
  obtain ⟨a, ha, hid, hr, hheld⟩ := hI.call_of.mine (id, []) (by simp [mine])
  have hseen : P → a.seen = true := by
    intro hP
    obtain ⟨a', ha', hs⟩ := hI.call_of.seen P (by simp [mine, seenIf]) hP
    rw [ha] at ha'
    cases ha'
    exact hs
  have hone : (m.2 t).1 = 0 := by
    have hcard := hI.call_of.card
    simp only [mine, seenIf, Prod.fst_add, card_add, card_singleton] at hcard
    exact card_eq_zero.mp (by omega)
  have hsame : ∀ t' ≠ t, (record t .refused h).calls[t']? = h.calls[t']? := by
    intro t' hne
    simp [record, Ne.symm hne]
  have hcalls : (record t .refused h).calls[t]? = some { a with refused := true } := by
    simp [record, ha]
  refine ⟨?_, ?_, hI.stamps, hI.order, ?_⟩
  · intro l'
    have := hI.lane l'
    rwa [ofCall_fst] at this
  · intro t'
    by_cases heq : t' = t
    · subst heq
      rw [hcalls]
      have hcall := hI.call_of
      refine ⟨?_, ?_, ?_, ?_, by simp⟩
      · simp [hone]
      · simp [hone]
      · intro c hmem hc
        obtain ⟨a', ha', hs⟩ := hcall.seen c (by simp [hmem]) hc
        rw [ha] at ha'
        cases ha'
        exact ⟨_, rfl, hs⟩
      · rintro a' ha' -
        cases ha'
        exact ⟨hseen, fun l hl => by simpa using hheld l hl⟩
    · have hcall := hI.call t'
      rw [ofCall_snd_ne heq] at hcall
      rw [hsame t' heq]
      exact hcall
  · intro l₁ hlt t' a' id' ha' hid' hopp
    by_cases heq : t' = t
    · subst heq
      rw [hcalls] at ha'
      cases ha'
      exact hI.seen l₁ hlt t' a id' ha hid' hopp
    · rw [hsame t' heq] at ha'
      exact hI.seen l₁ hlt t' a' id' ha' hid' hopp

theorem Inv.begins (hI : Inv g P m h mem) (asked : Asked) (hrefused : asked.refused = false)
    (hseen : ∀ id, asked.identity = some id → ∀ l < g.lanes, (h.lane l).opposes id = true →
      asked.seen = true)
    (hk : k = 0 ∨ ∃ id, asked.identity = some id ∧ k = mine id []) :
    Inv g P (ofCall h.calls.length k + m) { h with calls := h.calls ++ [asked] } mem := by
  have hnone : h.calls[h.calls.length]? = none := by simp
  obtain ⟨hzero, hheld⟩ := (hI.call h.calls.length).fresh hnone
  refine ⟨?_, ?_, hI.stamps, hI.order, ?_⟩
  · intro l'
    rw [ofCall_fst]
    exact hI.lane l'
  · intro t'
    by_cases heq : t' = h.calls.length
    · subst heq
      rw [ofCall_snd_same, hzero, add_zero]
      have hlast : (h.calls ++ [asked])[h.calls.length]? = some asked := by simp
      rw [hlast]
      refine ⟨?_, ?_, ?_, ?_, by simp⟩
      · obtain rfl | ⟨id, -, rfl⟩ := hk <;> simp [mine]
      · intro c hmem
        obtain rfl | ⟨id, hid, rfl⟩ := hk
        · simp at hmem
        · simp only [mine, mem_singleton] at hmem
          subst hmem
          exact ⟨asked, rfl, hid, hrefused, fun l hl => absurd hl (hheld l)⟩
      · obtain rfl | ⟨id, -, rfl⟩ := hk <;> simp [mine]
      · intro a ha hr
        cases ha
        rw [hrefused] at hr
        cases hr
    · rw [ofCall_snd_ne heq]
      have hcall := hI.call t'
      rcases Nat.lt_or_gt_of_ne heq with hlt | hgt
      · rwa [List.getElem?_append_left hlt]
      · have h1 : (h.calls ++ [asked])[t']? = none := by simp; omega
        have h2 : h.calls[t']? = none := by simp; omega
        rw [h1]
        rwa [h2] at hcall
  · intro l₁ hlt t' a id' ha hid' hopp
    rcases Nat.lt_trichotomy t' h.calls.length with ht | rfl | ht
    · rw [List.getElem?_append_left ht] at ha
      exact hI.seen l₁ hlt t' a id' ha hid' hopp
    · rw [List.getElem?_append_right (Nat.le_refl _), Nat.sub_self] at ha
      cases ha
      exact hseen id' hid' l₁ hlt hopp
    · have h1 : (h.calls ++ [asked])[t']? = none := by simp; omega
      rw [h1] at ha
      cases ha

end OrbitInbox
