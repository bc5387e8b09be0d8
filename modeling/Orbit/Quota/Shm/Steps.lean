import Orbit.Quota.Shm.Banks

/-! The invariant of the shared table, and what each access does to it. -/

namespace OrbitQuota.Shm

open Orbit.Atomic Function
open Multiset hiding Mem

/-- The history's pins are the validated ones, and no publisher has written to one's bank. -/
structure Recorded (cards : Share) (pins : List Pin) (trespasses : List (Nat × Nat)) : Prop where
  pins : ∀ p, pins.count p = cards.countP fun c => c.validated = some p
  clean : trespasses = []

theorem Recorded.congr {cards cards' : Share} {pins : List Pin} {trespasses : List (Nat × Nat)}
    (h : Recorded cards pins trespasses)
    (hsame : ∀ p, cards'.countP (fun c => c.validated = some p) =
      cards.countP fun c => c.validated = some p) : Recorded cards' pins trespasses :=
  ⟨fun p => (h.pins p).trans (hsame p).symm, h.clean⟩

theorem Recorded.held {cards : Share} {pins : List Pin} {trespasses : List (Nat × Nat)}
    (h : Recorded cards pins trespasses) {p : Pin} (hp : p ∈ pins) : .held p ∈ cards := by
  have hpos := List.count_pos_iff.mpr hp
  rw [h.pins p] at hpos
  obtain ⟨c, hc, hvalid⟩ := countP_pos.mp hpos
  have hheld : c = .held p := by
    cases c <;> cases hvalid
    rfl
  exact hheld ▸ hc

def History.owning (h : History) : Share := (h.handles : Multiset Handle).map Card.owning

structure ShmInv (T : Table) (cards : Share) (h : History) (mem : Mem Addr) : Prop where
  locked : Locked (cards + h.owning) h.dead mem
  counted : Counted T cards h.handles h.dead mem
  described : Described T cards h.commits h.dead mem
  recorded : Recorded cards h.pins h.trespasses

namespace ShmInv

variable {T : Table} {cards : Share} {h : History} {mem : Mem Addr} {c : Card}

theorem init (T : Table) (hpins : ∀ owner i, mem (.pins owner i) = 0)
    (hcontrol : ∀ i, mem (.control i) = 0) : ShmInv T 0 .start mem where
  locked := .init _
  counted := .init T hpins
  described := .init T hcontrol
  recorded := ⟨fun _ => rfl, rfl⟩

/-- The card is neither a pin nor a freeze, and no handle comes with it. -/
structure Silent (c : Card) : Prop where
  counted : c.counted = none
  handle : c.handle = none
  validated : c.validated = none
  claiming : ∀ process owner k, c ≠ .claiming process owner (k + 1)
  held : ∀ p, c ≠ .held p
  frozen : ∀ process number f, c ≠ .shard process number (some f)

theorem silent_shard (process number : Nat) : Silent (.shard process number none) :=
  ⟨rfl, rfl, rfl, by simp, by simp, by simp⟩

theorem silent_reclaiming (process owner : Nat) : Silent (.reclaiming process owner) :=
  ⟨rfl, rfl, rfl, by simp, by simp, by simp⟩

theorem silent_claiming (process owner : Nat) : Silent (.claiming process owner 0) :=
  ⟨rfl, rfl, rfl, by simp, by simp, by simp⟩

theorem recorded_cons (hr : Recorded cards h.pins h.trespasses) (hc : c.validated = none) :
    Recorded (c ::ₘ cards) h.pins h.trespasses :=
  hr.congr fun p => by
    rw [countP_cons_of_neg]
    rw [hc]
    exact (Option.some_ne_none _).symm

theorem recorded_drop (hr : Recorded (c ::ₘ cards) h.pins h.trespasses) (hc : c.validated = none) :
    Recorded cards h.pins h.trespasses :=
  hr.congr fun p => by
    rw [countP_cons_of_neg]
    rw [hc]
    exact (Option.some_ne_none _).symm

variable {l : Addr} {hd : Handle} {i number owner process : Nat} {work : Option Freeze} {f : Freeze}

theorem isLock_ne {place : Addr} (hl : l.isLock = true) (hplace : place.isLock = false) :
    l ≠ place := by
  rintro rfl
  rw [hl] at hplace
  cases hplace

theorem bank_lock (hl : l.isLock = true) : l.bank = none := by
  cases l <;> first | rfl | cases hl

theorem acquire (hI : ShmInv T cards h mem) (hsilent : Silent c) (hc : c.lock = some l)
    (hfree : mem l = 0) : ShmInv T (c ::ₘ cards) h (update mem l (c.process + 1)) := by
  have hl := Card.lock_isLock hc
  refine ⟨?_, ?_, ?_, recorded_cons hI.recorded hsilent.validated⟩
  · rw [cons_add]
    exact hI.locked.acquire hc hfree
  · refine (hI.counted.update (fun _ _ => isLock_ne hl rfl) _).plain hsilent.counted
      (fun hd hhd => ?_) hsilent.claiming
    rw [hsilent.handle] at hhd
    cases hhd
  · exact (hI.described.update (fun _ => isLock_ne hl rfl) (bank_lock hl) _).plain hsilent.held
      hsilent.frozen

theorem release (hI : ShmInv T (c ::ₘ cards) h mem) (hcounted : c.counted = none)
    (hvalidated : c.validated = none) (hc : c.lock = some l) (hlive : c.process ∉ h.dead) :
    ShmInv T cards h (update mem l 0) := by
  have hl := Card.lock_isLock hc
  have hlocked := hI.locked
  rw [cons_add] at hlocked
  exact ⟨hlocked.release hc hlive,
    (hI.counted.drop hcounted).update (fun _ _ => isLock_ne hl rfl) _,
    hI.described.drop.update (fun _ => isLock_ne hl rfl) (bank_lock hl) _,
    recorded_drop hI.recorded hvalidated⟩

/-- The clock's floor, the owners' generations and the times of the last touches. -/
def Quiet : Addr → Prop
  | .watermark _ | .generation _ | .lastSeen .. => True
  | _ => False

theorem quiet (hI : ShmInv T cards h mem) (place : Addr) (hplace : Quiet place) (value : Nat) :
    ShmInv T cards h (update mem place value) := by
  cases place with
  | watermark | generation | lastSeen =>
    exact ⟨hI.locked.update rfl _, hI.counted.update (by simp) _,
      hI.described.update (by simp) rfl _, hI.recorded⟩
  | _ => exact hplace.elim

theorem excludes (hI : ShmInv T (c ::ₘ cards) h mem) (hc : c.lock = some l)
    (hlive : c.process ∉ h.dead) {d : Card} (hd : d ∈ cards) (hl : d.lock = some l) :
    d.process ∈ h.dead := by
  have hlocked := hI.locked
  rw [cons_add] at hlocked
  exact hlocked.other hc hlive (mem_add.mpr (.inl hd)) hl

theorem owning_mem (hmem : hd ∈ h.handles) : Card.owning hd ∈ h.owning :=
  mem_map.mpr ⟨hd, mem_coe.mpr hmem, rfl⟩

theorem excludes_owner (hI : ShmInv T (c ::ₘ cards) h mem)
    (hc : c.lock = some (.ownerHold hd.owner)) (hlive : c.process ∉ h.dead) (hmem : hd ∈ h.handles) :
    hd.process ∈ h.dead := by
  have hlocked := hI.locked
  rw [cons_add] at hlocked
  exact hlocked.other hc hlive (mem_add.mpr (.inr (owning_mem hmem))) rfl

theorem owner_alone (hI : ShmInv T cards h mem) (hmem : hd ∈ h.handles)
    (hlive : hd.process ∉ h.dead) :
    (∀ hd' ∈ h.handles, hd'.process ∉ h.dead → hd'.owner = hd.owner → hd' = hd) ∧
      ∀ process k, .claiming process hd.owner k ∈ cards → process ∈ h.dead := by
  obtain ⟨rest, hrest⟩ := exists_cons_of_mem (mem_coe.mpr hmem)
  have hlocked := hI.locked
  have howning : h.owning = .owning hd ::ₘ rest.map Card.owning := by
    rw [History.owning, hrest, map_cons]
  rw [howning, add_cons] at hlocked
  refine ⟨fun hd' hmem' hlive' howner => ?_, fun process k hclaim => ?_⟩
  · by_contra hne
    have hin : hd' ∈ rest := by
      have hin := mem_coe.mpr hmem'
      rw [hrest] at hin
      exact (mem_cons.mp hin).resolve_left hne
    refine hlive' (hlocked.other (d := .owning hd') rfl hlive ?_ (by rw [Card.lock, howner]))
    exact mem_add.mpr (.inr (mem_map.mpr ⟨hd', hin, rfl⟩))
  · exact hlocked.other (d := .claiming process hd.owner k) rfl hlive
      (mem_add.mpr (.inl hclaim)) rfl

theorem frozen_alone {index : Nat} (hI : ShmInv T (.shard process number work ::ₘ cards) h mem)
    (hlive : process ∉ h.dead) (hshard : T.geometry.shardOf index = number) :
    ∀ process' number' f, .shard process' number' (some f) ∈ cards → process' ∉ h.dead →
      f.index ≠ index := by
  rintro process' number' f hf hlive' rfl
  have hstands := hI.described.frozen process' number' f (mem_cons_of_mem hf) hlive'
  exact hlive' (hI.excludes (d := .shard process' number' (some f)) rfl hlive hf
    (by rw [Card.lock, ← hstands.shard, hshard]))

theorem no_pins (hI : ShmInv T (.shard process number (some f) ::ₘ cards) h mem)
    (hlive : process ∉ h.dead) (hall : T.owners ≤ f.scanned) :
    ∀ p, .held p ∈ cards → p.handle.process ∉ h.dead → p.index ≠ f.index := by
  intro p hp hplive hindex
  have hknown := hI.counted.known _ (mem_cons_of_mem hp) p.handle rfl
  have howner := hI.counted.owners p.handle hknown
  have hscanned := (hI.described.own hlive).scanned p hp hplive hindex
  omega

theorem caller_known (hI : ShmInv T (.caller hd ::ₘ cards) h mem) : hd ∈ h.handles :=
  hI.counted.known _ (mem_cons_self _ _) hd rfl

theorem counts (hI : ShmInv T cards h mem) {value : Nat} {cards' : Share} (hmem : hd ∈ h.handles)
    (hlive : hd.process ∉ h.dead) (hvalue : value < u64Size) (hsame : ∀ key, key ≠ (hd, i) →
      cards'.countP (fun c => c.counted = some key) = cards.countP fun c => c.counted = some key)
    (hcount : i < T.geometry.slots → value = cards'.countP fun c => c.counted = some (hd, i))
    (hhandle : ∀ c ∈ cards', ∀ hd', c.handle = some hd' → hd' ∈ h.handles)
    (hkeep : ∀ process owner k, .claiming process owner k ∈ cards' →
      .claiming process owner k ∈ cards) :
    Counted T cards' h.handles h.dead (update mem (.pins hd.owner i) value) :=
  hI.counted.count hvalue (hI.owner_alone hmem hlive).1 (hI.owner_alone hmem hlive).2 hsame
    (fun _ _ => hcount) hhandle hkeep

theorem counted_cons_ne {key key' : Handle × Nat} (hc : c.counted = some key) (hne : key' ≠ key) :
    (c ::ₘ cards).countP (fun c => c.counted = some key') =
      cards.countP fun c => c.counted = some key' := by
  rw [countP_cons_of_neg]
  rw [hc]
  exact fun heq => hne (Option.some.inj heq).symm

theorem counted_cons_self {key : Handle × Nat} (hc : c.counted = some key) :
    (c ::ₘ cards).countP (fun c => c.counted = some key) =
      (cards.countP fun c => c.counted = some key) + 1 :=
  countP_cons_of_pos _ hc

theorem count_pin (hI : ShmInv T cards h mem) (hmem : hd ∈ h.handles) (hlive : hd.process ∉ h.dead)
    (hbound : mem (.pins hd.owner i) + 1 < u64Size) :
    ShmInv T (.pin hd i ::ₘ cards) h
      (update mem (.pins hd.owner i) (mem (.pins hd.owner i) + 1)) := by
  refine ⟨?_, hI.counts hmem hlive hbound (fun key hne => counted_cons_ne rfl hne) (fun hi => ?_)
    (fun c hc hd' hhd => ?_) (fun process owner k hc => ?_),
    (hI.described.update (by simp) rfl _).plain (by simp) (by simp), recorded_cons hI.recorded rfl⟩
  · rw [cons_add]
    exact (hI.locked.update rfl _).plain rfl
  · rw [counted_cons_self rfl, hI.counted.pins hd hmem hlive i hi]
  · rcases mem_cons.mp hc with rfl | hc
    · cases hhd
      exact hmem
    · exact hI.counted.known c hc hd' hhd
  · exact (mem_cons.mp hc).resolve_left (by simp)

theorem released_value {v : Nat} (hpos : 0 < v) (hlt : v < u64Size) :
    (v + (u64Size - 1)) % 2 ^ 64 = v - 1 := by
  have heq : v + (u64Size - 1) = v - 1 + u64Size := by omega
  rw [heq, u64Size, Nat.add_mod_right, Nat.mod_eq_of_lt]
  rw [u64Size] at hlt
  omega

theorem counted_drop (hI : ShmInv T (c ::ₘ cards) h mem) (hc : c.counted = some (hd, i))
    (hmem : hd ∈ h.handles) (hlive : hd.process ∉ h.dead) (hi : i < T.geometry.slots) :
    Counted T cards h.handles h.dead (update mem (.pins hd.owner i)
      ((mem (.pins hd.owner i) + (u64Size - 1)) % 2 ^ 64)) := by
  have hpins := hI.counted.pins hd hmem hlive i hi
  rw [counted_cons_self hc] at hpins
  have hvalue := released_value (by omega) (hI.counted.bound hd.owner i)
  rw [hvalue]
  refine hI.counts hmem hlive (by have := hI.counted.bound hd.owner i; omega)
    (fun key hne => (counted_cons_ne hc hne).symm) (fun _ => by omega)
    (fun c hc => hI.counted.known c (mem_cons_of_mem hc))
    fun process owner k hc => mem_cons_of_mem hc

theorem release_pin (hI : ShmInv T (.pin hd i ::ₘ cards) h mem) (hlive : hd.process ∉ h.dead)
    (hi : i < T.geometry.slots) :
    ShmInv T cards h (update mem (.pins hd.owner i)
      ((mem (.pins hd.owner i) + (u64Size - 1)) % 2 ^ 64)) := by
  have hmem := hI.counted.known _ (mem_cons_self _ _) hd rfl
  have hlocked := hI.locked
  rw [cons_add] at hlocked
  exact ⟨hlocked.drop.update rfl _, hI.counted_drop rfl hmem hlive hi,
    hI.described.drop.update (by simp) rfl _, recorded_drop hI.recorded rfl⟩

theorem drop_pin {p : Pin} (hI : ShmInv T (.held p ::ₘ cards) h mem)
    (hlive : p.handle.process ∉ h.dead) (hi : p.index < T.geometry.slots) :
    ShmInv T cards (record (.unpinned p) h) (update mem (.pins p.handle.owner p.index)
      ((mem (.pins p.handle.owner p.index) + (u64Size - 1)) % 2 ^ 64)) := by
  have hmem := hI.counted.known _ (mem_cons_self _ _) p.handle rfl
  have hlocked := hI.locked
  rw [cons_add] at hlocked
  refine ⟨hlocked.drop.update rfl _, hI.counted_drop rfl hmem hlive hi,
    hI.described.drop.update (by simp) rfl _, fun q => ?_, hI.recorded.clean⟩
  have hcount := hI.recorded.pins q
  rw [countP_cons] at hcount
  show (h.pins.erase p).count q = _
  by_cases heq : q = p
  · subst heq
    rw [List.count_erase_self, hcount, Card.validated, if_pos rfl, Nat.add_sub_cancel]
  · have hne : ¬(some p = some q) := fun hv => heq (Option.some.inj hv).symm
    rw [List.count_erase_of_ne heq, hcount, Card.validated, if_neg hne, Nat.add_zero]

theorem validates {generation : Nat} (hI : ShmInv T (.pin hd i ::ₘ cards) h mem)
    (hle : generation ≤ generationMask) (hcontrol : mem (.control i) = generation) :
    ShmInv T (.held ⟨hd, i, generation⟩ ::ₘ cards) (record (.pinned ⟨hd, i, generation⟩) h) mem := by
  have hlocked := hI.locked
  rw [cons_add] at hlocked
  refine ⟨?_, ⟨fun hd' hmem hlive j hj => ?_, hI.counted.bound, fun c hc hd' hhd => ?_,
    fun process owner k hc => hI.counted.cleared process owner k ?_, hI.counted.owners⟩,
    hI.described.drop.validate hle hcontrol, fun q => ?_, hI.recorded.clean⟩
  · rw [cons_add]
    exact hlocked.drop.plain rfl
  · rw [hI.counted.pins hd' hmem hlive j hj, countP_cons, countP_cons]
    rfl
  · rcases mem_cons.mp hc with rfl | hc
    · exact hI.counted.known _ (mem_cons_self _ _) hd' hhd
    · exact hI.counted.known c (mem_cons_of_mem hc) hd' hhd
  · exact mem_cons_of_mem ((mem_cons.mp hc).resolve_left (by simp))
  · have hcount := (recorded_drop hI.recorded rfl).pins q
    show (_ :: h.pins).count q = _
    rw [List.count_cons, countP_cons, hcount]
    congr 1
    simp [Card.validated]

theorem clear_dead (hI : ShmInv T (.reclaiming process owner ::ₘ cards) h mem)
    (hlive : process ∉ h.dead) :
    ShmInv T (.reclaiming process owner ::ₘ cards) h (update mem (.pins owner i) 0) := by
  refine ⟨hI.locked.update rfl _, hI.counted.clear fun hd hmem howner => ?_,
    hI.described.update (by simp) rfl _, hI.recorded⟩
  exact hI.excludes_owner (by rw [Card.lock, howner]) hlive hmem

theorem clear_row {k : Nat} (hI : ShmInv T (.claiming process owner k ::ₘ cards) h mem)
    (hlive : process ∉ h.dead) :
    ShmInv T (.claiming process owner (k + 1) ::ₘ cards) h
      (update mem (.pins owner k) 0) := by
  have hlocked := hI.locked
  rw [cons_add] at hlocked
  refine ⟨?_, (hI.counted.clear fun hd hmem howner => ?_).clearing (update_self ..),
    (hI.described.drop.update (by simp) rfl _).plain (by simp) (by simp),
    recorded_cons (recorded_drop hI.recorded rfl) rfl⟩
  · rw [cons_add]
    have hexchanged : Locked (.claiming process owner (k + 1) ::ₘ (cards + h.owning)) h.dead mem :=
      hlocked.exchange rfl rfl
    exact hexchanged.update rfl _
  · exact hI.excludes_owner (by rw [Card.lock, howner]) hlive hmem

theorem opened {k : Nat} (hI : ShmInv T (.claiming hd.process hd.owner k ::ₘ cards) h mem)
    (hk : T.geometry.slots ≤ k) (hlive : hd.process ∉ h.dead) (howner : hd.owner < T.owners) :
    ShmInv T cards (record (.opened hd) h) mem := by
  have hlocked := hI.locked
  rw [cons_add] at hlocked
  refine ⟨?_, hI.counted.opened hk hlive howner fun hmem => ?_, hI.described.drop,
    recorded_drop hI.recorded rfl⟩
  · have howning : (record (.opened hd) h).owning = .owning hd ::ₘ h.owning := by
      rw [History.owning, History.owning, record, ← cons_coe, map_cons]
    rw [howning, add_cons]
    exact hlocked.exchange rfl rfl
  · exact hlive (hI.excludes_owner rfl hlive hmem)

theorem calls (hI : ShmInv T cards h mem) (hmem : hd ∈ h.handles) :
    ShmInv T (.caller hd ::ₘ cards) h mem := by
  refine ⟨?_, hI.counted.plain rfl (fun hd' hhd => ?_) (by simp),
    hI.described.plain (by simp) (by simp), recorded_cons hI.recorded rfl⟩
  · rw [cons_add]
    exact hI.locked.plain rfl
  · cases hhd
    exact hmem

theorem dies (hI : ShmInv T cards h mem) (process : Nat) :
    ShmInv T cards { h with dead := process :: h.dead } mem :=
  ⟨hI.locked.dies process, hI.counted.dies process, hI.described.dies process, hI.recorded⟩

theorem lets_go (hI : ShmInv T cards h mem) (hl : l.isLock = true) (hdead : process ∈ h.dead)
    (hword : mem l = process + 1) : ShmInv T cards h (update mem l 0) :=
  ⟨hI.locked.letGo hdead hword, hI.counted.update (fun _ _ => isLock_ne hl rfl) _,
    hI.described.update (fun _ => isLock_ne hl rfl) (bank_lock hl) _, hI.recorded⟩

theorem silent_lock {work' : Option Freeze}
    (hlocked : Locked (.shard process number work ::ₘ cards + h.owning) h.dead mem) :
    Locked (.shard process number work' ::ₘ cards + h.owning) h.dead mem := by
  rw [cons_add] at hlocked ⊢
  exact hlocked.exchange rfl rfl

theorem rework {work' : Option Freeze} {mem' : Mem Addr} {h' : History}
    (hI : ShmInv T (.shard process number work ::ₘ cards) h mem)
    (hkeep : ∀ a, a.isLock = true → mem' a = mem a)
    (hpins : ∀ owner i, mem' (.pins owner i) = mem (.pins owner i))
    (hhandles : h'.handles = h.handles) (hdead : h'.dead = h.dead) (hh : h'.pins = h.pins)
    (hclean : h'.trespasses = [])
    (hdescribed : Described T (.shard process number work' ::ₘ cards) h'.commits h.dead mem') :
    ShmInv T (.shard process number work' ::ₘ cards) h' mem' := by
  have howning : h'.owning = h.owning := by rw [History.owning, History.owning, hhandles]
  have hlocked : Locked (.shard process number work' ::ₘ cards + h.owning) h.dead mem :=
    silent_lock hI.locked
  have hcounted : Counted T (.shard process number work' ::ₘ cards) h.handles h.dead mem :=
    (hI.counted.drop rfl).plain rfl (by simp [Card.handle]) (by simp)
  refine ⟨?_, ?_, by rw [hdead]; exact hdescribed, fun p => ?_, hclean⟩
  · rw [howning, hdead]
    exact ⟨fun c hc hlive l hl => by rw [hkeep l (Card.lock_isLock hl)]; exact hlocked.word c hc hlive l hl,
      hlocked.alone⟩
  · rw [hhandles, hdead]
    exact ⟨fun hd hmem hlive i hi => by rw [hpins]; exact hcounted.pins hd hmem hlive i hi,
      fun owner i => by rw [hpins]; exact hcounted.bound owner i, hcounted.known,
      fun process owner k hc hlive i hi => by rw [hpins]; exact hcounted.cleared _ _ _ hc hlive i hi,
      hcounted.owners⟩
  · rw [hh]
    exact ((recorded_drop hI.recorded rfl).congr fun p => by
      rw [countP_cons_of_neg _ (by simp [Card.validated])]).pins p

theorem adopts (hI : ShmInv T (.shard process number none ::ₘ cards) h mem)
    (hshard : T.geometry.shardOf i = number) (hfrozen : mem (.control i) &&& frozenFlag ≠ 0) :
    ∃ generation, mem (.control i) = generation ||| frozenFlag ∧ generation ≤ generationMask ∧
      ShmInv T (.shard process number (some ⟨i, generation, 0, fun _ => none⟩) ::ₘ cards) h mem := by
  obtain ⟨hle, hnames⟩ := (hI.described.published i).names
  rcases hnames with hcontrol | hcontrol | hcontrol
  · rw [hcontrol, and_frozen hle] at hfrozen
    exact absurd rfl hfrozen
  · refine ⟨_, hcontrol, hle, hI.rework (fun _ _ => rfl) (fun _ _ => rfl) rfl rfl rfl
      hI.recorded.clean (hI.described.drop.freeze hshard hle hcontrol)⟩
  · rw [hcontrol, retired_and_frozen hle] at hfrozen
    exact absurd rfl hfrozen

theorem control_lock {value : Nat} (a : Addr) (ha : a.isLock = true) :
    update mem (.control i) value a = mem a :=
  update_of_ne (isLock_ne ha rfl) _ _

theorem flags {generation value : Nat} (hI : ShmInv T (.shard process number work ::ₘ cards) h mem)
    (hlive : process ∉ h.dead) (hshard : T.geometry.shardOf i = number)
    (hle : generation ≤ generationMask)
    (hcontrol : mem (.control i) = generation ∨ mem (.control i) = generation ||| frozenFlag)
    (hvalue : value = generation ∨ value = generation ||| frozenFlag ∨
      value = generation ||| retiredFlag) (hheld : value = generation ||| retiredFlag →
      ∀ p, .held p ∈ cards → p.handle.process ∉ h.dead → p.index ≠ i) :
    Described T cards h.commits h.dead (update mem (.control i) value) :=
  hI.described.drop.control hle hcontrol hvalue hheld (hI.frozen_alone hlive hshard)

theorem freezes {generation : Nat} (hI : ShmInv T (.shard process number none ::ₘ cards) h mem)
    (hlive : process ∉ h.dead) (hshard : T.geometry.shardOf i = number)
    (hle : generation ≤ generationMask) (hcontrol : mem (.control i) = generation) :
    ShmInv T (.shard process number (some ⟨i, generation, 0, fun _ => none⟩) ::ₘ cards) h
      (update mem (.control i) (generation ||| frozenFlag)) := by
  have hne : generation ||| frozenFlag ≠ generation ||| retiredFlag := by
    rw [or_frozen hle, or_retired hle, frozenFlag, retiredFlag]
    omega
  refine hI.rework control_lock (fun _ _ => update_of_ne (by simp) _ _) rfl rfl rfl
    hI.recorded.clean ?_
  exact (hI.flags hlive hshard hle (.inl hcontrol) (.inr (.inl rfl)) (absurd · hne)).freeze hshard hle
    (update_self ..)

theorem thaws (hI : ShmInv T (.shard process number (some f) ::ₘ cards) h mem)
    (hlive : process ∉ h.dead) :
    ShmInv T (.shard process number none ::ₘ cards) h
      (update mem (.control f.index) f.generation) := by
  have hown := hI.described.own hlive
  have hne : f.generation ≠ f.generation ||| retiredFlag := by
    rw [or_retired hown.generation, retiredFlag]
    omega
  refine hI.rework control_lock (fun _ _ => update_of_ne (by simp) _ _) rfl rfl rfl
    hI.recorded.clean ?_
  exact (hI.flags hlive hown.shard hown.generation (.inr hown.control) (.inl rfl)
    (absurd · hne)).plain (by simp) (by simp)

theorem retires (hI : ShmInv T (.shard process number (some f) ::ₘ cards) h mem)
    (hlive : process ∉ h.dead) (hall : T.owners ≤ f.scanned) :
    ShmInv T (.shard process number none ::ₘ cards) h
      (update mem (.control f.index) (f.generation ||| retiredFlag)) := by
  have hown := hI.described.own hlive
  refine hI.rework control_lock (fun _ _ => update_of_ne (by simp) _ _) rfl rfl rfl
    hI.recorded.clean ?_
  exact (hI.flags hlive hown.shard hown.generation (.inr hown.control) (.inr (.inr rfl))
    fun _ => hI.no_pins hlive hall).plain (by simp) (by simp)

theorem scans (hI : ShmInv T (.shard process number (some f) ::ₘ cards) h mem)
    (hnone : process ∉ h.dead → ∀ p, .held p ∈ cards → p.handle.process ∉ h.dead →
      p.index = f.index → p.handle.owner ≠ f.scanned) :
    ShmInv T (.shard process number (some { f with scanned := f.scanned + 1 }) ::ₘ cards) h mem := by
  refine hI.rework (fun _ _ => rfl) (fun _ _ => rfl) rfl rfl rfl hI.recorded.clean
    (hI.described.refreeze fun hlive => ?_)
  have hown := hI.described.own hlive
  refine { hown with scanned := fun p hp hplive hindex => ?_ }
  have hle := hown.scanned p hp hplive hindex
  have hne := hnone hlive p hp hplive hindex
  show f.scanned + 1 ≤ p.handle.owner
  omega

theorem no_pins_of_zero (hI : ShmInv T cards h mem) (hi : i < T.geometry.slots)
    (hzero : mem (.pins owner i) = 0) :
    ∀ p, .held p ∈ cards → p.handle.process ∉ h.dead → p.index = i → p.handle.owner ≠ owner := by
  rintro p hp hplive rfl rfl
  have hpins := hI.counted.pins p.handle (hI.counted.known _ hp p.handle rfl) hplive p.index hi
  rw [hzero] at hpins
  exact absurd rfl ((countP_eq_zero.mp hpins.symm) (.held p) hp)

theorem no_pins_of_reclaiming (hI : ShmInv T (.reclaiming process owner ::ₘ cards) h mem)
    (hlive : process ∉ h.dead) :
    ∀ p, .held p ∈ cards → p.handle.process ∉ h.dead → p.handle.owner ≠ owner := by
  rintro p hp hplive rfl
  have hmem := hI.counted.known _ (mem_cons_of_mem hp) p.handle rfl
  exact hplive (hI.excludes_owner rfl hlive hmem)

theorem not_guarded (hI : ShmInv T (.shard process number (some f) ::ₘ cards) h mem) (bank : Nat)
    (hlive : process ∉ h.dead) (hall : T.owners ≤ f.scanned) : h.guarded f.index bank = false := by
  rw [History.guarded, List.any_eq_false]
  intro p hp hguards
  rw [decide_eq_true_iff] at hguards
  have hheld := (mem_cons.mp (hI.recorded.held hp)).resolve_left (by simp)
  exact hI.no_pins hlive hall p hheld hguards.1 hguards.2.1

theorem writes {place : Addr} (hI : ShmInv T (.shard process number (some f) ::ₘ cards) h mem)
    (value : Nat) (hlive : process ∉ h.dead)
    (hplace : place.bank = some (f.index, bankOf (f.generation + 1))) :
    ShmInv T (.shard process number (some (f.write place value)) ::ₘ cards) h
      (update mem place value) := by
  have hne : ∀ a : Addr, a.bank = none → a ≠ place := by
    rintro a ha rfl
    rw [hplace] at ha
    cases ha
  refine hI.rework (fun a ha => update_of_ne (hne a (bank_lock ha)) _ _)
    (fun owner i => update_of_ne (hne _ rfl) _ _) rfl rfl rfl hI.recorded.clean ?_
  exact hI.described.write hlive hplace (hI.frozen_alone hlive (hI.described.own hlive).shard)

theorem publishes {identity : Identity}
    (hI : ShmInv T (.shard process number (some f) ::ₘ cards) h mem) (hlive : process ∉ h.dead)
    (hall : T.owners ≤ f.scanned) (hle : identity.generation ≤ generationMask)
    (hstored : Stored mem f.index identity) :
    ShmInv T (.shard process number none ::ₘ cards) (record (.published f.index identity) h)
      (update mem (.control f.index) identity.generation) := by
  refine hI.rework control_lock (fun _ _ => update_of_ne (by simp) _ _) rfl rfl rfl
    hI.recorded.clean ?_
  exact (hI.described.drop.publish hle hstored (hI.no_pins hlive hall)
    (hI.frozen_alone hlive (hI.described.own hlive).shard)).plain (by simp) (by simp)

theorem charges {p : Pin} (hI : ShmInv T (.held p ::ₘ cards) h mem) (previous now next : Nat)
    (hlive : p.handle.process ∉ h.dead) :
    ShmInv T (.held p ::ₘ cards) (record (.charged p.index previous now next) h)
      (update mem (.tat p.index (bankOf p.generation)) next) :=
  ⟨hI.locked.update rfl _, hI.counted.update (by simp) _,
    hI.described.charge (mem_cons_self _ _) hlive next, hI.recorded⟩

end ShmInv

end OrbitQuota.Shm
