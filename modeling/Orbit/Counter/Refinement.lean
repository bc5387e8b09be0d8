import Orbit.Counter.Calls
import Orbit.Counter.Memory
import Orbit.Atomic.Sequence

/-! Every run of calls on a shared table is a run of the bounded map: the invariant of the calls,
what one step of a call does to the map, and the sequential order of a run. -/

namespace OrbitCounter

open Orbit.Atomic List Function Option

variable {g : Geometry} {s s' : Shared} {id : Nat} {request : Request} {call : Call} {counts counts' : Counts}
  {held : Bool} {offset index : Nat}

def Stage.decided : Stage → Option Result
  | .unlockRegion result | .unlockTable result | .answer result | .returned result => some result
  | _ => none

/-- A call that holds the structural lock is not a `get`. -/
def Holding (s : Shared) (id : Nat) (request : Request) (held : Bool) : Prop :=
  held = true → s.region = some id ∧ request.work ≠ .look

structure Searching (g : Geometry) (s : Shared) (id : Nat) (request : Request) (held : Bool)
    (offset : Nat) : Prop where
  valid : request.validate g = .ok ()
  holding : Holding s id request held
  lt : offset < g.capacity
  passed : Passed g s.slots request.key offset

def Request.at (g : Geometry) (s : Shared) (request : Request) (offset : Nat) : Slot :=
  s.slots (probeIndex (counterHash request.key) offset g.capacity)

structure Serving (g : Geometry) (s : Shared) (id : Nat) (request : Request) (held : Bool)
    (index : Nat) (work : Work) : Prop where
  valid : request.validate g = .ok ()
  holding : Holding s id request held
  installed : Installed g s.slots request.key index
  work : request.work = work

structure Writing (g : Geometry) (s : Shared) (id : Nat) (request : Request) (index : Nat) :
    Prop where
  valid : request.validate g = .ok ()
  work : request.work ≠ .look
  region : s.region = some id
  vacant : (Probe.vacant index).Says g s.slots request.key

/-- The bytes written or compared so far are those of the key. -/
def Bytes (slot : Slot) (key : Key) (i : Nat) : Prop :=
  ∀ j < i, j < key.length → slot.key j = key.getD j 0

def Stands (g : Geometry) (s : Shared) (id : Nat) (call : Call) : Prop :=
  match call.stage with
  | .start | .unlockTable _ | .answer _ | .returned _ => True
  | .find held offset => Searching g s id call.request held offset
  | .matchState held offset | .matchHash held offset | .matchLen held offset =>
    Searching g s id call.request held offset ∧ (call.request.at g s offset).state = slotOccupied
  | .matchByte held offset i =>
    Searching g s id call.request held offset ∧ (call.request.at g s offset).state = slotOccupied ∧
      (call.request.at g s offset).keyLen.toNat = call.request.key.length ∧
      i < call.request.key.length ∧ Bytes (call.request.at g s offset) call.request.key i
  | .loadValue index => Serving g s id call.request false index .look
  | .clearValue held index => Serving g s id call.request held index .clear
  | .loadCurrent held index delta => Serving g s id call.request held index (.update delta)
  | .exchange held index delta current =>
    Serving g s id call.request held index (.update delta) ∧ (checkedAdd current delta).isSome
  | .lockTable | .lockRegion => call.request.validate g = .ok () ∧ call.request.work ≠ .look
  | .unlockRegion _ => s.region = some id
  | .writeHash index => Writing g s id call.request index
  | .writeLen index =>
    Writing g s id call.request index ∧ (s.slots index).keyHash = counterHash call.request.key
  | .writeByte index i =>
    Writing g s id call.request index ∧ (s.slots index).keyHash = counterHash call.request.key ∧
      (s.slots index).keyLen.toNat = call.request.key.length ∧ i < g.keyMax ∧
      Bytes (s.slots index) call.request.key i
  | .writeValue index =>
    Writing g s id call.request index ∧ (s.slots index).keyHash = counterHash call.request.key ∧
      (s.slots index).keyOf = call.request.key
  | .writeState index =>
    Writing g s id call.request index ∧ (s.slots index).keyHash = counterHash call.request.key ∧
      (s.slots index).keyOf = call.request.key ∧
      (s.slots index).value = call.request.work.installs

/-- What a call relies on while others take steps: occupied slots keep their keys, and the holder
of the structural lock keeps it and the empty slots. -/
structure Relies (s s' : Shared) (id : Nat) : Prop where
  keeps : Keeps s.slots s'.slots
  empty : s.region = some id → ∀ i, (s.slots i).state = slotEmpty → s'.slots i = s.slots i
  region : s.region = some id → s'.region = some id

theorem Holding.mono (h : Holding s id request held) (hs : Relies s s' id) :
    Holding s' id request held :=
  fun hheld => ⟨hs.region (h hheld).1, (h hheld).2⟩

theorem Searching.mono (h : Searching g s id request held offset) (hs : Relies s s' id) :
    Searching g s' id request held offset :=
  ⟨h.valid, h.holding.mono hs, h.lt, hs.keeps.passed h.passed⟩

theorem Serving.mono {work : Work} (h : Serving g s id request held index work)
    (hs : Relies s s' id) : Serving g s' id request held index work :=
  ⟨h.valid, h.holding.mono hs, hs.keeps.installed h.installed, h.work⟩

theorem Writing.same (h : Writing g s id request index) (hs : Relies s s' id) :
    s'.slots index = s.slots index :=
  hs.empty h.region index h.vacant.1

theorem Writing.mono (h : Writing g s id request index) (hs : Relies s s' id) :
    Writing g s' id request index := by
  obtain ⟨hempty, offset, hlt, hpassed, hindex⟩ := h.vacant
  refine ⟨h.valid, h.work, hs.region h.region, ?_, offset, hlt, hs.keeps.passed hpassed, hindex⟩
  rw [h.same hs]
  exact hempty

theorem at_mono (hs : Relies s s' id) (hstate : (request.at g s offset).state = slotOccupied) :
    (request.at g s' offset).state = slotOccupied ∧
      SameKey (request.at g s offset) (request.at g s' offset) :=
  hs.keeps _ hstate

theorem Stands.mono (h : Stands g s id call) (hs : Relies s s' id) : Stands g s' id call := by
  unfold Stands at h ⊢
  cases hstage : call.stage with
  | start | unlockTable result | answer result | returned result => trivial
  | find held offset =>
    rw [hstage] at h
    exact Searching.mono h hs
  | matchState held offset | matchHash held offset | matchLen held offset =>
    rw [hstage] at h
    exact ⟨h.1.mono hs, (at_mono hs h.2).1⟩
  | matchByte held offset i =>
    rw [hstage] at h
    obtain ⟨hsearch, hstate, hlen, hi, hbytes⟩ := h
    obtain ⟨hstate', hsame⟩ := at_mono hs hstate
    refine ⟨hsearch.mono hs, hstate', by rw [hsame.len]; exact hlen, hi, ?_⟩
    intro j hj hlt
    rw [hsame.key]
    exact hbytes j hj hlt
  | loadValue index | clearValue held index | loadCurrent held index delta =>
    rw [hstage] at h
    exact Serving.mono h hs
  | exchange held index delta current =>
    rw [hstage] at h
    exact ⟨h.1.mono hs, h.2⟩
  | lockTable | lockRegion =>
    rw [hstage] at h
    exact h
  | unlockRegion result =>
    rw [hstage] at h
    exact hs.region h
  | writeHash index =>
    rw [hstage] at h
    exact Writing.mono h hs
  | writeLen index | writeByte index i | writeValue index | writeState index =>
    rw [hstage] at h
    dsimp only at h ⊢
    rw [h.1.same hs]
    exact ⟨h.1.mono hs, h.2⟩

/-- What a step shows of a call: nothing, the effect of the call or its return. -/
inductive Shows (g : Geometry) (id : Nat) (call : Call) (counts : Counts) (move : Move)
    (counts' : Counts) : Prop where
  | nothing (hevents : move.events = []) (hcounts : counts' = counts)
      (hdecided : move.stage.decided = call.stage.decided)
  | effect (result : Result) (hevents : move.events = [.point id call.request result])
      (hstep : counts.Step g call.request result counts') (hbefore : call.stage.decided = none)
      (hafter : move.stage.decided = some result)
  | ret (result : Result) (hevents : move.events = [.ret id result]) (hcounts : counts' = counts)
      (hbefore : call.stage.decided = some result) (hafter : move.stage.decided = some result)

/-- What one step of a call does. -/
structure Goes (g : Geometry) (s : Shared) (id : Nat) (call : Call) (counts : Counts)
    (move : Move) (counts' : Counts) : Prop where
  table : Table g move.shared.slots counts'
  stands : Stands g move.shared id { call with stage := move.stage }
  others : ∀ id' ≠ id, Relies s move.shared id'
  happens : Shows g id call counts move counts'

theorem Relies.refl (s : Shared) (id : Nat) : Relies s s id := ⟨.refl _, fun _ _ _ => rfl, fun h => h⟩

section

variable (h : Table g s.slots counts)
include h

theorem goes_go {stage : Stage} (hstands : Stands g s id { call with stage })
    (hdecided : stage.decided = call.stage.decided) :
    Goes g s id call counts (Call.go s stage) counts :=
  ⟨h, hstands, fun _ _ => .refl _ _, .nothing rfl rfl hdecided⟩

theorem goes_conclude {result : Result} (hstep : counts.Step g call.request result counts)
    (hundecided : call.stage.decided = none) (hheld : held = true → s.region = some id) :
    Goes g s id call counts (call.conclude id s held result) counts := by
  refine ⟨h, ?_, fun _ _ => .refl _ _, .effect result rfl hstep hundecided ?_⟩
  · cases held with
    | false => trivial
    | true => exact hheld rfl
  · cases held with
    | false => rfl
    | true => rfl


theorem goes_found (hsearch : Searching g s id call.request held offset)
    (hi : Installed g s.slots call.request.key index) (hundecided : call.stage.decided = none) :
    Goes g s id call counts (call.found s held index) counts := by
  have hserving : ∀ work, call.request.work = work → Serving g s id call.request held index work :=
    fun work hwork => ⟨hsearch.valid, hsearch.holding, hi, hwork⟩
  rw [Call.found]
  cases hwork : call.request.work with
  | look =>
    refine goes_go h ?_ hundecided.symm
    exact ⟨hsearch.valid, by rintro ⟨⟩, hi, hwork⟩
  | update delta => exact goes_go h (hserving _ hwork) hundecided.symm
  | clear => exact goes_go h (hserving _ hwork) hundecided.symm

theorem goes_absent (hvalid : call.request.validate g = .ok ())
    (habsent : counts.lookup call.request.key = none) (hundecided : call.stage.decided = none) :
    Goes g s id call counts (call.absent id s) counts := by
  rw [Call.absent]
  cases hwork : call.request.work with
  | look =>
    refine goes_conclude h (.inl ?_) hundecided (by rintro ⟨⟩)
    rw [apply_valid hvalid, hwork, Counts.serve, habsent]
  | update delta => exact goes_go h ⟨hvalid, by rw [hwork]; simp⟩ hundecided.symm
  | clear => exact goes_go h ⟨hvalid, by rw [hwork]; simp⟩ hundecided.symm

theorem goes_vacant (hsearch : Searching g s id call.request held offset)
    (hempty : (call.request.at g s offset).state = slotEmpty) (hundecided : call.stage.decided = none) :
    Goes g s id call counts
      (call.vacant id s held (probeIndex (counterHash call.request.key) offset g.capacity))
      counts := by
  have hvacant : (Probe.vacant (probeIndex (counterHash call.request.key) offset
      g.capacity)).Says g s.slots call.request.key :=
    ⟨hempty, offset, hsearch.lt, hsearch.passed, rfl⟩
  rw [Call.vacant]
  cases held with
  | false => exact goes_absent h hsearch.valid (h.vacant_absent hvacant).1 hundecided
  | true =>
    obtain ⟨hregion, hwork⟩ := hsearch.holding rfl
    exact goes_go h ⟨hsearch.valid, hwork, hregion, hvacant⟩ hundecided.symm

theorem goes_exhausted (hvalid : call.request.validate g = .ok ())
    (hholding : Holding s id call.request held) (hpassed : Passed g s.slots call.request.key g.capacity)
    (hundecided : call.stage.decided = none) :
    Goes g s id call counts (call.exhausted g id s held) counts := by
  obtain ⟨habsent, hfull⟩ := h.exhausted_absent hpassed
  rw [Call.exhausted]
  cases held with
  | false => exact goes_absent h hvalid habsent hundecided
  | true =>
    refine goes_conclude h (.inl ?_) hundecided fun _ => (hholding rfl).1
    rw [apply_valid hvalid]
    cases hwork : call.request.work with
    | look => exact absurd hwork (hholding rfl).2
    | update delta => rw [serve_update_absent habsent, put_full habsent hfull]
    | clear => rw [Counts.serve, put_full habsent hfull]

theorem goes_passed (hsearch : Searching g s id call.request held offset)
    (hstate : (call.request.at g s offset).state = slotOccupied)
    (hne : (call.request.at g s offset).keyOf ≠ call.request.key)
    (hundecided : call.stage.decided = none) :
    Goes g s id call counts (call.passed g id s held offset) counts := by
  have hpassed := hsearch.passed.succ hstate hne
  rw [Call.passed]
  split
  · rename_i hlt
    exact goes_go h ⟨hsearch.valid, hsearch.holding, hlt, hpassed⟩ hundecided.symm
  · rename_i hle
    have hlast : offset + 1 = g.capacity := by
      have := hsearch.lt
      omega
    rw [hlast] at hpassed
    exact goes_exhausted h hsearch.valid hsearch.holding hpassed hundecided

theorem goes_compare (hsearch : Searching g s id call.request held offset)
    (hstate : (call.request.at g s offset).state = slotOccupied)
    (hlen : (call.request.at g s offset).keyLen.toNat = call.request.key.length) {i : Nat}
    (hbytes : Bytes (call.request.at g s offset) call.request.key i)
    (hundecided : call.stage.decided = none) :
    Goes g s id call counts (call.compare g s held offset i) counts := by
  rw [Call.compare]
  split
  · rename_i hi
    exact goes_go h ⟨hsearch, hstate, hlen, hi, hbytes⟩ hundecided.symm
  · rename_i hi
    apply goes_found h hsearch _ hundecided
    exact ⟨probeIndex_lt g _ _, hstate, keyOf_eq hlen fun j hj => hbytes j (by omega) hj⟩

theorem goes_setValue {work : Work} (hserving : Serving g s id call.request held index work)
    (value : Int64) {reply : Reply} (hundecided : call.stage.decided = none)
    (hserve : counts.serve g.capacity call.request.key work =
      (counts.insert call.request.key value, .ok reply)) :
    Goes g s id call counts
      (call.conclude id { s with slots := s.slots.setValue index value } held (.ok reply))
      (counts.insert call.request.key value) := by
  refine ⟨h.setValue hserving.installed value, ?_, fun id' _ => ⟨keeps_setValue _ _ _, ?_, fun h => h⟩,
    .effect _ rfl (.inl ?_) hundecided ?_⟩
  · cases held with
    | false => trivial
    | true => exact (hserving.holding rfl).1
  · intro _ i hempty
    apply update_other
    rintro rfl
    rw [hserving.installed.state] at hempty
    exact slotOccupied_ne hempty
  · rw [apply_valid hserving.valid, hserving.work, hserve]
  · cases held with
    | false => rfl
    | true => rfl

theorem goes_attempt {delta : Int64} (hserving : Serving g s id call.request held index (.update delta))
    (hundecided : call.stage.decided = none) :
    Goes g s id call counts (call.attempt id s held index delta (s.slots index).value) counts := by
  rw [Call.attempt]
  cases hadd : checkedAdd (s.slots index).value delta with
  | some sum => exact goes_go h ⟨hserving, by rw [hadd]; rfl⟩ hundecided.symm
  | none =>
    refine goes_conclude h (.inl ?_) hundecided fun hheld => (hserving.holding hheld).1
    rw [apply_valid hserving.valid, hserving.work,
      serve_update_installed (h.represents.lookup hserving.installed), hadd]

theorem goes_write (hwriting : Writing g s id call.request index) {slot : Slot} {stage : Stage}
    (hslot : slot.state = slotEmpty) (hundecided : call.stage.decided = none)
    (hstage : stage.decided = none)
    (hstands : Writing g (s.write index slot) id call.request index →
      Stands g (s.write index slot) id { call with stage }) :
    Goes g s id call counts (Call.go (s.write index slot) stage) counts := by
  obtain ⟨hempty, offset, hlt, hpassed, hindex⟩ := hwriting.vacant
  have hkeeps : Keeps s.slots (s.write index slot).slots := keeps_update hempty
  refine ⟨⟨h.chained.scratch hempty hslot, h.represents.scratch hempty hslot⟩, hstands ?_, ?_,
    .nothing rfl rfl (hstage.trans hundecided.symm)⟩
  · refine ⟨hwriting.valid, hwriting.work, hwriting.region, ?_, offset, hlt, hkeeps.passed hpassed,
      hindex⟩
    exact (congrArg Slot.state update_self).trans hslot
  · intro id' hne
    refine ⟨hkeeps, ?_, fun h => h⟩
    intro hregion
    rw [hwriting.region] at hregion
    exact absurd (Option.some.inj hregion).symm hne

theorem goes_publish (hwriting : Writing g s id call.request index)
    (hhash : (s.slots index).keyHash = counterHash call.request.key)
    (hkey : (s.slots index).keyOf = call.request.key)
    (hvalue : (s.slots index).value = call.request.work.installs)
    (hundecided : call.stage.decided = none) :
    Goes g s id call counts
      (call.conclude id (s.write index { s.slots index with state := slotOccupied }) true
        call.request.work.installed)
      (counts.insert call.request.key call.request.work.installs) := by
  obtain ⟨habsent, hroom⟩ := h.vacant_absent hwriting.vacant
  rw [← hvalue]
  refine ⟨h.publish hwriting.vacant rfl hhash hkey, hwriting.region, ?_, .effect _ rfl (.inl ?_) hundecided rfl⟩
  · intro id' hne
    refine ⟨keeps_update hwriting.vacant.1, ?_, fun h => h⟩
    intro hregion
    rw [hwriting.region] at hregion
    exact absurd (Option.some.inj hregion).symm hne
  · rw [apply_valid hwriting.valid, hvalue]
    cases hwork : call.request.work with
    | look => exact absurd hwork hwriting.work
    | update delta =>
      rw [serve_update_absent habsent, put_absent hroom]
      rfl
    | clear =>
      rw [Counts.serve, put_absent hroom]
      rfl

theorem goes_mutex {holder : Option Nat} {stage : Stage}
    (hstands : Stands g (call.setMutex s holder) id { call with stage })
    (hdecided : stage.decided = call.stage.decided) :
    Goes g s id call counts (Call.go (call.setMutex s holder) stage) counts :=
  ⟨h, hstands, fun _ _ => ⟨.refl _, fun _ _ _ => rfl, fun h => h⟩, .nothing rfl rfl hdecided⟩

theorem goes_matchHash (hsearch : Searching g s id call.request held offset)
    (hstate : (call.request.at g s offset).state = slotOccupied)
    (hundecided : call.stage.decided = none) :
    Goes g s id call counts
      (if (call.request.at g s offset).keyHash = counterHash call.request.key then
        Call.go s (.matchLen held offset)
      else call.passed g id s held offset) counts := by
  split
  · exact goes_go h ⟨hsearch, hstate⟩ hundecided.symm
  · rename_i hne
    apply goes_passed h hsearch hstate _ hundecided
    intro hkey
    have hhash := h.chained.hash _ (probeIndex_lt g _ _) hstate
    exact hne (hhash.trans (congrArg counterHash hkey))

theorem goes_matchLen (hsearch : Searching g s id call.request held offset)
    (hstate : (call.request.at g s offset).state = slotOccupied)
    (hundecided : call.stage.decided = none) :
    Goes g s id call counts
      (if (call.request.at g s offset).keyLen.toNat = call.request.key.length then
        call.compare g s held offset 0
      else call.passed g id s held offset) counts := by
  split
  · rename_i hlen
    apply goes_compare h hsearch hstate hlen _ hundecided
    exact fun j hj => absurd hj (Nat.not_lt_zero j)
  · rename_i hne
    apply goes_passed h hsearch hstate _ hundecided
    intro hkey
    rw [← keyOf_length] at hne
    exact hne (congrArg List.length hkey)

theorem goes_matchByte {i : Nat} (hsearch : Searching g s id call.request held offset)
    (hstate : (call.request.at g s offset).state = slotOccupied)
    (hlen : (call.request.at g s offset).keyLen.toNat = call.request.key.length)
    (hi : i < call.request.key.length) (hbytes : Bytes (call.request.at g s offset)
      call.request.key i) (hundecided : call.stage.decided = none) :
    Goes g s id call counts
      (if (call.request.at g s offset).key i = call.request.key.getD i 0 then
        call.compare g s held offset (i + 1)
      else call.passed g id s held offset) counts := by
  split
  · rename_i hbyte
    apply goes_compare h hsearch hstate hlen _ hundecided
    intro j hj hlt
    rcases Nat.lt_succ_iff_lt_or_eq.mp hj with hj | rfl
    · exact hbytes j hj hlt
    · exact hbyte
  · rename_i hne
    apply goes_passed h hsearch hstate _ hundecided
    intro hkey
    rw [← hkey, keyOf_getD _ (hlen ▸ hi)] at hne
    exact hne rfl

theorem goes_exchange {delta : Int64}
    (hserving : Serving g s id call.request held index (.update delta))
    (hadd : (checkedAdd (s.slots index).value delta).isSome)
    (hundecided : call.stage.decided = none) :
    Goes g s id call counts
      (call.conclude id
        { s with slots := s.slots.setValue index ((s.slots index).value + delta) } held
        (.ok (.value ((s.slots index).value + delta))))
      (counts.insert call.request.key ((s.slots index).value + delta)) := by
  apply goes_setValue h hserving _ hundecided
  rw [serve_update_installed (h.represents.lookup hserving.installed)]
  obtain ⟨sum, hsum⟩ := isSome_iff_exists.mp hadd
  rw [hsum]

theorem goes_lockRegion (hvalid : call.request.validate g = .ok ())
    (hwork : call.request.work ≠ .look) (hfree : s.region = none)
    (hundecided : call.stage.decided = none) :
    Goes g s id call counts (Call.go { s with region := some id } (.find true 0)) counts := by
  refine ⟨h, ⟨hvalid, fun _ => ⟨rfl, hwork⟩, g.capacity_pos, Passed.zero⟩, fun id' _ => ?_,
    .nothing rfl rfl hundecided.symm⟩
  refine ⟨.refl _, fun _ _ _ => rfl, ?_⟩
  intro hregion
  rw [hfree] at hregion
  cases hregion

theorem goes_unlockRegion {result : Result} (hregion : s.region = some id)
    (hdecided : call.stage.decided = some result) :
    Goes g s id call counts (Call.go { s with region := none } (.unlockTable result)) counts := by
  refine ⟨h, trivial, fun id' hne => ⟨.refl _, fun _ _ _ => rfl, ?_⟩,
    .nothing rfl rfl hdecided.symm⟩
  intro hregion'
  rw [hregion] at hregion'
  exact absurd (Option.some.inj hregion').symm hne

theorem goes_writeLen (hwriting : Writing g s id call.request index)
    (hhash : (s.slots index).keyHash = counterHash call.request.key)
    (hundecided : call.stage.decided = none) :
    Goes g s id call counts
      (Call.go (s.write index
        { s.slots index with keyLen := UInt16.ofNat call.request.key.length })
        (.writeByte index 0)) counts := by
  refine goes_write h hwriting hwriting.vacant.1 hundecided rfl fun hwriting' => ?_
  have hlen := (validateKey_ok (validate_key hwriting.valid)).2
  refine ⟨hwriting', ?_, ?_, g.keyMax_pos, fun j hj => absurd hj (Nat.not_lt_zero j)⟩
  · exact (congrArg Slot.keyHash update_self).trans hhash
  · exact (congrArg (UInt16.toNat ∘ Slot.keyLen) update_self).trans (keyLen_toNat hlen)

theorem goes_writeByte {i : Nat} (hwriting : Writing g s id call.request index)
    (hhash : (s.slots index).keyHash = counterHash call.request.key)
    (hlen : (s.slots index).keyLen.toNat = call.request.key.length)
    (hbytes : Bytes (s.slots index) call.request.key i) (hundecided : call.stage.decided = none) :
    Goes g s id call counts
      (Call.go (s.write index { s.slots index with
          key := Function.update (s.slots index).key i (call.request.key.getD i 0) })
        (if i + 1 < g.keyMax then .writeByte index (i + 1) else .writeValue index)) counts := by
  have hslot : (s.write index { s.slots index with
      key := Function.update (s.slots index).key i (call.request.key.getD i 0) }).slots index =
        { s.slots index with
          key := Function.update (s.slots index).key i (call.request.key.getD i 0) } := update_self
  have hbytes' : Bytes ((s.write index { s.slots index with
      key := Function.update (s.slots index).key i (call.request.key.getD i 0) }).slots index)
      call.request.key (i + 1) := by
    intro j hj hlt
    refine (congrFun (congrArg Slot.key hslot) j).trans ?_
    by_cases hji : j = i
    · subst hji
      exact Function.update_self ..
    · exact (update_of_ne hji ..).trans (hbytes j (by omega) hlt)
  split
  · rename_i hlt
    refine goes_write h hwriting hwriting.vacant.1 hundecided rfl fun hwriting' => ?_
    exact ⟨hwriting', (congrArg Slot.keyHash hslot).trans hhash,
      (congrArg (UInt16.toNat ∘ Slot.keyLen) hslot).trans hlen, hlt, hbytes'⟩
  · rename_i hle
    refine goes_write h hwriting hwriting.vacant.1 hundecided rfl fun hwriting' => ?_
    have hfits := (validateKey_ok (validate_key hwriting.valid)).2
    refine ⟨hwriting', (congrArg Slot.keyHash hslot).trans hhash, keyOf_eq ?_ ?_⟩
    · exact (congrArg (UInt16.toNat ∘ Slot.keyLen) hslot).trans hlen
    · exact fun j (hj : j < call.request.key.length) => hbytes' j (by omega) hj

end

theorem act_goes (h : Table g s.slots counts) (hstands : Stands g s id call) (choice : Bool) :
    ∃ counts', Goes g s id call counts (act g id call s choice) counts' := by
  unfold Stands at hstands
  unfold act
  cases hstage : call.stage with
  | start =>
    have hundecided : call.stage.decided = none := by rw [hstage]; rfl
    refine ⟨counts, ?_⟩
    dsimp only
    split
    · rename_i e hvalid
      exact goes_conclude h (.inl (apply_invalid hvalid)) hundecided (by rintro ⟨⟩)
    · rename_i hvalid
      refine goes_go h ?_ hundecided.symm
      exact ⟨hvalid, by rintro ⟨⟩, g.capacity_pos, Passed.zero⟩
  | find held offset =>
    have hundecided : call.stage.decided = none := by rw [hstage]; rfl
    rw [hstage] at hstands
    refine ⟨counts, ?_⟩
    dsimp only
    rcases h.chained.state (probeIndex (counterHash call.request.key) offset g.capacity)
      with hstate | hstate
    · rw [if_pos hstate]
      exact goes_vacant h hstands hstate hundecided
    · rw [if_neg (by rw [hstate]; exact slotOccupied_ne), if_pos hstate]
      exact goes_go h ⟨hstands, hstate⟩ hundecided.symm
  | matchState held offset =>
    have hundecided : call.stage.decided = none := by rw [hstage]; rfl
    rw [hstage] at hstands
    refine ⟨counts, ?_⟩
    dsimp only
    split
    · exact goes_go h hstands hundecided.symm
    · rename_i hstate
      exact absurd hstands.2 hstate
  | matchHash held offset =>
    rw [hstage] at hstands
    exact ⟨counts, goes_matchHash h hstands.1 hstands.2 (by rw [hstage]; rfl)⟩
  | matchLen held offset =>
    rw [hstage] at hstands
    exact ⟨counts, goes_matchLen h hstands.1 hstands.2 (by rw [hstage]; rfl)⟩
  | matchByte held offset i =>
    rw [hstage] at hstands
    obtain ⟨hsearch, hstate, hlen, hi, hbytes⟩ := hstands
    exact ⟨counts, goes_matchByte h hsearch hstate hlen hi hbytes (by rw [hstage]; rfl)⟩
  | loadValue index =>
    rw [hstage] at hstands
    refine ⟨counts, goes_conclude h (.inl ?_) (by rw [hstage]; rfl) (by rintro ⟨⟩)⟩
    rw [apply_valid hstands.valid, hstands.work, Counts.serve,
      h.represents.lookup hstands.installed]
  | clearValue held index =>
    rw [hstage] at hstands
    refine ⟨_, goes_setValue h hstands 0 (by rw [hstage]; rfl) ?_⟩
    rw [Counts.serve, put_installed (h.represents.lookup hstands.installed)]
  | loadCurrent held index delta =>
    rw [hstage] at hstands
    exact ⟨counts, goes_attempt h hstands (by rw [hstage]; rfl)⟩
  | exchange held index delta current =>
    rw [hstage] at hstands
    obtain ⟨hserving, hadd⟩ := hstands
    dsimp only
    split
    · rename_i hcurrent
      obtain ⟨rfl, -⟩ := hcurrent
      exact ⟨_, goes_exchange h hserving hadd (by rw [hstage]; rfl)⟩
    · exact ⟨counts, goes_attempt h hserving (by rw [hstage]; rfl)⟩
  | lockTable =>
    have hundecided : call.stage.decided = none := by rw [hstage]; rfl
    rw [hstage] at hstands
    refine ⟨counts, ?_⟩
    dsimp only
    split
    · exact goes_mutex h hstands hundecided.symm
    · exact goes_go h hstands hundecided.symm
  | lockRegion =>
    have hundecided : call.stage.decided = none := by rw [hstage]; rfl
    rw [hstage] at hstands
    obtain ⟨hvalid, hwork⟩ := hstands
    refine ⟨counts, ?_⟩
    dsimp only
    split
    · split
      · rename_i hfree
        exact goes_lockRegion h hvalid hwork hfree hundecided
      · exact goes_go h ⟨hvalid, hwork⟩ hundecided.symm
    · exact ⟨h, trivial, fun _ _ => .refl _ _,
        .effect _ rfl (.inr ⟨rfl, rfl, hwork⟩) hundecided rfl⟩
  | unlockRegion result =>
    rw [hstage] at hstands
    exact ⟨counts, goes_unlockRegion h hstands (by rw [hstage]; rfl)⟩
  | unlockTable result => exact ⟨counts, goes_mutex h trivial (by rw [hstage]; rfl)⟩
  | writeHash index =>
    rw [hstage] at hstands
    refine ⟨counts, goes_write h hstands hstands.vacant.1 (by rw [hstage]; rfl) rfl ?_⟩
    exact fun hwriting => ⟨hwriting, congrArg Slot.keyHash update_self⟩
  | writeLen index =>
    rw [hstage] at hstands
    exact ⟨counts, goes_writeLen h hstands.1 hstands.2 (by rw [hstage]; rfl)⟩
  | writeByte index i =>
    rw [hstage] at hstands
    obtain ⟨hwriting, hhash, hlen, -, hbytes⟩ := hstands
    exact ⟨counts, goes_writeByte h hwriting hhash hlen hbytes (by rw [hstage]; rfl)⟩
  | writeValue index =>
    rw [hstage] at hstands
    obtain ⟨hwriting, hhash, hkey⟩ := hstands
    refine ⟨counts, goes_write h hwriting hwriting.vacant.1 (by rw [hstage]; rfl) rfl ?_⟩
    intro hwriting'
    exact ⟨hwriting', (congrArg Slot.keyHash update_self).trans hhash,
      (congrArg Slot.keyOf update_self).trans hkey, congrArg Slot.value update_self⟩
  | writeState index =>
    rw [hstage] at hstands
    obtain ⟨hwriting, hhash, hkey, hvalue⟩ := hstands
    exact ⟨_, goes_publish h hwriting hhash hkey hvalue (by rw [hstage]; rfl)⟩
  | answer result =>
    exact ⟨counts, h, trivial, fun _ _ => .refl _ _,
      .ret result rfl rfl (by rw [hstage]; rfl) rfl⟩
  | returned result => exact ⟨counts, goes_go h trivial (by rw [hstage])⟩

/-- What the trace says of a call. -/
structure Logged (trace : List (Event Request Result)) (id : Nat) (call : Call) : Prop where
  made : .call id call.request ∈ trace
  undecided : call.stage.decided = none → ∀ request result, .point id request result ∉ trace
  decided : ∀ result, call.stage.decided = some result → .point id call.request result ∈ trace

/-- The invariant of a run. -/
structure Sound (g : Geometry) (w : World) (counts : Counts) : Prop where
  table : Table g w.shared.slots counts
  replays : Replays (Counts.Step g) ∅ (effects w.trace) counts
  traced : Traced w.trace
  fresh : ∀ event ∈ w.trace, event.id < w.calls.length
  logged : ∀ id call, w.calls[id]? = some call → Logged w.trace id call
  stands : ∀ id call, w.calls[id]? = some call → w.dead call.process = false →
    Stands g w.shared id call

variable {w : World}

theorem Logged.append {trace rest : List (Event Request Result)} {id' : Nat}
    (h : Logged trace id' call) (hrest : ∀ event ∈ rest, event.id ≠ id') :
    Logged (trace ++ rest) id' call := by
  refine ⟨mem_append_left _ h.made, ?_, fun result hdecided =>
    mem_append_left _ (h.decided result hdecided)⟩
  intro hundecided request result hmem
  rcases mem_append.mp hmem with hmem | hmem
  · exact h.undecided hundecided request result hmem
  · exact hrest _ hmem rfl

theorem Sound.init : Sound g .init ∅ where
  table := .init
  replays := rfl
  traced := .nil
  fresh _ h := absurd h not_mem_nil
  logged _ _ h := by cases h
  stands _ _ h := by cases h

theorem Sound.make (h : Sound g w counts) (process table : Nat) (request : Request) :
    Sound g (exec g w (.make process table request)) counts := by
  rw [exec]
  split
  · exact h
  refine ⟨h.table, ?_, ?_, ?_, ?_, ?_⟩
  · simpa using h.replays
  · exact h.traced.call fun event hmem => Nat.ne_of_lt (h.fresh event hmem)
  · intro event hmem
    rw [length_append, length_singleton]
    rcases mem_append.mp hmem with hmem | hmem
    · exact Nat.lt_succ_of_lt (h.fresh event hmem)
    · rw [mem_singleton.mp hmem]
      exact Nat.lt_succ_self _
  · intro id call hcall
    rw [getElem?_append] at hcall
    split at hcall
    · rename_i hlt
      apply (h.logged id call hcall).append
      intro event hmem
      rw [mem_singleton.mp hmem]
      exact Nat.ne_of_gt hlt
    · rename_i hge
      obtain ⟨hid, rfl⟩ : id = w.calls.length ∧ call = ⟨process, table, request, .start⟩ := by
        rw [getElem?_singleton] at hcall
        split at hcall
        · exact ⟨by omega, (Option.some.inj hcall).symm⟩
        · cases hcall
      subst hid
      refine ⟨mem_append_right _ (mem_singleton.mpr rfl), ?_, by rintro _ ⟨⟩⟩
      intro _ request' result hmem
      rcases mem_append.mp hmem with hmem | hmem
      · exact Nat.lt_irrefl _ (h.fresh _ hmem)
      · cases mem_singleton.mp hmem
  · intro id call hcall hlive
    rw [getElem?_append] at hcall
    split at hcall
    · exact h.stands id call hcall hlive
    · rw [getElem?_singleton] at hcall
      split at hcall
      · cases hcall
        trivial
      · cases hcall

theorem release_live {process : Nat} (hregion : w.shared.region = some id)
    (hcall : w.calls[id]? = some call) (hlive : call.process ≠ process) :
    w.release process = some id := by
  rw [World.release, hregion, filter_some, hcall]
  simp [hlive]

theorem Sound.die (h : Sound g w counts) (process : Nat) :
    Sound g (exec g w (.die process)) counts := by
  refine ⟨h.table, h.replays, h.traced, h.fresh, h.logged, ?_⟩
  intro id call hcall hlive
  have hdead : Function.update w.dead process true call.process = false := hlive
  have hne : call.process ≠ process := by
    rintro rfl
    rw [Function.update_self] at hdead
    cases hdead
  have hlive' : w.dead call.process = false := by
    rw [← hdead, update_of_ne hne]
  refine (h.stands id call hcall hlive').mono ⟨.refl _, fun _ _ _ => rfl, ?_⟩
  intro hregion
  exact release_live hregion hcall hne

section

variable {trace : List (Event Request Result)} {move : Move}

theorem Shows.id_eq (h : Shows g id call counts move counts') :
    ∀ event ∈ move.events, event.id = id := by
  intro event hmem
  cases h with
  | nothing hevents hcounts hdecided =>
    rw [hevents] at hmem
    cases hmem
  | effect result hevents hstep hbefore hafter =>
    rw [hevents, mem_singleton] at hmem
    rw [hmem]
    rfl
  | ret result hevents hcounts hbefore hafter =>
    rw [hevents, mem_singleton] at hmem
    rw [hmem]
    rfl

theorem Shows.traced (h : Shows g id call counts move counts') (hlogged : Logged trace id call)
    (htraced : Traced trace) : Traced (trace ++ move.events) := by
  cases h with
  | nothing hevents hcounts hdecided =>
    rw [hevents, append_nil]
    exact htraced
  | effect result hevents hstep hbefore hafter =>
    rw [hevents]
    exact htraced.point hlogged.made (hlogged.undecided hbefore)
  | ret result hevents hcounts hbefore hafter =>
    rw [hevents]
    exact htraced.ret (hlogged.decided result hbefore)

theorem Shows.replays (h : Shows g id call counts move counts')
    (hreplays : Replays (Counts.Step g) ∅ (effects trace) counts) :
    Replays (Counts.Step g) ∅ (effects (trace ++ move.events)) counts' := by
  rw [effects_append]
  apply hreplays.append
  cases h with
  | nothing hevents hcounts hdecided =>
    rw [hevents]
    exact hcounts
  | effect result hevents hstep hbefore hafter =>
    rw [hevents]
    exact ⟨counts', hstep, rfl⟩
  | ret result hevents hcounts hbefore hafter =>
    rw [hevents]
    exact hcounts

theorem Shows.logged (h : Shows g id call counts move counts') (hlogged : Logged trace id call) :
    Logged (trace ++ move.events) id { call with stage := move.stage } := by
  refine ⟨mem_append_left _ hlogged.made, ?_, ?_⟩
  · intro hundecided request result hmem
    cases h with
    | nothing hevents hcounts hdecided =>
      rw [hevents, append_nil] at hmem
      exact hlogged.undecided (hdecided.symm.trans hundecided) request result hmem
    | effect result' hevents hstep hbefore hafter =>
      rw [show move.stage.decided = none from hundecided] at hafter
      cases hafter
    | ret result' hevents hcounts hbefore hafter =>
      rw [show move.stage.decided = none from hundecided] at hafter
      cases hafter
  · intro result hresult
    have hresult : move.stage.decided = some result := hresult
    cases h with
    | nothing hevents hcounts hdecided =>
      exact mem_append_left _ (hlogged.decided result (hdecided.symm.trans hresult))
    | effect result' hevents hstep hbefore hafter =>
      rw [hafter] at hresult
      cases hresult
      rw [hevents]
      exact mem_append_right _ (mem_singleton.mpr rfl)
    | ret result' hevents hcounts hbefore hafter =>
      rw [hafter] at hresult
      cases hresult
      exact mem_append_left _ (hlogged.decided _ hbefore)

end

theorem Sound.step (h : Sound g w counts) (id : Nat) (choice : Bool) :
    ∃ counts', Sound g (exec g w (.step id choice)) counts' := by
  rw [exec]
  split
  · exact ⟨counts, h⟩
  rename_i call hcall
  split
  · exact ⟨counts, h⟩
  rename_i hdead
  have hlive : w.dead call.process = false := by simpa using hdead
  have hlogged := h.logged id call hcall
  have hlt : id < w.calls.length := (List.getElem?_eq_some_iff.mp hcall).1
  obtain ⟨counts', hgoes⟩ := act_goes h.table (h.stands id call hcall hlive) choice
  generalize act g id call w.shared choice = move at hgoes
  have hid := hgoes.happens.id_eq
  refine ⟨counts', hgoes.table, hgoes.happens.replays h.replays,
    hgoes.happens.traced hlogged h.traced, ?_, ?_, ?_⟩
  · intro event hmem
    rw [length_set]
    rcases mem_append.mp hmem with hmem | hmem
    · exact h.fresh event hmem
    · rw [hid event hmem]
      exact hlt
  · intro id' call' hcall'
    by_cases hsame : id' = id
    · subst hsame
      rw [getElem?_set_self hlt] at hcall'
      cases hcall'
      exact hgoes.happens.logged hlogged
    · rw [getElem?_set_ne (Ne.symm hsame)] at hcall'
      apply (h.logged id' call' hcall').append
      intro event hmem
      rw [hid event hmem]
      exact Ne.symm hsame
  · intro id' call' hcall' hlive'
    by_cases hsame : id' = id
    · subst hsame
      rw [getElem?_set_self hlt] at hcall'
      cases hcall'
      exact hgoes.stands
    · rw [getElem?_set_ne (Ne.symm hsame)] at hcall'
      exact (h.stands id' call' hcall' hlive').mono (hgoes.others id' hsame)

theorem run_sound (g : Geometry) (ops : List Op) : ∃ counts, Sound g (run g ops) counts := by
  apply foldl_holds (I := fun w => ∃ counts, Sound g w counts) _ ops ⟨∅, .init⟩
  rintro w op ⟨counts, h⟩
  cases op with
  | make process table request => exact ⟨counts, h.make process table request⟩
  | step id choice => exact h.step id choice
  | die process => exact ⟨counts, h.die process⟩

end OrbitCounter
