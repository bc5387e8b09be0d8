import Orbit.Exchange.Exclusive
import Orbit.Table.Segment

/-! Payloads in chunks: the plan that splits a payload of a known length, and the descriptor that
names a chunk to its reader. -/

namespace OrbitExchange

open Function Orbit.Atomic Orbit.Table

/-! ### Plans

As for the offsets of a segment, `w` is what is kept of a result that nothing checks. -/

def defaultChunkBytes : Nat := 64 * 1024

structure ChunkGeometry where
  slotPayloadBytes : Nat
  slotsPerLane : Nat

structure ChunkPlan where
  dataBytes : Nat
  chunkBytes : Nat
  chunkCount : Nat
  slotsPerChunk : Nat
  tailBytes : Nat
  tailSlots : Nat

def ChunkGeometry.new (slotPayloadBytes slotsPerLane : Nat) : Option ChunkGeometry :=
  if slotPayloadBytes = 0 ∨ slotsPerLane = 0 then none else some ⟨slotPayloadBytes, slotsPerLane⟩

def ChunkGeometry.chunkBytes (geometry : ChunkGeometry) (slots : Nat) : Option Nat :=
  if slots = 0 ∨ slots > geometry.slotsPerLane then none
  else checked (geometry.slotPayloadBytes * slots)

section

variable (w : Nat → Nat)

def ChunkPlan.forLimit (dataBytes slotBytes limitBytes : Nat) : Option ChunkPlan :=
  if slotBytes = 0 ∨ limitBytes = 0 then none
  else
    let target := if limitBytes < slotBytes then slotBytes else limitBytes
    let chunkBytes := w (target / slotBytes * slotBytes)
    let slotsPerChunk := chunkBytes / slotBytes
    if dataBytes = 0 then some ⟨dataBytes, chunkBytes, 0, slotsPerChunk, 0, 0⟩
    else
      let chunkCount := ceilDiv dataBytes chunkBytes
      let remainder := dataBytes % chunkBytes
      let tailBytes := if remainder = 0 then chunkBytes else remainder
      let tailSlots := ceilDiv tailBytes slotBytes
      some ⟨dataBytes, chunkBytes, chunkCount, slotsPerChunk, tailBytes, tailSlots⟩

def ChunkGeometry.plan (geometry : ChunkGeometry) (dataBytes slotsPerChunk : Nat) :
    Option ChunkPlan := do
  let chunkBytes ← geometry.chunkBytes slotsPerChunk
  ChunkPlan.forLimit w dataBytes geometry.slotPayloadBytes chunkBytes

/-- Exact length of chunk `index`, if it exists. -/
def ChunkPlan.chunkLen (plan : ChunkPlan) (index : Nat) : Option Nat :=
  if index ≥ plan.chunkCount then none
  else if w (index + 1) = plan.chunkCount then some plan.tailBytes
  else some plan.chunkBytes

namespace PayloadArenaSpec

variable (spec : PayloadArenaSpec)

def laneBytes : Nat := w (spec.slotsPerNode * spec.slotSize)

def chunkGeometry : Option ChunkGeometry := ChunkGeometry.new spec.slotSize spec.slotsPerNode

def planChunks (dataBytes : Nat) : Option ChunkPlan :=
  let laneBytes := spec.laneBytes w
  let limit := if defaultChunkBytes < laneBytes then defaultChunkBytes else laneBytes
  ChunkPlan.forLimit w dataBytes spec.slotSize limit

def planChunksWith (dataBytes slotsPerChunk : Nat) : Option ChunkPlan := do
  let geometry ← spec.chunkGeometry
  geometry.plan w dataBytes slotsPerChunk

end PayloadArenaSpec

end

/-- A plan of `dataBytes` for the arena: the chunks are the ones meant, each has some bytes and no
more than a chunk holds, which a lane has the slots for, and together they are all the bytes. -/
structure ChunkPlan.Exact (plan : ChunkPlan) (spec : PayloadArenaSpec) (dataBytes : Nat) :
    Prop where
  meant : ∀ index, plan.chunkLen word index = plan.chunkLen id index
  exist : ∀ index, (plan.chunkLen word index).isSome ↔ index < plan.chunkCount
  len : ∀ index len, plan.chunkLen word index = some len →
    1 ≤ len ∧ len ≤ plan.chunkBytes ∧ ceilDiv len spec.slotSize ≤ spec.slotsPerNode
  sum : ((List.range plan.chunkCount).filterMap (plan.chunkLen word)).sum = dataBytes

/-- Every plan is the one meant, and exact. -/
structure PayloadArenaSpec.PlansExact (spec : PayloadArenaSpec) : Prop where
  plan : ∀ dataBytes < 2 ^ 64, ∃ plan, spec.planChunks word dataBytes = some plan ∧
    spec.planChunks id dataBytes = some plan ∧ plan.Exact spec dataBytes
  planWith : ∀ dataBytes < 2 ^ 64, ∀ slotsPerChunk plan,
    spec.planChunksWith word dataBytes slotsPerChunk = some plan →
      spec.planChunksWith id dataBytes slotsPerChunk = some plan ∧ plan.Exact spec dataBytes ∧
        plan.slotsPerChunk = slotsPerChunk

section

variable {w : Nat → Nat} {dataBytes slotBytes limitBytes n c k index : Nat}

theorem ceilDiv_le (hpos : 0 < slotBytes) (h : n ≤ k * slotBytes) : ceilDiv n slotBytes ≤ k := by
  rw [ceilDiv_eq hpos]
  refine Nat.lt_succ_iff.mp ((Nat.div_lt_iff_lt_mul hpos).mpr ?_)
  rw [Nat.succ_mul]
  omega

/-- The plan that `for_limit` makes with chunks of `n` slots. -/
def ChunkPlan.of (dataBytes slotBytes n : Nat) : ChunkPlan :=
  let tailBytes := if dataBytes = 0 then 0
    else if dataBytes % (n * slotBytes) = 0 then n * slotBytes else dataBytes % (n * slotBytes)
  ⟨dataBytes, n * slotBytes, ceilDiv dataBytes (n * slotBytes), n, tailBytes,
    ceilDiv tailBytes slotBytes⟩

theorem forLimit_eq (hslot : 0 < slotBytes) (hlimit : 0 < limitBytes)
    (hn : (if limitBytes < slotBytes then slotBytes else limitBytes) / slotBytes = n)
    (hw : w (n * slotBytes) = n * slotBytes) :
    ChunkPlan.forLimit w dataBytes slotBytes limitBytes =
      some (ChunkPlan.of dataBytes slotBytes n) := by
  rw [ChunkPlan.forLimit, if_neg (by omega)]
  simp only [hn, hw, Nat.mul_div_cancel _ hslot, ChunkPlan.of]
  split
  · rename_i hzero
    subst hzero
    simp [ceilDiv]
  · rfl

/-- A plan of any bytes has full chunks and a last one, which make up the bytes. -/
def ChunkPlan.Whole (plan : ChunkPlan) (dataBytes : Nat) : Prop :=
  dataBytes = 0 ∧ plan.chunkCount = 0 ∨ ∃ full, plan.chunkCount = full + 1 ∧
    1 ≤ plan.tailBytes ∧ plan.tailBytes ≤ plan.chunkBytes ∧
    full * plan.chunkBytes + plan.tailBytes = dataBytes

theorem of_whole (hchunk : 0 < n * slotBytes) :
    (ChunkPlan.of dataBytes slotBytes n).Whole dataBytes := by
  have hdiv := Nat.div_add_mod' dataBytes (n * slotBytes)
  have hmod := Nat.mod_lt dataBytes hchunk
  simp only [ChunkPlan.Whole, ChunkPlan.of, ceilDiv]
  by_cases hzero : dataBytes = 0
  · refine .inl ⟨hzero, ?_⟩
    rw [hzero, Nat.zero_mod, if_pos rfl, Nat.zero_div]
  · rw [if_neg hzero]
    refine .inr ?_
    split
    · rename_i hrest
      rw [hrest, Nat.add_zero] at hdiv
      cases hfull : dataBytes / (n * slotBytes) with
      | zero =>
        rw [hfull, Nat.zero_mul] at hdiv
        exact absurd hdiv.symm hzero
      | succ full =>
        rw [hfull, Nat.succ_mul] at hdiv
        exact ⟨full, rfl, hchunk, Nat.le_refl _, hdiv⟩
    · exact ⟨_, rfl, by omega, by omega, hdiv⟩

namespace ChunkPlan.Whole

variable {plan : ChunkPlan} (h : plan.Whole dataBytes)
include h

theorem count_le : plan.chunkCount ≤ dataBytes := by
  rcases h with ⟨-, hcount⟩ | ⟨full, hcount, hone, hle, hsum⟩
  · omega
  · have hle : full ≤ full * plan.chunkBytes := Nat.le_mul_of_pos_right _ (by omega)
    omega

theorem len {len : Nat} (hlen : plan.chunkLen id index = some len) :
    1 ≤ len ∧ len ≤ plan.chunkBytes := by
  rw [chunkLen] at hlen
  rcases h with ⟨-, hcount⟩ | ⟨full, hcount, hone, hle, -⟩
  · rw [if_pos (by omega)] at hlen
    cases hlen
  · split at hlen
    · cases hlen
    split at hlen
    · cases hlen
      exact ⟨hone, hle⟩
    · cases hlen
      exact ⟨by omega, Nat.le_refl _⟩

theorem sum : ((List.range plan.chunkCount).filterMap (plan.chunkLen id)).sum = dataBytes := by
  rcases h with ⟨hzero, hcount⟩ | ⟨full, hcount, -, -, hsum⟩
  · rw [hcount, hzero]
    rfl
  · have hfull : (List.range full).filterMap (plan.chunkLen id) =
        (List.range full).map fun _ => plan.chunkBytes := by
      rw [← List.filterMap_eq_map]
      refine List.filterMap_congr fun index hmem => ?_
      have hlt := List.mem_range.mp hmem
      rw [chunkLen, if_neg (by omega), id, if_neg (by omega)]
      rfl
    have hlast : plan.chunkLen id full = some plan.tailBytes := by
      rw [chunkLen, if_neg (by omega), id, if_pos hcount.symm]
    rw [hcount, List.range_succ, List.filterMap_append, hfull, List.sum_append]
    simpa [hlast] using hsum

end ChunkPlan.Whole

theorem of_exact {spec : PayloadArenaSpec} (hsize : 0 < spec.slotSize) (hn : 0 < n)
    (hlane : n ≤ spec.slotsPerNode) (hdata : dataBytes < 2 ^ 64) :
    (ChunkPlan.of dataBytes spec.slotSize n).Exact spec dataBytes := by
  have hwhole : (ChunkPlan.of dataBytes spec.slotSize n).Whole dataBytes :=
    of_whole (Nat.mul_pos hn hsize)
  have hbytes : (ChunkPlan.of dataBytes spec.slotSize n).chunkBytes = n * spec.slotSize := rfl
  generalize ChunkPlan.of dataBytes spec.slotSize n = plan at hwhole hbytes ⊢
  have hcount := hwhole.count_le
  have hmeant : plan.chunkLen word = plan.chunkLen id := by
    funext index
    simp only [ChunkPlan.chunkLen]
    split
    · rfl
    · rw [word_eq (by omega), id]
  refine ⟨congrFun hmeant, fun index => ?_, fun index len h => ?_, hmeant ▸ hwhole.sum⟩
  · unfold ChunkPlan.chunkLen
    split
    · simpa
    · split
      · simpa using Nat.lt_of_not_le ‹_›
      · simpa using Nat.lt_of_not_le ‹_›
  · obtain ⟨hone, hle⟩ := hwhole.len (hmeant ▸ h)
    exact ⟨hone, hle, (ceilDiv_le hsize (hbytes ▸ hle)).trans hlane⟩

theorem forLimit_exact {spec : PayloadArenaSpec} (hsize : 0 < spec.slotSize)
    (hpos : 0 < spec.slotsPerNode) (hfits : spec.slotsPerNode * spec.slotSize < 2 ^ 64)
    (hlimit : 0 < limitBytes) (hlane : limitBytes ≤ spec.slotsPerNode * spec.slotSize)
    (hdata : dataBytes < 2 ^ 64) :
    ∃ plan, ChunkPlan.forLimit word dataBytes spec.slotSize limitBytes = some plan ∧
      ChunkPlan.forLimit id dataBytes spec.slotSize limitBytes = some plan ∧
      plan.Exact spec dataBytes ∧
      (spec.slotSize ≤ limitBytes → plan.slotsPerChunk = limitBytes / spec.slotSize) := by
  generalize htarget : (if limitBytes < spec.slotSize then spec.slotSize else limitBytes) = target
  have hslot : spec.slotSize ≤ spec.slotsPerNode * spec.slotSize := Nat.le_mul_of_pos_left _ hpos
  have hrange : spec.slotSize ≤ target ∧ target ≤ spec.slotsPerNode * spec.slotSize := by
    rw [← htarget]
    split
    · exact ⟨Nat.le_refl _, hslot⟩
    · exact ⟨Nat.le_of_not_lt ‹_›, hlane⟩
  have hn : (if limitBytes < spec.slotSize then spec.slotSize else limitBytes) / spec.slotSize =
      target / spec.slotSize := by rw [htarget]
  have hle := Nat.div_mul_le_self target spec.slotSize
  refine ⟨_, forLimit_eq hsize hlimit hn (word_eq (by omega)), forLimit_eq hsize hlimit hn rfl,
    of_exact hsize (Nat.div_pos hrange.1 hsize) ?_ hdata, fun h => ?_⟩
  · exact Nat.div_le_of_le_mul (by rw [Nat.mul_comm]; exact hrange.2)
  · rw [← htarget, if_neg (Nat.not_lt.mpr h), ChunkPlan.of]

theorem plans_exact (g : Geometry) : g.spec.PlansExact := by
  have hsize : 0 < g.spec.slotSize := g.size_pos
  have hpos : 0 < g.spec.slotsPerNode := g.lane_pos
  have hfits : g.spec.slotsPerNode * g.spec.slotSize < 2 ^ 64 := by
    obtain ⟨-, -, -, -, hslots, hbytes⟩ := g.valid_parts
    calc g.spec.slotsPerNode * g.spec.slotSize ≤ (2 ^ 32 - 1) * (2 ^ 32 - 1) :=
          Nat.mul_le_mul hslots hbytes
      _ < 2 ^ 64 := by decide
  constructor
  · intro dataBytes hdata
    have hlane : g.spec.laneBytes word = g.spec.laneBytes id := word_eq hfits
    have hlimit : ∀ lane, 0 < lane →
        0 < (if defaultChunkBytes < lane then defaultChunkBytes else lane) ∧
          (if defaultChunkBytes < lane then defaultChunkBytes else lane) ≤ lane := by
      intro lane hlane
      split
      · exact ⟨by decide, Nat.le_of_lt ‹_›⟩
      · exact ⟨hlane, Nat.le_refl _⟩
    obtain ⟨hlimit, hle⟩ := hlimit (g.spec.laneBytes id) (Nat.mul_pos hpos hsize)
    obtain ⟨plan, hword, hid, hexact, -⟩ := forLimit_exact hsize hpos hfits hlimit hle hdata
    refine ⟨plan, ?_, hid, hexact⟩
    rw [PayloadArenaSpec.planChunks, hlane]
    exact hword
  · intro dataBytes hdata slotsPerChunk plan h
    have hgeometry : g.spec.chunkGeometry = some ⟨g.spec.slotSize, g.spec.slotsPerNode⟩ :=
      if_neg (by omega)
    rw [PayloadArenaSpec.planChunksWith, hgeometry] at h ⊢
    simp only [Option.bind_eq_bind, Option.bind_some, ChunkGeometry.plan,
      ChunkGeometry.chunkBytes] at h ⊢
    split at h
    · cases h
    rename_i hslots
    rw [not_or, Nat.not_lt] at hslots
    have hmul : slotsPerChunk * g.spec.slotSize ≤ g.spec.slotsPerNode * g.spec.slotSize :=
      Nat.mul_le_mul_right _ hslots.2
    have hbytes : checked (g.spec.slotSize * slotsPerChunk) =
        some (slotsPerChunk * g.spec.slotSize) := by
      rw [Nat.mul_comm]
      exact if_pos (by omega)
    have hone : g.spec.slotSize ≤ slotsPerChunk * g.spec.slotSize :=
      Nat.le_mul_of_pos_left _ (Nat.pos_of_ne_zero hslots.1)
    rw [if_neg (by omega), hbytes]
    rw [hbytes] at h
    obtain ⟨found, hword, hid, hexact, hcount⟩ :=
      forLimit_exact hsize hpos hfits (by omega) hmul hdata
    cases hword.symm.trans h
    refine ⟨hid, hexact, ?_⟩
    rw [hcount hone, Nat.mul_div_cancel _ hsize]

end

section

variable {g : Geometry} {mem : Mem Addr} {first n slot : Nat}

theorem findRun_fits (laneStart hint count : Nat) (offsets : List Nat) (mem : Mem Addr) :
    ∀ candidate ∈ ((findRun laneStart hint count offsets : ArenaM g (Option Nat)).run mem).1,
      candidate + count ≤ g.slotsPerNode := by
  induction offsets generalizing mem with
  | nil => exact fun _ hmem => absurd hmem (by simp [findRun])
  | cons offset rest ih =>
    rw [findRun]
    split
    · rename_i hfits
      rw [Prog.run_bind]
      split
      · rintro candidate ⟨⟩
        exact hfits
      · exact ih _
    · exact ih _

theorem run_setStates_state (slot value first n : Nat) (mem : Mem Addr) :
    ((setStates value first n : ArenaM g Unit).run mem).2 (.state slot) =
      if first ≤ slot ∧ slot < first + n then value else mem (.state slot) := by
  induction n generalizing first mem with
  | zero => rw [if_neg (by omega)]; rfl
  | succ n ih =>
    rw [setStates, Prog.run_bind, ih]
    change (if _ then value else update mem (.state first) value (.state slot)) = _
    by_cases hslot : slot = first
    · subst hslot
      rw [update_self, ite_self, if_pos (by omega)]
    · rw [update_of_ne (by simpa using hslot)]
      exact if_congr (by omega) rfl rfl

theorem run_stampSlots_generation (slot first generation incarnation slot' n : Nat)
    (mem : Mem Addr) :
    ((stampSlots first generation incarnation slot' n : ArenaM g Unit).run mem).2
        (.generation slot) =
      if slot' ≤ slot ∧ slot < slot' + n then generation else mem (.generation slot) := by
  induction n generalizing slot' mem with
  | zero => rw [if_neg (by omega)]; rfl
  | succ n ih =>
    simp only [stampSlots, Prog.run_bind, run_store, ih]
    by_cases hslot : slot = slot'
    · subst hslot
      rw [if_pos (c := _ ∧ slot < slot + (n + 1)) (by omega), if_neg (by omega)]
      simp
    · rw [update_of_ne (by simp), update_of_ne (by simp), update_of_ne (by simp),
        update_of_ne (by simpa using hslot), update_of_ne (by simp)]
      exact if_congr (by omega) rfl rfl

/-- Everything but the states of slots. -/
def Addr.Stateless (a : Addr) : Prop := ∀ slot, a ≠ .state slot

theorem within_stampSlots (first generation incarnation slot n : Nat) :
    (stampSlots first generation incarnation slot n : ArenaM g Unit).Within Addr.Stateless := by
  induction n generalizing slot with
  | zero => exact .ret _
  | succ n ih =>
    exact (within_store (by simp [Addr.Stateless]) _).bind fun _ =>
      (within_store (by simp [Addr.Stateless]) _).bind fun _ =>
      (within_store (by simp [Addr.Stateless]) _).bind fun _ =>
      (within_store (by simp [Addr.Stateless]) _).bind fun _ =>
      (within_store (by simp [Addr.Stateless]) _).bind fun _ => ih _

theorem within_nextGeneration : (nextGeneration : ArenaM g Nat).Within Addr.Stateless := by
  refine (within_fetchAdd (by simp [Addr.Stateless]) _ _).bind fun generation => ?_
  split
  · exact within_fetchAdd (by simp [Addr.Stateless]) _ _
  · exact .ret _

theorem run_runOf {generation : Nat}
    (h : ∀ slot, first ≤ slot → slot < first + n → mem (.generation slot) = generation) :
    (runOf generation first n : ArenaM g Bool).run mem = (true, mem) := by
  induction n generalizing first with
  | zero => rfl
  | succ n ih =>
    rw [runOf, run_load_bind, if_pos (h first (by omega) (by omega))]
    exact ih fun slot hle hlt => h slot (by omega) (by omega)

theorem run_runReserved
    (h : ∀ slot, first ≤ slot → slot < first + n → mem (.state slot) = slotReserved) :
    (runReserved first n : ArenaM g Bool).run mem = (true, mem) := by
  induction n generalizing first with
  | zero => rfl
  | succ n ih =>
    rw [runReserved, run_load_bind, if_pos (h first (by omega) (by omega))]
    exact ih fun slot hle hlt => h slot (by omega) (by omega)

variable {p : Process g} {payloadLen count : Nat} {publication : Publication g}

def Publication.Ready (publication : Publication g) (mem : Mem Addr) : Prop :=
  ∀ slot, publication.first ≤ slot → slot < publication.first + publication.count →
    mem (.state slot) = slotReserved ∧ mem (.generation slot) = publication.generation

theorem run_stamped (first n incarnation : Nat) (mem : Mem Addr) (hle : first ≤ slot)
    (hlt : slot < first + n) :
    let minted := (nextGeneration : ArenaM g Nat).run
      ((setStates slotReserved first n : ArenaM g Unit).run mem).2
    let stamped := (stampSlots first minted.1 incarnation first n : ArenaM g Unit).run minted.2
    stamped.2 (.state slot) = slotReserved ∧ stamped.2 (.generation slot) = minted.1 := by
  intro minted stamped
  have hpainted := run_setStates_state (g := g) slot slotReserved first n mem
  have hgeneration := run_stampSlots_generation (g := g) slot first minted.1 incarnation first n
    minted.2
  rw [if_pos ⟨hle, hlt⟩] at hpainted hgeneration
  refine ⟨?_, hgeneration⟩
  calc stamped.2 (.state slot) = minted.2 (.state slot) :=
        (within_stampSlots first minted.1 incarnation first n).run_eq _ fun h => h slot rfl
    _ = _ := within_nextGeneration.run_eq _ fun h => h slot rfl
    _ = slotReserved := hpainted

theorem run_reserveSlots (h : ((p.reserveSlots payloadLen count).run mem).1 = .ok publication) :
    (publication.arena = p ∧ publication.count = count ∧ publication.payloadLen = payloadLen ∧
      ∃ candidate, publication.first = p.node * g.slotsPerNode + candidate ∧
        candidate + count ≤ g.slotsPerNode) ∧
      publication.Ready ((p.reserveSlots payloadLen count).run mem).2 := by
  generalize hrun : (p.reserveSlots payloadLen count).run mem = result at h ⊢
  simp only [Process.reserveSlots, Prog.run_bind, run_acquire, run_mark, run_load] at hrun
  have hfits := fun hint mem => findRun_fits (g := g) (p.node * g.slotsPerNode) hint count
    (List.range g.slotsPerNode) mem
  generalize hfound : (findRun _ _ _ _ : ArenaM g (Option Nat)).run _ = found at hrun
  replace hfits := hfound ▸ hfits _ _
  obtain ⟨_ | candidate, mem'⟩ := found
  · simp only [Prog.run_bind, run_mark, run_release, Prog.run_pure] at hrun
    rw [← hrun] at h
    cases h
  · simp only [Prog.run_bind, run_store, run_release, Prog.run_pure] at hrun
    rw [← hrun] at h ⊢
    cases h
    refine ⟨⟨rfl, rfl, rfl, candidate, rfl, hfits candidate rfl⟩, fun slot hle hlt => ?_⟩
    obtain ⟨hstate, hgeneration⟩ := run_stamped (g := g) _ _ p.incarnation mem' hle hlt
    have hset : ∀ stamped : Mem Addr,
        (setState (p.node * g.slotsPerNode + candidate) slotReserved : ArenaM g Unit).run stamped =
          ((), update stamped (.state (p.node * g.slotsPerNode + candidate)) slotReserved) :=
      fun _ => rfl
    simp only [hset]
    constructor
    · rw [update_of_ne (by simp), update_of_ne (by simp)]
      by_cases hslot : slot = p.node * g.slotsPerNode + candidate
      · rw [hslot, update_self]
      · rw [update_of_ne (by simpa using hslot)]
        exact hstate
    · rw [update_of_ne (by simp), update_of_ne (by simp), update_of_ne (by simp)]
      exact hgeneration

/-- Fill some bytes of a payload and publish it. -/
def Publication.publish (publication : Publication g) : List (Nat × UInt8) → ArenaM g Unit
  | [] => publication.makeLive
  | (offset, value) :: rest => do
    publication.write offset value
    publication.publish rest

theorem run_publish (publication : Publication g) (bytes : List (Nat × UInt8)) (mem : Mem Addr) :
    ((publication.publish bytes).run mem).2 (.state publication.first) = slotLive ∧
      ∀ slot, ((publication.publish bytes).run mem).2 (.generation slot) = mem (.generation slot) ∧
        (slot ≠ publication.first →
          ((publication.publish bytes).run mem).2 (.state slot) = mem (.state slot)) := by
  induction bytes generalizing mem with
  | nil =>
    have hrun : (publication.publish []).run mem =
        ((), update mem (.state publication.first) slotLive) := rfl
    rw [hrun]
    refine ⟨update_self _ _ _, fun slot => ⟨?_, fun hne => ?_⟩⟩
    · dsimp only
      rw [update_of_ne (by simp)]
    · dsimp only
      rw [update_of_ne (by simpa using hne)]
  | cons byte rest ih =>
    obtain ⟨offset, value⟩ := byte
    have hrun : (publication.write offset value).run mem =
        ((), update mem (.byte (publication.first * g.slotSize + offset)) value.toNat) := rfl
    rw [Publication.publish, Prog.run_bind, hrun]
    obtain ⟨hlive, hrest⟩ := ih (update mem _ value.toNat)
    refine ⟨hlive, fun slot => ⟨(hrest slot).1.trans ?_, fun hne => ((hrest slot).2 hne).trans ?_⟩⟩
    · exact update_of_ne (by simp) _ _
    · exact update_of_ne (by simp) _ _

theorem run_read {descriptor : ChunkDescriptor} (hkind : descriptor.arenaKind = g.spec.kind)
    (hwithin : descriptor.Within g) (hlive : mem (.state (descriptor.first g)) = slotLive)
    (hrun : ∀ slot, descriptor.first g ≤ slot → slot < descriptor.first g + descriptor.slotCount →
      mem (.generation slot) = descriptor.allocationGeneration ∧
        (slot ≠ descriptor.first g → mem (.state slot) = slotReserved)) :
    ((p.read descriptor).run mem).1 = .ok ⟨p, descriptor.first g, descriptor.slotCount,
      descriptor.payloadLen, descriptor.allocationGeneration, descriptor⟩ := by
  have hpos := hwithin.2.1
  have hgeneration : (runOf descriptor.allocationGeneration (descriptor.first g)
      descriptor.slotCount : ArenaM g Bool).run mem = (true, mem) :=
    run_runOf fun slot hle hlt => (hrun slot hle hlt).1
  have hreserved : (runReserved (descriptor.first g + 1) (descriptor.slotCount - 1) :
      ArenaM g Bool).run mem = (true, mem) :=
    run_runReserved fun slot hle hlt => (hrun slot (by omega) (by omega)).2 (by omega)
  rw [Process.read, if_neg (not_not.mpr hkind), if_pos hwithin, Process.readRun]
  rw [ChunkDescriptor.first] at hgeneration hreserved hlive
  simp only [Prog.run_bind, hgeneration, hreserved, Bool.not_true, Bool.false_eq_true, if_false,
    Prog.run_pure, run_compareExchange, hlive, BEq.rfl, if_true, run_mark]
  rfl

/-- A descriptor denotes what was reserved for a payload: its length, first slot and count. -/
structure ChunkDescriptor.Denotes (descriptor : ChunkDescriptor) (publication : Publication g)
    (payloadLen : Nat) : Prop where
  len : descriptor.payloadLen = payloadLen
  first : descriptor.first g = publication.first
  count : descriptor.slotCount = publication.count

theorem requiredSlots_needed (h : requiredSlots g payloadLen = .ok count) :
    0 < payloadLen ∧ (count - 1) * g.slotSize < payloadLen := by
  have hsize := g.size_pos
  unfold requiredSlots at h
  split at h
  · cases h
  dsimp only at h
  split at h
  · cases h
  injection h with h
  have hdiv := Nat.div_mul_le_self (payloadLen + g.slotSize - 1) g.slotSize
  rw [h] at hdiv
  rw [Nat.sub_mul, Nat.one_mul]
  omega

theorem reserved_read (reader : Process g) (bytes : List (Nat × UInt8))
    (h : ((p.reserve payloadLen).run mem).1 = .ok publication) (hlt : payloadLen < 2 ^ 32)
    {descriptor : ChunkDescriptor} (hd : descriptor.toCoordinates = publication.coordinates) :
    descriptor.Denotes publication payloadLen ∧ descriptor.Within g ∧
      ((reader.read descriptor).run
          ((publication.publish bytes).run ((p.reserve payloadLen).run mem).2).2).1 =
        .ok ⟨reader, publication.first, publication.count, payloadLen, publication.generation,
          descriptor⟩ := by
  generalize hrun : (p.reserve payloadLen).run mem = result at h ⊢
  unfold Process.reserve at hrun
  cases hrequired : requiredSlots g payloadLen with
  | error e =>
    rw [hrequired] at hrun
    rw [← hrun] at h
    cases h
  | ok count =>
    rw [hrequired] at hrun
    subst hrun
    obtain ⟨hpos, hcount, hfits⟩ := requiredSlots_ok hrequired
    obtain ⟨hlen, hneeded⟩ := requiredSlots_needed hrequired
    obtain ⟨⟨harena, hn, hpayload, candidate, hfirst, hinside⟩, hready⟩ := run_reserveSlots h
    have hnode : publication.arena.node * g.slotsPerNode + candidate = publication.first := by
      rw [harena, hfirst]
    have hlocal : publication.first % g.slotsPerNode = candidate := by
      rw [hfirst, Nat.mul_add_mod', Nat.mod_eq_of_lt (by omega)]
    have hplaced : publication.Placed := by
      refine ⟨?_, by omega, by omega, ?_⟩
      · rw [← hnode, Nat.mul_comm, Nat.mul_add_div g.lane_pos, Nat.div_eq_of_lt (by omega),
          Nat.add_zero]
      · rw [hn, hpayload]
        exact hfits
    obtain ⟨hd_first, hd_count, hd_generation⟩ := hplaced.coordinates hd
    have hd_len : descriptor.payloadLen = payloadLen := by
      rw [show descriptor.payloadLen = publication.payloadLen % 2 ^ 32 from
        congrArg Coordinates.payloadLen hd, hpayload, Nat.mod_eq_of_lt hlt]
    have hd_kind : descriptor.arenaKind = g.spec.kind := congrArg Coordinates.arenaKind hd
    have hwithin : descriptor.Within g := by
      have hlane := g.lane_lt
      have howner : descriptor.ownerNode = publication.arena.node :=
        congrArg Coordinates.ownerNode hd
      have hfirst : descriptor.firstSlot = publication.first % g.slotsPerNode % 2 ^ 32 :=
        congrArg Coordinates.firstSlot hd
      refine ⟨?_, by omega, ?_, by omega, ?_, ?_⟩
      · rw [howner, Geometry.totalSlots, Nat.mul_div_cancel _ g.lane_pos]
        exact publication.arena.node.isLt
      · rw [hfirst, hlocal, hd_count, hn, Nat.mod_eq_of_lt (by omega)]
        exact hinside
      · rw [hd_len, hd_count, hn]
        exact hfits
      · rw [hd_len, hd_count, hn]
        omega
    refine ⟨⟨hd_len, hd_first, hd_count⟩, hwithin, ?_⟩
    obtain ⟨hlive, hkept⟩ := run_publish publication bytes
      ((p.reserveSlots payloadLen count).run mem).2
    rw [run_read hd_kind hwithin]
    · rw [hd_first, hd_count, hd_len, hd_generation]
    · rw [hd_first]
      exact hlive
    · rw [hd_first, hd_count, hd_generation]
      intro slot hle hlt
      obtain ⟨hstate, hgeneration⟩ := hready slot hle hlt
      exact ⟨(hkept slot).1.trans hgeneration, fun hne => ((hkept slot).2 hne).trans hstate⟩

end

/-- Plans are exact, and so is what a reservation of the payload puts into a descriptor, for just
the payloads whose length a descriptor has room for. -/
theorem chunks_exact_iff {g : Geometry} {mem : Mem Addr} {p : Process g} {payloadLen : Nat}
    {publication : Publication g}
    (h : ((p.reserve payloadLen).run mem).1 = .ok publication) (exchange : StreamId) (flow : Flow)
    (chunkId : Nat) (reader : Process g) (bytes : List (Nat × UInt8)) :
    let descriptor : ChunkDescriptor := { publication.coordinates with exchange, flow, chunkId }
    g.spec.PlansExact ∧ descriptor.Denotes publication payloadLen ∧ descriptor.Within g ∧
        ((reader.read descriptor).run
            ((publication.publish bytes).run ((p.reserve payloadLen).run mem).2).2).1 =
          .ok ⟨reader, publication.first, publication.count, payloadLen, publication.generation,
            descriptor⟩ ↔
      payloadLen < 2 ^ 32 := by
  intro descriptor
  refine ⟨fun hall => ?_, fun hlt => ⟨plans_exact g, reserved_read reader bytes h hlt rfl⟩⟩
  rw [← hall.2.1.len]
  exact Nat.mod_lt _ (by decide)

theorem chunks_exact_iff_oneByte :
    ((producer.reserve 1).run arenaWords).1 = .ok firstPublication ∧
      ((producer.read firstDescriptor).run
        ((firstPublication.publish [(0, 7)]).run ((producer.reserve 1).run arenaWords).2).2).1 =
        .ok firstChunk :=
  have h : ((producer.reserve 1).run arenaWords).1 = .ok firstPublication := rfl
  ⟨h, ((chunks_exact_iff h ⟨1, 0, 0, 1⟩ .aToB 1 producer [(0, 7)]).mpr (by decide)).2.2.2⟩

theorem twoSlots_valid : (⟨2, 2, 2 ^ 31⟩ : PayloadArenaSpec).validate = .ok () := by decide

/-- Two slots of `2 ^ 31` bytes. -/
def twoSlots : Geometry := ⟨⟨2, 2, 2 ^ 31⟩, 1, twoSlots_valid, one_lt_u16⟩

def wideProducer : Process twoSlots := ⟨⟨0, by decide⟩, 1⟩

def widePublication : Publication twoSlots := ⟨wideProducer, 0, 2, 2 ^ 32, 1⟩

def wideDescriptor : ChunkDescriptor :=
  { widePublication.coordinates with exchange := ⟨1, 0, 0, 1⟩, flow := .aToB, chunkId := 1 }

/-- All the bytes of a lane of `2 ^ 32` are reserved.  The descriptor has a length of zero, and the
read of it is refused. -/
theorem whole_lane_refused :
    ((wideProducer.reserve (2 ^ 32)).run arenaWords).1 = .ok widePublication ∧
      wideDescriptor.payloadLen = 0 ∧ ¬wideDescriptor.Denotes widePublication (2 ^ 32) ∧
      ((wideProducer.read wideDescriptor).run ((widePublication.publish []).run
        ((wideProducer.reserve (2 ^ 32)).run arenaWords).2).2).1 =
        .error (.malformed "chunk descriptor is outside its payload lane") :=
  ⟨rfl, rfl, fun h => absurd h.len (by decide), rfl⟩

end OrbitExchange
