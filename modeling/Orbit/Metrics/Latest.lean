import Mathlib.Data.Prod.Lex
import Orbit.Ring.Backings
import Orbit.Table.Collect

/-! Metrics snapshots over a ring.  A collector walks the retained frames of a lane from the newest
back, and keeps a sample for each node or for each key. -/

namespace OrbitMetrics

open OrbitRing OrbitRing.Backings Orbit.Table Option
open List hiding Lex

/-- A kind of snapshot: how a payload is decoded, and what a snapshot is of. -/
structure OrbitMetricSnapshot (T K : Type) where
  decode : List UInt8 → Option T
  nodeId : T → UInt16
  capturedAtUnixSecs : T → Nat
  metricKey : T → K

/-- A decoded snapshot, with the id of the frame that carried it. -/
structure OrbitMetricSample (T : Type) where
  id : Nat
  snapshot : T
  deriving DecidableEq

section

variable {T K : Type} [DecidableEq K] (r : RingSpec) (ids : NetIds)
  (family : OrbitMetricSnapshot T K) (fleetCapacity : UInt16) (s : Ring)

abbrev Samples (K T : Type) := KeyMap K (OrbitMetricSample T)

/-- The counters of the walk: `head - 1 - i` for every `i` below both head and capacity. -/
def counters (head capacity : Nat) : List Nat :=
  (range (min head capacity)).map fun i => head - 1 - i

/-- The sample at a counter, unless its frame is missing or malformed. -/
def sampleAt (lane : RingLane) (counter : Nat) : Option (OrbitMetricSample T) := do
  let frame ← lane.readAt r counter
  let snapshot ← family.decode frame.payload
  return ⟨frame.id, snapshot⟩

/-- The walk over a shared ring.  It ends early when there are `expected` samples, and with
`expected` at zero it does not. -/
def walk {Q : Type} [DecidableEq Q] (key : T → Q) (expected : Nat) (lane : RingLane) :
    List Nat → Samples Q T → Samples Q T
  | [], samples => samples
  | counter :: rest, samples =>
    match sampleAt r family lane counter with
    | none => if counter = 0 then samples else walk key expected lane rest samples
    | some sample =>
      let samples := orInsert (key sample.snapshot) sample samples
      if expected > 0 ∧ samples.keys.length ≥ expected then samples
      else if counter = 0 then samples
      else walk key expected lane rest samples

/-- The first sample of a lane whose snapshot names `node`. -/
def findNode (lane : RingLane) (node : UInt16) : List Nat → Option (OrbitMetricSample T)
  | [] => none
  | counter :: rest =>
    match sampleAt r family lane counter with
    | none => findNode lane node rest
    | some sample =>
      if family.nodeId sample.snapshot ≠ node then findNode lane node rest else some sample

/-- `0..fleet_capacity`. -/
def nodes : List UInt16 := (range fleetCapacity.toNat).map UInt16.ofNat

def laneOf (node : UInt16) : RingLane := s.lanes node.toNat

/-- The body of the loop of `latest_by_node_lanes`. -/
def visitNode (samples : Samples UInt16 T) (node : UInt16) : Samples UInt16 T :=
  match findNode r family (laneOf s node) node (counters (laneOf s node).writePos r.capacity) with
  | none => samples
  | some sample => samples.insert (family.nodeId sample.snapshot) sample

def latestByNodeLanes : Samples UInt16 T :=
  (nodes fleetCapacity).foldl (visitNode r family s) ∅

/-- The tuples of capture time, node and counter are compared one part after the other. -/
def sampleIsNewer (candidate current : OrbitMetricSample T) : Bool :=
  let time := family.capturedAtUnixSecs candidate.snapshot
  let timeCurrent := family.capturedAtUnixSecs current.snapshot
  timeCurrent < time ∨ timeCurrent = time ∧ (ids.node current.id < ids.node candidate.id ∨
    ids.node current.id = ids.node candidate.id ∧ ids.counter current.id < ids.counter candidate.id)

/-- The walk of `latest_by_key_lanes` over one lane. -/
def keepNewer (lane : RingLane) : List Nat → Samples K T → Samples K T
  | [], samples => samples
  | counter :: rest, samples =>
    match sampleAt r family lane counter with
    | none => keepNewer lane rest samples
    | some sample =>
      keepNewer lane rest
        (insertIfNewer (sampleIsNewer ids family) (family.metricKey sample.snapshot) sample samples)

/-- `latest_by_key_lanes`, with the lanes in the order of `visited`. -/
def latestByKeyOf (visited : List UInt16) : Samples K T :=
  visited.foldl (fun samples node =>
    keepNewer r ids family (laneOf s node) (counters (laneOf s node).writePos r.capacity) samples) ∅

def latestByKeyLanes : Samples K T := latestByKeyOf r ids family s (nodes fleetCapacity)

def latestByNode : Samples UInt16 T :=
  if r.topology = .perNode then latestByNodeLanes r family fleetCapacity s
  else if (s.lanes 0).writePos = 0 then ∅
  else walk r family family.nodeId fleetCapacity.toNat (s.lanes 0)
    (counters (s.lanes 0).writePos r.capacity) ∅

def latestByKey : Samples K T :=
  if r.topology = .perNode then latestByKeyLanes r ids family fleetCapacity s
  else if (s.lanes 0).writePos = 0 then ∅
  else walk r family family.metricKey 0 (s.lanes 0) (counters (s.lanes 0).writePos r.capacity) ∅

/-- A lane retains the sample of a frame that is among the last of its capacity. -/
def Retained (lane : RingLane) (counter : Nat) (sample : OrbitMetricSample T) : Prop :=
  counter < lane.writePos ∧ lane.writePos ≤ counter + r.capacity ∧
    sampleAt r family lane counter = some sample

/-- The sample of `k` at the highest counter. -/
def Newest {Q : Type} (key : T → Q) (lane : RingLane) (k : Q) (sample : OrbitMetricSample T) :
    Prop :=
  key sample.snapshot = k ∧ ∃ counter, Retained r family lane counter sample ∧
    ∀ counter' other, Retained r family lane counter' other → key other.snapshot = k →
      counter' ≤ counter

def retained (lane : RingLane) : List (OrbitMetricSample T) :=
  (counters lane.writePos r.capacity).filterMap (sampleAt r family lane)

end

section

variable {T K Q : Type} [DecidableEq Q] {r : RingSpec} {ids : NetIds}
  {family : OrbitMetricSnapshot T K} {fleetCapacity : UInt16} {s : Ring} {lane : RingLane}
  {key : T → Q} {k : Q} {sample : OrbitMetricSample T} {head capacity counter : Nat}

theorem mem_counters :
    counter ∈ counters head capacity ↔ counter < head ∧ head ≤ counter + capacity := by
  simp only [counters, List.mem_map, mem_range, Nat.lt_min]
  constructor
  · rintro ⟨i, ⟨hhead, hcapacity⟩, rfl⟩
    omega
  · intro h
    exact ⟨head - 1 - counter, by omega, by omega⟩

theorem counters_sorted (head capacity : Nat) : (counters head capacity).Pairwise (· > ·) := by
  refine pairwise_map.mpr (pairwise_lt_range.imp_of_mem fun {i j} hi hj hlt => ?_)
  have hi' := mem_range.mp hi
  have hj' := mem_range.mp hj
  omega

theorem mem_retained : sample ∈ retained r family lane ↔
    ∃ counter, Retained r family lane counter sample := by
  rw [retained, mem_filterMap]
  constructor
  · rintro ⟨counter, hmem, hsample⟩
    obtain ⟨hlt, hle⟩ := mem_counters.mp hmem
    exact ⟨counter, hlt, hle, hsample⟩
  · rintro ⟨counter, hlt, hle, hsample⟩
    exact ⟨counter, mem_counters.mpr ⟨hlt, hle⟩, hsample⟩

theorem find?_sorted {list : List Nat} (hsorted : list.Pairwise (· > ·)) :
    (list.filterMap (sampleAt r family lane)).find? (fun sample => key sample.snapshot = k) =
        some sample ↔
      key sample.snapshot = k ∧ ∃ counter ∈ list, sampleAt r family lane counter = some sample ∧
        ∀ counter' ∈ list, ∀ other, sampleAt r family lane counter' = some other →
          key other.snapshot = k → counter' ≤ counter := by
  induction list with
  | nil =>
    refine iff_of_false (fun h => ?_) fun h => ?_
    · cases h
    · obtain ⟨-, counter, hmem, -⟩ := h
      cases hmem
  | cons first rest ih =>
    obtain ⟨hfirst, hrest⟩ := pairwise_cons.mp hsorted
    cases hat : sampleAt r family lane first with
    | none =>
      rw [filterMap_cons_none hat, ih hrest]
      refine and_congr_right fun _ => ⟨?_, ?_⟩
      · rintro ⟨counter, hmem, hsample, hnewest⟩
        refine ⟨counter, mem_cons_of_mem _ hmem, hsample,
          fun counter' hmem' other hother => ?_⟩
        rcases mem_cons.mp hmem' with rfl | hmem'
        · rw [hat] at hother
          cases hother
        · exact hnewest counter' hmem' other hother
      · rintro ⟨counter, hmem, hsample, hnewest⟩
        rcases mem_cons.mp hmem with rfl | hmem
        · rw [hat] at hsample
          cases hsample
        · exact ⟨counter, hmem, hsample, fun counter' hmem' =>
            hnewest counter' (mem_cons_of_mem _ hmem')⟩
    | some found =>
      rw [filterMap_cons_some hat, find?_cons]
      by_cases hkey : key found.snapshot = k
      · rw [decide_eq_true hkey]
        constructor
        · intro h
          obtain rfl := Option.some.inj h
          refine ⟨hkey, first, mem_cons_self, hat, fun counter' hmem' _ _ _ => ?_⟩
          rcases mem_cons.mp hmem' with rfl | hmem'
          · exact Nat.le_refl _
          · exact Nat.le_of_lt (hfirst counter' hmem')
        · rintro ⟨-, counter, hmem, hsample, hnewest⟩
          have hle := hnewest first mem_cons_self found hat hkey
          rcases mem_cons.mp hmem with rfl | hmem
          · exact hat.symm.trans hsample
          · exact absurd (hfirst counter hmem) (Nat.not_lt.mpr hle)
      · rw [decide_eq_false hkey]
        refine (ih hrest).trans (and_congr_right fun hsampleKey => ⟨?_, ?_⟩)
        · rintro ⟨counter, hmem, hsample, hnewest⟩
          refine ⟨counter, mem_cons_of_mem _ hmem, hsample,
            fun counter' hmem' other hother hotherKey => ?_⟩
          rcases mem_cons.mp hmem' with rfl | hmem'
          · rw [hat] at hother
            exact absurd (Option.some.inj hother ▸ hotherKey) hkey
          · exact hnewest counter' hmem' other hother hotherKey
        · rintro ⟨counter, hmem, hsample, hnewest⟩
          rcases mem_cons.mp hmem with rfl | hmem
          · rw [hat] at hsample
            exact absurd (Option.some.inj hsample ▸ hsampleKey) hkey
          · exact ⟨counter, hmem, hsample, fun counter' hmem' =>
              hnewest counter' (mem_cons_of_mem _ hmem')⟩

theorem find?_retained :
    (retained r family lane).find? (fun sample => key sample.snapshot = k) = some sample ↔
      Newest r family key lane k sample := by
  rw [retained, find?_sorted (counters_sorted _ _)]
  refine and_congr_right fun _ => ⟨?_, ?_⟩
  · rintro ⟨counter, hmem, hsample, hnewest⟩
    obtain ⟨hlt, hle⟩ := mem_counters.mp hmem
    exact ⟨counter, ⟨hlt, hle, hsample⟩, fun counter' other h =>
      hnewest counter' (mem_counters.mpr ⟨h.1, h.2.1⟩) other h.2.2⟩
  · rintro ⟨counter, ⟨hlt, hle, hsample⟩, hnewest⟩
    refine ⟨counter, mem_counters.mpr ⟨hlt, hle⟩, hsample, fun counter' hmem other hother => ?_⟩
    obtain ⟨hlt', hle'⟩ := mem_counters.mp hmem
    exact hnewest counter' other ⟨hlt', hle', hother⟩

theorem walk_eq {expected : Nat} {list : List Nat} (hsorted : list.Pairwise (· > ·))
    (samples : Samples Q T) :
    walk r family key expected lane list samples =
      collectFirst (fun sample => key sample.snapshot) expected
        (list.filterMap (sampleAt r family lane)) samples := by
  induction list generalizing samples with
  | nil => rfl
  | cons first rest ih =>
    obtain ⟨hfirst, hrest⟩ := pairwise_cons.mp hsorted
    -- the counters go down, so the walk is at its end when it is at zero
    have hzero : first = 0 → rest = [] := by
      intro hfirst'
      refine eq_nil_iff_forall_not_mem.mpr fun counter hmem => ?_
      exact absurd (hfirst' ▸ hfirst counter hmem) (Nat.not_lt_zero counter)
    cases hat : sampleAt r family lane first with
    | none =>
      rw [filterMap_cons_none hat, ← ih hrest]
      simp only [walk, hat]
      split
      next hfirst' => rw [hzero hfirst', walk]
      next => rfl
    | some found =>
      rw [filterMap_cons_some hat, collectFirst, ← ih hrest]
      simp only [walk, hat]
      split
      next => rfl
      next =>
        split
        next hfirst' => rw [hzero hfirst', walk]
        next => rfl

/-- A map has, for every key that a retained frame of the lane names, its newest sample, and nothing
else. -/
def NewestOfEach (r : RingSpec) (family : OrbitMetricSnapshot T K) (key : T → Q) (lane : RingLane)
    (samples : Samples Q T) : Prop :=
  ∀ k sample, samples.lookup k = some sample ↔ Newest r family key lane k sample

def namedKeys (r : RingSpec) (family : OrbitMetricSnapshot T K) (key : T → Q) (lane : RingLane) :
    Finset Q :=
  keysOf (fun sample => key sample.snapshot) (retained r family lane)

theorem newestOfEach_walk {expected : Nat} :
    NewestOfEach r family key lane
        (walk r family key expected lane (counters lane.writePos r.capacity) ∅) ↔
      expected = 0 ∨ (namedKeys r family key lane).card ≤ expected := by
  rw [walk_eq (counters_sorted _ _), namedKeys, retained, ← collectFirst_complete]
  refine forall_congr' fun k => ?_
  rw [Option.ext_iff]
  exact forall_congr' fun sample => iff_congr Iff.rfl find?_retained.symm

theorem walk_empty {expected : Nat} :
    (if lane.writePos = 0 then ∅
      else walk r family key expected lane (counters lane.writePos r.capacity) ∅) =
      walk r family key expected lane (counters lane.writePos r.capacity) ∅ := by
  split
  next hhead =>
    have hnone : counters lane.writePos r.capacity = [] := by
      rw [hhead, counters, Nat.zero_min, range_zero, map_nil]
    rw [hnone, walk]
  next => rfl

theorem findNode_eq {node : UInt16} {list : List Nat} :
    findNode r family lane node list =
      (list.filterMap (sampleAt r family lane)).find? fun sample =>
        family.nodeId sample.snapshot = node := by
  induction list with
  | nil => rfl
  | cons first rest ih =>
    rw [findNode]
    cases hat : sampleAt r family lane first with
    | none => rw [filterMap_cons_none hat, ← ih]
    | some found =>
      rw [filterMap_cons_some hat, find?_cons]
      by_cases hnode : family.nodeId found.snapshot = node
      · rw [decide_eq_true hnode]
        exact if_neg (not_not.mpr hnode)
      · rw [decide_eq_false hnode, ← ih]
        exact if_pos hnode

theorem mem_nodes {node : UInt16} : node ∈ nodes fleetCapacity ↔ node < fleetCapacity := by
  rw [nodes, List.mem_map, UInt16.lt_iff_toNat_lt]
  constructor
  · rintro ⟨i, hi, rfl⟩
    have hlt := mem_range.mp hi
    rwa [UInt16.toNat_ofNat_of_lt' (Nat.lt_trans hlt fleetCapacity.toNat_lt)]
  · intro hlt
    exact ⟨node.toNat, mem_range.mpr hlt, UInt16.ofNat_toNat⟩

theorem lookup_visitNode (samples : Samples UInt16 T) (first node : UInt16) :
    (visitNode r family s samples first).lookup node =
      (if node = first then
        findNode r family (laneOf s node) node (counters (laneOf s node).writePos r.capacity)
      else none).or (samples.lookup node) := by
  unfold visitNode
  split
  next hnone =>
    split
    next heq => rw [heq, hnone, none_or]
    next => rw [none_or]
  next sample hfound =>
    have hnode : family.nodeId sample.snapshot = first := by
      have hfind := hfound
      rw [findNode_eq] at hfind
      have hnamed := find?_some hfind
      exact of_decide_eq_true hnamed
    split
    next heq => rw [heq, hfound, hnode, AList.lookup_insert, some_or]
    next hne => rw [hnode, AList.lookup_insert_ne hne, none_or]

theorem lookup_visitNodes {visited : List UInt16} (samples : Samples UInt16 T) (node : UInt16) :
    (visited.foldl (visitNode r family s) samples).lookup node =
      (if node ∈ visited then
        findNode r family (laneOf s node) node (counters (laneOf s node).writePos r.capacity)
      else none).or (samples.lookup node) := by
  induction visited generalizing samples with
  | nil => rw [if_neg not_mem_nil, none_or, foldl_nil]
  | cons first rest ih =>
    rw [foldl_cons, ih, lookup_visitNode, ← Option.or_assoc]
    congr 1
    by_cases heq : node = first
    · rw [if_pos heq, if_pos (mem_cons.mpr (.inl heq))]
      split
      next => rw [Option.or_self]
      next => rw [none_or]
    · rw [if_neg heq, or_none]
      simp only [mem_cons, heq, false_or]

end

section

variable {T K : Type} [DecidableEq K] {r : RingSpec} {ids : NetIds}
  {family : OrbitMetricSnapshot T K} {fleetCapacity : UInt16} {s : Ring} {lane : RingLane}
  {k : K} {sample : OrbitMetricSample T}

def rank (ids : NetIds) (family : OrbitMetricSnapshot T K) (sample : OrbitMetricSample T) :
    Lex (Nat × Lex (Nat × Nat)) :=
  toLex (family.capturedAtUnixSecs sample.snapshot,
    toLex (ids.node sample.id, ids.counter sample.id))

omit [DecidableEq K] in
theorem sampleIsNewer_iff (candidate current : OrbitMetricSample T) :
    sampleIsNewer ids family candidate current = true ↔
      rank ids family current < rank ids family candidate := by
  rw [rank, rank, Prod.Lex.toLex_lt_toLex, Prod.Lex.toLex_lt_toLex]
  exact decide_eq_true_iff

theorem keepNewer_eq {list : List Nat} (samples : Samples K T) :
    keepNewer r ids family lane list samples =
      collectGreatest (sampleIsNewer ids family) (fun sample => family.metricKey sample.snapshot)
        (list.filterMap (sampleAt r family lane)) samples := by
  induction list generalizing samples with
  | nil => rfl
  | cons first rest ih =>
    rw [keepNewer]
    cases hat : sampleAt r family lane first with
    | none => rw [filterMap_cons_none hat, ← ih]
    | some found =>
      rw [filterMap_cons_some hat, collectGreatest, foldl_cons]
      exact ih _

/-- The lanes of `visited` retain a sample of the key. -/
def RetainedIn (r : RingSpec) (family : OrbitMetricSnapshot T K) (s : Ring) (visited : List UInt16)
    (k : K) (sample : OrbitMetricSample T) : Prop :=
  family.metricKey sample.snapshot = k ∧
    ∃ node ∈ visited, ∃ counter, Retained r family (laneOf s node) counter sample

/-- A map has, for every key that a retained frame of the lanes names, a sample that no other
exceeds. -/
structure GreatestOfEach (r : RingSpec) (ids : NetIds) (family : OrbitMetricSnapshot T K) (s : Ring)
    (visited : List UInt16) (samples : Samples K T) : Prop where
  keys : ∀ k, k ∈ samples ↔ ∃ sample, RetainedIn r family s visited k sample
  greatest : ∀ k sample, samples.lookup k = some sample →
    RetainedIn r family s visited k sample ∧
      ∀ other, RetainedIn r family s visited k other →
        rank ids family other ≤ rank ids family sample

theorem latestByKeyOf_greatest (visited : List UInt16) :
    GreatestOfEach r ids family s visited (latestByKeyOf r ids family s visited) := by
  have hcollect : Greatest (rank ids family) (fun sample => family.metricKey sample.snapshot)
      (visited.flatMap fun node => retained r family (laneOf s node))
      (latestByKeyOf r ids family s visited) := by
    have hrun : ∀ (rest : List UInt16) (seen : List (OrbitMetricSample T)) (samples : Samples K T),
        Greatest (rank ids family) (fun sample => family.metricKey sample.snapshot) seen samples →
        Greatest (rank ids family) (fun sample => family.metricKey sample.snapshot)
          (seen ++ rest.flatMap fun node => retained r family (laneOf s node))
          (rest.foldl (fun samples node => keepNewer r ids family (laneOf s node)
            (counters (laneOf s node).writePos r.capacity) samples) samples) := by
      intro rest
      induction rest with
      | nil =>
        intro seen samples h
        rwa [flatMap_nil, append_nil]
      | cons node rest ih =>
        intro seen samples h
        rw [flatMap_cons, ← append_assoc, foldl_cons, keepNewer_eq]
        exact ih _ _ (h.collect sampleIsNewer_iff _)
    exact hrun visited [] ∅ Greatest.empty
  have hmem : ∀ k sample,
      (sample ∈ visited.flatMap (fun node => retained r family (laneOf s node)) ∧
        family.metricKey sample.snapshot = k) ↔ RetainedIn r family s visited k sample := by
    intro k sample
    rw [mem_flatMap, RetainedIn, and_comm]
    refine and_congr_right fun _ => exists_congr fun node => and_congr_right fun _ => mem_retained
  refine ⟨fun k => ?_, fun k sample hlook => ?_⟩
  · rw [hcollect.keys]
    exact exists_congr fun sample => hmem k sample
  · obtain ⟨hin, hkey, hgreatest⟩ := hcollect.greatest k sample hlook
    exact ⟨(hmem k sample).mp ⟨hin, hkey⟩, fun other hother =>
      hgreatest other ((hmem k other).mpr hother).1 ((hmem k other).mpr hother).2⟩

/-- Every frame carries the id of its place. -/
def Minted (r : RingSpec) (ids : NetIds) (family : OrbitMetricSnapshot T K) (s : Ring) : Prop :=
  ∀ node counter sample, Retained r family (laneOf s node) counter sample →
    ids.node sample.id = node.toNat ∧ ids.counter sample.id = counter

omit [DecidableEq K] in
theorem Minted.eq_of_rank (h : Minted r ids family s) {visited visited' : List UInt16}
    {sample other : OrbitMetricSample T} (hsample : RetainedIn r family s visited k sample)
    (hother : RetainedIn r family s visited' k other)
    (heq : rank ids family sample = rank ids family other) : sample = other := by
  obtain ⟨-, node, -, counter, hretained⟩ := hsample
  obtain ⟨-, node', -, counter', hretained'⟩ := hother
  obtain ⟨hnode, hcounter⟩ := h node counter sample hretained
  obtain ⟨hnode', hcounter'⟩ := h node' counter' other hretained'
  have hid := (Prod.ext_iff.mp (toLex.injective (Prod.ext_iff.mp (toLex.injective heq)).2))
  obtain rfl : node = node' := UInt16.toNat_inj.mp (hnode.symm.trans (hid.1.trans hnode'))
  obtain rfl : counter = counter' := hcounter.symm.trans (hid.2.trans hcounter')
  exact Option.some.inj (hretained.2.2.symm.trans hretained'.2.2)

theorem Minted.same (h : Minted r ids family s) {visited visited' : List UInt16}
    (hperm : visited.Perm visited') (k : K) :
    (latestByKeyOf r ids family s visited).lookup k =
      (latestByKeyOf r ids family s visited').lookup k := by
  have hin : ∀ sample, RetainedIn r family s visited k sample ↔
      RetainedIn r family s visited' k sample := by
    intro sample
    refine and_congr_right fun _ => exists_congr fun node => ?_
    rw [hperm.mem_iff]
  have hone := @latestByKeyOf_greatest T K _ r ids family s visited
  have hother := @latestByKeyOf_greatest T K _ r ids family s visited'
  cases hlook : (latestByKeyOf r ids family s visited).lookup k with
  | none =>
    rw [AList.lookup_eq_none, hone.keys] at hlook
    have hnot : k ∉ latestByKeyOf r ids family s visited' := by
      intro hmem
      obtain ⟨sample, hsample⟩ := (hother.keys k).mp hmem
      exact hlook ⟨sample, (hin sample).mpr hsample⟩
    rw [AList.lookup_eq_none.mpr hnot]
  | some sample =>
    obtain ⟨hsample, hgreatest⟩ := hone.greatest k sample hlook
    have hmem := (hother.keys k).mpr ⟨sample, (hin sample).mp hsample⟩
    obtain ⟨found, hfound⟩ := isSome_iff_exists.mp (AList.lookup_isSome.mpr hmem)
    obtain ⟨hfound', hgreatest'⟩ := hother.greatest k found hfound
    have heq : rank ids family sample = rank ids family found :=
      le_antisymm (hgreatest' sample ((hin sample).mp hsample))
        (hgreatest found ((hin found).mpr hfound'))
    rw [hfound, h.eq_of_rank hsample hfound' heq]

/-- On a shared ring the samples of all nodes are found just when the retained frames name no more
nodes than the fleet has members; the other walks find the sample of everything that they are asked
for, whatever the ring holds. -/
theorem latest_samples (r : RingSpec) (ids : NetIds) (family : OrbitMetricSnapshot T K)
    (fleetCapacity : UInt16) (s : Ring) :
    (r.topology ≠ .perNode →
      (NewestOfEach r family family.nodeId (s.lanes 0) (latestByNode r family fleetCapacity s) ↔
        fleetCapacity = 0 ∨
          (namedKeys r family family.nodeId (s.lanes 0)).card ≤ fleetCapacity.toNat) ∧
      NewestOfEach r family family.metricKey (s.lanes 0)
        (latestByKey r ids family fleetCapacity s)) ∧
    (r.topology = .perNode →
      (∀ node sample, (latestByNode r family fleetCapacity s).lookup node = some sample ↔
        node < fleetCapacity ∧ Newest r family family.nodeId (laneOf s node) node sample) ∧
      GreatestOfEach r ids family s (nodes fleetCapacity)
        (latestByKey r ids family fleetCapacity s) ∧
      ∀ visited : List UInt16, visited.Perm (nodes fleetCapacity) →
        GreatestOfEach r ids family s (nodes fleetCapacity) (latestByKeyOf r ids family s visited) ∧
        (Minted r ids family s → ∀ k, (latestByKeyOf r ids family s visited).lookup k =
          (latestByKey r ids family fleetCapacity s).lookup k)) := by
  refine ⟨fun hshared => ⟨?_, ?_⟩,
    fun hlanes => ⟨fun node sample => ?_, ?_, fun visited hperm => ?_⟩⟩
  · rw [latestByNode, if_neg hshared, walk_empty, newestOfEach_walk, ← UInt16.toNat_inj]
    rfl
  · rw [latestByKey, if_neg hshared, walk_empty, newestOfEach_walk]
    exact .inl rfl
  · rw [latestByNode, if_pos hlanes, latestByNodeLanes, lookup_visitNodes, AList.lookup_empty,
      or_none, findNode_eq]
    split
    next hmem =>
      refine find?_retained.trans ?_
      exact ⟨fun h => ⟨mem_nodes.mp hmem, h⟩, fun h => h.2⟩
    next hnot =>
      refine iff_of_false (fun h => (by cases h)) fun h => ?_
      exact hnot (mem_nodes.mpr h.1)
  · rw [latestByKey, if_pos hlanes]
    exact latestByKeyOf_greatest _
  · have hin : ∀ k sample, RetainedIn r family s visited k sample ↔
        RetainedIn r family s (nodes fleetCapacity) k sample := by
      intro k sample
      refine and_congr_right fun _ => exists_congr fun node => ?_
      rw [hperm.mem_iff]
    have hgreatest := @latestByKeyOf_greatest T K _ r ids family s visited
    refine ⟨⟨fun k => ?_, fun k sample hlook => ?_⟩, fun hminted k => ?_⟩
    · rw [hgreatest.keys]
      exact exists_congr fun sample => hin k sample
    · obtain ⟨hsample, hle⟩ := hgreatest.greatest k sample hlook
      exact ⟨(hin k sample).mp hsample, fun other hother => hle other ((hin k other).mpr hother)⟩
    · rw [latestByKey, if_pos hlanes]
      exact hminted.same hperm k

end

theorem sampleKind_lt : 211 < 2 ^ 8 := by decide

theorem samplePayload_lt : 18 < 2 ^ 32 := by decide

theorem isPowerOfTwo_four : Orbit.Atomic.isPowerOfTwo 4 = true := by decide

def sampleRing : RingSpec where
  kind := 211
  capacity := 4
  payloadCapacity := 18
  topology := .shared
  kind_lt := sampleKind_lt
  capacity_pos := Nat.succ_pos 3
  capacity_pow := isPowerOfTwo_four
  payload_lt := samplePayload_lt

/-- Snapshots of two bytes: the node and the time. -/
def sampleFamily : OrbitMetricSnapshot (UInt8 × UInt8) UInt8 where
  decode
    | [node, capturedAt] => some (node, capturedAt)
    | _ => none
  nodeId snapshot := snapshot.1.toUInt16
  capturedAtUnixSecs snapshot := snapshot.2.toNat
  metricKey snapshot := snapshot.1

/-- The two members of a fleet publish: one for itself, the other for two nodes that it speaks
for. -/
def threeNodes : Ring :=
  [(0, [1, 10]), (1, [2, 11]), (1, [3, 12])].foldl (fun s published =>
    (s.step sampleRing .packed 2 (.write published.1 0 0 published.2)).2) .new

/-- The sample of node 1 is retained, and the walk ends before it. -/
theorem node_dropped :
    (sampleAt sampleRing sampleFamily (threeNodes.lanes 0) 0).map (fun sample => sample.snapshot) =
        some (1, 10) ∧
      (latestByNode sampleRing sampleFamily 2 threeNodes).lookup 1 = none ∧
      ¬NewestOfEach sampleRing sampleFamily sampleFamily.nodeId (threeNodes.lanes 0)
        (latestByNode sampleRing sampleFamily 2 threeNodes) := by
  have hnone : (latestByNode sampleRing sampleFamily 2 threeNodes).lookup 1 = none := by decide
  have hsome : (sampleAt sampleRing sampleFamily (threeNodes.lanes 0) 0) =
      some ⟨NetIds.packed.make 211 0 0, (1, 10)⟩ := by decide
  refine ⟨by rw [hsome]; rfl, hnone, fun hall => ?_⟩
  have hnewest : Newest sampleRing sampleFamily sampleFamily.nodeId (threeNodes.lanes 0) 1
      ⟨NetIds.packed.make 211 0 0, (1, 10)⟩ := by
    refine ⟨by decide, 0, ⟨by decide, by decide, hsome⟩, fun counter other hother hnode => ?_⟩
    obtain ⟨hlt, -, hat⟩ := hother
    have hhead : (threeNodes.lanes 0).writePos = 3 := by decide
    rw [hhead] at hlt
    have hcounter : counter = 0 ∨ counter = 1 ∨ counter = 2 := by omega
    rcases hcounter with rfl | rfl | rfl
    · exact Nat.le_refl 0
    · cases hat
      exact absurd hnode (by decide)
    · cases hat
      exact absurd hnode (by decide)
  rw [(hall _ _).mpr hnewest] at hnone
  cases hnone

end OrbitMetrics
