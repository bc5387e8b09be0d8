import Orbit.Atomic.Sequence
import Orbit.Cache.Arrivals

/-! Convergence of the stores of a fleet: a store that has polled every frame hits with the newest
mutation of the key, unless it was opened between a mutation that passed and an older one. -/

namespace OrbitCache

open Orbit.Atomic List

variable {layout : CacheLayout} {w : World} {cache cache' : Cache} {name key : Key} {choice : Choice}
  {st st' : LocalState} {m d : CacheMutation} {task task' : Task} {id process : Nat} {move : Move}

/-- The mutations that can still reach a store of a process: minted anywhere, before its cursor, or
in the hands of one of its calls. -/
def arriving (w : World) (process : Nat) (cache : Cache) : List CacheMutation :=
  w.tasks.flatMap (fun task => task.stage.minted) ++ (cache.pending ++
    w.tasks.flatMap fun task => if task.process = process then task.stage.fetched else [])

def ahead (w : World) (process : Nat) (cache : Cache) (name : Key) (d : CacheMutation) : Bool :=
  decide (d ∈ cache.pending) ||
    w.tasks.any fun task => decide (task.process = process) && task.stage.brings name d

/-- No `put` that can still arrive is older than a mutation of its key. -/
def latest (w : World) (process : Nat) (cache : Cache) (d : CacheMutation) : Bool :=
  (arriving w process cache).all fun m => !d.outdates m

theorem mem_arriving : m ∈ arriving w process cache ↔
    (∃ task ∈ w.tasks, m ∈ task.stage.minted) ∨ m ∈ cache.pending ∨
      ∃ task ∈ w.tasks, task.process = process ∧ m ∈ task.stage.fetched := by
  rw [arriving, mem_append, mem_append, mem_flatMap, mem_flatMap]
  refine or_congr_right (or_congr_right (exists_congr fun task => and_congr_right fun _ => ?_))
  split
  · rename_i h
    exact (and_iff_right h).symm
  · rename_i h
    exact ⟨fun hm => (nomatch hm), fun hm => absurd hm.1 h⟩

theorem ahead_iff : ahead w process cache name d ↔ d ∈ cache.pending ∨
    ∃ task ∈ w.tasks, task.process = process ∧ task.stage.brings name d := by
  rw [ahead, Bool.or_eq_true_iff, decide_eq_true_iff, any_eq_true]
  refine or_congr_right (exists_congr fun task => and_congr_right fun _ => ?_)
  rw [Bool.and_eq_true_iff, decide_eq_true_iff]

theorem latest_iff : latest w process cache d ↔
    ∀ m ∈ arriving w process cache, d.outdates m = false := by
  rw [latest, all_eq_true]
  refine forall₂_congr fun m _ => ?_
  rw [Bool.not_eq_true_eq_eq_false]

def World.land (w : World) (id : Nat) (task : Task) (move : Move) : World where
  counter := move.counter
  published := w.published ++ move.frame.toList
  bodies := move.bodies
  caches := (w.caches.set task.process move.cache).map (deliver move.frame)
  tasks := w.tasks.set id { task with stage := move.stage }

/-- A step that finds its task and its cache. -/
structure Lands (layout : CacheLayout) (w : World) (id : Nat) (choice : Choice) (task : Task)
    (cache : Cache) : Prop where
  running : w.tasks[id]? = some task
  found : w.caches[task.process]? = some cache
  after : exec layout w (.step id choice) = w.land id task (act layout w cache task.stage choice)

theorem exec_step (layout : CacheLayout) (w : World) (id : Nat) (choice : Choice) :
    exec layout w (.step id choice) = w ∨
      ∃ task cache, Lands layout w id choice task cache := by
  cases htask : w.tasks[id]? with
  | none =>
    left
    rw [exec, htask]
  | some task =>
    cases hcache : w.caches[task.process]? with
    | none =>
      left
      rw [exec, htask]
      dsimp only
      rw [hcache]
    | some cache =>
      refine .inr ⟨task, cache, htask, hcache, ?_⟩
      rw [exec, htask]
      dsimp only
      rw [hcache]
      rfl

theorem land_counter : (w.land id task move).counter = move.counter := rfl

theorem land_cache (h : (w.land id task move).caches[process]? = some cache') :
    (process = task.process ∧ cache' = deliver move.frame move.cache) ∨
      process ≠ task.process ∧
        ∃ cache, w.caches[process]? = some cache ∧ cache' = deliver move.frame cache := by
  rw [World.land, getElem?_map, Option.map_eq_some_iff] at h
  obtain ⟨cache, hcache, rfl⟩ := h
  by_cases hprocess : process = task.process
  · subst hprocess
    have hlt := (List.getElem?_eq_some_iff.mp hcache).1
    rw [length_set] at hlt
    rw [getElem?_set_self hlt] at hcache
    cases hcache
    exact .inl ⟨rfl, rfl⟩
  · rw [getElem?_set_ne (Ne.symm hprocess)] at hcache
    exact .inr ⟨hprocess, cache, hcache, rfl⟩

theorem land_task {i : Nat} (h : (w.land id task move).tasks[i]? = some task') :
    (i = id ∧ task' = { task with stage := move.stage }) ∨ i ≠ id ∧ w.tasks[i]? = some task' := by
  rw [World.land] at h
  dsimp only at h
  by_cases hid : i = id
  · subst hid
    have hlt := (List.getElem?_eq_some_iff.mp h).1
    rw [length_set] at hlt
    rw [getElem?_set_self hlt] at h
    cases h
    exact .inl ⟨rfl, rfl⟩
  · rw [getElem?_set_ne (Ne.symm hid)] at h
    exact .inr ⟨hid, h⟩

theorem mem_land (h : task' ∈ (w.land id task move).tasks) :
    task' = { task with stage := move.stage } ∨ task' ∈ w.tasks :=
  (mem_or_eq_of_mem_set h).symm

theorem land_other (htask : w.tasks[id]? = some task) (h : task' ∈ w.tasks) :
    task' = task ∨ task' ∈ (w.land id task move).tasks := by
  obtain ⟨i, hi⟩ := getElem?_of_mem h
  by_cases hid : i = id
  · subst hid
    rw [htask] at hi
    cases hi
    exact .inl rfl
  · right
    apply mem_of_getElem? (i := i)
    rw [World.land]
    dsimp only
    rw [getElem?_set_ne (Ne.symm hid)]
    exact hi

theorem land_self (htask : w.tasks[id]? = some task) :
    { task with stage := move.stage } ∈ (w.land id task move).tasks :=
  mem_set (List.getElem?_eq_some_iff.mp htask).1 _

theorem mem_deliver {frame : Option CacheMutation} :
    m ∈ (deliver frame cache).pending ↔ m ∈ cache.pending ∨ frame = some m := by
  rw [deliver, mem_append, Option.mem_toList]

theorem mem_published : m ∈ (w.land id task move).published ↔
    m ∈ w.published ∨ move.frame = some m := by
  rw [World.land, mem_append, Option.mem_toList]

/-- Every sequence belongs to one mutation. -/
structure Numbered (w : World) : Prop where
  bounded : ∀ d ∈ w.published, d.revision.sequence ≤ w.counter
  unique : ∀ d ∈ w.published, ∀ d' ∈ w.published,
    d.revision.sequence = d'.revision.sequence → d = d'
  minted : ∀ task ∈ w.tasks, ∀ m ∈ task.stage.minted, m.revision.sequence ≤ w.counter ∧
    ∀ d ∈ w.published, d.revision.sequence ≠ m.revision.sequence
  apart : ∀ (i j : Nat) (a b : Task), w.tasks[i]? = some a → w.tasks[j]? = some b →
    ∀ m ∈ a.stage.minted, ∀ m' ∈ b.stage.minted,
      m.revision.sequence = m'.revision.sequence → i = j

theorem Numbered.quiet (h : Numbered w) (hcounter : move.counter = w.counter)
    (hframe : move.frame = none) (hminted : move.stage.minted = []) :
    Numbered (w.land id task move) := by
  have hpublished : ∀ d ∈ (w.land id task move).published, d ∈ w.published := by
    intro d hd
    rcases mem_published.mp hd with hd | hd
    · exact hd
    · rw [hframe] at hd
      cases hd
  constructor
  · intro d hd
    rw [land_counter, hcounter]
    exact h.bounded d (hpublished d hd)
  · intro d hd d' hd'
    exact h.unique d (hpublished d hd) d' (hpublished d' hd')
  · intro task' htask' m hm
    rcases mem_land htask' with rfl | htask'
    · rw [hminted] at hm
      cases hm
    · rw [land_counter, hcounter]
      obtain ⟨hle, hne⟩ := h.minted task' htask' m hm
      exact ⟨hle, fun d hd => hne d (hpublished d hd)⟩
  · intro i j a b ha hb m hm m' hm'
    rcases land_task ha with ⟨-, rfl⟩ | ⟨-, ha⟩
    · rw [hminted] at hm
      cases hm
    rcases land_task hb with ⟨-, rfl⟩ | ⟨-, hb⟩
    · rw [hminted] at hm'
      cases hm'
    exact h.apart i j a b ha hb m hm m' hm'

theorem Numbered.mint (h : Numbered w) {draft : Draft} (hcounter : move.counter = w.counter + 1)
    (hframe : move.frame = none) (hnext : move.stage = .publish draft (w.counter + 1)) :
    Numbered (w.land id task move) := by
  have hpublished : ∀ d ∈ (w.land id task move).published, d ∈ w.published := by
    intro d hd
    rcases mem_published.mp hd with hd | hd
    · exact hd
    · rw [hframe] at hd
      cases hd
  have hnew : ∀ m ∈ move.stage.minted, m.revision.sequence = w.counter + 1 := by
    intro m hm
    rw [hnext] at hm
    rw [mem_singleton.mp hm, Draft.revision_mutation]
  constructor
  · intro d hd
    have hle := h.bounded d (hpublished d hd)
    rw [land_counter, hcounter]
    omega
  · intro d hd d' hd'
    exact h.unique d (hpublished d hd) d' (hpublished d' hd')
  · intro task' htask' m hm
    rw [land_counter, hcounter]
    rcases mem_land htask' with rfl | htask'
    · rw [hnew m hm]
      refine ⟨Nat.le_refl _, fun d hd => ?_⟩
      have hle := h.bounded d (hpublished d hd)
      omega
    · obtain ⟨hle, hne⟩ := h.minted task' htask' m hm
      exact ⟨by omega, fun d hd => hne d (hpublished d hd)⟩
  · intro i j a b ha hb m hm m' hm' hsame
    rcases land_task ha with ⟨hi, rfl⟩ | ⟨-, ha⟩
    · rcases land_task hb with ⟨hj, rfl⟩ | ⟨-, hb⟩
      · exact hi.trans hj.symm
      · have hle := (h.minted b (mem_of_getElem? hb) m' hm').1
        have hnew := hnew m hm
        omega
    · rcases land_task hb with ⟨hj, rfl⟩ | ⟨-, hb⟩
      · have hle := (h.minted a (mem_of_getElem? ha) m hm).1
        have hnew := hnew m' hm'
        omega
      · exact h.apart i j a b ha hb m hm m' hm' hsame

theorem Numbered.publish (h : Numbered w) (htask : w.tasks[id]? = some task) {draft : Draft}
    {sequence mutationId : Nat} (hbefore : task.stage = .publish draft sequence)
    (hcounter : move.counter = w.counter)
    (hframe : move.frame = some (draft.mutation ⟨sequence, mutationId⟩))
    (hminted : move.stage.minted = []) : Numbered (w.land id task move) := by
  have hmem : draft.mutation ⟨sequence, 0⟩ ∈ task.stage.minted := by
    rw [hbefore]
    exact mem_cons_self
  obtain ⟨hle, hfresh⟩ := h.minted task (mem_of_getElem? htask) _ hmem
  rw [Draft.revision_mutation] at hle hfresh
  have hnew : ∀ d, move.frame = some d → d.revision.sequence = sequence := by
    intro d hd
    rw [hframe] at hd
    rw [← Option.some.inj hd, Draft.revision_mutation]
  constructor
  · intro d hd
    rw [land_counter, hcounter]
    rcases mem_published.mp hd with hd | hd
    · exact h.bounded d hd
    · rw [hnew d hd]
      exact hle
  · intro d hd d' hd' hsame
    rcases mem_published.mp hd with hd | hd
    · rcases mem_published.mp hd' with hd' | hd'
      · exact h.unique d hd d' hd' hsame
      · exact absurd (hsame.trans (hnew d' hd')) (hfresh d hd)
    · rcases mem_published.mp hd' with hd' | hd'
      · exact absurd (hsame.symm.trans (hnew d hd)) (hfresh d' hd')
      · rw [hd] at hd'
        exact Option.some.inj hd'
  · intro task' htask' m hm
    rw [land_counter, hcounter]
    obtain ⟨i, hi⟩ := getElem?_of_mem htask'
    rcases land_task hi with ⟨-, rfl⟩ | ⟨hne, hi⟩
    · rw [hminted] at hm
      cases hm
    · obtain ⟨hle', hother⟩ := h.minted task' (mem_of_getElem? hi) m hm
      refine ⟨hle', fun d hd hsame => ?_⟩
      rcases mem_published.mp hd with hd | hd
      · exact hother d hd hsame
      · refine hne (h.apart i id task' task hi htask m hm _ hmem ?_)
        rw [← hsame, hnew d hd, Draft.revision_mutation]
  · intro i j a b ha hb m hm m' hm'
    rcases land_task ha with ⟨-, rfl⟩ | ⟨-, ha⟩
    · rw [hminted] at hm
      cases hm
    rcases land_task hb with ⟨-, rfl⟩ | ⟨-, hb⟩
    · rw [hminted] at hm'
      cases hm'
    exact h.apart i j a b ha hb m hm m' hm'

theorem Numbered.land (h : Numbered w) (htask : w.tasks[id]? = some task)
    (hnumbers : Numbers w task.stage move) : Numbered (w.land id task move) := by
  cases hnumbers with
  | same counter frame minted => exact h.quiet counter frame minted
  | mint draft counter frame next => exact h.mint counter frame next
  | publish draft sequence mutationId before counter frame minted =>
    exact h.publish htask before counter frame minted

/-- What is on its way was published, and so was what the slots hold. -/
structure Sourced (w : World) : Prop where
  pending : ∀ cache ∈ w.caches, ∀ m ∈ cache.pending, m ∈ w.published
  fetched : ∀ task ∈ w.tasks, ∀ m ∈ task.stage.fetched, m ∈ w.published
  above : ∀ cache ∈ w.caches, ∀ name st, (name, st) ∈ cache.stores → Above st
  slots : ∀ cache ∈ w.caches, ∀ name st, (name, st) ∈ cache.stores →
    ∀ key payload r expiresAtMs, (key, LocalSlot.present payload r expiresAtMs) ∈ st.slots →
      .put name key r expiresAtMs payload ∈ w.published

theorem turns_above {stage stage' : Stage} (h : Turns cache stage stage' name st')
    (habove : ∀ name st, (name, st) ∈ cache.stores → Above st) : Above st' := by
  cases h with
  | kept st mem grows coherent above slots brings => exact above (habove name st mem)
  | lost coherent slots =>
    intro _ _ entry hmem
    rw [slots] at hmem
    cases hmem
  | opened before fresh init =>
    subst init
    exact fun _ _ entry hmem => (nomatch hmem)
  | recovered st floor remaining before after =>
    subst after
    exact fun _ _ entry hmem => (nomatch hmem)

theorem turns_slots {stage stage' : Stage} (h : Turns cache stage stage' name st') {r : CacheRevision}
    {payload : PayloadRef} {expiresAtMs : Option Nat}
    (hmem : (key, .present payload r expiresAtMs) ∈ st'.slots) :
    (∃ st, (name, st) ∈ cache.stores ∧ (key, .present payload r expiresAtMs) ∈ st.slots) ∨
      .put name key r expiresAtMs payload ∈ stage.fetched := by
  cases h with
  | kept st mem grows coherent above slots brings =>
    exact (slots key payload r expiresAtMs hmem).imp_left fun hslot => ⟨st, mem, hslot⟩
  | lost coherent slots =>
    rw [slots] at hmem
    cases hmem
  | opened before fresh init =>
    subst init
    cases hmem
  | recovered st floor remaining before after =>
    subst after
    cases hmem

theorem Sourced.land (h : Sourced w) (hlands : Lands layout w id choice task cache)
    (hmove : move = act layout w cache task.stage choice) : Sourced (w.land id task move) := by
  have hcarries : Carries w cache task.stage move := hmove ▸ act_carries ..
  have hcache := mem_of_getElem? hlands.found
  have htask := mem_of_getElem? hlands.running
  constructor
  · intro cache' hcache' m hm
    obtain ⟨q, hq⟩ := getElem?_of_mem hcache'
    apply mem_published.mpr
    rcases land_cache hq with ⟨-, rfl⟩ | ⟨-, old, hold, rfl⟩
    · exact (mem_deliver.mp hm).imp_left fun hm => h.pending cache hcache m (hcarries.pending m hm)
    · exact (mem_deliver.mp hm).imp_left fun hm => h.pending old (mem_of_getElem? hold) m hm
  · intro task' htask' m hm
    apply mem_published.mpr
    rcases mem_land htask' with rfl | htask'
    · rcases hcarries.fetched m hm with hm | hm | hm
      · exact .inl (h.fetched task htask m hm)
      · exact .inl (h.pending cache hcache m hm)
      · exact .inr hm
    · exact .inl (h.fetched task' htask' m hm)
  · intro cache' hcache' name st hst
    obtain ⟨q, hq⟩ := getElem?_of_mem hcache'
    rcases land_cache hq with ⟨-, rfl⟩ | ⟨-, old, hold, rfl⟩
    · subst hmove
      exact turns_above (act_turns hst) (h.above cache hcache)
    · exact h.above old (mem_of_getElem? hold) name st hst
  · intro cache' hcache' name st hst key payload r expiresAtMs hmem
    apply mem_published.mpr
    obtain ⟨q, hq⟩ := getElem?_of_mem hcache'
    rcases land_cache hq with ⟨-, rfl⟩ | ⟨-, old, hold, rfl⟩
    · subst hmove
      rcases turns_slots (act_turns hst) hmem with ⟨st, hst, hmem⟩ | hfetched
      · exact .inl (h.slots cache hcache name st hst key payload r expiresAtMs hmem)
      · exact .inl (h.fetched task htask _ hfetched)
    · exact .inl (h.slots old (mem_of_getElem? hold) name st hst key payload r expiresAtMs hmem)

/-- One recovery at a time holds the cursor of a process, and what its floor does not cover is still
before the cursor. -/
structure Locked (w : World) : Prop where
  known : ∀ task ∈ w.tasks, task.process < w.caches.length
  held : ∀ task ∈ w.tasks, ∀ cache, w.caches[task.process]? = some cache →
    task.stage.recovering → cache.held
  alone : ∀ (i j : Nat) (a b : Task), w.tasks[i]? = some a → w.tasks[j]? = some b →
    a.process = b.process → a.stage.recovering → b.stage.recovering → i = j
  floor : ∀ task ∈ w.tasks, ∀ cache, w.caches[task.process]? = some cache →
    ∀ floor, task.stage.floor = some floor →
      ∀ d ∈ w.published, d.revision.sequence ≤ floor ∨ d ∈ cache.pending

theorem Locked.blocked (h : Locked w) (hlands : Lands layout w id choice task cache)
    (hcarries : Carries w cache task.stage move) {i : Nat} (hi : w.tasks[i]? = some task')
    (hne : i ≠ id) (hprocess : task'.process = task.process) (hrecovering : task'.stage.recovering) :
    move.cache.pending = cache.pending ∧ move.cache.held ∧ move.stage.recovering = false := by
  have hheld := h.held task' (mem_of_getElem? hi) cache (hprocess ▸ hlands.found) hrecovering
  apply hcarries.blocked hheld
  by_contra hrec
  rw [Bool.not_eq_false] at hrec
  exact hne (h.alone i id task' task hi hlands.running hprocess hrecovering hrec)

theorem Locked.land (h : Locked w) (hnumbered : Numbered w)
    (hlands : Lands layout w id choice task cache) (hcarries : Carries w cache task.stage move) :
    Locked (w.land id task move) := by
  have htask := mem_of_getElem? hlands.running
  constructor
  · intro task' htask'
    rw [World.land, length_map, length_set]
    rcases mem_land htask' with rfl | htask'
    · exact h.known task htask
    · exact h.known task' htask'
  · intro task' htask' cache' hcache' hrecovering
    obtain ⟨i, hi⟩ := getElem?_of_mem htask'
    rcases land_task hi with ⟨-, rfl⟩ | ⟨hne, hi⟩
    · rcases land_cache hcache' with ⟨-, rfl⟩ | ⟨hprocess, -⟩
      · exact hcarries.holds hrecovering (h.held task htask cache hlands.found)
      · exact absurd rfl hprocess
    · rcases land_cache hcache' with ⟨hprocess, rfl⟩ | ⟨-, old, hold, rfl⟩
      · exact (h.blocked hlands hcarries hi hne hprocess hrecovering).2.1
      · exact h.held task' (mem_of_getElem? hi) old hold hrecovering
  · intro i j a b ha hb hprocess hrecA hrecB
    rcases land_task ha with ⟨hi, rfl⟩ | ⟨hi, ha⟩
    · rcases land_task hb with ⟨hj, rfl⟩ | ⟨hj, hb⟩
      · exact hi.trans hj.symm
      · rw [(h.blocked hlands hcarries hb hj hprocess.symm hrecB).2.2] at hrecA
        cases hrecA
    · rcases land_task hb with ⟨hj, rfl⟩ | ⟨hj, hb⟩
      · rw [(h.blocked hlands hcarries ha hi hprocess hrecA).2.2] at hrecB
        cases hrecB
      · exact h.alone i j a b ha hb hprocess hrecA hrecB
  · intro task' htask' cache' hcache' floor hfloor d hd
    rcases mem_published.mp hd with hd | hd
    · obtain ⟨i, hi⟩ := getElem?_of_mem htask'
      rcases land_task hi with ⟨-, rfl⟩ | ⟨hne, hi⟩
      · rcases land_cache hcache' with ⟨-, rfl⟩ | ⟨hprocess, -⟩
        · obtain ⟨hpending, hfloor | rfl⟩ := hcarries.floor floor hfloor
          · rcases h.floor task htask cache hlands.found floor hfloor d hd with hle | hmem
            · exact .inl hle
            · exact .inr (mem_deliver.mpr (.inl (hpending ▸ hmem)))
          · exact .inl (hnumbered.bounded d hd)
        · exact absurd rfl hprocess
      · rcases land_cache hcache' with ⟨hprocess, rfl⟩ | ⟨-, old, hold, rfl⟩
        · have hpending := (h.blocked hlands hcarries hi hne hprocess (floor_recovering hfloor)).1
          rcases h.floor task' (mem_of_getElem? hi) cache (hprocess ▸ hlands.found) floor
            hfloor d hd with hle | hmem
          · exact .inl hle
          · exact .inr (mem_deliver.mpr (.inl (hpending ▸ hmem)))
        · rcases h.floor task' (mem_of_getElem? hi) old hold floor hfloor d hd with hle | hmem
          · exact .inl hle
          · exact .inr (mem_deliver.mpr (.inl hmem))
    · right
      rcases land_cache hcache' with ⟨-, rfl⟩ | ⟨-, old, -, rfl⟩
      · exact mem_deliver.mpr (.inr hd)
      · exact mem_deliver.mpr (.inr hd)

/-- A mutation that passed before the store was opened, and no older `put` can come. -/
structure Overtaken (w : World) (process : Nat) (cache : Cache) (name : Key) (st : LocalState)
    (d : CacheMutation) : Prop where
  latest : latest w process cache d
  slots : ∀ key payload r expiresAtMs, (key, LocalSlot.present payload r expiresAtMs) ∈ st.slots →
    d.concerns name key → d.revision.sequence ≤ r.sequence

/-- A published mutation has yet to reach the store, is remembered by it, or passed before it was
opened. -/
def Accounted (w : World) (process : Nat) (cache : Cache) (name : Key) (st : LocalState)
    (d : CacheMutation) : Prop :=
  ahead w process cache name d ∨ Knows st d ∨ Overtaken w process cache name st d

/-- The condition on a step: no sequence wraps, and a store is not opened between a mutation that
passed and an older `put` of its key that can still arrive. -/
def opens (w : World) (process : Nat) (cache : Cache) : Stage → Bool
  | .openWrite name => listed name (names cache.stores) || w.published.all fun d =>
    decide (d.store ≠ name) || ahead w process cache name d || latest w process cache d
  | _ => true

def settles (w : World) : Op → Bool
  | .step id _ =>
    match w.tasks[id]? with
    | none => true
    | some task =>
      match w.caches[task.process]? with
      | none => true
      | some cache => mintable w task.stage && opens w task.process cache task.stage
  | .join _ | .call _ _ => true

theorem latest_land (hnumbered : Numbered w) (hlands : Lands layout w id choice task cache)
    (hnumbers : Numbers w task.stage move) (hcarries : Carries w cache task.stage move)
    (hd : d ∈ w.published) {old : Cache} (hold : w.caches[process]? = some old)
    (hcache' : (w.land id task move).caches[process]? = some cache')
    (hlatest : latest w process old d) : latest (w.land id task move) process cache' d := by
  have htask := mem_of_getElem? hlands.running
  rw [latest_iff] at hlatest ⊢
  have hframe : ∀ m, move.frame = some m → d.outdates m = false := by
    intro m hm
    cases hnumbers with
    | same counter frame minted =>
      rw [frame] at hm
      cases hm
    | mint draft counter frame next =>
      rw [frame] at hm
      cases hm
    | publish draft sequence mutationId before counter frame minted =>
      rw [frame] at hm
      rw [← Option.some.inj hm, outdates_draft d draft sequence mutationId 0]
      refine hlatest _ (mem_arriving.mpr (.inl ⟨task, htask, ?_⟩))
      rw [before]
      exact mem_cons_self
  intro m hm
  rcases mem_arriving.mp hm with ⟨task', htask', hm⟩ | hpending | ⟨task', htask', hprocess, hm⟩
  · rcases mem_land htask' with rfl | htask'
    · cases hnumbers with
      | same counter frame minted =>
        rw [minted] at hm
        cases hm
      | mint draft counter frame next =>
        rw [next] at hm
        rw [mem_singleton.mp hm]
        by_contra hout
        rw [Bool.not_eq_false] at hout
        have hlt := outdates_lt hout
        rw [Draft.revision_mutation] at hlt
        have hle := hnumbered.bounded d hd
        dsimp only at hlt
        omega
      | publish draft sequence mutationId before counter frame minted =>
        rw [minted] at hm
        cases hm
    · exact hlatest m (mem_arriving.mpr (.inl ⟨task', htask', hm⟩))
  · rcases land_cache hcache' with ⟨rfl, rfl⟩ | ⟨-, old', hold', rfl⟩
    · rw [hlands.found] at hold
      cases hold
      rcases mem_deliver.mp hpending with hpending | hnew
      · exact hlatest m (mem_arriving.mpr (.inr (.inl (hcarries.pending m hpending))))
      · exact hframe m hnew
    · rw [hold'] at hold
      cases hold
      rcases mem_deliver.mp hpending with hpending | hnew
      · exact hlatest m (mem_arriving.mpr (.inr (.inl hpending)))
      · exact hframe m hnew
  · rcases mem_land htask' with rfl | htask'
    · rcases hcarries.fetched m hm with hm | hm | hm
      · exact hlatest m (mem_arriving.mpr (.inr (.inr ⟨task, htask, hprocess, hm⟩)))
      · dsimp only at hprocess
        rw [← hprocess, hlands.found] at hold
        cases hold
        exact hlatest m (mem_arriving.mpr (.inr (.inl hm)))
      · exact hframe m hm
    · exact hlatest m (mem_arriving.mpr (.inr (.inr ⟨task', htask', hprocess, hm⟩)))

theorem ahead_other (hlands : Lands layout w id choice task cache)
    (hprocess : process ≠ task.process) {old : Cache} {frame : Option CacheMutation}
    (h : ahead w process old name d) :
    ahead (w.land id task move) process (deliver frame old) name d := by
  rw [ahead_iff] at h ⊢
  rcases h with h | ⟨task', htask', hsame, hbrings⟩
  · exact .inl (mem_deliver.mpr (.inl h))
  · rcases land_other hlands.running htask' with rfl | htask'
    · exact absurd hsame.symm hprocess
    · exact .inr ⟨task', htask', hsame, hbrings⟩

theorem ahead_self (hlands : Lands layout w id choice task cache)
    (hcarries : Carries w cache task.stage move) (h : ahead w task.process cache name d) :
    ahead (w.land id task move) task.process (deliver move.frame move.cache) name d ∨
      task.stage.brings name d := by
  rw [ahead_iff] at h ⊢
  rcases h with h | ⟨task', htask', hsame, hbrings⟩
  · rcases hcarries.leaves d h with hpending | hbrings
    · exact .inl (.inl (mem_deliver.mpr (.inl hpending)))
    · exact .inl (.inr ⟨_, land_self hlands.running, rfl, hbrings name⟩)
  · rcases land_other hlands.running htask' with rfl | htask'
    · exact .inr hbrings
    · exact .inl (.inr ⟨task', htask', hsame, hbrings⟩)

/-- The invariant of the runs that meet the condition. -/
structure Converging (w : World) : Prop where
  numbered : Numbered w
  sourced : Sourced w
  locked : Locked w
  accounted : ∀ process cache, w.caches[process]? = some cache →
    ∀ name st, (name, st) ∈ cache.stores → st.coherent →
      ∀ d ∈ w.published, d.store = name → Accounted w process cache name st d

theorem accounted_recovered {floor : Nat} (hd : d.revision.sequence ≤ floor) :
    Knows (st.recoverFromBacking floor) d := by
  have hfloor := (recoverFromBacking_atLeast st floor).mono hd
  cases d with
  | put store key revision expiresAtMs payload | delete store key revision => exact .inl hfloor
  | reset store revision => exact hfloor

theorem Converging.self (h : Converging w) (hlands : Lands layout w id choice task cache)
    (hmintable : mintable w task.stage) (hopens : opens w task.process cache task.stage)
    (hmove : move = act layout w cache task.stage choice)
    (hcache' : (w.land id task move).caches[task.process]? =
      some (deliver move.frame move.cache))
    (hst : (name, st') ∈ move.cache.stores) (hcoherent : st'.coherent) (hd : d ∈ w.published)
    (hstore : d.store = name) :
    Accounted (w.land id task move) task.process (deliver move.frame move.cache) name st' d := by
  have hnumbers : Numbers w task.stage move := hmove ▸ act_numbers hmintable
  have hcarries : Carries w cache task.stage move := hmove ▸ act_carries ..
  have hturns : Turns cache task.stage move.stage name st' := by
    subst hmove
    exact act_turns hst
  have hlatest := latest_land h.numbered hlands hnumbers hcarries hd hlands.found hcache'
  have hself : ahead w task.process cache name d →
      ahead (w.land id task move) task.process (deliver move.frame move.cache) name d ∨
        task.stage.brings name d := ahead_self hlands hcarries
  cases hturns with
  | kept st mem grows coherent above slots brings =>
    rcases h.accounted task.process cache hlands.found name st mem (coherent ▸ hcoherent) d hd hstore
      with hahead | hknows | hovertaken
    · rcases hself hahead with hahead | hbrings
      · exact .inl hahead
      · rcases brings d hstore hbrings with hbrings | hknows
        · exact .inl (ahead_iff.mpr (.inr ⟨_, land_self hlands.running, rfl, hbrings⟩))
        · exact .inr (.inl hknows)
    · exact .inr (.inl (grows.knows hknows))
    · refine .inr (.inr ⟨hlatest hovertaken.latest, fun key payload r e hmem hconcerns => ?_⟩)
      rcases slots key payload r e hmem with hmem | hfetched
      · exact hovertaken.slots key payload r e hmem hconcerns
      · have hput := latest_iff.mp hovertaken.latest _ (mem_arriving.mpr (.inr (.inr
          ⟨task, mem_of_getElem? hlands.running, rfl, hfetched⟩)))
        rw [CacheMutation.outdates, hconcerns, Bool.true_and, decide_eq_false_iff_not] at hput
        exact Nat.le_of_not_lt hput
  | lost coherent slots =>
    rw [coherent] at hcoherent
    cases hcoherent
  | opened before fresh init =>
    subst init
    rw [before, opens, Bool.or_eq_true_iff, decide_eq_true_iff] at hopens
    have hpassed := all_eq_true.mp (hopens.resolve_left fresh) d hd
    rw [Bool.or_eq_true_iff, Bool.or_eq_true_iff, decide_eq_true_iff] at hpassed
    rcases hpassed with (hother | hahead) | hpassed
    · exact absurd hstore hother
    · rcases hself hahead with hahead | hbrings
      · exact .inl hahead
      · rw [before] at hbrings
        cases hbrings
    · exact .inr (.inr ⟨hlatest hpassed, fun _ _ _ _ hmem => (nomatch hmem)⟩)
  | recovered st floor remaining before after =>
    subst after
    have hcovered := h.locked.floor task (mem_of_getElem? hlands.running) cache hlands.found
      floor (by rw [before]; rfl) d hd
    rcases hcovered with hle | hpending
    · exact .inr (.inl (accounted_recovered hle))
    · rcases hcarries.leaves d hpending with hpending | hbrings
      · exact .inl (ahead_iff.mpr (.inl (mem_deliver.mpr (.inl hpending))))
      · exact .inl (ahead_iff.mpr (.inr ⟨_, land_self hlands.running, rfl, hbrings name⟩))

theorem Converging.land (h : Converging w) (hlands : Lands layout w id choice task cache)
    (hmintable : mintable w task.stage) (hopens : opens w task.process cache task.stage) :
    Converging (w.land id task (act layout w cache task.stage choice)) := by
  generalize hmove : act layout w cache task.stage choice = move
  have hnumbers : Numbers w task.stage move := hmove ▸ act_numbers hmintable
  have hcarries : Carries w cache task.stage move := hmove ▸ act_carries ..
  constructor
  · exact h.numbered.land hlands.running hnumbers
  · exact h.sourced.land hlands hmove.symm
  · exact h.locked.land h.numbered hlands hcarries
  · intro process cache' hcache' name st hst hcoherent d hd hstore
    rcases mem_published.mp hd with hd | hd
    · rcases land_cache hcache' with ⟨rfl, rfl⟩ | ⟨hprocess, old, hold, rfl⟩
      · exact h.self hlands hmintable hopens hmove.symm hcache' hst hcoherent hd hstore
      · rcases h.accounted process old hold name st hst hcoherent d hd hstore with
          hahead | hknows | hovertaken
        · exact .inl (ahead_other hlands hprocess hahead)
        · exact .inr (.inl hknows)
        · exact .inr (.inr ⟨latest_land h.numbered hlands hnumbers hcarries hd hold hcache'
            hovertaken.latest, hovertaken.slots⟩)
    · left
      rw [ahead_iff]
      left
      rcases land_cache hcache' with ⟨-, rfl⟩ | ⟨-, old, -, rfl⟩
      · exact mem_deliver.mpr (.inr hd)
      · exact mem_deliver.mpr (.inr hd)

theorem Converging.init : Converging .init := by
  constructor
  · exact ⟨fun _ h => (nomatch h), fun _ h => (nomatch h), fun _ h => (nomatch h),
      fun _ _ _ _ h => (nomatch h)⟩
  · exact ⟨fun _ h => (nomatch h), fun _ h => (nomatch h), fun _ h => (nomatch h),
      fun _ h => (nomatch h)⟩
  · exact ⟨fun _ h => (nomatch h), fun _ h => (nomatch h), fun _ _ _ _ h => (nomatch h),
      fun _ h => (nomatch h)⟩
  · exact fun _ _ h => (nomatch h)

theorem join_cache {replay : Bool}
    (h : (exec layout w (.join replay)).caches[process]? = some cache) :
    w.caches[process]? = some cache ∨ process = w.caches.length ∧
      cache = ⟨if replay then w.published else [], false, [], []⟩ := by
  rw [exec] at h
  dsimp only at h
  rw [getElem?_append] at h
  split at h
  · exact .inl h
  · rename_i hge
    rw [getElem?_singleton] at h
    split at h
    · rename_i hzero
      exact .inr ⟨by omega, (Option.some.inj h).symm⟩
    · cases h

theorem Converging.join (h : Converging w) (replay : Bool) :
    Converging (exec layout w (.join replay)) := by
  have hmem : ∀ cache ∈ (exec layout w (.join replay)).caches, cache ∈ w.caches ∨
      cache = ⟨if replay then w.published else [], false, [], []⟩ := fun cache hcache =>
    (mem_append.mp hcache).imp_right mem_singleton.mp
  have hknown : ∀ task ∈ w.tasks, ∀ cache,
      (exec layout w (.join replay)).caches[task.process]? = some cache →
        w.caches[task.process]? = some cache := by
    intro task htask cache hcache
    refine (join_cache hcache).resolve_right fun hnew => ?_
    exact absurd hnew.1 (Nat.ne_of_lt (h.locked.known task htask))
  constructor
  · exact ⟨h.numbered.bounded, h.numbered.unique, h.numbered.minted, h.numbered.apart⟩
  · constructor
    · intro cache hcache m hm
      rcases hmem cache hcache with hcache | rfl
      · exact h.sourced.pending cache hcache m hm
      · dsimp only at hm
        split at hm
        · exact hm
        · cases hm
    · exact h.sourced.fetched
    · intro cache hcache name st hst
      rcases hmem cache hcache with hcache | rfl
      · exact h.sourced.above cache hcache name st hst
      · cases hst
    · intro cache hcache name st hst
      rcases hmem cache hcache with hcache | rfl
      · exact h.sourced.slots cache hcache name st hst
      · cases hst
  · constructor
    · intro task htask
      have hlt := h.locked.known task htask
      rw [exec, length_append]
      omega
    · exact fun task htask cache hcache => h.locked.held task htask cache (hknown task htask cache hcache)
    · exact h.locked.alone
    · exact fun task htask cache hcache =>
        h.locked.floor task htask cache (hknown task htask cache hcache)
  · intro process cache hcache name st hst hcoherent d hd hstore
    rcases join_cache hcache with hcache | ⟨-, rfl⟩
    · rcases h.accounted process cache hcache name st hst hcoherent d hd hstore with
        hahead | hknows | hovertaken
      · exact .inl hahead
      · exact .inr (.inl hknows)
      · exact .inr (.inr ⟨hovertaken.latest, hovertaken.slots⟩)
    · cases hst

theorem call_idle (call : Call) : call.stage.minted = [] ∧ call.stage.fetched = [] ∧
    call.stage.recovering = false := by
  cases call with
  | mutate request | openStore name | poll | recoverFromBacking | read store key =>
    exact ⟨rfl, rfl, rfl⟩

theorem Converging.begin (h : Converging w) {call : Call} (hcache : w.caches[process]? = some cache) :
    Converging { w with tasks := w.tasks ++ [⟨process, call.stage⟩] } := by
  obtain ⟨hminted, hfetched, hrecovering⟩ := call_idle call
  have hmem : ∀ task ∈ w.tasks ++ [⟨process, call.stage⟩],
      task ∈ w.tasks ∨ task = ⟨process, call.stage⟩ := fun task htask =>
    (mem_append.mp htask).imp_right mem_singleton.mp
  have hget : ∀ {i : Nat} {task : Task}, (w.tasks ++ [⟨process, call.stage⟩])[i]? = some task →
      w.tasks[i]? = some task ∨ task = ⟨process, call.stage⟩ := by
    intro i task htask
    rw [getElem?_append] at htask
    split at htask
    · exact .inl htask
    · exact .inr (mem_singleton.mp (mem_of_getElem? htask))
  have hno : ¬(⟨process, call.stage⟩ : Task).stage.recovering := by
    intro hrec
    exact absurd (hrec.symm.trans hrecovering) (by decide)
  constructor
  · constructor
    · exact h.numbered.bounded
    · exact h.numbered.unique
    · intro task htask m hm
      rcases hmem task htask with htask | rfl
      · exact h.numbered.minted task htask m hm
      · rw [hminted] at hm
        cases hm
    · intro i j a b ha hb m hm m' hm'
      rcases hget ha with ha | rfl
      · rcases hget hb with hb | rfl
        · exact h.numbered.apart i j a b ha hb m hm m' hm'
        · rw [hminted] at hm'
          cases hm'
      · rw [hminted] at hm
        cases hm
  · constructor
    · exact h.sourced.pending
    · intro task htask m hm
      rcases hmem task htask with htask | rfl
      · exact h.sourced.fetched task htask m hm
      · rw [hfetched] at hm
        cases hm
    · exact h.sourced.above
    · exact h.sourced.slots
  · constructor
    · intro task htask
      rcases hmem task htask with htask | rfl
      · exact h.locked.known task htask
      · exact (List.getElem?_eq_some_iff.mp hcache).1
    · intro task htask cache hcache hrec
      rcases hmem task htask with htask | rfl
      · exact h.locked.held task htask cache hcache hrec
      · exact absurd hrec hno
    · intro i j a b ha hb hprocess hrecA hrecB
      rcases hget ha with ha | rfl
      · rcases hget hb with hb | rfl
        · exact h.locked.alone i j a b ha hb hprocess hrecA hrecB
        · exact absurd hrecB hno
      · exact absurd hrecA hno
    · intro task htask cache hcache floor hfloor
      rcases hmem task htask with htask | rfl
      · exact h.locked.floor task htask cache hcache floor hfloor
      · exact absurd (floor_recovering hfloor) hno
  · intro process' cache' hcache' name st hst hcoherent d hd hstore
    rcases h.accounted process' cache' hcache' name st hst hcoherent d hd hstore with
      hahead | hknows | hovertaken
    · left
      rw [ahead_iff] at hahead ⊢
      refine hahead.imp_right fun ⟨task, htask, hbrings⟩ => ?_
      exact ⟨task, mem_append_left _ htask, hbrings⟩
    · exact .inr (.inl hknows)
    · refine .inr (.inr ⟨latest_iff.mpr fun m hm => ?_, hovertaken.slots⟩)
      apply latest_iff.mp hovertaken.latest m
      rw [mem_arriving] at hm ⊢
      rcases hm with ⟨task, htask, hm⟩ | hm | ⟨task, htask, hprocess, hm⟩
      · rcases hmem task htask with htask | rfl
        · exact .inl ⟨task, htask, hm⟩
        · rw [hminted] at hm
          cases hm
      · exact .inr (.inl hm)
      · rcases hmem task htask with htask | rfl
        · exact .inr (.inr ⟨task, htask, hprocess, hm⟩)
        · rw [hfetched] at hm
          cases hm

theorem Converging.exec (h : Converging w) (op : Op) (hop : settles w op) :
    Converging (exec layout w op) := by
  cases op with
  | join replay => exact h.join replay
  | call process call =>
    rw [OrbitCache.exec]
    split
    · exact h
    · rename_i cache hcache
      split
      · exact h.begin hcache
      · exact h
  | step id choice =>
    rcases exec_step layout w id choice with hsame | ⟨task, cache, hlands⟩
    · rw [hsame]
      exact h
    · rw [settles, hlands.running] at hop
      dsimp only at hop
      rw [hlands.found] at hop
      obtain ⟨hmintable, hopens⟩ := Bool.and_eq_true_iff.mp hop
      rw [hlands.after]
      exact h.land hlands hmintable hopens

theorem run_converging {ops : List Op}
    (h : Meets (exec layout) (fun w op => settles w op) .init ops) :
    Converging (run layout ops) :=
  h.holds (fun _ op hw hop => hw.exec op hop) .init

/-- Every mutation of a store that was published so far has been polled. -/
def Polled (w : World) (process : Nat) (cache : Cache) (name : Key) : Prop :=
  ∀ d ∈ w.published, d.store = name → ahead w process cache name d = false

instance (w : World) (process : Nat) (cache : Cache) (name : Key) :
    Decidable (Polled w process cache name) :=
  inferInstanceAs (Decidable (∀ d ∈ w.published, d.store = name → _))

/-- A hit has the value of the `put` that is the newest mutation of its key. -/
def Current (w : World) (name key : Key) : CacheRead → Prop
  | .hit entry => ∃ payload,
    .put name key entry.revision entry.expiresAtMs payload ∈ w.published ∧
      entry.value = w.body payload.address ∧
      ∀ d ∈ w.published, d.concerns name key →
        d ≠ .put name key entry.revision entry.expiresAtMs payload → d.revision < entry.revision
  | .miss => True
  | .resyncRequired => False

theorem knows_le (habove : Above st) {payload : PayloadRef} {r : CacheRevision}
    {expiresAtMs : Option Nat} (hpeek : st.slots.peek key = some (.present payload r expiresAtMs))
    (hconcerns : d.concerns name key) (hknows : Knows st d) :
    d.revision.sequence ≤ r.sequence := by
  have hbelow : ∀ n, AtLeast st n → n ≤ r.sequence := by
    rintro n ⟨floor, hfloor, hle⟩
    exact Nat.le_of_lt (Nat.lt_of_le_of_lt hle (habove floor hfloor _ (peek_mem hpeek)))
  cases d with
  | put store key' revision e payload' | delete store key' revision =>
    obtain rfl : key' = key := of_decide_eq_true (Bool.and_eq_true_iff.mp hconcerns).2
    rcases hknows with hfloor | ⟨slot, hslot, hle⟩
    · exact hbelow _ hfloor
    · rw [hpeek] at hslot
      cases hslot
      exact CacheRevision.sequence_le hle
  | reset store revision => exact hbelow _ hknows

/-- In every run that opens no store between a mutation that passed and an older `put` of its key,
in every state that it reaches, a coherent store that has polled every mutation hits only with the
newest mutation of the key. -/
theorem converges (layout : CacheLayout) (ops : List Op)
    (h : Meets (exec layout) (fun w op => settles w op) .init ops) :
    ∀ process cache, (run layout ops).caches[process]? = some cache →
      ∀ name st, (name, st) ∈ cache.stores → st.coherent →
        Polled (run layout ops) process cache name → ∀ key available now,
          Current (run layout ops) name key
            (st.readAt (run layout ops).body available key now).2 := by
  intro process cache hcache name st hst hcoherent hpolled key available now
  have hconverging := run_converging h
  generalize run layout ops = w at *
  have hmem := mem_of_getElem? hcache
  cases hread : (st.readAt w.body available key now).2 with
  | hit entry =>
    obtain ⟨-, payload, hpeek, hvalue⟩ := readAt_hit hread
    have hput := hconverging.sourced.slots cache hmem name st hst key payload entry.revision
      entry.expiresAtMs (peek_mem hpeek)
    refine ⟨payload, hput, hvalue, fun d hd hconcerns hne => ?_⟩
    have hle : d.revision.sequence ≤ entry.revision.sequence := by
      have hstore := concerns_store hconcerns
      rcases hconverging.accounted process cache hcache name st hst hcoherent d hd hstore with
        hahead | hknows | hovertaken
      · rw [hpolled d hd hstore] at hahead
        cases hahead
      · exact knows_le (hconverging.sourced.above cache hmem name st hst) hpeek hconcerns hknows
      · exact hovertaken.slots key payload entry.revision entry.expiresAtMs (peek_mem hpeek) hconcerns
    apply CacheRevision.lt_of_sequence
    apply Nat.lt_of_le_of_ne hle
    exact fun hsame => hne (hconverging.numbered.unique d hd _ hput hsame)
  | miss => trivial
  | resyncRequired =>
    unfold LocalState.readAt at hread
    rw [hcoherent] at hread
    simp only [Bool.not_true, Bool.false_eq_true, if_false] at hread
    split at hread
    · cases hread
    · cases hread
    · split at hread
      · cases hread
      · cases hread

def polledOne : Choice := { granted with fates := [.deliver] }

def openedFirst : List Op :=
  [.join false, .join false, .call 0 (.openStore [7]), .step 0 granted, .step 0 granted]

/-- Two `put`s of one key take their sequences and the second is published. -/
def publishedSecond : List Op :=
  [.call 0 (.mutate (.put [7] [1] [10] none))] ++ replicate 2 (.step 1 granted) ++
  [.call 0 (.mutate (.put [7] [1] [20] none))] ++ replicate 5 (.step 2 granted)

/-- The second process polls the newer `put`, opens the store and polls the older one. -/
def lateRun : List Op :=
  openedFirst ++ publishedSecond ++ [.call 1 .poll, .step 3 polledOne] ++
  replicate 2 (.step 3 granted) ++
  [.call 1 (.openStore [7]), .step 4 granted, .step 4 granted] ++
  replicate 3 (.step 1 granted) ++ [.call 1 .poll, .step 5 polledOne] ++
  replicate 3 (.step 5 granted)

theorem late_store_diverges :
    ¬∀ process cache, (run sampleLayout lateRun).caches[process]? = some cache →
      ∀ name st, (name, st) ∈ cache.stores → st.coherent →
        Polled (run sampleLayout lateRun) process cache name → ∀ key available now,
          Current (run sampleLayout lateRun) name key
            (st.readAt (run sampleLayout lateRun).body available key now).2 := by
  intro h
  have hcurrent := h 1 ((run sampleLayout lateRun).caches.get ⟨1, by decide⟩) rfl [7]
    (((run sampleLayout lateRun).caches.get ⟨1, by decide⟩).stores.get ⟨0, by decide⟩).2
    (get_mem _ ⟨0, by decide⟩) (by decide) (by decide) [1] true 0
  have hhit : ((((run sampleLayout lateRun).caches.get ⟨1, by decide⟩).stores.get
      ⟨0, by decide⟩).2.readAt (run sampleLayout lateRun).body true [1] 0).2 =
        .hit ⟨[10], ⟨1, 0⟩, none⟩ := by decide
  rw [hhit] at hcurrent
  obtain ⟨payload, -, -, hnewest⟩ := hcurrent
  have hlt := hnewest (.put [7] [1] ⟨2, 0⟩ none ⟨1, 1⟩) (by decide) (by decide) (by simp)
  exact absurd hlt (by decide)

def earlyRun : List Op :=
  openedFirst ++ publishedSecond ++
  [.call 1 (.openStore [7]), .step 3 granted, .step 3 granted, .call 1 .poll, .step 4 polledOne] ++
  replicate 3 (.step 4 granted) ++ replicate 3 (.step 1 granted) ++
  [.call 1 .poll, .step 5 polledOne] ++ replicate 3 (.step 5 granted)

theorem converges_earlyRun :
    Current (run sampleLayout earlyRun) [7] [1]
      ((((run sampleLayout earlyRun).caches.get ⟨1, by decide⟩).stores.get
        ⟨0, by decide⟩).2.readAt (run sampleLayout earlyRun).body true [1] 0).2 :=
  converges sampleLayout earlyRun (by decide) 1
    ((run sampleLayout earlyRun).caches.get ⟨1, by decide⟩) rfl [7]
    (((run sampleLayout earlyRun).caches.get ⟨1, by decide⟩).stores.get ⟨0, by decide⟩).2
    (get_mem _ ⟨0, by decide⟩) (by decide) (by decide) [1] true 0

end OrbitCache
