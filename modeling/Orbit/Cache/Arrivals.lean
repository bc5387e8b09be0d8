import Orbit.Cache.Local
import Orbit.Cache.World

/-! What one step of a call does: to the sequences that are minted, to the mutations on their way to
the stores of its process, and to each store. -/

namespace OrbitCache

open List

variable {layout : CacheLayout} {w : World} {cache : Cache} {stage : Stage} {choice : Choice}
  {name key : Key} {st st' : LocalState} {m d : CacheMutation}

/-- The mutation that a call has minted and not published; it has no identifier yet. -/
def Stage.minted : Stage → List CacheMutation
  | .publish draft sequence => [draft.mutation ⟨sequence, 0⟩]
  | _ => []

def Stage.fetched : Stage → List CacheMutation
  | .pollCollect mutations | .pollResync _ mutations | .pollLookup mutations => mutations
  | .pollApply mutation mutations => mutation :: mutations
  | .install mutation => [mutation]
  | _ => []

def Stage.brings (name : Key) (d : CacheMutation) : Stage → Bool
  | .pollCollect _ => true
  | .pollResync remaining mutations => listed name remaining || decide (d ∈ mutations)
  | .pollLookup mutations => decide (d ∈ mutations)
  | .pollApply mutation mutations => decide (d ∈ mutation :: mutations)
  | .recoverHead | .recoverFloor | .recoverCollect _ => true
  | .recoverVisit _ remaining => listed name remaining
  | _ => false

def Stage.recovering : Stage → Bool
  | .recoverHead | .recoverFloor | .recoverCollect _ | .recoverVisit _ _ => true
  | _ => false

def Stage.floor : Stage → Option Nat
  | .recoverCollect floor | .recoverVisit floor _ => some floor
  | _ => none

/-- The mutation is about a key of a store: a `reset` is about all of them. -/
def CacheMutation.concerns (d : CacheMutation) (name key : Key) : Bool :=
  match d with
  | .put store key' _ _ _ | .delete store key' _ => decide (store = name) && decide (key' = key)
  | .reset store _ => decide (store = name)

/-- The mutation makes an older `put` of its key stale. -/
def CacheMutation.outdates (d m : CacheMutation) : Bool :=
  match m with
  | .put store key revision _ _ =>
    d.concerns store key && decide (revision.sequence < d.revision.sequence)
  | .delete _ _ _ | .reset _ _ => false

theorem concerns_store (h : d.concerns name key) : d.store = name := by
  cases d with
  | put store key' revision expiresAtMs payload | delete store key' revision =>
    exact of_decide_eq_true (Bool.and_eq_true_iff.mp h).1
  | reset store revision => exact of_decide_eq_true h

theorem outdates_draft (d : CacheMutation) (draft : Draft) (sequence id id' : Nat) :
    d.outdates (draft.mutation ⟨sequence, id⟩) = d.outdates (draft.mutation ⟨sequence, id'⟩) := by
  cases draft with
  | put store key expiresAtMs payload | delete store key | reset store => rfl

theorem outdates_lt (h : d.outdates m) : m.revision.sequence < d.revision.sequence := by
  cases m with
  | put store key revision expiresAtMs payload =>
    exact of_decide_eq_true (Bool.and_eq_true_iff.mp h).2
  | delete store key revision | reset store revision => cases h

theorem Draft.revision_mutation (draft : Draft) (revision : CacheRevision) :
    (draft.mutation revision).revision = revision := by
  cases draft with
  | put store key expiresAtMs payload | delete store key | reset store => rfl

theorem floor_recovering {floor : Nat} (h : stage.floor = some floor) : stage.recovering := by
  cases stage with
  | recoverCollect floor | recoverVisit floor remaining => rfl
  | _ => cases h

theorem mem_fated {fate : Fate} {pending : List CacheMutation} {fates : List Fate}
    (h : m ∈ fated fate pending fates) : m ∈ pending := by
  induction pending generalizing fates with
  | nil => cases h
  | cons first pending ih =>
    cases fates with
    | nil =>
      rw [fated] at h
      split at h
      · exact h
      · cases h
    | cons next fates =>
      rw [fated] at h
      split at h
      · rcases mem_cons.mp h with rfl | h
        · exact mem_cons_self
        · exact mem_cons_of_mem _ (ih h)
      · exact mem_cons_of_mem _ (ih h)

theorem exists_fated {pending : List CacheMutation} (h : m ∈ pending) (fates : List Fate) :
    ∃ fate, m ∈ fated fate pending fates := by
  induction pending generalizing fates with
  | nil => cases h
  | cons first pending ih =>
    cases fates with
    | nil =>
      refine ⟨.keep, ?_⟩
      rw [fated, if_pos rfl]
      exact h
    | cons next fates =>
      rcases mem_cons.mp h with rfl | h
      · refine ⟨next, ?_⟩
        rw [fated, if_pos rfl]
        exact mem_cons_self
      · obtain ⟨fate, hfate⟩ := ih h fates
        refine ⟨fate, ?_⟩
        rw [fated]
        split
        · exact mem_cons_of_mem _ hfate
        · exact hfate

/-- What a step does to the sequences and the ring. -/
inductive Numbers (w : World) (stage : Stage) (move : Move) : Prop
  | same (counter : move.counter = w.counter) (frame : move.frame = none)
      (minted : move.stage.minted = [])
  | mint (draft : Draft) (counter : move.counter = w.counter + 1) (frame : move.frame = none)
      (next : move.stage = .publish draft (w.counter + 1))
  | publish (draft : Draft) (sequence id : Nat) (before : stage = .publish draft sequence)
      (counter : move.counter = w.counter)
      (frame : move.frame = some (draft.mutation ⟨sequence, id⟩)) (minted : move.stage.minted = [])

def mintable (w : World) : Stage → Bool
  | .mint _ => decide (w.counter + 1 < 2 ^ 64)
  | _ => true

theorem Numbers.go {stage' : Stage} (h : stage'.minted = []) :
    Numbers w stage (w.go cache stage') := .same rfl rfl h

theorem numbers_prepare (request : Request) :
    Numbers w stage (w.prepare layout cache choice request) := by
  unfold World.prepare
  split
  · exact .go rfl
  · cases request with
    | put store key value ttl =>
      dsimp only
      split
      · exact .same rfl rfl rfl
      · exact .go rfl
    | delete store key => exact .go rfl
    | reset store => exact .go rfl

theorem act_numbers (h : mintable w stage) :
    Numbers w stage (act layout w cache stage choice) := by
  cases stage with
  | mutate request => exact numbers_prepare request
  | mint draft =>
    rw [act, if_pos (of_decide_eq_true h)]
    exact .mint draft rfl rfl rfl
  | publish draft sequence =>
    rw [act]
    split
    · exact .publish draft sequence choice.mutationId rfl rfl rfl rfl
    · cases hsent : choice.sent with
      | true => exact .publish draft sequence choice.mutationId rfl rfl rfl rfl
      | false => exact .same rfl rfl rfl
  | openRead name =>
    rw [act]
    split
    · exact .go rfl
    · split
      · exact .go rfl
      · exact .go rfl
  | openWrite name =>
    rw [act]
    split
    · exact .go rfl
    · exact .go rfl
  | pollFetch =>
    rw [act]
    split
    · exact .go rfl
    · unfold World.fetch
      dsimp only
      split
      · exact .go rfl
      · exact .go rfl
  | pollResync remaining mutations =>
    cases remaining with
    | nil => exact .go rfl
    | cons name remaining => exact .go rfl
  | pollLookup mutations =>
    cases mutations with
    | nil => exact .go rfl
    | cons mutation mutations =>
      rw [act]
      split
      · exact .go rfl
      · exact .go rfl
  | recoverLock =>
    rw [act]
    split
    · exact .go rfl
    · exact .go rfl
  | recoverVisit floor remaining =>
    cases remaining with
    | nil => exact .go rfl
    | cons name remaining => exact .go rfl
  | read store key =>
    rw [act]
    split
    · exact .go rfl
    · exact .go rfl
  | install mutation | mutated mutation | failed e | pollCollect mutations
  | pollApply mutation mutations | recoverHead | recoverFloor | recoverCollect floor | finished =>
    exact .go rfl

/-- What a step does to the cursor and to the mutations in the hands of the call. -/
structure Carries (w : World) (cache : Cache) (stage : Stage) (move : Move) : Prop where
  pending : ∀ d ∈ move.cache.pending, d ∈ cache.pending
  fetched : ∀ m ∈ move.stage.fetched,
    m ∈ stage.fetched ∨ m ∈ cache.pending ∨ move.frame = some m
  leaves : ∀ d ∈ cache.pending, d ∈ move.cache.pending ∨ ∀ name, move.stage.brings name d
  /-- While another call holds the cursor, nothing is read. -/
  blocked : cache.held → stage.recovering = false → move.cache.pending = cache.pending ∧
    move.cache.held ∧ move.stage.recovering = false
  holds : move.stage.recovering → (stage.recovering → cache.held) → move.cache.held
  floor : ∀ floor, move.stage.floor = some floor → move.cache.pending = cache.pending ∧
    (stage.floor = some floor ∨ floor = w.counter)

theorem Carries.same {move : Move} (hpending : move.cache.pending = cache.pending)
    (hheld : move.cache.held = cache.held) (hfetched : ∀ m ∈ move.stage.fetched,
      m ∈ stage.fetched ∨ m ∈ cache.pending ∨ move.frame = some m)
    (hrecovering : move.stage.recovering = false) : Carries w cache stage move := by
  constructor
  · rw [hpending]
    exact fun _ hd => hd
  · exact hfetched
  · rw [hpending]
    exact fun _ hd => .inl hd
  · intro h _
    exact ⟨hpending, hheld.trans h, hrecovering⟩
  · intro h
    rw [hrecovering] at h
    cases h
  · intro floor hfloor
    rw [floor_recovering hfloor] at hrecovering
    cases hrecovering

theorem Carries.go {stage' : Stage} (hfetched : ∀ m ∈ stage'.fetched, m ∈ stage.fetched)
    (hrecovering : stage'.recovering = false) : Carries w cache stage (w.go cache stage') :=
  .same rfl rfl (fun m hm => .inl (hfetched m hm)) hrecovering

theorem section_pending (cache : Cache) (name : Key) (f : LocalState → LocalState)
    (notes : List Note) : (cache.section name f notes).pending = cache.pending := by
  unfold Cache.section
  split
  · rfl
  · rfl

theorem section_held (cache : Cache) (name : Key) (f : LocalState → LocalState)
    (notes : List Note) : (cache.section name f notes).held = cache.held := by
  unfold Cache.section
  split
  · rfl
  · rfl

theorem Carries.section {f : LocalState → LocalState} {notes : List Note} {stage' : Stage}
    (hfetched : ∀ m ∈ stage'.fetched, m ∈ stage.fetched) (hrecovering : stage'.recovering = false) :
    Carries w cache stage (w.go (cache.section name f notes) stage') :=
  .same (section_pending ..) (section_held ..) (fun m hm => .inl (hfetched m hm)) hrecovering

theorem not_mem_fetched (h : stage.fetched = []) {P : Prop} : m ∈ stage.fetched → P := by
  rw [h]
  exact fun hm => (nomatch hm)

theorem carries_prepare (request : Request) :
    Carries w cache stage (w.prepare layout cache choice request) := by
  unfold World.prepare
  split
  · exact .go (fun _ => not_mem_fetched rfl) rfl
  · cases request with
    | put store key value ttl =>
      dsimp only
      split
      · exact .same rfl rfl (fun _ => not_mem_fetched rfl) rfl
      · exact .go (fun _ => not_mem_fetched rfl) rfl
    | delete store key => exact .go (fun _ => not_mem_fetched rfl) rfl
    | reset store => exact .go (fun _ => not_mem_fetched rfl) rfl

theorem carries_fetch (hheld : cache.held = false) (fates : List Fate) :
    Carries w cache .pollFetch (w.fetch cache fates) := by
  have hsort : ∀ m : CacheMutation, m ∈ (fated .deliver cache.pending fates).insertionSort
      (fun a b => a.revision ≤ b.revision) ↔ m ∈ fated .deliver cache.pending fates :=
    fun m => mem_insertionSort _
  unfold World.fetch
  dsimp only
  split
  · rename_i hloss
    constructor
    · exact fun _ => mem_fated
    · exact fun m hm => .inr (.inl (mem_fated ((hsort m).mp hm)))
    · intro d hd
      obtain ⟨fate, hfate⟩ := exists_fated hd fates
      cases fate with
      | keep => exact .inl hfate
      | deliver => exact .inr fun name => decide_eq_true ((hsort d).mpr hfate)
      | lose =>
        rw [List.isEmpty_iff.mp hloss.1] at hfate
        cases hfate
      | garble =>
        rw [List.isEmpty_iff.mp hloss.2] at hfate
        cases hfate
    · intro h
      rw [hheld] at h
      cases h
    · exact fun h => (nomatch h)
    · exact fun _ h => (nomatch h)
  · constructor
    · exact fun _ => mem_fated
    · exact fun m hm => .inr (.inl (mem_fated ((hsort m).mp hm)))
    · exact fun d _ => .inr fun name => rfl
    · intro h
      rw [hheld] at h
      cases h
    · exact fun h => (nomatch h)
    · exact fun _ h => (nomatch h)

theorem act_carries (layout : CacheLayout) (w : World) (cache : Cache) (stage : Stage)
    (choice : Choice) : Carries w cache stage (act layout w cache stage choice) := by
  cases stage with
  | mutate request => exact carries_prepare request
  | mint draft =>
    rw [act]
    split
    · exact .same rfl rfl (fun _ => not_mem_fetched rfl) rfl
    · exact .same rfl rfl (fun _ => not_mem_fetched rfl) rfl
  | publish draft sequence =>
    rw [act]
    split
    · refine .same rfl rfl (fun m hm => ?_) rfl
      rw [mem_singleton.mp hm]
      exact .inr (.inr rfl)
    · exact .same rfl rfl (fun _ => not_mem_fetched rfl) rfl
  | openRead name =>
    rw [act]
    split
    · exact .go (fun _ => not_mem_fetched rfl) rfl
    · split
      · exact .go (fun _ => not_mem_fetched rfl) rfl
      · exact .go (fun _ => not_mem_fetched rfl) rfl
  | openWrite name =>
    rw [act]
    split
    · exact .go (fun _ => not_mem_fetched rfl) rfl
    · exact .same rfl rfl (fun _ => not_mem_fetched rfl) rfl
  | pollFetch =>
    rw [act]
    split
    · exact .go (fun _ => not_mem_fetched rfl) rfl
    · rename_i hheld
      exact carries_fetch (Bool.not_eq_true _ ▸ hheld) choice.fates
  | pollCollect mutations => exact .go (fun _ hm => hm) rfl
  | pollResync remaining mutations =>
    cases remaining with
    | nil => exact .go (fun _ hm => hm) rfl
    | cons name remaining => exact .section (fun _ hm => hm) rfl
  | pollLookup mutations =>
    cases mutations with
    | nil => exact .go (fun _ => not_mem_fetched rfl) rfl
    | cons mutation mutations =>
      rw [act]
      split
      · exact .go (fun _ hm => hm) rfl
      · exact .go (fun _ hm => mem_cons_of_mem _ hm) rfl
  | pollApply mutation mutations => exact .section (fun _ hm => mem_cons_of_mem _ hm) rfl
  | recoverLock =>
    rw [act]
    split
    · exact .go (fun _ => not_mem_fetched rfl) rfl
    · rename_i hheld
      constructor
      · exact fun _ hd => hd
      · exact fun _ => not_mem_fetched rfl
      · exact fun _ hd => .inl hd
      · exact fun h => absurd h hheld
      · exact fun _ _ => rfl
      · exact fun _ h => (nomatch h)
  | recoverHead =>
    constructor
    · exact fun _ hd => (nomatch hd)
    · exact fun _ => not_mem_fetched rfl
    · exact fun _ _ => .inr fun _ => rfl
    · exact fun _ h => (nomatch h)
    · exact fun _ h => h rfl
    · exact fun _ h => (nomatch h)
  | recoverFloor =>
    constructor
    · exact fun _ hd => hd
    · exact fun _ => not_mem_fetched rfl
    · exact fun _ hd => .inl hd
    · exact fun _ h => (nomatch h)
    · exact fun _ h => h rfl
    · rintro floor ⟨⟩
      exact ⟨rfl, .inr rfl⟩
  | recoverCollect floor =>
    constructor
    · exact fun _ hd => hd
    · exact fun _ => not_mem_fetched rfl
    · exact fun _ hd => .inl hd
    · exact fun _ h => (nomatch h)
    · exact fun _ h => h rfl
    · exact fun _ h => ⟨rfl, .inl h⟩
  | recoverVisit floor remaining =>
    cases remaining with
    | nil =>
      constructor
      · exact fun _ hd => hd
      · exact fun _ => not_mem_fetched rfl
      · exact fun _ hd => .inl hd
      · exact fun _ h => (nomatch h)
      · exact fun h => (nomatch h)
      · exact fun _ h => (nomatch h)
    | cons name remaining =>
      constructor
      · rw [act, World.go, section_pending]
        exact fun _ hd => hd
      · exact fun _ => not_mem_fetched rfl
      · rw [act, World.go, section_pending]
        exact fun _ hd => .inl hd
      · exact fun _ h => (nomatch h)
      · intro _ h
        rw [act, World.go, section_held]
        exact h rfl
      · intro floor' h
        rw [act, World.go, section_pending]
        exact ⟨rfl, .inl h⟩
  | read store key =>
    rw [act]
    split
    · exact .go (fun _ => not_mem_fetched rfl) rfl
    · exact .section (fun _ => not_mem_fetched rfl) rfl
  | install mutation => exact .section (fun _ => not_mem_fetched rfl) rfl
  | mutated mutation => exact .same rfl rfl (fun _ => not_mem_fetched rfl) rfl
  | failed e | finished => exact .go (fun _ hm => hm) rfl

/-- What a step of a call does to a store of its process. -/
inductive Turns (cache : Cache) (stage stage' : Stage) (name : Key) (st' : LocalState) : Prop
  | kept (st : LocalState) (mem : (name, st) ∈ cache.stores) (grows : Grows st st')
      (coherent : st'.coherent = st.coherent) (above : Above st → Above st')
      (slots : ∀ key payload r expiresAtMs,
        (key, LocalSlot.present payload r expiresAtMs) ∈ st'.slots →
          (key, LocalSlot.present payload r expiresAtMs) ∈ st.slots ∨
            .put name key r expiresAtMs payload ∈ stage.fetched)
      (brings : ∀ d, d.store = name → stage.brings name d → stage'.brings name d ∨ Knows st' d)
  | lost (coherent : st'.coherent = false) (slots : st'.slots = [])
  | opened (before : stage = .openWrite name) (fresh : name ∉ names cache.stores)
      (init : st' = .init)
  | recovered (st : LocalState) (floor : Nat) (remaining : List Key)
      (before : stage = .recoverVisit floor (name :: remaining))
      (after : st' = st.recoverFromBacking floor)

theorem Turns.same {stage' : Stage} (h : (name, st) ∈ cache.stores)
    (hbrings : ∀ d, d.store = name → stage.brings name d → stage'.brings name d) :
    Turns cache stage stage' name st :=
  .kept st h (.refl st) rfl (fun h => h) (fun _ _ _ _ hmem => .inl hmem)
    fun d hd h => .inl (hbrings d hd h)

theorem Turns.idle {stage' : Stage} (hidle : ∀ d, stage.brings name d = false)
    (h : (name, st) ∈ cache.stores) : Turns cache stage stage' name st :=
  .same h fun d _ hd => by
    rw [hidle d] at hd
    cases hd

theorem names_mem {stores : List (Key × LocalState)} (h : (name, st) ∈ stores) :
    name ∈ names stores := mem_map.mpr ⟨(name, st), h, rfl⟩

theorem mem_section {f : LocalState → LocalState} {notes : List Note}
    (h : (name, st') ∈ (cache.section key f notes).stores) :
    (name = key ∧ ∃ st, (key, st) ∈ cache.stores ∧ st' = f st) ∨
      name ≠ key ∧ (name, st') ∈ cache.stores := by
  unfold Cache.section at h
  split at h
  · exact mem_updateStore h
  · rename_i hkey
    refine .inr ⟨?_, h⟩
    rintro rfl
    exact hkey (names_mem h)

theorem Turns.takes {stage' : Stage} (hst : (m.store, st) ∈ cache.stores) (h : Takes st m st')
    (hm : m ∈ stage.fetched)
    (hbrings : ∀ d, stage.brings m.store d → d = m ∨ stage'.brings m.store d) :
    Turns cache stage stage' m.store st' := by
  refine .kept st hst h.grows h.coherent h.above (fun key payload r expiresAtMs hmem => ?_)
    fun d _ hd => ?_
  · rcases h.slots _ hmem with hmem | hadds
    · exact .inl hmem
    · cases m with
      | put store key' r' e' payload' =>
        rcases hadds with hadds | hadds
        · cases hadds
          exact .inr hm
        · cases hadds
      | delete store key' r' => cases hadds
      | reset store r' => cases hadds
  · rcases hbrings d hd with rfl | hd
    · exact .inr h.knows
    · exact .inl hd

theorem turns_prepare {request : Request}
    (h : (name, st') ∈ (w.prepare layout cache choice request).cache.stores) :
    Turns cache (.mutate request) (w.prepare layout cache choice request).stage name st' := by
  apply Turns.idle fun _ => rfl
  unfold World.prepare at h
  split at h
  · exact h
  · cases request with
    | put store key value ttl =>
      dsimp only at h
      split at h
      · exact h
      · exact h
    | delete store key => exact h
    | reset store => exact h

theorem turns_fetch {fates : List Fate} (h : (name, st') ∈ (w.fetch cache fates).cache.stores) :
    Turns cache .pollFetch (w.fetch cache fates).stage name st' := by
  apply Turns.idle fun _ => rfl
  unfold World.fetch at h
  dsimp only at h
  split at h
  · exact h
  · exact h

theorem turns_read {store : Key} (h : (name, st') ∈
      (act layout w cache (.read store key) choice).cache.stores) :
    Turns cache (.read store key) (act layout w cache (.read store key) choice).stage name st' := by
  rw [act] at h ⊢
  split at h
  · exact .idle (fun _ => rfl) h
  · rename_i st hlookup
    rcases mem_section h with ⟨rfl, old, hold, rfl⟩ | ⟨-, hst⟩
    · have hreads := readAt_reads old w.body choice.available key choice.now
      refine .kept old hold hreads.grows hreads.coherent hreads.above
        (fun key' payload r e hmem => ?_) fun _ _ hd => (nomatch hd)
      rcases hreads.slots _ hmem with hmem | ⟨_, -, heq⟩
      · exact .inl hmem
      · cases heq
    · exact .idle (fun _ => rfl) hst

theorem act_turns (h : (name, st') ∈ (act layout w cache stage choice).cache.stores) :
    Turns cache stage (act layout w cache stage choice).stage name st' := by
  cases stage with
  | mutate request => exact turns_prepare h
  | mint draft =>
    apply Turns.idle fun _ => rfl
    rw [act] at h
    split at h
    · exact h
    · exact h
  | publish draft sequence =>
    apply Turns.idle fun _ => rfl
    rw [act] at h
    split at h
    · exact h
    · exact h
  | install mutation =>
    rcases mem_section h with ⟨rfl, st, hst, rfl⟩ | ⟨-, hst⟩
    · exact .takes hst (install_takes ..) mem_cons_self fun _ hd => (nomatch hd)
    · exact .idle (fun _ => rfl) hst
  | openRead name =>
    apply Turns.idle fun _ => rfl
    rw [act] at h
    split at h
    · exact h
    · split at h
      · exact h
      · exact h
  | openWrite opened =>
    rw [act] at h ⊢
    split at h
    · exact .idle (fun _ => rfl) h
    · rename_i hfresh
      rcases mem_append.mp h with h | h
      · exact .idle (fun _ => rfl) h
      · cases mem_singleton.mp h
        exact .opened rfl hfresh rfl
  | pollFetch =>
    rw [act] at h ⊢
    split at h
    · rename_i hheld
      rw [if_pos hheld]
      exact .idle (fun _ => rfl) h
    · rename_i hheld
      rw [if_neg hheld]
      exact turns_fetch h
  | pollCollect mutations =>
    refine .same h fun d _ _ => ?_
    exact Bool.or_eq_true_iff.mpr (.inl (decide_eq_true (names_mem h)))
  | pollResync remaining mutations =>
    cases remaining with
    | nil => exact .same h fun d _ hd => hd
    | cons first remaining =>
      rcases mem_section h with ⟨rfl, st, hst, rfl⟩ | ⟨hne, hst⟩
      · exact .lost rfl rfl
      · refine .same hst fun d _ hd => ?_
        rcases Bool.or_eq_true_iff.mp hd with hd | hd
        · have hname := (mem_cons.mp (of_decide_eq_true hd)).resolve_left hne
          exact Bool.or_eq_true_iff.mpr (.inl (decide_eq_true hname))
        · exact Bool.or_eq_true_iff.mpr (.inr hd)
  | pollLookup mutations =>
    cases mutations with
    | nil => exact .same h fun d _ hd => (nomatch hd)
    | cons mutation mutations =>
      rw [act] at h ⊢
      split at h
      · rename_i hknown
        rw [if_pos hknown]
        exact .same h fun d _ hd => hd
      · rename_i hunknown
        rw [if_neg hunknown]
        refine .same h fun d hstore hd => decide_eq_true ?_
        refine (mem_cons.mp (of_decide_eq_true hd)).resolve_left ?_
        rintro rfl
        exact hunknown (hstore ▸ names_mem h)
  | pollApply mutation mutations =>
    have hrest : ∀ name d, Stage.brings name d (.pollApply mutation mutations) →
        d = mutation ∨ Stage.brings name d (.pollLookup mutations) := fun name d hd =>
      (mem_cons.mp (of_decide_eq_true hd)).imp_right fun hd => decide_eq_true hd
    rcases mem_section h with ⟨rfl, st, hst, rfl⟩ | ⟨hne, hst⟩
    · exact .takes hst (apply_takes ..) mem_cons_self (hrest _)
    · refine .same hst fun d hstore hd => (hrest name d hd).resolve_left ?_
      rintro rfl
      exact hne hstore.symm
  | recoverLock =>
    apply Turns.idle fun _ => rfl
    rw [act] at h
    split at h
    · exact h
    · exact h
  | recoverHead => exact .same h fun _ _ _ => rfl
  | recoverFloor => exact .same h fun _ _ _ => rfl
  | recoverCollect floor => exact .same h fun _ _ _ => decide_eq_true (names_mem h)
  | recoverVisit floor remaining =>
    cases remaining with
    | nil => exact .idle (fun _ => rfl) h
    | cons first remaining =>
      rcases mem_section h with ⟨rfl, st, hst, rfl⟩ | ⟨hne, hst⟩
      · exact .recovered st floor remaining rfl rfl
      · refine .same hst fun d _ hd => decide_eq_true ?_
        exact (mem_cons.mp (of_decide_eq_true hd)).resolve_left hne
  | read store key => exact turns_read h
  | mutated mutation | failed e | finished => exact .idle (fun _ => rfl) h

end OrbitCache
