import Orbit.Cache.Local

/-! The last write wins in every order of arrival: what a store answers after any run of its
operations, whatever the arena loses and whichever slots are evicted in between. -/

namespace OrbitCache

open List Option

/-- An operation of one store.  `victim` is the key that a full map gives up. -/
inductive LocalOp where
  | apply (mutation : CacheMutation) (available : Bool) (victim : Option Key)
  | install (mutation : CacheMutation) (victim : Option Key)
  | requireResync
  | readAt (bodies : Nat → List UInt8) (available : Bool) (key : Key) (now : Nat)

def LocalOp.handed : LocalOp → Option CacheMutation
  | apply mutation _ _ | install mutation _ => some mutation
  | requireResync | readAt .. => none

def LocalState.exec (st : LocalState) : LocalOp → LocalState
  | .apply mutation available victim => (st.apply mutation available victim).1
  | .install mutation victim => st.install mutation victim
  | .requireResync => st.requireResync
  | .readAt bodies available key now => (st.readAt bodies available key now).1

def localRun (ops : List LocalOp) : LocalState := ops.foldl LocalState.exec .init

/-- The mutations handed to the store, in the order of their arrival. -/
def handed (ops : List LocalOp) : List CacheMutation := ops.filterMap LocalOp.handed

/-- The mutation puts or deletes the key. -/
def CacheMutation.writes (key : Key) : CacheMutation → Prop
  | put _ k _ _ _ | delete _ k _ => k = key
  | reset .. => False

variable {st : LocalState} {mutations : List CacheMutation} {m : CacheMutation} {key : Key}
  {n : Nat}

theorem requireResync_above (st : LocalState) : Above st.requireResync := fun _ _ _ h => by cases h

theorem exec_grows (st : LocalState) (op : LocalOp) : Grows st (st.exec op) := by
  cases op with
  | apply mutation available victim => exact (apply_takes st mutation available victim).grows
  | install mutation victim => exact (install_takes st mutation victim).grows
  | requireResync => exact grows_requireResync st
  | readAt bodies available key now => exact (readAt_reads st bodies available key now).grows

/-- What a store has of the mutations handed to it. -/
structure Follows (st : LocalState) (mutations : List CacheMutation) : Prop where
  above : Above st
  knows : ∀ m ∈ mutations, Knows st m
  /-- A slot with a value was put. -/
  put : ∀ key payload revision expiresAtMs,
    (key, .present payload revision expiresAtMs) ∈ st.slots →
      ∃ store, .put store key revision expiresAtMs payload ∈ mutations

namespace Follows

theorem init : Follows .init [] where
  above _ h := by cases h
  knows _ h := absurd h not_mem_nil
  put _ _ _ _ h := absurd h not_mem_nil

theorem takes {st' : LocalState} (h : Follows st mutations) (ht : Takes st m st') :
    Follows st' (mutations ++ [m]) where
  above := ht.above h.above
  knows m' hm' := by
    rcases mem_append.mp hm' with hm' | hm'
    · exact ht.grows.knows (h.knows m' hm')
    · rw [mem_singleton.mp hm']
      exact ht.knows
  put key payload revision expiresAtMs hmem := by
    rcases ht.slots _ hmem with hmem | hadds
    · obtain ⟨store, hstore⟩ := h.put key payload revision expiresAtMs hmem
      exact ⟨store, mem_append_left _ hstore⟩
    · cases m with
      | put store k r e p =>
        rcases hadds with heq | heq
        · cases heq
          exact ⟨store, mem_append_right _ mem_cons_self⟩
        · cases heq
      | delete store k r => cases hadds
      | reset store r => exact hadds.elim

theorem exec (h : Follows st mutations) (op : LocalOp) :
    Follows (st.exec op) (mutations ++ op.handed.toList) := by
  cases op with
  | apply mutation available victim => exact h.takes (apply_takes st mutation available victim)
  | install mutation victim => exact h.takes (install_takes st mutation victim)
  | requireResync =>
    rw [LocalOp.handed, toList_none, append_nil]
    exact ⟨requireResync_above st, fun m hm => (grows_requireResync st).knows (h.knows m hm),
      fun _ _ _ _ hmem => absurd hmem not_mem_nil⟩
  | readAt bodies available key now =>
    have hreads := readAt_reads st bodies available key now
    rw [LocalOp.handed, toList_none, append_nil]
    refine ⟨hreads.above h.above, fun m hm => hreads.grows.knows (h.knows m hm),
      fun key payload revision expiresAtMs hmem => ?_⟩
    rcases hreads.slots _ hmem with hmem | ⟨old, -, heq⟩
    · exact h.put key payload revision expiresAtMs hmem
    · cases heq

end Follows

theorem follows_foldl (ops : List LocalOp) (h : Follows st mutations) :
    Follows (ops.foldl LocalState.exec st) (mutations ++ handed ops) := by
  induction ops generalizing st mutations with
  | nil =>
    rw [handed, filterMap_nil, append_nil]
    exact h
  | cons op rest ih =>
    have hsplit : handed (op :: rest) = op.handed.toList ++ handed rest := by
      cases hop : op.handed with
      | none => exact filterMap_cons_none hop
      | some m => exact filterMap_cons_some hop
    rw [hsplit, ← append_assoc]
    exact ih (h.exec op)

theorem localRun_follows (ops : List LocalOp) : Follows (localRun ops) (handed ops) :=
  follows_foldl ops .init

/-- Where no two mutations have one sequence, whatever the order in which they arrive: the slots of a
store stay above its floor, which never falls; and a hit is the put that is the newest of all writes
of the key that were handed to the store, and newer than every reset. -/
theorem last_write_wins (ops : List LocalOp)
    (hdistinct : ∀ m ∈ handed ops, ∀ m' ∈ handed ops,
      m.revision.sequence = m'.revision.sequence → m = m') :
    (∀ floor, (localRun ops).revisionFloor = some floor →
      ∀ entry ∈ (localRun ops).slots, floor < entry.2.revision.sequence) ∧
    (∀ op floor, (localRun ops).revisionFloor = some floor →
      ∃ floor', (localRun (ops ++ [op])).revisionFloor = some floor' ∧ floor ≤ floor') ∧
    ∀ bodies available key now found,
      ((localRun ops).readAt bodies available key now).2 = .hit found →
      ∃ store payload, .put store key found.revision found.expiresAtMs payload ∈ handed ops ∧
        found.value = bodies payload.address ∧
        (∀ m ∈ handed ops, m.writes key →
          m ≠ .put store key found.revision found.expiresAtMs payload →
            m.revision < found.revision) ∧
        ∀ store revision, .reset store revision ∈ handed ops →
          revision.sequence < found.revision.sequence := by
  have h := localRun_follows ops
  refine ⟨h.above, fun op floor hfloor => ?_, fun bodies available key now found hhit => ?_⟩
  · rw [localRun, foldl_append]
    exact (exec_grows _ op).atLeast floor ⟨floor, hfloor, Nat.le_refl floor⟩
  · obtain ⟨-, payload, hpeek, hvalue⟩ := readAt_hit hhit
    obtain ⟨store, hput⟩ := h.put key payload _ _ (peek_mem hpeek)
    refine ⟨store, payload, hput, hvalue, fun m hm hwrites hne => ?_, fun _ revision hreset => ?_⟩
    · have hle : m.revision ≤ found.revision := by
        refine hit_remembers hhit h.above ?_
        have hknows := h.knows m hm
        cases m with
        | put _ k _ _ _ | delete _ k _ =>
          cases hwrites
          exact hknows
        | reset => exact hwrites.elim
      refine lt_of_le_of_ne hle fun heq => hne ?_
      exact hdistinct m hm _ hput (congrArg CacheRevision.sequence heq)
    · exact hit_above hhit h.above (h.knows _ hreset)

def sampleKey : Key := [1]

def otherKey : Key := [2]

/-- A put, an older delete of the same key that comes late, and a put that evicts a third key. -/
def sampleOps : List LocalOp :=
  [.apply (.put [] [3] ⟨1, 0⟩ none ⟨0, 0⟩) true none,
    .apply (.put [] sampleKey ⟨5, 0⟩ none ⟨0, 0⟩) true none,
    .apply (.delete [] sampleKey ⟨3, 0⟩) true none,
    .install (.put [] otherKey ⟨4, 0⟩ none ⟨0, 0⟩) (some [3])]

theorem last_write_wins_sample :
    ((localRun sampleOps).readAt (fun _ => []) true sampleKey 0).2 =
      .hit ⟨[], ⟨5, 0⟩, none⟩ ∧
    ∃ store payload, CacheMutation.put store sampleKey ⟨5, 0⟩ none payload ∈ handed sampleOps ∧
      ∀ m ∈ handed sampleOps, m.writes sampleKey → m ≠ .put store sampleKey ⟨5, 0⟩ none payload →
        m.revision < ⟨5, 0⟩ := by
  have hhit : ((localRun sampleOps).readAt (fun _ => []) true sampleKey 0).2 =
      .hit ⟨[], ⟨5, 0⟩, none⟩ := by decide
  obtain ⟨-, -, hread⟩ := last_write_wins sampleOps (by decide)
  obtain ⟨store, payload, hput, -, hnewest, -⟩ := hread _ _ _ _ _ hhit
  exact ⟨hhit, store, payload, hput, hnewest⟩

end OrbitCache
