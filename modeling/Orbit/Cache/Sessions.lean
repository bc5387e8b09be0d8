import Mathlib.Data.List.Nodup
import Orbit.Atomic.Sequence
import Orbit.Cache.Local
import Orbit.Cache.World

/-! The guarantees of one process across loss and recovery: what its hits say of the mutations that
it handed to a store, returned or hit before. -/

namespace OrbitCache

open Orbit.Atomic List

variable {layout : CacheLayout} {w : World} {cache : Cache} {log notes : List Note} {name : Key}
  {st st' : LocalState} {key : Key} {r : CacheRevision} {m : CacheMutation}

def Note.subject : Note → Option Key
  | .handed mutation => some mutation.store
  | .returned _ => none
  | .hit store _ _ => some store
  | .resync store => some store
  | .recovered store => some store

/-- After a note: a store that has to be resynchronised stays so until it is recovered. -/
def Note.certainty (name : Key) (uncertain : Bool) : Note → Bool
  | .resync store => if store = name then true else uncertain
  | .recovered store => if store = name then false else uncertain
  | .handed _ | .returned _ | .hit _ _ _ => uncertain

def uncertain (log : List Note) (name : Key) : Bool := log.foldl (Note.certainty name) false

theorem certainty_other {note : Note} (h : note.subject ≠ some name) (u : Bool) :
    Note.certainty name u note = u := by
  cases note with
  | resync store | recovered store => exact if_neg fun heq => h (congrArg some heq)
  | handed mutation | returned mutation | hit store key r => rfl

theorem uncertain_append (log notes : List Note) (name : Key) :
    uncertain (log ++ notes) name = notes.foldl (Note.certainty name) (uncertain log name) :=
  foldl_append ..

theorem uncertain_other (h : ∀ note ∈ notes, note.subject ≠ some name) :
    uncertain (log ++ notes) name = uncertain log name := by
  rw [uncertain_append]
  induction notes generalizing log with
  | nil => rfl
  | cons note notes ih =>
    rw [foldl_cons, certainty_other (h note mem_cons_self)]
    exact ih fun note hmem => h note (mem_cons_of_mem _ hmem)

/-- What a store recalls of its history. -/
structure Recalls (log : List Note) (name : Key) (st : LocalState) : Prop where
  above : Above st
  handed : ∀ m, .handed m ∈ log → m.store = name → Knows st m
  hit : ∀ key r, .hit name key r ∈ log → Remembers st key r
  source : ∀ key payload r expiresAtMs, (key, .present payload r expiresAtMs) ∈ st.slots →
    .handed (.put name key r expiresAtMs payload) ∈ log
  certain : uncertain log name = true → st.coherent = false

theorem Recalls.other (h : Recalls log name st)
    (hnotes : ∀ note ∈ notes, note.subject ≠ some name) : Recalls (log ++ notes) name st := by
  refine ⟨h.above, fun m hmem hstore => ?_, fun key r hmem => ?_, fun key payload r e hmem => ?_,
    fun hu => ?_⟩
  · rcases mem_append.mp hmem with hmem | hmem
    · exact h.handed m hmem hstore
    · exact absurd (congrArg some hstore) (hnotes _ hmem)
  · rcases mem_append.mp hmem with hmem | hmem
    · exact h.hit key r hmem
    · exact absurd rfl (hnotes _ hmem)
  · exact mem_append_left _ (h.source key payload r e hmem)
  · rw [uncertain_other hnotes] at hu
    exact h.certain hu

theorem Recalls.take (h : Recalls log name st) (hm : m.store = name) (htakes : Takes st m st') :
    Recalls (log ++ [.handed m]) name st' := by
  refine ⟨htakes.above h.above, fun m' hmem hstore => ?_, fun key r hmem => ?_,
    fun key payload r e hmem => ?_, fun hu => ?_⟩
  · rcases mem_append.mp hmem with hmem | hmem
    · exact htakes.grows.knows (h.handed m' hmem hstore)
    · rw [mem_singleton] at hmem
      cases hmem
      exact htakes.knows
  · rcases mem_append.mp hmem with hmem | hmem
    · exact htakes.grows.remembers key r (h.hit key r hmem)
    · cases mem_singleton.mp hmem
  · rcases htakes.slots _ hmem with hmem | hadds
    · exact mem_append_left _ (h.source key payload r e hmem)
    · apply mem_append_right
      cases m with
      | put store key' r' e' payload' =>
        rcases hadds with hadds | hadds
        · cases hadds
          cases hm
          exact mem_singleton.mpr rfl
        · cases hadds
      | delete store key' r' => cases hadds
      | reset store r' => cases hadds
  · rw [uncertain_append] at hu
    rw [htakes.coherent]
    exact h.certain hu

theorem Recalls.read (h : Recalls log name st) (bodies : Nat → List UInt8) (available : Bool)
    (key : Key) (now : Nat) :
    Recalls (log ++ readNotes name key (st.readAt bodies available key now).2) name
      (st.readAt bodies available key now).1 := by
  have hreads := readAt_reads st bodies available key now
  refine ⟨hreads.above h.above, fun m hmem hstore => ?_, fun key' r hmem => ?_,
    fun key' payload r e hmem => ?_, fun hu => ?_⟩
  · apply hreads.grows.knows
    rcases mem_append.mp hmem with hmem | hmem
    · exact h.handed m hmem hstore
    · cases hread : (st.readAt bodies available key now).2 with
      | hit entry =>
        rw [hread] at hmem
        cases mem_singleton.mp hmem
      | miss | resyncRequired =>
        rw [hread] at hmem
        cases hmem
  · rcases mem_append.mp hmem with hmem | hmem
    · exact hreads.grows.remembers key' r (h.hit key' r hmem)
    · cases hread : (st.readAt bodies available key now).2 with
      | hit entry =>
        rw [hread] at hmem
        cases mem_singleton.mp hmem
        obtain ⟨-, payload, hpeek, -⟩ := readAt_hit hread
        exact hreads.grows.remembers key _ (.inr ⟨_, hpeek, le_refl _⟩)
      | miss | resyncRequired =>
        rw [hread] at hmem
        cases hmem
  · apply mem_append_left
    rcases hreads.slots _ hmem with hmem | ⟨old, -, heq⟩
    · exact h.source key' payload r e hmem
    · cases heq
  · rw [hreads.coherent]
    apply h.certain
    rw [uncertain_append] at hu
    cases hread : (st.readAt bodies available key now).2 with
    | hit entry =>
      rw [hread] at hu
      exact hu
    | miss | resyncRequired =>
      rw [hread] at hu
      exact hu

theorem Recalls.resync (h : Recalls log name st) :
    Recalls (log ++ [.resync name]) name st.requireResync := by
  have hgrows := grows_requireResync st
  refine ⟨fun _ _ entry hmem => absurd hmem not_mem_nil, fun m hmem hstore => ?_,
    fun key r hmem => ?_, fun key payload r e hmem => absurd hmem not_mem_nil, fun _ => rfl⟩
  · rcases mem_append.mp hmem with hmem | hmem
    · exact hgrows.knows (h.handed m hmem hstore)
    · cases mem_singleton.mp hmem
  · rcases mem_append.mp hmem with hmem | hmem
    · exact hgrows.remembers key r (h.hit key r hmem)
    · cases mem_singleton.mp hmem

theorem Recalls.recovered (h : Recalls log name st) {floor : Nat}
    (hfloor : ∀ entry ∈ st.slots, entry.2.revision.sequence ≤ floor) :
    Recalls (log ++ [.recovered name]) name (st.recoverFromBacking floor) := by
  have hgrows := grows_recoverFromBacking hfloor
  refine ⟨fun _ _ entry hmem => absurd hmem not_mem_nil, fun m hmem hstore => ?_,
    fun key r hmem => ?_, fun key payload r e hmem => absurd hmem not_mem_nil, fun hu => ?_⟩
  · rcases mem_append.mp hmem with hmem | hmem
    · exact hgrows.knows (h.handed m hmem hstore)
    · cases mem_singleton.mp hmem
  · rcases mem_append.mp hmem with hmem | hmem
    · exact hgrows.remembers key r (h.hit key r hmem)
    · cases mem_singleton.mp hmem
  · rw [uncertain_append] at hu
    have hfalse : ([.recovered name] : List Note).foldl (Note.certainty name) (uncertain log name) =
        false := if_pos rfl
    rw [hfalse] at hu
    cases hu

/-- The history of a cache fits its stores. -/
structure Faithful (stores : List (Key × LocalState)) (log : List Note) : Prop where
  nodup : (names stores).Nodup
  store : ∀ name st, (name, st) ∈ stores → Recalls log name st
  subject : ∀ note ∈ log, ∀ name, note.subject = some name → name ∈ names stores
  returned : ∀ m, .returned m ∈ log → .handed m ∈ log

theorem lookup_mem {stores : List (Key × LocalState)} (h : stores.lookup name = some st) :
    (name, st) ∈ stores := by
  obtain ⟨before, after, rfl, -⟩ := lookup_eq_some_iff.mp h
  exact mem_append_right _ mem_cons_self

theorem Faithful.section (h : Faithful cache.stores cache.log) {f : LocalState → LocalState}
    (hrecalls : ∀ st, (name, st) ∈ cache.stores → Recalls cache.log name st →
      Recalls (cache.log ++ notes) name (f st))
    (hsubject : ∀ note ∈ notes, note.subject = some name) :
    Faithful (cache.section name f notes).stores (cache.section name f notes).log := by
  unfold Cache.section
  split
  · rename_i hname
    refine ⟨?_, fun name' st' hmem => ?_, fun note hmem name' hnote => ?_, fun m hmem => ?_⟩
    · dsimp only
      rw [names_updateStore]
      exact h.nodup
    · rcases mem_updateStore hmem with ⟨rfl, st, hst, rfl⟩ | ⟨hne, hst⟩
      · exact hrecalls st hst (h.store _ st hst)
      · apply (h.store name' st' hst).other
        intro note hnote heq
        rw [hsubject note hnote] at heq
        exact hne (Option.some.inj heq).symm
    · dsimp only
      rw [names_updateStore]
      rcases mem_append.mp hmem with hmem | hmem
      · exact h.subject note hmem name' hnote
      · rw [hsubject note hmem] at hnote
        cases hnote
        exact hname
    · rcases mem_append.mp hmem with hmem | hmem
      · exact mem_append_left _ (h.returned m hmem)
      · cases hsubject _ hmem
  · exact h

theorem Recalls.init (h : ∀ note ∈ log, note.subject ≠ some name) : Recalls log name .init := by
  have hnil : Recalls [] name .init :=
    ⟨fun _ hfloor => (nomatch hfloor), fun _ hmem => (nomatch hmem), fun _ _ hmem => (nomatch hmem),
      fun _ _ _ _ hmem => (nomatch hmem), fun hu => (nomatch hu)⟩
  exact hnil.other h

theorem Faithful.openWrite (h : Faithful cache.stores cache.log)
    (hname : name ∉ names cache.stores) :
    Faithful (cache.stores ++ [(name, .init)]) cache.log := by
  refine ⟨?_, fun name' st hmem => ?_, fun note hmem name' hnote => ?_, h.returned⟩
  · rw [names, map_append, nodup_append]
    refine ⟨h.nodup, by simp, ?_⟩
    intro a ha b hb
    rw [mem_singleton.mp hb]
    rintro rfl
    exact hname ha
  · rcases mem_append.mp hmem with hmem | hmem
    · exact h.store name' st hmem
    · cases mem_singleton.mp hmem
      exact .init fun note hmem heq => hname (h.subject note hmem name heq)
  · rw [names, map_append]
    exact mem_append_left _ (h.subject note hmem name' hnote)

theorem Faithful.mutated (h : Faithful cache.stores cache.log) (hm : .handed m ∈ cache.log) :
    Faithful cache.stores (cache.log ++ [.returned m]) := by
  have hsubject : ∀ note ∈ ([.returned m] : List Note), note.subject = none := by
    intro note hmem
    rw [mem_singleton.mp hmem]
    rfl
  refine ⟨h.nodup, fun name st hmem => (h.store name st hmem).other fun note hmem => ?_,
    fun note hmem name hnote => ?_, fun m' hmem => ?_⟩
  · rw [hsubject note hmem]
    simp
  · rcases mem_append.mp hmem with hmem | hmem
    · exact h.subject note hmem name hnote
    · rw [hsubject note hmem] at hnote
      cases hnote
  · rcases mem_append.mp hmem with hmem | hmem
    · exact mem_append_left _ (h.returned m' hmem)
    · cases mem_singleton.mp hmem
      exact mem_append_left _ hm

def Stage.target : Stage → Option Key
  | .mutate request => some request.store
  | .mint draft | .publish draft _ => some draft.store
  | .install mutation => some mutation.store
  | _ => none

/-- The invariant of a call. -/
structure Stands (cache : Cache) (stage : Stage) : Prop where
  target : ∀ name, stage.target = some name → name ∈ names cache.stores
  handed : ∀ m, stage = .mutated m → .handed m ∈ cache.log

structure Extends (cache cache' : Cache) : Prop where
  names : ∀ name ∈ OrbitCache.names cache.stores, name ∈ OrbitCache.names cache'.stores
  log : ∀ note ∈ cache.log, note ∈ cache'.log

theorem Extends.refl (cache : Cache) : Extends cache cache := ⟨fun _ h => h, fun _ h => h⟩

theorem Stands.mono {cache' : Cache} {stage : Stage} (h : Stands cache stage)
    (hext : Extends cache cache') : Stands cache' stage :=
  ⟨fun name hname => hext.names name (h.target name hname),
    fun m hm => hext.log _ (h.handed m hm)⟩

theorem extends_section (cache : Cache) (name : Key) (f : LocalState → LocalState)
    (notes : List Note) : Extends cache (cache.section name f notes) := by
  unfold Cache.section
  split
  · refine ⟨fun name' hmem => ?_, fun note hmem => mem_append_left _ hmem⟩
    dsimp only
    rw [names_updateStore]
    exact hmem
  · exact .refl cache

def covers (cache : Cache) : Stage → Bool
  | .recoverVisit floor (name :: _) => cache.stores.all fun entry =>
    entry.1 ≠ name || entry.2.slots.all fun slot => slot.2.revision.sequence ≤ floor
  | _ => true

/-- What a step keeps of its cache. -/
structure Goes (cache : Cache) (move : Move) : Prop where
  faithful : Faithful move.cache.stores move.cache.log
  grows : Extends cache move.cache
  stands : Stands move.cache move.stage

theorem Goes.go (h : Faithful cache.stores cache.log) {stage : Stage} (hstands : Stands cache stage) :
    Goes cache (w.go cache stage) := ⟨h, .refl _, hstands⟩

theorem Stands.free {stage : Stage} (htarget : stage.target = none)
    (hstage : ∀ m, stage ≠ .mutated m) : Stands cache stage := by
  refine ⟨fun name hname => ?_, fun m hm => absurd hm (hstage m)⟩
  rw [htarget] at hname
  cases hname

theorem Goes.section (h : Faithful cache.stores cache.log) {f : LocalState → LocalState}
    {stage : Stage} (hrecalls : ∀ st, (name, st) ∈ cache.stores → Recalls cache.log name st →
      Recalls (cache.log ++ notes) name (f st))
    (hsubject : ∀ note ∈ notes, note.subject = some name)
    (hstands : Stands (cache.section name f notes) stage) :
    Goes cache (w.go (cache.section name f notes) stage) :=
  ⟨h.section hrecalls hsubject, extends_section .., hstands⟩

theorem handed_section {f : LocalState → LocalState} (hname : m.store ∈ names cache.stores) :
    .handed m ∈ (cache.section m.store f [.handed m]).log := by
  rw [Cache.section, if_pos hname]
  exact mem_append_right _ (mem_singleton.mpr rfl)

theorem subject_singleton {note : Note} (h : note.subject = some name) :
    ∀ note' ∈ [note], note'.subject = some name := by
  intro note' hmem
  rw [mem_singleton.mp hmem]
  exact h

theorem readNotes_subject (store key : Key) (read : CacheRead) :
    ∀ note ∈ readNotes store key read, note.subject = some store := by
  cases read with
  | hit entry => exact subject_singleton rfl
  | miss | resyncRequired => exact fun _ hmem => (nomatch hmem)

theorem goes_prepare (h : Faithful cache.stores cache.log) {request : Request}
    (hstands : Stands cache (.mutate request)) (choice : Choice) :
    Goes cache (w.prepare layout cache choice request) := by
  have htarget : ∀ draft : Draft, draft.store = request.store → Stands cache (.mint draft) := by
    intro draft hdraft
    refine ⟨fun name hname => hstands.target name ?_, fun _ hm => (nomatch hm)⟩
    rw [← hname]
    exact congrArg some hdraft.symm
  unfold World.prepare
  split
  · exact .go h (.free rfl fun _ hm => (nomatch hm))
  · cases request with
    | put store key value ttl =>
      dsimp only
      split
      · exact ⟨h, .refl _, htarget _ rfl⟩
      · exact .go h (.free rfl fun _ hm => (nomatch hm))
    | delete store key => exact .go h (htarget _ rfl)
    | reset store => exact .go h (htarget _ rfl)

theorem Draft.store_mutation (draft : Draft) (revision : CacheRevision) :
    (draft.mutation revision).store = draft.store := by
  cases draft with
  | put store key expiresAtMs payload | delete store key | reset store => rfl

theorem goes_fetch (h : Faithful cache.stores cache.log) (fates : List Fate) :
    Goes cache (w.fetch cache fates) := by
  unfold World.fetch
  dsimp only
  split
  · exact ⟨h, ⟨fun _ hmem => hmem, fun _ hmem => hmem⟩, .free rfl fun _ hm => (nomatch hm)⟩
  · exact ⟨h, ⟨fun _ hmem => hmem, fun _ hmem => hmem⟩, .free rfl fun _ hm => (nomatch hm)⟩

theorem goes_read (h : Faithful cache.stores cache.log) (store key : Key) (choice : Choice) :
    Goes cache (act layout w cache (.read store key) choice) := by
  rw [act]
  split
  · exact .go h (.free rfl fun _ hm => (nomatch hm))
  · rename_i st hlookup
    have hst : (store, st) ∈ cache.stores := lookup_mem hlookup
    refine .section h (fun st' hst' hrecalls => ?_) (readNotes_subject store key _)
      (.free rfl fun _ hm => (nomatch hm))
    have hsame : (store, st') = (store, st) := inj_on_of_nodup_map h.nodup hst' hst rfl
    cases hsame
    exact hrecalls.read ..

theorem act_goes (h : Faithful cache.stores cache.log) {stage : Stage}
    (hstands : Stands cache stage) (hcovers : covers cache stage) (choice : Choice) :
    Goes cache (act layout w cache stage choice) := by
  have hfinished : Stands cache .finished := .free rfl fun _ hm => (by cases hm)
  cases stage with
  | mutate request => exact goes_prepare h hstands choice
  | mint draft =>
    rw [act]
    split
    · exact ⟨h, .refl _, hstands.target, fun _ hm => (by cases hm)⟩
    · exact ⟨h, .refl _, .free rfl fun _ hm => (by cases hm)⟩
  | publish draft sequence =>
    rw [act]
    split
    · refine ⟨h, .refl _, fun name hname => hstands.target name ?_, fun _ hm => (by cases hm)⟩
      rw [← hname]
      exact congrArg some (draft.store_mutation _).symm
    · exact ⟨h, .refl _, .free rfl fun _ hm => (by cases hm)⟩
  | install mutation =>
    refine .section h (fun st hst hrecalls => hrecalls.take rfl (install_takes ..))
      (subject_singleton rfl) ⟨fun _ hname => (by cases hname), ?_⟩
    rintro _ ⟨⟩
    exact handed_section (hstands.target _ rfl)
  | mutated mutation =>
    refine ⟨h.mutated (hstands.handed mutation rfl), ⟨fun _ hmem => hmem, fun _ hmem =>
      mem_append_left _ hmem⟩, .free rfl fun _ hm => (by cases hm)⟩
  | failed e => exact .go h hstands
  | openRead name =>
    rw [act]
    split
    · exact .go h (.free rfl fun _ hm => (by cases hm))
    · split
      · exact .go h hfinished
      · exact .go h (.free rfl fun _ hm => (by cases hm))
  | openWrite name =>
    rw [act]
    split
    · exact .go h hfinished
    · rename_i hname
      refine ⟨h.openWrite hname, ⟨fun name' hmem => ?_, fun _ hmem => hmem⟩,
        .free rfl fun _ hm => (by cases hm)⟩
      dsimp only [World.go]
      rw [names, map_append]
      exact mem_append_left _ hmem
  | pollFetch =>
    rw [act]
    split
    · exact .go h hstands
    · exact goes_fetch h choice.fates
  | pollCollect mutations => exact .go h (.free rfl fun _ hm => (by cases hm))
  | pollResync remaining mutations =>
    cases remaining with
    | nil => exact .go h (.free rfl fun _ hm => (by cases hm))
    | cons name remaining =>
      exact .section h (fun st hst hrecalls => hrecalls.resync) (subject_singleton rfl)
        (.free rfl fun _ hm => (by cases hm))
  | pollLookup mutations =>
    cases mutations with
    | nil => exact .go h hfinished
    | cons mutation mutations =>
      rw [act]
      split
      · exact .go h (.free rfl fun _ hm => (by cases hm))
      · exact .go h (.free rfl fun _ hm => (by cases hm))
  | pollApply mutation mutations =>
    exact .section h (fun st hst hrecalls => hrecalls.take rfl (apply_takes ..))
      (subject_singleton rfl) (.free rfl fun _ hm => (by cases hm))
  | recoverLock =>
    rw [act]
    split
    · exact .go h hstands
    · exact ⟨h, ⟨fun _ hmem => hmem, fun _ hmem => hmem⟩, .free rfl fun _ hm => (by cases hm)⟩
  | recoverHead =>
    exact ⟨h, ⟨fun _ hmem => hmem, fun _ hmem => hmem⟩, .free rfl fun _ hm => (by cases hm)⟩
  | recoverFloor => exact .go h (.free rfl fun _ hm => (by cases hm))
  | recoverCollect floor => exact .go h (.free rfl fun _ hm => (by cases hm))
  | recoverVisit floor remaining =>
    cases remaining with
    | nil =>
      exact ⟨h, ⟨fun _ hmem => hmem, fun _ hmem => hmem⟩, .free rfl fun _ hm => (by cases hm)⟩
    | cons name remaining =>
      refine .section h (fun st hst hrecalls => hrecalls.recovered fun slot hslot => ?_)
        (subject_singleton rfl) (.free rfl fun _ hm => (by cases hm))
      have hentry := all_eq_true.mp hcovers _ hst
      simp only [ne_eq, not_true_eq_false, decide_false, Bool.false_or, all_eq_true,
        decide_eq_true_eq] at hentry
      exact hentry slot hslot
  | read store key => exact goes_read h store key choice
  | finished => exact .go h hstands

/-- The condition on a step: a recovery forgets no revision of the store that it clears. -/
def fits (w : World) : Op → Bool
  | .step id _ =>
    match w.tasks[id]? with
    | none => true
    | some task =>
      match w.caches[task.process]? with
      | none => true
      | some cache => covers cache task.stage
  | .join _ | .call _ _ => true

/-- The invariant of a run. -/
structure Sound (w : World) : Prop where
  faithful : ∀ cache ∈ w.caches, Faithful cache.stores cache.log
  stands : ∀ task ∈ w.tasks, ∃ cache, w.caches[task.process]? = some cache ∧
    Stands cache task.stage

theorem Sound.init : Sound .init :=
  ⟨fun _ hmem => (nomatch hmem), fun _ hmem => (nomatch hmem)⟩

theorem Sound.join (h : Sound w) (replay : Bool) : Sound (exec layout w (.join replay)) := by
  refine ⟨fun cache hmem => ?_, fun task htask => ?_⟩
  · rcases mem_append.mp hmem with hmem | hmem
    · exact h.faithful cache hmem
    · rw [mem_singleton.mp hmem]
      exact ⟨nodup_nil, fun _ _ hmem => (nomatch hmem), fun _ hmem => (nomatch hmem),
        fun _ hmem => (nomatch hmem)⟩
  · obtain ⟨cache, hcache, hstands⟩ := h.stands task htask
    refine ⟨cache, ?_, hstands⟩
    rw [exec, getElem?_append_left (List.getElem?_eq_some_iff.mp hcache).1]
    exact hcache

theorem call_stands {call : Call} (h : ∀ name ∈ call.handle, name ∈ names cache.stores) :
    Stands cache call.stage := by
  cases call with
  | mutate request => exact ⟨fun name hname => h name hname, fun _ hm => (nomatch hm)⟩
  | openStore name | poll | recoverFromBacking | read store key =>
    exact .free rfl fun _ hm => (nomatch hm)

theorem Sound.call (h : Sound w) (process : Nat) (call : Call) :
    Sound (exec layout w (.call process call)) := by
  rw [exec]
  split
  · exact h
  rename_i cache hcache
  split
  · rename_i hhandle
    refine ⟨h.faithful, fun task htask => ?_⟩
    rcases mem_append.mp htask with htask | htask
    · exact h.stands task htask
    · rw [mem_singleton.mp htask]
      exact ⟨cache, hcache, call_stands hhandle⟩
  · exact h

theorem Sound.step (h : Sound w) (id : Nat) (choice : Choice)
    (hfits : fits w (.step id choice)) : Sound (exec layout w (.step id choice)) := by
  rw [exec]
  split
  · exact h
  rename_i task htask
  split
  · exact h
  rename_i cache hcache
  have hcovers : covers cache task.stage := by
    rw [fits, htask] at hfits
    dsimp only at hfits
    rw [hcache] at hfits
    exact hfits
  obtain ⟨cache', hcache', hstands⟩ := h.stands task (mem_of_getElem? htask)
  rw [hcache] at hcache'
  cases hcache'
  have hlt := (List.getElem?_eq_some_iff.mp hcache).1
  have hgoes : Goes cache (act layout w cache task.stage choice) := act_goes
    (h.faithful cache (mem_of_getElem? hcache)) hstands hcovers choice
  generalize act layout w cache task.stage choice = move at hgoes
  refine ⟨fun cache' hmem => ?_, fun task' htask' => ?_⟩
  · obtain ⟨cache'', hset, rfl⟩ := mem_map.mp hmem
    rcases mem_or_eq_of_mem_set hset with hset | rfl
    · exact h.faithful cache'' hset
    · exact hgoes.faithful
  · dsimp only at htask' ⊢
    rw [getElem?_map]
    rcases mem_or_eq_of_mem_set htask' with htask' | rfl
    · obtain ⟨cache', hcache', hstands'⟩ := h.stands task' htask'
      by_cases hsame : task'.process = task.process
      · rw [hsame, hcache] at hcache'
        cases hcache'
        rw [hsame, getElem?_set_self hlt]
        exact ⟨_, rfl, hstands'.mono ⟨hgoes.grows.names, hgoes.grows.log⟩⟩
      · rw [getElem?_set_ne (Ne.symm hsame), hcache']
        exact ⟨_, rfl, hstands'.mono ⟨fun _ hmem => hmem, fun _ hmem => hmem⟩⟩
    · rw [getElem?_set_self hlt]
      exact ⟨_, rfl, hgoes.stands.mono ⟨fun _ hmem => hmem, fun _ hmem => hmem⟩⟩

theorem run_sound {ops : List Op} (h : Meets (exec layout) (fun w op => fits w op) .init ops) :
    Sound (run layout ops) := by
  refine h.holds (fun w op hw hop => ?_) .init
  cases op with
  | join replay => exact hw.join replay
  | call process call => exact hw.call process call
  | step id choice => exact hw.step id choice hop

/-- A `put` or `delete` of a key of a store. -/
def CacheMutation.OfKey (name key : Key) : CacheMutation → Prop
  | .put store key' _ _ _ | .delete store key' _ => store = name ∧ key' = key
  | .reset _ _ => False

/-- The newest mutation of a key that was handed to the store is a `delete`. -/
def NewestDelete (log : List Note) (name key : Key) : Prop :=
  ∃ r, .handed (.delete name key r) ∈ log ∧
    ∀ r' expiresAtMs payload, .handed (.put name key r' expiresAtMs payload) ∈ log → r' < r

/-- A `reset` that was handed to the store covers every `put` of the key that was. -/
def ResetCovers (log : List Note) (name key : Key) : Prop :=
  ∃ r, .handed (.reset name r) ∈ log ∧ ∀ r' expiresAtMs payload,
    .handed (.put name key r' expiresAtMs payload) ∈ log → r'.sequence < r.sequence

/-- What the session guarantees of a hit. -/
structure Guaranteed (log : List Note) (name key : Key) (r : CacheRevision) : Prop where
  /-- No loss was applied to the store since its last recovery. -/
  certain : uncertain log name = false
  /-- No mutation of the key that this process returned is newer. -/
  returned : ∀ m, .returned m ∈ log → m.OfKey name key → m.revision ≤ r
  /-- No earlier hit of the key was newer. -/
  hit : ∀ r', .hit name key r' ∈ log → r' ≤ r
  delete : ¬NewestDelete log name key
  reset : ¬ResetCovers log name key

theorem Recalls.guaranteed (h : Recalls log name st) (hreturned : ∀ m, .returned m ∈ log →
    .handed m ∈ log) {bodies : Nat → List UInt8} {available : Bool} {now : Nat}
    {entry : CacheEntry} (hhit : (st.readAt bodies available key now).2 = .hit entry) :
    Guaranteed log name key entry.revision := by
  obtain ⟨hcoherent, payload, hpeek, -⟩ := readAt_hit hhit
  have hsource := h.source key payload entry.revision entry.expiresAtMs (peek_mem hpeek)
  have hhanded : ∀ m, .handed m ∈ log → m.OfKey name key → m.revision ≤ entry.revision := by
    intro m hm hkey
    cases m with
    | put store key' r expiresAtMs payload' | delete store key' r =>
      obtain ⟨rfl, rfl⟩ := hkey
      exact hit_remembers hhit h.above (h.handed _ hm rfl)
    | reset store r => cases hkey
  refine ⟨?_, fun m hm => hhanded m (hreturned m hm), fun r hr => ?_, ?_, ?_⟩
  · by_contra hu
    rw [Bool.not_eq_false] at hu
    rw [h.certain hu] at hcoherent
    cases hcoherent
  · exact hit_remembers hhit h.above (h.hit key r hr)
  · rintro ⟨r, hr, hnewest⟩
    have hle := hhanded _ hr ⟨rfl, rfl⟩
    exact absurd (hnewest _ _ _ hsource) (not_lt.mpr hle)
  · rintro ⟨r, hr, hcovers⟩
    have hlt := hit_above hhit h.above (h.handed _ hr rfl)
    exact absurd (hcovers _ _ _ hsource) (Nat.lt_asymm hlt)

/-- In every run whose recoveries forget nothing, in every state that it reaches, every hit of
every store keeps the guarantees of the session. -/
theorem session_guarantees (layout : CacheLayout) (ops : List Op)
    (h : Meets (exec layout) (fun w op => fits w op) .init ops) :
    ∀ cache ∈ (run layout ops).caches, ∀ name st, (name, st) ∈ cache.stores →
      ∀ key available now entry,
        (st.readAt (run layout ops).body available key now).2 = .hit entry →
          Guaranteed cache.log name key entry.revision := by
  intro cache hcache name st hst key available now entry hhit
  have hfaithful := (run_sound h).faithful cache hcache
  exact (hfaithful.store name st hst).guaranteed hfaithful.returned hhit

/-- A recovery reads the floor, two `put`s of one key take their sequences and the second returns,
the recovery clears the store and the first `put` is installed. -/
def recoveryRun : List Op :=
  [.join false, .call 0 (.openStore [7]), .step 0 granted, .step 0 granted,
    .call 0 .recoverFromBacking] ++ replicate 4 (.step 1 granted) ++
  [.call 0 (.mutate (.put [7] [1] [10] none))] ++ replicate 3 (.step 2 granted) ++
  [.call 0 (.mutate (.put [7] [1] [20] none))] ++ replicate 5 (.step 3 granted) ++
  [.step 1 granted, .step 2 granted]

theorem recovery_forgets :
    ¬∀ cache ∈ (run sampleLayout recoveryRun).caches, ∀ name st, (name, st) ∈ cache.stores →
      ∀ key available now entry,
        (st.readAt (run sampleLayout recoveryRun).body available key now).2 = .hit entry →
          Guaranteed cache.log name key entry.revision := by
  intro h
  have hguaranteed := h ((run sampleLayout recoveryRun).caches.get ⟨0, by decide⟩)
    (get_mem _ _) [7]
    (((run sampleLayout recoveryRun).caches.get ⟨0, by decide⟩).stores.get ⟨0, by decide⟩).2
    (get_mem _ ⟨0, by decide⟩) [1] true 0 ⟨[10], ⟨1, 0⟩, none⟩ (by decide)
  have hreturned := hguaranteed.returned (.put [7] [1] ⟨2, 0⟩ none ⟨1, 1⟩) (by decide) ⟨rfl, rfl⟩
  exact absurd hreturned (by decide)

/-- A `put`, a loss, a recovery and another `put`. -/
def lossRun : List Op :=
  [.join false, .call 0 (.openStore [7]), .step 0 granted, .step 0 granted,
    .call 0 (.mutate (.put [7] [1] [10] none))] ++ replicate 5 (.step 1 granted) ++
  [.call 0 .poll, .step 2 { granted with fates := [.lose] }] ++ replicate 3 (.step 2 granted) ++
  [.call 0 .recoverFromBacking] ++ replicate 6 (.step 3 granted) ++
  [.call 0 (.mutate (.put [7] [1] [20] none))] ++ replicate 5 (.step 4 granted)

theorem session_guarantees_lossRun :
    Guaranteed ((run sampleLayout lossRun).caches.get ⟨0, by decide⟩).log [7] [1] ⟨2, 0⟩ :=
  session_guarantees sampleLayout lossRun (by decide)
    ((run sampleLayout lossRun).caches.get ⟨0, by decide⟩) (get_mem _ _) [7]
    (((run sampleLayout lossRun).caches.get ⟨0, by decide⟩).stores.get ⟨0, by decide⟩).2
    (get_mem _ ⟨0, by decide⟩) [1] true 0 ⟨[20], ⟨2, 0⟩, none⟩ (by decide)

end OrbitCache
