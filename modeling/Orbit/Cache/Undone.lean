import Orbit.Arena.Writes
import Orbit.Cache.Local
import Orbit.Cache.Arrivals
import Orbit.Cache.Writing

/-! A write that fails leaves nothing behind: what it stored is withdrawn, and the stores of every
process go on as if it had not been made. -/

namespace OrbitCache.Writing

open List Function
open OrbitArena (Geometry Arena Address ArenaInv Spares)

variable {z : Sizes} {g : Geometry} {w w' : World} {client : Client} {cache : Cache}
  {p : PayloadRef} {K : PayloadRef → Prop} {process : Nat} {m : CacheMutation}

/-- The record of a body is still there. -/
def World.Keeps (w : World) (p : PayloadRef) : Prop :=
  (w.arena.slots p.slot).state = .addressed ∧ (w.arena.slots p.slot).generation = p.generation

theorem pinEntry_isSome {a : Arena} {reader index generation : Nat} :
    (OrbitArena.pinEntry g reader index generation none a).2.isSome = true ↔
      index < g.slots ∧ a.pin reader index + 1 < 2 ^ 32 ∧
        (a.slots index).state = .addressed ∧ (a.slots index).generation = generation := by
  unfold OrbitArena.pinEntry
  split
  · rename_i hslots
    exact ⟨fun h => (by cases h), fun h => absurd h.1 (Nat.not_lt.mpr hslots)⟩
  rename_i hslots
  split
  · rename_i hpin
    exact ⟨fun h => (by cases h), fun h => absurd h.2.1 (Nat.not_lt.mpr hpin)⟩
  rename_i hpin
  split
  · rename_i hfound
    exact ⟨fun _ => ⟨Nat.lt_of_not_le hslots, Nat.lt_of_not_le hpin, of_decide_eq_true hfound.2,
      hfound.1⟩, fun _ => rfl⟩
  · rename_i hfound
    exact ⟨fun h => (by cases h), fun h => absurd ⟨h.2.2.2, decide_eq_true h.2.2.1⟩ hfound⟩

theorem has_iff {reader : Nat} : w.has g reader p = true ↔
    (p.slot < g.slots ∧ w.arena.pin reader p.slot + 1 < 2 ^ 32 ∧ w.Keeps p) ∧
      (w.arena.slots p.slot).bodyLen = p.valueLen := by
  rw [World.has, Bool.and_eq_true, pinEntry_isSome, beq_iff_eq]
  rfl

/-- The mutations that the cache has yet to read and the slots of its stores refer to the body. -/
def Refers (cache : Cache) (p : PayloadRef) : Prop :=
  (∃ store key r expiresAtMs, CacheMutation.put store key r expiresAtMs p ∈ cache.pending) ∨
    ∃ name st key r expiresAtMs, (name, st) ∈ cache.stores ∧
      (key, LocalSlot.present p r expiresAtMs) ∈ st.slots

theorem refers_section {name : Key} {f : LocalState → LocalState}
    (h : Refers (cache.section name f []) p) : Refers cache p ∨
      ∃ st key r expiresAtMs, (name, st) ∈ cache.stores ∧
        (key, LocalSlot.present p r expiresAtMs) ∈ (f st).slots := by
  rcases h with ⟨store, key, r, expiresAtMs, hmem⟩ | ⟨name', st', key, r, expiresAtMs, hst, hmem⟩
  · rw [section_pending] at hmem
    exact .inl (.inl ⟨store, key, r, expiresAtMs, hmem⟩)
  · rcases mem_section hst with ⟨-, st, hold, rfl⟩ | ⟨-, hold⟩
    · exact .inr ⟨st, key, r, expiresAtMs, hold, hmem⟩
    · exact .inl (.inr ⟨name', st', key, r, expiresAtMs, hold, hmem⟩)

section

variable {available available' : PayloadRef → Bool} {fates : List Fate}
  {victims : CacheMutation → Option Key}

theorem refers_take (h : Refers (take available victims cache m) p) : Refers cache p ∨
    ∃ store key r expiresAtMs, m = .put store key r expiresAtMs p := by
  rcases refers_section h with h | ⟨st, key, r, expiresAtMs, hst, hmem⟩
  · exact .inl h
  rcases (apply_takes st m _ (victims m)).slots _ hmem with hmem | hadds
  · exact .inl (.inr ⟨_, st, key, r, expiresAtMs, hst, hmem⟩)
  cases m with
  | put store key' r' expiresAtMs' payload =>
    rcases hadds with heq | heq
    · cases heq
      exact .inr ⟨store, key, r, expiresAtMs, rfl⟩
    · cases heq
  | delete store key' r' => cases hadds
  | reset store r' => exact hadds.elim

theorem refers_resync (h : Refers (resync cache) p) : Refers cache p := by
  rcases h with h | ⟨name, st, key, r, expiresAtMs, hst, hmem⟩
  · exact .inl h
  · obtain ⟨entry, -, heq⟩ := mem_map.mp hst
    cases heq
    cases hmem

theorem refers_poll (h : Refers (poll available fates victims cache) p) : Refers cache p := by
  have hfold : ∀ (mutations : List CacheMutation) (c : Cache),
      (∀ m ∈ mutations, m ∈ cache.pending) → (∀ p, Refers c p → Refers cache p) →
      ∀ p, Refers (mutations.foldl (take available victims) c) p → Refers cache p := by
    intro mutations
    induction mutations with
    | nil => exact fun _ _ hc => hc
    | cons m rest ih =>
      refine fun c hpending hc => ih _ (fun m hm => hpending m (mem_cons_of_mem _ hm)) ?_
      intro p hp
      rcases refers_take hp with hp | ⟨store, key, r, expiresAtMs, rfl⟩
      · exact hc p hp
      · exact .inl ⟨store, key, r, expiresAtMs, hpending _ mem_cons_self⟩
  have hleft : ∀ p, Refers { cache with pending := fated .keep cache.pending fates } p →
      Refers cache p := by
    rintro p (⟨store, key, r, expiresAtMs, hmem⟩ | hslot)
    · exact .inl ⟨store, key, r, expiresAtMs, mem_fated hmem⟩
    · exact .inr hslot
  refine hfold _ _ (fun m hm => mem_fated ((mem_insertionSort _).mp hm)) ?_ p h
  intro p hp
  split at hp
  · exact hleft p hp
  · exact hleft p (refers_resync hp)

theorem poll_congr (fates) (victims) (h : ∀ p, Refers cache p → available p = available' p) :
    poll available fates victims cache = poll available' fates victims cache := by
  refine foldl_ext _ _ _ fun c m hm => ?_
  have hpending : m ∈ cache.pending := mem_fated ((mem_insertionSort _).mp hm)
  cases m with
  | put store key r expiresAtMs payload =>
    rw [take, take, h payload (.inl ⟨store, key, r, expiresAtMs, hpending⟩)]
  | delete store key r => rfl
  | reset store r => rfl

end

/-- Every body that a process refers to is one of these. -/
def World.Within (w : World) (K : PayloadRef → Prop) : Prop :=
  ∀ client ∈ w.clients, ∀ p, Refers client.cache p → K p

/-- The worlds differ in nothing that the living could find out of these bodies. -/
structure Alike (K : PayloadRef → Prop) (w w' : World) : Prop where
  clients : w'.clients = w.clients
  held : w'.arena.held = w.arena.held
  pin : ∀ r, w.arena.held r = true → w'.arena.pin r = w.arena.pin r
  slot : ∀ p, K p → w'.Keeps p ∨ w.Keeps p → w'.arena.slots p.slot = w.arena.slots p.slot
  body : ∀ p, K p → w'.bodies p.generation = w.bodies p.generation

theorem living_some (h : w.living process = some client) :
    w.clients[process]? = some client ∧ w.arena.held client.reader = true := by
  obtain ⟨hclient, hheld⟩ := Option.filter_eq_some_iff.mp h
  exact ⟨hclient, hheld⟩

theorem living_mem (h : w.living process = some client) : client ∈ w.clients :=
  mem_of_getElem? (living_some h).1

theorem Alike.living (h : Alike K w w') : w'.living process = w.living process := by
  rw [World.living, World.living, h.clients, h.held]

theorem Alike.has (h : Alike K w w') (hp : K p) {reader : Nat}
    (hheld : w.arena.held reader = true) : w'.has g reader p = w.has g reader p := by
  rw [Bool.eq_iff_iff, has_iff, has_iff, h.pin reader hheld]
  constructor
  · rintro ⟨⟨hslot, hpin, hkeeps⟩, hlen⟩
    have heq := h.slot p hp (.inl hkeeps)
    rw [World.Keeps, heq] at hkeeps
    rw [heq] at hlen
    exact ⟨⟨hslot, hpin, hkeeps⟩, hlen⟩
  · rintro ⟨⟨hslot, hpin, hkeeps⟩, hlen⟩
    have heq := h.slot p hp (.inr hkeeps)
    rw [World.Keeps, ← heq] at hkeeps
    rw [← heq] at hlen
    exact ⟨⟨hslot, hpin, hkeeps⟩, hlen⟩

theorem Alike.hasSlot (h : Alike K w w') {reader : Nat} (hheld : w.arena.held reader = true)
    {found : Option LocalSlot}
    (hfound : ∀ p r expiresAtMs, found = some (.present p r expiresAtMs) → K p) :
    w'.hasSlot g reader found = w.hasSlot g reader found := by
  rcases found with _ | ⟨payload, r, expiresAtMs⟩ | r
  · rfl
  · exact h.has (hfound payload r expiresAtMs rfl) hheld
  · rfl

theorem Alike.setCache (h : Alike K w w') (process : Nat) (f : Cache → Cache) :
    Alike K (w.setCache process f) (w'.setCache process f) :=
  ⟨by rw [World.setCache, World.setCache, h.clients], h.held, h.pin, h.slot, h.body⟩

theorem World.Within.setCache (h : w.Within K) {f : Cache → Cache}
    (hf : ∀ client, w.clients[process]? = some client → ∀ p, Refers (f client.cache) p → K p) :
    (w.setCache process f).Within K := by
  intro other hother q hq
  obtain ⟨n, hn⟩ := mem_iff_getElem?.mp hother
  rw [World.setCache, getElem?_modify] at hn
  obtain ⟨client, hclient, rfl⟩ := Option.map_eq_some_iff.mp hn
  split at hq
  · rename_i heq
    subst heq
    exact hf client hclient q hq
  · exact h client (mem_of_getElem? hclient) q hq

theorem readAt_congr {st : LocalState} {bodies bodies' : Nat → List UInt8} (available : Bool)
    {key : Key} (now : Nat)
    (h : ∀ p r expiresAtMs, st.slots.peek key = some (.present p r expiresAtMs) →
      bodies p.address = bodies' p.address) :
    st.readAt bodies available key now = st.readAt bodies' available key now := by
  unfold LocalState.readAt
  split
  · rfl
  split
  · rfl
  · rfl
  · rename_i p r expiresAtMs hpeek
    rw [h p r expiresAtMs hpeek]

theorem refers_read {st : LocalState} {bodies : Nat → List UInt8} {available : Bool}
    {store key : Key} {now : Nat} (hst : (store, st) ∈ cache.stores)
    (h : Refers (cache.section store (fun _ => (st.readAt bodies available key now).1) []) p) :
    Refers cache p := by
  rcases refers_section h with h | ⟨-, key', r, expiresAtMs, -, hmem⟩
  · exact h
  · rcases (readAt_reads st bodies available key now).slots _ hmem with hmem | ⟨old, -, heq⟩
    · exact .inr ⟨store, st, key', r, expiresAtMs, hst, hmem⟩
    · cases heq

theorem Alike.use (h : Alike K w w') (hw : w.Within K) (use : Use) :
    (w'.use g use).2 = (w.use g use).2 ∧ Alike K (w.use g use).1 (w'.use g use).1 ∧
      (w.use g use).1.Within K := by
  cases use with
  | poll process fates victims =>
    rw [World.use, World.use, h.living]
    cases hliving : w.living process with
    | none => exact ⟨rfl, h, hw⟩
    | some client =>
      obtain ⟨hclient, hheld⟩ := living_some hliving
      have hin := hw client (living_mem hliving)
      have hpoll := poll_congr fates victims fun p hp =>
        h.has (g := g) (hin p hp) hheld
      refine ⟨rfl, ?_, hw.setCache fun other hother q hq => ?_⟩
      · dsimp only
        rw [hpoll]
        exact h.setCache ..
      · exact hin q (refers_poll hq)
  | read process store key now =>
    rw [World.use, World.use, h.living]
    cases hliving : w.living process with
    | none => exact ⟨rfl, h, hw⟩
    | some client =>
      obtain ⟨hclient, hheld⟩ := living_some hliving
      have hin := hw client (living_mem hliving)
      dsimp only
      cases hst : client.cache.stores.lookup store with
      | none => exact ⟨rfl, h, hw⟩
      | some st =>
        have hstored : (store, st) ∈ client.cache.stores := by
          obtain ⟨before, after, heq, -⟩ := lookup_eq_some_iff.mp hst
          rw [heq]
          exact mem_append_right _ mem_cons_self
        have hfound : ∀ p r expiresAtMs,
            st.slots.peek key = some (.present p r expiresAtMs) → K p :=
          fun p r expiresAtMs hpeek =>
            hin p (.inr ⟨store, st, key, r, expiresAtMs, hstored, peek_mem hpeek⟩)
        have havailable := h.hasSlot (g := g) hheld hfound
        have hbodies : ∀ p r expiresAtMs, st.slots.peek key = some (.present p r expiresAtMs) →
            w'.body p.address = w.body p.address := fun p r expiresAtMs hpeek =>
          h.body p (hfound p r expiresAtMs hpeek)
        have hanswer := readAt_congr (w.hasSlot g client.reader (st.slots.peek key)) now hbodies
        dsimp only
        rw [havailable, hanswer]
        refine ⟨rfl, h.setCache .., hw.setCache fun owner howner q hq => ?_⟩
        obtain rfl := Option.some.inj (howner.symm.trans hclient)
        exact hin q (refers_read hstored hq)

theorem Alike.answers (h : Alike K w w') (hw : w.Within K) (uses : List Use) :
    w'.answers g uses = w.answers g uses := by
  induction uses generalizing w w' with
  | nil => rfl
  | cons use rest ih =>
    obtain ⟨hanswer, halike, hwithin⟩ := h.use (g := g) hw use
    rw [World.answers, World.answers, hanswer, ih halike hwithin]

/-- Nothing has changed but the sequences and the bodies of the arena, and of the bodies that were
there none has been replaced. -/
structure Preserves (w w' : World) : Prop where
  published : w'.published = w.published
  clients : w'.clients = w.clients
  held : w'.arena.held = w.arena.held
  pin : ∀ r, w.arena.held r = true → w'.arena.pin r = w.arena.pin r
  slot : ∀ p, p.generation ≤ w.arena.recordGeneration → w'.Keeps p →
    w'.arena.slots p.slot = w.arena.slots p.slot
  body : ∀ n ≤ w.arena.recordGeneration, w'.bodies n = w.bodies n

theorem Preserves.refl (w : World) : Preserves w w :=
  ⟨rfl, rfl, rfl, fun _ _ => rfl, fun _ _ _ => rfl, fun _ _ => rfl⟩

theorem Preserves.alike (h : Preserves w w')
    (hgeneration : ∀ p, K p → p.generation ≤ w.arena.recordGeneration)
    (hkept : ∀ p, K p → w.Keeps p → w'.Keeps p) : Alike K w w' where
  clients := h.clients
  held := h.held
  pin := h.pin
  slot p hp hkeeps := h.slot p (hgeneration p hp) (hkeeps.elim id (hkept p hp))
  body p hp := h.body _ (hgeneration p hp)

theorem preserves_spares {arena : Arena} (h : Spares w.arena arena) :
    Preserves w { w with arena := arena } ∧
      ∀ p, World.Keeps { w with arena := arena } p → w.Keeps p := by
  have hslot : ∀ p, World.Keeps { w with arena := arena } p →
      arena.slots p.slot = w.arena.slots p.slot := fun p hp =>
    (h.slots p.slot).resolve_right fun hretired => by
      have hstate : (arena.slots p.slot).state = .addressed := hp.1
      rw [hretired] at hstate
      cases hstate
  refine ⟨⟨rfl, rfl, h.held, h.pin, fun p _ hp => hslot p hp, fun _ _ => rfl⟩, fun p hp => ?_⟩
  have hkeeps : (arena.slots p.slot).state = .addressed ∧
      (arena.slots p.slot).generation = p.generation := hp
  rwa [hslot p hp] at hkeeps

theorem addressOf_payload (generation valueLen : Nat) {slot : Nat} (h : slot < 2 ^ 32) :
    PayloadRef.slot ⟨addressOf slot generation, valueLen⟩ = slot ∧
      PayloadRef.generation ⟨addressOf slot generation, valueLen⟩ = generation := by
  simp only [PayloadRef.slot, PayloadRef.generation, addressOf]
  omega

/-- The body is the newest in the arena, and what else is there was there before. -/
structure Stored (z : Sizes) (w w' : World) (payload : PayloadRef) (value : List UInt8) :
    Prop where
  preserves : Preserves w w'
  counter : w'.counter = w.counter
  lt : payload.slot < z.arena.slots
  generation : payload.generation = w.arena.recordGeneration + 1
  recordGeneration : w'.arena.recordGeneration = payload.generation
  keeps : w'.Keeps payload
  body : w'.body payload.address = value
  len : payload.valueLen = value.length
  others : ∀ p, w'.Keeps p →
    w.Keeps p ∨ p.slot = payload.slot ∧ p.generation = payload.generation

theorem stored_stores {arena : Arena} {address : Address} {value : List UInt8}
    (h : OrbitArena.Stores z.arena w.arena arena value.length address) :
    Stored z w
      { w with arena := arena, bodies := update w.bodies address.generation value }
      ⟨addressOf address.slot address.generation, value.length⟩ value := by
  obtain ⟨hslot, hgeneration⟩ := addressOf_payload address.generation value.length
    (Nat.lt_trans h.lt z.slots_lt)
  have hother : ∀ p : PayloadRef, (arena.slots p.slot).state = .addressed → p.slot ≠ address.slot →
      arena.slots p.slot = w.arena.slots p.slot := fun p hstate hne =>
    (h.others p.slot hne).resolve_right fun hretired => by
      rw [hretired] at hstate
      cases hstate
  exact {
    preserves := {
      published := rfl
      clients := rfl
      held := h.held
      pin := h.pin
      slot := fun p hold hkeeps => hother p hkeeps.1 fun heq => by
        have hnew : (arena.slots p.slot).generation = p.generation := hkeeps.2
        rw [heq, h.slot, h.generation] at hnew
        exact Nat.not_succ_le_self _ (hnew ▸ hold)
      body := fun n hn => update_of_ne (fun heq => by
        rw [heq, h.generation] at hn
        exact Nat.not_succ_le_self _ hn) .. }
    counter := rfl
    lt := by
      rw [hslot]
      exact h.lt
    generation := hgeneration.trans h.generation
    recordGeneration := h.recordGeneration.trans hgeneration.symm
    keeps := by
      rw [World.Keeps, hslot, hgeneration]
      exact ⟨h.state, h.slot⟩
    body := by
      change update w.bodies address.generation value
        (PayloadRef.generation ⟨addressOf address.slot address.generation, value.length⟩) = value
      rw [hgeneration]
      exact update_self ..
    len := rfl
    others := fun p hkeeps => by
      rw [hslot, hgeneration]
      by_cases heq : p.slot = address.slot
      · have hnew : (arena.slots p.slot).generation = p.generation := hkeeps.2
        rw [heq, h.slot] at hnew
        exact .inr ⟨heq, hnew.symm⟩
      · have hsame := hother p hkeeps.1 heq
        refine .inl ?_
        rw [World.Keeps, ← hsame]
        exact hkeeps }

theorem store_spec (h : ArenaInv z.arena w.arena) {reader : Nat} {c : Conditions}
    {value : List UInt8} {outcome : Outcome PayloadRef}
    (hstore : w.store z.arena reader c value = (w', outcome)) :
    (∃ payload, outcome = .ok payload ∧ Stored z w w' payload value) ∨
      (∃ e, outcome = .err e) ∧ w'.counter = w.counter ∧ Preserves w w' ∧
        (∀ p, w'.Keeps p → w.Keeps p) := by
  unfold World.store at hstore
  split at hstore
  · obtain ⟨hspares, hstores⟩ := OrbitArena.writeRecord_stores h reader c.fails value.length
    split at hstore
    · rename_i arena e heq
      rw [heq] at hspares
      cases hstore
      exact .inr ⟨⟨_, rfl⟩, rfl, preserves_spares (hspares e rfl)⟩
    · rename_i arena address heq
      rw [heq] at hstores
      cases hstore
      exact .inl ⟨_, rfl, stored_stores (hstores address rfl)⟩
  · cases hstore
    exact .inr ⟨⟨_, rfl⟩, rfl, .refl w, fun _ hp => hp⟩

section

variable {c : Conditions} {payload : PayloadRef} {value : List UInt8}

theorem forget_spec (w : World) (c : Conditions) (payload : PayloadRef) :
    let w' := w.forget g c payload
    (w'.published = w.published ∧ w'.clients = w.clients ∧ w'.bodies = w.bodies ∧
      w'.arena.held = w.arena.held ∧ w'.arena.pin = w.arena.pin ∧
      ∀ p, w'.Keeps p → w'.arena.slots p.slot = w.arena.slots p.slot) ∧
      (c.relocked = true → payload.slot < g.slots → ¬w'.Keeps payload) := by
  dsimp only
  rw [World.forget]
  split
  · have hevicts := OrbitArena.forgetAddress_evicts (g := g) w.arena (addressIn payload)
    refine ⟨⟨rfl, rfl, rfl, hevicts.held, hevicts.pin, fun p hp => ?_⟩, fun _ hlt hkeeps => ?_⟩
    · exact (hevicts.slots p.slot).resolve_right fun hretired => by
        have hstate : ((OrbitArena.forgetAddress g (addressIn payload) w.arena).slots
          p.slot).state = .addressed := hp.1
        rw [hretired.2] at hstate
        cases hstate
    · exact OrbitArena.forgetAddress_gone hlt hkeeps
  · rename_i hrelocked
    exact ⟨⟨rfl, rfl, rfl, rfl, rfl, fun _ _ => rfl⟩, fun h => absurd h hrelocked⟩

def Fails (c : Conditions) (w w' : World) : Prop :=
  Preserves w w' ∧ (c.relocked = true → ∀ p, w'.Keeps p → w.Keeps p)

theorem Fails.refl (c : Conditions) (w : World) : Fails c w w := ⟨.refl w, fun _ _ hp => hp⟩

theorem Fails.minted (c : Conditions) (w : World) (sequence : Nat) :
    Fails c w { w with counter := sequence } :=
  ⟨⟨rfl, rfl, rfl, fun _ _ => rfl, fun _ _ _ => rfl, fun _ _ => rfl⟩, fun _ _ hp => hp⟩

/-- The mutation is the one that was asked for, and the arena has its body. -/
def Makes (w : World) (now : Nat) (m : CacheMutation) : Request → Prop
  | .put store key value ttl => ∃ payload,
      m = .put store key m.revision (expiresAt now ttl) payload ∧ w.Keeps payload ∧
        w.body payload.address = value ∧ payload.valueLen = value.length
  | .delete store key => m = .delete store key m.revision
  | .reset store => m = .reset store m.revision

/-- The mutation is in the ring, under the next sequence. -/
structure Publishes (c : Conditions) (request : Request) (w w' : World) (m : CacheMutation) :
    Prop where
  published : w'.published = w.published ++ [m]
  revision : m.revision = ⟨w.counter + 1, c.mutationId⟩
  makes : Makes w' c.now m request

theorem Stored.forget (h : Stored z w w' payload value) (sequence : Nat) :
    Fails c w (World.forget z.arena { w' with counter := sequence } c payload) := by
  obtain ⟨⟨hpublished, hclients, hbodies, hheld, hpin, hslot⟩, hgone⟩ :=
    forget_spec (g := z.arena) { w' with counter := sequence } c payload
  have hkeeps : ∀ p,
      World.Keeps (World.forget z.arena { w' with counter := sequence } c payload) p →
        w'.Keeps p := fun p hp => by
    have hsame := hslot p hp
    rw [World.Keeps, hsame] at hp
    exact hp
  refine ⟨⟨hpublished.trans h.preserves.published, hclients.trans h.preserves.clients,
    hheld.trans h.preserves.held, fun r hr => ?_, fun p hp hkept => ?_, fun n hn => ?_⟩, ?_⟩
  · exact (congrFun hpin r).trans (h.preserves.pin r hr)
  · exact (hslot p hkept).trans (h.preserves.slot p hp (hkeeps p hkept))
  · exact (congrFun hbodies n).trans (h.preserves.body n hn)
  · intro hrelocked p hp
    rcases h.others p (hkeeps p hp) with hold | ⟨heq, hgeneration⟩
    · exact hold
    · rw [World.Keeps, heq, hgeneration] at hp
      exact absurd hp (hgone hrelocked h.lt)

end

def Old (w : World) (m : CacheMutation) : Prop :=
  ∀ store key r expiresAtMs p, m = .put store key r expiresAtMs p →
    p.generation ≤ w.arena.recordGeneration

/-- What was published and what is referred to was stored before. -/
structure Inv (z : Sizes) (w : World) : Prop where
  arena : ArenaInv z.arena w.arena
  within : w.Within fun p => p.generation ≤ w.arena.recordGeneration
  published : ∀ m ∈ w.published, Old w m

theorem refers_opened {name : Key} (h : Refers (opened z name cache) p) : Refers cache p := by
  unfold opened at h
  split at h
  · exact h
  split at h
  · exact h
  · rcases h with h | ⟨name', st, key, r, expiresAtMs, hst, hmem⟩
    · exact .inl h
    · rcases mem_append.mp hst with hst | hst
      · exact .inr ⟨name', st, key, r, expiresAtMs, hst, hmem⟩
      · cases mem_singleton.mp hst
        cases hmem

theorem use_clients (w : World) (use : Use) :
    ∃ clients, (w.use g use).1 = { w with clients := clients } := by
  cases use with
  | poll process fates victims =>
    rw [World.use]
    split
    · exact ⟨_, rfl⟩
    · exact ⟨_, rfl⟩
  | read process store key now =>
    rw [World.use]
    split
    · exact ⟨_, rfl⟩
    split
    · exact ⟨_, rfl⟩
    · exact ⟨_, rfl⟩

namespace Inv

theorem moved (h : Inv z w) (harena : ArenaInv z.arena w'.arena)
    (hgeneration : w.arena.recordGeneration ≤ w'.arena.recordGeneration)
    (hpublished : w'.published = w.published) (hclients : w'.clients = w.clients) : Inv z w' where
  arena := harena
  within client hclient p hp :=
    Nat.le_trans (h.within client (by rwa [← hclients]) p hp) hgeneration
  published m hm store key r expiresAtMs p heq :=
    Nat.le_trans (h.published m (by rwa [← hpublished]) store key r expiresAtMs p heq) hgeneration

theorem minted (h : Inv z w) (sequence : Nat) : Inv z { w with counter := sequence } :=
  h.moved h.arena (Nat.le_refl _) rfl rfl

theorem acts (h : Inv z w) (op : OrbitArena.Op) :
    Inv z { w with arena := OrbitArena.exec z.arena w.arena op } :=
  h.moved (OrbitArena.exec_inv h.arena op) (OrbitArena.exec_recordGeneration ..) rfl rfl

theorem forget (h : Inv z w) (c : Conditions) (payload : PayloadRef) :
    Inv z (w.forget z.arena c payload) := by
  rw [World.forget]
  split
  · exact h.acts (.forgetAddress (addressIn payload))
  · exact h

theorem store (h : Inv z w) {reader : Nat} {c : Conditions} {value : List UInt8}
    {outcome : Outcome PayloadRef} (hstore : w.store z.arena reader c value = (w', outcome)) :
    Inv z w' := by
  have hacts := h.acts (.write reader c.fails none ⟨value.length, 0⟩)
  unfold World.store at hstore
  split at hstore
  · split at hstore
    · rename_i heq
      rw [OrbitArena.exec, heq] at hacts
      cases hstore
      exact hacts
    · rename_i heq
      rw [OrbitArena.exec, heq] at hacts
      cases hstore
      exact hacts.moved hacts.arena (Nat.le_refl _) rfl rfl
  · cases hstore
    exact h

theorem publish (h : Inv z w) {m : CacheMutation} (hm : Old w m) : Inv z (w.publish m) where
  arena := h.arena
  within := by
    rintro client hclient p (⟨store, key, r, expiresAtMs, hmem⟩ | hslot)
    · obtain ⟨old, hold, rfl⟩ := mem_map.mp hclient
      rcases mem_append.mp hmem with hmem | hmem
      · exact h.within old hold p (.inl ⟨store, key, r, expiresAtMs, hmem⟩)
      · exact hm store key r expiresAtMs p (mem_singleton.mp hmem).symm
    · obtain ⟨old, hold, rfl⟩ := mem_map.mp hclient
      exact h.within old hold p (.inr hslot)
  published m' hm' := by
    rcases mem_append.mp hm' with hm' | hm'
    · exact h.published m' hm'
    · rw [mem_singleton.mp hm']
      exact hm

theorem install (h : Inv z w) {m : CacheMutation} (hm : Old w m) (victim : Option Key) :
    Inv z (w.setCache process fun cache =>
      cache.section m.store (fun st => st.install m victim) []) where
  arena := h.arena
  within := h.within.setCache fun client hclient p hp => by
    have hin := h.within client (mem_of_getElem? hclient) p
    rcases refers_section hp with hp | ⟨st, key, r, expiresAtMs, hst, hmem⟩
    · exact hin hp
    rcases (install_takes st m victim).slots _ hmem with hmem | hadds
    · exact hin (.inr ⟨_, st, key, r, expiresAtMs, hst, hmem⟩)
    cases m with
    | put store key' r' expiresAtMs' payload =>
      rcases hadds with heq | heq
      · cases heq
        exact hm store key r expiresAtMs p rfl
      · cases heq
    | delete store key' r' => cases hadds
    | reset store r' => exact hadds.elim
  published := h.published

theorem use (h : Inv z w) (use : Use) : Inv z (w.use z.arena use).1 := by
  have hsame : Alike (fun p => p.generation ≤ w.arena.recordGeneration) w w :=
    ⟨rfl, rfl, fun _ _ => rfl, fun _ _ _ => rfl, fun _ _ => rfl⟩
  obtain ⟨-, -, hwithin⟩ := hsame.use (g := z.arena) h.within use
  obtain ⟨clients, heq⟩ := use_clients (g := z.arena) w use
  rw [heq] at hwithin ⊢
  exact ⟨h.arena, hwithin, h.published⟩

end Inv

section

variable {c : Conditions} {draft : Draft} {sequence : Nat} {payload : PayloadRef}
  {value : List UInt8} {outcome : Outcome CacheMutation} {request : Request} {reader : Nat}

/-- What the steps after the body is stored come to. -/
structure Finishes (z : Sizes) (c : Conditions) (draft : Draft) (w w' : World)
    (outcome : Outcome CacheMutation) : Prop where
  inv : Inv z w'
  ok : ∀ m, outcome = .ok m → m = draft.mutation ⟨w.counter + 1, c.mutationId⟩ ∧
    w' = { w with counter := w.counter + 1 }.publish m
  err : c.notified = true → ∀ e, outcome = .err e → ∃ n, w' = { w with counter := n }

theorem nextRingVersion_cases (w : World) (c : Conditions) :
    w.nextRingVersion c = ({ w with counter := w.counter + 1 }, .ok (w.counter + 1)) ∨
      ∃ n, w.nextRingVersion c = ({ w with counter := n }, .panics) := by
  unfold World.nextRingVersion
  split
  · split
    · exact .inl rfl
    · exact .inr ⟨_, rfl⟩
  · exact .inr ⟨w.counter, rfl⟩

theorem publishMutation_cases (w : World) (c : Conditions) (draft : Draft) (sequence : Nat) :
    let m := draft.mutation ⟨sequence, c.mutationId⟩
    w.publishMutation c draft sequence = (w.publish m, .ok m) ∨
      w.publishMutation c draft sequence = (w.publish m, .err .io) ∧ c.notified = false ∨
        w.publishMutation c draft sequence = (w, .err .io) := by
  dsimp only
  unfold World.publishMutation World.publishNotified
  cases c.written with
  | false => exact .inr (.inr rfl)
  | true =>
    cases c.notified with
    | false => exact .inr (.inl ⟨rfl, rfl⟩)
    | true =>
      refine .inl ?_
      rw [if_pos rfl, if_pos rfl, draft.revision_mutation]

theorem finish_finishes (h : Inv z w) (hdraft : ∀ r, Old w (draft.mutation r))
    (hfinish : w.finish c draft = (w', outcome)) : Finishes z c draft w w' outcome := by
  unfold World.finish at hfinish
  rcases nextRingVersion_cases w c with hmint | ⟨n, hmint⟩
  · rw [hmint] at hfinish
    have hpublished := (h.minted (w.counter + 1)).publish
      (hdraft ⟨w.counter + 1, c.mutationId⟩)
    rcases publishMutation_cases { w with counter := w.counter + 1 } c draft (w.counter + 1) with
      hpublish | ⟨hpublish, hquiet⟩ | hpublish
    · cases hpublish.symm.trans hfinish
      refine ⟨hpublished, fun m hm => ?_, fun _ _ h => (by cases h)⟩
      cases hm
      exact ⟨rfl, rfl⟩
    · cases hpublish.symm.trans hfinish
      refine ⟨hpublished, fun _ h => (by cases h), fun hnotified => ?_⟩
      rw [hquiet] at hnotified
      cases hnotified
    · cases hpublish.symm.trans hfinish
      exact ⟨h.minted _, fun _ h => (by cases h), fun _ _ _ => ⟨_, rfl⟩⟩
  · rw [hmint] at hfinish
    cases hfinish
    exact ⟨h.minted n, fun _ h => (by cases h), fun _ _ h => (by cases h)⟩

/-- What a call comes to. -/
structure Settles (z : Sizes) (c : Conditions) (request : Request) (w w' : World)
    (outcome : Outcome CacheMutation) : Prop where
  inv : Inv z w'
  ok : ∀ m, outcome = .ok m → Publishes c request w w' m
  err : c.notified = true → ∀ e, outcome = .err e → Fails c w w'

theorem Settles.refused (h : Inv z w) (e : Error) : Settles z c request w w (.err e) :=
  ⟨h, fun _ h => (by cases h), fun _ _ _ => .refl c w⟩

theorem Finishes.settles (h : Finishes z c draft w w' outcome)
    (hmakes : ∀ w r, Makes w c.now (draft.mutation r) request) :
    Settles z c request w w' outcome := by
  refine ⟨h.inv, fun m hm => ?_, fun hnotified e he => ?_⟩
  · obtain ⟨rfl, rfl⟩ := h.ok m hm
    exact ⟨rfl, draft.revision_mutation _, hmakes _ _⟩
  · obtain ⟨n, rfl⟩ := h.err hnotified e he
    exact .minted c w n

theorem publishDelete_settles (h : Inv z w) {store key : Key}
    (hpublish : w.publishDelete z c store key = (w', outcome)) :
    Settles z c (.delete store key) w w' outcome := by
  unfold World.publishDelete at hpublish
  split at hpublish
  · cases hpublish
    exact .refused h _
  · exact (finish_finishes h (fun _ _ _ _ _ _ heq => (by cases heq)) hpublish).settles
      fun _ _ => rfl

theorem publishReset_settles (h : Inv z w) {store : Key}
    (hpublish : w.publishReset z c store = (w', outcome)) :
    Settles z c (.reset store) w w' outcome := by
  cases hencode : encodeReset z.layout store with
  | error e =>
    unfold World.publishReset at hpublish
    rw [hencode] at hpublish
    rcases nextRingVersion_cases w c with hmint | ⟨n, hmint⟩
    · rw [hmint] at hpublish
      cases hpublish
      exact ⟨h.minted _, fun _ h => (by cases h), fun _ _ _ => .minted c w _⟩
    · rw [hmint] at hpublish
      cases hpublish
      exact ⟨h.minted n, fun _ h => (by cases h), fun _ _ h => (by cases h)⟩
  | ok bytes =>
    have hsame : w.publishReset z c store = w.finish c (.reset store) := by
      simp only [World.publishReset, World.finish, hencode]
    exact (finish_finishes h (fun _ _ _ _ _ _ heq => (by cases heq))
      (hsame.symm.trans hpublish)).settles fun _ _ => rfl

theorem validateKey_of_validatePut {layout : CacheLayout} {store key : Key}
    (h : validatePut layout store key value = .ok ()) : validateKey layout store key = .ok () := by
  unfold validatePut at h
  cases hkey : validateKey layout store key with
  | error e =>
    rw [hkey] at h
    cases h
  | ok u => rfl

theorem publishPut_settles (h : Inv z w) {store key : Key} {ttl : Option Nat}
    (hvalid : validatePut z.layout store key value = .ok ())
    (hpublish : w.publishPut z reader c store key value ttl = (w', outcome)) :
    Settles z c (.put store key value ttl) w w' outcome := by
  unfold World.publishPut at hpublish
  rcases hstore : w.store z.arena reader c value with ⟨w₁, stored⟩
  rw [hstore] at hpublish
  have h₁ := h.store hstore
  rcases store_spec h.arena hstore with ⟨payload, rfl, hs⟩ | ⟨⟨e, rfl⟩, -, hpreserves, hkeeps⟩
  · have hencoded : (Draft.put store key (expiresAt c.now ttl) payload).encode z.layout = .ok _ :=
      Draft.encode_ok.mpr ⟨validateKey_of_validatePut hvalid, rfl⟩
    dsimp only at hpublish
    rw [hencoded] at hpublish
    dsimp only at hpublish
    rcases hfinish : w₁.finish c (.put store key (expiresAt c.now ttl) payload) with ⟨w₂, finished⟩
    rw [hfinish] at hpublish
    have hfinishes := finish_finishes h₁ (fun r store' key' r' expiresAtMs p heq => by
      cases heq
      rw [hs.recordGeneration]) hfinish
    cases finished with
    | ok m =>
      cases hpublish
      refine ⟨hfinishes.inv, fun m' hm => ?_, fun _ _ h => (by cases h)⟩
      obtain ⟨rfl, rfl⟩ := hfinishes.ok m' hm
      refine ⟨congrArg (· ++ _) hs.preserves.published, ?_, payload, rfl, hs.keeps, hs.body, hs.len⟩
      rw [← hs.counter]
      rfl
    | err e =>
      cases hpublish
      refine ⟨hfinishes.inv.forget c payload, fun _ h => (by cases h), fun hnotified e he => ?_⟩
      obtain ⟨n, rfl⟩ := hfinishes.err hnotified _ rfl
      exact hs.forget n
    | panics =>
      cases hpublish
      exact ⟨hfinishes.inv, fun _ h => (by cases h), fun _ _ h => (by cases h)⟩
  · cases hpublish
    exact ⟨h₁, fun _ h => (by cases h), fun _ _ _ => ⟨hpreserves, fun _ => hkeeps⟩⟩

theorem publishRequest_settles (h : Inv z w)
    (hpublish : w.publishRequest z reader c request = (w', outcome)) :
    Settles z c request w w' outcome := by
  unfold World.publishRequest at hpublish
  split at hpublish
  · cases hpublish
    exact .refused h _
  rename_i u hvalid
  cases request with
  | put store key value ttl => exact publishPut_settles h hvalid hpublish
  | delete store key => exact publishDelete_settles h hpublish
  | reset store => exact publishReset_settles h hpublish

end

theorem mutate_settles (h : Inv z w) (process : Nat) (c : Conditions) (request : Request) :
    let call := w.mutate z process c request
    Inv z call.1 ∧ (c.notified = true → ∀ e, call.2 = .err e → Fails c w call.1) ∧
      ∀ revision, call.2 = .ok revision → ∃ m, m.revision = revision ∧
        Publishes c request w call.1 m := by
  dsimp only
  unfold World.mutate
  split
  · exact ⟨h, fun _ _ h => (by cases h), fun _ h => (by cases h)⟩
  rename_i client hliving
  rcases hpublish : w.publishRequest z client.reader c request with ⟨w₁, published⟩
  obtain ⟨hinv, hok, herr⟩ := publishRequest_settles h hpublish
  cases published with
  | ok m =>
    have hm := hok m rfl
    have hold : Old w₁ m := hinv.published m (by
      rw [hm.published]
      exact mem_append_right _ (mem_singleton.mpr rfl))
    refine ⟨hinv.install hold c.victim, fun _ _ h => (by cases h), fun revision h => ⟨m, ?_, ?_⟩⟩
    · exact Outcome.ok.inj h
    · exact ⟨hm.published, hm.revision, by
        cases request with
        | put store key value ttl => exact hm.makes
        | delete store key => exact hm.makes
        | reset store => exact hm.makes⟩
  | err e => exact ⟨hinv, fun hnotified _ _ => herr hnotified e rfl, fun _ h => (by cases h)⟩
  | panics => exact ⟨hinv, fun _ _ h => (by cases h), fun _ h => (by cases h)⟩

theorem exec_inv (h : Inv z w) (op : Op) : Inv z (exec z w op) := by
  cases op with
  | join reader replay =>
    refine ⟨h.arena, fun client hclient p hp => ?_, h.published⟩
    rcases mem_append.mp hclient with hclient | hclient
    · exact h.within client hclient p hp
    · rw [mem_singleton.mp hclient] at hp
      rcases hp with ⟨store, key, r, expiresAtMs, hmem⟩ | ⟨name, st, key, r, expiresAtMs, hst, -⟩
      · dsimp only at hmem
        split at hmem
        · exact h.published _ hmem store key r expiresAtMs p rfl
        · cases hmem
      · cases hst
  | openStore process name =>
    refine ⟨h.arena, h.within.setCache fun client hclient p hp => ?_, h.published⟩
    exact h.within client (mem_of_getElem? hclient) p (refers_opened hp)
  | mutate process c request => exact (mutate_settles h process c request).1
  | use use => exact h.use use
  | arena op => exact h.acts op

theorem run_inv (z : Sizes) (ops : List Op) : Inv z (run z ops) := by
  have hrun : ∀ w, Inv z w → Inv z (ops.foldl (exec z) w) := by
    induction ops with
    | nil => exact fun _ h => h
    | cons op rest ih => exact fun w h => ih _ (exec_inv h op)
  exact hrun _ ⟨OrbitArena.zeroed_inv z.arena, fun _ h => (by cases h), fun _ h => (by cases h)⟩

/-- Nothing fails but the write of the frame, if it does. -/
def conditions (written : Bool) : Conditions :=
  ⟨fun _ => false, true, true, written, true, true, 0, 0, none⟩

/-- A value of four bytes is in the store, and other users of the arena have written as often as
it says. -/
def stored (others : Nat) : List Op :=
  [.arena (.attach 0), .join 0 true, .openStore 0 [7],
    .mutate 0 (conditions true) (.put [7] [1] [5, 5, 5, 5] none)] ++
    replicate others (.arena (.write 0 (fun _ => false) none ⟨4, 0⟩))

end OrbitCache.Writing
