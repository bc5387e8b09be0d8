import Orbit.Exchange.Owners

/-! The calls on an arena keep the invariant of `Orbit.Exchange.Owners`, and what follows for every
run: no slot has two owners, no descriptor is read twice, and what a reader holds does not change. -/

namespace OrbitExchange

open Orbit.Atomic
open List hiding Mem
open Option hiding bind_assoc

variable {g : Geometry} {life : Nat → Nat} {t : Nat} {call : ArenaCall g} {α : Type}

section

variable {m : ArenaShare g}

theorem safe_arena_quiet {p : ArenaM g α} {Q : α → ArenaShare g → Prop}
    (hp : p.Quiet Addr.Unwatched) (hQ : ∀ a, Q a m) :
    Safe (arenaSys g life) inGeneration (ArenaInv g life) t call p Q m :=
  .quiet hp (fun _ _ _ _ _ hplace hI => hI.unwatched hplace) hQ

theorem safe_ignored (place : Addr) (hplace : place.Unwatched) (value : Nat) :
    Safe (arenaSys g life) inGeneration (ArenaInv g life) t call (store place value)
      (fun _ m' => m' = m) m :=
  safe_arena_quiet (quiet_store hplace value) fun _ => rfl

theorem quiet_runOf (generation first n : Nat) :
    (runOf generation first n : ArenaM g Bool).Quiet Addr.Unwatched := by
  induction n generalizing first with
  | zero => exact .ret _
  | succ n ih =>
    refine .bind (quiet_load _) fun current => ?_
    split
    · exact ih (first + 1)
    · exact .ret _

theorem quiet_runReserved (first n : Nat) :
    (runReserved first n : ArenaM g Bool).Quiet Addr.Unwatched := by
  induction n generalizing first with
  | zero => exact .ret _
  | succ n ih =>
    refine .bind (quiet_load _) fun state => ?_
    split
    · exact ih (first + 1)
    · exact .ret _

end

section

variable {node first count : Nat} {busy : List Nat}

theorem safe_look {f : Nat → ArenaM g α} {Q : α → ArenaShare g → Prop} {search : Search} {i : Nat}
    {first len : Nat} (hlane : i / g.slotsPerNode = node) (hi : i = first + len)
    (hsame : search.len = 0 ∧ len = 0 ∨ search.first = first ∧ search.len = len)
    (hfree : Safe (arenaSys g life) inGeneration (ArenaInv g life) t call (f slotFree) Q
      (searching node ⟨first, len + 1, search.busy⟩))
    (hbusy : ∀ v ≠ slotFree, Safe (arenaSys g life) inGeneration (ArenaInv g life) t call (f v) Q
      (searching node ⟨first, 0, i :: search.busy⟩)) :
    Safe (arenaSys g life) inGeneration (ArenaInv g life) t call (load (.state i) >>= f) Q
      (searching node search) := by
  refine .load_bind fun others h mem hI => ?_
  have hok := hI.searching_ok
  by_cases heq : mem (.state i) = slotFree
  · rw [heq]
    refine hfree.goes (hI.finds ⟨fun j hle hlt => ?_, hok.busy⟩)
    simp only at hle hlt
    by_cases hj : j = i
    · rw [hj]
      exact ⟨heq, hlane⟩
    · rcases hsame with ⟨-, hzero⟩ | ⟨hfirst, hlen⟩
      · omega
      · exact hok.free j (by omega) (by omega)
  · refine (hbusy _ heq).goes (hI.finds ⟨fun j hle hlt => ?_, fun j hj => ?_⟩)
    · simp only at hle hlt
      omega
    · rcases mem_cons.mp hj with rfl | hj
      · by_contra hclear
        exact heq (hI.shadow.clear node j (by simpa using hclear))
      · exact hok.busy j hj

theorem safe_runFree (n : Nat) (search : Search) (len : Nat)
    (hlane : ∀ i, first ≤ i → i < first + len + n → i / g.slotsPerNode = node)
    (hsame : search.len = 0 ∧ len = 0 ∧ 0 < n ∨ search.first = first ∧ search.len = len) :
    Safe (arenaSys g life) inGeneration (ArenaInv g life) t call (runFree (first + len) n)
      (fun found m' =>
        if found then m' = searching node ⟨first, len + n, search.busy⟩
        else ∃ i, first ≤ i ∧ i < first + len + n ∧
          m' = searching node ⟨first, 0, i :: search.busy⟩)
      (searching node search) := by
  induction n generalizing search len with
  | zero =>
    rcases hsame with ⟨-, -, hlt⟩ | ⟨rfl, rfl⟩
    · omega
    · exact rfl
  | succ n ih =>
    refine safe_look (hlane _ (by omega) (by omega)) rfl (hsame.imp_left fun h => ⟨h.1, h.2.1⟩) ?_ ?_
    · rw [if_pos rfl, Nat.add_assoc first]
      refine (ih ⟨first, len + 1, search.busy⟩ (len + 1) (fun i hle hlt => hlane i hle (by omega))
        (.inr ⟨rfl, rfl⟩)).mono fun found m' hm => ?_
      cases found with
      | true =>
        rw [if_pos rfl] at hm ⊢
        rw [hm, Nat.add_assoc, Nat.add_comm 1]
      | false =>
        rw [if_neg Bool.false_ne_true] at hm ⊢
        obtain ⟨i, hle, hlt, rfl⟩ := hm
        exact ⟨i, hle, by omega, rfl⟩
    · intro v hv
      rw [if_neg hv]
      exact ⟨first + len, by omega, by omega, rfl⟩

def Refuted (g : Geometry) (laneStart hint count : Nat) (busy : List Nat) (offset : Nat) : Prop :=
  let candidate := (hint + offset) &&& (g.slotsPerNode - 1)
  candidate + count ≤ g.slotsPerNode → ∃ k < count, laneStart + candidate + k ∈ busy

theorem safe_findRun (node hint : Nat) (hcount : 0 < count) (offsets : List Nat) (search : Search)
    (hlen : search.len = 0) :
    Safe (arenaSys g life) inGeneration (ArenaInv g life) t call
      (findRun (node * g.slotsPerNode) hint count offsets)
      (fun found m' => match found with
        | some candidate => candidate + count ≤ g.slotsPerNode ∧ ∃ busy,
          m' = searching node ⟨node * g.slotsPerNode + candidate, count, busy⟩
        | none => ∃ first busy, m' = searching node ⟨first, 0, busy⟩ ∧
          (∀ i ∈ search.busy, i ∈ busy) ∧
          ∀ offset ∈ offsets, Refuted g (node * g.slotsPerNode) hint count busy offset)
      (searching node search) := by
  induction offsets generalizing search with
  | nil =>
    obtain ⟨first, len, busy⟩ := search
    cases hlen
    exact ⟨first, busy, rfl, fun _ h => h, nofun⟩
  | cons offset rest ih =>
    rw [findRun]
    generalize hc : (hint + offset) &&& (g.slotsPerNode - 1) = candidate
    split
    · rename_i hinside
      have hlane : ∀ i, node * g.slotsPerNode + candidate ≤ i →
          i < node * g.slotsPerNode + candidate + 0 + count → i / g.slotsPerNode = node := by
        intro i hle hlt
        have hsum : i = g.slotsPerNode * node + (i - node * g.slotsPerNode) := by
          rw [Nat.mul_comm]
          omega
        rw [hsum, Nat.mul_add_div g.lane_pos, Nat.div_eq_of_lt (by omega), Nat.add_zero]
      refine .bind ((safe_runFree count search 0 hlane (.inl ⟨hlen, rfl, hcount⟩)).mono
        fun found m' hm => ?_)
      cases found with
      | true =>
        rw [if_pos rfl] at hm
        rw [if_pos rfl, hm, Nat.zero_add]
        exact ⟨hinside, search.busy, rfl⟩
      | false =>
        rw [if_neg Bool.false_ne_true] at hm
        obtain ⟨i, hle, hlt, rfl⟩ := hm
        rw [if_neg Bool.false_ne_true]
        refine (ih ⟨_, 0, i :: search.busy⟩ rfl).mono fun found m' hm => ?_
        cases found with
        | some candidate => exact hm
        | none =>
          obtain ⟨first, busy, rfl, hbusy, hrest⟩ := hm
          refine ⟨first, busy, rfl, fun j hj => hbusy j (mem_cons_of_mem _ hj), ?_⟩
          rintro offset' hmem
          rcases mem_cons.mp hmem with rfl | hmem
          · intro _
            rw [hc]
            refine ⟨i - (node * g.slotsPerNode + candidate), by omega, ?_⟩
            rw [Nat.add_sub_cancel' hle]
            exact hbusy i mem_cons_self
          · exact hrest offset' hmem
    · rename_i houtside
      refine (ih search hlen).mono fun found m' hm => ?_
      cases found with
      | some candidate => exact hm
      | none =>
        obtain ⟨first, busy, rfl, hbusy, hrest⟩ := hm
        refine ⟨first, busy, rfl, hbusy, ?_⟩
        rintro offset' hmem
        rcases mem_cons.mp hmem with rfl | hmem
        · intro hinside
          rw [hc] at hinside
          exact absurd hinside houtside
        · exact hrest offset' hmem

end

def freshRun (first n : Nat) : Multiset (Nat × Role) :=
  ((range' first n).map (·, Role.fresh) : List _)

def partRun (first n generation : Nat) : Multiset (Nat × Role) :=
  ((range' first n).map (·, Role.part generation) : List _)

theorem freshRun_succ (first n : Nat) :
    freshRun first (n + 1) = (first, .fresh) ::ₘ freshRun (first + 1) n := rfl

theorem partRun_succ (first n generation : Nat) :
    partRun first (n + 1) generation = (first, .part generation) ::ₘ
      partRun (first + 1) n generation := rfl

theorem partRun_add (first a b generation : Nat) :
    partRun first (a + b) generation = partRun first a generation +
      partRun (first + a) b generation := by
  rw [partRun, ← range'_append_1, map_append, ← Multiset.coe_add]
  rfl

theorem runRoles_part {count : Nat} (hcount : 0 < count) (first generation : Nat) :
    runRoles (.part generation) first count generation = partRun first count generation := by
  obtain ⟨n, rfl⟩ : ∃ n, count = n + 1 := ⟨count - 1, by omega⟩
  rfl

theorem own_add (slots slots' : Multiset (Nat × Role)) :
    (own (slots + slots') : ArenaShare g) = own slots + own slots' := by
  simp [own]

section

variable {p : Process g} {node first generation payloadLen : Nat} {busy : List Nat}

theorem safe_setState {value : Nat} {Q : Unit → ArenaShare g → Prop} {m : ArenaShare g}
    {slot : Nat}
    (hstep : ∀ others h mem, ArenaInv g life (m + others) h mem →
      inGeneration.write t call (.state slot) (mem (.state slot)) value h mem →
      ∃ m', ArenaInv g life (m' + others) (arenaRecord (.state slot value) h)
        (Function.update mem (.state slot) value) ∧ Q () m') :
    Safe (arenaSys g life) inGeneration (ArenaInv g life) t call (setState slot value) Q m :=
  .store_bind fun others h mem hI hw => hstep others h mem hI hw

theorem safe_setStates_reserved (first n : Nat) :
    Safe (arenaSys g life) inGeneration (ArenaInv g life) t call (setStates slotReserved first n)
      (fun _ m' => m' = own (freshRun first n) + searching node ⟨first + n, 0, busy⟩)
      (searching node ⟨first, n, busy⟩) := by
  induction n generalizing first with
  | zero =>
    show searching node ⟨first, 0, busy⟩ = _
    simp [own, freshRun, searching]
  | succ n ih =>
    refine .bind ((safe_setState (Q := fun _ m' =>
      m' = searching node ⟨first + 1, n, busy⟩ + own {(first, .fresh)}) ?_).mono ?_)
    · intro others h mem hI _
      refine ⟨_, ?_, rfl⟩
      rw [add_comm (searching node _), add_assoc]
      exact hI.takes
    · rintro _ _ rfl
      refine ((ih (first + 1)).frame (own {(first, .fresh)})).mono ?_
      rintro _ _ ⟨_, rfl, rfl⟩
      rw [freshRun_succ, own_cons, show first + 1 + n = first + (n + 1) by omega]
      abel

theorem safe_nextGeneration (first : Nat) :
    Safe (arenaSys g life) inGeneration (ArenaInv g life) t (.reserve p payloadLen) nextGeneration
      (fun generation m' => m' = opened generation first) 0 := by
  intro others h mem hI hw
  have hwrap : mem .nextGeneration + 1 < 2 ^ 64 := hw _ rfl
  have hne : mem .nextGeneration ≠ 0 := Nat.pos_iff_ne_zero.mp hI.agree.next
  rw [zero_add] at hI
  have hmints := hI.mints hwrap first
  refine Safe.goes (m := opened (mem .nextGeneration) first) ?_ hmints
  show Safe _ _ _ _ _ (if mem .nextGeneration = 0 then _ else _) _ _
  rw [if_neg hne]
  exact rfl

theorem safe_stampSlots (incarnation slot n : Nat) :
    Safe (arenaSys g life) inGeneration (ArenaInv g life) t call
      (stampSlots first generation incarnation slot n)
      (fun _ m' => m' = own (partRun slot n generation) + opened generation first)
      (own (freshRun slot n) + opened generation first) := by
  induction n generalizing slot with
  | zero => exact rfl
  | succ n ih =>
    refine .bind ((safe_ignored (.allocationFirst slot) trivial _).mono ?_)
    rintro _ _ rfl
    refine .store_bind fun others h mem hI _ => ?_
    rw [freshRun_succ, own_cons, add_assoc, add_assoc] at hI
    have hstamps := hI.stamps generation first (by
      rw [books_own, books_opened]
      exact Multiset.mem_cons_self _ _)
    rw [← add_assoc, ← add_assoc] at hstamps
    refine Safe.goes ?_ hstamps
    refine .bind ((safe_ignored (.producerIncarnation slot) trivial _).mono ?_)
    rintro _ _ rfl
    refine .bind ((safe_ignored (.readerNode slot) trivial _).mono ?_)
    rintro _ _ rfl
    refine .bind ((safe_ignored (.readerIncarnation slot) trivial _).mono ?_)
    rintro _ _ rfl
    rw [add_assoc, add_comm (own {(slot, .part generation)})]
    refine ((ih (slot + 1)).frame _).mono ?_
    rintro _ _ ⟨_, rfl, rfl⟩
    rw [partRun_succ, own_cons]
    abel

theorem safe_release {m : ArenaShare g} (hp : p.incarnation = life p.node) (search : Search) :
    Safe (arenaSys g life) inGeneration (ArenaInv g life) t call
      (release (.allocation p.node p.incarnation)) (fun _ m' => m' = m)
      (searching p.node search + m) := by
  intro others h mem hI _
  rw [hp]
  rw [add_assoc] at hI
  exact ⟨m, hI.unlocks, rfl⟩

theorem safe_reserveSlots (hp : p.incarnation = life p.node) {count : Nat} (hcount : 0 < count)
    (hfits : payloadLen ≤ count * g.slotSize) :
    Safe (arenaSys g life) inGeneration (ArenaInv g life) t (.reserve p payloadLen)
      (p.reserveSlots payloadLen count)
      (fun r m' => match r with
        | .error _ => m' = 0
        | .ok publication => publication.Placed ∧ m' = own (publication.roles .part) +
          opened publication.generation publication.first) 0 := by
  have hlock : Safe (arenaSys g life) inGeneration (ArenaInv g life) t (.reserve p payloadLen)
      (do
        acquire (.allocation p.node p.incarnation)
        mark (.search p.node) : ArenaM g Unit)
      (fun _ m' => m' = searching p.node ⟨0, 0, []⟩) 0 := by
    intro others h mem hI hfree
    rw [zero_add] at hI
    rw [hp] at hfree ⊢
    exact ⟨_, hI.locks hfree 0, rfl⟩
  rw [Process.reserveSlots, ← bind_assoc]
  refine .bind (hlock.mono ?_)
  rintro _ _ rfl
  refine .bind (.load fun hint => ?_)
  refine .bind ((safe_findRun p.node hint hcount _ _ rfl).mono fun found m' hm => ?_)
  cases found with
  | none =>
    obtain ⟨first, busy, rfl, -, hrefuted⟩ := hm
    intro others h mem hI
    have hfails := hI.fails count fun candidate hinside => by
      obtain ⟨offset, hmem, rfl⟩ := exists_offset hint (show candidate < g.slotsPerNode by omega)
      exact hrefuted offset hmem hinside
    refine Safe.goes ?_ hfails
    refine .bind (.mono ?_ fun _ _ hm => hm)
    rw [← add_zero (searching _ _)]
    exact safe_release hp ⟨first, 0, busy⟩
  | some candidate =>
    obtain ⟨hinside, busy, rfl⟩ := hm
    dsimp only
    generalize hfirst : p.node * g.slotsPerNode + candidate = first
    refine .bind ((safe_setStates_reserved first count).mono ?_)
    rintro _ _ rfl
    rw [← zero_add (own _ + _)]
    refine .bind (((safe_nextGeneration first).frame _).mono ?_)
    rintro generation _ ⟨_, rfl, rfl⟩
    rw [← add_assoc, add_comm (opened _ _)]
    refine .bind (((safe_stampSlots p.incarnation first count).frame _).mono ?_)
    rintro _ _ ⟨_, rfl, rfl⟩
    refine .bind ((safe_setState (Q := fun _ m' => m' = own (partRun first count generation) +
      opened generation first + searching p.node ⟨first + count, 0, busy⟩) ?_).mono ?_)
    · intro others h mem hI _
      refine ⟨_, ?_, rfl⟩
      obtain ⟨n, rfl⟩ : ∃ n, count = n + 1 := ⟨count - 1, by omega⟩
      rw [partRun_succ, own_cons, add_assoc, add_assoc, add_assoc] at hI ⊢
      exact hI.plays (.part generation) rfl nofun
    rintro _ _ rfl
    refine .bind ((safe_ignored (.hint p.node p.incarnation) trivial _).mono ?_)
    rintro _ _ rfl
    rw [add_comm]
    refine .bind ((safe_release hp _).mono ?_)
    rintro _ _ rfl
    refine ⟨?_, ?_⟩
    · have hlt : candidate < g.slotsPerNode := by omega
      constructor
      · show first / g.slotsPerNode = _
        rw [← hfirst, Nat.mul_comm, Nat.mul_add_div g.lane_pos, Nat.div_eq_of_lt hlt, Nat.add_zero]
      · show first % g.slotsPerNode + count ≤ _
        rw [← hfirst, Nat.mul_comm, Nat.mul_add_mod, Nat.mod_eq_of_lt hlt]
        exact hinside
      · exact hcount
      · exact hfits
    · rw [Publication.roles, runRoles_part hcount]

end

section

variable {first generation count : Nat}

theorem safe_runOf {slots : Multiset (Nat × Role)} (first n : Nat)
    (hslots : ∀ i, first ≤ i → i < first + n →
      ∃ role, (i, role) ∈ slots ∧ role.generation? = some generation) :
    Safe (arenaSys g life) inGeneration (ArenaInv g life) t call (runOf generation first n)
      (fun found m' => found = true ∧ m' = own slots) (own slots) := by
  induction n generalizing first with
  | zero => exact ⟨rfl, rfl⟩
  | succ n ih =>
    refine .load_bind fun others h mem hI => ?_
    obtain ⟨role, hmem, hrole⟩ := hslots first (Nat.le_refl _) (by omega)
    have hagree := hI.agree
    rw [books_own] at hagree
    have hok := hagree.role first role (Multiset.mem_add.mpr (.inl (Multiset.mem_add.mpr (.inl hmem))))
    rw [if_pos (hok.generation _ hrole)]
    exact (ih (first + 1) fun i hle hlt => hslots i (by omega) (by omega)).goes hI

theorem safe_setStates_free (first n : Nat) :
    Safe (arenaSys g life) inGeneration (ArenaInv g life) t call (setStates slotFree first n)
      (fun _ m' => m' = 0) (own (partRun first n generation)) := by
  induction n generalizing first with
  | zero => exact rfl
  | succ n ih =>
    refine .bind ((safe_setState (Q := fun _ m' => m' = own (partRun (first + 1) n generation))
      ?_).mono ?_)
    · intro others h mem hI _
      rw [partRun_succ, own_cons, add_assoc] at hI
      exact ⟨_, hI.frees, rfl⟩
    · rintro _ _ rfl
      exact ih (first + 1)

theorem safe_releaseRun {head : Role} (hcount : 0 < count) (hhead : head.generation? = some generation) :
    Safe (arenaSys g life) inGeneration (ArenaInv g life) t call (releaseRun first count generation)
      (fun _ m' => m' = 0) (own (runRoles head first count generation)) := by
  refine .bind ((safe_runOf first count fun i hle hlt => ?_).mono ?_)
  · rw [runRoles]
    by_cases heq : i = first
    · exact ⟨head, by rw [heq]; exact Multiset.mem_cons_self _ _, hhead⟩
    · refine ⟨.part generation, Multiset.mem_cons_of_mem ?_, rfl⟩
      refine Multiset.mem_coe.mpr (List.mem_map.mpr ⟨i, ?_, rfl⟩)
      rw [mem_range'_1]
      omega
  rintro _ _ ⟨rfl, rfl⟩
  rw [if_pos rfl]
  have hroles : runRoles head first count generation =
      (first, head) ::ₘ partRun (first + 1) (count - 1) generation := rfl
  rw [hroles, own_cons, add_comm (own {(first, head)})]
  refine .bind (((safe_setStates_free (first + 1) (count - 1)).frame _).mono ?_)
  rintro _ _ ⟨_, rfl, rfl⟩
  rw [zero_add]
  refine safe_setState fun others h mem hI _ => ⟨0, ?_, rfl⟩
  rw [zero_add]
  exact hI.frees

end

section

variable {publication : Publication g} {payloadLen : Nat}

theorem requiredSlots_ok {count : Nat} (h : requiredSlots g payloadLen = .ok count) :
    0 < count ∧ count ≤ g.slotsPerNode ∧ payloadLen ≤ count * g.slotSize := by
  have hsize := g.size_pos
  unfold requiredSlots at h
  split at h
  · cases h
  rename_i hne
  dsimp only at h
  split at h
  · cases h
  rename_i hle
  injection h with h
  rw [← h]
  refine ⟨Nat.div_pos (by omega) hsize, by omega, ?_⟩
  have hdiv := Nat.div_add_mod (payloadLen + g.slotSize - 1) g.slotSize
  have hmod := Nat.mod_lt (payloadLen + g.slotSize - 1) hsize
  rw [Nat.mul_comm] at hdiv
  omega

theorem safe_truncate (hplaced : publication.Placed) :
    Safe (arenaSys g life) inGeneration (ArenaInv g life) t call (publication.truncate payloadLen)
      (fun r m' => match r with
        | .error _ => m' = own (publication.roles .part) +
          opened publication.generation publication.first
        | .ok shorter => shorter.Placed ∧ m' = own (shorter.roles .part) +
          opened shorter.generation shorter.first)
      (own (publication.roles .part) + opened publication.generation publication.first) := by
  unfold Publication.truncate
  split
  · exact rfl
  rename_i hlen
  cases hcount : requiredSlots g payloadLen with
  | error e => exact rfl
  | ok count =>
    obtain ⟨hpos, -, hfits⟩ := requiredSlots_ok hcount
    dsimp only
    split
    · rename_i hlt
      have hinside := hplaced.inside
      have hsplit : publication.roles .part = partRun publication.first count publication.generation +
          partRun (publication.first + count) (publication.count - count)
            publication.generation := by
        rw [Publication.roles, runRoles_part hplaced.pos, ← partRun_add]
        congr 1
        omega
      rw [hsplit, add_comm (partRun _ count _), own_add, add_assoc]
      refine .bind (((safe_setStates_free _ _).frame _).mono ?_)
      rintro _ _ ⟨_, rfl, rfl⟩
      refine ⟨⟨hplaced.lane, ?_, hpos, hfits⟩, ?_⟩
      · show publication.first % g.slotsPerNode + count ≤ g.slotsPerNode
        omega
      · rw [zero_add, Publication.roles, runRoles_part hpos]
    · refine ⟨⟨hplaced.lane, hplaced.inside, hplaced.pos, ?_⟩, rfl⟩
      have hfits' := hplaced.fits
      show payloadLen ≤ publication.count * g.slotSize
      omega

end

theorem safe_read (p : Process g) (descriptor : ChunkDescriptor) :
    Safe (arenaSys g life) inGeneration (ArenaInv g life) t (.read p descriptor) (p.read descriptor)
      (fun r m' => match r with
        | .error _ => m' = knows descriptor
        | .ok chunk => chunk.Read ∧ m' = own chunk.roles + knows chunk.descriptor)
      (knows descriptor) := by
  unfold Process.read
  split
  · exact rfl
  split
  · rename_i hwithin
    obtain ⟨-, hcount, -, -, hfits, -⟩ := hwithin
    unfold Process.readRun
    dsimp only
    refine .bind (safe_arena_quiet (quiet_runOf _ _ _) fun found => ?_)
    split
    · exact rfl
    refine .bind (safe_arena_quiet (quiet_runReserved _ _) fun reserved => ?_)
    split
    · exact rfl
    refine .compareExchange_bind (fun others h mem hI hlive hw => ?_) fun others h mem hI _ => ?_
    · -- the run is still the descriptor's, and so it is unread
      have hclaims := hI.claims hlive hw
      rw [← add_assoc] at hclaims
      rw [if_pos rfl]
      refine Goes.mark_bind (Goes.mark_bind (Safe.goes ?_ hclaims))
      refine .bind ((safe_ignored (.readerIncarnation _) trivial _).mono ?_)
      rintro _ _ rfl
      refine .bind ((safe_ignored (.readerNode _) trivial _).mono ?_)
      rintro _ _ rfl
      exact ⟨⟨rfl, rfl, rfl, Nat.pos_of_ne_zero hcount, hfits⟩, rfl⟩
    · exact ⟨knows descriptor, hI, rfl⟩
  · exact rfl

theorem arenaSys_shares {s : Config Addr (Event g) (ArenaCall g) (History g)}
    (hs : Reach (arenaSys g life) inGeneration (arenaStart g) s) :
    ∃ shares, Shares (arenaSys g life) inGeneration (ArenaInv g life) (fun _ => True) s shares := by
  refine hs.holds (.init life) fun t call h h' mem m hI _ hbegins => ?_
  cases call with
  | reserve p payloadLen =>
    simp only [arenaSys, arenaBegins, ite_none_right_eq_some, Option.some.injEq] at hbegins
    obtain ⟨hp, rfl⟩ := hbegins
    refine ⟨0, by rwa [zero_add], ?_⟩
    show Safe _ _ _ _ _ (p.reserve payloadLen >>= _) _ _
    unfold Process.reserve
    cases hcount : requiredSlots g payloadLen with
    | error e => exact trivial
    | ok count =>
      obtain ⟨hpos, -, hfits⟩ := requiredSlots_ok hcount
      refine .bind ((safe_reserveSlots hp hpos hfits).mono fun r m' hm => ?_)
      cases r with
      | error e => exact trivial
      | ok publication =>
        obtain ⟨hplaced, rfl⟩ := hm
        intro others h mem hI
        rw [add_assoc] at hI
        exact ⟨0, by rw [zero_add]; exact hI.reserved hplaced, trivial⟩
  | write publication offset value =>
    simp only [arenaSys, arenaBegins, ite_none_right_eq_some, Option.some.injEq] at hbegins
    obtain ⟨⟨hmem, hoffset⟩, rfl⟩ := hbegins
    refine ⟨usedBy publication, hI.lends hmem, ?_⟩
    intro others h mem hI _
    exact ⟨0, by rw [zero_add]; exact (hI.writes hoffset).written, trivial⟩
  | truncate publication payloadLen =>
    simp only [arenaSys, arenaBegins, ite_none_right_eq_some, Option.some.injEq] at hbegins
    obtain ⟨hmem, rfl⟩ := hbegins
    have hplaced := hI.ledger.placed publication (mem_reservations.mpr (.inl hmem))
    refine ⟨_, by rw [add_assoc]; exact hI.takes_pending hmem, ?_⟩
    refine .bind ((safe_truncate hplaced).mono fun r m' hm => ?_)
    cases r with
    | error e =>
      cases hm
      intro others h mem hI
      rw [add_assoc] at hI
      exact ⟨0, by rw [zero_add]; exact hI.reserved hplaced, trivial⟩
    | ok shorter =>
      obtain ⟨hplaced, rfl⟩ := hm
      intro others h mem hI
      rw [add_assoc] at hI
      exact ⟨0, by rw [zero_add]; exact hI.reserved hplaced, trivial⟩
  | makeLive publication =>
    simp only [arenaSys, arenaBegins, ite_none_right_eq_some, Option.some.injEq] at hbegins
    obtain ⟨hmem, rfl⟩ := hbegins
    refine ⟨usedBy publication, hI.lends hmem, ?_⟩
    intro others h mem hI _
    exact ⟨0, by rw [zero_add]; exact hI.goes_live, trivial⟩
  | commit publication descriptor =>
    simp only [arenaSys, arenaBegins, ite_none_right_eq_some, Option.some.injEq] at hbegins
    obtain ⟨⟨hmem, hd⟩, rfl⟩ := hbegins
    exact ⟨0, by rw [zero_add]; exact hI.commits hmem hd, trivial⟩
  | dropPublication publication =>
    simp only [arenaSys, arenaBegins] at hbegins
    split at hbegins
    · rename_i hmem
      injection hbegins with hbegins
      subst hbegins
      have hplaced := hI.ledger.placed publication (mem_reservations.mpr (.inl hmem))
      refine ⟨_, by rw [add_assoc]; exact hI.takes_pending hmem, ?_⟩
      exact ((safe_releaseRun hplaced.pos rfl).frame _).mono fun _ _ _ => trivial
    · simp only [ite_none_right_eq_some, Option.some.injEq] at hbegins
      obtain ⟨hmem, rfl⟩ := hbegins
      have hplaced := hI.ledger.placed publication (mem_reservations.mpr (.inr (.inr hmem)))
      refine ⟨_, by rw [add_assoc]; exact hI.takes_live hmem, ?_⟩
      exact ((safe_releaseRun hplaced.pos rfl).frame _).mono fun _ _ _ => trivial
  | read p descriptor =>
    simp only [arenaSys, arenaBegins, ite_none_right_eq_some, Option.some.injEq] at hbegins
    obtain ⟨hmem, rfl⟩ := hbegins
    refine ⟨knows descriptor, hI.learns hmem, ?_⟩
    refine .bind ((safe_read p descriptor).mono fun r m' hm => ?_)
    cases r with
    | error e => exact trivial
    | ok chunk =>
      obtain ⟨hread, rfl⟩ := hm
      intro others h mem hI
      rw [add_assoc] at hI
      exact ⟨0, by rw [zero_add]; exact hI.returns_chunk hread, trivial⟩
  | dropChunk chunk =>
    simp only [arenaSys, arenaBegins, ite_none_right_eq_some, Option.some.injEq] at hbegins
    obtain ⟨hmem, rfl⟩ := hbegins
    refine ⟨own chunk.roles, hI.takes_chunk hmem, ?_⟩
    exact (safe_releaseRun (hI.ledger.chunks chunk hmem).1.pos rfl).mono fun _ _ _ => trivial

theorem committed_suffix {s s' : Config Addr (Event g) (ArenaCall g) (History g)}
    {D : Discipline Addr (ArenaCall g) (History g)} (hs : Reach (arenaSys g life) D s s') :
    s.hist.committed <:+ s'.hist.committed := by
  refine Reach.related (R := fun h h' => h.committed <:+ h'.committed)
    (fun h => suffix_refl h.committed) (fun h1 h2 h3 h12 h23 => ?_)
    (fun t call e h => ?_) (fun call h h' hb => ?_) hs
  · exact List.IsSuffix.trans h12 h23
  · cases e <;> exact suffix_refl _
  · cases call
    all_goals
      simp only [arenaSys, arenaBegins] at hb
      repeat' split at hb
    all_goals
      cases hb
    all_goals
      first | exact suffix_refl _ | exact suffix_cons _ _

def Publication.slots (publication : Publication g) : List Nat :=
  range' publication.first publication.count

def ChunkDescriptor.slots (g : Geometry) (descriptor : ChunkDescriptor) : List Nat :=
  range' (descriptor.first g) descriptor.slotCount

def PayloadChunk.slots (chunk : PayloadChunk g) : List Nat := range' chunk.first chunk.count

/-- The slots of reservations that are not published, of published runs that nobody has read, and
of held chunks. -/
def History.slots (h : History g) : List Nat :=
  h.reservations.flatMap Publication.slots ++
    (h.unread.flatMap (ChunkDescriptor.slots g) ++ h.held.flatMap PayloadChunk.slots)

theorem range_le_runRoles (head : Role) (first count generation : Nat) :
    (range' first count : Multiset Nat) ≤
      (runRoles head first count generation).map Prod.fst := by
  cases count with
  | zero => exact Multiset.zero_le _
  | succ n =>
    rw [runRoles, Multiset.map_cons, Multiset.map_coe, List.map_map, range'_succ,
      ← Multiset.cons_coe, Nat.add_sub_cancel]
    refine Multiset.cons_le_cons _ (le_of_eq ?_)
    rw [Multiset.coe_eq_coe, show (Prod.fst ∘ fun x => (x, Role.part generation)) = id from rfl,
      List.map_id]

theorem flatMap_le_sum {β : Type} (slots : β → List Nat) (roles : β → Multiset (Nat × Role))
    (hle : ∀ a, (slots a : Multiset Nat) ≤ (roles a).map Prod.fst) (l : List β) :
    (l.flatMap slots : Multiset Nat) ≤ ((l.map roles).sum).map Prod.fst := by
  induction l with
  | nil => exact Multiset.zero_le _
  | cons a rest ih =>
    rw [flatMap_cons, map_cons, sum_cons, Multiset.map_add, ← Multiset.coe_add]
    exact add_le_add (hle a) ih

theorem slots_le_books (m : ArenaShare g) (h : History g) :
    (h.slots : Multiset Nat) ≤ (books m h).slots.map Prod.fst := by
  have hpending := flatMap_le_sum Publication.slots (Publication.roles .part)
    (fun p => range_le_runRoles _ p.first p.count p.generation) h.pending
  have hused := flatMap_le_sum Publication.slots (Publication.roles .part)
    (fun p => range_le_runRoles _ p.first p.count p.generation) h.used
  have hlive := flatMap_le_sum Publication.slots (Publication.roles .live)
    (fun p => range_le_runRoles _ p.first p.count p.generation) h.live
  have hunread := flatMap_le_sum (ChunkDescriptor.slots g) (ChunkDescriptor.roles g)
    (fun d => range_le_runRoles _ _ _ _) h.unread
  have hheld := flatMap_le_sum PayloadChunk.slots PayloadChunk.roles
    (fun c : PayloadChunk g => range_le_runRoles _ c.first c.count c.generation) h.held
  have hsum := add_le_add (add_le_add (add_le_add hpending hused) hlive) (add_le_add hunread hheld)
  rw [History.slots, History.reservations, flatMap_append, flatMap_append]
  simp only [← Multiset.coe_add]
  refine hsum.trans ?_
  simp only [Books.slots, books, Multiset.map_add]
  rw [add_assoc (m.slots.map Prod.fst)]
  refine le_trans (le_of_eq ?_) (Multiset.le_add_left _ (m.slots.map Prod.fst))
  abel

/-- In every state that is reached by runs in which a read claims a run only while it is still in
the descriptor's generation: no slot has two owners; no descriptor is read twice; a held chunk has
the bytes that were committed with its descriptor, and keeps them; and a search failed only if no
run of its lane was free all the while it searched. -/
theorem extents_exclusive {s : Config Addr (Event g) (ArenaCall g) (History g)}
    (hs : Reach (arenaSys g life) inGeneration (arenaStart g) s) :
    s.hist.slots.Nodup ∧
    (s.hist.taken.map (·.allocationGeneration)).Nodup ∧
    (∀ chunk ∈ s.hist.held, ∃ kept, (chunk.descriptor, kept) ∈ s.hist.committed ∧
      ∀ offset < chunk.len, s.mem (.byte (chunk.first * g.slotSize + offset)) =
        kept (chunk.first * g.slotSize + offset)) ∧
    (∀ s', Reach (arenaSys g life) inGeneration s s' → ∀ chunk ∈ s.hist.held,
      chunk ∈ s'.hist.held → ∀ offset < chunk.len,
        s'.mem (.byte (chunk.first * g.slotSize + offset)) =
          s.mem (.byte (chunk.first * g.slotSize + offset))) ∧
    (∀ search ∈ s.hist.full, ¬ClearRun g search.1 search.2.1 search.2.2) ∧
    (∀ i, s.hist.states i = s.mem (.state i)) := by
  have hkept : ∀ {s}, Reach (arenaSys g life) inGeneration (arenaStart g) s →
      ∀ chunk ∈ s.hist.held, ∃ kept, (chunk.descriptor, kept) ∈ s.hist.committed ∧
        ∀ offset < chunk.len, s.mem (.byte (chunk.first * g.slotSize + offset)) =
          kept (chunk.first * g.slotSize + offset) := by
    intro s hs chunk hmem
    obtain ⟨shares, -, hI, -⟩ := arenaSys_shares hs
    exact hI.held_bytes hmem
  obtain ⟨shares, -, hI, -⟩ := arenaSys_shares hs
  refine ⟨?_, ?_, hkept hs, fun s' hs' chunk hmem hmem' offset hoffset => ?_, hI.ledger.full,
    hI.shadow.states⟩
  · exact Multiset.coe_nodup.mp (Multiset.nodup_of_le (slots_le_books _ _) hI.agree.apart)
  · have honce := hI.ledger.once
    rw [map_append] at honce
    exact (nodup_append.mp honce).2.1
  · obtain ⟨kept, hin, hbytes⟩ := hkept hs chunk hmem
    obtain ⟨kept', hin', hbytes'⟩ := hkept (hs.trans hs') chunk hmem'
    obtain ⟨shares', -, hI', -⟩ := arenaSys_shares (hs.trans hs')
    rw [hbytes offset hoffset, hbytes' offset hoffset,
      hI'.kept_unique ((committed_suffix hs').subset hin) hin']

instance (call : ArenaCall g) (h : History g) (mem : Mem Addr) :
    Decidable (inGeneration.begin call h mem) :=
  inferInstanceAs (Decidable True)

instance (t : Nat) (call : ArenaCall g) (place : Addr) (old new : Nat) (h : History g)
    (mem : Mem Addr) : Decidable (inGeneration.write t call place old new h mem) :=
  match call, place with
  | .read _ descriptor, .state i =>
    inferInstanceAs (Decidable (mem (.generation i) = descriptor.allocationGeneration))
  | .reserve _ _, .nextGeneration => inferInstanceAs (Decidable (old + 1 < 2 ^ 64))
  | .read .., .nextGeneration | .read .., .allocationFirst _ | .read .., .generation _
  | .read .., .producerIncarnation _ | .read .., .readerNode _ | .read .., .readerIncarnation _
  | .read .., .byte _ | .read .., .allocation .. | .read .., .hint ..
  | .reserve .., .state _ | .reserve .., .allocationFirst _ | .reserve .., .generation _
  | .reserve .., .producerIncarnation _ | .reserve .., .readerNode _
  | .reserve .., .readerIncarnation _ | .reserve .., .byte _ | .reserve .., .allocation ..
  | .reserve .., .hint .. | .write .., _ | .truncate .., _ | .makeLive .., _ | .commit .., _
  | .dropPublication .., _ | .dropChunk .., _ => inferInstanceAs (Decidable True)

theorem oneSlot_valid : (⟨2, 1, 4⟩ : PayloadArenaSpec).validate = .ok () := by decide

def oneSlot : Geometry := ⟨⟨2, 1, 4⟩, 1, oneSlot_valid, one_lt_u16⟩

def producer : Process oneSlot := ⟨⟨0, by decide⟩, 1⟩

def firstPublication : Publication oneSlot := ⟨producer, 0, 1, 1, 1⟩

def firstDescriptor : ChunkDescriptor := ⟨⟨1, 0, 1, 1, 2, 0⟩, ⟨1, 0, 0, 1⟩, .aToB, 1⟩

def firstChunk : PayloadChunk oneSlot := ⟨producer, 0, 1, 1, 1, firstDescriptor⟩

def published : List (Action (ArenaCall oneSlot)) :=
  [.begin (.reserve producer 1)] ++ replicate 13 (.step 0) ++
    [.begin (.write firstPublication 0 7), .step 1, .begin (.makeLive firstPublication), .step 2,
      .begin (.commit firstPublication firstDescriptor)]

/-- A published payload is read: the reader holds the byte that was written. -/
theorem extents_exclusive_read : ∃ s,
    Reach (arenaSys oneSlot fun _ => 1) inGeneration (arenaStart oneSlot) s ∧
      s.hist.held = [firstChunk] ∧ s.hist.slots.Nodup ∧
      ∃ kept, (firstDescriptor, kept) ∈ s.hist.committed ∧ s.mem (.byte 0) = kept 0 := by
  have hrun : (Discipline.runs inGeneration (arenaSys oneSlot fun _ => 1) (arenaStart oneSlot)
      (published ++ [.begin (.read producer firstDescriptor)] ++
        replicate 4 (.step 4))).any (fun s => s.hist.held == [firstChunk]) = true := by
    decide +kernel
  obtain ⟨s, hs, hp⟩ := Reach.exists_of_runs _ hrun
  have hheld : s.hist.held = [firstChunk] := beq_iff_eq.mp hp
  have hall := extents_exclusive hs
  obtain ⟨kept, hin, hbytes⟩ := hall.2.2.1 firstChunk (by rw [hheld]; exact mem_singleton_self _)
  exact ⟨s, hs, hheld, hall.1, kept, hin, hbytes 0 (by decide)⟩

/-- A read has checked the generation of its run.  Another reads the run and gives it back, and it
is reserved anew and made live: the first read claims it, of a descriptor that was read before. -/
theorem recycled_run_claimed : ∃ s,
    Reach (arenaSys oneSlot fun _ => 1) .free (arenaStart oneSlot) s ∧
      s.hist.taken = [firstDescriptor, firstDescriptor] ∧ ¬s.hist.slots.Nodup := by
  have hrun : (Discipline.runs .free (arenaSys oneSlot fun _ => 1) (arenaStart oneSlot)
      (published ++ [.begin (.read producer firstDescriptor), .step 4,
        .begin (.read producer firstDescriptor)] ++ replicate 4 (.step 5) ++
        [.begin (.dropChunk firstChunk), .step 6, .step 6] ++
        [.begin (.reserve producer 1)] ++ replicate 13 (.step 7) ++
        [.begin (.makeLive ⟨producer, 0, 1, 1, 2⟩), .step 8] ++ replicate 3 (.step 4))).any
      (fun s => s.hist.taken == [firstDescriptor, firstDescriptor] &&
        !decide s.hist.slots.Nodup) = true := by
    decide +kernel
  obtain ⟨s, hs, hp⟩ := Reach.exists_of_runs _ hrun
  rw [Bool.and_eq_true, Bool.not_eq_true', decide_eq_false_iff_not] at hp
  exact ⟨s, hs, beq_iff_eq.mp hp.1, hp.2⟩

end OrbitExchange
