import Orbit.Pool.Shares

/-! The calls on a resource keep the invariant of `Orbit.Pool.Shares`: reserving, cancelling and
accepting, the end of an execution, and the end of the resource. -/

namespace OrbitPool

open Orbit.Atomic Function Multiset Option

variable {g : Geometry}

section Programs

variable {thread : Nat} {call : Call g} {m : Share}

theorem safe_takeAvailable (keyIndex : Nat) {Q : Bool → Share → Prop} (hQ : ∀ b, Q b m) :
    Safe (poolSys g) (inTenancy g) (Inv g) thread call (takeAvailable g keyIndex) Q m := by
  unfold takeAvailable
  split
  · exact safe_skip (.inl id) fun _ => hQ _
  · exact hQ true

theorem safe_addAvailable (keyIndex units : Nat) {Q : Unit → Share → Prop} (hQ : Q () m) :
    Safe (poolSys g) (inTenancy g) (Inv g) thread call (addAvailable g keyIndex units) Q m := by
  unfold addAvailable
  split
  · exact safe_skip (.inl id) fun _ => hQ
  · exact hQ

theorem safe_removeAvailable (keyIndex units : Nat) {Q : Unit → Share → Prop} (hQ : Q () m) :
    Safe (poolSys g) (inTenancy g) (Inv g) thread call (removeAvailable g keyIndex units) Q m := by
  unfold removeAvailable
  split
  · exact safe_skip (.inl id) fun _ => hQ
  · exact hQ

theorem safe_retainUnit (keyIndex : Nat) (maxIdle : Option Nat) {Q : Bool → Share → Prop}
    (hQ : ∀ b, Q b m) :
    Safe (poolSys g) (inTenancy g) (Inv g) thread call (retainUnit g keyIndex maxIdle) Q m := by
  cases maxIdle with
  | some limit =>
    show Safe _ _ _ _ _ (retainAvailableBelow g keyIndex limit) _ _
    unfold retainAvailableBelow
    split
    · exact safe_skip (.inl id) fun _ => hQ _
    · exact hQ true
  | none => exact .bind (safe_addAvailable keyIndex 1 (hQ true))

theorem safe_isGeneration (slot generation : Nat) {Q : Bool → Share → Prop} (hQ : ∀ b, Q b m) :
    Safe (poolSys g) (inTenancy g) (Inv g) thread call (isGeneration slot generation) Q m := by
  refine .bind (.load fun state => ?_)
  split
  · exact .bind (.load fun _ => hQ _)
  · exact hQ false

theorem safe_owned (p : Pool g) (id : ResourceId) {Q : Except Error Nat → Share → Prop}
    (herror : ∀ e, Q (.error e) m) (hok : ∀ index, p.locate id = .ok index → Q (.ok index) m) :
    Safe (poolSys g) (inTenancy g) (Inv g) thread call (p.owned id) Q m := by
  unfold Pool.owned
  split
  · exact herror _
  rename_i index hlocate
  refine .bind (safe_isGeneration index id.generation fun current => ?_)
  split
  · refine .bind (.load fun ownerNode => ?_)
    split
    · exact herror _
    refine .bind (.load fun ownerIncarnation => ?_)
    split
    · exact herror _
    · exact hok index hlocate
  · exact herror _

end Programs

section Reserve

variable {thread : Nat} {call : Call g} {i v : Nat}

variable {tokens : Multiset SlotToken}

theorem safe_returnReserved {Q : Unit → Share → Prop} (hcall : call.generation? = some v)
    (hQ : Q () (hold i tokens)) :
    Safe (poolSys g) (inTenancy g) (Inv g) thread call (returnReserved i) Q
      (hold i (.unit v ::ₘ tokens)) := by
  refine safe_field .units fun mutex rest t w h hallowed => ⟨tokens, ?_, hQ⟩
  rw [cons_add] at h
  exact h.undo ((hallowed _ rfl).1 v hcall)

theorem safe_placePending {f now : Nat} {entries : List Nat} {Q : Bool → Share → Prop}
    (hcall : call.generation? = some v) (hentries : ∀ entry ∈ entries, entry < pendingReservations)
    (htrue : Q true (hold i (.placed v f ::ₘ tokens)))
    (hfalse : Q false (hold i (.minted v f ::ₘ tokens))) :
    Safe (poolSys g) (inTenancy g) (Inv g) thread call (placePending i f now entries) Q
      (hold i (.minted v f ::ₘ tokens)) := by
  induction entries with
  | nil => exact hfalse
  | cons entry rest ih =>
    have hentry := hentries entry (by simp)
    refine safe_field (.pending entry) fun mutex others t w h hallowed => ?_
    refine ⟨.minted v f ::ₘ tokens, ?_, ?_⟩
    · by_cases hfree : w.pending entry = 0
      · have ht := hallowed placing (by simp [Words.get, hfree]) v hcall
        simp only [Words.get, hfree, if_true, elim_some]
        have hv := (h.holds (.minted v f) (by simp)).1
        refine h.vacate hv ht _ fun e => ?_
        by_cases he : e = entry
        · exact .inr (.inr (he ▸ update_self ..))
        · exact .inl (update_of_ne he _ _)
      · simpa [Words.get, hfree] using h
    · show Safe _ _ _ _ _ (if w.pending entry == 0 then _ else _) _ _
      split
      · refine safe_skip (.inl id) fun _ => ?_
        refine safe_field (.pending entry) fun mutex others t w h hallowed => ?_
        refine ⟨.placed v f ::ₘ tokens, ?_, htrue⟩
        rw [cons_add] at h ⊢
        exact h.place (hallowed f rfl v hcall) hentry
      · exact ih fun e he => hentries e (List.mem_cons_of_mem _ he)

theorem safe_giveUp {keyIndex : Nat} {error : Error} (hcall : call.generation? = some v) :
    Safe (poolSys g) (inTenancy g) (Inv g) thread call
      (do returnReserved i; addAvailable g keyIndex 1; return (.error error : Except Error Lease))
      (fun _ _ => True) (hold i (.unit v ::ₘ tokens)) :=
  .bind (safe_returnReserved hcall (.bind (safe_addAvailable keyIndex 1 trivial)))

theorem safe_mint {Q : Nat → Share → Prop} (hcall : call.generation? = some v)
    (hseen : .seen v ∈ tokens)
    (hQ : ∀ before, before + 1 < placing → Q before (hold i (.minted v (before + 1) ::ₘ tokens))) :
    Safe (poolSys g) (inTenancy g) (Inv g) thread call (fetchAdd 64 (.fence i) 1) Q
      (hold i tokens) := by
  refine safe_field .fence fun mutex rest t w h hallowed => ?_
  obtain ⟨ht, hlt⟩ := hallowed _ rfl v hcall
  have hv := (h.holds (.seen v) (mem_add.mpr (.inl hseen))).2
  refine ⟨.minted v (w.fence + 1) ::ₘ tokens, ?_, hQ w.fence hlt⟩
  have hmod : (w.fence + 1) % 2 ^ 64 = w.fence + 1 := by
    have hp : placing < 2 ^ 64 := by decide
    have hlt' : w.fence + 1 < placing := hlt
    exact Nat.mod_eq_of_lt (by omega)
  have hmint := h.mint hv ht hlt
  rw [cons_add]
  simpa only [Words.get, Words.set, elim_some, hmod] using hmint

theorem safe_readCapacity {Q : Nat → Share → Prop} (hseen : .seen v ∈ tokens)
    (hQ : ∀ c, Q c (hold i (.room v c ::ₘ tokens))) :
    Safe (poolSys g) (inTenancy g) (Inv g) thread call (load (.capacity i)) Q (hold i tokens) := by
  refine safe_field .capacity fun mutex rest t w h _ => ?_
  have hv := (h.holds (.seen v) (mem_add.mpr (.inl hseen))).2
  have hroom : (SlotToken.room v w.capacity).Holds t w := by
    refine ⟨hv, fun ht => ?_⟩
    rw [(h.settled (h.settled_of_le hv ht)).capacity, ht]
  have hlearn := h.learn hroom (by simp)
  exact ⟨.room v w.capacity ::ₘ tokens, by rwa [cons_add], hQ w.capacity⟩

theorem safe_count {capacity : Nat} {Q : Bool → Share → Prop} (hcall : call.generation? = some v)
    (hroom : .room v capacity ∈ tokens) (htrue : Q true (hold i (.unit v ::ₘ tokens)))
    (hfalse : Q false (hold i tokens)) :
    Safe (poolSys g) (inTenancy g) (Inv g) thread call
      (tryUpdate (.units i) fun units =>
        if add32 (unpackCounts units).1 (unpackCounts units).2 < capacity then
          some (packCounts ((unpackCounts units).1 + 1) (unpackCounts units).2)
        else none) Q (hold i tokens) := by
  refine safe_field .units fun mutex rest t w h hallowed => ?_
  change ∀ new, (if add32 w.reserved w.active < capacity then _ else none) = some new → _ at hallowed
  change ∃ tokens', SlotOk _ _ _ _ ((if add32 w.reserved w.active < capacity then
    some (packCounts (w.reserved + 1) w.active) else none).elim _ _) ∧
    Q (if add32 w.reserved w.active < capacity then
      some (packCounts (w.reserved + 1) w.active) else none).isSome _
  by_cases hlt : add32 w.reserved w.active < capacity
  · have ht := (hallowed _ (if_pos hlt)).1 v hcall
    obtain ⟨hv, hgranted⟩ := h.holds (.room v capacity) (mem_add.mpr (.inl hroom))
    have hold := (h.settled (h.settled_of_le hv ht)).room
    have hbound := h.bounded
    rw [add32_of_lt (by omega), ← hgranted ht] at hlt
    refine ⟨.unit v ::ₘ tokens, ?_, ?_⟩
    · rw [cons_add, add32_of_lt (by omega), ← hgranted ht, if_pos hlt]
      exact h.count hv ht hlt
    · rw [add32_of_lt (by omega), ← hgranted ht, if_pos hlt]
      exact htrue
  · refine ⟨tokens, ?_, ?_⟩
    · rw [if_neg hlt]
      exact h
    · rw [if_neg hlt]
      exact hfalse

theorem safe_reserve (p : Pool g) (id : ResourceId) (now : Nat)
    (hcall : call.generation? = some id.generation) (hlocate : p.locate id = .ok i) :
    Safe (poolSys g) (inTenancy g) (Inv g) thread call (p.reserve id now) (fun _ _ => True)
      (hold i {.seen id.generation}) := by
  have hindex : id.index g = i := (locateIn_ok hlocate).2.2.2.symm
  unfold Pool.reserve
  rw [hlocate]
  refine .bind (.load fun state => ?_)
  split
  · trivial
  split
  · trivial
  refine .bind (.load fun keyIndex => ?_)
  refine .bind (safe_takeAvailable keyIndex fun taken => ?_)
  split
  · trivial
  refine .bind (safe_readCapacity (v := id.generation) (by simp) fun capacity => ?_)
  refine .bind (safe_count hcall (by simp) ?_ (.bind (safe_addAvailable keyIndex 1 trivial)))
  refine .bind (safe_isGeneration i id.generation fun current => ?_)
  split
  · exact safe_giveUp hcall
  refine .bind (safe_mint hcall (by simp) fun before hlt => ?_)
  have hmod : (before + 1) % 2 ^ 64 = before + 1 := by
    have hp : placing < 2 ^ 64 := by decide
    exact Nat.mod_eq_of_lt (by omega)
  simp only [hmod]
  refine .bind (safe_placePending hcall (fun _ he => List.mem_range.mp he) ?_ ?_)
  · refine safe_skip (.inl fun hw => hw) fun _ => ?_
    refine safe_mark (fun t => t.reserved _) (fun h => by rw [← hindex]; rfl)
      fun mutex rest t w h => ?_
    rw [cons_swap, cons_add, cons_add] at h
    exact ⟨_, h.reserved rfl rfl, trivial⟩
  · rw [cons_swap]
    exact safe_giveUp hcall

end Reserve

section Finish

variable {thread : Nat} {call : Call g} {i v : Nat}

theorem safe_takePending {tokens : Multiset SlotToken} {lease : Lease} {entries : List Nat}
    {Q : Bool → Share → Prop} (hcall : call.generation? = some lease.id.generation)
    (hlease : .presents lease ∈ tokens)
    (hentries : ∀ entry ∈ entries, entry < pendingReservations)
    (htrue : Q true (hold i (.taken lease ::ₘ tokens))) (hfalse : Q false (hold i tokens)) :
    Safe (poolSys g) (inTenancy g) (Inv g) thread call (takePending i lease.fence entries) Q
      (hold i tokens) := by
  induction entries with
  | nil => exact hfalse
  | cons entry rest ih =>
    have hentry := hentries entry (by simp)
    refine safe_field (.pending entry) fun mutex others t w h hallowed => ?_
    by_cases hfound : w.pending entry = lease.fence
    · have ht := hallowed 0 (if_pos hfound) _ hcall
      have hissued := h.holds (.presents lease) (mem_add.mpr (.inl hlease))
      have htake := h.take hissued ht hentry hfound
      refine ⟨.taken lease ::ₘ tokens, ?_, ?_⟩
      · simpa [Words.get, Words.set, hfound] using htake
      · show Safe _ _ _ _ _ (if w.pending entry == lease.fence then _ else _) _ _
        rw [if_pos (by simpa using hfound)]
        exact htrue
    · refine ⟨tokens, ?_, ?_⟩
      · simpa [Words.get, hfound] using h
      · show Safe _ _ _ _ _ (if w.pending entry == lease.fence then _ else _) _ _
        rw [if_neg (by simpa using hfound)]
        exact ih fun e he => hentries e (List.mem_cons_of_mem _ he)

theorem safe_cancelReservation (p : Pool g) (lease : Lease)
    (hcall : call.generation? = some lease.id.generation) (hindex : lease.id.index g = i) :
    Safe (poolSys g) (inTenancy g) (Inv g) thread call (p.cancelReservation lease) (fun _ _ => True)
      (hold i {.presents lease}) := by
  unfold Pool.cancelReservation
  split
  · trivial
  split
  · trivial
  rename_i index hlocate
  obtain rfl : index = i := (locateIn_ok hlocate).2.2.2.trans hindex
  refine .bind (safe_takePending hcall (by simp) (fun _ he => List.mem_range.mp he) ?_ trivial)
  refine safe_field_mark .units (fun t => t.cancelled lease) (fun h => by rw [← hindex]; rfl)
    fun mutex rest t w h hallowed => ?_
  have ht := (hallowed _ rfl).1 _ hcall
  rw [cons_add] at h
  refine ⟨{.presents lease}, h.cancelled ht, ?_⟩
  show Safe _ _ _ _ _ (load _ >>= fun keyIndex => _) _ _
  exact .bind (.load fun keyIndex => .bind (safe_addAvailable keyIndex 1 trivial))

theorem safe_accept (p : Pool g) (lease : Lease)
    (hcall : call.generation? = some lease.id.generation) (hindex : lease.id.index g = i) :
    Safe (poolSys g) (inTenancy g) (Inv g) thread call (p.accept lease) (fun _ _ => True)
      (hold i {.presents lease}) := by
  refine .bind (safe_owned p lease.id (fun _ => trivial) fun index hlocate => ?_)
  obtain rfl : index = i := (locateIn_ok hlocate).2.2.2.trans hindex
  refine .bind (.load fun state => ?_)
  split
  · trivial
  refine .bind (safe_takePending hcall (by simp) (fun _ he => List.mem_range.mp he) ?_ trivial)
  refine safe_field_mark .units (fun t => t.accepted lease) (fun h => by rw [← hindex]; rfl)
    fun mutex rest t w h hallowed => ?_
  have ht := (hallowed _ rfl).1 _ hcall
  rw [cons_add] at h
  exact ⟨{.presents lease}, h.accepted ht, trivial⟩

theorem safe_finish (execution : Execution) (maxIdle : Option Nat)
    (hcall : call.generation? = some execution.lease.id.generation)
    (hindex : execution.lease.id.index g = i) :
    Safe (poolSys g) (inTenancy g) (Inv g) thread call (execution.finish g maxIdle)
      (fun _ _ => True) (hold i {.act execution.lease.id.generation}) := by
  refine .bind (.load fun state => .bind (.load fun generation => ?_))
  split
  · trivial
  refine .bind (.load fun keyIndex => ?_)
  have hgive : ∀ retained : Bool, Safe (poolSys g) (inTenancy g) (Inv g) thread call
      (do
        if retained ∨ state = resourceDraining then
          let _ ← tryUpdate (.units i) fun units =>
            some (packCounts (unpackCounts units).1 ((unpackCounts units).2 - 1))
        return retained)
      (fun _ _ => True) (hold i {.act execution.lease.id.generation}) := by
    intro retained
    split
    · refine safe_field .units fun mutex rest t w h hallowed => ?_
      have ht := (hallowed _ rfl).1 _ hcall
      refine ⟨0, ?_, trivial⟩
      rw [zero_add]
      exact h.finish ht
    · trivial
  rw [← hindex] at hgive ⊢
  split
  · exact .bind (safe_retainUnit keyIndex maxIdle fun retained => hgive retained)
  · exact hgive false

theorem safe_complete (execution : Execution)
    (hcall : call.generation? = some execution.lease.id.generation)
    (hindex : execution.lease.id.index g = i) :
    Safe (poolSys g) (inTenancy g) (Inv g) thread call (execution.complete g)
      (fun _ _ => True) (hold i {.act execution.lease.id.generation}) :=
  .bind (safe_finish execution none hcall hindex)

theorem safe_completeIdle (execution : Execution) (maxIdle : Nat)
    (hcall : call.generation? = some execution.lease.id.generation)
    (hindex : execution.lease.id.index g = i) :
    Safe (poolSys g) (inTenancy g) (Inv g) thread call (execution.completeIdle g maxIdle)
      (fun _ _ => True) (hold i {.act execution.lease.id.generation}) := by
  unfold Execution.completeIdle
  split
  · exact .bind (safe_complete execution hcall hindex)
  · exact .bind (safe_finish execution (some maxIdle) hcall hindex)

end Finish

section Close

variable {thread : Nat} {call : Call g}

theorem hold_zero (i : Nat) : hold i 0 = 0 := by
  rw [hold, Pi.single_zero]
  rfl

theorem safe_setState {i : Nat} {change : Nat → Option Nat} {Q : Bool → Share → Prop}
    (hchange : ∀ old new, change old = some new → old = resourceLive ∨ old = resourceDraining)
    (hQ : ∀ b, Q b 0) :
    Safe (poolSys g) (inTenancy g) (Inv g) thread call (tryUpdate (.state i) change) Q 0 := by
  rw [← hold_zero i] at hQ ⊢
  refine safe_field .state fun mutex rest t w h _ => ⟨0, ?_, hQ _⟩
  cases hc : change (w.get .state) with
  | none => exact h
  | some new => exact h.setState new (.inl (hchange _ _ hc))

theorem safe_closeResource (index : Nat) {Q : Unit → Share → Prop} (hQ : Q () 0) :
    Safe (poolSys g) (inTenancy g) (Inv g) thread call (closeResource g index) Q 0 := by
  refine .bind (safe_setState (fun old new h => ?_) fun closed => ?_)
  · split at h
    · assumption
    · cases h
  split
  · refine .bind (.load fun keyIndex => ?_)
    refine safe_skip (.inl id) fun _ => ?_
    have hcounts : Safe (poolSys g) (inTenancy g) (Inv g) thread call
        (tryUpdate (.counts keyIndex) fun counts =>
          some (packCounts ((unpackCounts counts).1 - 1) (unpackCounts counts).2))
        (fun _ => Q ()) 0 := safe_skip (.inl id) fun _ => hQ
    show Safe _ _ _ _ _ (if _ then _ else _) _ _
    split
    · refine .bind (.load fun units => .bind (.load fun capacity => ?_))
      exact .bind (safe_removeAvailable keyIndex _ (.bind hcounts))
    · exact .bind hcounts
  · exact hQ

theorem safe_unregister (p : Pool g) (id : ResourceId) :
    Safe (poolSys g) (inTenancy g) (Inv g) thread call (p.unregister id) (fun _ _ => True) 0 :=
  .bind (safe_owned p id (fun _ => trivial) fun index _ => .bind (safe_closeResource index trivial))

theorem safe_drain (p : Pool g) (id : ResourceId) :
    Safe (poolSys g) (inTenancy g) (Inv g) thread call (p.drain id) (fun _ _ => True) 0 := by
  refine .bind (safe_owned p id (fun _ => trivial) fun index _ => ?_)
  rw [← hold_zero index]
  refine safe_field .state fun mutex rest t w h _ => ⟨0, ?_, trivial⟩
  by_cases hlive : w.state = resourceLive
  · have hset := h.setState resourceDraining (.inl (.inl hlive))
    simpa [Words.get, Words.set, hlive] using hset
  · simpa [Words.get, hlive] using h

end Close

end OrbitPool
