import Orbit.Atomic.Ledger
import Orbit.Pool.Reservations

/-! Lease exactness.  The units reserved on a slot are its pending entries, a fence is pending at
most once, and a lease that was accepted or cancelled is not pending again, unless a cancellation
is made with a lease of an ended generation whose fence the current one has pending. -/

namespace OrbitPool

open Orbit.Atomic Function
open List hiding Mem

variable {g : Geometry} {mem mem' : Mem Addr}

/-- The reservations of a slot stay or are taken out together with their units. -/
structure Quiet (mem mem' : Mem Addr) (slot : Nat) : Prop where
  generation : mem' (.generation slot) = mem (.generation slot)
  fence : mem (.fence slot) ≤ mem' (.fence slot)
  pending : ∀ entry, mem' (.pending slot entry) = mem (.pending slot entry) ∨
    mem' (.pending slot entry) = 0
  units : reserved mem slot = pendingCount mem slot → reserved mem' slot = pendingCount mem' slot

/-- The slot begins a new generation, without reservations. -/
structure Renewed (mem mem' : Mem Addr) (slot : Nat) : Prop where
  generation : mem' (.generation slot) = mem (.generation slot) + 1
  pending : ∀ entry < pendingReservations, mem' (.pending slot entry) = 0
  units : reserved mem' slot = 0

variable {slot : Nat}

theorem pendingCount_congr (h : ∀ entry, mem' (.pending slot entry) = mem (.pending slot entry)) :
    pendingCount mem' slot = pendingCount mem slot := by
  simp only [pendingCount, h]

theorem Quiet.of_eq (hgen : mem' (.generation slot) = mem (.generation slot))
    (hfence : mem (.fence slot) ≤ mem' (.fence slot))
    (hpending : ∀ entry, mem' (.pending slot entry) = mem (.pending slot entry))
    (hunits : reserved mem slot = pendingCount mem slot → reserved mem' slot = reserved mem slot) :
    Quiet mem mem' slot := by
  refine ⟨hgen, hfence, fun entry => .inl (hpending entry), fun h => ?_⟩
  rw [hunits h, pendingCount_congr hpending, h]

theorem Quiet.refl (mem : Mem Addr) (slot : Nat) : Quiet mem mem slot :=
  .of_eq rfl (Nat.le_refl _) (fun _ => rfl) fun _ => rfl

theorem Quiet.of_words (h : ∀ a : Addr, a.slot? = some slot → a ≠ .state slot → mem' a = mem a) :
    Quiet mem mem' slot :=
  .of_eq (h _ rfl (by simp)) (h _ rfl (by simp)).ge (fun _ => h _ rfl (by simp)) fun _ => by
    rw [reserved, h _ rfl (by simp), reserved]

theorem NotReserved.quiet (h : NotReserved g mem mem')
    (hfence : mem (.fence slot) + 1 < 2 ^ 64 ∨ mem' (.fence slot) = mem (.fence slot)) :
    Quiet mem mem' slot := by
  have hword : ∀ a, (∀ slot, a ≠ .units slot) → (∀ slot, a ≠ .fence slot) →
      (∀ k, a ≠ .available k) → mem' a = mem a := h.words
  refine .of_eq (hword _ (by simp) (by simp) (by simp)) ?_
    (fun entry => hword _ (by simp) (by simp) (by simp)) fun hunits => ?_
  · rcases h.fence slot with hf | hf
    · exact hf.ge
    · rcases hfence with hlt | hsame
      · rw [hf, Nat.mod_eq_of_lt hlt]
        omega
      · exact hsame.ge
  · have hle := pendingCount_le mem slot
    exact (h.reserved slot (by omega)).1

theorem Reconciled.quiet {p : Pool g} {id : ResourceId} {nowActive aged : Nat}
    (h : Reconciled p mem mem' id nowActive slot aged) (other : Nat) : Quiet mem mem' other := by
  by_cases hother : other = slot
  · subst hother
    refine ⟨?_, ?_, h.pending, fun hunits => ?_⟩
    · exact h.words _ (by simp) (by simp) (by simp [Addr.part])
    · exact (h.words _ (by simp) (by simp) (by simp [Addr.part])).ge
    · have hcount := h.count
      have hlt := reserved_lt mem other
      rw [reserved, h.units, unpackCounts_packCounts]
      simp only
      rw [Nat.mod_eq_of_lt (by omega)]
      omega
  · refine .of_words fun a ha _ => h.words a ?_ ?_ ?_
    · rintro entry rfl
      cases ha
      exact hother rfl
    · rintro rfl
      cases ha
      exact hother rfl
    · exact a.part_ne_of_slot? ha (by simp) (by simp)

theorem NotRegistered.quiet (h : NotRegistered mem mem') (slot : Nat) : Quiet mem mem' slot :=
  .of_words fun _ ha hne => (h.slots slot).word hne ha

theorem Registered.quiet_or_renewed {p : Pool g} {key : Key} {capacity : Nat} {active : Bool}
    {k : Nat} (h : Registered p mem mem' key capacity active k slot) (other : Nat) :
    Quiet mem mem' other ∨ Renewed mem mem' other := by
  by_cases hother : other = slot
  · subst hother
    refine .inr ⟨h.installed.generation, h.installed.pending, ?_⟩
    rw [reserved, h.units]
    cases active <;> rfl
  · exact .inl (.of_words fun a ha hne => (h.slots other hother).word hne ha)

theorem ResourceClosed.quiet (h : ResourceClosed g mem mem' slot) (other : Nat) :
    Quiet mem mem' other := by
  have hword : ∀ a : Addr, a.slot? = some other → a ≠ .state slot → mem' a = mem a :=
    fun a ha hne => h.words a hne (a.part_ne_of_slot? ha (by simp) (by simp))
      (a.part_ne_of_slot? ha (by simp) (by simp)) (a.part_ne_of_slot? ha (by simp) (by simp))
  refine .of_words fun a ha hne => ?_
  by_cases hs : a = .state slot
  · subst hs
    cases ha
    exact absurd rfl hne
  · exact hword a ha hs

theorem Execution.finish_quiet (execution : Execution) (maxIdle : Option Nat) (mem : Mem Addr)
    (slot : Nat) : Quiet mem ((execution.finish g maxIdle).run mem).2 slot := by
  have hhalf : ∀ (i v : Nat), (unpackCounts (packCounts (reserved mem i) v)).1 = reserved mem i := by
    intro i v
    rw [unpackCounts_packCounts]
    exact Nat.mod_eq_of_lt (reserved_lt mem i)
  -- only the active half of the units and the ledger of available units are written
  have hwrites : ∀ (k v x : Nat), Quiet mem (update (update mem (.available k) x)
      (.units (execution.slot g)) (packCounts (reserved mem (execution.slot g)) v)) slot := by
    intro k v x
    refine .of_eq (by simp) (by simp) (fun entry => by simp) fun _ => ?_
    by_cases hslot : slot = execution.slot g
    · subst hslot
      rw [reserved, update_self, hhalf]
    · simp [reserved, hslot]
  by_cases hended : mem (.generation (execution.slot g)) ≠ execution.lease.id.generation ∨
      ¬Held mem (execution.slot g)
  · rw [run_finish_ended execution maxIdle hended]
    exact .refl mem slot
  · simp only [not_or, ne_eq, Decidable.not_not] at hended
    obtain ⟨hgen, hlive | hdraining⟩ := hended
    · rw [run_finish_live execution maxIdle hgen hlive]
      split
      · exact hwrites _ _ _
      · exact .refl mem slot
    · rw [run_finish_draining execution maxIdle hgen hdraining]
      have h := hwrites 0 (active mem (execution.slot g) - 1) (mem (.available 0))
      rwa [update_eq_self] at h

/-- No counter of the slot wraps, a lease presented carries a fence, and a cancelled lease is of the
current generation of its slot unless no entry carries its fence. -/
def LeaseOk (w : World g) : Op g → Prop
  | .reserve p id _ => ∀ slot, p.locate id = .ok slot → w.mem (.fence slot) + 1 < 2 ^ 64
  | .accept p lease => lease.fence ≠ 0 ∧
      ∀ slot, p.locate lease.id = .ok slot → active w.mem slot + 1 < 2 ^ 32
  | .cancelReservation p lease => lease.fence ≠ 0 ∧ ∀ slot, p.locate lease.id = .ok slot →
      w.mem (.generation slot) = lease.id.generation ∨
        ∀ entry < pendingReservations, w.mem (.pending slot entry) ≠ lease.fence
  | _ => True

/-- A lease of the slot's past, or of its current generation and already minted. -/
structure Minted (g : Geometry) (mem : Mem Addr) (lease : Lease) (slot : Nat) : Prop where
  located : locateIn g lease.id = .ok slot
  generation : lease.id.generation ≤ mem (.generation slot)
  fence : lease.id.generation = mem (.generation slot) → lease.fence ≤ mem (.fence slot)

def NotPending (mem : Mem Addr) (lease : Lease) (slot : Nat) : Prop :=
  lease.id.generation = mem (.generation slot) →
    ∀ entry < pendingReservations, mem (.pending slot entry) ≠ lease.fence

structure LeaseLedger (w : World g) : Prop where
  units : ∀ slot, reserved w.mem slot = pendingCount w.mem slot
  fences : ∀ slot, ∀ entry < pendingReservations,
    w.mem (.pending slot entry) ≤ w.mem (.fence slot)
  distinct : ∀ slot, ∀ entry < pendingReservations, ∀ other < pendingReservations,
    w.mem (.pending slot entry) ≠ 0 → w.mem (.pending slot other) = w.mem (.pending slot entry) →
      other = entry
  returned : ∀ lease ∈ w.returned, ∃ slot, Minted g w.mem lease slot
  unique : ∀ lease ∈ w.returned, ∀ other ∈ w.returned, other.id = lease.id →
    other.fence = lease.fence → other = lease
  spent : ∀ lease ∈ w.spent, lease.fence ≠ 0 ∧
    ∃ slot, Minted g w.mem lease slot ∧ NotPending w.mem lease slot
  nodup : w.spent.Nodup

theorem LeaseLedger.init (g : Geometry) : LeaseLedger (World.init g) where
  units slot := by simp [reserved, World.init, pendingCount, unpackCounts]
  fences slot entry _ := Nat.le_refl _
  distinct slot entry _ other _ hne := absurd rfl hne
  returned lease h := by cases h
  unique lease h := by cases h
  spent lease h := by cases h
  nodup := nodup_nil

theorem Minted.of_slot {lease : Lease} (h : Minted g mem lease slot)
    (hslot : Quiet mem mem' slot ∨ Renewed mem mem' slot) : Minted g mem' lease slot := by
  rcases hslot with hq | hr
  · refine ⟨h.located, by rw [hq.generation]; exact h.generation, fun heq => ?_⟩
    rw [hq.generation] at heq
    exact Nat.le_trans (h.fence heq) hq.fence
  · have hgen := h.generation
    have hnew := hr.generation
    exact ⟨h.located, by omega, fun heq => by omega⟩

theorem NotPending.of_slot {lease : Lease} (h : NotPending mem lease slot)
    (hfence : lease.fence ≠ 0) (hminted : Minted g mem lease slot)
    (hslot : Quiet mem mem' slot ∨ Renewed mem mem' slot) : NotPending mem' lease slot := by
  intro heq entry hentry
  rcases hslot with hq | hr
  · rw [hq.generation] at heq
    rcases hq.pending entry with hp | hp
    · rw [hp]
      exact h heq entry hentry
    · rw [hp]
      exact hfence.symm
  · have hgen := hminted.generation
    have hnew := hr.generation
    omega

section

variable {w w' : World g} (h : LeaseLedger w)
include h

theorem LeaseLedger.of_slots (hslots : ∀ slot, Quiet w.mem w'.mem slot ∨ Renewed w.mem w'.mem slot)
    (hreturned : w'.returned = w.returned) (hspent : w'.spent = w.spent) : LeaseLedger w' where
  units slot := by
    rcases hslots slot with hq | hr
    · exact hq.units (h.units slot)
    · rw [hr.units, eq_comm, pendingCount, countP_eq_zero]
      intro entry hentry
      simp [hr.pending entry (mem_range.mp hentry)]
  fences slot entry hentry := by
    rcases hslots slot with hq | hr
    · have hle := h.fences slot entry hentry
      have hfence := hq.fence
      rcases hq.pending entry with hp | hp <;> omega
    · rw [hr.pending entry hentry]
      exact Nat.zero_le _
  distinct slot entry hentry other hother hne heq := by
    rcases hslots slot with hq | hr
    · have hkept : ∀ e, w'.mem (.pending slot e) ≠ 0 →
          w'.mem (.pending slot e) = w.mem (.pending slot e) :=
        fun e he => (hq.pending e).resolve_right he
      have hentry' := hkept entry hne
      have hother' := hkept other (by rw [heq]; exact hne)
      refine h.distinct slot entry hentry other hother ?_ ?_
      · rw [← hentry']
        exact hne
      · rw [← hentry', ← hother', heq]
    · exact absurd (hr.pending entry hentry) hne
  returned lease hlease := by
    rw [hreturned] at hlease
    obtain ⟨slot, hminted⟩ := h.returned lease hlease
    exact ⟨slot, hminted.of_slot (hslots slot)⟩
  unique := by
    rw [hreturned]
    exact h.unique
  spent lease hlease := by
    rw [hspent] at hlease
    obtain ⟨hfence, slot, hminted, hnot⟩ := h.spent lease hlease
    exact ⟨hfence, slot, hminted.of_slot (hslots slot), hnot.of_slot hfence hminted (hslots slot)⟩
  nodup := by
    rw [hspent]
    exact h.nodup

variable {p : Pool g}

theorem LeaseLedger.take {lease : Lease} {slot entry : Nat}
    (htaken : Taken p w.mem lease slot entry) (hfence : lease.fence ≠ 0)
    (hgen : w.mem (.generation slot) = lease.id.generation)
    (hpending : w'.mem (.pending slot entry) = 0)
    (hunits : reserved w'.mem slot = reserved w.mem slot - 1)
    (hwords : ∀ i a, a.slot? = some i → a ≠ .pending slot entry → a ≠ .units slot →
      w'.mem a = w.mem a) (hreturned : w'.returned = w.returned)
    (hspent : w'.spent = lease :: w.spent) : LeaseLedger w' := by
  have hentry := htaken.entry_lt
  have hcount : pendingCount w'.mem slot + 1 = pendingCount w.mem slot := by
    have hchange := countP_range_change (fun e => decide (w.mem (.pending slot e) ≠ 0))
      (fun e => decide (w'.mem (.pending slot e) ≠ 0)) hentry fun e he => by
        rw [hwords slot _ rfl (by simpa using he) (by simp)]
    simpa [pendingCount, hpending, htaken.pending, hfence] using hchange
  have hquiet : ∀ i, Quiet w.mem w'.mem i := by
    intro i
    by_cases hi : i = slot
    · subst hi
      refine ⟨hwords i _ rfl (by simp) (by simp), (hwords i _ rfl (by simp) (by simp)).ge,
        fun e => ?_, fun heq => by omega⟩
      by_cases he : e = entry
      · subst he
        exact .inr hpending
      · exact .inl (hwords i _ rfl (by simpa using he) (by simp))
    · refine .of_words fun a ha _ => hwords i a ha ?_ ?_
      · rintro rfl
        cases ha
        exact hi rfl
      · rintro rfl
        cases ha
        exact hi rfl
  have hkept : LeaseLedger { w' with spent := w.spent } :=
    h.of_slots (fun i => .inl (hquiet i)) hreturned rfl
  have hminted : Minted g w.mem lease slot := by
    refine ⟨htaken.located, hgen.ge, fun _ => ?_⟩
    rw [← htaken.pending]
    exact h.fences slot entry hentry
  have hnot : NotPending w'.mem lease slot := by
    intro _ e he heq
    by_cases hee : e = entry
    · rw [hee, hpending] at heq
      exact hfence heq.symm
    · rw [hwords slot _ rfl (by simpa using hee) (by simp), ← htaken.pending] at heq
      refine hee (h.distinct slot entry hentry e he ?_ heq)
      rw [htaken.pending]
      exact hfence
  have hnew : lease ∉ w.spent := by
    intro hmem
    obtain ⟨-, slot', hminted', hnot'⟩ := h.spent lease hmem
    obtain rfl : slot' = slot := Except.ok.inj (hminted'.located.symm.trans htaken.located)
    exact hnot' hgen.symm entry hentry htaken.pending
  refine ⟨hkept.units, hkept.fences, hkept.distinct, hkept.returned, hkept.unique, ?_, ?_⟩
  · rw [hspent]
    rintro other (_ | ⟨_, hother⟩)
    · exact ⟨hfence, slot, hminted.of_slot (.inl (hquiet slot)), hnot⟩
    · exact hkept.spent other hother
  · rw [hspent]
    exact nodup_cons.mpr ⟨hnew, h.nodup⟩

theorem LeaseLedger.reserve {id : ResourceId} {slot entry now : Nat}
    (hres : Reserved p w.mem w'.mem id slot entry now) (hlt : w.mem (.fence slot) + 1 < 2 ^ 64)
    (hreturned : w'.returned = ⟨id, w.mem (.fence slot) + 1, p.node, p.incarnation⟩ :: w.returned)
    (hspent : w'.spent = w.spent) : LeaseLedger w' := by
  have hentry := hres.entry_lt
  have hmem := hres.mem_eq
  rw [Nat.mod_eq_of_lt hlt] at hmem
  have hfence : w'.mem (.fence slot) = w.mem (.fence slot) + 1 := by simp [hmem]
  have hpending : w'.mem (.pending slot entry) = w.mem (.fence slot) + 1 := by simp [hmem]
  have hgen : ∀ i, w'.mem (.generation i) = w.mem (.generation i) := fun i => by simp [hmem]
  have hothers : ∀ i, i ≠ slot → w'.mem (.fence i) = w.mem (.fence i) := fun i hi => by
    simp [hmem, hi]
  have hentries : ∀ i e, i ≠ slot ∨ e ≠ entry →
      w'.mem (.pending i e) = w.mem (.pending i e) := by
    intro i e hne
    have hna : Addr.pending i e ≠ .pending slot entry := by
      intro heq
      cases heq
      rcases hne with hne | hne <;> exact hne rfl
    simp [hmem, hna]
  have hcount : pendingCount w'.mem slot = pendingCount w.mem slot + 1 := by
    have hchange := countP_range_change (fun e => decide (w.mem (.pending slot e) ≠ 0))
      (fun e => decide (w'.mem (.pending slot e) ≠ 0)) hentry fun e he => by
        rw [hentries slot e (.inr he)]
    simpa [pendingCount, hpending, hres.entry_free] using hchange
  -- a lease minted before keeps its place: its fence is below the new one
  have hmint : ∀ lease i, Minted g w.mem lease i → Minted g w'.mem lease i := by
    intro lease i hm
    refine ⟨hm.located, by rw [hgen]; exact hm.generation, fun heq => ?_⟩
    have hle := hm.fence (by rw [← hgen]; exact heq)
    by_cases hi : i = slot
    · subst hi
      omega
    · rw [hothers i hi]
      exact hle
  refine ⟨fun i => ?_, fun i e he => ?_, fun i e he other hother hne heq => ?_, ?_, ?_, ?_, ?_⟩
  · by_cases hi : i = slot
    · subst hi
      have hle := pendingCount_le w.mem i
      have hunits := h.units i
      have hword : w'.mem (.units i) = packCounts (reserved w.mem i + 1) (active w.mem i) := by
        simp [hmem]
      rw [reserved, hword, unpackCounts_packCounts, hcount, ← hunits]
      exact Nat.mod_eq_of_lt (by omega)
    · rw [pendingCount_congr fun e => hentries i e (.inl hi), ← h.units i, reserved, reserved]
      simp [hmem, hi]
  · by_cases hi : i = slot
    · subst hi
      by_cases hee : e = entry
      · subst hee
        rw [hpending, hfence]
      · have hle := h.fences i e he
        rw [hentries i e (.inr hee), hfence]
        omega
    · rw [hentries i e (.inl hi), hothers i hi]
      exact h.fences i e he
  · have hbelow : ∀ e' < pendingReservations, e' ≠ entry →
        w'.mem (.pending slot e') ≠ w.mem (.fence slot) + 1 := by
      intro e' he' hne'
      have hle := h.fences slot e' he'
      rw [hentries slot e' (.inr hne')]
      omega
    by_cases hi : i = slot
    · subst hi
      by_cases hee : e = entry
      · subst hee
        by_contra hoe
        rw [hpending] at heq
        exact hbelow other hother hoe heq
      · by_cases hoe : other = entry
        · subst hoe
          rw [hpending] at heq
          exact absurd heq.symm (hbelow e he hee)
        · rw [hentries i e (.inr hee)] at hne heq
          rw [hentries i other (.inr hoe)] at heq
          exact h.distinct i e he other hother hne heq
    · rw [hentries i e (.inl hi)] at hne heq
      rw [hentries i other (.inl hi)] at heq
      exact h.distinct i e he other hother hne heq
  · rw [hreturned]
    rintro lease (_ | ⟨_, hlease⟩)
    · exact ⟨slot, hres.located, by rw [hgen, hres.generation], fun _ => hfence.ge⟩
    · obtain ⟨i, hm⟩ := h.returned lease hlease
      exact ⟨i, hmint lease i hm⟩
  · -- an older lease of the same id has a smaller fence
    have hnew : ∀ lease ∈ w.returned, lease.id = id → lease.fence ≠ w.mem (.fence slot) + 1 := by
      intro lease hlease hid
      obtain ⟨i, hm⟩ := h.returned lease hlease
      have hloc := hm.located
      rw [hid] at hloc
      obtain rfl : i = slot := Except.ok.inj (hloc.symm.trans hres.located)
      have hle := hm.fence (by rw [hid, hres.generation])
      omega
    rw [hreturned]
    rintro lease (_ | ⟨_, hlease⟩) other (_ | ⟨_, hother⟩) hid hf
    · rfl
    · exact absurd hf (hnew other hother hid)
    · exact absurd hf.symm (hnew lease hlease hid.symm)
    · exact h.unique lease hlease other hother hid hf
  · rw [hspent]
    intro lease hlease
    obtain ⟨hne, i, hm, hnot⟩ := h.spent lease hlease
    refine ⟨hne, i, hmint lease i hm, fun heq e he => ?_⟩
    rw [hgen] at heq
    by_cases hplace : i = slot ∧ e = entry
    · obtain ⟨rfl, rfl⟩ := hplace
      have hle := hm.fence heq
      rw [hpending]
      omega
    · rw [hentries i e (by omega)]
      exact hnot heq e he
  · rw [hspent]
    exact h.nodup

theorem LeaseLedger.registered {key : Key} {capacity now : Nat} {active : Bool}
    (hk : KeyTable g w.mem) (hmem : w'.mem = if capacity = 0 then w.mem
      else ((p.registerInner key capacity active now).run w.mem).2)
    (hreturned : w'.returned = w.returned) (hspent : w'.spent = w.spent) : LeaseLedger w' := by
  refine h.of_slots (fun slot => ?_) hreturned hspent
  rw [hmem]
  split
  · exact .inl (.refl _ slot)
  · rcases run_registerInner hk p key capacity active now with ⟨-, hnot⟩ | ⟨k, i, hreg, -⟩
    · exact .inl (hnot.quiet slot)
    · exact hreg.quiet_or_renewed slot

theorem LeaseLedger.exec (hk : KeyTable g w.mem) (op : Op g) (hok : LeaseOk w op) :
    LeaseLedger (exec w op) := by
  have hquiet : ∀ w' : World g, (∀ slot, Quiet w.mem w'.mem slot) → w'.returned = w.returned →
      w'.spent = w.spent → LeaseLedger w' :=
    fun w' hslots => h.of_slots fun slot => .inl (hslots slot)
  -- operations that leave the slots alone
  have huntouched : (∀ i, ¬op.touches (.slot i) ∧ ¬op.touches (.lease i)) →
      ∀ slot, Quiet w.mem (OrbitPool.exec w op).mem slot := by
    intro hno slot
    refine .of_words fun a ha _ => exec_slot_eq hk op ha ?_
    rcases a.part_of_slot? ha with hp | hp
    · rw [hp]
      exact (hno slot).1
    · rw [hp]
      exact (hno slot).2
  cases op with
  | register p key capacity now =>
    exact h.registered hk (run_register_mem p key capacity.toNat now w.mem) rfl rfl
  | registerActive p key capacity now =>
    exact h.registered hk (run_registerActive_mem p key capacity.toNat now w.mem) rfl rfl
  | unregister p id =>
    refine hquiet _ (fun slot => ?_) rfl rfl
    rcases @run_unregister g w.mem p id with hmem | ⟨i, -, hclosed⟩
    · exact .of_words fun a _ _ => congrFun hmem a
    · exact hclosed.quiet slot
  | drain p id =>
    refine hquiet _ (fun slot => ?_) rfl rfl
    rcases @run_drain g w.mem p id with hmem | ⟨i, -, -, hmem⟩
    · exact .of_words fun a _ _ => congrFun hmem a
    · refine .of_words fun a ha hne => (congrFun hmem a).trans (update_of_ne ?_ _ _)
      rintro rfl
      cases ha
      exact hne rfl
  | reconcile p id active grace now =>
    refine hquiet _ (fun slot => ?_) rfl rfl
    rcases run_reconcile p id active.toNat grace now w.mem with hmem | ⟨i, aged, hrec⟩
    · exact .of_words fun a _ _ => congrFun hmem a
    · exact hrec.quiet slot
  | reserve p id now =>
    rcases run_reserve p id now w.mem with ⟨⟨e, he⟩, hnot, -⟩ | ⟨slot, entry, hres, hlease⟩
    · refine hquiet _ (fun slot => ?_) (by simp [OrbitPool.exec, he, keep]) rfl
      refine hnot.quiet ?_
      by_cases hlocate : p.locate id = .ok slot
      · exact .inl (hok slot hlocate)
      · right
        exact exec_slot_eq hk (.reserve p id now) rfl (by simp [Op.touches, Addr.part, hlocate])
    · have hlt := hok slot hres.located
      rw [Nat.mod_eq_of_lt hlt] at hlease
      exact h.reserve hres hlt (by simp [OrbitPool.exec, hlease, keep]) rfl
  | accept p lease =>
    rcases run_accept p lease w.mem with ⟨⟨e, he⟩, hmem⟩ |
      ⟨slot, entry, htaken, howned, -, hresult, hmem⟩
    · refine hquiet _ (fun slot => .of_words fun a _ _ => congrFun hmem a) rfl ?_
      simp [OrbitPool.exec, he, keep]
    · have hunits := reserved_lt w.mem slot
      refine h.take htaken hok.1 howned.generation ?_ ?_ (fun i a ha h1 h2 => ?_) rfl ?_
      · simp [OrbitPool.exec, hmem]
      · simp only [OrbitPool.exec, hmem, reserved, update_self, unpackCounts_packCounts]
        exact Nat.mod_eq_of_lt (by unfold reserved at hunits; omega)
      · simp [OrbitPool.exec, hmem, h1, h2]
      · simp [OrbitPool.exec, hresult, keep]
  | cancelReservation p lease =>
    rcases run_cancelReservation p lease w.mem with ⟨⟨e, he⟩, hmem⟩ |
      ⟨slot, entry, htaken, hresult, hmem⟩
    · refine hquiet _ (fun slot => .of_words fun a _ _ => congrFun hmem a) rfl ?_
      simp [OrbitPool.exec, he, keep]
    · have hunits := reserved_lt w.mem slot
      have hgen : w.mem (.generation slot) = lease.id.generation :=
        (hok.2 slot htaken.located).resolve_right fun hno =>
          hno entry htaken.entry_lt htaken.pending
      refine h.take htaken hok.1 hgen ?_ ?_ (fun i a ha h1 h2 => ?_) rfl ?_
      · simp [OrbitPool.exec, hmem]
      · simp only [OrbitPool.exec, hmem, reserved, ne_eq, reduceCtorEq, not_false_eq_true,
          update_of_ne, update_self, unpackCounts_packCounts]
        exact Nat.mod_eq_of_lt (by unfold reserved at hunits; omega)
      · have h3 : a ≠ .available (w.mem (.keyIndex slot)) := by
          rintro rfl
          cases ha
        simp [OrbitPool.exec, hmem, h1, h2, h3]
      · simp [OrbitPool.exec, hresult, keep]
  | complete n =>
    simp only [OrbitPool.exec]
    split
    · refine hquiet _ (fun slot => ?_) rfl rfl
      rw [run_complete_mem]
      exact Execution.finish_quiet _ none w.mem slot
    · exact h
  | completeIdle n maxIdle =>
    simp only [OrbitPool.exec]
    split
    · refine hquiet _ (fun slot => ?_) rfl rfl
      rw [run_completeIdle_mem]
      exact Execution.finish_quiet _ _ w.mem slot
    · exact h
  | nodeDead node incarnation =>
    refine hquiet _ (fun slot => .of_words fun a ha hne => ?_) rfl rfl
    exact run_nodeDead_slot node incarnation w.mem ha hne
  | dropCreation n | dropAdmission n =>
    refine hquiet _ (huntouched (by simp [Op.touches])) ?_ ?_ <;>
      simp only [OrbitPool.exec] <;> split <;> rfl
  | _ => exact hquiet _ (huntouched (by simp [Op.touches])) rfl rfl

theorem LeaseLedger.other_kept {lease other : Lease} {slot entry i e : Nat}
    (hlease : lease ∈ w.returned) (hother : other ∈ w.returned) (hne : lease ≠ other)
    (htaken : Taken p w.mem lease slot entry)
    (hgen : w.mem (.generation slot) = lease.id.generation) (hlocated : locateIn g other.id = .ok i)
    (hgen' : w.mem (.generation i) = other.id.generation)
    (hpending : w.mem (.pending i e) = other.fence) : Addr.pending i e ≠ .pending slot entry := by
  rintro ⟨⟩
  have hid : lease.id = other.id := locateIn_inj htaken.located hlocated (hgen.symm.trans hgen')
  have hfence : lease.fence = other.fence := htaken.pending.symm.trans hpending
  exact hne (h.unique other hother lease hlease hid hfence)

end

theorem leaseLedger_run (ops : List (Op g)) (hok : Meets exec LeaseOk (World.init g) ops) :
    LeaseLedger (run g ops) := by
  have hstep : ∀ (w : World g) (op : Op g), KeyTable g w.mem ∧ LeaseLedger w → LeaseOk w op →
      KeyTable g (exec w op).mem ∧ LeaseLedger (exec w op) :=
    fun w op h hop => ⟨(exec_keyStep h.1 op).table, h.2.exec h.1 op hop⟩
  exact (hok.holds hstep ⟨KeyTable.zero g, .init g⟩).2

/-- The operation presents the lease to its owner or gives it back. -/
def Presents (lease : Lease) : Op g → Prop
  | .accept _ presented | .cancelReservation _ presented => presented = lease
  | _ => False

theorem Presents.cases {lease : Lease} {op : Op g} (h : Presents lease op) :
    (∃ p, op = .accept p lease) ∨ ∃ p, op = .cancelReservation p lease := by
  cases op with
  | accept p presented =>
    obtain rfl : presented = lease := h
    exact .inl ⟨p, rfl⟩
  | cancelReservation p presented =>
    obtain rfl : presented = lease := h
    exact .inr ⟨p, rfl⟩
  | _ => exact h.elim

/-- In every sequence of whole operations whose steps meet the condition: an `accept` or a
`cancel_reservation` succeeds at most once with one lease, the units reserved on a slot are its
pending entries, and presenting one lease neither takes out the pending entry of another nor the
units counted for it. -/
theorem lease_exactness (g : Geometry) (ops : List (Op g))
    (hok : Meets exec LeaseOk (World.init g) ops) :
    (∀ lease, (run g ops).spent.count lease ≤ 1) ∧
    (∀ slot, reserved (run g ops).mem slot = pendingCount (run g ops).mem slot) ∧
    ∀ lease ∈ (run g ops).returned, ∀ other ∈ (run g ops).returned, lease ≠ other →
      ∀ op, Presents lease op → LeaseOk (run g ops) op →
      (∀ slot entry, locateIn g other.id = .ok slot →
        (run g ops).mem (.generation slot) = other.id.generation →
        (run g ops).mem (.pending slot entry) = other.fence →
        (exec (run g ops) op).mem (.pending slot entry) = other.fence) ∧
      ∀ slot, reserved (exec (run g ops) op).mem slot = pendingCount (exec (run g ops) op).mem slot ∧
        active (run g ops).mem slot ≤ active (exec (run g ops) op).mem slot := by
  have h := leaseLedger_run ops hok
  refine ⟨fun lease => nodup_iff_count_le_one.mp h.nodup lease, h.units, ?_⟩
  intro lease hlease other hother hne op hop hopok
  have hnext : LeaseLedger (exec (run g ops) op) := by
    have hmeets : Meets exec LeaseOk (World.init g) (ops ++ [op]) := hok.append hopok
    have hrun := leaseLedger_run (ops ++ [op]) hmeets
    simpa [run] using hrun
  refine ⟨fun slot entry hlocated hgen hpending => ?_, fun slot => ⟨hnext.units slot, ?_⟩⟩
  · obtain ⟨p, rfl⟩ | ⟨p, rfl⟩ := hop.cases
    · rcases run_accept p lease (run g ops).mem with ⟨-, hmem⟩ |
        ⟨i, e, htaken, howned, -, -, hmem⟩
      · simpa [exec, hmem] using hpending
      · have hplace := h.other_kept hlease hother hne htaken howned.generation hlocated hgen hpending
        simpa [exec, hmem, hplace] using hpending
    · rcases run_cancelReservation p lease (run g ops).mem with ⟨-, hmem⟩ | ⟨i, e, htaken, -, hmem⟩
      · simpa [exec, hmem] using hpending
      · have hcurrent := (hopok.2 i htaken.located).resolve_right fun hno =>
          hno e htaken.entry_lt htaken.pending
        have hplace := h.other_kept hlease hother hne htaken hcurrent hlocated hgen hpending
        simpa [exec, hmem, hplace] using hpending
  · have hactive := active_lt (run g ops).mem slot
    obtain ⟨p, rfl⟩ | ⟨p, rfl⟩ := hop.cases
    · rcases run_accept p lease (run g ops).mem with ⟨-, hmem⟩ |
        ⟨i, e, htaken, howned, -, -, hmem⟩
      · simp [exec, hmem]
      · by_cases hi : slot = i
        · subst hi
          have hlt := hopok.2 slot htaken.located
          have hval : active (exec (run g ops) (.accept p lease)).mem slot =
              active (run g ops).mem slot + 1 := by
            simp only [exec, hmem, active, update_self, unpackCounts_packCounts]
            exact Nat.mod_eq_of_lt hlt
          omega
        · simp [exec, hmem, active, hi]
    · rcases run_cancelReservation p lease (run g ops).mem with ⟨-, hmem⟩ | ⟨i, e, htaken, -, hmem⟩
      · simp [exec, hmem]
      · by_cases hi : slot = i
        · subst hi
          have hval : active (exec (run g ops) (.cancelReservation p lease)).mem slot =
              active (run g ops).mem slot := by
            simp only [exec, hmem, active, ne_eq, reduceCtorEq, not_false_eq_true,
              update_of_ne, update_self, unpackCounts_packCounts]
            exact Nat.mod_eq_of_lt hactive
          omega
        · simp [exec, hmem, active, hi]

theorem soloTable_valid : (⟨247, 1, 1, false, false⟩ : PoolSpec).validate = .ok () := by decide

def soloTable : Geometry := ⟨⟨247, 1, 1, false, false⟩, 1, soloTable_valid, one_lt_u16⟩

def soloNode : Pool soloTable := ⟨⟨0, by decide⟩, 1⟩

/-- The two tenants of the only slot, and the first lease of each. -/
def tenant (generation : Nat) : ResourceId := ⟨247, 0, 0, generation⟩
def firstLease (generation : Nat) : Lease := ⟨tenant generation, 1, 0, 1⟩

theorem locate_tenant {generation : Nat} (h : soloNode.locate (tenant generation) = .ok slot) :
    slot = 0 :=
  (locateIn_ok h).2.2.2

/-- The first tenant's lease is accepted, the slot goes to a second tenant, which has a lease out. -/
def reused : List (Op soloTable) :=
  [.register soloNode .sample 2 0, .reserve soloNode (tenant 1) 0, .accept soloNode (firstLease 1),
    .unregister soloNode (tenant 1), .register soloNode .sample 2 0, .reserve soloNode (tenant 2) 0]

theorem lease_exactness_reused :
    (run soloTable reused).returned = [firstLease 2, firstLease 1] ∧
    (run soloTable reused).spent.count (firstLease 1) ≤ 1 ∧
    (exec (run soloTable reused) (.accept soloNode (firstLease 1))).mem (.pending 0 0) = 1 := by
  have hok : Meets exec LeaseOk (World.init soloTable) reused := by
    refine ⟨trivial, fun slot h => ?_, ⟨by decide, fun slot h => ?_⟩, trivial, trivial,
      fun slot h => ?_, trivial⟩
    all_goals
      obtain rfl := locate_tenant h
      decide +kernel
  have hmain := lease_exactness soloTable reused hok
  refine ⟨by decide +kernel, hmain.1 _, ?_⟩
  refine (hmain.2.2 (firstLease 1) (by decide +kernel) (firstLease 2) (by decide +kernel)
    (by decide) (.accept soloNode (firstLease 1)) rfl ⟨by decide, fun slot h => ?_⟩).1 0 0
    (by decide) (by decide +kernel) (by decide +kernel)
  obtain rfl := locate_tenant h
  decide +kernel

/-- The first tenant's lease was never presented when its slot went to the second tenant. -/
def kept : List (Op soloTable) :=
  [.register soloNode .sample 2 0, .reserve soloNode (tenant 1) 0, .unregister soloNode (tenant 1),
    .register soloNode .sample 2 0, .reserve soloNode (tenant 2) 0]

/-- Cancelling it succeeds in the second tenant's generation: it takes out the entry of the second
tenant's lease and the unit reserved for it. -/
theorem cancel_of_ended_generation :
    (run soloTable kept).returned = [firstLease 2, firstLease 1] ∧
    (run soloTable kept).mem (.pending 0 0) = (firstLease 2).fence ∧
    reserved (run soloTable kept).mem 0 = 1 ∧
    ((soloNode.cancelReservation (firstLease 1)).run (run soloTable kept).mem).1 = .ok () ∧
    (exec (run soloTable kept) (.cancelReservation soloNode (firstLease 1))).mem (.pending 0 0) = 0 ∧
    reserved (exec (run soloTable kept) (.cancelReservation soloNode (firstLease 1))).mem 0 = 0 := by
  decide +kernel

end OrbitPool
