import Orbit.Quota.Shm.Steps

/-! Every call keeps the invariant of the shared table, whatever the other calls do between its
accesses and wherever its process dies. -/

namespace OrbitQuota.Shm

open Orbit.Atomic Function
open List hiding Mem
open Multiset hiding Mem

variable {T : Table} {t : Nat} {call : Call} (around : Surroundings) {handle : Handle}
  {process number index : Nat}

abbrev Admits (T : Table) (t : Nat) (call : Call) {α : Type} (w : ShmM α) (Q : α → Share → Prop)
    (F : Share → Prop) (m : Share) : Prop :=
  Works (shmSys T) mortal (ShmInv T) t call w Q F m

abbrev Keeps (T : Table) (t : Nat) (call : Call) {α : Type} (p : Prog Addr Event α)
    (Q : α → Share → Prop) (m : Share) : Prop :=
  Safe (shmSys T) mortal (ShmInv T) t call p Q m

def Call.Of (call : Call) (process : Nat) : Prop :=
  call.process = process ∧ ∀ p, call ≠ .dies p

theorem Call.Of.live {call : Call} (h : call.Of process) {place : Addr} {old new : Nat}
    {hist : History} {mem : Mem Addr} (hw : mortal.write t call place old new hist mem) :
    process ∉ hist.dead := by
  obtain ⟨rfl, hnot⟩ := h
  cases call with
  | opens | admits => exact hw
  | dies p => exact absurd rfl (hnot p)

theorem admits_quiet {α : Type} {w : ShmM α} {Q : α → Share → Prop} {F : Share → Prop} {m : Share}
    (hw : w.Quiet ShmInv.Quiet) (hQ : ∀ a, Q a m) (hF : F m) : Admits T t call w Q F m :=
  .quiet hw (fun _ _ _ _ value hplace hI => hI.quiet _ hplace value) hQ hF

def taken (c : Card) : Bool → Share
  | true => {c}
  | false => 0

theorem admits_tryLock {lock : Addr} {c : Card}
    (hsilent : ShmInv.Silent c) (hc : c.lock = some lock) (hp : c.process = process) :
    Admits T t call (tryLock around process lock)
      (fun success m' => m' = taken c success) (fun m' => m' = 0) 0 := by
  refine .bind (.tally (fun _ n _ => ?_) rfl)
  split
  · exact .fail rfl
  · refine .lift (Safe.compareExchange_bind (f := .ret) (fun others h mem hI hfree hw => ?_)
      fun others h mem hI hne => ⟨0, hI, rfl⟩)
    refine ⟨{c}, ?_, rfl⟩
    rw [zero_add] at hI
    rw [singleton_add, ← hp]
    exact hI.acquire hsilent hc hfree

theorem keeps_unlock (hcall : call.Of process) {lock : Addr} {c : Card} (hcounted : c.counted = none)
    (hvalidated : c.validated = none) (hc : c.lock = some lock) (hp : c.process = process) :
    Keeps T t call (unlock lock) (fun _ m' => m' = 0) {c} := by
  intro others h mem hI hw
  rw [singleton_add] at hI
  refine ⟨0, ?_, rfl⟩
  rw [zero_add]
  exact hI.release hcounted hvalidated hc (hp ▸ hcall.live (hw 0 rfl))

theorem admits_lockShard :
    Admits T t call (lockShard around process number)
      (fun _ m' => m' = {.shard process number none}) (fun m' => m' = 0) 0 := by
  refine .bind (works_takeCas ?_ rfl)
  refine .bind ((admits_tryLock around (ShmInv.silent_shard process number) rfl rfl).mono ?_
    fun _ h => h)
  rintro success _ rfl
  cases success with
  | true => exact .pure rfl
  | false => exact .fail rfl

theorem keeps_unlockShard (hcall : call.Of process) :
    Keeps T t call (unlock (.shardHold number)) (fun _ m' => m' = 0)
      {.shard process number none} :=
  keeps_unlock hcall rfl rfl rfl rfl

theorem keeps_thaw (hcall : call.Of process) (hshard : T.geometry.shardOf index = number) :
    Keeps T t call (thaw index) (fun _ m' => m' = {.shard process number none})
      {.shard process number none} := by
  refine .load_bind fun others h mem hI => ?_
  split
  · rename_i hfrozen
    rw [singleton_add] at hI
    obtain ⟨generation, hcontrol, hle, hadopted⟩ := hI.adopts hshard hfrozen
    refine ⟨{.shard process number (some ⟨index, generation, 0, fun _ => none⟩)},
      by rwa [singleton_add], fun others h mem hI hw => ?_⟩
    rw [singleton_add] at hI
    refine ⟨{.shard process number none}, ?_, rfl⟩
    rw [hcontrol, thawed hle, singleton_add]
    exact hI.thaws (hcall.live (hw _ rfl))
  · exact ⟨_, hI, rfl⟩

theorem admits_repair (hcall : call.Of process) (hshard : T.geometry.shardOf index = number) :
    Admits T t call (repair around process index number) (fun _ m' => m' = 0) (fun m' => m' = 0)
      0 := by
  refine .bind (works_recover ?_ rfl)
  refine .bind ((admits_lockShard around).mono ?_ fun _ h => h)
  rintro _ _ rfl
  refine .bind (.lift ((keeps_thaw hcall hshard).mono ?_))
  rintro _ _ rfl
  exact .lift (keeps_unlockShard hcall)

theorem keeps_releasePin (hcall : call.Of handle.process) (hi : index < T.geometry.slots) :
    Keeps T t call (releasePin handle.owner index) (fun _ m' => m' = 0) {.pin handle index} := by
  intro others h mem hI hw
  rw [singleton_add] at hI
  refine ⟨0, ?_, rfl⟩
  rw [zero_add]
  exact hI.release_pin (hcall.live (hw _ rfl)) hi

theorem keeps_dropPin {p : Pin} (hcall : call.Of p.handle.process) (hi : p.index < T.geometry.slots) :
    Keeps T t call (dropPin p) (fun _ m' => m' = 0) {.held p} := by
  intro others h mem hI hw
  rw [singleton_add] at hI
  refine ⟨0, ?_, rfl⟩
  rw [zero_add]
  exact hI.drop_pin (hcall.live (hw _ rfl)) hi

theorem admits_countPin (hcall : call.Of handle.process) (rounds count : Nat) :
    Admits T t call (countPin around handle.owner index rounds count)
      (fun _ m' => m' = {.pin handle index} + {.caller handle})
      (fun m' => m' = {.caller handle}) {.caller handle} := by
  induction rounds generalizing count with
  | zero => exact .fail rfl
  | succ rounds ih =>
    unfold countPin
    split
    · rename_i hbound
      refine .bind (works_takeCas ?_ rfl)
      refine works_weakExchange_bind (fun others h mem hI hcount hw => ?_) ih
      rw [singleton_add] at hI
      subst hcount
      have hcounted := hI.count_pin hI.caller_known (hcall.live hw) hbound
      refine fun b => ⟨_, ?_, rfl⟩
      rw [Multiset.add_assoc, singleton_add, singleton_add]
      exact hcounted
    · exact .fail rfl

theorem admits_validatePin (hcall : call.Of handle.process) (hi : index < T.geometry.slots)
    {control : Nat} (hfrozen : control &&& frozenFlag = 0) (hretired : control &&& retiredFlag = 0)
    (expected : Option Nat) :
    Admits T t call (validatePin handle index control expected)
      (fun generation m' => generation ≤ generationMask ∧ m' = {.held ⟨handle, index, generation⟩})
      (fun m' => m' = 0) {.pin handle index} := by
  refine .load_bind fun others h mem hI => ?_
  split
  · refine Works.goes ?_ hI
    refine .bind (.lift ((keeps_releasePin hcall hi).mono ?_))
    rintro _ _ rfl
    exact .fail rfl
  · rename_i hsame
    rw [not_or, not_not] at hsame
    rw [singleton_add] at hI
    have hnames := (hI.described.published index).names
    have hgeneration := hnames.plain hsame.1 hfrozen hretired
    have hle : control ≤ generationMask := hgeneration ▸ hnames.1
    rw [and_generation hle]
    refine WorksOn.mark_bind fun b => ⟨_, ?_, hle, rfl⟩
    rw [singleton_add]
    exact hI.validates hle hsame.1

theorem admits_pin (hcall : call.Of handle.process) (hi : index < T.geometry.slots)
    (expected : Option Nat) :
    Admits T t call (pin around handle index expected)
      (fun found m' => match found with
        | none => m' = {.caller handle}
        | some generation => generation ≤ generationMask ∧
            m' = {.held ⟨handle, index, generation⟩} + {.caller handle})
      (fun m' => m' = {.caller handle}) {.caller handle} := by
  refine .bind (.lift (.load fun control => ?_))
  split
  · exact .fail rfl
  · rename_i hfrozen
    split
    · exact .pure rfl
    · rename_i hretired
      refine .bind (.lift (.load fun count => ?_))
      refine .bind ((works_withinBudget fun rounds => admits_countPin around hcall rounds count).mono ?_
        fun _ h => h)
      rintro _ _ rfl
      refine .bind (((admits_validatePin hcall hi (not_not.mp hfrozen) (not_not.mp hretired)
        expected).frame {.caller handle}).mono ?_ ?_)
      · rintro generation _ ⟨_, ⟨hle, rfl⟩, rfl⟩
        exact .pure ⟨hle, rfl⟩
      · rintro _ ⟨_, rfl, rfl⟩
        exact zero_add _

theorem quiet_pinMatches {P : Addr → Prop} (g : Geometry) (p : Pin) (key : Key) :
    (pinMatches g p key).Quiet P := by
  unfold pinMatches
  split
  · exact .pure _
  · refine .bind (.lift (quiet_load _)) fun ns => .bind (.lift (quiet_load _)) fun subject => ?_
    split
    · exact .fail _
    split
    · exact .fail _
    split
    · exact .pure _
    · exact .bind (.lift (quiet_copyOut _ _)) fun bytes => .pure _

theorem admits_pinMatches {m : Share} (g : Geometry) (p : Pin) (key : Key) :
    Admits T t call (pinMatches g p key) (fun _ m' => m' = m) (fun m' => m' = m) m :=
  admits_quiet (quiet_pinMatches g p key) (fun _ => rfl) rfl

theorem admits_sampleShard {m : Share} (shard : Nat) :
    Admits T t call (sampleShard T around shard) (fun _ m' => m' = m) (fun m' => m' = m) m := by
  refine admits_quiet (quiet_sample trivial ?_ _) (fun _ => rfl) rfl
  exact .bind (.tally _) fun n => .of _

theorem admits_consume {p : Pin} (hcall : call.Of p.handle.process) (shard : Nat)
    (prepared : Prepared) :
    Admits T t call (consume T around shard p prepared) (fun _ m' => m' = {.held p})
      (fun m' => m' = {.held p}) {.held p} := by
  refine works_withinBudget fun rounds => works_consumeWith (admits_sampleShard around shard)
    (fun now => ?_) (fun others h mem now next hI _ hw => ?_) rounds
  · exact admits_quiet (quiet_touch trivial now) (fun _ => rfl) rfl
  · rw [singleton_add] at hI ⊢
    exact hI.charges (mem (.tat p.index (bankOf p.generation))) now next (hcall.live hw)

variable {f : Freeze} {generation tat : Nat} {key : Key}

theorem admits_clearDeadPin (hcall : call.Of handle.process) :
    Admits T t call (clearDeadPin around handle f.index f.scanned)
      (fun _ m' => m' = {.shard handle.process number (some { f with scanned := f.scanned + 1 })})
      (fun m' => m' = {.shard handle.process number (some f)})
      {.shard handle.process number (some f)} := by
  unfold clearDeadPin
  split
  · exact .fail rfl
  · refine .bind (works_recover ?_ rfl)
    refine .bind (works_takeCas ?_ rfl)
    have hlock : Admits T t call _ _ _ _ := (admits_tryLock around
      (ShmInv.silent_reclaiming handle.process f.scanned) rfl rfl).frame
      {Card.shard handle.process number (some f)}
    rw [zero_add] at hlock
    refine .bind (hlock.mono ?_ ?_)
    · rintro success _ ⟨_, rfl, rfl⟩
      cases success with
      | false => exact .fail (zero_add _)
      | true =>
        refine .store_bind fun others h mem hI hw => ?_
        have hlive := hcall.live hw
        rw [add_assoc, singleton_add] at hI
        have hcleared := hI.clear_dead (i := f.index) hlive
        refine Works.goes (m := {.reclaiming handle.process f.scanned} +
          {.shard handle.process number (some { f with scanned := f.scanned + 1 })}) ?_ ?_
        · have hunlock := (keeps_unlock (T := T) (t := t) (c := .reclaiming handle.process f.scanned)
            hcall rfl rfl rfl rfl).frame
            {Card.shard handle.process number (some { f with scanned := f.scanned + 1 })}
          refine .lift (hunlock.mono ?_)
          rintro _ _ ⟨_, rfl, rfl⟩
          exact zero_add _
        · rw [add_assoc, singleton_add, singleton_add, cons_swap]
          have hswapped := hcleared
          rw [cons_swap] at hswapped
          refine hswapped.scans fun hlive' p hp hplive hindex => ?_
          refine hcleared.no_pins_of_reclaiming hlive p ?_ hplive
          exact Multiset.mem_cons_of_mem ((Multiset.mem_cons.mp hp).resolve_left (by simp))
    · rintro _ ⟨_, rfl, rfl⟩
      exact zero_add _

theorem admits_scanPins (hcall : call.Of handle.process) (hi : f.index < T.geometry.slots) (n : Nat) :
    Admits T t call (scanPins around handle f.index (range' f.scanned n))
      (fun _ m' => m' =
        {.shard handle.process number (some { f with scanned := f.scanned + n })})
      (fun m' => ∃ k, m' = {.shard handle.process number (some { f with scanned := k })})
      {.shard handle.process number (some f)} := by
  induction n generalizing f with
  | zero => exact .pure rfl
  | succ n ih =>
    have hrest : Admits T t call (scanPins around handle f.index (range' (f.scanned + 1) n))
        (fun _ m' => m' =
          {.shard handle.process number (some { f with scanned := f.scanned + (n + 1) })})
        (fun m' => ∃ k, m' = {.shard handle.process number (some { f with scanned := k })})
        {.shard handle.process number (some { f with scanned := f.scanned + 1 })} := by
      have heq : f.scanned + (n + 1) = f.scanned + 1 + n := by omega
      rw [heq]
      exact ih (f := { f with scanned := f.scanned + 1 }) hi
    rw [range'_succ]
    refine .load_bind fun others h mem hI => ?_
    split
    · refine Works.goes ?_ hI
      refine .bind ((admits_clearDeadPin around hcall).mono ?_ ?_)
      · rintro _ _ rfl
        exact hrest
      · rintro _ rfl
        exact ⟨f.scanned, rfl⟩
    · rename_i hzero
      rw [singleton_add] at hI
      refine Works.goes (m := {.shard handle.process number
        (some { f with scanned := f.scanned + 1 })}) hrest ?_
      rw [singleton_add]
      refine hI.scans fun _ p hp hplive hindex => ?_
      exact hI.no_pins_of_zero hi (not_not.mp hzero) p (Multiset.mem_cons_of_mem hp) hplive hindex

def frozenCard (T : Table) (process number index generation : Nat) : Card :=
  .shard process number (some ⟨index, generation, T.owners, fun _ => none⟩)

theorem keeps_thawBack (hcall : call.Of process) :
    Keeps T t call (store (.control f.index) f.generation)
      (fun _ m' => m' = {.shard process number none}) {.shard process number (some f)} := by
  intro others h mem hI hw
  rw [singleton_add] at hI
  refine ⟨_, ?_, rfl⟩
  rw [singleton_add]
  exact hI.thaws (hcall.live (hw _ rfl))

theorem admits_freeze (hcall : call.Of handle.process) (hi : index < T.geometry.slots)
    (hshard : T.geometry.shardOf index = number) (hle : generation ≤ generationMask) :
    Admits T t call (freeze T around handle index generation)
      (fun _ m' => m' = {frozenCard T handle.process number index generation})
      (fun m' => m' = {.shard handle.process number none})
      {.shard handle.process number none} := by
  refine .bind (works_takeCas ?_ rfl)
  refine .compareExchange_bind (fun others h mem hI hcontrol hw => ?_) fun others h mem hI _ => ?_
  · rw [singleton_add] at hI
    have hfrozen := hI.freezes (hcall.live hw) hshard hle hcontrol
    rw [← singleton_add] at hfrozen
    refine Works.goes ?_ hfrozen
    have hscan : Admits T t call _ _ _ {.shard handle.process number _} := admits_scanPins around
      (f := ⟨index, generation, 0, fun _ => none⟩) hcall hi T.owners
    rw [← range_eq_range', Nat.zero_add] at hscan
    refine .onFailure (hscan.mono (fun _ _ hm => hm) ?_)
    rintro _ ⟨k, rfl⟩
    exact keeps_thawBack (f := ⟨index, generation, k, fun _ => none⟩) hcall
  · exact Works.goes (.fail rfl) hI

/-- The words of a bank, with the bytes from this place on. -/
def wroteBytes (slot bank : Nat) : Nat → List UInt8 → (Addr → Option Nat) → Addr → Option Nat
  | _, [], written => written
  | index, byte :: rest, written => wroteBytes slot bank (index + 1) rest
      (update written (.byte slot bank index) (some byte.toNat))

theorem wroteBytes_byte {slot bank start i : Nat} {bytes : List UInt8}
    {written : Addr → Option Nat} :
    wroteBytes slot bank start bytes written (.byte slot bank i) =
      if start ≤ i ∧ i < start + bytes.length then some (bytes.getD (i - start) 0).toNat
      else written (.byte slot bank i) := by
  induction bytes generalizing start written with
  | nil => rw [wroteBytes, if_neg (by simp)]
  | cons byte rest ih =>
    rw [wroteBytes, ih, length_cons]
    by_cases hi : i = start
    · subst hi
      rw [if_neg (by omega), if_pos (by omega), update_self, Nat.sub_self,
        getD_cons_zero]
    · rw [update_of_ne (by simpa using hi)]
      by_cases hin : start + 1 ≤ i ∧ i < start + 1 + rest.length
      · have hsub : i - start = i - (start + 1) + 1 := by omega
        rw [if_pos hin, if_pos (by omega), hsub, getD_cons_succ]
      · rw [if_neg hin, if_neg (by omega)]

theorem keeps_writeBank {place : Addr} {value : Nat} (hcall : call.Of process)
    (hall : T.owners ≤ f.scanned) (hplace : place.bank = some (f.index, bankOf (f.generation + 1))) :
    Keeps T t call (writeBank f.index (bankOf (f.generation + 1)) place value)
      (fun _ m' => m' = {.shard process number (some (f.write place value))})
      {.shard process number (some f)} := by
  refine .store_bind fun others h mem hI hw => ?_
  have hlive := hcall.live hw
  rw [singleton_add] at hI
  refine Goes.mark_bind (f := fun _ => .ret ()) ⟨_, ?_, rfl⟩
  rw [singleton_add]
  have hwrites := hI.writes value hlive hplace
  have hguarded := hwrites.not_guarded (bankOf (f.generation + 1)) hlive hall
  have hrecord : record (.wrote f.index (bankOf (f.generation + 1))) h = h :=
    if_neg (Bool.eq_false_iff.mp hguarded)
  rw [show (shmSys T).record t call (.wrote f.index (bankOf (f.generation + 1))) h = h from hrecord]
  exact hwrites

theorem keeps_writeSeen {value : Nat} (hcall : call.Of process) (hall : T.owners ≤ f.scanned)
    (bank : Nat) :
    Keeps T t call (writeBank f.index bank (.lastSeen f.index bank) value)
      (fun _ m' => m' = {.shard process number (some f)}) {.shard process number (some f)} := by
  refine .store_bind fun others h mem hI hw => ?_
  have hlive := hcall.live hw
  have hquiet := hI.quiet (.lastSeen f.index bank) trivial value
  rw [singleton_add] at hquiet
  refine Goes.mark_bind (f := fun _ => .ret ()) ⟨_, ?_, rfl⟩
  rw [singleton_add]
  have hguarded := hquiet.not_guarded bank hlive hall
  have hrecord : record (.wrote f.index bank) h = h := if_neg (Bool.eq_false_iff.mp hguarded)
  rw [show (shmSys T).record t call (.wrote f.index bank) h = h from hrecord]
  exact hquiet

theorem keeps_copyBytes (hcall : call.Of process) (hall : T.owners ≤ f.scanned) (start : Nat)
    (bytes : List UInt8) :
    Keeps T t call (copyBytes f.index (bankOf (f.generation + 1)) start bytes)
      (fun _ m' => m' = {.shard process number (some { f with
        written := wroteBytes f.index (bankOf (f.generation + 1)) start bytes f.written })})
      {.shard process number (some f)} := by
  induction bytes generalizing start f with
  | nil => exact rfl
  | cons byte rest ih =>
    refine .bind ((keeps_writeBank hcall hall rfl).mono ?_)
    rintro _ _ rfl
    exact ih (f := f.write (.byte f.index (bankOf (f.generation + 1)) start) byte.toNat) hall (start + 1)

def filled (slot bank : Nat) (key : Key) (tat : Nat) : Addr → Option Nat :=
  update (update (update
    (wroteBytes slot bank key.namespaceBytes.length key.subject
      (wroteBytes slot bank 0 key.namespaceBytes fun _ => none))
    (.namespaceLen slot bank) (some key.namespaceBytes.length))
    (.subjectLen slot bank) (some key.subject.length))
    (.tat slot bank) (some tat)

theorem filled_byte {slot bank : Nat} {k : Nat} (hk : k < key.bytes.length) :
    filled slot bank key tat (.byte slot bank k) = some (key.bytes[k]).toNat := by
  have hlen : key.bytes.length = key.namespaceBytes.length + key.subject.length :=
    length_append
  rw [filled, update_of_ne (by simp), update_of_ne (by simp),
    update_of_ne (by simp), wroteBytes_byte, wroteBytes_byte]
  simp only [Key.bytes]
  by_cases hns : k < key.namespaceBytes.length
  · rw [if_neg (by omega), if_pos (by omega), getElem_append_left hns, Nat.sub_zero,
      getD_eq_getElem _ _ hns]
  · rw [if_pos (by omega), getElem_append_right (by omega), getD_eq_getElem]

theorem stored_of_filled {mem : Mem Addr} {slot : Nat}
    (h : ∀ a v, filled slot (bankOf generation) key tat a = some v → mem a = v) :
    Stored mem slot ⟨generation, key, tat⟩ where
  namespaceLen := h _ _ (by
    rw [filled, update_of_ne (by simp), update_of_ne (by simp),
      update_self])
  subjectLen := h _ _ (by rw [filled, update_of_ne (by simp), update_self])
  tat := h _ _ (by rw [filled, update_self])
  bytes k hk := h _ _ (filled_byte hk)

theorem keeps_publish {seen : Nat} (hcall : call.Of process) (hle : generation + 1 ≤ generationMask) :
    Keeps T t call (do
        copyBytes index (bankOf (generation + 1)) 0 key.namespaceBytes
        copyBytes index (bankOf (generation + 1)) key.namespaceBytes.length key.subject
        writeBank index (bankOf (generation + 1)) (.namespaceLen index (bankOf (generation + 1)))
          key.namespaceBytes.length
        writeBank index (bankOf (generation + 1)) (.subjectLen index (bankOf (generation + 1)))
          key.subject.length
        writeBank index (bankOf (generation + 1)) (.tat index (bankOf (generation + 1))) tat
        if T.retention = .guard then
          writeBank index (bankOf (generation + 1)) (.lastSeen index (bankOf (generation + 1))) seen
        store (.control index) (generation + 1)
        mark (.published index ⟨generation + 1, key, tat⟩))
      (fun _ m' => m' = {.shard process number none})
      {frozenCard T process number index generation} := by
  have hcommit : Keeps T t call (do
        store (.control index) (generation + 1)
        mark (.published index ⟨generation + 1, key, tat⟩))
      (fun _ m' => m' = {.shard process number none})
      {.shard process number (some ⟨index, generation, T.owners,
        filled index (bankOf (generation + 1)) key tat⟩)} := by
    refine .store_bind fun others h mem hI hw => ?_
    have hlive := hcall.live hw
    rw [singleton_add] at hI
    have hstored := stored_of_filled (hI.described.own hlive).written
    refine Goes.mark_bind (f := fun _ => .ret ()) ⟨_, ?_, rfl⟩
    rw [singleton_add]
    exact hI.publishes hlive (Nat.le_refl _) hle hstored
  refine .bind ((keeps_copyBytes (f := ⟨index, generation, T.owners, fun _ => none⟩) hcall
    (Nat.le_refl _) 0 key.namespaceBytes).mono ?_)
  rintro _ _ rfl
  refine .bind ((keeps_copyBytes (f := ⟨index, generation, T.owners, _⟩) hcall
    (Nat.le_refl _) key.namespaceBytes.length key.subject).mono ?_)
  rintro _ _ rfl
  refine .bind ((keeps_writeBank (f := ⟨index, generation, T.owners, _⟩) hcall
    (Nat.le_refl _) rfl).mono ?_)
  rintro _ _ rfl
  refine .bind ((keeps_writeBank (f := ⟨index, generation, T.owners, _⟩) hcall
    (Nat.le_refl _) rfl).mono ?_)
  rintro _ _ rfl
  refine .bind ((keeps_writeBank (f := ⟨index, generation, T.owners, _⟩) hcall
    (Nat.le_refl _) rfl).mono ?_)
  rintro _ _ rfl
  split
  · refine .bind ((keeps_writeSeen (f := ⟨index, generation, T.owners, _⟩) hcall
      (Nat.le_refl _) _).mono ?_)
    rintro _ _ rfl
    exact hcommit
  · exact hcommit

theorem admits_publishSeen {seen : Nat} (hcall : call.Of process) :
    Admits T t call (publishSeen T index generation key tat seen)
      (fun _ m' => m' = {.shard process number none})
      (fun m' => m' = {.shard process number none})
      {frozenCard T process number index generation} := by
  unfold publishSeen
  dsimp only
  split
  · refine .store_bind fun others h mem hI hw => ?_
    have hlive := hcall.live hw
    rw [singleton_add] at hI
    have hretired := hI.retires hlive (Nat.le_refl _)
    rw [← singleton_add] at hretired
    exact Works.goes (.fail rfl) hretired
  · rename_i hle
    exact .lift (keeps_publish hcall (Nat.le_of_not_lt hle))

end OrbitQuota.Shm
