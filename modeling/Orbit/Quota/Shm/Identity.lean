import Orbit.Quota.Shm.Exclusive

/-! Admissions, openings and deaths as a whole, and what follows for every run: what a pin protects,
and which identity a slot has. -/

namespace OrbitQuota.Shm

open Orbit.Atomic Option
open List hiding Mem

variable {T : Table} {t : Nat} {call : Call} (around : Surroundings) {handle : Handle}
  {process number index : Nat}

theorem admits_initialCharge {m : Share} (candidate : Candidate) (shard : Nat) (prepared : Prepared) :
    Admits T t call (initialCharge T around shard candidate prepared) (fun _ m' => m' = m)
      (fun m' => m' = m) m := by
  refine .bind (.lift (.load fun previous => ?_))
  refine .bind ((admits_sampleShard around shard).mono ?_ fun _ h => h)
  rintro now _ rfl
  have hquiet : (revalidate T candidate.index candidate.generation previous now
      candidate.observed).Quiet ShmInv.Quiet := by
    unfold revalidate
    split
    · exact .pure _
    · split
      · split
        · exact .fail _
        · refine .bind (.lift (quiet_load _)) fun seen => ?_
          split
          · exact .fail _
          · exact .pure _
      · split
        · exact .fail _
        · exact .pure _
  refine .bind (admits_quiet hquiet (fun _ => ?_) rfl)
  refine .bind (.of (fun outcome _ => ?_) rfl)
  cases outcome with
  | allowed tat => exact .pure rfl
  | limited debt => exact .fail rfl

theorem admits_install {candidate : Candidate} (hcall : call.Of handle.process)
    (hi : candidate.index < T.geometry.slots) (hshard : T.geometry.shardOf candidate.index = number)
    (hle : candidate.generation ≤ generationMask) (key : Key) (prepared : Prepared) :
    Admits T t call (install T around handle number candidate key prepared)
      (fun _ m' => m' = {.shard handle.process number none})
      (fun m' => m' = {.shard handle.process number none})
      {.shard handle.process number none} := by
  refine .bind ((admits_freeze around hcall hi hshard hle).mono ?_ fun _ h => h)
  rintro _ _ rfl
  refine .bind (.onFailure ((admits_initialCharge around candidate number prepared).mono ?_ ?_))
  · rintro charge _ rfl
    refine .bind ((admits_publishSeen hcall).mono ?_ fun _ h => h)
    rintro _ _ rfl
    exact .pure rfl
  · rintro _ rfl
    exact keeps_thawBack (f := ⟨candidate.index, candidate.generation, T.owners, fun _ => none⟩) hcall

def Looked (T : Table) (handle : Handle) : Option Pin → Share → Prop
  | none, m => m = {.caller handle}
  | some p, m => p.handle = handle ∧ p.index < T.geometry.slots ∧ m = {.held p} + {.caller handle}

/-- The slots that a search inspects are of one shard of the table. -/
def Within (T : Table) (number : Nat) (indices : List Nat) : Prop :=
  ∀ index ∈ indices, index < T.geometry.slots ∧ T.geometry.shardOf index = number

theorem admits_pinned {α : Type} {f : Option Nat → ShmM α} {Q : α → Share → Prop}
    {F : Share → Prop} (hcall : call.Of handle.process) (hi : index < T.geometry.slots)
    (hnone : Admits T t call (f none) Q F {.caller handle})
    (hsome : ∀ generation, Admits T t call (f (some generation)) Q F
      ({.held ⟨handle, index, generation⟩} + {.caller handle}))
    (hfail : F {.caller handle}) :
    Admits T t call (pin around handle index none >>= f) Q F {.caller handle} := by
  refine .bind ((admits_pin around hcall hi none).mono ?_ ?_)
  · rintro (_ | generation) m' hm
    · cases hm
      exact hnone
    · obtain ⟨-, rfl⟩ := hm
      exact hsome generation
  · rintro _ rfl
    exact hfail

theorem admits_lookup (hcall : call.Of handle.process) (key : Key) {indices : List Nat}
    (hwithin : Within T number indices) :
    Admits T t call (lookup T around handle number key indices)
      (Looked T handle)
      (fun m' => m' = {.caller handle}) {.caller handle} := by
  induction indices with
  | nil => exact .pure rfl
  | cons index rest ih =>
    obtain ⟨hi, hshard⟩ := hwithin index mem_cons_self
    have hlater := ih fun i hmem => hwithin i (mem_cons_of_mem _ hmem)
    have hheld : ∀ generation, Admits T t call (do
        let held : Pin := ⟨handle, index, generation⟩
        if ← (pinMatches T.geometry held key).onFailure (dropPin held) then return some held
        else do
          Work.lift (dropPin held)
          lookup T around handle number key rest)
        (Looked T handle) (fun m' => m' = {.caller handle})
        ({.held ⟨handle, index, generation⟩} + {.caller handle}) := by
      intro generation
      have hdrop := (keeps_dropPin (T := T) (t := t) (p := ⟨handle, index, generation⟩) hcall hi).frame
        {Card.caller handle}
      refine .bind (.onFailure ((admits_pinMatches T.geometry _ key).mono ?_ ?_))
      · rintro (_ | _) _ rfl
        · refine .bind (.lift (hdrop.mono ?_))
          rintro _ _ ⟨_, rfl, rfl⟩
          rw [zero_add]
          exact hlater
        · exact .pure ⟨rfl, hi, rfl⟩
      · rintro _ rfl
        refine hdrop.mono ?_
        rintro _ _ ⟨_, rfl, rfl⟩
        exact zero_add _
    refine .bind (.lift (.load fun control => ?_))
    split
    · have hrepair : Admits T t call _ _ _ _ := (admits_repair around hcall hshard).frame
        {Card.caller handle}
      rw [zero_add] at hrepair
      refine .bind (hrepair.mono ?_ ?_)
      · rintro _ _ ⟨_, rfl, rfl⟩
        rw [zero_add]
        exact admits_pinned around hcall hi hlater hheld rfl
      · rintro _ ⟨_, rfl, rfl⟩
        exact zero_add _
    · exact admits_pinned around hcall hi hlater hheld rfl

/-- A slot that may be replaced is of the shard, and its generation is one of a descriptor. -/
def Replaceable (T : Table) (number index generation : Nat) : Prop :=
  index < T.geometry.slots ∧ T.geometry.shardOf index = number ∧ generation ≤ generationMask

theorem admits_search (hcall : call.Of handle.process) (key : Key) (now : Nat) {indices : List Nat}
    (hwithin : Within T number indices) {selection : Selection}
    (hselection : selection.All (Replaceable T number)) :
    Admits T t call (search T around handle key now indices selection)
      (fun found m' => match found with
        | .inl p => p.handle = handle ∧ p.index < T.geometry.slots ∧
            m' = {.held p} + ({.caller handle} + {.shard handle.process number none})
        | .inr selection => selection.All (Replaceable T number) ∧
            m' = {.caller handle} + {.shard handle.process number none})
      (fun m' => m' = {.caller handle} + {.shard handle.process number none})
      ({.caller handle} + {.shard handle.process number none}) := by
  induction indices generalizing selection with
  | nil => exact .pure ⟨hselection, rfl⟩
  | cons index rest ih =>
    obtain ⟨hi, hshard⟩ := hwithin index mem_cons_self
    have hlater := @ih fun i hmem => hwithin i (mem_cons_of_mem _ hmem)
    have hthaw := (keeps_thaw (T := T) (t := t) hcall hshard).frame {Card.caller handle}
    have hcomm : ({.shard handle.process number none} : Share) + {.caller handle} =
        {.caller handle} + {.shard handle.process number none} := add_comm _ _
    rw [hcomm] at hthaw
    refine .bind (.lift (hthaw.mono ?_))
    rintro _ _ ⟨_, rfl, rfl⟩
    rw [hcomm]
    have hpin : Admits T t call _ _ _ _ := (admits_pin around hcall hi none).frame
      {Card.shard handle.process number none}
    refine .bind (hpin.mono ?_ ?_)
    · rintro (_ | generation) _ ⟨_, hm, rfl⟩
      · cases hm
        exact hlater hselection
      · obtain ⟨hle, rfl⟩ := hm
        rw [add_assoc]
        have hdrop := (keeps_dropPin (T := T) (t := t) (p := ⟨handle, index, generation⟩) hcall hi).frame
          ({Card.caller handle} + {Card.shard handle.process number none})
        refine .bind (.onFailure ((admits_pinMatches T.geometry _ key).mono ?_ ?_))
        · rintro (_ | _) _ rfl
          · refine .bind (.lift (.load fun tat => ?_))
            have hconsidered : ∀ seen : Nat, Admits T t call (do
                Work.lift (dropPin ⟨handle, index, generation⟩)
                search T around handle key now rest
                  (selection.consider index generation (generation = 0 ∨ tat ≤ now) ⟨tat, seen⟩))
                (fun found m' => match found with
                  | .inl p => p.handle = handle ∧ p.index < T.geometry.slots ∧
                      m' = {.held p} + ({.caller handle} + {.shard handle.process number none})
                  | .inr selection => selection.All (Replaceable T number) ∧
                      m' = {.caller handle} + {.shard handle.process number none})
                (fun m' => m' = {.caller handle} + {.shard handle.process number none})
                ({.held ⟨handle, index, generation⟩} +
                  ({.caller handle} + {.shard handle.process number none})) := by
              intro seen
              refine .bind (.lift (hdrop.mono ?_))
              rintro _ _ ⟨_, rfl, rfl⟩
              rw [zero_add]
              exact hlater (hselection.consider ⟨hi, hshard, hle⟩ _ _)
            dsimp only
            split
            · exact .bind (.lift (.load fun seen => hconsidered seen))
            · exact hconsidered 0
          · exact .pure ⟨rfl, hi, rfl⟩
        · rintro _ rfl
          refine hdrop.mono ?_
          rintro _ _ ⟨_, rfl, rfl⟩
          exact zero_add _
    · rintro _ ⟨_, rfl, rfl⟩
      rfl

theorem admits_charge {p : Pin} (hcall : call.Of handle.process) (hp : p.handle = handle)
    (hi : p.index < T.geometry.slots) (prepared : Prepared) :
    Admits T t call ((consume T around number p prepared).always (dropPin p))
      (fun _ m' => m' = {.caller handle}) (fun m' => m' = {.caller handle})
      ({.held p} + {.caller handle}) := by
  subst hp
  have hconsume : Admits T t call _ _ _ _ := (admits_consume around hcall number prepared).frame
    {Card.caller p.handle}
  have hdrop := (keeps_dropPin (T := T) (t := t) (p := p) hcall hi).frame {Card.caller p.handle}
  refine .always (hconsume.mono ?_ ?_)
  · rintro _ _ ⟨_, rfl, rfl⟩
    refine hdrop.mono ?_
    rintro _ _ ⟨_, rfl, rfl⟩
    exact zero_add _
  · rintro _ ⟨_, rfl, rfl⟩
    refine hdrop.mono ?_
    rintro _ _ ⟨_, rfl, rfl⟩
    exact zero_add _

theorem admits_request (hcall : call.Of handle.process) (key : Key) (cost : NonZeroU64) :
    Admits T t call (admitRequest T around handle key cost) (fun _ m' => m' = {.caller handle})
      (fun m' => m' = {.caller handle}) {.caller handle} := by
  have hcheck : (checkProcess handle).Quiet ShmInv.Quiet := by
    refine .bind (.lift (quiet_load _)) fun generation => ?_
    split
    · exact .fail _
    · exact .pure _
  refine .bind (admits_quiet hcheck (fun _ => ?_) rfl)
  split
  · exact .fail rfl
  split
  · exact .fail rfl
  refine .bind (.of (fun prepared _ => ?_) rfl)
  generalize hloc : T.location key = location
  obtain ⟨shard, start⟩ := location
  have hshard : shard < T.geometry.shards := by
    have hfst : (T.location key).1 = shard := congrArg Prod.fst hloc
    rw [← hfst]
    exact Nat.mod_lt _ T.geometry.shards_pos
  have hwithin : Within T shard (T.geometry.probed shard start) := fun index hmem =>
    Geometry.probed_mem hmem hshard
  refine .bind ((admits_lookup around hcall key hwithin).mono ?_ fun _ h => h)
  rintro (_ | p) m' hm
  · cases hm
    have hlock : Admits T t call (lockShard around handle.process shard) _ _ _ :=
      (admits_lockShard around).frame {Card.caller handle}
    rw [zero_add] at hlock
    have hunlock : Keeps T t call (unlock (.shardHold shard)) _ _ :=
      (keeps_unlockShard hcall).frame {Card.caller handle}
    have hcomm : ({.shard handle.process shard none} : Share) + {.caller handle} =
        {.caller handle} + {.shard handle.process shard none} := add_comm _ _
    rw [hcomm] at hunlock
    refine .bind (hlock.mono ?_ ?_)
    · rintro _ _ ⟨_, rfl, rfl⟩
      rw [hcomm]
      refine .bind (.onFailure (.bind ((admits_sampleShard around shard).mono ?_ ?_)))
      · rintro now _ rfl
        refine (admits_search around hcall key now hwithin (Selection.all_new _)).mono ?_ ?_
        · rintro (p | selection) m' hm
          · obtain ⟨hp, hi, rfl⟩ := hm
            have hheld : Keeps T t call (unlock (.shardHold shard)) _ _ :=
              (keeps_unlockShard hcall).frame ({Card.held p} + {Card.caller handle})
            have hcomm' : ({.held p} : Share) + ({.caller handle} + {.shard handle.process shard none}) =
                {.shard handle.process shard none} + ({.held p} + {.caller handle}) := by
              rw [← add_assoc, add_comm]
            rw [hcomm']
            refine .bind (.lift (hheld.mono ?_))
            rintro _ _ ⟨_, rfl, rfl⟩
            rw [zero_add]
            exact admits_charge around hcall hp hi prepared
          · obtain ⟨hall, rfl⟩ := hm
            refine .always (.bind (.of (fun candidate hcandidate => ?_) ?_))
            · obtain ⟨hi, hof, hle⟩ := hall.finish hcandidate
              have hinstall : Admits T t call _ _ _ _ :=
                (admits_install around hcall hi hof hle key prepared).frame {Card.caller handle}
              rw [hcomm] at hinstall
              refine hinstall.mono ?_ ?_
              · rintro _ _ ⟨_, rfl, rfl⟩
                rw [hcomm]
                refine hunlock.mono ?_
                rintro _ _ ⟨_, rfl, rfl⟩
                exact zero_add _
              · rintro _ ⟨_, rfl, rfl⟩
                rw [hcomm]
                refine hunlock.mono ?_
                rintro _ _ ⟨_, rfl, rfl⟩
                exact zero_add _
            · refine hunlock.mono ?_
              rintro _ _ ⟨_, rfl, rfl⟩
              exact zero_add _
        · rintro _ rfl
          refine hunlock.mono ?_
          rintro _ _ ⟨_, rfl, rfl⟩
          exact zero_add _
      · rintro _ rfl
        refine hunlock.mono ?_
        rintro _ _ ⟨_, rfl, rfl⟩
        exact zero_add _
    · rintro _ ⟨_, rfl, rfl⟩
      exact zero_add _
  · obtain ⟨hp, hi, rfl⟩ := hm
    exact admits_charge around hcall hp hi prepared

theorem keeps_clearRow {owner : Nat} (hcall : call.Of process) (n k : Nat) :
    Keeps T t call (clearRow owner (range' k n))
      (fun _ m' => m' = {.claiming process owner (k + n)}) {.claiming process owner k} := by
  induction n generalizing k with
  | zero => exact rfl
  | succ n ih =>
    rw [range'_succ]
    refine .store_bind fun others h mem hI hw => ?_
    rw [Multiset.singleton_add] at hI
    have hcleared := hI.clear_row (hcall.live hw)
    rw [← Multiset.singleton_add] at hcleared
    have heq : k + (n + 1) = k + 1 + n := by omega
    rw [heq]
    exact (ih (k + 1)).goes hcleared

theorem admits_claimOwner (hcall : call.Of process) {owners : List Nat}
    (howners : ∀ owner ∈ owners, owner < T.owners) :
    Admits T t call (claimOwner T around process owners) (fun _ m' => m' = 0) (fun m' => m' = 0)
      0 := by
  induction owners with
  | nil => exact .fail rfl
  | cons owner rest ih =>
    have hlater := ih fun o hmem => howners o (mem_cons_of_mem _ hmem)
    refine .bind ((admits_tryLock around (ShmInv.silent_claiming process owner) rfl rfl).mono ?_ fun _ h => h)
    rintro success _ rfl
    cases success with
    | false => exact hlater
    | true =>
      refine .bind (.lift (.load fun generation => ?_))
      split
      · have hrow : Keeps T t call (clearRow owner _) _ _ := keeps_clearRow hcall T.geometry.slots 0
        rw [← range_eq_range', Nat.zero_add] at hrow
        refine .lift (.bind (hrow.mono ?_))
        rintro _ _ rfl
        refine .store_bind fun others h mem hI hw => ?_
        have hlive := hcall.live hw
        have hquiet := hI.quiet (.generation owner) trivial (generation + 1)
        rw [Multiset.singleton_add] at hquiet
        refine Goes.mark_bind (f := fun _ => .ret _) ⟨0, ?_, rfl⟩
        rw [zero_add]
        have howner := howners owner mem_cons_self
        exact ShmInv.opened (h := h) hquiet (Nat.le_refl _) hlive howner
      · refine .bind (.lift ((keeps_unlock (c := .claiming process owner 0) hcall rfl rfl rfl
          rfl).mono ?_))
        rintro _ _ rfl
        exact hlater

theorem keeps_letGoAll {locks : List Addr} (hlocks : ∀ l ∈ locks, l.isLock = true) :
    Keeps T t (.dies process) (letGoAll process locks) (fun _ m' => m' = 0) 0 := by
  induction locks with
  | nil => exact rfl
  | cons l rest ih =>
    have hlater := ih fun l hmem => hlocks l (mem_cons_of_mem _ hmem)
    have hl := hlocks l mem_cons_self
    refine .bind (.compareExchange_bind (f := fun _ => .ret ()) (fun others h mem hI hword hw => ?_)
      fun others h mem hI _ => ⟨0, hI, hlater⟩)
    refine ⟨0, ?_, hlater⟩
    rw [zero_add] at hI ⊢
    exact hI.lets_go hl hw hword

theorem locks_isLock : ∀ l ∈ T.locks, l.isLock = true := by
  intro l hl
  rcases mem_append.mp hl with hl | hl
  · obtain ⟨_, -, rfl⟩ := List.mem_map.mp hl
    rfl
  · obtain ⟨_, -, rfl⟩ := List.mem_map.mp hl
    rfl

theorem begins_safe {h h' : History} {mem : Mem Addr} {m : Share} (hI : ShmInv T m h mem)
    (hbegins : call.begins h = some h') :
    ∃ mc, ShmInv T (mc + m) h' mem ∧
      Keeps T t call (call.body T) (fun _ _ => True) mc := by
  cases call with
  | opens process around =>
    simp only [Call.begins, ite_none_left_eq_some, Option.some.injEq] at hbegins
    obtain ⟨-, rfl⟩ := hbegins
    refine ⟨0, ?_, ?_⟩
    · rw [zero_add]
      exact ⟨hI.locked, hI.counted, hI.described, hI.recorded⟩
    · have hcall : (Call.opens process around).Of process := ⟨rfl, fun _ => by simp⟩
      have hopens : Admits T t _ _ _ _ _ := admits_claimOwner around hcall
        fun owner howner => mem_range.mp howner
      exact hopens.toProg _
  | admits handle key cost budget around =>
    simp only [Call.begins, ite_none_right_eq_some, Option.some.injEq] at hbegins
    obtain ⟨hopen, rfl⟩ := hbegins
    refine ⟨{.caller handle}, ?_, ?_⟩
    · rw [Multiset.singleton_add]
      exact hI.calls hopen.1
    · have hcall : (Call.admits handle key cost budget around).Of handle.process :=
        ⟨rfl, fun _ => by simp⟩
      exact (admits_request around hcall key cost).toProg _
  | dies process =>
    simp only [Call.begins, ite_none_right_eq_some, Option.some.injEq] at hbegins
    obtain ⟨-, rfl⟩ := hbegins
    refine ⟨0, ?_, (keeps_letGoAll locks_isLock).mono fun _ _ _ => trivial⟩
    rw [zero_add]
    exact hI.dies process

/-- The table when it is created: its clocks' floors are set, and the rest is zero. -/
def created (floor : Nat) : Mem Addr
  | .watermark _ => floor
  | _ => 0

/-- In every run of openings, admissions and deaths, with deaths between any two accesses: no
publisher has ever written to a bank that a live process had pinned; a live process's pin is of the
generation its slot is published with; and each slot's descriptor names the bank that holds the
identity and the TAT of its last completed publication and the charges committed since, whatever
publications have been given up or cut short by a death. -/
theorem pins_protect_identity {T : Table} {floor : Nat} {s : Config Addr Event Call History}
    (hs : Reach (shmSys T) mortal ⟨created floor, .start, []⟩ s) :
    s.hist.trespasses = [] ∧
    (∀ p ∈ s.hist.pins, p.handle.process ∉ s.hist.dead →
      p.generation = generationOf (inForce (s.hist.commits p.index))) ∧
    ∀ i, Published s.mem i (inForce (s.hist.commits i)) := by
  have hinit : ShmInv T 0 .start (created floor) := .init T (fun _ _ => rfl) fun _ => rfl
  have hshares : ∃ shares, Shares (shmSys T) mortal (ShmInv T) (fun _ => True) s shares :=
    hs.holds hinit fun t call h h' mem m hI _ hbegins => begins_safe hI hbegins
  obtain ⟨shares, -, hI, -⟩ := hshares
  refine ⟨hI.recorded.clean, fun p hp hlive => ?_, hI.described.published⟩
  exact hI.described.held_generation (hI.recorded.held hp) hlive

theorem oneSlot_dvd : 1 ∣ 1 := Nat.dvd_refl 1

theorem oneSlot_probes : 1 ≤ 1 / 1 := by decide

def oneSlot : Geometry where
  slots := 1
  shards := 1
  keyBytes := 2
  probes := 1
  slots_pos := Nat.one_pos
  shards_pos := Nat.one_pos
  probes_pos := Nat.one_pos
  shards_dvd := oneSlot_dvd
  probes_le := oneSlot_probes

def Table.sample : Table := ⟨oneSlot, 1, .strict, sampleGcra, fun _ => (0, 0)⟩

theorem sampleByte_ne (byte : UInt8) : [byte] ≠ [] := cons_ne_nil byte []

def sampleKey : Key := ⟨[7], [8], sampleByte_ne 7, sampleByte_ne 8⟩

def atFive : Surroundings := ⟨fun _ => .ok 5, fun _ => false, fun _ => false⟩

/-- A process opens, installs a key with a charge of the whole burst, and dies. -/
theorem pins_protect_identity_sample : ∃ s : Config Addr Event Call History,
    ((s.hist.commits 0).length = 1 ∧ s.hist.dead = [0]) ∧ s.hist.trespasses = [] ∧
    (∀ p ∈ s.hist.pins, p.handle.process ∉ s.hist.dead →
      p.generation = generationOf (inForce (s.hist.commits p.index))) ∧
    ∀ i, Published s.mem i (inForce (s.hist.commits i)) := by
  have hrun : (mortal.runs (shmSys .sample) ⟨created 0, .start, []⟩
      (.begin (.opens 0 atFive) :: replicate 4 (.step 0) ++
        .begin (.admits ⟨0, 0, 1⟩ sampleKey samplePolicy.burst ⟨9, 0, 0⟩ atFive) ::
          replicate 27 (.step 1) ++ [.begin (.dies 0), .step 2, .step 2])).any
      (fun s => (s.hist.commits 0).length = 1 ∧ s.hist.dead = [0]) = true := by
    decide +kernel
  obtain ⟨s, hs, hcommits⟩ := Reach.exists_of_runs _ hrun
  exact ⟨s, of_decide_eq_true hcommits, pins_protect_identity hs⟩

end OrbitQuota.Shm
