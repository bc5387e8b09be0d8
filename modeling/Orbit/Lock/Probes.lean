import Orbit.Lock.State

/-! Probes of the lock table: where the slot of a key is, and what the probe of `acquire` leaves. -/

namespace OrbitLock

open Orbit.Table List Function

variable {l : Layout} {hash : LockKey → Nat} {slots slots' slots'' : Nat → LockStateSlot}
  {slot : LockStateSlot} {key : LockKey} {lease : LockLease} {nowMs i : Nat}

def probing (l : Layout) (hash : LockKey → Nat) : Probing LockStateSlot LockKey where
  stops slot := decide (slot.state = .empty)
  key slot := if slot.state = .occupied then some slot.lease.key else none
  path key := probePath l (hash key)
  key_of_stops slot h := by
    have hempty : slot.state = .empty := of_decide_eq_true h
    rw [if_neg]
    rw [hempty]
    rintro ⟨⟩

theorem key_some : (probing l hash).key slot = some key ↔
    slot.state = .occupied ∧ slot.lease.key = key := by
  unfold probing
  dsimp only
  split
  · rename_i hoccupied
    exact ⟨fun h => ⟨hoccupied, Option.some.inj h⟩, fun h => congrArg some h.2⟩
  · rename_i hoccupied
    exact ⟨fun h => (nomatch h), fun h => absurd h.1 hoccupied⟩

theorem stops_iff : (probing l hash).stops slot ↔ slot.state = .empty := decide_eq_true_iff

theorem stops_false : (probing l hash).stops slot = false ↔ slot.state ≠ .empty :=
  decide_eq_false_iff_not

def Entered (l : Layout) (hash : LockKey → Nat) (slot : LockStateSlot) : Prop :=
  slot.state = .occupied →
    slot.keyHash = hash slot.lease.key ∧ Fits l slot.lease.key slot.lease.owner

/-- What the slots of the table have in common. -/
structure Sound (l : Layout) (hash : LockKey → Nat) (slots : Nat → LockStateSlot) : Prop where
  probed : Probed (probing l hash) slots
  entered : ∀ i, Entered l hash (slots i)

theorem isMatch_iff (h : Entered l hash slot) :
    slot.isMatch (hash key) key ↔ slot.state = .occupied ∧ slot.lease.key = key := by
  unfold LockStateSlot.isMatch
  simp only [Bool.and_eq_true, decide_eq_true_eq]
  constructor
  · rintro ⟨⟨⟨hstate, -⟩, hnamespace⟩, hlabel⟩
    refine ⟨hstate, ?_⟩
    cases key
    exact congrArg₂ LockKey.mk hnamespace hlabel
  · rintro ⟨hstate, rfl⟩
    exact ⟨⟨⟨hstate, (h hstate).1⟩, rfl⟩, rfl⟩

theorem sound_init (l : Layout) (hash : LockKey → Nat) : Sound l hash (LockState.init l).slots := by
  have hnone : ∀ i k, (probing l hash).key ((LockState.init l).slots i) ≠ some k := by
    intro i k h
    cases (key_some.mp h).1
  refine ⟨⟨fun i k h => absurd h (hnone i k), fun i j k h => absurd h (hnone i k)⟩, fun i h => ?_⟩
  cases h

def Swept (nowMs : Nat) (slots slots' : Nat → LockStateSlot) : Prop :=
  ∀ i, slots' i = slots i ∨ (slots i).state = .occupied ∧ (slots i).expiresAtMs ≤ nowMs ∧
    slots' i = (slots i).tombstone

theorem Swept.refl (nowMs : Nat) (slots : Nat → LockStateSlot) : Swept nowMs slots slots :=
  fun _ => .inl rfl

theorem Swept.trans (h : Swept nowMs slots slots') (h' : Swept nowMs slots' slots'') :
    Swept nowMs slots slots'' := by
  intro i
  rcases h' i with heq | ⟨hstate, hexpired, heq⟩
  · rw [heq]
    exact h i
  · rcases h i with hold | ⟨-, -, hold⟩
    · rw [hold] at hstate hexpired heq
      exact .inr ⟨hstate, hexpired, heq⟩
    · rw [hold] at hstate
      cases hstate

theorem Swept.tombstone (hstate : (slots i).state = .occupied)
    (hexpired : (slots i).expiresAtMs ≤ nowMs) :
    Swept nowMs slots (Function.update slots i (slots i).tombstone) := by
  intro j
  by_cases hij : j = i
  · subst hij
    rw [update_self]
    exact .inr ⟨hstate, hexpired, rfl⟩
  · rw [update_of_ne hij]
    exact .inl rfl

theorem Swept.occupied (h : Swept nowMs slots slots') (hstate : (slots' i).state = .occupied) :
    slots' i = slots i := by
  rcases h i with heq | ⟨-, -, heq⟩
  · exact heq
  · rw [heq] at hstate
    cases hstate

theorem Swept.live (h : Swept nowMs slots slots') (hlive : nowMs < (slots i).expiresAtMs) :
    slots' i = slots i := by
  rcases h i with heq | ⟨-, hexpired, -⟩
  · exact heq
  · omega

theorem Swept.nonempty (h : Swept nowMs slots slots') (hstate : (slots i).state ≠ .empty) :
    (slots' i).state ≠ .empty := by
  rcases h i with heq | ⟨-, -, heq⟩
  · rw [heq]
    exact hstate
  · rw [heq]
    rintro ⟨⟩

theorem Sound.swept (h : Sound l hash slots) (hswept : Swept nowMs slots slots') :
    Sound l hash slots' := by
  constructor
  · refine h.probed.shrink (fun i k hk => ?_) fun j hj => ?_
    · rw [hswept.occupied (key_some.mp hk).1] at hk
      exact hk
    · exact stops_false.mpr (hswept.nonempty (stops_false.mp hj))
  · intro i hstate
    have heq := hswept.occupied hstate
    rw [heq] at hstate ⊢
    exact h.entered i hstate

theorem Sound.tombstone (h : Sound l hash slots) (hstate : (slots i).state = .occupied) :
    Sound l hash (Function.update slots i (slots i).tombstone) :=
  h.swept (Swept.tombstone hstate (Nat.le_refl _))

theorem update_slot (slots : Nat → LockStateSlot) (slot : LockStateSlot) (index i : Nat) :
    i = index ∧ Function.update slots index slot i = slot ∨
      i ≠ index ∧ Function.update slots index slot i = slots i := by
  by_cases hi : i = index
  · subst hi
    exact .inl ⟨rfl, update_self _ _ _⟩
  · exact .inr ⟨hi, update_of_ne hi _ _⟩

theorem Entered.write (hfits : Fits l lease.key lease.owner) {keyHash : Nat}
    (hhash : keyHash = hash lease.key) : Entered l hash (.write l keyHash lease) := by
  intro _
  rw [LockStateSlot.lease_write hfits]
  exact ⟨hhash, hfits⟩

theorem Sound.update {index : Nat} (h : Sound l hash slots)
    (hprobed : Probed (probing l hash) (Function.update slots index slot))
    (hentered : Entered l hash slot) : Sound l hash (Function.update slots index slot) := by
  refine ⟨hprobed, fun i => ?_⟩
  rcases update_slot slots slot index i with ⟨-, heq⟩ | ⟨-, heq⟩
  · rw [heq]
    exact hentered
  · rw [heq]
    exact h.entered i

theorem Sound.insert {index : Nat} (h : Sound l hash slots)
    (habsent : ∀ i, (slots i).state = .occupied → (slots i).lease.key ≠ lease.key)
    (hreaches : Reaches (probing l hash) slots (probePath l (hash lease.key)) index)
    (hfits : Fits l lease.key lease.owner) :
    Sound l hash (Function.update slots index (.write l (hash lease.key) lease)) := by
  have hkey : (probing l hash).key (.write l (hash lease.key) lease) = some lease.key :=
    key_some.mpr ⟨rfl, congrArg LockLease.key (LockStateSlot.lease_write hfits)⟩
  refine h.update (h.probed.insert hkey (fun j hj => ?_) hreaches) (.write hfits rfl)
  exact habsent j (key_some.mp hj).1 (key_some.mp hj).2

theorem Sound.rewrite {index : Nat} (h : Sound l hash slots)
    (hoccupied : (slots index).state = .occupied) (hkey : lease.key = (slots index).lease.key)
    (hfits : Fits l lease.key lease.owner) :
    Sound l hash (Function.update slots index (.write l (slots index).keyHash lease)) := by
  have hhash := (h.entered index hoccupied).1
  rw [← hkey] at hhash
  refine h.update (h.probed.rewrite (key_some.mpr ⟨hoccupied, hkey.symm⟩) ?_) (.write hfits hhash)
  exact key_some.mpr ⟨rfl, congrArg LockLease.key (LockStateSlot.lease_write hfits)⟩

theorem findSlot_some (h : Sound l hash slots) (hfind : findSlot l hash slots key = some i) :
    (slots i).state = .occupied ∧ (slots i).lease.key = key :=
  (isMatch_iff (h.entered i)).mp (probe_some (P := probing l hash) hfind).1

theorem findSlot_of_key (h : Sound l hash slots) (hstate : (slots i).state = .occupied)
    (hkey : (slots i).lease.key = key) : findSlot l hash slots key = some i := by
  have hreaches := h.probed.reaches i key (key_some.mpr ⟨hstate, hkey⟩)
  refine hreaches.probe ?_ ((isMatch_iff (h.entered i)).mpr ⟨hstate, hkey⟩) fun j hj => ?_
  · rw [stops_false, hstate]
    rintro ⟨⟩
  · exact h.probed.unique j i key (key_some.mpr ((isMatch_iff (h.entered j)).mp hj))
      (key_some.mpr ⟨hstate, hkey⟩)

/-- What the probe of `acquire` promises of the slots it leaves. -/
def Scanned (l : Layout) (hash : LockKey → Nat) (key : LockKey) (nowMs : Nat)
    (slots : Nat → LockStateSlot) : Scan → Prop
  | .occupied lease => ∃ i, (slots i).state = .occupied ∧ (slots i).lease = lease ∧
      lease.key = key ∧ nowMs < lease.expiresAtMs
  | .insertion insertion => (∀ i, (slots i).state = .occupied → (slots i).lease.key ≠ key) ∧
      ∀ index, insertion = some index → (slots index).state ≠ .occupied ∧
        Reaches (probing l hash) slots (probePath l (hash key)) index

/-- The state of the probe after the slots `before`. -/
structure Scanning (l : Layout) (hash : LockKey → Nat) (key : LockKey) (before rest : List Nat)
    (slots : Nat → LockStateSlot) (insertion : Option Nat) : Prop where
  sound : Sound l hash slots
  path : probePath l (hash key) = before ++ rest
  passed : ∀ j ∈ before, (slots j).state ≠ .empty
  none : ∀ j ∈ before, (slots j).state = .occupied → (slots j).lease.key ≠ key
  insertion : ∀ index, insertion = some index → (slots index).state ≠ .occupied ∧
    Reaches (probing l hash) slots (probePath l (hash key)) index

section

variable {before rest : List Nat} {index : Nat} {insertion : Option Nat}

theorem Scanning.first (h : Scanning l hash key before (index :: rest) slots insertion)
    (hstate : (slots index).state ≠ .occupied) : ∀ index', insertion.or (some index) = some index' →
      (slots index').state ≠ .occupied ∧
        Reaches (probing l hash) slots (probePath l (hash key)) index' := by
  intro index' hindex
  cases insertion with
  | some first => exact h.insertion index' hindex
  | none =>
    cases hindex
    exact ⟨hstate, before, rest, h.path, fun j hj => stops_false.mpr (h.passed j hj)⟩

theorem Scanning.next (h : Scanning l hash key before (index :: rest) slots insertion)
    {insertion' : Option Nat} (hstate : (slots index).state ≠ .empty)
    (hkey : (slots index).state = .occupied → (slots index).lease.key ≠ key)
    (hinsertion : ∀ index', insertion' = some index' → (slots index').state ≠ .occupied ∧
      Reaches (probing l hash) slots (probePath l (hash key)) index') :
    Scanning l hash key (before ++ [index]) rest slots insertion' := by
  refine ⟨h.sound, ?_, fun j hj => ?_, fun j hj => ?_, hinsertion⟩
  · rw [h.path, append_assoc]
    rfl
  · rcases mem_append.mp hj with hj | hj
    · exact h.passed j hj
    · rw [mem_singleton.mp hj]
      exact hstate
  · rcases mem_append.mp hj with hj | hj
    · exact h.none j hj
    · rw [mem_singleton.mp hj]
      exact hkey

theorem Scanning.swept (h : Scanning l hash key before rest slots insertion)
    (hswept : Swept nowMs slots slots') :
    Scanning l hash key before rest slots' insertion := by
  refine ⟨h.sound.swept hswept, h.path, fun j hj => hswept.nonempty (h.passed j hj),
    fun j hj hstate => ?_, fun index hindex => ?_⟩
  · have heq := hswept.occupied hstate
    rw [heq] at hstate ⊢
    exact h.none j hj hstate
  · obtain ⟨hfree, hreaches⟩ := h.insertion index hindex
    refine ⟨fun hstate => ?_, hreaches.mono fun j hj => ?_⟩
    · rw [hswept.occupied hstate] at hstate
      exact hfree hstate
    · exact stops_false.mpr (hswept.nonempty (stops_false.mp hj))

theorem Scanning.absent (h : Scanning l hash key before rest slots insertion)
    (hrest : rest = [] ∨ ∃ index after, rest = index :: after ∧ (slots index).state = .empty) :
    ∀ i, (slots i).state = .occupied → (slots i).lease.key ≠ key := by
  intro i hstate hkey
  have hreaches := h.sound.probed.reaches i key (key_some.mpr ⟨hstate, hkey⟩)
  have hpath : (probing l hash).path key = before ++ rest := h.path
  rw [hpath] at hreaches
  refine h.none i ?_ hstate hkey
  rcases hrest with rfl | ⟨index, after, rfl, hempty⟩
  · rw [append_nil] at hreaches
    exact hreaches.mem
  · refine hreaches.mem_before (stops_iff.mpr hempty) (stops_false.mpr ?_)
    rw [hstate]
    rintro ⟨⟩

theorem Scanning.scan (h : Scanning l hash key before rest slots insertion) (nowMs : Nat) :
    Swept nowMs slots (scan (hash key) key nowMs rest slots insertion).1 ∧
      Scanned l hash key nowMs (scan (hash key) key nowMs rest slots insertion).1
        (scan (hash key) key nowMs rest slots insertion).2 := by
  induction rest generalizing before slots insertion with
  | nil =>
    rw [OrbitLock.scan]
    exact ⟨.refl _ _, h.absent (.inl rfl), h.insertion⟩
  | cons index rest ih =>
    rw [OrbitLock.scan]
    cases hstate : (slots index).state with
    | empty =>
      refine ⟨.refl _ _, h.absent (.inr ⟨index, rest, rfl, hstate⟩), h.first ?_⟩
      rw [hstate]
      rintro ⟨⟩
    | tombstone =>
      have hfree : (slots index).state ≠ .occupied := by
        rw [hstate]
        rintro ⟨⟩
      refine ih (h.next ?_ (fun hoccupied => absurd hoccupied hfree) (h.first hfree))
      rw [hstate]
      rintro ⟨⟩
    | occupied =>
      have hnonempty : (slots index).state ≠ .empty := by
        rw [hstate]
        rintro ⟨⟩
      dsimp only
      by_cases hexpired : (slots index).expiresAtMs ≤ nowMs
      · rw [if_pos hexpired]
        have hswept := Swept.tombstone hstate hexpired
        have hslot : (Function.update slots index (slots index).tombstone index).state =
            .tombstone := by
          rw [update_self]
          rfl
        have hfree : (Function.update slots index (slots index).tombstone index).state ≠
            .occupied := by
          rw [hslot]
          rintro ⟨⟩
        have hscanning := h.swept hswept
        obtain ⟨hrest, hscanned⟩ := ih (hscanning.next (hswept.nonempty hnonempty)
          (fun hoccupied => absurd hoccupied hfree) (hscanning.first hfree))
        exact ⟨hswept.trans hrest, hscanned⟩
      · rw [if_neg hexpired]
        by_cases hmatch : (slots index).isMatch (hash key) key
        · rw [if_pos hmatch]
          obtain ⟨-, hkey⟩ := (isMatch_iff (h.sound.entered index)).mp hmatch
          exact ⟨.refl _ _, index, hstate, rfl, hkey, Nat.lt_of_not_le hexpired⟩
        · rw [if_neg hmatch]
          refine ih (h.next hnonempty (fun _ hkey => hmatch ?_) h.insertion)
          exact (isMatch_iff (h.sound.entered index)).mpr ⟨hstate, hkey⟩

end

theorem scan_spec (h : Sound l hash slots) (key : LockKey) (nowMs : Nat) :
    Swept nowMs slots (scan (hash key) key nowMs (probePath l (hash key)) slots none).1 ∧
      Scanned l hash key nowMs (scan (hash key) key nowMs (probePath l (hash key)) slots none).1
        (scan (hash key) key nowMs (probePath l (hash key)) slots none).2 := by
  have hstart : Scanning l hash key [] (probePath l (hash key)) slots none :=
    ⟨h, rfl, fun _ h => (nomatch h), fun _ h => (nomatch h), fun _ h => (nomatch h)⟩
  exact hstart.scan nowMs

end OrbitLock
