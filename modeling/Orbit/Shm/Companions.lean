import Mathlib.Algebra.Group.Nat.Defs
import Orbit.Codec.Separated

/-! The names of segments and of the lock files beside them, as the link, the core and the command
line tool build them and read them back. -/

namespace OrbitShm

open Orbit.Separated

abbrev Name := List Char

/-- `SHM_NAMESPACE`. -/
def shmNamespace : Name := "orbit".toList

def lockSuffix : Name := ".lock".toList
def fleetSuffix : Name := ".fleet".toList
def laneInfix : Name := ".lane".toList
def watchInfix : Name := ".watch".toList

/-- `Error::InvalidName`. -/
structure InvalidName where
  name : Name
  reason : String
  deriving DecidableEq

def allowed (character : Char) : Bool :=
  character.isAlphanum || character == '-' || character == '_' || character == '.'

/-- `validate_name` of the link. -/
def validateName (name : Name) : Except InvalidName Unit :=
  if name.isEmpty then .error ⟨name, "it is empty"⟩
  else
    match name.find? fun character => !allowed character with
    | some bad => .error ⟨name, s!"'{bad}' is not a letter, a digit, '-', '_' or '.'"⟩
    | none => .ok ()

/-- `validate_fleet` of the command line tool. -/
def validateFleet (fleet : Name) : Except String Unit :=
  if fleet.isEmpty then .error "fleet name must not be empty"
  else if fleet.contains '/' || fleet.contains '\x00' then
    .error "fleet name must not contain '/' or a NUL byte"
  else .ok ()

/-- The name of a fleet's ring segment of a kind that `uid` owns. -/
def ringSegmentNameForUid (fleetName : Name) (kind : UInt8) (uid : UInt32) : Name :=
  '/' :: shmNamespace ++ '-' :: fleetName ++ '-' :: decimal kind.toNat ++ '-' :: decimal uid.toNat

/-- `Path::join`: an absolute path replaces the one it is joined to. -/
def join (dir file : Name) : Name := if file.head? = some '/' then file else dir ++ '/' :: file

def lockDirForUid (uid : UInt32) : Name :=
  join "/tmp".toList (shmNamespace ++ '-' :: decimal uid.toNat)

def fleetLockPathForUid (fleetName : Name) (uid : UInt32) : Name :=
  join (lockDirForUid uid) (shmNamespace ++ '-' :: fleetName ++ fleetSuffix)

/-- `trim_start_matches('/')`. -/
def trimSlashes (name : Name) : Name := name.dropWhile (· == '/')

/-- `lock_file_path` of a process of `uid`. -/
def lockFilePath (uid : UInt32) (shmName : Name) : Name :=
  join (lockDirForUid uid) (trimSlashes shmName ++ lockSuffix)

def laneLockPath (uid : UInt32) (shmName : Name) (lane : Nat) : Name :=
  lockFilePath uid (trimSlashes shmName ++ laneInfix ++ decimal lane)

def watcherLockPath (uid : UInt32) (shmName : Name) (slot : Nat) : Name :=
  lockFilePath uid (trimSlashes shmName ++ watchInfix ++ decimal slot)

def isCompanion (shmName file : Name) : Bool :=
  let base := trimSlashes shmName
  file == base ++ lockSuffix ||
    (((base ++ laneInfix).isPrefixOf file || (base ++ watchInfix).isPrefixOf file) &&
      lockSuffix.isSuffixOf file)

/-- Every lock file beside the segment of `uid`, whose lock directory has these entries. -/
def companionLockFiles (shmName : Name) (uid : UInt32) (entries : List Name) : List Name :=
  (entries.filter (isCompanion shmName)).map (join (lockDirForUid uid))

/-- The entries of the lock directory of `uid` once the segment was unlinked. -/
def unlinkLocks (shmName : Name) (uid : UInt32) (entries : List Name) : List Name :=
  entries.filter fun entry =>
    !(companionLockFiles shmName uid entries).contains (join (lockDirForUid uid) entry)

def fleetHint (filename : Name) (uid : UInt32) : Option Name := do
  let stem ← filename.dropPrefix? shmNamespace
  let stem ← stem.dropPrefix? ['-']
  match stem.dropSuffix? fleetSuffix with
  | some fleet =>
    let _ ← (validateFleet fleet).toOption
    return fleet
  | none =>
    let stem ← stem.dropSuffix? lockSuffix
    let parts ← rsplitOnce '-' stem
    if parts.2 ≠ decimal uid.toNat then none
    else
      let parts ← rsplitOnce '-' parts.1
      let kindNumber ← parse (2 ^ 8) parts.2
      if parts.2 ≠ decimal kindNumber then none
      else
        let _ ← (validateFleet parts.1).toOption
        return parts.1

/-- A fleet whose name the link accepts. -/
structure Fleet where
  name : Name
  valid : validateName name = .ok ()
  deriving DecidableEq

structure Segment where
  fleet : Fleet
  kind : UInt8
  uid : UInt32
  deriving DecidableEq

def Segment.name (s : Segment) : Name := ringSegmentNameForUid s.fleet.name s.kind s.uid

/-- What a lock file of a segment locks. -/
inductive Role where
  | region
  | lane (index : Nat)
  | watcher (slot : Nat)
  deriving DecidableEq

inductive LockFile where
  | companion (segment : Segment) (role : Role)
  | membership (fleet : Fleet) (uid : UInt32)
  deriving DecidableEq

def LockFile.path : LockFile → Name
  | .companion s .region => lockFilePath s.uid s.name
  | .companion s (.lane index) => laneLockPath s.uid s.name index
  | .companion s (.watcher slot) => watcherLockPath s.uid s.name slot
  | .membership fleet uid => fleetLockPathForUid fleet.name uid

/-- `Path::file_name`. -/
def fileName (path : Name) : Name :=
  match rsplitOnce '/' path with
  | some parts => parts.2
  | none => path

def LockFile.entry (file : LockFile) : Name := fileName file.path

/-! Which names are different, and which lock files the two readers of names find: the hint finds
the fleet of every file, and the companions of a segment are its own files and those of the fleets
whose names begin as if they were files of it. -/

open List Option

variable {s s' : Segment} {fleet : Fleet} {role role' : Role}

theorem Fleet.nonempty (fleet : Fleet) : fleet.name ≠ [] := by
  intro hempty
  have hvalid := fleet.valid
  rw [hempty] at hvalid
  cases hvalid

theorem Fleet.allowed {fleet : Fleet} {c : Char} (h : c ∈ fleet.name) : allowed c = true := by
  have hvalid := fleet.valid
  unfold validateName at hvalid
  split at hvalid
  · cases hvalid
  · split at hvalid
    · cases hvalid
    next hfind =>
      have hnot := find?_eq_none.mp hfind c h
      simpa using hnot

theorem Fleet.not_mem {fleet : Fleet} {c : Char} (h : OrbitShm.allowed c = false) :
    c ∉ fleet.name := by
  intro hmem
  rw [Fleet.allowed hmem] at h
  cases h

def Role.ending : Role → Name
  | .region => lockSuffix
  | .lane index => laneInfix ++ decimal index ++ lockSuffix
  | .watcher slot => watchInfix ++ decimal slot ++ lockSuffix

theorem Role.ending_head (role : Role) : ∃ rest, role.ending = '.' :: rest := by
  cases role <;> exact ⟨_, rfl⟩

theorem Role.not_mem_ending {role : Role} {c : Char} (hlock : c ∉ lockSuffix)
    (hlane : c ∉ laneInfix) (hwatch : c ∉ watchInfix) (hdigit : c.isDigit = false) :
    c ∉ role.ending := by
  cases role with
  | region => exact hlock
  | lane index =>
    exact not_mem_append (not_mem_append hlane (not_mem_decimal hdigit)) hlock
  | watcher slot =>
    exact not_mem_append (not_mem_append hwatch (not_mem_decimal hdigit)) hlock

theorem lane_starts : laneInfix <+: role.ending ↔ ∃ index, role = .lane index := by
  constructor
  · rintro ⟨rest, h⟩
    cases role with
    | region =>
      have hletter : 'a' = 'o' := Option.some.inj (congrArg (fun text => text[2]?) h)
      exact absurd hletter (by decide)
    | lane index => exact ⟨index, rfl⟩
    | watcher slot =>
      have hletter : 'l' = 'w' := Option.some.inj (congrArg (fun text => text[1]?) h)
      exact absurd hletter (by decide)
  · rintro ⟨index, rfl⟩
    exact ⟨decimal index ++ lockSuffix, (append_assoc ..).symm⟩

theorem watch_starts : watchInfix <+: role.ending ↔ ∃ slot, role = .watcher slot := by
  constructor
  · rintro ⟨rest, h⟩
    cases role with
    | region =>
      have hletter : 'w' = 'l' := Option.some.inj (congrArg (fun text => text[1]?) h)
      exact absurd hletter (by decide)
    | lane index =>
      have hletter : 'w' = 'l' := Option.some.inj (congrArg (fun text => text[1]?) h)
      exact absurd hletter (by decide)
    | watcher slot => exact ⟨slot, rfl⟩
  · rintro ⟨slot, rfl⟩
    exact ⟨decimal slot ++ lockSuffix, (append_assoc ..).symm⟩

theorem Role.ending_inj (h : role.ending = role'.ending) : role = role' := by
  have hnumber : ∀ {start : Name} {n m : Nat}, start ++ decimal n ++ lockSuffix =
      start ++ decimal m ++ lockSuffix → n = m := fun heq =>
    decimal_inj (append_cancel_left (append_cancel_right heq))
  have hlane := @lane_starts role
  have hwatch := @watch_starts role
  rw [h] at hlane hwatch
  cases role' with
  | region =>
    cases role with
    | region => rfl
    | lane index =>
      obtain ⟨_, hbad⟩ := lane_starts.mp (hlane.mpr ⟨index, rfl⟩)
      cases hbad
    | watcher slot =>
      obtain ⟨_, hbad⟩ := watch_starts.mp (hwatch.mpr ⟨slot, rfl⟩)
      cases hbad
  | lane index =>
    obtain ⟨index', rfl⟩ := hlane.mp (lane_starts.mpr ⟨index, rfl⟩)
    rw [hnumber h]
  | watcher slot =>
    obtain ⟨slot', rfl⟩ := hwatch.mp (watch_starts.mpr ⟨slot, rfl⟩)
    rw [hnumber h]

def Segment.stem (s : Segment) : Name :=
  s.fleet.name ++ '-' :: decimal s.kind.toNat ++ '-' :: decimal s.uid.toNat

theorem Segment.name_eq (s : Segment) : s.name = '/' :: (shmNamespace ++ '-' :: s.stem) := by
  rw [Segment.name, ringSegmentNameForUid, Segment.stem]
  simp only [cons_append, append_assoc]

theorem Segment.base_eq (s : Segment) : trimSlashes s.name = shmNamespace ++ '-' :: s.stem := by
  have hfirst : shmNamespace = 'o' :: "rbit".toList := rfl
  rw [Segment.name_eq, trimSlashes, hfirst]
  rfl

theorem Segment.parts_inj {ending ending' : Name}
    (h : s.stem ++ ending = s'.stem ++ ending') (hdash : '-' ∉ ending) (hdash' : '-' ∉ ending')
    (hhead : ∀ c ∈ ending.head?, ¬c.isDigit = true)
    (hhead' : ∀ c ∈ ending'.head?, ¬c.isDigit = true) : s = s' ∧ ending = ending' := by
  have hsplit : ∀ (s : Segment) (ending : Name), s.stem ++ ending =
      (s.fleet.name ++ '-' :: decimal s.kind.toNat) ++ '-' :: (decimal s.uid.toNat ++ ending) :=
    fun s ending => by simp [Segment.stem]
  have hlast : ∀ (s : Segment) {ending : Name}, '-' ∉ ending →
      '-' ∉ decimal s.uid.toNat ++ ending := fun s ending hdash =>
    not_mem_append (not_mem_decimal rfl) hdash
  rw [hsplit, hsplit] at h
  obtain ⟨hfront, hback⟩ := last_inj h (hlast s hdash) (hlast s' hdash')
  obtain ⟨hfleet, hkind⟩ := last_inj hfront (not_mem_decimal rfl) (not_mem_decimal rfl)
  obtain ⟨huid, hending⟩ := span_inj hback (fun _ => isDigit_of_mem_decimal)
    (fun _ => isDigit_of_mem_decimal) hhead hhead'
  obtain ⟨⟨name, valid⟩, kind, uid⟩ := s
  obtain ⟨⟨name', valid'⟩, kind', uid'⟩ := s'
  obtain rfl : name = name' := hfleet
  obtain rfl : kind = kind' := UInt8.toNat_inj.mp (decimal_inj hkind)
  obtain rfl : uid = uid' := UInt32.toNat_inj.mp (decimal_inj huid)
  exact ⟨rfl, hending⟩

theorem Role.ending_not_digit (role : Role) : ∀ c ∈ role.ending.head?, ¬c.isDigit = true := by
  obtain ⟨rest, hrest⟩ := role.ending_head
  rw [hrest]
  rintro c hc
  obtain rfl := Option.some.inj hc
  decide

theorem Role.dash_not_mem (role : Role) : '-' ∉ role.ending :=
  Role.not_mem_ending (by decide) (by decide) (by decide) rfl

theorem starts_cases {ending : Name} (hdash : '-' ∉ ending) (hdot : ending.head? = some '.') :
    s.stem ++ ending <+: s'.stem ++ role.ending ↔
      s.stem ++ ending <+: s'.fleet.name ∨ s' = s ∧ ending <+: role.ending := by
  have hdigit : ∀ c ∈ ending.head?, ¬c.isDigit = true := by
    rw [hdot]
    rintro c hc
    obtain rfl := Option.some.inj hc
    decide
  have hmem : '.' ∈ ending := mem_of_mem_head? hdot
  have hfront : ∀ {front back : Name}, s.stem ++ ending = front ++ '-' :: back → '-' ∉ back →
      front = s.fleet.name ++ '-' :: decimal s.kind.toNat ∧
        back = decimal s.uid.toNat ++ ending := by
    intro front back heq hback
    have hsplit : s.stem ++ ending = (s.fleet.name ++ '-' :: decimal s.kind.toNat) ++
        '-' :: (decimal s.uid.toNat ++ ending) := by simp [Segment.stem]
    rw [hsplit] at heq
    obtain ⟨h1, h2⟩ := last_inj heq (not_mem_append (not_mem_decimal rfl) hdash) hback
    exact ⟨h1.symm, h2.symm⟩
  constructor
  · intro h
    have hwhole : s'.stem ++ role.ending = s'.fleet.name ++
        ('-' :: (decimal s'.kind.toNat ++ ('-' :: (decimal s'.uid.toNat ++ role.ending)))) := by
      simp [Segment.stem]
    rw [hwhole] at h
    rcases prefix_append_cases h with hfleet | ⟨after, heq, hafter⟩
    · exact .inl hfleet
    rcases prefix_cons_iff.mp hafter with rfl | ⟨kinds, rfl, hkinds⟩
    · exact .inl ⟨[], by rw [append_nil, heq, append_nil]⟩
    -- the text goes on into the kind: it ends there, or it takes the kind whole
    have hnumber : ¬kinds <+: decimal s'.kind.toNat := by
      intro hin
      have hnot : ∀ c ∈ kinds, c.isDigit = true :=
        fun c hc => isDigit_of_mem_decimal (hin.subset hc)
      obtain ⟨-, hback⟩ := hfront heq fun hc => absurd (hnot _ hc) (by decide)
      exact absurd (hnot '.' (by rw [hback]; exact mem_append_right _ hmem)) (by decide)
    rcases prefix_append_cases hkinds with hin | ⟨last, rfl, hlast⟩
    · exact absurd hin hnumber
    rcases prefix_cons_iff.mp hlast with rfl | ⟨back, rfl, hback⟩
    · exact absurd ⟨[], by rw [append_nil, append_nil]⟩ hnumber
    have hrest : '-' ∉ decimal s'.uid.toNat ++ role.ending :=
      not_mem_append (not_mem_decimal rfl) role.dash_not_mem
    have heq' : s.stem ++ ending =
        (s'.fleet.name ++ '-' :: decimal s'.kind.toNat) ++ '-' :: back := by
      rw [heq]
      simp
    obtain ⟨hnames, rfl⟩ := hfront heq' fun hc => hrest (hback.subset hc)
    obtain ⟨more, hmore⟩ := hback
    have hsame : s'.stem ++ role.ending = s.stem ++ (ending ++ more) := by
      rw [hwhole, ← hmore, Segment.stem, ← cons_append, ← append_assoc, hnames]
      simp
    have hdigit' : ∀ c ∈ (ending ++ more).head?, ¬c.isDigit = true := by
      rw [head?_append, hdot, some_or, ← hdot]
      exact hdigit
    have hdash' : '-' ∉ ending ++ more := by
      intro hc
      refine hrest ?_
      rw [← hmore, append_assoc]
      exact mem_append_right _ hc
    obtain ⟨hs, hend⟩ :=
      Segment.parts_inj hsame role.dash_not_mem hdash' role.ending_not_digit hdigit'
    exact .inr ⟨hs, hend ▸ prefix_append ending more⟩
  · rintro (h | ⟨rfl, h⟩)
    · refine h.trans ?_
      rw [Segment.stem, append_assoc, append_assoc]
      exact prefix_append ..
    · exact (prefix_append_right_inj _).mpr h

def LockFile.text : LockFile → Name
  | .companion s role => shmNamespace ++ '-' :: (s.stem ++ role.ending)
  | .membership fleet _ => shmNamespace ++ '-' :: (fleet.name ++ fleetSuffix)

def LockFile.uid : LockFile → UInt32
  | .companion s _ => s.uid
  | .membership _ uid => uid

theorem Segment.base_trim (s : Segment) (more : Name) :
    trimSlashes (shmNamespace ++ '-' :: s.stem ++ more) =
      shmNamespace ++ '-' :: s.stem ++ more := by
  have hfirst : shmNamespace = 'o' :: "rbit".toList := rfl
  rw [trimSlashes, hfirst]
  rfl

theorem LockFile.path_eq (file : LockFile) :
    file.path = lockDirForUid file.uid ++ '/' :: file.text := by
  have hjoin : ∀ (uid : UInt32) (rest : Name), join (lockDirForUid uid) (shmNamespace ++ rest) =
      lockDirForUid uid ++ '/' :: (shmNamespace ++ rest) := by
    intro uid rest
    have hfirst : shmNamespace = 'o' :: "rbit".toList := rfl
    rw [join, if_neg]
    rw [hfirst]
    exact fun h => absurd (Option.some.inj h) (by decide)
  have hjoin' : ∀ (uid : UInt32) (rest rest' : Name),
      join (lockDirForUid uid) (shmNamespace ++ rest ++ rest') =
        lockDirForUid uid ++ '/' :: (shmNamespace ++ (rest ++ rest')) := by
    intro uid rest rest'
    rw [append_assoc]
    exact hjoin uid _
  cases file with
  | companion s role =>
    cases role with
    | region =>
      rw [LockFile.path, lockFilePath, s.base_eq, hjoin']
      rfl
    | lane index =>
      rw [LockFile.path, laneLockPath, lockFilePath, s.base_eq, append_assoc (_ ++ _),
        s.base_trim, append_assoc (_ ++ _), hjoin']
      rfl
    | watcher slot =>
      rw [LockFile.path, watcherLockPath, lockFilePath, s.base_eq, append_assoc (_ ++ _),
        s.base_trim, append_assoc (_ ++ _), hjoin']
      rfl
  | membership fleet uid =>
    rw [LockFile.path, fleetLockPathForUid, hjoin']
    rfl

theorem LockFile.slash_not_mem (file : LockFile) : '/' ∉ file.text := by
  have hspace : '/' ∉ shmNamespace := by decide
  have hname : ∀ fleet : Fleet, '/' ∉ fleet.name := fun fleet => Fleet.not_mem (by decide)
  cases file with
  | companion s role =>
    have hending : '/' ∉ role.ending := Role.not_mem_ending (by decide) (by decide) (by decide) rfl
    have hstem : '/' ∉ s.stem := by
      rw [Segment.stem]
      refine not_mem_append (not_mem_append (hname _) ?_) ?_ <;>
        exact not_mem_cons_of_ne_of_not_mem (by decide) (not_mem_decimal rfl)
    refine not_mem_append hspace (not_mem_cons_of_ne_of_not_mem (by decide) ?_)
    exact not_mem_append hstem hending
  | membership fleet uid =>
    refine not_mem_append hspace (not_mem_cons_of_ne_of_not_mem (by decide) ?_)
    exact not_mem_append (hname _) (by decide)

theorem LockFile.entry_eq (file : LockFile) : file.entry = file.text := by
  rw [LockFile.entry, file.path_eq, fileName, rsplitOnce_append file.slash_not_mem]

theorem Role.lock_ends (role : Role) : lockSuffix <:+ role.ending := by
  cases role with
  | region => exact suffix_rfl
  | lane index => exact suffix_append ..
  | watcher slot => exact suffix_append ..

theorem lock_ends (s : Segment) (role : Role) :
    lockSuffix <:+ (LockFile.companion s role).text :=
  (role.lock_ends.trans (suffix_append s.stem _)).trans
    ((suffix_cons '-' _).trans (suffix_append shmNamespace _))

theorem not_both_endings {text : Name} (hlock : lockSuffix <:+ text)
    (hfleet : fleetSuffix <:+ text) : False := by
  rcases suffix_or_suffix_of_suffix hlock hfleet with h | h
  · exact absurd h (by decide)
  · exact absurd h (by decide)

theorem fleet_ends (fleet : Fleet) (uid : UInt32) :
    fleetSuffix <:+ (LockFile.membership fleet uid).text :=
  (suffix_append fleet.name _).trans
    ((suffix_cons '-' _).trans (suffix_append shmNamespace _))

theorem Fleet.ext_name {fleet fleet' : Fleet} (h : fleet.name = fleet'.name) : fleet = fleet' := by
  obtain ⟨name, valid⟩ := fleet
  obtain ⟨name', valid'⟩ := fleet'
  obtain rfl : name = name' := h
  rfl

theorem companion_text_inj
    (h : (LockFile.companion s role).text = (LockFile.companion s' role').text) :
    s = s' ∧ role = role' := by
  have hparts := (List.cons.inj (append_cancel_left h)).2
  obtain ⟨hs, hending⟩ := Segment.parts_inj hparts role.dash_not_mem role'.dash_not_mem
    role.ending_not_digit role'.ending_not_digit
  exact ⟨hs, Role.ending_inj hending⟩

theorem LockFile.text_inj {file file' : LockFile} (h : file.text = file'.text)
    (huid : file.uid = file'.uid) : file = file' := by
  cases file with
  | companion s role =>
    cases file' with
    | companion s' role' =>
      obtain ⟨rfl, rfl⟩ := companion_text_inj h
      rfl
    | membership fleet uid =>
      have hlock := lock_ends s role
      rw [h] at hlock
      exact (not_both_endings hlock (fleet_ends fleet uid)).elim
  | membership fleet uid =>
    cases file' with
    | companion s role =>
      have hlock := lock_ends s role
      rw [← h] at hlock
      exact (not_both_endings hlock (fleet_ends fleet uid)).elim
    | membership fleet' uid' =>
      obtain rfl : uid = uid' := huid
      have hname := append_cancel_right (List.cons.inj (append_cancel_left h)).2
      rw [Fleet.ext_name hname]

theorem LockFile.path_inj {file file' : LockFile} (h : file.path = file'.path) : file = file' := by
  rw [file.path_eq, file'.path_eq] at h
  obtain ⟨hdir, htext⟩ := last_inj h file.slash_not_mem file'.slash_not_mem
  refine LockFile.text_inj htext ?_
  have hdigits : decimal file.uid.toNat = decimal file'.uid.toNat := by
    have hdirs : ∀ uid : UInt32, lockDirForUid uid =
        "/tmp/".toList ++ shmNamespace ++ ['-'] ++ decimal uid.toNat := fun uid => rfl
    rw [hdirs, hdirs] at hdir
    exact append_cancel_left hdir
  exact UInt32.toNat_inj.mp (decimal_inj hdigits)

theorem Segment.name_inj (h : s.name = s'.name) : s = s' := by
  rw [s.name_eq, s'.name_eq] at h
  have hstem := append_cancel_left (List.cons.inj h).2
  have hparts : s.stem ++ [] = s'.stem ++ [] := by
    rw [append_nil, append_nil]
    exact (List.cons.inj hstem).2
  exact (Segment.parts_inj hparts not_mem_nil not_mem_nil (by simp) (by simp)).1

/-- The name of the fleet begins as if it were that of a lane's or a watcher's file of the
segment. -/
def Segment.Begins (s : Segment) (fleet : Fleet) : Prop :=
  s.stem ++ laneInfix <+: fleet.name ∨ s.stem ++ watchInfix <+: fleet.name

theorem isCompanion_iff (s : Segment) (file : LockFile) :
    isCompanion s.name file.text = true ↔ (∃ role, file = .companion s role) ∨
      ∃ s' role, file = .companion s' role ∧ s.Begins s'.fleet := by
  have hshape : isCompanion s.name file.text = true ↔
      file.text = (LockFile.companion s .region).text ∨
        (shmNamespace ++ '-' :: (s.stem ++ laneInfix) <+: file.text ∨
          shmNamespace ++ '-' :: (s.stem ++ watchInfix) <+: file.text) ∧
            lockSuffix <:+ file.text := by
    have hassoc : ∀ more : Name, shmNamespace ++ '-' :: s.stem ++ more =
        shmNamespace ++ '-' :: (s.stem ++ more) := fun more => append_assoc ..
    simp only [isCompanion, s.base_eq, hassoc, Bool.or_eq_true, Bool.and_eq_true, beq_iff_eq,
      isPrefixOf_iff_prefix, isSuffixOf_iff_suffix]
    rfl
  rw [hshape]
  cases file with
  | membership fleet uid =>
    refine iff_of_false ?_ ?_
    · rintro (h | ⟨-, h⟩)
      · exact not_both_endings (h ▸ lock_ends s .region) (fleet_ends fleet uid)
      · exact not_both_endings h (fleet_ends fleet uid)
    · rintro (⟨_, h⟩ | ⟨_, _, h, -⟩) <;> cases h
  | companion s' role =>
    have hstarts : ∀ ending : Name, '-' ∉ ending → ending.head? = some '.' →
        (shmNamespace ++ '-' :: (s.stem ++ ending) <+: (LockFile.companion s' role).text ↔
          s.stem ++ ending <+: s'.fleet.name ∨ s' = s ∧ ending <+: role.ending) := by
      intro ending hdash hdot
      rw [LockFile.text, prefix_append_right_inj, cons_prefix_cons,
        ← starts_cases hdash hdot]
      exact ⟨fun h => h.2, fun h => ⟨rfl, h⟩⟩
    have hends := lock_ends s' role
    rw [hstarts _ (by decide) rfl, hstarts _ (by decide) rfl, lane_starts, watch_starts]
    constructor
    · rintro (h | ⟨(h | ⟨rfl, h⟩) | h | ⟨rfl, h⟩, -⟩)
      · obtain ⟨rfl, rfl⟩ := companion_text_inj h
        exact .inl ⟨.region, rfl⟩
      · exact .inr ⟨s', role, rfl, .inl h⟩
      · exact .inl ⟨role, rfl⟩
      · exact .inr ⟨s', role, rfl, .inr h⟩
      · exact .inl ⟨role, rfl⟩
    · rintro (⟨role', h⟩ | ⟨s'', role', h, hbegins⟩)
      · obtain ⟨rfl, rfl⟩ := LockFile.companion.inj h
        cases role with
        | region => exact .inl rfl
        | lane index => exact .inr ⟨.inl (.inr ⟨rfl, index, rfl⟩), hends⟩
        | watcher slot => exact .inr ⟨.inr (.inr ⟨rfl, slot, rfl⟩), hends⟩
      · obtain ⟨rfl, rfl⟩ := LockFile.companion.inj h
        rcases hbegins with hlane | hwatch
        · exact .inr ⟨.inl (.inl hlane), hends⟩
        · exact .inr ⟨.inr (.inl hwatch), hends⟩

theorem Segment.not_begins_self (s : Segment) : ¬s.Begins s.fleet := by
  have hlength : ∀ more : Name, ¬s.stem ++ more <+: s.fleet.name := by
    intro more hstart
    have hle := hstart.length_le
    simp only [Segment.stem, length_append, length_cons] at hle
    omega
  rintro (h | h)
  · exact hlength _ h
  · exact hlength _ h

/-- The companions of the segment in a directory of lock files are its own files. -/
def Selects (s : Segment) (files : List LockFile) : Prop :=
  ∀ file ∈ files, join (lockDirForUid s.uid) file.entry ∈
      companionLockFiles s.name s.uid (files.map LockFile.entry) ↔
    ∃ role, file = .companion s role

/-- Unlinking the segment removes its own files and leaves every other one. -/
def Spares (s : Segment) (files : List LockFile) : Prop :=
  ∀ file ∈ files, file.entry ∉ unlinkLocks s.name s.uid (files.map LockFile.entry) ↔
    ∃ role, file = .companion s role

/-- No segment with a file among these has a fleet whose name begins as if it were a file of this
one. -/
def Unbegun (s : Segment) (files : List LockFile) : Prop :=
  ∀ s' role, .companion s' role ∈ files → ¬s.Begins s'.fleet

theorem join_entry (uid : UInt32) (file : LockFile) :
    join (lockDirForUid uid) file.entry = lockDirForUid uid ++ '/' :: file.entry := by
  rw [join, if_neg]
  rw [file.entry_eq]
  intro h
  exact file.slash_not_mem (mem_of_mem_head? h)

theorem mem_companions {s : Segment} {files : List LockFile} {file : LockFile} (h : file ∈ files) :
    join (lockDirForUid s.uid) file.entry ∈
        companionLockFiles s.name s.uid (files.map LockFile.entry) ↔
      isCompanion s.name file.text = true := by
  rw [companionLockFiles, List.mem_map]
  constructor
  · rintro ⟨entry, hentry, heq⟩
    obtain ⟨hmem, hcompanion⟩ := mem_filter.mp hentry
    obtain ⟨file', -, rfl⟩ := List.mem_map.mp hmem
    rw [join_entry, join_entry] at heq
    have hsame := (List.cons.inj (append_cancel_left heq)).2
    rw [hsame, file.entry_eq] at hcompanion
    exact hcompanion
  · intro hcompanion
    rw [← file.entry_eq] at hcompanion
    exact ⟨file.entry, mem_filter.mpr ⟨List.mem_map_of_mem h, hcompanion⟩, rfl⟩

theorem not_mem_unlinkLocks {s : Segment} {files : List LockFile} {file : LockFile}
    (h : file ∈ files) :
    file.entry ∉ unlinkLocks s.name s.uid (files.map LockFile.entry) ↔
      isCompanion s.name file.text = true := by
  rw [unlinkLocks, mem_filter, ← mem_companions h, not_and]
  constructor
  · intro hnot
    have hfound := hnot (List.mem_map_of_mem h)
    rw [Bool.not_eq_true', Bool.not_eq_false] at hfound
    exact contains_iff_mem.mp hfound
  · intro hmem _
    rw [contains_iff_mem.mpr hmem]
    exact Bool.false_ne_true

theorem selects_iff {s : Segment} {files : List LockFile} :
    (∀ file ∈ files, isCompanion s.name file.text = true ↔ ∃ role, file = .companion s role) ↔
      Unbegun s files := by
  constructor
  · intro h s' role hmem hbegins
    obtain ⟨role', heq⟩ := (h _ hmem).mp ((isCompanion_iff s _).mpr (.inr ⟨s', role, rfl, hbegins⟩))
    obtain ⟨rfl, -⟩ := LockFile.companion.inj heq
    exact Segment.not_begins_self _ hbegins
  · intro h file hmem
    rw [isCompanion_iff]
    refine or_iff_left ?_
    rintro ⟨s', role, rfl, hbegins⟩
    exact h s' role hmem hbegins

theorem Fleet.validate (fleet : Fleet) : (validateFleet fleet.name).toOption = some () := by
  have hempty : fleet.name.isEmpty = false := isEmpty_eq_false_iff.mpr fleet.nonempty
  have hslash : fleet.name.contains '/' = false :=
    Bool.eq_false_iff.mpr fun h => Fleet.not_mem (by decide) (contains_iff_mem.mp h)
  have hnul : fleet.name.contains '\x00' = false :=
    Bool.eq_false_iff.mpr fun h => Fleet.not_mem (by decide) (contains_iff_mem.mp h)
  rw [validateFleet, hempty, hslash, hnul]
  rfl

theorem dropPrefix_append (start rest : Name) : (start ++ rest).dropPrefix? start = some rest :=
  dropPrefix?_eq_some_iff.mpr ⟨start, rfl, beq_self_eq_true _⟩

theorem dropSuffix_append (rest ending : Name) : (rest ++ ending).dropSuffix? ending = some rest :=
  dropSuffix?_eq_some_iff.mpr ⟨ending, rfl, beq_self_eq_true _⟩

theorem fleetHint_region (s : Segment) :
    fleetHint (LockFile.companion s .region).entry s.uid = some s.fleet.name := by
  have hfleet : (s.stem ++ lockSuffix).dropSuffix? fleetSuffix = none := by
    refine eq_none_iff_forall_ne_some.mpr fun rest h => ?_
    obtain ⟨ending, heq, hbeq⟩ := dropSuffix?_eq_some_iff.mp h
    obtain rfl := beq_iff_eq.mp hbeq
    exact not_both_endings (suffix_append s.stem _) (heq ▸ suffix_append rest _)
  have huid : rsplitOnce '-' s.stem =
      some (s.fleet.name ++ '-' :: decimal s.kind.toNat, decimal s.uid.toNat) :=
    rsplitOnce_append (not_mem_decimal rfl)
  have hkind : rsplitOnce '-' (s.fleet.name ++ '-' :: decimal s.kind.toNat) =
      some (s.fleet.name, decimal s.kind.toNat) := rsplitOnce_append (not_mem_decimal rfl)
  have hparse : parse (2 ^ 8) (decimal s.kind.toNat) = some s.kind.toNat :=
    parse_decimal s.kind.toNat_lt
  have hvalid := s.fleet.validate
  rw [LockFile.entry_eq, LockFile.text, Role.ending, fleetHint, dropPrefix_append]
  have hdash : ('-' :: (s.stem ++ lockSuffix)).dropPrefix? ['-'] =
      some (s.stem ++ lockSuffix) := dropPrefix_append ['-'] _
  simp only [bind_eq_bind, bind_some, hdash, hfleet, dropSuffix_append, huid, hkind,
    hparse, hvalid, ne_eq, not_true_eq_false, if_false]
  rfl

theorem fleetHint_membership (fleet : Fleet) (uid uid' : UInt32) :
    fleetHint (LockFile.membership fleet uid).entry uid' = some fleet.name := by
  have hvalid := fleet.validate
  have hdash : ('-' :: (fleet.name ++ fleetSuffix)).dropPrefix? ['-'] =
      some (fleet.name ++ fleetSuffix) := dropPrefix_append ['-'] _
  rw [LockFile.entry_eq, LockFile.text, fleetHint, dropPrefix_append]
  simp only [bind_eq_bind, bind_some, hdash, dropSuffix_append, hvalid]
  rfl

/-- Different segments and different lock files have different names, and a name hints at its fleet.
What is selected for a segment, or removed with it, is its own files just when no fleet with a file
in the directory has a name that begins as a file of the segment. -/
theorem names_apart (s : Segment) (files : List LockFile) :
    (∀ s' : Segment, s.name = s'.name → s = s') ∧
      (∀ file file' : LockFile, file.path = file'.path → file = file') ∧
      fleetHint (LockFile.companion s .region).entry s.uid = some s.fleet.name ∧
      (∀ (fleet : Fleet) (uid uid' : UInt32),
        fleetHint (LockFile.membership fleet uid).entry uid' = some fleet.name) ∧
      (Selects s files ↔ Unbegun s files) ∧ (Spares s files ↔ Unbegun s files) := by
  refine ⟨fun _ => Segment.name_inj, fun _ _ => LockFile.path_inj, fleetHint_region s,
    fleetHint_membership, ?_, ?_⟩
  · rw [← selects_iff]
    exact forall₂_congr fun file hmem => iff_congr (mem_companions hmem) Iff.rfl
  · rw [← selects_iff]
    exact forall₂_congr fun file hmem => iff_congr (not_mem_unlinkLocks hmem) Iff.rfl

def plainFleet : Fleet := ⟨"a".toList, rfl⟩

def nestedFleet : Fleet := ⟨"a-1-1000.lane0".toList, rfl⟩

theorem nested_lock_removed :
    let live : LockFile := .companion ⟨nestedFleet, 5, 1000⟩ .region
    let removed : Segment := ⟨plainFleet, 1, 1000⟩
    unlinkLocks removed.name removed.uid [live.entry] = [] ∧
      live.path ∈ companionLockFiles removed.name removed.uid [live.entry] := by
  decide

end OrbitShm
