import Orbit.Inbox.Roles
import Mathlib.Data.List.Induction
import Mathlib.Tactic.Abel

/-! The scan of `refuseOtherRole`: what it learns of each lane, whatever the lanes' owners do
meanwhile, and why a conflict it reports is one it saw where no lane changes hands under it. -/

namespace OrbitInbox

open Orbit.Atomic Function
open List hiding Mem

variable {g : Geometry} {P : Prop} {t : Nat} {call : Call} {α : Type}

section

variable {m : Share} {h : History} {mem : Mem Addr} {l stamp : Nat} {id X : Identity}
  {F F' : Identity → Prop}

theorem Inv.sees (hI : Inv g P (ofLane l (saw stamp F) + m) h mem)
    (hF : ∀ s id, (h.lane l).advert = some s → (h.lane l).last = some id → F id → F' id) :
    Inv g P (ofLane l (saw stamp F') + m) h mem := by
  have hlane := hI.lane_at
  obtain ⟨hle, hfact⟩ := hlane.seen
  refine hI.at_words (fun _ _ => rfl) (hlane.unsee.sees hle ?_)
  exact fun s id hs hlt hid => hF s id hs hid (hfact s id hs hlt hid)

theorem History.relook (h : History) (l n : Nat) :
    { h with looking := update h.looking l n,
             asking := update h.asking l (h.asking l) } =
      { h with looking := update h.looking l n } := by
  simp

theorem Inv.look (hI : Inv g P (ofLane l s + m) h mem) (hlast : P → (h.lane l).last = some X) :
    Inv g P (ofLane l (look X + s) + m) (record t (.look l) h) mem := by
  have hlane := hI.lane_at.looks hlast
  rw [← add_assoc] at hlane
  have := hI.at_lane (fun _ _ => rfl) hlane
  rwa [h.relook] at this

theorem Inv.leave (hI : Inv g P (ofLane l (OrbitInbox.look X + s) + m) h mem) :
    Inv g P (ofLane l s + m) (record t (.leave l) h) mem := by
  have hlane := hI.lane_at
  rw [add_assoc] at hlane
  have := hI.at_lane (fun _ _ => rfl) hlane.leaves
  rwa [h.relook] at this

theorem History.reask (h : History) (l n : Nat) :
    { h with looking := update h.looking l (h.looking l),
             asking := update h.asking l n } =
      { h with asking := update h.asking l n } := by
  simp

theorem Inv.ask (hI : Inv g P (ofLane l s + m) h mem)
    (hask : P → (h.lane l).last = some X ∧ mem (.roleLen l) = X.role.length) :
    Inv g P (ofLane l (ask X + s) + m) (record t (.ask l) h) mem := by
  have hlane := hI.lane_at.asks hask
  rw [← add_assoc] at hlane
  have := hI.at_lane (fun _ _ => rfl) hlane
  rwa [h.reask] at this

theorem Inv.answered (hI : Inv g P (ofLane l (OrbitInbox.ask X + s) + m) h mem) :
    (P → (h.lane l).last = some X ∧ mem (.roleLen l) = X.role.length) ∧
      Inv g P (ofLane l s + m) (record t (.answered l) h) mem := by
  have hlane := hI.lane_at
  rw [add_assoc] at hlane
  obtain ⟨hask, hlane⟩ := hlane.answered
  refine ⟨hask, ?_⟩
  have := hI.at_lane (fun _ _ => rfl) hlane
  rwa [h.reask] at this

end

section

variable {l stamp : Nat} {X : Identity} {F : Identity → Prop} {field : Identity → List UInt8}
  {place : Nat → Addr}

/-- What a scan has after some bytes of a field. -/
def reading (l stamp : Nat) (X : Identity) (F : Identity → Prop) (field : Identity → List UInt8)
    (bytes : List UInt8) : Share :=
  ofLane l (look X + saw stamp fun id => F id ∧ (field id).take bytes.length = bytes)

theorem take_append_read {xs bytes : List UInt8} {v : Nat} (hlt : bytes.length < xs.length)
    (htake : xs.take bytes.length = bytes) (hv : v = (xs[bytes.length]).toNat) :
    xs.take (bytes ++ [UInt8.ofNat v]).length = bytes ++ [UInt8.ofNat v] := by
  rw [length_append, length_singleton, take_succ_eq_append_getElem hlt, htake, hv,
    UInt8.ofNat_toNat]

/-- The bytes of a field: exact for whoever advertised the lane before the stamp, and for the
identity looked at while the lane does not change hands. -/
theorem safe_copyOut {n : Nat} (hF : ∀ id, F id → (field id).length = n)
    (hspell : ∀ mem id, id.Spelled (laneWords mem l) → ∀ i (hi : i < (field id).length),
      mem (place i) = ((field id)[i]).toNat) (hX : P → (field X).length = n) :
    Safe (inboxSys g) (undisturbed P) (Inv g P) t call (copyOut place 0 n)
      (fun bytes m' => bytes.length = n ∧ (P → (field X).take bytes.length = bytes) ∧
        m' = reading l stamp X F field bytes)
      (reading l stamp X F field []) := by
  refine Safe.copyOut 0 (reading l stamp X F field) (fun bytes => P → (field X).take bytes.length =
    bytes) (fun bytes others h mem hlt hread hI => ?_) n [] (Nat.zero_add n) fun _ => rfl
  rw [Nat.zero_add]
  have hlane := hI.lane_at
  -- the byte read is the one of any identity published here
  have hbyte : ∀ id, (h.lane l).last = some id → (hlt : bytes.length < (field id).length) →
      mem (place bytes.length) = ((field id)[bytes.length]).toNat := by
    intro id hid hlt
    exact hspell mem id (hlane.written.last id hid).1 _ hlt
  constructor
  · intro hP
    have hlook : (h.lane l).last = some X := by
      rw [add_assoc] at hlane
      exact hlane.looked hP
    have hlt : bytes.length < (field X).length := by
      have := hX hP
      omega
    exact take_append_read hlt (hread hP) (hbyte X hlook hlt)
  · rw [reading, add_comm (OrbitInbox.look X), ofLane_add, add_assoc] at hI ⊢
    refine hI.sees fun s id _ hid hfact => ⟨hfact.1, ?_⟩
    have hlt : bytes.length < (field id).length := by
      have := hF id hfact.1
      omega
    exact take_append_read hlt hfact.2 (hbyte id hid hlt)

end

theorem fits_service {service role : List UInt8} (hfits : checkIdentity service role = .ok ()) :
    service ≠ [] ∧ service.length ≤ laneNameMax := by
  unfold checkIdentity at hfits
  split at hfits
  · cases hfits
  · rename_i h
    push Not at h
    exact h

theorem fits_role {service role : List UInt8} (hfits : checkIdentity service role = .ok ()) :
    role ≠ [] ∧ role.length ≤ laneRoleMax ∧ role.all (· < 128) = true := by
  unfold checkIdentity at hfits
  split at hfits
  · cases hfits
  · split at hfits
    · cases hfits
    · rename_i h
      push Not at h
      exact h

def cleared (stamp : Nat) (id : Identity) (lanes : List Nat) : Share :=
  (lanes.map fun l => ofLane l (saw stamp fun other => ¬id.conflicts other)).sum

def lookedAt (stamp : Nat) (looks : List (Nat × Identity × (Identity → Prop))) : Share :=
  (looks.map fun r => ofLane r.1 (look r.2.1 + saw stamp r.2.2)).sum

theorem cleared_cons (stamp : Nat) (id : Identity) (l : Nat) (lanes : List Nat) :
    cleared stamp id (l :: lanes) =
      ofLane l (saw stamp fun other => ¬id.conflicts other) + cleared stamp id lanes := rfl

theorem lookedAt_cons (stamp : Nat) (r : Nat × Identity × (Identity → Prop))
    (looks : List (Nat × Identity × (Identity → Prop))) :
    lookedAt stamp (r :: looks) = ofLane r.1 (look r.2.1 + saw stamp r.2.2) + lookedAt stamp looks :=
  rfl

section

variable {stamp : Nat} {id : Identity}

theorem safe_serves (hfits : checkIdentity id.service id.role = .ok ()) (l : Nat) :
    Safe (inboxSys g) (undisturbed P) (Inv g P) t call (serves l id.service)
      (fun found m' => if found then ∃ X F, (P → X.service = id.service) ∧
          m' = ofLane l (look X + saw stamp F)
        else m' = ofLane l (saw stamp fun other => ¬id.conflicts other))
      (ofLane l (saw stamp fun _ => True)) := by
  obtain ⟨hne, hmax⟩ := fits_service hfits
  unfold serves
  refine Safe.load_bind fun others h mem hI => ?_
  have hlane := hI.lane_at
  have hadvert : ∀ s other, (h.lane l).advert = some s → (h.lane l).last = some other →
      mem (.serviceLen l) = other.service.length := by
    intro s other hs hother
    obtain ⟨-, other', hother', -, hlen, -⟩ := hlane.written.advert s hs
    rw [hother] at hother'
    cases hother'
    exact hlen
  split
  next hlen =>
    refine ⟨_, hI.sees fun s other hs hother _ hconf => ?_, rfl⟩
    have := hadvert s other hs hother
    rw [← hconf.1] at this
    omega
  next hlen =>
    push Not at hlen
    have hzero : mem (.serviceLen l) ≠ 0 := by
      rw [hlen.1]
      exact fun h0 => hne (length_eq_zero_iff.mp h0)
    obtain ⟨X, hX, hXlen⟩ := hlane.written.named hzero
    have hread : Inv g P (reading l stamp X (fun other => other.service.length = mem (.serviceLen l))
        Identity.service [] + others) (record t (.look l) h) mem := by
      refine Inv.look (hI.sees fun s other hs hother _ => ?_) fun _ => hX
      exact ⟨(hadvert s other hs hother).symm, rfl⟩
    refine Goes.mark_bind ?_
    refine Goes.bind (((safe_copyOut (fun _ hF => hF) (fun mem other hs i hi => hs.service i hi)
      fun _ => hXlen.symm).mono fun name m' hm => ?_).goes hread)
    obtain ⟨hnamelen, hname, rfl⟩ := hm
    by_cases heq : name = id.service
    · rw [if_pos heq]
      refine ⟨X, _, fun hP => ?_, rfl⟩
      rw [← heq, ← hname hP, take_of_length_le (by omega)]
    · rw [if_neg heq]
      intro others' h' mem' hI'
      refine ⟨ofLane l (saw stamp fun other => ¬id.conflicts other),
        (hI'.leave (t := t)).sees fun s other hs hother hfact hconf => heq ?_, rfl⟩
      obtain ⟨hsame, htake⟩ := hfact
      rw [← htake, take_of_length_le (by omega)]
      exact hconf.1.symm

def Serving (P : Prop) (stamp : Nat) (id : Identity) (lanes found : List Nat) (m : Share) : Prop :=
  ∃ clear looks, found = looks.map Prod.fst ∧ (∀ l ∈ lanes, l ∈ clear ∨ l ∈ found) ∧
    (∀ l ∈ found, l ∈ lanes) ∧ (∀ r ∈ looks, P → r.2.1.service = id.service) ∧
    m = cleared stamp id clear + lookedAt stamp looks

theorem safe_serving (hfits : checkIdentity id.service id.role = .ok ()) (lanes : List Nat) :
    Safe (inboxSys g) (undisturbed P) (Inv g P) t call (serving id.service lanes)
      (Serving P stamp id lanes)
      (lanes.map fun l => ofLane l (saw stamp fun _ => True)).sum := by
  induction lanes with
  | nil => exact ⟨[], [], rfl, by simp, by simp, by simp, rfl⟩
  | cons l rest ih =>
    rw [map_cons, sum_cons]
    refine .bind (((safe_serves hfits l).frame _).mono fun found m' hm => ?_)
    obtain ⟨mine, hmine, rfl⟩ := hm
    rw [add_comm]
    refine .bind ((ih.frame _).mono fun others m'' hm => ?_)
    obtain ⟨theirs, ⟨clear, looks, rfl, hall, hsub, hserv, rfl⟩, rfl⟩ := hm
    cases found with
    | true =>
      obtain ⟨X, F, hX, rfl⟩ := hmine
      refine ⟨clear, (l, X, F) :: looks, rfl, ?_, ?_, ?_, ?_⟩
      · intro l' hl'
        rcases mem_cons.mp hl' with rfl | hl'
        · exact .inr (by simp)
        · exact (hall l' hl').imp_right fun hmem => by simp [hmem]
      · intro l' hl'
        rcases mem_cons.mp hl' with rfl | hl'
        · exact mem_cons_self
        · exact mem_cons_of_mem _ (hsub l' hl')
      · intro r hr
        rcases mem_cons.mp hr with rfl | hr
        · exact hX
        · exact hserv r hr
      · rw [lookedAt_cons]
        abel
    | false =>
      refine ⟨l :: clear, looks, rfl, ?_, ?_, hserv, ?_⟩
      · intro l' hl'
        rcases mem_cons.mp hl' with rfl | hl'
        · exact .inl mem_cons_self
        · exact (hall l' hl').imp_left (mem_cons_of_mem _)
      · exact fun l' hl' => mem_cons_of_mem _ (hsub l' hl')
      · have hmine' : mine = ofLane l (saw stamp fun other => ¬id.conflicts other) := hmine
        rw [hmine', cleared_cons]
        abel

end

theorem validUTF8_ascii {bytes : List UInt8} (hascii : bytes.all (· < 128) = true) :
    (ByteArray.mk bytes.toArray).IsValidUTF8 := by
  induction bytes using reverseRecOn with
  | nil => exact ByteArray.isValidUTF8_empty
  | append_singleton bytes byte ih =>
    rw [all_append, Bool.and_eq_true] at hascii
    have hbyte : byte < 128 := by simpa using hascii.2
    have hsize : (Char.ofUInt8 byte).utf8Size = 1 := by
      have hle : (Char.ofUInt8 byte).val ≤ 0x7f := by
        have hlt : byte.toNat < 128 := UInt8.lt_iff_toNat_lt.mp hbyte
        show byte.toUInt32 ≤ 0x7f
        rw [UInt32.le_iff_toNat_le, UInt8.toNat_toUInt32]
        exact Nat.le_of_lt_succ hlt
      simp [Char.utf8Size, hle]
    have hpush := (ih hascii.1).push hsize
    have hchar : (Char.ofUInt8 byte).toUInt8 = byte := by
      show byte.toUInt32.toUInt8 = byte
      simp
    rw [hchar] at hpush
    have heq : (ByteArray.mk (bytes ++ [byte]).toArray) = (ByteArray.mk bytes.toArray).push byte :=
      congrArg ByteArray.mk (push_toArray bytes byte).symm
    rwa [heq]
theorem fromUtf8_role {id : Identity} (hfits : checkIdentity id.service id.role = .ok ()) :
    fromUtf8 id.role = some id.role := by
  have hvalid := ByteArray.validateUTF8_eq_true_iff.mpr (validUTF8_ascii (fits_role hfits).2.2)
  rw [fromUtf8, if_pos hvalid]

theorem fromUtf8_some {bytes role : List UInt8} (h : fromUtf8 bytes = some role) : role = bytes := by
  unfold fromUtf8 at h
  split at h
  · exact (Option.some.inj h).symm
  · cases h

section

variable {stamp : Nat} {id X : Identity}

theorem safe_roleOf (l : Nat) (F : Identity → Prop) :
    Safe (inboxSys g) (undisturbed P) (Inv g P) t call (roleOf l)
      (fun role m' => (P → role = some X.role) ∧ ∃ F', (∀ other, F' other → ∀ r, role = some r →
          other.role = r) ∧ m' = ofLane l (look X + saw stamp F'))
      (ofLane l (ask X + (look X + saw stamp F))) := by
  unfold roleOf
  refine Safe.load_bind fun others h mem hI => Goes.mark_bind ?_
  have hlane := hI.lane_at
  obtain ⟨hask, hanswered⟩ := hI.answered (t := t)
  have hadvert : ∀ s other, (h.lane l).advert = some s → (h.lane l).last = some other →
      mem (.roleLen l) = other.role.length := by
    intro s other hs hother
    obtain ⟨-, other', hother', -, -, hlen⟩ := hlane.written.advert s hs
    rw [hother] at hother'
    cases hother'
    exact hlen
  have hfits : ∀ other, (h.lane l).last = some other →
      checkIdentity other.service other.role = .ok () := fun other hother =>
    (hlane.written.last other hother).1.fits
  split
  next hlen =>
    refine ⟨_, hanswered, fun hP => ?_, F, ?_, rfl⟩
    · obtain ⟨hlast, hX⟩ := hask hP
      obtain ⟨hne, hmax, -⟩ := fits_role (hfits X hlast)
      rw [hX] at hlen
      rcases hlen with hzero | hlong
      · exact absurd (length_eq_zero_iff.mp hzero) hne
      · omega
    · exact fun _ _ r hr => by cases hr
  next hlen =>
    have hread : Inv g P (reading l stamp X (fun other => other.role.length = mem (.roleLen l))
        Identity.role [] + others) (record t (.answered l) h) mem := by
      rw [reading, add_comm (OrbitInbox.look X), ofLane_add, add_assoc]
      rw [add_comm (OrbitInbox.look X), ofLane_add, add_assoc] at hanswered
      exact hanswered.sees fun s other hs hother _ => ⟨(hadvert s other hs hother).symm, rfl⟩
    have hXfits : P → checkIdentity X.service X.role = .ok () := fun hP => hfits X (hask hP).1
    refine Goes.bind (((safe_copyOut (fun _ hF => hF) (fun mem other hs i hi => hs.role i hi)
      fun hP => (hask hP).2.symm).mono fun bytes m' hm => ?_).goes hread)
    obtain ⟨hbyteslen, hbytes, rfl⟩ := hm
    refine ⟨fun hP => ?_, _, ?_, rfl⟩
    · have hexact : bytes = X.role := by
        rw [← hbytes hP, take_of_length_le]
        have := (hask hP).2
        omega
      rw [hexact]
      exact fromUtf8_role (hXfits hP)
    · rintro other ⟨hsame, htake⟩ r hr
      rw [fromUtf8_some hr, ← htake, take_of_length_le (by omega)]

theorem safe_leaveAll (looks : List (Nat × Identity × (Identity → Prop))) :
    Safe (inboxSys g) (undisturbed P) (Inv g P) t call (leaveAll (looks.map Prod.fst))
      (fun _ _ => True) (lookedAt stamp looks) := by
  induction looks with
  | nil => trivial
  | cons r rest ih =>
    intro others h mem hI
    rw [lookedAt_cons, add_assoc] at hI
    have hleft := hI.leave (t := t)
    rw [← add_assoc, add_comm (ofLane _ _)] at hleft
    exact ((ih.frame _).mono fun _ _ _ => trivial).goes hleft

/-- How a scan ends: with every lane of the name cleared but its own, or with a conflict. -/
def Scanned (P : Prop) (t : Nat) (id : Identity) (held : List Nat) (stamp : Nat) (own : Option Nat)
    (lanes : List Nat) : Except Error Unit → Share → Prop
  | .ok (), m => ∃ clear extra, (∀ l ∈ lanes, some l ≠ own → l ∈ clear) ∧
      m = ofCall t (mine id held) + (cleared stamp id clear + extra)
  | .error _, m => ∃ extra, m = ofCall t (mine id held) + (ofCall t (seenIf P) + extra)

variable {held : List Nat} {own : Option Nat} {lanes : List Nat}

theorem Scanned.more {result : Except Error Unit} {m : Share}
    (hm : Scanned P t id held stamp own lanes result m) (extra : Share) :
    Scanned P t id held stamp own lanes result (m + extra) := by
  cases result with
  | ok =>
    obtain ⟨clear, extra', hall, rfl⟩ := hm
    exact ⟨clear, extra' + extra, hall, by abel⟩
  | error =>
    obtain ⟨extra', rfl⟩ := hm
    exact ⟨extra' + extra, by abel⟩

theorem Scanned.cons {result : Except Error Unit} {m : Share} {l : Nat} {F : Identity → Prop}
    (hm : Scanned P t id held stamp own lanes result m)
    (hF : some l = own ∨ F = fun other => ¬id.conflicts other) :
    Scanned P t id held stamp own (l :: lanes) result (m + ofLane l (saw stamp F)) := by
  cases result with
  | error => exact hm.more _
  | ok =>
    obtain ⟨clear, extra, hall, rfl⟩ := hm
    rcases hF with hown | rfl
    · refine ⟨clear, extra + ofLane l (saw stamp F), ?_, by abel⟩
      intro l' hl' hne
      rcases mem_cons.mp hl' with rfl | hl'
      · exact absurd hown hne
      · exact hall l' hl' hne
    · refine ⟨l :: clear, extra, ?_, ?_⟩
      · intro l' hl' hne
        rcases mem_cons.mp hl' with rfl | hl'
        · exact mem_cons_self
        · exact mem_cons_of_mem _ (hall l' hl' hne)
      · rw [cleared_cons]
        abel

theorem safe_refuseFrom (hfits : checkIdentity id.service id.role = .ok ())
    (looks : List (Nat × Identity × (Identity → Prop)))
    (hlooks : ∀ r ∈ looks, r.1 < g.lanes ∧ (P → r.2.1.service = id.service)) :
    Safe (inboxSys g) (undisturbed P) (Inv g P) t call
      (refuseFrom id.service id.role own (looks.map Prod.fst))
      (Scanned P t id held stamp own (looks.map Prod.fst))
      (ofCall t (mine id held) + lookedAt stamp looks) := by
  induction looks with
  | nil => exact ⟨[], 0, by simp, by simp [lookedAt, cleared]⟩
  | cons r rest ih =>
    obtain ⟨l, X, F⟩ := r
    obtain ⟨hlt, hX⟩ := hlooks _ mem_cons_self
    have ih := ih fun r hr => hlooks r (mem_cons_of_mem _ hr)
    have hsplit : ∀ others : Share, ofCall t (mine id held) + lookedAt stamp ((l, X, F) :: rest) +
        others = ofLane l (look X + saw stamp F) +
          (ofCall t (mine id held) + lookedAt stamp rest + others) := by
      intro others
      rw [lookedAt_cons]
      abel
    have hjoin : ∀ (F : Identity → Prop) (others : Share), ofLane l (saw stamp F) +
        (ofCall t (mine id held) + lookedAt stamp rest + others) =
          ofCall t (mine id held) + lookedAt stamp rest + ofLane l (saw stamp F) + others := by
      intro F others
      abel
    rw [map_cons, refuseFrom]
    split
    next hown =>
      intro others h mem hI
      rw [hsplit] at hI
      have hleft := hI.leave (t := t)
      rw [hjoin] at hleft
      refine ((ih.frame _).mono ?_).goes hleft
      rintro result _ ⟨m, hm, rfl⟩
      exact hm.cons (.inl hown)
    next hother =>
      refine Safe.load_bind fun others h mem hI => ?_
      rw [hsplit] at hI
      have hlane := hI.lane_at
      split
      next hfree =>
        have hadvert := hlane.not_advertised hfree
        refine Goes.mark_bind ?_
        have hleft : Inv g P (ofLane l (saw stamp fun other => ¬id.conflicts other) +
            (ofCall t (mine id held) + lookedAt stamp rest + others)) (record t (.leave l) h) mem :=
          (hI.leave (t := t)).sees fun s other hs _ _ => by
            have hs' : (h.lane l).advert = some s := hs
            rw [hadvert] at hs'
            cases hs'
        rw [hjoin] at hleft
        refine ((ih.frame _).mono ?_).goes hleft
        rintro result _ ⟨m, hm, rfl⟩
        exact hm.cons (.inr rfl)
      next hclaimed =>
        -- where the lane cannot change hands, it is the one looked at that is claimed
        have hlast : P → (h.lane l).last = some X := fun hP => by
          rw [add_assoc] at hlane
          exact hlane.looked hP
        have hadvert : P → (h.lane l).advert.isSome = true ∧ mem (.roleLen l) = X.role.length := by
          intro hP
          have hsome := (hlane.written.last X (hlast hP)).2 hclaimed
          obtain ⟨s, hs⟩ := Option.isSome_iff_exists.mp hsome
          obtain ⟨-, X', hX', -, -, hlen⟩ := hlane.written.advert s hs
          rw [hlast hP] at hX'
          cases hX'
          exact ⟨hsome, hlen⟩
        have hasked := hI.ask (t := t) fun hP => ⟨hlast hP, (hadvert hP).2⟩
        have hswap : ∀ s : LaneShare, ofLane l s +
            (ofCall t (mine id held) + lookedAt stamp rest + others) = ofCall t (mine id held) +
              (ofLane l s + lookedAt stamp rest + others) := by
          intro s
          abel
        rw [hswap] at hasked
        have hnoticed := hasked.notices hlt (P ∧ id.conflicts X) fun hc => by
          have h1 : ((record t (.ask l) h).lane l).advert = (h.lane l).advert := rfl
          have h2 : ((record t (.ask l) h).lane l).last = (h.lane l).last := rfl
          simp [LaneLog.opposes, h1, h2, (hadvert hc.1).1, hlast hc.1, hc.2]
        have harrange : ofCall t (seenIf (P ∧ id.conflicts X)) + (ofCall t (mine id held) +
            (ofLane l (ask X + (look X + saw stamp F)) + lookedAt stamp rest + others)) =
            ofLane l (ask X + (look X + saw stamp F)) + (ofCall t (seenIf (P ∧ id.conflicts X)) +
              (ofCall t (mine id held) + lookedAt stamp rest)) + others := by
          abel
        rw [harrange] at hnoticed
        refine Goes.mark_bind (Goes.bind ((((safe_roleOf l F).frame _).mono
          fun role m' hm => ?_).goes hnoticed))
        obtain ⟨m, ⟨hrole, F', hF', rfl⟩, rfl⟩ := hm
        dsimp only
        split
        next hsame =>
          have hsome : role = some id.role := by
            cases role with
            | none => exact absurd hsame.symm (fits_role hfits).1
            | some r => exact congrArg some hsame
          intro others h mem hI
          rw [add_assoc] at hI
          have hleft : Inv g P (ofLane l (saw stamp fun other => ¬id.conflicts other) + _)
              (record t (.leave l) h) mem := hI.leave.sees fun s other _ _ hfact hc =>
            hc.2 (hF' other hfact id.role hsome).symm
          have hjoin' : ofLane l (saw stamp fun other => ¬id.conflicts other) +
              (ofCall t (seenIf (P ∧ id.conflicts X)) +
                (ofCall t (mine id held) + lookedAt stamp rest) + others) =
              ofCall t (mine id held) + lookedAt stamp rest +
                (ofCall t (seenIf (P ∧ id.conflicts X)) +
                  ofLane l (saw stamp fun other => ¬id.conflicts other)) + others := by
            abel
          rw [hjoin'] at hleft
          refine ((ih.frame _).mono fun result m' hm' => ?_).goes hleft
          obtain ⟨m, hm, rfl⟩ := hm'
          rw [add_comm (ofCall t (seenIf _)), ← add_assoc]
          exact (hm.cons (.inr rfl)).more _
        next hdiffers =>
          have hconflict : P → id.conflicts X := fun hP => by
            rw [hrole hP] at hdiffers
            exact ⟨(hX hP).symm, fun heq => hdiffers heq.symm⟩
          have hseen : (P ∧ id.conflicts X) = P :=
            propext ⟨And.left, fun hP => ⟨hP, hconflict hP⟩⟩
          have hlast : ofLane l (look X + saw stamp F') + (ofCall t (seenIf P) +
              (ofCall t (mine id held) + lookedAt stamp rest)) =
              lookedAt stamp ((l, X, F') :: rest) +
                (ofCall t (mine id held) + ofCall t (seenIf P)) := by
            rw [lookedAt_cons]
            abel
          rw [hseen, hlast]
          refine .bind (((safe_leaveAll ((l, X, F') :: rest)).frame _).mono fun _ m' hm => ?_)
          obtain ⟨extra, -, rfl⟩ := hm
          refine .bind (.load fun pid => ⟨extra, ?_⟩)
          abel

theorem safe_refuseOtherRole (hfits : checkIdentity id.service id.role = .ok ()) :
    Safe (inboxSys g) (undisturbed P) (Inv g P) t call
      (refuseOtherRole g id.service id.role own)
      (Scanned P t id held stamp own (range g.lanes))
      (ofCall t (mine id held) +
        ((range g.lanes).map fun l => ofLane l (saw stamp fun _ => True)).sum) := by
  unfold refuseOtherRole
  rw [add_comm]
  refine .bind (((safe_serving hfits _).frame _).mono fun found m' hm => ?_)
  obtain ⟨m, ⟨clear, looks, rfl, hall, hsub, hserv, rfl⟩, rfl⟩ := hm
  rw [add_assoc, add_comm (cleared stamp id clear), add_comm (lookedAt stamp looks)]
  refine ((safe_refuseFrom hfits looks fun r hr => ?_).frame _).mono fun result m' hm => ?_
  · exact ⟨mem_range.mp (hsub r.1 (mem_map_of_mem hr)), hserv r hr⟩
  · obtain ⟨m, hm, rfl⟩ := hm
    cases result with
    | error => exact hm.more _
    | ok =>
      obtain ⟨clear', extra, hfound, rfl⟩ := hm
      refine ⟨clear' ++ clear, extra, ?_, ?_⟩
      · intro l hl hne
        rcases hall l hl with hc | hc
        · exact mem_append_right _ hc
        · exact mem_append_left _ (hfound l hc hne)
      · simp only [cleared, map_append, sum_append]
        abel

end

end OrbitInbox
