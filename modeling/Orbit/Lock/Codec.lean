import Orbit.Lock.Events

/-! The codec of lock events: what is decoded of an encoded transition, and what any frame that is
decoded was encoded from. -/

namespace OrbitLock

open Orbit.Atomic List
open OrbitRing (Frame)

section

variable {l : Layout} {transition : LockTransition} {kind : Nat} {payload : List UInt8} {id : Nat}
  {frame : Frame} {event : LockEvent}

/-- What a transition is given with: its parts are not empty, and its numbers are of 64 bits. -/
structure WellFormed (transition : LockTransition) : Prop where
  namespace_ne : transition.key.nameSpace ≠ []
  label_ne : transition.key.label ≠ []
  owner_ne : transition.owner ≠ []
  lockId_lt : transition.lockId < 2 ^ 64
  acquired_lt : transition.acquiredAtMs < 2 ^ 64
  expires_lt : transition.expiresAtMs < 2 ^ 64
  revision_ne : transition.stateRevision ≠ 0
  times : ∀ lease, transition = .acquired lease ∨ transition = .renewed lease →
    0 < lease.acquiredAtMs ∧ lease.acquiredAtMs < lease.expiresAtMs

/-- The length of each part fits its field. -/
def ShortParts (transition : LockTransition) : Prop :=
  transition.key.nameSpace.length ≤ u16Max ∧ transition.key.label.length ≤ u16Max ∧
    transition.owner.length ≤ u16Max

theorem encode_ok (h : encode l transition = .ok (kind, payload)) :
    transition.key.nameSpace.length + transition.key.label.length + transition.owner.length ≤
      l.payloadMax ∧
    kind = transition.frameKind ∧
    payload = leBytes 4 magic ++ leBytes 1 version ++
      leBytes 2 (transition.key.nameSpace.length % 2 ^ 16) ++
      leBytes 2 (transition.key.label.length % 2 ^ 16) ++
      leBytes 2 (transition.owner.length % 2 ^ 16) ++ leBytes 8 transition.lockId ++
      leBytes 8 transition.acquiredAtMs ++ leBytes 8 transition.expiresAtMs ++
      (transition.key.nameSpace ++ (transition.key.label ++ transition.owner)) := by
  have hlt := l.payload_lt
  unfold encode at h
  dsimp only at h
  split at h
  · cases h
  rename_i hsize
  obtain ⟨rfl, rfl⟩ := Prod.mk.inj (Except.ok.inj h)
  refine ⟨?_, rfl, ?_⟩
  · simp only [saturatingAdd] at hsize
    omega
  · rw [append_assoc, append_assoc]

theorem decode_long (h : encode l transition = .ok (kind, payload))
    (hlong : ¬ShortParts transition) (ver : Nat) : decode l ⟨id, kind, ver, payload⟩ = none := by
  obtain ⟨-, rfl, rfl⟩ := encode_ok h
  generalize hheader : leBytes 4 magic ++ leBytes 1 version ++
    leBytes 2 (transition.key.nameSpace.length % 2 ^ 16) ++
    leBytes 2 (transition.key.label.length % 2 ^ 16) ++
    leBytes 2 (transition.owner.length % 2 ^ 16) ++ leBytes 8 transition.lockId ++
    leBytes 8 transition.acquiredAtMs ++ leBytes 8 transition.expiresAtMs = header
  obtain ⟨hlength, hmagic, hversion, hns, hkl, hol, -⟩ := encode_header
    (transition.key.nameSpace ++ (transition.key.label ++ transition.owner)) hheader.symm
  have hread : ∀ n, leValue (leBytes 2 (n % 2 ^ 16)) = n % 2 ^ 16 := fun n =>
    leValue_leBytes (Nat.mod_lt n (by decide))
  unfold decode
  dsimp only
  rw [hmagic, hversion, hns, hkl, hol, leValue_leBytes (by decide), leValue_leBytes (by decide),
    hread, hread, hread]
  split
  · rfl
  split
  · rfl
  rw [if_pos]
  simp only [length_append, hlength]
  unfold ShortParts u16Max at hlong
  omega

theorem decode_short (h : WellFormed transition) (hshort : ShortParts transition)
    (hencode : encode l transition = .ok (kind, payload)) :
    decode l ⟨id, kind, transition.stateRevision, payload⟩ = some ⟨id, transition⟩ := by
  have hfits : Fits l transition.key transition.owner :=
    ⟨length_pos_iff.mpr h.namespace_ne, length_pos_iff.mpr h.label_ne,
      length_pos_iff.mpr h.owner_ne, hshort.1, hshort.2.1, hshort.2.2, (encode_ok hencode).1⟩
  have hsent : Sent l transition :=
    ⟨hfits, h.lockId_lt, h.acquired_lt, h.expires_lt, Nat.pos_of_ne_zero h.revision_ne,
      fun lease hlease => (h.times lease hlease).2, kind, payload, hencode⟩
  rw [decode_encode hsent hencode, if_pos]
  cases transition with
  | acquired lease => exact .inr (h.times lease (.inl rfl)).1
  | renewed lease => exact .inr (h.times lease (.inr rfl)).1
  | released lockId key owner stateRevision => exact .inl rfl

theorem payload_parts {payload : List UInt8} {namespaceLen keyLen : Nat} (ownerLen : Nat)
    (h : eventHeaderLen + namespaceLen + keyLen + ownerLen = payload.length) :
    payload = slice payload 0 4 ++ slice payload 4 1 ++ slice payload 5 2 ++ slice payload 7 2 ++
      slice payload 9 2 ++ slice payload 11 8 ++ slice payload 19 8 ++ slice payload 27 8 ++
      slice payload eventHeaderLen namespaceLen ++
      slice payload (eventHeaderLen + namespaceLen) keyLen ++
      slice payload (eventHeaderLen + namespaceLen + keyLen) ownerLen := by
  have hend : payload.drop (eventHeaderLen + namespaceLen + keyLen + ownerLen) = [] :=
    drop_eq_nil_of_le (Nat.le_of_eq h.symm)
  rw [← append_nil (slice payload (eventHeaderLen + namespaceLen + keyLen) ownerLen), ← hend]
  simp only [append_assoc]
  calc payload = payload.drop 0 := rfl
    _ = _ := by
      rw [drop_slice payload 0 4, drop_slice payload _ 1, drop_slice payload _ 2,
        drop_slice payload _ 2, drop_slice payload _ 2, drop_slice payload _ 8,
        drop_slice payload _ 8, drop_slice payload _ 8, drop_slice payload _ namespaceLen,
        drop_slice payload _ keyLen, drop_slice payload _ ownerLen]
      rfl

theorem encode_fields (transition : LockTransition) {payload : List UInt8}
    {namespaceLen keyLen ownerLen : Nat}
    (hsize : eventHeaderLen + namespaceLen + keyLen + ownerLen = payload.length)
    (hmagic : leValue (slice payload 0 4) = magic)
    (hversion : leValue (slice payload 4 1) = version)
    (hns : namespaceLen = leValue (slice payload 5 2)) (hkl : keyLen = leValue (slice payload 7 2))
    (hol : ownerLen = leValue (slice payload 9 2))
    (hfits : namespaceLen + keyLen + ownerLen ≤ l.payloadMax)
    (hring : payload.length ≤ l.eventRingPayload)
    (hkey : transition.key = ⟨slice payload eventHeaderLen namespaceLen,
      slice payload (eventHeaderLen + namespaceLen) keyLen⟩)
    (howner : transition.owner =
      slice payload (eventHeaderLen + namespaceLen + keyLen) ownerLen)
    (hid : transition.lockId = leValue (slice payload 11 8))
    (hacquired : transition.acquiredAtMs = leValue (slice payload 19 8))
    (hexpires : transition.expiresAtMs = leValue (slice payload 27 8)) :
    encode l transition = .ok (transition.frameKind, payload) := by
  have hheader : 35 ≤ payload.length := by
    unfold eventHeaderLen at hsize
    omega
  have hmod : ∀ {n offset : Nat}, n = leValue (slice payload offset 2) → offset + 2 ≤ 35 →
      n % 2 ^ 16 = n := by
    intro n offset hn hoffset
    have hlt := leValue_lt (slice payload offset 2)
    rw [slice_length (by omega), ← hn] at hlt
    exact Nat.mod_eq_of_lt hlt
  unfold encode
  dsimp only
  rw [hkey, howner, hid, hacquired, hexpires, slice_length (by omega), slice_length (by omega),
    slice_length (by omega), if_neg, hmod hns (by decide), hmod hkl (by decide),
    hmod hol (by decide), ← hmagic, ← hversion]
  · have hlens : leBytes 2 namespaceLen = slice payload 5 2 ∧
        leBytes 2 keyLen = slice payload 7 2 ∧ leBytes 2 ownerLen = slice payload 9 2 := by
      rw [hns, hkl, hol]
      exact ⟨leBytes_slice (by omega), leBytes_slice (by omega), leBytes_slice (by omega)⟩
    rw [hlens.1, hlens.2.1, hlens.2.2]
    simp (disch := omega) only [leBytes_slice]
    rw [← payload_parts ownerLen hsize]
  · unfold eventHeaderLen at hsize ⊢
    simp only [saturatingAdd]
    omega

theorem encode_decode (h : decode l frame = some event)
    (hring : frame.payload.length ≤ l.eventRingPayload) :
    encode l event.transition = .ok (frame.kind, frame.payload) := by
  have hpayload := l.payload_lt
  unfold decode at h
  split at h
  · cases h
  split at h
  · cases h
  rename_i hmagic
  dsimp only at h
  split at h
  · cases h
  rename_i hchecks
  simp only [not_or, Decidable.not_not] at hmagic hchecks
  obtain ⟨-, -, -, hsize, hsum, -⟩ := hchecks
  have hfits : leValue (slice frame.payload 5 2) + leValue (slice frame.payload 7 2) +
      leValue (slice frame.payload 9 2) ≤ l.payloadMax := by
    simp only [saturatingAdd] at hsum
    omega
  have hfields := fun transition => encode_fields (l := l) transition hsize hmagic.1
    hmagic.2 rfl rfl rfl hfits hring
  split at h
  · rename_i htimes
    split at h
    · rename_i hkind
      cases h
      rw [hkind]
      exact hfields _ rfl rfl rfl rfl rfl
    · rename_i hkind
      cases h
      rw [htimes.1.resolve_left hkind]
      exact hfields _ rfl rfl rfl rfl rfl
  split at h
  · rename_i hkind
    cases h
    rw [hkind.1]
    exact hfields _ rfl rfl rfl hkind.2.1.symm hkind.2.2.symm
  · cases h

/-- What a layout decodes does not depend on the room in its ring. -/
def Layout.withRing (l : Layout) (eventRingPayload : Nat) : Layout := { l with eventRingPayload }

/-- The codec.  A transition whose parts are short is decoded as it was encoded, and no other is; a
frame that is decoded is encoded again as it was, so that a transition comes from one payload. -/
theorem codec_round_trip (l : Layout) :
    (∀ transition kind payload id, WellFormed transition →
      encode l transition = .ok (kind, payload) →
      (decode l ⟨id, kind, transition.stateRevision, payload⟩ = some ⟨id, transition⟩ ↔
        ShortParts transition)) ∧
    (∀ frame event, decode l frame = some event → frame.payload.length ≤ l.eventRingPayload →
      encode l event.transition = .ok (frame.kind, frame.payload)) ∧
    ∀ frame frame' event event', decode l frame = some event → decode l frame' = some event' →
      event.transition = event'.transition →
      frame.kind = frame'.kind ∧ frame.payload = frame'.payload := by
  refine ⟨fun transition kind payload id hformed hencode => ⟨fun hdecode => ?_, fun hshort =>
    decode_short hformed hshort hencode⟩, fun frame event => encode_decode, ?_⟩
  · by_contra hlong
    rw [decode_long hencode hlong] at hdecode
    cases hdecode
  · intro frame frame' event event' hdecode hdecode' heq
    -- in a ring with room for both payloads
    have hfirst := encode_decode
      (l := l.withRing (frame.payload.length + frame'.payload.length)) hdecode
      (Nat.le_add_right _ _)
    have hsecond := encode_decode
      (l := l.withRing (frame.payload.length + frame'.payload.length)) hdecode'
      (Nat.le_add_left _ _)
    rw [heq, hsecond] at hfirst
    obtain ⟨hkind, hpayload⟩ := Prod.mk.inj (Except.ok.inj hfirst)
    exact ⟨hkind.symm, hpayload.symm⟩

theorem u17_pos : 0 < 2 ^ 17 := by decide

theorem u17_lt : 2 ^ 17 < 2 ^ 32 := by decide

def Layout.long : Layout where
  capacity := 4
  payloadMax := 2 ^ 17
  stateKind := 1
  eventRingKind := 2
  eventRingCapacity := 8
  eventRingPayload := 2 ^ 18
  capacity_pow := Layout.sample.capacity_pow
  capacity_le := Layout.sample.capacity_le
  payload_pos := u17_pos
  payload_lt := u17_lt
  stateKind_lt := Layout.sample.stateKind_lt
  eventRingKind_lt := Layout.sample.eventRingKind_lt

/-- A release of a lock whose namespace has 65536 bytes. -/
def longTransition : LockTransition := .released 1 ⟨replicate (2 ^ 16) 7, [7]⟩ [7] 1

/-- It is encoded, and its frame is not decoded. -/
theorem codec_round_trip_long :
    WellFormed longTransition ∧ ∃ kind payload, encode .long longTransition = .ok (kind, payload) ∧
      decode .long ⟨0, kind, longTransition.stateRevision, payload⟩ ≠ some ⟨0, longTransition⟩ := by
  have hlength : longTransition.key.nameSpace.length = 2 ^ 16 := length_replicate
  have hformed : WellFormed longTransition := by
    refine ⟨fun hnil => ?_, cons_ne_nil _ _, cons_ne_nil _ _, by decide, by decide,
      by decide, by decide, ?_⟩
    · rw [hnil] at hlength
      cases hlength
    · rintro lease (⟨⟨⟩⟩ | ⟨⟨⟩⟩)
  have hencode : ∃ payload, encode .long longTransition = .ok (3, payload) := by
    unfold encode
    dsimp only
    rw [hlength, if_neg (by decide)]
    exact ⟨_, rfl⟩
  obtain ⟨payload, hencode⟩ := hencode
  refine ⟨hformed, 3, payload, hencode, ?_⟩
  rw [decode_long hencode]
  · rintro ⟨⟩
  · intro hshort
    have hle := hshort.1
    rw [hlength] at hle
    exact absurd hle (by decide)

def shortTransition : LockTransition := .released 1 ⟨[1], [2]⟩ [3] 4

/-- A release in a ring of small frames. -/
theorem codec_round_trip_sample :
    ∃ kind payload, encode .sample shortTransition = .ok (kind, payload) ∧
      decode .sample ⟨0, kind, 4, payload⟩ = some ⟨0, shortTransition⟩ ∧
      encode .sample shortTransition = .ok (kind, payload) := by
  have hformed : WellFormed shortTransition := by
    refine ⟨cons_ne_nil _ _, cons_ne_nil _ _, cons_ne_nil _ _, by decide, by decide,
      by decide, by decide, ?_⟩
    rintro lease (⟨⟨⟩⟩ | ⟨⟨⟩⟩)
  have hencode : ∃ payload, encode .sample shortTransition = .ok (3, payload) ∧
      payload.length = 38 := ⟨_, rfl, rfl⟩
  obtain ⟨payload, hencode, hlength⟩ := hencode
  obtain ⟨hround, hback, -⟩ := codec_round_trip .sample
  have hdecode := (hround shortTransition 3 payload 0 hformed hencode).mpr (by
    unfold ShortParts
    decide)
  refine ⟨3, payload, hencode, hdecode, hback ⟨0, 3, 4, payload⟩ ⟨0, shortTransition⟩ hdecode ?_⟩
  rw [hlength]
  decide

end

end OrbitLock
