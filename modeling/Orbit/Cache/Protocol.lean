import Orbit.Atomic.Buffer
import Orbit.Cache.World

/-! The bytes of a mutation in the ring: one header for the three kinds, the store and the key. -/

namespace OrbitCache

open Orbit.Atomic List Option

def protocolVersion : UInt8 := 3
def frameKindPut : UInt8 := 1
def frameKindDelete : UInt8 := 2
def frameKindReset : UInt8 := 3

/-- One frame of the mutation ring. -/
structure Frame where
  kind : UInt8
  ver : Nat
  id : Nat
  payload : List UInt8
  deriving DecidableEq, Repr

/-! An arena address is one number: its generation over the 32 bits of its slot. -/

def addressOf (slot generation : Nat) : Nat := generation * 2 ^ 32 + slot

def PayloadRef.slot (payload : PayloadRef) : Nat := payload.address % 2 ^ 32

def PayloadRef.generation (payload : PayloadRef) : Nat := payload.address / 2 ^ 32

/-- The version, the two lengths, the expiry, the slot, the generation and the value's length. -/
def mutationHeader (storeLen keyLen expiresAtMs slot generation valueLen : Nat) : List UInt8 :=
  [protocolVersion] ++ leBytes 2 storeLen ++ leBytes 2 keyLen ++ leBytes 8 expiresAtMs ++
    leBytes 4 slot ++ leBytes 8 generation ++ leBytes 8 valueLen

def encodePut (layout : CacheLayout) (store key : Key) (expiresAtMs : Option Nat)
    (payload : PayloadRef) : Except Error (List UInt8) := do
  validateKey layout store key
  return mutationHeader store.length key.length (expiresAtMs.getD 0) payload.slot
    payload.generation payload.valueLen ++ store ++ key

def encodeDelete (layout : CacheLayout) (store key : Key) : Except Error (List UInt8) := do
  validateKey layout store key
  return mutationHeader store.length key.length 0 0 0 0 ++ store ++ key

def encodeReset (layout : CacheLayout) (store : Key) : Except Error (List UInt8) := do
  validateStore layout store
  return mutationHeader store.length 0 0 0 0 0 ++ store

def Draft.encode (layout : CacheLayout) : Draft → Except Error (List UInt8)
  | put store key expiresAtMs payload => encodePut layout store key expiresAtMs payload
  | delete store key => encodeDelete layout store key
  | reset store => encodeReset layout store

def Draft.kind : Draft → UInt8
  | put _ _ _ _ => frameKindPut
  | delete _ _ => frameKindDelete
  | reset _ => frameKindReset

inductive Panic where
  | outOfRange (start stop length : Nat)
  deriving DecidableEq, Repr

/-- `bytes[start..stop]`, which panics where there are no such bytes. -/
def byteRange (bytes : List UInt8) (start stop : Nat) : Except Panic (List UInt8) :=
  if start ≤ stop ∧ stop ≤ bytes.length then .ok (slice bytes start (stop - start))
  else .error (.outOfRange start stop bytes.length)

def mutationOf (slots : Nat) (kind : UInt8) (revision : CacheRevision) (store key : Key)
    (expiresAtMs slot generation valueLen : Nat) : Option CacheMutation :=
  if kind = frameKindPut ∧ store.length > 0 ∧ key.length > 0 ∧ generation > 0 ∧ slot < slots ∧
      valueLen ≤ 2 ^ 64 - 1 then
    some (.put store key revision (if expiresAtMs ≠ 0 then some expiresAtMs else none)
      ⟨addressOf slot generation, valueLen⟩)
  else if kind = frameKindDelete ∧ store.length > 0 ∧ key.length > 0 ∧ expiresAtMs = 0 ∧
      slot = 0 ∧ generation = 0 ∧ valueLen = 0 then
    some (.delete store key revision)
  else if kind = frameKindReset ∧ store.length > 0 ∧ key.length = 0 ∧ expiresAtMs = 0 ∧
      slot = 0 ∧ generation = 0 ∧ valueLen = 0 then
    some (.reset store revision)
  else none

/-- `decode`, for an arena of `slots` slots. -/
def Frame.decode (slots : Nat) (frame : Frame) : Except Panic (Option CacheMutation) := do
  if frame.payload.length < minMutationHeaderLen ∨ byteAt frame.payload 0 ≠ protocolVersion then
    return none
  let storeLen := leValue (← byteRange frame.payload 1 3)
  let keyLen := leValue (← byteRange frame.payload 3 5)
  let expiresAtMs := leValue (← byteRange frame.payload 5 13)
  let slot := leValue (← byteRange frame.payload 13 17)
  let generation := leValue (← byteRange frame.payload 17 25)
  let valueLen := leValue (← byteRange frame.payload 25 33)
  let storeEnd := minMutationHeaderLen + storeLen
  let keyEnd := storeEnd + keyLen
  if keyEnd ≠ frame.payload.length then return none
  let store ← byteRange frame.payload minMutationHeaderLen storeEnd
  let key ← byteRange frame.payload storeEnd keyEnd
  return mutationOf slots frame.kind ⟨frame.ver, frame.id⟩ store key expiresAtMs slot generation
    valueLen

variable {layout : CacheLayout} {slots : Nat} {frame : Frame} {draft : Draft}

/-- The bytes of a mutation, whatever the capacity of a frame. -/
def Draft.bytes : Draft → List UInt8
  | put store key expiresAtMs payload =>
    mutationHeader store.length key.length (expiresAtMs.getD 0) payload.slot payload.generation
      payload.valueLen ++ store ++ key
  | delete store key => mutationHeader store.length key.length 0 0 0 0 ++ store ++ key
  | reset store => mutationHeader store.length 0 0 0 0 0 ++ store

def Draft.toFrame (draft : Draft) (revision : CacheRevision) : Frame :=
  ⟨draft.kind, revision.sequence, revision.mutationId, draft.bytes⟩

def Draft.validate (layout : CacheLayout) : Draft → Except Error Unit
  | put store key _ _ | delete store key => validateKey layout store key
  | reset store => validateStore layout store

/-- A body of the arena, and an expiry of a field. -/
def Draft.InRange (slots : Nat) : Draft → Prop
  | put _ _ expiresAtMs payload =>
    (∀ deadline ∈ expiresAtMs, 0 < deadline ∧ deadline < 2 ^ 64) ∧
      (0 < payload.generation ∧ payload.generation < 2 ^ 64) ∧ payload.slot < slots ∧
      payload.valueLen < 2 ^ 64
  | delete _ _ => True
  | reset _ => True

/-- The lengths of the names fit 16 bits, and no name is empty that has to be there. -/
def Draft.Named : Draft → Prop
  | put store key _ _ | delete store key =>
    (0 < store.length ∧ store.length < 2 ^ 16) ∧ 0 < key.length ∧ key.length < 2 ^ 16
  | reset store => 0 < store.length ∧ store.length < 2 ^ 16

theorem mutationHeader_length (storeLen keyLen expiresAtMs slot generation valueLen : Nat) :
    (mutationHeader storeLen keyLen expiresAtMs slot generation valueLen).length =
      minMutationHeaderLen := by
  simp [mutationHeader, leBytes_length, minMutationHeaderLen]

theorem byteRange_ok {bytes : List UInt8} {start n : Nat} (h : start + n ≤ bytes.length) :
    byteRange bytes start (start + n) = .ok (slice bytes start n) := by
  rw [byteRange, if_pos ⟨Nat.le_add_right _ _, h⟩, Nat.add_sub_cancel_left]

theorem Frame.decode_long (hlen : minMutationHeaderLen ≤ frame.payload.length)
    (hversion : byteAt frame.payload 0 = protocolVersion) :
    frame.decode slots = .ok (
      let storeLen := leValue (slice frame.payload 1 2)
      let keyLen := leValue (slice frame.payload 3 2)
      if minMutationHeaderLen + storeLen + keyLen ≠ frame.payload.length then none
      else mutationOf slots frame.kind ⟨frame.ver, frame.id⟩
        (slice frame.payload minMutationHeaderLen storeLen)
        (slice frame.payload (minMutationHeaderLen + storeLen) keyLen)
        (leValue (slice frame.payload 5 8)) (leValue (slice frame.payload 13 4))
        (leValue (slice frame.payload 17 8)) (leValue (slice frame.payload 25 8))) := by
  have hshort : ¬(frame.payload.length < minMutationHeaderLen ∨
      byteAt frame.payload 0 ≠ protocolVersion) := by
    rintro (hlt | hne)
    · exact Nat.not_lt.mpr hlen hlt
    · exact hne hversion
  have hrange : ∀ start n, start + n ≤ 33 →
      byteRange frame.payload start (start + n) = .ok (slice frame.payload start n) :=
    fun start n h => byteRange_ok (Nat.le_trans h hlen)
  have h1 : byteRange frame.payload 1 3 = _ := hrange 1 2 (by decide)
  have h2 : byteRange frame.payload 3 5 = _ := hrange 3 2 (by decide)
  have h3 : byteRange frame.payload 5 13 = _ := hrange 5 8 (by decide)
  have h4 : byteRange frame.payload 13 17 = _ := hrange 13 4 (by decide)
  have h5 : byteRange frame.payload 17 25 = _ := hrange 17 8 (by decide)
  have h6 : byteRange frame.payload 25 33 = _ := hrange 25 8 (by decide)
  unfold Frame.decode
  rw [if_neg hshort, h1, h2, h3, h4, h5, h6]
  change (if minMutationHeaderLen + leValue (slice frame.payload 1 2) +
    leValue (slice frame.payload 3 2) ≠ frame.payload.length then _ else _) = _
  dsimp only
  split
  next => rfl
  next heq =>
    have hend := not_not.mp heq
    rw [byteRange_ok (hend ▸ Nat.le_add_right _ _), byteRange_ok (Nat.le_of_eq hend)]
    rfl

theorem slice_mutationHeader (storeLen keyLen expiresAtMs slot generation valueLen : Nat)
    (rest : List UInt8) :
    let bytes := mutationHeader storeLen keyLen expiresAtMs slot generation valueLen ++ rest
    byteAt bytes 0 = protocolVersion ∧ slice bytes 1 2 = leBytes 2 storeLen ∧
      slice bytes 3 2 = leBytes 2 keyLen ∧ slice bytes 5 8 = leBytes 8 expiresAtMs ∧
      slice bytes 13 4 = leBytes 4 slot ∧ slice bytes 17 8 = leBytes 8 generation ∧
      slice bytes 25 8 = leBytes 8 valueLen := by
  refine ⟨rfl, ?_, ?_, ?_, ?_, ?_, ?_⟩
  all_goals
    simp [slice, mutationHeader, drop_append, leBytes_length, drop_of_length_le]

theorem slice_append (bytes : List UInt8) (offset n n' : Nat) :
    slice bytes offset (n + n') = slice bytes offset n ++ slice bytes (offset + n) n' := by
  rw [slice, slice, slice, ← drop_drop, take_add]

theorem slice_length_left (bytes rest : List UInt8) :
    slice (bytes ++ rest) 0 bytes.length = bytes := by
  rw [slice, drop_zero, take_left]

theorem slice_after (bytes rest : List UInt8) (offset n : Nat) :
    slice (bytes ++ rest) (bytes.length + offset) n = slice rest offset n := by
  rw [slice, slice, ← drop_drop, drop_left]

theorem Frame.decode_header {kind : UInt8} {ver id expiresAtMs slot generation valueLen : Nat}
    {store key : Key} (hstore : store.length < 2 ^ 16) (hkey : key.length < 2 ^ 16)
    (hexpires : expiresAtMs < 2 ^ 64) (hslot : slot < 2 ^ 32) (hgeneration : generation < 2 ^ 64)
    (hvalue : valueLen < 2 ^ 64) :
    decode slots ⟨kind, ver, id, mutationHeader store.length key.length expiresAtMs slot generation
      valueLen ++ store ++ key⟩ =
      .ok (mutationOf slots kind ⟨ver, id⟩ store key expiresAtMs slot generation valueLen) := by
  have hheader := mutationHeader_length store.length key.length expiresAtMs slot generation valueLen
  obtain ⟨h0, h1, h2, h3, h4, h5, h6⟩ := slice_mutationHeader store.length key.length expiresAtMs
    slot generation valueLen (store ++ key)
  rw [append_assoc]
  generalize mutationHeader store.length key.length expiresAtMs slot generation valueLen = header
    at *
  have hlen : (header ++ (store ++ key)).length =
      minMutationHeaderLen + store.length + key.length := by
    rw [length_append, length_append, hheader, Nat.add_assoc]
  have hs : slice (header ++ (store ++ key)) minMutationHeaderLen store.length = store := by
    have hafter := slice_after header (store ++ key) 0 store.length
    rwa [hheader, Nat.add_zero, slice_length_left] at hafter
  have hk : slice (header ++ (store ++ key)) (minMutationHeaderLen + store.length) key.length =
      key := by
    have hafter := slice_after header (store ++ key) store.length key.length
    have hnil := slice_length_left key []
    rw [append_nil] at hnil
    rw [hheader] at hafter
    rw [hafter, ← Nat.add_zero store.length, slice_after, hnil]
  rw [decode_long (by rw [hlen, Nat.add_assoc]; exact Nat.le_add_right _ _) h0]
  dsimp only
  rw [h1, h2, h3, h4, h5, h6, leValue_leBytes hstore, leValue_leBytes hkey,
    leValue_leBytes hexpires, leValue_leBytes hslot, leValue_leBytes hgeneration, leValue_leBytes hvalue, hs, hk,
    if_neg (not_not.mpr hlen.symm)]

theorem PayloadRef.addressOf_slot (payload : PayloadRef) :
    addressOf payload.slot payload.generation = payload.address := by
  simp only [addressOf, slot, generation]
  omega

theorem Draft.decode_toFrame (hnamed : draft.Named) (hrange : draft.InRange slots)
    (revision : CacheRevision) :
    (draft.toFrame revision).decode slots = .ok (some (draft.mutation revision)) := by
  cases draft with
  | put store key expiresAtMs payload =>
    obtain ⟨⟨hstore, hstore'⟩, hkey, hkey'⟩ := hnamed
    obtain ⟨hexpires, ⟨hgeneration, hgeneration'⟩, hslot, hvalue⟩ := hrange
    have hdeadline : expiresAtMs.getD 0 < 2 ^ 64 := by
      cases expiresAtMs with
      | none => decide
      | some deadline => exact (hexpires deadline rfl).2
    have hback : (if expiresAtMs.getD 0 ≠ 0 then some (expiresAtMs.getD 0) else none) =
        expiresAtMs := by
      cases expiresAtMs with
      | none => rfl
      | some deadline => exact if_pos (Nat.ne_of_gt (hexpires deadline rfl).1)
    have hslot' : payload.slot < 2 ^ 32 := Nat.mod_lt _ (by decide)
    rw [toFrame, bytes, Frame.decode_header hstore' hkey' hdeadline hslot' hgeneration' hvalue,
      mutationOf, if_pos ⟨rfl, hstore, hkey, hgeneration, hslot, Nat.le_sub_one_of_lt hvalue⟩,
      hback, payload.addressOf_slot]
    rfl
  | delete store key =>
    obtain ⟨⟨hstore, hstore'⟩, hkey, hkey'⟩ := hnamed
    have hkind : frameKindDelete ≠ frameKindPut := by decide
    rw [toFrame, bytes, Frame.decode_header hstore' hkey' (by decide) (by decide) (by decide)
      (by decide), mutationOf, if_neg (fun hput => hkind hput.1),
      if_pos ⟨rfl, hstore, hkey, rfl, rfl, rfl, rfl⟩]
    rfl
  | reset store =>
    obtain ⟨hstore, hstore'⟩ := hnamed
    have hkind : frameKindReset ≠ frameKindPut ∧ frameKindReset ≠ frameKindDelete := by decide
    have hheader : Frame.decode slots ⟨frameKindReset, revision.sequence, revision.mutationId,
        mutationHeader store.length ([] : Key).length 0 0 0 0 ++ store ++ []⟩ =
          .ok (mutationOf slots frameKindReset revision store [] 0 0 0 0) :=
      Frame.decode_header hstore' (by decide) (by decide) (by decide) (by decide) (by decide)
    rw [append_nil] at hheader
    rw [toFrame, bytes]
    refine hheader.trans ?_
    rw [mutationOf, if_neg (fun hput => hkind.1 hput.1), if_neg (fun hdelete => hkind.2 hdelete.1),
      if_pos ⟨rfl, hstore, rfl, rfl, rfl, rfl, rfl⟩]
    rfl

theorem mutationHeader_slice {bytes : List UInt8} (hlen : minMutationHeaderLen ≤ bytes.length)
    (hversion : byteAt bytes 0 = protocolVersion) :
    mutationHeader (leValue (slice bytes 1 2)) (leValue (slice bytes 3 2))
      (leValue (slice bytes 5 8)) (leValue (slice bytes 13 4)) (leValue (slice bytes 17 8))
      (leValue (slice bytes 25 8)) = slice bytes 0 minMutationHeaderLen := by
  have hin : ∀ offset n, offset + n ≤ 33 → offset + n ≤ bytes.length := fun offset n h =>
    Nat.le_trans h hlen
  have hfirst : [protocolVersion] = slice bytes 0 1 := by
    obtain ⟨byte, hbyte⟩ := length_eq_one_iff.mp (slice_length (hin 0 1 (by decide)))
    rw [byteAt, hbyte, headD_cons] at hversion
    rw [hbyte, hversion]
  rw [mutationHeader, leBytes_slice (hin 1 2 (by decide)), leBytes_slice (hin 3 2 (by decide)),
    leBytes_slice (hin 5 8 (by decide)), leBytes_slice (hin 13 4 (by decide)),
    leBytes_slice (hin 17 8 (by decide)), leBytes_slice (hin 25 8 (by decide)), hfirst]
  rw [← slice_append bytes 0 1 2, ← slice_append bytes 0 (1 + 2) 2,
    ← slice_append bytes 0 (1 + 2 + 2) 8, ← slice_append bytes 0 (1 + 2 + 2 + 8) 4, ← slice_append bytes 0 (1 + 2 + 2 + 8 + 4) 8,
    ← slice_append bytes 0 (1 + 2 + 2 + 8 + 4 + 8) 8]
  rfl

theorem draft_of_mutationOf {kind : UInt8} {revision : CacheRevision} {store key : Key}
    {expiresAtMs slot generation valueLen : Nat} {m : CacheMutation}
    (hstore : store.length < 2 ^ 16) (hkey : key.length < 2 ^ 16) (hexpires : expiresAtMs < 2 ^ 64)
    (hslot : slot < 2 ^ 32) (hgeneration : generation < 2 ^ 64)
    (h : mutationOf slots kind revision store key expiresAtMs slot generation valueLen = some m) :
    ∃ draft : Draft, draft.mutation revision = m ∧ draft.kind = kind ∧
      draft.bytes = mutationHeader store.length key.length expiresAtMs slot generation valueLen ++
        store ++ key ∧ draft.Named ∧ draft.InRange slots := by
  unfold mutationOf at h
  split at h
  next hput =>
    obtain ⟨rfl, hstore', hkey', hgeneration', hslots, hvalue⟩ := hput
    cases h
    have hexpiry : (if expiresAtMs ≠ 0 then some expiresAtMs else none).getD 0 = expiresAtMs := by
      split
      next => rfl
      next hzero => exact (not_not.mp hzero).symm
    have hslot' : PayloadRef.slot ⟨addressOf slot generation, valueLen⟩ = slot := by
      simp only [PayloadRef.slot, addressOf]
      omega
    have hgeneration'' :
        PayloadRef.generation ⟨addressOf slot generation, valueLen⟩ = generation := by
      simp only [PayloadRef.generation, addressOf]
      omega
    refine ⟨.put store key (if expiresAtMs ≠ 0 then some expiresAtMs else none)
      ⟨addressOf slot generation, valueLen⟩, rfl, rfl, ?_, ⟨⟨hstore', hstore⟩, hkey', hkey⟩, ?_⟩
    · rw [Draft.bytes, hexpiry, hslot', hgeneration'']
    · refine ⟨fun deadline hdeadline => ?_, ?_, ?_, Nat.lt_of_le_of_lt hvalue (by decide)⟩
      · obtain ⟨hne, hsome⟩ := ite_none_right_eq_some.mp hdeadline
        obtain rfl := Option.some.inj hsome
        exact ⟨Nat.pos_of_ne_zero hne, hexpires⟩
      · rw [hgeneration'']
        exact ⟨hgeneration', hgeneration⟩
      · rw [hslot']
        exact hslots
  next =>
  split at h
  next hdelete =>
    obtain ⟨rfl, hstore', hkey', rfl, rfl, rfl, rfl⟩ := hdelete
    cases h
    exact ⟨.delete store key, rfl, rfl, rfl, ⟨⟨hstore', hstore⟩, hkey', hkey⟩, trivial⟩
  next =>
    obtain ⟨⟨rfl, hstore', hkey', rfl, rfl, rfl, rfl⟩, hm⟩ := ite_none_right_eq_some.mp h
    cases hm
    obtain rfl := length_eq_zero_iff.mp hkey'
    exact ⟨.reset store, rfl, rfl, (append_nil _).symm, ⟨hstore', hstore⟩, trivial⟩

theorem Frame.decode_canonical (slots : Nat) (frame : Frame) :
    frame.decode slots = .ok none ∨ ∃ draft : Draft, draft.Named ∧ draft.InRange slots ∧
      draft.toFrame ⟨frame.ver, frame.id⟩ = frame ∧
      frame.decode slots = .ok (some (draft.mutation ⟨frame.ver, frame.id⟩)) := by
  by_cases hlen : minMutationHeaderLen ≤ frame.payload.length
  · by_cases hversion : byteAt frame.payload 0 = protocolVersion
    · rw [frame.decode_long hlen hversion]
      dsimp only
      split
      next => exact .inl rfl
      next heq =>
        have heq := not_not.mp heq
        have hin : ∀ offset n, offset + n ≤ 33 → (slice frame.payload offset n).length = n :=
          fun offset n h => slice_length (Nat.le_trans h hlen)
        have hlt : ∀ offset n, offset + n ≤ 33 →
            leValue (slice frame.payload offset n) < 256 ^ n := by
          intro offset n h
          have hlt := leValue_lt (slice frame.payload offset n)
          rwa [hin offset n h] at hlt
        have hstore : (slice frame.payload minMutationHeaderLen
            (leValue (slice frame.payload 1 2))).length = leValue (slice frame.payload 1 2) :=
          slice_length (by omega)
        have hkey : (slice frame.payload (minMutationHeaderLen + leValue (slice frame.payload 1 2))
            (leValue (slice frame.payload 3 2))).length = leValue (slice frame.payload 3 2) :=
          slice_length (by omega)
        cases hfound : mutationOf slots frame.kind ⟨frame.ver, frame.id⟩
            (slice frame.payload minMutationHeaderLen (leValue (slice frame.payload 1 2)))
            (slice frame.payload (minMutationHeaderLen + leValue (slice frame.payload 1 2))
              (leValue (slice frame.payload 3 2)))
            (leValue (slice frame.payload 5 8)) (leValue (slice frame.payload 13 4))
            (leValue (slice frame.payload 17 8)) (leValue (slice frame.payload 25 8)) with
        | none => exact .inl rfl
        | some m =>
          obtain ⟨draft, rfl, hkind, hbytes, hnamed, hrange⟩ := draft_of_mutationOf
            (by rw [hstore]; exact hlt 1 2 (by decide)) (by rw [hkey]; exact hlt 3 2 (by decide))
            (hlt 5 8 (by decide)) (hlt 13 4 (by decide)) (hlt 17 8 (by decide)) hfound
          refine .inr ⟨draft, hnamed, hrange, ?_, rfl⟩
          rw [hstore, hkey, mutationHeader_slice hlen hversion] at hbytes
          have hpayload : draft.bytes = frame.payload := by
            have hwhole : slice frame.payload 0 (minMutationHeaderLen +
                leValue (slice frame.payload 1 2) + leValue (slice frame.payload 3 2)) =
                frame.payload := by
              rw [heq, slice, drop_zero, take_length]
            rw [slice_append, slice_append, Nat.zero_add, Nat.zero_add] at hwhole
            exact hbytes.trans hwhole
          rw [Draft.toFrame, hkind, hpayload]
    · refine .inl ?_
      rw [decode, if_pos (.inr hversion)]
      rfl
  · refine .inl ?_
    rw [decode, if_pos (.inl (Nat.not_le.mp hlen))]
    rfl

theorem validateStore_ok {store : Key} :
    validateStore layout store = .ok () ↔ 0 < store.length ∧ store.length ≤ layout.maxStoreLen := by
  unfold validateStore
  split
  next hempty =>
    rw [List.isEmpty_iff.mp hempty]
    exact ⟨fun h => (by cases h), fun h => absurd h.1 (Nat.lt_irrefl 0)⟩
  next hempty =>
    split
    next hlarge => exact ⟨fun h => (by cases h), fun h => absurd h.2 (Nat.not_le.mpr hlarge)⟩
    next hfits =>
      have hpos : 0 < store.length :=
        length_pos_iff.mpr fun hnil => hempty (List.isEmpty_iff.mpr hnil)
      exact ⟨fun _ => ⟨hpos, Nat.not_lt.mp hfits⟩, fun _ => rfl⟩

theorem validateKey_ok {store key : Key} :
    validateKey layout store key = .ok () ↔ validateStore layout store = .ok () ∧
      0 < key.length ∧ key.length ≤ layout.maxKeyLen store.length := by
  unfold validateKey
  cases hstore : validateStore layout store with
  | error e => exact ⟨fun h => (by cases h), fun h => (by cases h.1)⟩
  | ok u =>
    change (if key.isEmpty then _ else
      if key.length > layout.maxKeyLen store.length then _ else _) =
      _ ↔ _
    split
    next hempty =>
      rw [List.isEmpty_iff.mp hempty]
      exact ⟨fun h => (by cases h), fun h => absurd h.2.1 (Nat.lt_irrefl 0)⟩
    next hempty =>
      split
      next hlarge => exact ⟨fun h => (by cases h), fun h => absurd h.2.2 (Nat.not_le.mpr hlarge)⟩
      next hfits =>
        have hpos : 0 < key.length :=
          length_pos_iff.mpr fun hnil => hempty (List.isEmpty_iff.mpr hnil)
        exact ⟨fun _ => ⟨rfl, hpos, Nat.not_lt.mp hfits⟩, fun _ => rfl⟩

theorem Draft.encode_eq (layout : CacheLayout) (draft : Draft) :
    draft.encode layout = (draft.validate layout).map fun _ => draft.bytes := by
  cases draft with
  | put store key expiresAtMs payload =>
    rw [encode, encodePut, validate]
    cases validateKey layout store key with
    | error e => rfl
    | ok u => rfl
  | delete store key =>
    rw [encode, encodeDelete, validate]
    cases validateKey layout store key with
    | error e => rfl
    | ok u => rfl
  | reset store =>
    rw [encode, encodeReset, validate]
    cases validateStore layout store with
    | error e => rfl
    | ok u => rfl

theorem Draft.encode_ok {bytes : List UInt8} :
    draft.encode layout = .ok bytes ↔ draft.validate layout = .ok () ∧ bytes = draft.bytes := by
  rw [encode_eq]
  cases draft.validate layout with
  | error e => exact ⟨fun h => (by cases h), fun h => (by cases h.1)⟩
  | ok u => exact ⟨fun h => ⟨rfl, (Except.ok.inj h).symm⟩, fun h => congrArg _ h.2.symm⟩

theorem Draft.named_of_validate (h : draft.validate layout = .ok ()) :
    draft.Named ∧ draft.bytes.length ≤ layout.payloadCapacity := by
  have hkeyed : ∀ (store key : Key) (expiresAtMs slot generation valueLen : Nat),
      validateKey layout store key = .ok () →
      ((0 < store.length ∧ store.length < 2 ^ 16) ∧ 0 < key.length ∧ key.length < 2 ^ 16) ∧
        (mutationHeader store.length key.length expiresAtMs slot generation valueLen ++ store ++
          key).length ≤ layout.payloadCapacity := by
    intro store key expiresAtMs slot generation valueLen h
    obtain ⟨hstore, hkey, hkey'⟩ := validateKey_ok.mp h
    obtain ⟨hstore, hstore'⟩ := validateStore_ok.mp hstore
    simp only [CacheLayout.maxStoreLen, CacheLayout.maxKeyLen] at hstore' hkey'
    rw [length_append, length_append, mutationHeader_length]
    omega
  cases draft with
  | put store key expiresAtMs payload => exact hkeyed _ _ _ _ _ _ h
  | delete store key => exact hkeyed _ _ _ _ _ _ h
  | reset store =>
    obtain ⟨hstore, hstore'⟩ := validateStore_ok.mp h
    simp only [CacheLayout.maxStoreLen] at hstore'
    refine ⟨⟨hstore, by omega⟩, ?_⟩
    rw [bytes, length_append, mutationHeader_length]
    omega

theorem expiresAt_inRange {now deadline : Nat} {ttl : Option Nat}
    (h : deadline ∈ expiresAt now ttl) :
    0 < deadline ∧ deadline < 2 ^ 64 := by
  obtain ⟨ttl, -, rfl⟩ := map_eq_some_iff.mp h
  omega

/-- What `publish_put`, `publish_delete` and `publish_reset` encode. -/
def Draft.Publishable (slots : Nat) : Draft → Prop
  | put _ _ expiresAtMs payload => (∃ now ttl, expiresAtMs = expiresAt now ttl) ∧
      (0 < payload.generation ∧ payload.generation < 2 ^ 64) ∧ payload.slot < slots ∧
      payload.valueLen < 2 ^ 64
  | delete _ _ => True
  | reset _ => True

theorem Draft.Publishable.inRange (h : draft.Publishable slots) : draft.InRange slots := by
  cases draft with
  | put store key expiresAtMs payload =>
    obtain ⟨⟨now, ttl, rfl⟩, hrest⟩ := h
    exact ⟨fun deadline hdeadline => expiresAt_inRange hdeadline, hrest⟩
  | delete store key => exact trivial
  | reset store => exact trivial

theorem Draft.mutation_inj {draft draft' : Draft} {revision : CacheRevision}
    (h : draft.mutation revision = draft'.mutation revision) : draft = draft' := by
  cases draft with
  | put store key expiresAtMs payload =>
    cases draft' with
    | put store' key' expiresAtMs' payload' => cases h; rfl
    | delete store' key' => cases h
    | reset store' => cases h
  | delete store key =>
    cases draft' with
    | put store' key' expiresAtMs' payload' => cases h
    | delete store' key' => cases h; rfl
    | reset store' => cases h
  | reset store =>
    cases draft' with
    | put store' key' expiresAtMs' payload' => cases h
    | delete store' key' => cases h
    | reset store' => cases h; rfl

/-- What is encoded fits a frame, is read back unchanged and differs from everything else that is
encoded in a frame of its kind; what is read was written like this, by the encoders where the layout
lets them, and every other frame is read as nothing. -/
theorem mutation_codec_canonical (layout : CacheLayout) (slots : Nat) :
    (∀ draft : Draft, draft.validate layout = .ok () → draft.encode layout = .ok draft.bytes) ∧
    (∀ (draft : Draft) (bytes : List UInt8) (revision : CacheRevision),
      draft.Publishable slots → draft.encode layout = .ok bytes →
        bytes.length ≤ layout.payloadCapacity ∧
          Frame.decode slots ⟨draft.kind, revision.sequence, revision.mutationId, bytes⟩ =
            .ok (some (draft.mutation revision))) ∧
    (∀ (draft draft' : Draft) (bytes : List UInt8),
      draft.Publishable slots → draft'.Publishable slots → draft.kind = draft'.kind →
        draft.encode layout = .ok bytes → draft'.encode layout = .ok bytes → draft = draft') ∧
    ∀ frame : Frame, frame.decode slots = .ok none ∨
      ∃ draft : Draft, draft.Named ∧ draft.InRange slots ∧
        frame.decode slots = .ok (some (draft.mutation ⟨frame.ver, frame.id⟩)) ∧
        frame.kind = draft.kind ∧ frame.payload = draft.bytes ∧
        (draft.validate layout = .ok () → draft.encode layout = .ok frame.payload) := by
  have hback : ∀ (draft : Draft) (bytes : List UInt8) (revision : CacheRevision),
      draft.Publishable slots → draft.encode layout = .ok bytes →
        bytes.length ≤ layout.payloadCapacity ∧
          Frame.decode slots ⟨draft.kind, revision.sequence, revision.mutationId, bytes⟩ =
            .ok (some (draft.mutation revision)) := by
    intro draft bytes revision hdraft hencode
    obtain ⟨hvalid, rfl⟩ := Draft.encode_ok.mp hencode
    obtain ⟨hnamed, hlen⟩ := Draft.named_of_validate hvalid
    exact ⟨hlen, Draft.decode_toFrame hnamed hdraft.inRange revision⟩
  refine ⟨fun draft hvalid => Draft.encode_ok.mpr ⟨hvalid, rfl⟩, hback, ?_, fun frame => ?_⟩
  · intro draft draft' bytes hdraft hdraft' hkind hencode hencode'
    have hread := (hback draft bytes ⟨0, 0⟩ hdraft hencode).2
    rw [hkind, (hback draft' bytes ⟨0, 0⟩ hdraft' hencode').2] at hread
    exact (Draft.mutation_inj (Option.some.inj (Except.ok.inj hread))).symm
  · rcases frame.decode_canonical slots with hnone | ⟨draft, hnamed, hrange, hframe, hsome⟩
    · exact .inl hnone
    · have hpayload : frame.payload = draft.bytes := congrArg Frame.payload hframe.symm
      refine .inr ⟨draft, hnamed, hrange, hsome, congrArg Frame.kind hframe.symm, hpayload, ?_⟩
      exact fun hvalid => Draft.encode_ok.mpr ⟨hvalid, hpayload⟩

/-- A layout with room for stores of two bytes, whose keys have one. -/
def narrowLayout : CacheLayout := ⟨36, 1024⟩

def longReset : Draft := .reset [97, 98, 99]

/-- It fits a frame and is read, and no encoder gives its bytes. -/
theorem longReset_not_encoded :
    (longReset.toFrame ⟨1, 1⟩).payload.length = narrowLayout.payloadCapacity ∧
      (longReset.toFrame ⟨1, 1⟩).decode (2 ^ 20) = .ok (some (.reset [97, 98, 99] ⟨1, 1⟩)) ∧
      encodeReset narrowLayout [97, 98, 99] = .error (.storeTooLarge 3 2) := by
  have hnamed : longReset.Named := by
    change 0 < 3 ∧ 3 < 2 ^ 16
    decide
  exact ⟨by decide, Draft.decode_toFrame hnamed trivial ⟨1, 1⟩, rfl⟩

end OrbitCache
