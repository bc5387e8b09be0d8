import Orbit.Atomic.Buffer
import Orbit.Exchange.Arena

/-! The fixed-size control events of an exchange.  Payload bytes live in the arena that a descriptor
names and never in a frame. -/

namespace OrbitExchange

open Orbit.Atomic List

def controlFrameBytes : Nat := 64

def magic : List UInt8 := [0x4f, 0x45, 0x58, 0x43]
def version : UInt8 := 1
def eventStart : UInt8 := 1
def eventData : UInt8 := 2
def eventFin : UInt8 := 3
def eventReset : UInt8 := 4
def hasPayload : UInt8 := 1

def Flow.wire : Flow → UInt8
  | aToB => 1
  | bToA => 2

def Flow.fromWire (value : UInt8) : Option Flow :=
  if value = 1 then some .aToB
  else if value = 2 then some .bToA
  else none

theorem Flow.fromWire_wire (flow : Flow) : Flow.fromWire flow.wire = some flow := by
  cases flow <;> rfl

/-- The fields of an id fit those of a net id. -/
def FitsId (id : StreamId) : Prop :=
  id.kind < 2 ^ 8 ∧ id.node < 2 ^ 16 ∧ id.slot < 2 ^ OrbitStream.slotBits ∧
    id.generation < 2 ^ OrbitStream.generationBits

/-- The 64 bits of a net id, as the package of net ids packs its fields and takes them apart. -/
structure NetIds where
  raw : StreamId → Nat
  fromRaw : Nat → StreamId
  raw_lt : ∀ id, FitsId id → raw id < 2 ^ 64
  fromRaw_raw : ∀ id, FitsId id → fromRaw (raw id) = id

def NetIds.packed : NetIds where
  raw id := id.kind * 2 ^ 56 + id.node * 2 ^ 40 + id.generation * 2 ^ 16 + id.slot
  fromRaw raw := ⟨raw / 2 ^ 56, raw / 2 ^ 40 % 2 ^ 16, raw % 2 ^ 16, raw / 2 ^ 16 % 2 ^ 24⟩
  raw_lt id h := by
    obtain ⟨h1, h2, h3, h4⟩ := h
    simp only [OrbitStream.generationBits, OrbitStream.slotBits] at h3 h4
    omega
  fromRaw_raw id h := by
    obtain ⟨kind, node, slot, generation⟩ := id
    obtain ⟨h1, h2, h3, h4⟩ := h
    simp only [OrbitStream.generationBits, OrbitStream.slotBits] at h1 h2 h3 h4
    simp only [OrbitStream.StreamId.mk.injEq]
    omega

/-- A lossless control-plane event. -/
inductive ControlEvent where
  | start (exchange : StreamId) (flow : Flow) (metadata : Option ChunkDescriptor)
  | data (descriptor : ChunkDescriptor)
  | fin (exchange : StreamId) (flow : Flow)
  | reset (exchange : StreamId) (flow : Flow) (code : Nat)
  deriving DecidableEq

namespace ControlEvent

def exchange : ControlEvent → StreamId
  | start exchange _ _ | fin exchange _ | reset exchange _ _ => exchange
  | data descriptor => descriptor.exchange

def flow : ControlEvent → Flow
  | start _ flow _ | fin _ flow | reset _ flow _ => flow
  | data descriptor => descriptor.flow

def descriptor : ControlEvent → Option ChunkDescriptor
  | start _ _ metadata => metadata
  | data descriptor => some descriptor
  | fin _ _ | reset _ _ _ => none

end ControlEvent

def encodeDescriptor (frame : List UInt8) (descriptor : ChunkDescriptor) : List UInt8 :=
  let frame := patch frame 16 (leBytes 8 descriptor.chunkId)
  let frame := patch frame 24 (leBytes 8 descriptor.allocationGeneration)
  let frame := patch frame 32 (leBytes 4 descriptor.firstSlot)
  let frame := patch frame 36 (leBytes 4 descriptor.slotCount)
  let frame := patch frame 40 (leBytes 4 descriptor.payloadLen)
  let frame := patch frame 44 [UInt8.ofNat descriptor.arenaKind]
  patch frame 48 (leBytes 2 descriptor.ownerNode)

def decodeDescriptor (frame : List UInt8) (exchange : StreamId) (flow : Flow) :
    ChunkDescriptor where
  exchange
  flow
  chunkId := leValue (slice frame 16 8)
  allocationGeneration := leValue (slice frame 24 8)
  firstSlot := leValue (slice frame 32 4)
  slotCount := leValue (slice frame 36 4)
  payloadLen := leValue (slice frame 40 4)
  arenaKind := (byteAt frame 44).toNat
  ownerNode := leValue (slice frame 48 2)

/-- The bytes that every frame begins with. -/
def frameHead (ids : NetIds) (event : ControlEvent) : List UInt8 :=
  let frame := replicate controlFrameBytes 0
  let frame := patch frame 0 magic
  let frame := patch frame 4 [version]
  let frame := patch frame 6 [event.flow.wire]
  patch frame 8 (leBytes 8 (ids.raw event.exchange))

def ControlEvent.encode (ids : NetIds) (event : ControlEvent) : List UInt8 :=
  let frame := frameHead ids event
  match event with
  | .start _ _ metadata =>
    let frame := patch frame 5 [eventStart]
    match metadata with
    | some descriptor => encodeDescriptor (patch frame 7 [hasPayload]) descriptor
    | none => frame
  | .data descriptor =>
    encodeDescriptor (patch (patch frame 5 [eventData]) 7 [hasPayload]) descriptor
  | .fin _ _ => patch frame 5 [eventFin]
  | .reset _ _ code => patch (patch frame 5 [eventReset]) 50 (leBytes 4 code)

def decodeEvent (frame : List UInt8) (exchange : StreamId) (flow : Flow) :
    Except String ControlEvent :=
  let event := byteAt frame 5
  let payload := byteAt frame 7 &&& hasPayload != 0
  if event = eventStart then
    .ok (.start exchange flow
      (if payload then some (decodeDescriptor frame exchange flow) else none))
  else if event = eventData then
    if payload then .ok (.data (decodeDescriptor frame exchange flow))
    else .error "data event has no payload descriptor"
  else if event = eventFin ∨ event = eventReset then
    if payload then .error "terminal event carries a payload descriptor"
    else if event = eventFin then .ok (.fin exchange flow)
    else .ok (.reset exchange flow (leValue (slice frame 50 4)))
  else .error "unknown exchange event"

def ControlEvent.decode (ids : NetIds) (frame : List UInt8) : Except String ControlEvent :=
  if slice frame 0 4 ≠ magic then .error "wrong exchange control magic"
  else if byteAt frame 4 ≠ version then .error "unsupported exchange control version"
  else
    match Flow.fromWire (byteAt frame 6) with
    | none => .error "unknown exchange flow"
    | some flow => decodeEvent frame (ids.fromRaw (leValue (slice frame 8 8))) flow

/-- The fields of a descriptor fit those of a frame. -/
structure ChunkDescriptor.Fits (descriptor : ChunkDescriptor) : Prop where
  chunkId : descriptor.chunkId < 2 ^ 64
  allocationGeneration : descriptor.allocationGeneration < 2 ^ 64
  firstSlot : descriptor.firstSlot < 2 ^ 32
  slotCount : descriptor.slotCount < 2 ^ 32
  payloadLen : descriptor.payloadLen < 2 ^ 32
  arenaKind : descriptor.arenaKind < 2 ^ 8
  ownerNode : descriptor.ownerNode < 2 ^ 16

/-- The fields of an event fit, and its descriptor is of its exchange and flow. -/
def ControlEvent.Fits : ControlEvent → Prop
  | start exchange flow metadata => FitsId exchange ∧
    ∀ descriptor ∈ metadata, descriptor.Fits ∧ descriptor.exchange = exchange ∧
      descriptor.flow = flow
  | data descriptor => FitsId descriptor.exchange ∧ descriptor.Fits
  | fin exchange _ => FitsId exchange
  | reset exchange _ code => FitsId exchange ∧ code < 2 ^ 32

theorem slice_leBytes {frame : List UInt8} {offset width value : Nat}
    (h : offset + width ≤ frame.length) :
    slice (patch frame offset (leBytes width value)) offset width = leBytes width value := by
  have hlen := leBytes_length width value
  have hslice : slice (patch frame offset (leBytes width value)) offset
      (leBytes width value).length = leBytes width value := slice_patch (by omega)
  rwa [hlen] at hslice

theorem encodeDescriptor_length (frame : List UInt8) (descriptor : ChunkDescriptor) :
    (encodeDescriptor frame descriptor).length = frame.length := by
  simp [encodeDescriptor]

theorem decodeDescriptor_encode {frame : List UInt8} {descriptor : ChunkDescriptor}
    (hlen : frame.length = controlFrameBytes) (h : descriptor.Fits) :
    decodeDescriptor (encodeDescriptor frame descriptor) descriptor.exchange descriptor.flow =
      descriptor := by
  have hkind : [UInt8.ofNat descriptor.arenaKind] = leBytes 1 descriptor.arenaKind := rfl
  rw [controlFrameBytes] at hlen
  have h1 : leValue (leBytes 8 descriptor.chunkId) = descriptor.chunkId := leValue_leBytes h.chunkId
  have h2 : leValue (leBytes 8 descriptor.allocationGeneration) =
      descriptor.allocationGeneration := leValue_leBytes h.allocationGeneration
  have h3 : leValue (leBytes 4 descriptor.firstSlot) = descriptor.firstSlot :=
    leValue_leBytes h.firstSlot
  have h4 : leValue (leBytes 4 descriptor.slotCount) = descriptor.slotCount :=
    leValue_leBytes h.slotCount
  have h5 : leValue (leBytes 4 descriptor.payloadLen) = descriptor.payloadLen :=
    leValue_leBytes h.payloadLen
  have h6 : (UInt8.ofNat descriptor.arenaKind).toNat = descriptor.arenaKind := by
    rw [UInt8.toNat_ofNat', Nat.mod_eq_of_lt h.arenaKind]
  have h7 : leValue (leBytes 2 descriptor.ownerNode) = descriptor.ownerNode :=
    leValue_leBytes h.ownerNode
  simp only [decodeDescriptor, encodeDescriptor, byteAt, hkind]
  simp only [slice_leBytes, slice_patch_other, leBytes_length, patch_length, hlen, h1, h2, h3, h4,
    h5, h7, Nat.reduceAdd, Nat.reduceLeDiff, true_or]
  rw [leBytes, headD_cons, h6]

theorem slice_encodeDescriptor {frame : List UInt8} {offset n : Nat} (descriptor : ChunkDescriptor)
    (hlen : frame.length = controlFrameBytes) (h : offset + n ≤ 16) :
    slice (encodeDescriptor frame descriptor) offset n = slice frame offset n := by
  rw [controlFrameBytes] at hlen
  have hle : ∀ k, 16 ≤ k → offset + n ≤ k := fun k hk => h.trans hk
  simp only [encodeDescriptor]
  simp only [slice_patch_other, leBytes_length, patch_length, hlen, hle, length_singleton,
    Nat.reduceAdd, Nat.reduceLeDiff, true_or]

section

variable {ids : NetIds}

theorem frameHead_length (event : ControlEvent) :
    (frameHead ids event).length = controlFrameBytes := by
  simp [frameHead]

theorem ControlEvent.encode_length (event : ControlEvent) :
    (event.encode ids).length = controlFrameBytes := by
  cases event with
  | start exchange flow metadata =>
    cases metadata with
    | none => simp [encode, frameHead_length]
    | some descriptor => simp [encode, encodeDescriptor_length, frameHead_length]
  | data descriptor => simp [encode, encodeDescriptor_length, frameHead_length]
  | fin exchange flow => simp [encode, frameHead_length]
  | reset exchange flow code => simp [encode, frameHead_length]

/-- What every frame begins with. -/
structure Head (ids : NetIds) (exchange : StreamId) (flow : Flow) (frame : List UInt8) : Prop where
  length : frame.length = controlFrameBytes
  magic : slice frame 0 4 = magic
  version : slice frame 4 1 = [version]
  flow : slice frame 6 1 = [flow.wire]
  exchange : slice frame 8 8 = leBytes 8 (ids.raw exchange)

theorem frameHead_head (event : ControlEvent) :
    Head ids event.exchange event.flow (frameHead ids event) := by
  have h1 : [version] = leBytes 1 version.toNat := by simp [leBytes]
  have h2 : [event.flow.wire] = leBytes 1 event.flow.wire.toNat := by simp [leBytes]
  have h3 : magic = leBytes 4 0x4358454f := by decide
  refine ⟨frameHead_length event, ?_, ?_, ?_, ?_⟩
  all_goals
    rw [frameHead, h1, h2, h3]
    simp [slice_patch_other, slice_leBytes, leBytes_length, controlFrameBytes]

variable {exchange : StreamId} {flow : Flow} {frame : List UInt8}

/-- The byte of the event, the byte that says there is a payload and the bytes of a descriptor or a
code are none of those. -/
theorem Head.patch (h : Head ids exchange flow frame) {offset : Nat} {bytes : List UInt8}
    (hin : offset + bytes.length ≤ controlFrameBytes)
    (hoff : (offset = 5 ∨ offset = 7) ∧ bytes.length = 1 ∨ 16 ≤ offset) :
    Head ids exchange flow (Orbit.Atomic.patch frame offset bytes) := by
  rw [← h.length] at hin
  refine ⟨by rw [patch_length, h.length], ?_, ?_, ?_, ?_⟩
  · rw [slice_patch_other hin (by omega), h.magic]
  · rw [slice_patch_other hin (by omega), h.version]
  · rw [slice_patch_other hin (by omega), h.flow]
  · rw [slice_patch_other hin (by omega), h.exchange]

theorem Head.descriptor (h : Head ids exchange flow frame) (descriptor : ChunkDescriptor) :
    Head ids exchange flow (encodeDescriptor frame descriptor) := by
  refine ⟨by rw [encodeDescriptor_length, h.length], ?_, ?_, ?_, ?_⟩
  · rw [slice_encodeDescriptor descriptor h.length (by decide), h.magic]
  · rw [slice_encodeDescriptor descriptor h.length (by decide), h.version]
  · rw [slice_encodeDescriptor descriptor h.length (by decide), h.flow]
  · rw [slice_encodeDescriptor descriptor h.length (by decide), h.exchange]

theorem Head.decode (h : Head ids exchange flow frame) (hid : FitsId exchange) :
    ControlEvent.decode ids frame = decodeEvent frame exchange flow := by
  have hraw : leValue (leBytes 8 (ids.raw exchange)) = ids.raw exchange :=
    leValue_leBytes (ids.raw_lt exchange hid)
  have hversion : byteAt frame 4 = OrbitExchange.version := by rw [byteAt, h.version, headD_cons]
  have hflow : byteAt frame 6 = flow.wire := by rw [byteAt, h.flow, headD_cons]
  unfold ControlEvent.decode
  rw [if_neg (not_not.mpr h.magic), if_neg (not_not.mpr hversion), hflow, Flow.fromWire_wire,
    h.exchange, hraw, ids.fromRaw_raw exchange hid]

theorem decode_payload {event : UInt8} {descriptor : ChunkDescriptor}
    (h : Head ids descriptor.exchange descriptor.flow frame) (hid : FitsId descriptor.exchange)
    (hfits : descriptor.Fits) :
    let written := encodeDescriptor (patch (patch frame 5 [event]) 7 [hasPayload]) descriptor
    ControlEvent.decode ids written = decodeEvent written descriptor.exchange descriptor.flow ∧
      byteAt written 5 = event ∧ byteAt written 7 = hasPayload ∧
      decodeDescriptor written descriptor.exchange descriptor.flow = descriptor := by
  intro written
  have hlen : (patch (patch frame 5 [event]) 7 [hasPayload]).length = controlFrameBytes := by
    rw [patch_length, patch_length, h.length]
  have hlen5 : 5 + [event].length ≤ frame.length := by
    rw [h.length, controlFrameBytes, length_singleton]
    decide
  have hlen7 : 7 + [hasPayload].length ≤ (patch frame 5 [event]).length := by
    rw [patch_length, h.length]; decide
  have hin : 5 + [event].length ≤ controlFrameBytes := h.length ▸ hlen5
  refine ⟨?_, ?_, ?_, decodeDescriptor_encode hlen hfits⟩
  · refine (Head.descriptor ?_ descriptor).decode hid
    exact (h.patch hin (.inl ⟨.inl rfl, rfl⟩)).patch (by decide) (.inl ⟨.inr rfl, rfl⟩)
  · rw [byteAt, slice_encodeDescriptor descriptor hlen (by decide),
      slice_patch_other hlen7 (by decide)]
    have hslice : slice (patch frame 5 [event]) 5 1 = [event] := slice_patch hlen5
    rw [hslice, headD_cons]
  · rw [byteAt, slice_encodeDescriptor descriptor hlen (by decide)]
    have hslice : slice (patch (patch frame 5 [event]) 7 [hasPayload]) 7 1 = [hasPayload] :=
      slice_patch hlen7
    rw [hslice, headD_cons]

theorem decode_plain {event : UInt8} (h : Head ids exchange flow frame) (hid : FitsId exchange)
    (hzero : slice frame 7 1 = [0]) :
    ControlEvent.decode ids (patch frame 5 [event]) =
        decodeEvent (patch frame 5 [event]) exchange flow ∧
      byteAt (patch frame 5 [event]) 5 = event ∧ byteAt (patch frame 5 [event]) 7 = 0 := by
  have hlen5 : 5 + [event].length ≤ frame.length := by
    rw [h.length, controlFrameBytes, length_singleton]
    decide
  refine ⟨(h.patch (h.length ▸ hlen5) (.inl ⟨.inl rfl, rfl⟩)).decode hid, ?_, ?_⟩
  · have hslice : slice (patch frame 5 [event]) 5 1 = [event] := slice_patch hlen5
    rw [byteAt, hslice, headD_cons]
  · rw [byteAt, slice_patch_other hlen5 (.inr (Nat.le_succ 6)), hzero, headD_cons]

theorem frameHead_zero (event : ControlEvent) : slice (frameHead ids event) 7 1 = [0] := by
  have hmagic : magic.length = 4 := rfl
  simp [frameHead, slice_patch_other, leBytes_length, controlFrameBytes, hmagic]
  rfl

theorem ControlEvent.decode_encode {event : ControlEvent} (h : event.Fits) :
    decode ids (event.encode ids) = .ok event := by
  have hhead : Head ids event.exchange event.flow (frameHead ids event) := frameHead_head event
  have hzero : slice (frameHead ids event) 7 1 = [0] := frameHead_zero event
  cases event with
  | start exchange flow metadata =>
    cases metadata with
    | none =>
      obtain ⟨hdecode, h5, h7⟩ := decode_plain hhead h.1 hzero
      rw [encode, hdecode, decodeEvent, h5, h7]
      rfl
    | some descriptor =>
      obtain ⟨hfits, rfl, rfl⟩ := h.2 descriptor rfl
      obtain ⟨hdecode, h5, h7, hback⟩ := decode_payload hhead h.1 hfits
      rw [encode, hdecode, decodeEvent, h5, h7, hback]
      rfl
  | data descriptor =>
    obtain ⟨hdecode, h5, h7, hback⟩ := decode_payload hhead h.1 h.2
    rw [encode, hdecode, decodeEvent, h5, h7, hback]
    rfl
  | fin exchange flow =>
    obtain ⟨hdecode, h5, h7⟩ := decode_plain hhead h hzero
    rw [encode, hdecode, decodeEvent, h5, h7]
    rfl
  | reset exchange flow code =>
    obtain ⟨hid, hcode⟩ := h
    have hvalue : leValue (leBytes 4 code) = code := leValue_leBytes hcode
    have hlen5 : 5 + [eventReset].length ≤ (frameHead ids (.reset exchange flow code)).length := by
      rw [hhead.length]; decide
    have hlen50 : 50 + (leBytes 4 code).length ≤
        (patch (frameHead ids (.reset exchange flow code)) 5 [eventReset]).length := by
      rw [patch_length, hhead.length, leBytes_length]; decide
    have hslice : slice (patch (frameHead ids (.reset exchange flow code)) 5 [eventReset]) 5 1 =
        [eventReset] := slice_patch hlen5
    have hbefore : 6 ≤ 50 ∧ 8 ≤ 50 := by decide
    rw [encode, Head.decode ((hhead.patch (by decide) (.inl ⟨.inl rfl, rfl⟩)).patch
      (by rw [leBytes_length]; decide) (.inr (by decide))) hid, decodeEvent, byteAt,
      slice_patch_other hlen50 (.inl hbefore.1), hslice, byteAt,
      slice_patch_other hlen50 (.inl hbefore.2), slice_patch_other hlen5 (by decide), hzero,
      slice_leBytes (by rwa [leBytes_length] at hlen50), hvalue]
    rfl

end

end OrbitExchange
