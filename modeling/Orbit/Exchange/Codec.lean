import Orbit.Exchange.Frames

/-! What a frame says of its event, and which of its bytes are the event's: a frame that is accepted
agrees on those with the frame of the event it was accepted as. -/

namespace OrbitExchange

open Orbit.Atomic List Option

/-- Each 64-bit number is the raw form of the id it is taken for, and of no other one. -/
structure NetIds.Lossless (ids : NetIds) : Prop where
  raw_fromRaw : ∀ raw < 2 ^ 64, ids.raw (ids.fromRaw raw) = raw
  fits : ∀ raw < 2 ^ 64, FitsId (ids.fromRaw raw)

theorem NetIds.packed_lossless : NetIds.packed.Lossless where
  raw_fromRaw raw h := by
    simp only [packed]
    omega
  fits raw h := by
    refine ⟨?_, ?_, ?_, ?_⟩
    all_goals
      simp only [packed, OrbitStream.generationBits, OrbitStream.slotBits]
      omega

namespace ControlEvent

def kindByte : ControlEvent → UInt8
  | start _ _ _ => eventStart
  | data _ => eventData
  | fin _ _ => eventFin
  | reset _ _ _ => eventReset

def resetCode : ControlEvent → Option Nat
  | start _ _ _ | data _ | fin _ _ => none
  | reset _ _ code => some code

end ControlEvent

def headExtents : List (Nat × Nat) := [(0, 4), (4, 1), (5, 1), (6, 1), (8, 8)]

def descriptorExtents : List (Nat × Nat) :=
  [(16, 8), (24, 8), (32, 4), (36, 4), (40, 4), (44, 1), (48, 2)]

def codeExtent : Nat × Nat := (50, 4)

def ControlEvent.extents (event : ControlEvent) : List (Nat × Nat) :=
  headExtents ++ (if event.descriptor.isSome then descriptorExtents else []) ++
    (if event.resetCode.isSome then [codeExtent] else [])

/-- What a frame says of the event it is accepted as. -/
structure Says (ids : NetIds) (frame : List UInt8) (event : ControlEvent) : Prop where
  magic : slice frame 0 4 = magic
  version : byteAt frame 4 = version
  flow : byteAt frame 6 = event.flow.wire
  exchange : ids.fromRaw (leValue (slice frame 8 8)) = event.exchange
  kind : byteAt frame 5 = event.kindByte
  payload : (byteAt frame 7 &&& hasPayload != 0) = event.descriptor.isSome
  descriptor : ∀ descriptor ∈ event.descriptor,
    decodeDescriptor frame event.exchange event.flow = descriptor
  code : ∀ code ∈ event.resetCode, leValue (slice frame 50 4) = code

theorem Flow.wire_of_fromWire {value : UInt8} {flow : Flow} (h : Flow.fromWire value = some flow) :
    value = flow.wire := by
  unfold Flow.fromWire at h
  split at h
  next hvalue =>
    cases h
    exact hvalue
  next =>
    obtain ⟨hvalue, hflow⟩ := ite_none_right_eq_some.mp h
    cases hflow
    exact hvalue

section

variable {ids : NetIds} {frame frame' : List UInt8} {event : ControlEvent}

theorem says_of_decodeEvent {exchange : StreamId} {flow : Flow}
    (h : decodeEvent frame exchange flow = .ok event) :
    event.exchange = exchange ∧ event.flow = flow ∧ byteAt frame 5 = event.kindByte ∧
      (byteAt frame 7 &&& hasPayload != 0) = event.descriptor.isSome ∧
      (∀ descriptor ∈ event.descriptor, decodeDescriptor frame exchange flow = descriptor) ∧
      ∀ code ∈ event.resetCode, leValue (slice frame 50 4) = code := by
  unfold decodeEvent at h
  dsimp only at h
  split at h
  next hstart =>
    cases h
    refine ⟨rfl, rfl, hstart, ?_, ?_, by rintro code ⟨⟩⟩
    · rw [ControlEvent.descriptor]
      split
      next hpayload => rw [hpayload]; rfl
      next hpayload => rw [Bool.eq_false_iff.mpr hpayload]; rfl
    · intro descriptor hdescriptor
      rw [ControlEvent.descriptor] at hdescriptor
      obtain ⟨-, hdescriptor⟩ := ite_none_right_eq_some.mp hdescriptor
      exact Option.some.inj hdescriptor
  next =>
  split at h
  next hdata =>
    split at h
    next hpayload =>
      cases h
      refine ⟨rfl, rfl, hdata, hpayload, ?_, by rintro code ⟨⟩⟩
      rintro descriptor ⟨⟩
      rfl
    next => cases h
  next =>
  split at h
  next hkind =>
    split at h
    next => cases h
    next hpayload =>
    have hpayload := Bool.eq_false_iff.mpr hpayload
    split at h
    next hfin =>
      cases h
      exact ⟨rfl, rfl, hfin, hpayload, by rintro descriptor ⟨⟩, by rintro code ⟨⟩⟩
    next hfin =>
      cases h
      refine ⟨rfl, rfl, hkind.resolve_left hfin, hpayload, by rintro descriptor ⟨⟩, ?_⟩
      rintro code ⟨⟩
      rfl
  next => cases h

theorem says_of_decode (h : ControlEvent.decode ids frame = .ok event) : Says ids frame event := by
  unfold ControlEvent.decode at h
  split at h
  next => cases h
  next hmagic =>
  split at h
  next => cases h
  next hversion =>
  split at h
  next => cases h
  next flow hflow =>
  obtain ⟨hexchange, rfl, hkind, hpayload, hdescriptor, hcode⟩ := says_of_decodeEvent h
  exact
    { magic := not_not.mp hmagic
      version := not_not.mp hversion
      flow := Flow.wire_of_fromWire hflow
      exchange := hexchange.symm
      kind := hkind
      payload := hpayload
      descriptor := hexchange ▸ hdescriptor
      code := hcode }

theorem slice_eq_of_leValue {offset n : Nat} (hlen : offset + n ≤ frame.length)
    (hlen' : offset + n ≤ frame'.length)
    (h : leValue (slice frame offset n) = leValue (slice frame' offset n)) :
    slice frame offset n = slice frame' offset n := by
  rw [← leBytes_slice hlen, ← leBytes_slice hlen', h]

theorem slice_eq_of_byteAt {offset : Nat} (hlen : offset + 1 ≤ frame.length)
    (hlen' : offset + 1 ≤ frame'.length) (h : byteAt frame offset = byteAt frame' offset) :
    slice frame offset 1 = slice frame' offset 1 := by
  have hone := slice_length hlen
  have hone' := slice_length hlen'
  rw [byteAt, byteAt] at h
  obtain ⟨byte, hbyte⟩ := length_eq_one_iff.mp hone
  obtain ⟨byte', hbyte'⟩ := length_eq_one_iff.mp hone'
  rw [hbyte, hbyte'] at h
  rw [hbyte, hbyte', show byte = byte' from h]

theorem descriptorExtents_eq {exchange : StreamId} {flow : Flow}
    (hlen : frame.length = controlFrameBytes) (hlen' : frame'.length = controlFrameBytes)
    (h : decodeDescriptor frame exchange flow = decodeDescriptor frame' exchange flow) :
    ∀ extent ∈ descriptorExtents,
      slice frame extent.1 extent.2 = slice frame' extent.1 extent.2 := by
  have hin : ∀ extent ∈ descriptorExtents, extent.1 + extent.2 ≤ controlFrameBytes := by decide
  have hvalue : ∀ extent ∈ descriptorExtents,
      leValue (slice frame extent.1 extent.2) = leValue (slice frame' extent.1 extent.2) →
      slice frame extent.1 extent.2 = slice frame' extent.1 extent.2 := fun extent hmem =>
    slice_eq_of_leValue (hlen ▸ hin extent hmem) (hlen' ▸ hin extent hmem)
  have hkind : byteAt frame 44 = byteAt frame' 44 :=
    UInt8.toNat_inj.mp (congrArg (·.arenaKind) h)
  intro extent hmem
  have hextent := hmem
  simp only [descriptorExtents, mem_cons, not_mem_nil, or_false] at hextent
  rcases hextent with rfl | rfl | rfl | rfl | rfl | rfl | rfl
  · exact hvalue _ hmem (congrArg (·.chunkId) h)
  · exact hvalue _ hmem (congrArg (·.allocationGeneration) h)
  · exact hvalue _ hmem (congrArg (·.firstSlot) h)
  · exact hvalue _ hmem (congrArg (·.slotCount) h)
  · exact hvalue _ hmem (congrArg (·.payloadLen) h)
  · exact slice_eq_of_byteAt (hlen ▸ hin _ hmem) (hlen' ▸ hin _ hmem) hkind
  · exact hvalue _ hmem (congrArg (·.ownerNode) h)

theorem Says.extents_eq (hids : ids.Lossless) (hlen : frame.length = controlFrameBytes)
    (hlen' : frame'.length = controlFrameBytes) (h : Says ids frame event)
    (h' : Says ids frame' event) :
    ∀ extent ∈ event.extents, slice frame extent.1 extent.2 = slice frame' extent.1 extent.2 := by
  have hbyte : ∀ offset, offset + 1 ≤ controlFrameBytes →
      byteAt frame offset = byteAt frame' offset →
      slice frame offset 1 = slice frame' offset 1 := fun offset hle =>
    slice_eq_of_byteAt (hlen ▸ hle) (hlen' ▸ hle)
  have hraw : ∀ frame : List UInt8, frame.length = controlFrameBytes →
      leValue (slice frame 8 8) < 2 ^ 64 := by
    intro frame hlen
    have hslice : (slice frame 8 8).length = 8 := slice_length (by rw [hlen]; decide)
    have hlt := leValue_lt (slice frame 8 8)
    rw [hslice] at hlt
    exact hlt
  intro extent hmem
  rw [ControlEvent.extents, mem_append, mem_append] at hmem
  rcases hmem with (hhead | hdescriptor) | hcode
  · simp only [headExtents, mem_cons, not_mem_nil, or_false] at hhead
    rcases hhead with rfl | rfl | rfl | rfl | rfl
    · exact h.magic.trans h'.magic.symm
    · exact hbyte 4 (by decide) (h.version.trans h'.version.symm)
    · exact hbyte 5 (by decide) (h.kind.trans h'.kind.symm)
    · exact hbyte 6 (by decide) (h.flow.trans h'.flow.symm)
    · apply slice_eq_of_leValue (by rw [hlen]; decide) (by rw [hlen']; decide)
      rw [← hids.raw_fromRaw _ (hraw frame hlen), ← hids.raw_fromRaw _ (hraw frame' hlen'),
        h.exchange, h'.exchange]
  · split at hdescriptor
    next hsome =>
      obtain ⟨descriptor, hdescriptor'⟩ := isSome_iff_exists.mp hsome
      have hsame := (h.descriptor descriptor hdescriptor').trans
        (h'.descriptor descriptor hdescriptor').symm
      exact descriptorExtents_eq hlen hlen' hsame extent hdescriptor
    next => cases hdescriptor
  · split at hcode
    next hsome =>
      obtain ⟨code, hcode'⟩ := isSome_iff_exists.mp hsome
      obtain rfl := mem_singleton.mp hcode
      exact slice_eq_of_leValue (by rw [hlen]; decide) (by rw [hlen']; decide)
        ((h.code code hcode').trans (h'.code code hcode').symm)
    next => cases hcode

theorem Says.fits (hids : ids.Lossless) (hlen : frame.length = controlFrameBytes)
    (h : Says ids frame event) : event.Fits := by
  have hlt : ∀ offset n, offset + n ≤ controlFrameBytes →
      leValue (slice frame offset n) < 256 ^ n := by
    intro offset n hle
    have hslice : (slice frame offset n).length = n := slice_length (hlen ▸ hle)
    have hlt := leValue_lt (slice frame offset n)
    rwa [hslice] at hlt
  have hid : FitsId event.exchange := h.exchange ▸ hids.fits _ (hlt 8 8 (by decide))
  have hdescriptor : ∀ descriptor ∈ event.descriptor,
      descriptor.Fits ∧ descriptor.exchange = event.exchange ∧ descriptor.flow = event.flow := by
    intro descriptor hmem
    rw [← h.descriptor descriptor hmem]
    refine ⟨?_, rfl, rfl⟩
    exact
      { chunkId := hlt 16 8 (by decide)
        allocationGeneration := hlt 24 8 (by decide)
        firstSlot := hlt 32 4 (by decide)
        slotCount := hlt 36 4 (by decide)
        payloadLen := hlt 40 4 (by decide)
        arenaKind := (byteAt frame 44).toNat_lt
        ownerNode := hlt 48 2 (by decide) }
  cases event with
  | start exchange flow metadata => exact ⟨hid, hdescriptor⟩
  | data descriptor => exact ⟨hid, (hdescriptor descriptor rfl).1⟩
  | fin exchange flow => exact hid
  | reset exchange flow code =>
    refine ⟨hid, ?_⟩
    rw [← h.code code rfl]
    exact hlt 50 4 (by decide)

end

/-- Every event is read back from its frame, no two have the same frame, and a frame that is
accepted agrees with that of its event on whether there is a payload and on every byte of what the
event carries. -/
theorem control_frames_lossless {ids : NetIds} (hids : ids.Lossless) :
    (∀ event : ControlEvent, event.Fits → ControlEvent.decode ids (event.encode ids) = .ok event) ∧
      (∀ event event' : ControlEvent, event.Fits → event'.Fits →
        event.encode ids = event'.encode ids → event = event') ∧
      ∀ frame event, frame.length = controlFrameBytes → ControlEvent.decode ids frame = .ok event →
        (byteAt (event.encode ids) 7 &&& hasPayload != 0) = (byteAt frame 7 &&& hasPayload != 0) ∧
          ∀ extent ∈ event.extents,
            slice (event.encode ids) extent.1 extent.2 = slice frame extent.1 extent.2 := by
  refine ⟨fun event => ControlEvent.decode_encode, fun event event' h h' heq => ?_,
    fun frame event hlen hdecode => ?_⟩
  · have hdecode : ControlEvent.decode ids (event.encode ids) = .ok event :=
      ControlEvent.decode_encode h
    rw [heq, ControlEvent.decode_encode h'] at hdecode
    exact (Except.ok.inj hdecode).symm
  · have hmeans := says_of_decode hdecode
    have hdecode' : ControlEvent.decode ids (event.encode ids) = .ok event :=
      ControlEvent.decode_encode (hmeans.fits hids hlen)
    have hback := says_of_decode hdecode'
    exact ⟨hback.payload.trans hmeans.payload.symm,
      hback.extents_eq hids event.encode_length hlen hmeans⟩

def sampleChunk : ChunkDescriptor where
  exchange := ⟨208, 3, 9, 70000⟩
  flow := .bToA
  chunkId := 2 ^ 40 + 1
  allocationGeneration := 77
  firstSlot := 12
  slotCount := 5
  payloadLen := 20000
  arenaKind := 209
  ownerNode := 3

theorem sampleChunk_fits : (ControlEvent.data sampleChunk).Fits := by
  refine ⟨⟨?_, ?_, ?_, ?_⟩, ⟨?_, ?_, ?_, ?_, ?_, ?_, ?_⟩⟩
  all_goals decide

theorem control_frames_lossless_packed :
    ControlEvent.decode .packed ((ControlEvent.data sampleChunk).encode .packed) =
      .ok (.data sampleChunk) :=
  (control_frames_lossless NetIds.packed_lossless).1 _ sampleChunk_fits

end OrbitExchange
