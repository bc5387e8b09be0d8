import Orbit.Ring.Writers

/-! The reader of a ring: a frame that it accepts is the one that was written under its counter. -/

namespace OrbitRing

open Orbit.Atomic

variable {r : RingSpec} {ids : NetIds} {t : Nat} {call : Call} {α β : Type}

/-- The reader ends with a result and knows at least what it knew, and `P` of the result. -/
def Learns (cursor : Nat) (F : Fact) (P : α → View → Prop) (result : α) (m : Share) : Prop :=
  ∃ G, m = reads cursor G ∧ ∀ v, G.holds v → F.holds v ∧ P result v

section

variable {cursor slot c : Nat} {F G : Fact} {place : Addr} {f : Nat → RingM α}
  {Q : α → Share → Prop} {h : History} {mem : Mem Addr} {P : Frame → Prop}

theorem Learns.mono {R R' : α → View → Prop} {result : α} {m : Share}
    (h : Learns cursor G R result m) (hF : ∀ v, G.holds v → F.holds v)
    (hR : ∀ v, G.holds v → R result v → R' result v) : Learns cursor F R' result m := by
  obtain ⟨G', rfl, hG'⟩ := h
  exact ⟨G', rfl, fun v hv => ⟨hF v (hG' v hv).1, hR v (hG' v hv).1 (hG' v hv).2⟩⟩

theorem learns {R : α → View → Prop} {result : α} (hF : ∀ v, G.holds v → F.holds v)
    (hR : ∀ v, G.holds v → R result v) : Learns cursor F R result (reads cursor G) :=
  ⟨G, rfl, fun v hv => ⟨hF v hv, hR v hv⟩⟩

theorem safe_done {R : α → View → Prop} {result : α} (hF : ∀ v, G.holds v → F.holds v)
    (hR : ∀ v, G.holds v → R result v) :
    RingSafe r ids t call (pure result) (Learns cursor F R) (reads cursor G) := learns hF hR

theorem safe_learn (G : Nat → Fact)
    (hlearn : ∀ h mem, Slots r ids h.frames mem → Polled ids h (mem .head) →
      F.holds (viewOf h mem) → (G (mem place)).holds (viewOf h mem))
    (hf : ∀ value, RingSafe r ids t call (f value) Q (reads cursor (G value))) :
    RingSafe r ids t call (load place >>= f) Q (reads cursor F) :=
  Safe.load_bind fun _ h mem hI => (hf (mem place)).goes
    (hI.learn (hlearn h mem hI.slots hI.polled hI.reading.2.2.2))

theorem safe_look (hf : ∀ value, RingSafe r ids t call (f value) Q (reads cursor F)) :
    RingSafe r ids t call (load place >>= f) Q (reads cursor F) :=
  safe_learn (fun _ => F) (fun _ _ _ _ hF => hF) hf

/-- The sequence word was `value`: an even one is that of a frame. -/
def Fact.saw (ids : NetIds) (slot value : Nat) : Fact where
  holds v := ∀ c, value = c * 2 + 2 →
    (Fact.snapshot slot c fun frame => ids.counter frame.id = c).holds v
  mono hle h c heq := (Fact.snapshot slot c _).mono hle (h c heq)

/-- The sequence word was `value` in the end. -/
def Fact.settled (c value : Nat) (P : Frame → Prop) : Fact where
  holds v := value = c * 2 + 2 → ∃ frame, v.frames[c]? = some frame ∧ P frame
  mono hle h heq := by
    obtain ⟨frame, hframe, hP⟩ := h heq
    exact ⟨frame, (Fact.frame c frame).mono hle hframe, hP⟩

theorem Slots.saw (hslots : Slots r ids h.frames mem) (slot : Nat) :
    (Fact.saw ids slot (mem (.seq slot))).holds (viewOf h mem) := by
  intro c heq
  refine ⟨Nat.le_of_eq heq.symm, fun _ => ?_⟩
  obtain ⟨frame, hframe, -⟩ := hslots.even slot c heq
  exact ⟨frame, hframe, (hslots.framed c frame hframe).1⟩

theorem Slots.read (hslots : Slots r ids h.frames mem)
    (hsnapshot : (Fact.snapshot slot c P).holds (viewOf h mem)) (word : Frame → Nat)
    (hword : ∀ frame, P frame → (place, word frame) ∈ contents slot frame) :
    (Fact.snapshot slot c fun frame => P frame ∧ word frame = mem place).holds (viewOf h mem) := by
  refine ⟨hsnapshot.1, fun heq => ?_⟩
  obtain ⟨frame, hframe, hP⟩ := hsnapshot.2 heq
  obtain ⟨frame', hframe', hstored⟩ := hslots.even slot c heq
  have hsame : frame' = frame := Option.some.inj (hframe'.symm.trans hframe)
  subst hsame
  exact ⟨frame', hframe, hP, (hstored _ (hword frame' hP)).symm⟩

theorem snapshot_imp {P' : Frame → Prop} {v : View} (h : (Fact.snapshot slot c P).holds v)
    (hP : ∀ frame, P frame → P' frame) : (Fact.snapshot slot c P').holds v := by
  refine ⟨h.1, fun heq => ?_⟩
  obtain ⟨frame, hframe, hframeP⟩ := h.2 heq
  exact ⟨frame, hframe, hP frame hframeP⟩

theorem safe_read (word : Frame → Nat)
    (hword : ∀ frame, P frame → (place, word frame) ∈ contents slot frame)
    (hf : ∀ value, RingSafe r ids t call (f value) Q
      (reads cursor (F.and (.snapshot slot c fun frame => P frame ∧ word frame = value)))) :
    RingSafe r ids t call (load place >>= f) Q (reads cursor (F.and (.snapshot slot c P))) :=
  safe_learn (fun value => F.and (.snapshot slot c fun frame => P frame ∧ word frame = value))
    (fun _ _ hslots _ hF => ⟨hF.1, hslots.read hF.2 word hword⟩) hf

theorem byte_mem_contents {frame : Frame} {i : Nat} (hi : i < frame.payload.length) :
    (Addr.byte slot i, (frame.payload.getD i 0).toNat) ∈ contents slot frame := by
  refine List.mem_append_right _ (mem_bytesAt.mpr ⟨i, hi, ?_⟩)
  rw [List.getD_eq_getElem?_getD, List.getElem?_eq_getElem hi]
  rfl

theorem safe_readBytes {len : Nat} (hlen : ∀ frame, P frame → frame.payload.length = len) :
    RingSafe r ids t call (copyOut (.byte slot) 0 len)
      (fun bytes m' => bytes.length = len ∧ m' = reads cursor (F.and (.snapshot slot c fun frame =>
        P frame ∧ frame.payload.take bytes.length = bytes)))
      (reads cursor (F.and (.snapshot slot c fun frame =>
        P frame ∧ frame.payload.take 0 = []))) := by
  have hcopy : RingSafe r ids t call (copyOut (.byte slot) (0 + ([] : List UInt8).length) len)
      (fun bytes m' => ([] ++ bytes).length = len ∧ True ∧ m' = reads cursor (F.and (.snapshot slot
        c fun frame => P frame ∧ frame.payload.take ([] ++ bytes).length = [] ++ bytes)))
      (reads cursor (F.and (.snapshot slot c fun frame =>
        P frame ∧ frame.payload.take ([] : List UInt8).length = []))) := by
    refine Safe.copyOut 0 (fun bytes => reads cursor (F.and (.snapshot slot c fun frame =>
      P frame ∧ frame.payload.take bytes.length = bytes))) (fun _ => True)
      (fun bytes others h mem hlt _ hI => ?_) len [] (Nat.zero_add _) trivial
    refine ⟨trivial, hI.learn ?_⟩
    obtain ⟨-, -, -, hF, hsnapshot⟩ := hI.reading
    rw [Nat.zero_add]
    have hread := hI.slots.read hsnapshot (fun frame => (frame.payload.getD bytes.length 0).toNat)
      fun frame hP => byte_mem_contents (hlen frame hP.1 ▸ hlt)
    refine ⟨hF, hread.1, fun heq => ?_⟩
    obtain ⟨frame, hframe, ⟨hP, htake⟩, hbyte⟩ := hread.2 heq
    refine ⟨frame, hframe, hP, ?_⟩
    have hi : bytes.length < frame.payload.length := hlen frame hP ▸ hlt
    rw [List.length_append, List.length_singleton, List.take_succ_eq_append_getElem hi, htake,
      ← hbyte, UInt8.ofNat_toNat, List.getD_eq_getElem?_getD, List.getElem?_eq_getElem hi]
    rfl
  exact hcopy.mono fun bytes m' hm => ⟨hm.1, hm.2.2⟩

theorem safe_readCommittedFrame :
    RingSafe r ids t call (readCommittedFrame r slot)
      (Learns cursor F fun result v => ∀ frame, result = some frame →
        v.frames[ids.counter frame.id]? = some frame)
      (reads cursor F) := by
  have hnone : ∀ {G : Fact}, (∀ v, G.holds v → F.holds v) →
      Learns cursor F (fun result v => ∀ frame, result = some frame →
        v.frames[ids.counter frame.id]? = some frame) (none : Option Frame) (reads cursor G) :=
    fun hG => learns hG fun _ _ _ heq => (nomatch heq)
  unfold readCommittedFrame
  refine safe_learn (fun value => F.and (.saw ids slot value))
    (fun h mem hslots _ hF => ⟨hF, hslots.saw slot⟩) fun seqPre => ?_
  by_cases hzero : seqPre = 0
  · rw [if_pos hzero]
    exact hnone fun v hv => hv.1
  rw [if_neg hzero]
  by_cases hodd : seqPre % 2 = 1
  · simp only [hodd, if_true]
    exact hnone fun v hv => hv.1
  simp only [hodd, if_false]
  obtain ⟨c, rfl⟩ : ∃ c, seqPre = c * 2 + 2 := ⟨seqPre / 2 - 1, by omega⟩
  refine safe_learn (fun id => F.and (.snapshot slot c fun frame =>
    ids.counter frame.id = c ∧ frame.id = id)) (fun h mem hslots _ hF =>
      ⟨hF.1, hslots.read (hF.2 c rfl) (fun frame => frame.id) fun frame _ => by simp [contents]⟩)
    fun id => ?_
  refine safe_read (fun frame => frame.kind) (fun frame _ => by simp [contents]) fun kind => ?_
  refine safe_read (fun frame => frame.ver) (fun frame _ => by simp [contents]) fun ver => ?_
  refine safe_learn (fun payloadLen => F.and (.snapshot slot c fun frame =>
    ((((ids.counter frame.id = c ∧ frame.id = id) ∧ frame.kind = kind) ∧ frame.ver = ver) ∧
      frame.payload.length = payloadLen) ∧ frame.payload.take 0 = []))
    (fun h mem hslots _ hF => ⟨hF.1, snapshot_imp (hslots.read hF.2
      (fun frame => frame.payload.length) fun frame _ => by simp [contents]) fun _ hP =>
        ⟨hP, rfl⟩⟩) fun payloadLen => ?_
  by_cases hlong : payloadLen > r.payloadCapacity
  · simp only [hlong, if_true]
    exact hnone fun v hv => hv.1
  simp only [hlong, if_false]
  refine .bind ((safe_readBytes fun frame hP => hP.2).mono ?_)
  rintro payload _ ⟨hlength, rfl⟩
  refine safe_learn (fun seqPost => F.and (.settled c seqPost fun frame =>
    ((((ids.counter frame.id = c ∧ frame.id = id) ∧ frame.kind = kind) ∧ frame.ver = ver) ∧
      frame.payload.length = payloadLen) ∧ frame.payload.take payload.length = payload))
    (fun h mem _ _ hF => ⟨hF.1, fun heq => hF.2.2 heq⟩) fun seqPost => ?_
  by_cases hseq : c * 2 + 2 ≠ seqPost
  · rw [if_pos hseq]
    exact hnone fun v hv => hv.1
  rw [if_neg hseq]
  refine safe_done ?_ ?_
  · exact fun v hv => hv.1
  rintro v ⟨-, hsettled⟩ _ ⟨⟩
  obtain ⟨⟨id', kind', ver', payload'⟩, hframe, ⟨⟨⟨⟨hcounter, rfl⟩, rfl⟩, rfl⟩, hsize⟩, htake⟩ :=
    hsettled (not_not.mp hseq).symm
  dsimp only at hcounter hsize htake ⊢
  have hpayload : payload' = payload := by
    rw [← htake, hlength, ← hsize, List.take_length]
  rw [hcounter, ← hpayload]
  exact hframe

/-- What a read of a counter tells: a frame is the one written under the counter. -/
def ReadOk (ids : NetIds) (c : Nat) (read : RingRead) (v : View) : Prop :=
  read ≠ .pending ∧
    ∀ frame, read = .ready frame → ids.counter frame.id = c ∧ v.frames[c]? = some frame

theorem readOk_unavailable (c : Nat) (v : View) : ReadOk ids c .unavailable v :=
  ⟨by rintro ⟨⟩, by rintro _ ⟨⟩⟩

theorem notCommitted_eq (hshared : r.topology ≠ .shared) : notCommitted r = .unavailable :=
  if_neg hshared

theorem safe_readAttempts (hshared : r.topology ≠ .shared) (attempts : Nat) :
    RingSafe r ids t call (readAttempts r ids slot c attempts) (Learns cursor F (ReadOk ids c))
      (reads cursor F) := by
  induction attempts generalizing F with
  | zero =>
    unfold readAttempts
    refine safe_look fun sequence => learns (fun _ => id) fun v _ => ?_
    rw [notCommitted_eq hshared, ite_self]
    exact readOk_unavailable c v
  | succ attempts ih =>
    unfold readAttempts
    refine safe_look fun sequence => ?_
    by_cases hless : sequence < c * 2 + 2
    · rw [if_pos hless, notCommitted_eq hshared]
      exact learns (fun _ => id) fun v _ => readOk_unavailable c v
    by_cases hmore : sequence > c * 2 + 2
    · rw [if_neg hless, if_pos hmore]
      exact learns (fun _ => id) fun v _ => readOk_unavailable c v
    rw [if_neg hless, if_neg hmore]
    refine .bind (safe_readCommittedFrame.mono ?_)
    rintro result _ ⟨G, rfl, hG⟩
    cases result with
    | none =>
      exact ih.mono fun read m' hm => hm.mono (fun v hv => (hG v hv).1) fun _ _ => id
    | some frame =>
      refine learns (fun v hv => (hG v hv).1) fun v hv => ?_
      split
      · rename_i hcounter
        refine ⟨by rintro ⟨⟩, ?_⟩
        rintro _ ⟨⟩
        have hframe := (hG v hv).2 frame rfl
        rw [hcounter] at hframe
        exact ⟨hcounter, hframe⟩
      · exact readOk_unavailable c v

def ReadsOk (ids : NetIds) (next : Nat) (reads : List RingRead) (v : View) : Prop :=
  ∀ i read, reads[i]? = some read → ReadOk ids (next + i) read v

theorem safe_readFrom (hshared : r.topology ≠ .shared) {n next : Nat} :
    RingSafe r ids t call (readFrom r ids n next) (Learns cursor F (ReadsOk ids next))
      (reads cursor F) := by
  induction n generalizing F next with
  | zero => exact learns (fun _ => id) fun v _ i read hread => (nomatch hread)
  | succ n ih =>
    unfold readFrom
    refine .bind ((safe_readAttempts hshared 3).mono ?_)
    rintro read _ ⟨G, rfl, hG⟩
    by_cases hpending : read = .pending
    · rw [if_pos hpending]
      refine learns (fun v hv => (hG v hv).1) fun v hv i read' hread => ?_
      cases i with
      | zero =>
        cases hread
        exact (hG v hv).2
      | succ i => cases hread
    · rw [if_neg hpending]
      refine .bind (ih.mono ?_)
      rintro rest _ ⟨G', rfl, hG'⟩
      refine learns (fun v hv => (hG v (hG' v hv).1).1) fun v hv i read' hread => ?_
      obtain ⟨hread0, hrest⟩ := hG' v hv
      cases i with
      | zero =>
        cases hread
        exact (hG v hread0).2
      | succ i =>
        rw [Nat.add_succ, Nat.succ_eq_add_one, Nat.add_right_comm]
        exact hrest i read' hread

end

end OrbitRing
