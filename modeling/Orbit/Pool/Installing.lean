import Orbit.Pool.Holding

/-! Registering keeps the invariant of `Orbit.Pool.Shares`: the installation of a resource into a
slot of the lane, word by word under the mutex, and the first unit of `register_active`. -/

namespace OrbitPool

open Orbit.Atomic

variable {g : Geometry} {thread : Nat} {call : Call g}

section Keys

variable {m : Share}

theorem safe_holds (index : Nat) (key : Key) {Q : Bool → Share → Prop} (hQ : ∀ b, Q b m) :
    Safe (poolSys g) (inTenancy g) (Inv g) thread call (holds index key) Q m := by
  refine .bind (.load fun state => ?_)
  split
  · refine .bind (.load fun lo => ?_)
    split
    · exact .bind (.load fun hi => hQ _)
    · exact hQ false
  · exact hQ false

theorem safe_findKeyFrom (key : Key) (offsets : List Nat) {Q : Option Nat → Share → Prop}
    (hQ : ∀ found, Q found m) :
    Safe (poolSys g) (inTenancy g) (Inv g) thread call (findKeyFrom g key offsets) Q m := by
  induction offsets with
  | nil => exact hQ none
  | cons offset rest ih =>
    refine .bind (.load fun state => ?_)
    split
    · refine .bind (safe_holds _ key fun found => ?_)
      split
      · exact hQ _
      · exact ih
    · split
      · exact hQ none
      · exact ih

theorem safe_clearMembers (index : Nat) (words : List Nat) {Q : Unit → Share → Prop}
    (hQ : Q () m) :
    Safe (poolSys g) (inTenancy g) (Inv g) thread call (clearMembers index words) Q m := by
  induction words with
  | nil => exact hQ
  | cons word rest ih => exact .bind (safe_store id ih)

theorem safe_installKey (index : Nat) (key : Key) {Q : Unit → Share → Prop} (hQ : Q () m) :
    Safe (poolSys g) (inTenancy g) (Inv g) thread call (installKey g index key) Q m := by
  refine .bind (safe_store id (.bind (safe_store id (.bind (safe_store id ?_)))))
  refine .bind (safe_store id (.bind (safe_store id ?_)))
  exact .bind (safe_clearMembers index _ (safe_store id hQ))

theorem safe_keyIndexFrom (key : Key) (offsets : List Nat) {Q : Except Error Nat → Share → Prop}
    (hQ : ∀ found, Q found m) :
    Safe (poolSys g) (inTenancy g) (Inv g) thread call (keyIndexFrom g key offsets) Q m := by
  induction offsets with
  | nil => exact hQ _
  | cons offset rest ih =>
    refine .bind (.load fun state => ?_)
    split
    · refine .bind (safe_holds _ key fun found => ?_)
      split
      · exact hQ _
      · exact ih
    · split
      · exact .bind (safe_installKey _ key (hQ _))
      · exact ih

theorem safe_keyIndex (p : Pool g) (key : Key) {Q : Except Error Nat → Share → Prop}
    (hQ : ∀ found, Q found 0) :
    Safe (poolSys g) (inTenancy g) (Inv g) thread call (p.keyIndex key) Q 0 := by
  refine .bind (safe_findKeyFrom key _ fun found => ?_)
  cases found with
  | some index => exact hQ _
  | none =>
    refine .bind (safe_acquire 0 (.bind (safe_lock id ?_)))
    refine .bind (safe_keyIndexFrom key _ fun found => ?_)
    refine .bind (safe_store id (.bind (safe_release ?_)))
    rw [hold_zero]
    exact hQ found

end Keys

section Install

variable {i v c : Nat}

section Fresh

variable {s b : Bool} {n : Nat} {t : Tenancy} {w : Words}

theorem fresh_capacity (h : (LaneToken.fresh i v c s b n).Holds t w) :
    (LaneToken.fresh i v c true b n).Holds t (w.set c .capacity) := by
  obtain ⟨h1, h2, h3, h4, -, h6, h7⟩ := h
  exact ⟨h1, h2, h3, h4, fun _ => rfl, h6, h7⟩

theorem fresh_units (h : (LaneToken.fresh i v c s b n).Holds t w) :
    (LaneToken.fresh i v c s true n).Holds t (w.set 0 .units) := by
  obtain ⟨h1, h2, h3, h4, h5, -, h7⟩ := h
  have hzero : (unpackCounts 0).1 + (unpackCounts 0).2 ≤ 1 := by decide
  exact ⟨h1, h2, h3, h4, h5, fun _ => hzero, h7⟩

theorem fresh_fence (h : (LaneToken.fresh i v c s b n).Holds t w) :
    (LaneToken.fresh i v c s b n).Holds t (w.set 0 .fence) := h

theorem fresh_pending (h : (LaneToken.fresh i v c s b n).Holds t w) :
    (LaneToken.fresh i v c s b (n + 1)).Holds t (w.set 0 (.pending n)) := by
  obtain ⟨h1, h2, h3, h4, h5, h6, h7⟩ := h
  refine ⟨h1, h2, h3, h4, h5, h6, fun entry hentry => ?_⟩
  show Function.update w.pending n 0 entry = 0
  by_cases he : entry = n
  · rw [he, Function.update_self]
  · rw [Function.update_of_ne he]
    exact h7 entry (by omega)

end Fresh

theorem safe_installWord (f : Field) {s b s' b' : Bool} {n n' value : Nat}
    {Q : Unit → Share → Prop} (hf : f ≠ .generation)
    (hfresh : ∀ t w, (LaneToken.fresh i v c s b n).Holds t w →
      (LaneToken.fresh i v c s' b' n').Holds t (w.set value f))
    (hQ : Q () (grip (i / g.laneCapacity) (.fresh i v c s' b' n') i 0)) :
    Safe (poolSys g) (inTenancy g) (Inv g) thread call (store (f.addr i) value) Q
      (grip (i / g.laneCapacity) (.fresh i v c s b n) i 0) := by
  refine safe_grip f (.inr rfl) fun rest t w h => ⟨.fresh i v c s' b' n', 0, .inr rfl, ?_, hQ⟩
  have hold := h.lane (.fresh i v c s b n) (by simp) rfl
  refine h.install_word ?_ (hfresh t w hold)
  cases f with
  | generation => exact absurd rfl hf
  | _ => rfl

theorem safe_clearPending (count n : Nat) {s b : Bool} {Q : Unit → Share → Prop}
    (hQ : Q () (grip (i / g.laneCapacity) (.fresh i v c s b (n + count)) i 0)) :
    Safe (poolSys g) (inTenancy g) (Inv g) thread call (clearPending i (List.range' n count)) Q
      (grip (i / g.laneCapacity) (.fresh i v c s b n) i 0) := by
  induction count generalizing n with
  | zero => exact hQ
  | succ count ih =>
    refine .bind (safe_installWord (.pending n) (by simp) (fun t w => fresh_pending) ?_)
    refine .bind (safe_store id (ih (n + 1) ?_))
    rw [Nat.add_assoc, Nat.add_comm 1 count]
    exact hQ

theorem safe_readGeneration {Q : Nat → Share → Prop}
    (hQ : ∀ v, Q v (grip (i / g.laneCapacity) (.ready i v) i 0)) :
    Safe (poolSys g) (inTenancy g) (Inv g) thread call (load (.generation i)) Q
      (grip (i / g.laneCapacity) (.idle i) i 0) := by
  refine safe_grip .generation (.inr rfl) fun rest t w h => ?_
  refine ⟨.ready i w.generation, 0, .inr rfl, ?_, hQ w.generation⟩
  obtain ⟨hnot, htenant⟩ := h.lane (.idle i) (by simp) rfl
  exact h.elsewhere _ (by simp) fun _ => ⟨hnot, htenant, rfl⟩

theorem safe_installed {n : Nat} {Q : Unit → Share → Prop} (hn : pendingReservations ≤ n)
    (hQ : Q () (grip (i / g.laneCapacity) .held i {.seen (v + 1)})) :
    Safe (poolSys g) (inTenancy g) (Inv g) thread call
      (do store (.generation i) (v + 1); store (.state i) resourceLive) Q
      (grip (i / g.laneCapacity) (.fresh i v c true true n) i 0) := by
  refine safe_grip .generation (.inr rfl) fun rest t w h => ?_
  refine ⟨.ready i (v + 1), 0, .inr rfl, h.installed hn, ?_⟩
  refine safe_grip .state (.inr rfl) fun rest t w h => ?_
  refine ⟨.held, {SlotToken.seen (v + 1)}, .inl rfl, ?_, hQ⟩
  obtain ⟨-, -, hgen⟩ := h.lane (.ready i (v + 1)) (by simp) rfl
  have hseen : (SlotToken.seen (v + 1)).Holds t (w.set resourceLive .state) :=
    ⟨Nat.succ_pos v, hgen.ge⟩
  have hpublished : SlotOk i {.held} (0 + rest) t (w.set resourceLive .state) := h.published
  rw [zero_add] at hpublished
  rw [Multiset.singleton_add]
  exact hpublished.learn hseen (by simp)

theorem safe_install {node : Nat} (hnode : i / g.laneCapacity = node) (owner incarnation : Nat)
    (key : Key) (keyIndex now : Nat) {Q : Option Nat → Share → Prop} (hpos : 0 < c)
    (hlt : c < 2 ^ 32) (hnone : Q none (grip node .held i 0))
    (hsome : ∀ generation, Q (some generation) (grip node .held i {.seen generation})) :
    Safe (poolSys g) (inTenancy g) (Inv g) thread call
      (install i owner incarnation key keyIndex c now) Q (grip node (.idle i) i 0) := by
  subst hnode
  refine .bind (safe_readGeneration fun v => ?_)
  split
  · exact safe_grip .state (.inr rfl) fun rest t w h => ⟨.held, 0, .inl rfl, h.published, hnone⟩
  refine .bind (safe_grip_mark (fun t => t.installing (v + 1) c) (fun _ => rfl) (.inr rfl)
    (.inr rfl) (fun rest t w h => h.installing hpos hlt) ?_)
  -- the words that say whose the resource is are not watched
  refine .bind (safe_store id (.bind (safe_store id (.bind (safe_store id ?_)))))
  refine .bind (safe_store id (.bind (safe_installWord .capacity (by simp)
    (fun t w => fresh_capacity) ?_)))
  refine .bind (safe_store id (.bind (safe_installWord .units (by simp)
    (fun t w => fresh_units) ?_)))
  refine .bind (safe_installWord .fence (by simp) (fun t w => fresh_fence)
    (.bind (safe_store id ?_)))
  rw [List.range_eq_range']
  refine .bind (safe_clearPending _ _ ?_)
  rw [← bind_assoc]
  exact .bind (safe_installed (Nat.le_add_left _ _) (hsome (v + 1)))

end Install

theorem lane_div (p : Pool g) {offset : Nat} (h : offset < g.laneCapacity) :
    (p.node * g.laneCapacity + offset) / g.laneCapacity = p.node := by
  rw [Nat.mul_comm, Nat.mul_add_div g.lane_pos, Nat.div_eq_of_lt h, Nat.add_zero]

theorem safe_findFree {i node : Nat} (hnode : i / g.laneCapacity = node) {Q : Nat → Share → Prop}
    (hfree : ∀ state, state = resourceEmpty ∨ state = resourceClosed →
      Q state (grip node (.idle i) i 0))
    (htaken : ∀ state, ¬(state = resourceEmpty ∨ state = resourceClosed) →
      Q state (grip node .held i 0)) :
    Safe (poolSys g) (inTenancy g) (Inv g) thread call (load (.state i)) Q
      (grip node .held i 0) := by
  subst hnode
  refine safe_grip .state (.inl rfl) fun rest t w h => ?_
  by_cases hf : w.state = resourceEmpty ∨ w.state = resourceClosed
  · refine ⟨.idle i, 0, .inr rfl, ?_, hfree _ hf⟩
    refine h.elsewhere _ (by simp) fun _ => ⟨?_, ?_⟩
    · show ¬(w.state = resourceLive ∨ w.state = resourceDraining)
      rcases hf with hs | hs <;> rw [hs] <;> decide
    · rcases h.window with heq | ⟨_, _, _, _, _, hmem⟩
      · exact heq
      · exact absurd (Multiset.mem_singleton.mp hmem) (by simp)
  · exact ⟨.held, 0, .inl rfl, h, htaken _ hf⟩

theorem grip_empty (node : Nat) (token : LaneToken) (i j : Nat) :
    grip node token i 0 = grip node token j 0 := by
  rw [grip, grip, Pi.single_zero, Pi.single_zero]

theorem safe_allocateFrom (p : Pool g) (key : Key) (keyIndex capacity now hint : Nat)
    (offsets : List Nat) {Q : Except Error (Nat × Nat) → Share → Prop} (hpos : 0 < capacity)
    (hlt : capacity < 2 ^ 32) (herror : ∀ e, Q (.error e) (grip p.node .held 0 0))
    (hok : ∀ offset generation, offset < g.laneCapacity →
      Q (.ok (p.node * g.laneCapacity + offset, generation))
        (grip p.node .held (p.node * g.laneCapacity + offset) {.seen generation})) :
    Safe (poolSys g) (inTenancy g) (Inv g) thread call
      (allocateFrom p key keyIndex capacity now hint offsets) Q (grip p.node .held 0 0) := by
  induction offsets with
  | nil => exact herror _
  | cons offset rest ih =>
    have hoffset : (hint + offset) &&& (g.laneCapacity - 1) < g.laneCapacity := by
      have hle : (hint + offset) &&& (g.laneCapacity - 1) ≤ g.laneCapacity - 1 := Nat.and_le_right
      have hpos := g.lane_pos
      omega
    show Safe _ _ _ _ _ (load (Addr.state (p.node * g.laneCapacity +
      ((hint + offset) &&& (g.laneCapacity - 1)))) >>= _) _ _
    generalize hindex : (hint + offset) &&& (g.laneCapacity - 1) = k at hoffset ⊢
    have hnode := lane_div p hoffset
    rw [grip_empty _ _ 0 (p.node * g.laneCapacity + k)] at herror ih ⊢
    refine .bind (safe_findFree hnode (fun state hs => ?_) fun state hs => ?_)
    · rw [if_pos hs]
      refine .bind (safe_install hnode _ _ key keyIndex now hpos hlt ih fun generation => ?_)
      exact .bind (safe_store id (hok k generation hoffset))
    · rw [if_neg hs]
      exact ih

theorem safe_allocate (p : Pool g) (key : Key) (keyIndex capacity now : Nat)
    {Q : Except Error (Nat × Nat) → Share → Prop} (hpos : 0 < capacity)
    (hlt : capacity < 2 ^ 32) (herror : ∀ e, Q (.error e) 0)
    (hok : ∀ offset generation, offset < g.laneCapacity →
      Q (.ok (p.node * g.laneCapacity + offset, generation))
        (hold (p.node * g.laneCapacity + offset) {.seen generation})) :
    Safe (poolSys g) (inTenancy g) (Inv g) thread call
      (p.allocate key keyIndex capacity now) Q 0 := by
  refine .bind (safe_acquire 0 (.bind (.load fun hint => ?_)))
  refine .bind (safe_allocateFrom p key keyIndex capacity now hint _ hpos hlt (fun e => ?_)
    fun offset generation hoffset => ?_)
  · refine .bind (safe_release ?_)
    rw [hold_zero]
    exact herror e
  · exact .bind (safe_release (hok offset generation hoffset))

section Publish

variable {i v : Nat}

theorem safe_activate {p : Pool g} {key : Key} {capacity : UInt32} {now : Nat}
    (hcall : call = .registerActive p key capacity now) {Q : Unit → Share → Prop}
    (hact : Q () (hold i {.act v, .seen v})) (hpast : Q () (hold i {.past v, .seen v})) :
    Safe (poolSys g) (inTenancy g) (Inv g) thread call (store (.units i) (packCounts 0 1)) Q
      (hold i {.seen v}) := by
  subst hcall
  refine safe_field .units fun mutex rest t w h hallowed => ?_
  have hzero : w.units = 0 := (hallowed _ rfl).2 rfl rfl
  obtain ⟨hpos, hv⟩ := h.holds (.seen v) (by simp)
  have hactive := h.activate hpos hv hzero
  by_cases ht : t.tenant = v
  · rw [if_pos ht, ← Multiset.cons_add] at hactive
    exact ⟨{SlotToken.act v, SlotToken.seen v}, hactive, hact⟩
  · rw [if_neg ht, ← Multiset.cons_add] at hactive
    exact ⟨{SlotToken.past v, SlotToken.seen v}, hactive, hpast⟩

theorem safe_started {lease : Lease} {token : SlotToken} {α : Type} {value : α}
    (hindex : lease.id.index g = i) (hgen : lease.id.generation = v)
    (htoken : token = .act v ∨ token = .past v) :
    Safe (poolSys g) (inTenancy g) (Inv g) thread call (do mark (.started lease); return value)
      (fun _ _ => True) (hold i {token, .seen v}) := by
  refine safe_mark (fun t => t.started lease) (fun h => by rw [← hindex]; rfl)
    fun mutex rest t w h => ⟨{SlotToken.seen v}, ?_, trivial⟩
  have hv := (h.holds (.seen v) (by simp)).2
  rw [Multiset.insert_eq_cons, Multiset.cons_add] at h
  refine h.started hgen hv (Multiset.le_cons_self _ _) fun ht => ?_
  rcases htoken with rfl | rfl
  · exact le_refl _
  · have hpast : v < t.tenant := h.holds (.past v) (by simp)
    omega

theorem safe_publish (p : Pool g) (keyIndex capacity : Nat) (active : Bool) (offset generation : Nat)
    (hoffset : offset < g.laneCapacity)
    (hcall : active = true → ∃ key capacity now, call = .registerActive p key capacity now) :
    Safe (poolSys g) (inTenancy g) (Inv g) thread call
      (p.publish keyIndex capacity active (p.node * g.laneCapacity + offset) generation)
      (fun _ _ => True) (hold (p.node * g.laneCapacity + offset) {.seen generation}) := by
  have hslot : (p.node * g.laneCapacity + offset) % g.laneCapacity = offset := by
    rw [Nat.mul_comm, Nat.mul_add_mod, Nat.mod_eq_of_lt hoffset]
  have hledger : ∀ (m : Share) (rest : PoolM (ResourceId × Option Execution)),
      Safe (poolSys g) (inTenancy g) (Inv g) thread call rest (fun _ _ => True) m →
      Safe (poolSys g) (inTenancy g) (Inv g) thread call (do
        let _ ← fetchOr (.members keyIndex ((p.node * g.laneCapacity + offset) / 64))
          (2 ^ ((p.node * g.laneCapacity + offset) % 64))
        addAvailable g keyIndex (capacity - if active then 1 else 0)
        let _ ← tryUpdate (.counts keyIndex) fun counts =>
          some (packCounts ((unpackCounts counts).1 + 1) (unpackCounts counts).2)
        rest) (fun _ _ => True) m := by
    intro m rest hrest
    refine safe_skip (.inl id) fun _ => .bind (.bind (safe_addAvailable keyIndex _ ?_))
    exact safe_skip (.inl id) fun _ => hrest
  unfold Pool.publish
  rw [hslot]
  cases active with
  | false => exact hledger _ _ trivial
  | true =>
    obtain ⟨key, capacity, now, hcall⟩ := hcall rfl
    refine .bind (safe_activate hcall ?_ ?_)
    · exact hledger _ _ (safe_started rfl rfl (.inl rfl))
    · exact hledger _ _ (safe_started rfl rfl (.inr rfl))

theorem safe_registerInner (p : Pool g) (key : Key) (capacity : UInt32) (active : Bool) (now : Nat)
    (hpos : capacity.toNat ≠ 0)
    (hcall : active = true → ∃ key capacity now, call = .registerActive p key capacity now) :
    Safe (poolSys g) (inTenancy g) (Inv g) thread call
      (p.registerInner key capacity.toNat active now) (fun _ _ => True) 0 := by
  refine .bind (safe_keyIndex p key fun found => ?_)
  cases found with
  | error e => trivial
  | ok keyIndex =>
    refine .bind (safe_allocate p key keyIndex _ now (by omega) capacity.toNat_lt (fun _ => trivial)
      fun offset generation hoffset => ?_)
    refine .bind ((safe_publish p keyIndex _ active offset generation hoffset hcall).mono ?_)
    exact fun _ _ _ => trivial

end Publish

theorem safe_register (p : Pool g) (key : Key) (capacity : UInt32) (now : Nat) :
    Safe (poolSys g) (inTenancy g) (Inv g) thread call (p.register key capacity.toNat now)
      (fun _ _ => True) 0 := by
  unfold Pool.register
  split
  · trivial
  · rename_i hpos
    refine .bind ((safe_registerInner p key capacity false now hpos (by simp)).mono fun r _ _ => ?_)
    cases r <;> trivial

theorem safe_registerActive (p : Pool g) (key : Key) (capacity : UInt32) (now : Nat)
    (hcall : call = .registerActive p key capacity now) :
    Safe (poolSys g) (inTenancy g) (Inv g) thread call (p.registerActive key capacity.toNat now)
      (fun _ _ => True) 0 := by
  unfold Pool.registerActive
  split
  · trivial
  · rename_i hpos
    exact safe_registerInner p key capacity true now hpos fun _ => ⟨key, capacity, now, hcall⟩

end OrbitPool
