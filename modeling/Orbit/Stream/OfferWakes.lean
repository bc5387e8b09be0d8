import Orbit.Atomic.Ledger
import Orbit.Stream.Waiting

/-! No thread sleeps through an offer: a thread parks only when nothing was rung since it looked,
and whoever rings from then on finds it counted. -/

namespace OrbitStream.Waiting

open Orbit.Atomic List Function Option

section

variable {listening : Nat}

theorem listeners_arm (listening : Nat) :
    listeners (listening ||| 2 ^ 31) = listeners listening := by
  rw [listeners, Nat.or_mod_two_pow, Nat.mod_self, Nat.or_zero, listeners]

theorem listeners_disarmed (listening : Nat) :
    listeners (disarmed listening) = listeners listening := by
  rw [listeners, disarmed, Nat.xor_mod_two_pow, Nat.and_mod_two_pow, Nat.mod_self, Nat.and_zero,
    Nat.xor_zero, listeners]

theorem listeners_add (h : listeners listening + 1 < 2 ^ 31) :
    listeners ((listening + 1) % 2 ^ 32) = listeners listening + 1 := by
  unfold listeners at *
  omega

theorem listeners_sub (h : 0 < listeners listening) :
    listeners ((listening + (2 ^ 32 - 1)) % 2 ^ 32) + 1 = listeners listening := by
  unfold listeners at *
  omega

end

section

variable {α : Type} {l : List α} {n : Nat} {a b c : α}

theorem mem_set_self (h : l[n]? = some a) : b ∈ l.set n b :=
  mem_set (List.getElem?_eq_some_iff.mp h).1 b

theorem mem_set_of_ne (h : l[n]? = some a) (hc : c ∈ l) (hne : c ≠ a) : c ∈ l.set n b := by
  obtain ⟨m, hm⟩ := mem_iff_getElem?.mp hc
  refine mem_iff_getElem?.mpr ⟨m, ?_⟩
  rw [getElem?_set_ne, hm]
  rintro rfl
  rw [h] at hm
  exact hne (Option.some.inj hm).symm

end

def Call.tells : Call → Bool
  | rings | listens | wakes => true
  | disarms listening => decide (listeners listening > 0)
  | sets _ | done => false

/-- How many words of the bitmap the thread has found empty since it loaded the generation. -/
def Waiter.past (words : Nat) (w : Waiter) : Nat :=
  match w.phase with
  | .rechecks _ word => word
  | .waits _ => words
  | _ => 0

structure Inv (words : Nat) (s : State) : Prop where
  word_lt : s.listening < 2 ^ 32
  count : s.counted ≤ listeners s.listening
  fresh : ∀ w ∈ s.waiters, w.stale = false → ∀ word < w.past words, s.offers word ≠ 0 →
    Call.rings ∈ s.calls
  told : ∀ w ∈ s.waiters, w.isParked = true → ∀ word < words, s.offers word ≠ 0 →
    ∃ c ∈ s.calls, c.tells = true

section

variable {words current : Nat} {s s' : State} {n : Nat}

theorem Start.inv (h : Start current s) : Inv words s where
  word_lt := h.listening
  count := by
    rw [State.counted, h.waiters, h.driver]
    exact Nat.zero_le _
  fresh w hw := by
    rw [h.waiters] at hw
    cases hw
  told w hw := by
    rw [h.waiters] at hw
    cases hw

theorem Inv.recount (h : Inv words s) {listening : Nat} {driver : Driver}
    (hlt : listening < 2 ^ 32)
    (hcount : s.waiters.countP Waiter.counted + driver.counted ≤ listeners listening)
    (incarnation : Nat) (reports : List Report) :
    Inv words { s with
      listening := listening, driver := driver, incarnation := incarnation, reports := reports } :=
  ⟨hlt, hcount, h.fresh, h.told⟩

theorem Inv.called (h : Inv words s) (c : Call) : Inv words { s with calls := s.calls ++ [c] } where
  word_lt := h.word_lt
  count := h.count
  fresh w hw hstale word hword hbit :=
    mem_append_left _ (h.fresh w hw hstale word hword hbit)
  told w hw hparked word hword hbit := by
    obtain ⟨c', hc, htells⟩ := h.told w hw hparked word hword hbit
    exact ⟨c', mem_append_left _ hc, htells⟩

theorem Inv.heard (h : Inv words s) {w : Waiter} (hw : w ∈ s.waiters)
    (hparked : w.isParked = true) : 0 < listeners s.listening := by
  have hcounted : w.counted = true := by
    unfold Waiter.isParked at hparked
    split at hparked
    next hphase => rw [Waiter.counted, hphase]
    next => cases hparked
  have hpos : 0 < s.waiters.countP Waiter.counted := countP_pos_iff.mpr ⟨w, hw, hcounted⟩
  exact Nat.lt_of_lt_of_le (Nat.lt_of_lt_of_le hpos (Nat.le_add_right _ _)) h.count

theorem Inv.sets (h : Inv words s) {index : Nat} (hn : s.calls[n]? = some (.sets index))
    (offers : Nat → Nat) :
    Inv words { s with offers := offers, calls := s.calls.set n .rings } where
  word_lt := h.word_lt
  count := h.count
  fresh _ _ _ _ _ _ := mem_set_self hn
  told _ _ _ _ _ _ := ⟨.rings, mem_set_self hn, rfl⟩

theorem Inv.bumps (h : Inv words s) (generation : Nat) :
    Inv words { s with
      generation := generation
      waiters := s.waiters.map fun w => { w with stale := true } } where
  word_lt := h.word_lt
  count := by
    refine Nat.le_trans (Nat.le_of_eq ?_) h.count
    rw [State.counted, State.counted, countP_map]
    rfl
  fresh w hw hstale := by
    obtain ⟨w', -, rfl⟩ := List.mem_map.mp hw
    cases hstale
  told w hw hparked := by
    obtain ⟨w', hw', rfl⟩ := List.mem_map.mp hw
    exact h.told w' hw' hparked

theorem Inv.goes (h : Inv words s) {c c' : Call} (hn : s.calls[n]? = some c) (hrung : c ≠ .rings)
    (htells : c.tells = true → 0 < listeners s.listening → c'.tells = true) :
    Inv words { s with calls := s.calls.set n c' } where
  word_lt := h.word_lt
  count := h.count
  fresh w hw hstale word hword hbit :=
    mem_set_of_ne hn (h.fresh w hw hstale word hword hbit) (Ne.symm hrung)
  told w hw hparked word hword hbit := by
    obtain ⟨c'', hc, hc''⟩ := h.told w hw hparked word hword hbit
    by_cases heq : c'' = c
    · subst heq
      exact ⟨c', mem_set_self hn, htells hc'' (h.heard hw hparked)⟩
    · exact ⟨c'', mem_set_of_ne hn hc heq, hc''⟩

theorem Inv.rings (h : Inv words s) (hn : s.calls[n]? = some .rings) (generation : Nat) :
    Inv words { s with
      generation := generation
      waiters := s.waiters.map fun w => { w with stale := true }
      calls := s.calls.set n .listens } where
  word_lt := h.word_lt
  count := (h.bumps generation).count
  fresh w hw hstale := by
    obtain ⟨w', -, rfl⟩ := List.mem_map.mp hw
    cases hstale
  told w hw hparked word hword hbit := ⟨.listens, mem_set_self hn, rfl⟩

theorem Waiter.woken_counted (w : Waiter) : w.woken.counted = w.counted := by
  unfold Waiter.woken
  split
  next hphase => rw [Waiter.counted, Waiter.counted, hphase]
  next => rfl

theorem Waiter.woken_past (w : Waiter) : w.woken.past words ≤ w.past words := by
  unfold Waiter.woken
  split
  · exact Nat.zero_le _
  · exact Nat.le_refl _

theorem Waiter.woken_stale (w : Waiter) : w.woken.stale = w.stale := by
  unfold Waiter.woken
  split <;> rfl

theorem Waiter.woken_isParked (w : Waiter) : w.woken.isParked = false := by
  unfold Waiter.woken
  split
  next => rfl
  next hphase =>
    unfold Waiter.isParked
    split
    next seen hparked => exact absurd hparked (hphase seen)
    next => rfl

theorem Inv.wakes (h : Inv words s) (hn : s.calls[n]? = some .wakes) :
    Inv words { s with
      waiters := s.waiters.map Waiter.woken, calls := s.calls.set n .done } where
  word_lt := h.word_lt
  count := by
    refine Nat.le_trans (Nat.le_of_eq ?_) h.count
    rw [State.counted, State.counted, countP_map]
    congr 2
    exact funext Waiter.woken_counted
  fresh w hw hstale word hword hbit := by
    obtain ⟨w', hw', rfl⟩ := List.mem_map.mp hw
    rw [w'.woken_stale] at hstale
    have hrings := h.fresh w' hw' hstale word (Nat.lt_of_lt_of_le hword w'.woken_past) hbit
    exact mem_set_of_ne hn hrings (by simp)
  told w hw hparked := by
    obtain ⟨w', -, rfl⟩ := List.mem_map.mp hw
    rw [w'.woken_isParked] at hparked
    cases hparked

theorem Call.heard_tells {listening : Nat} :
    (Call.heard listening).tells = decide (listeners listening > 0) := by
  unfold Call.heard
  split
  next hpos => exact (decide_eq_true hpos).symm
  next hzero => exact (decide_eq_false hzero).symm

theorem Inv.call (h : Inv words s) {c : Call} (hn : s.calls[n]? = some c)
    (hstep : stepCall s n c = some s') : Inv words s' := by
  cases c with
  | sets index =>
    cases hstep
    exact h.sets hn _
  | rings =>
    cases hstep
    exact h.rings hn _
  | listens =>
    cases hstep
    refine h.goes hn (by simp) fun _ hpos => ?_
    split
    · exact decide_eq_true hpos
    · rw [Call.heard_tells]
      exact decide_eq_true hpos
  | disarms listening =>
    cases hstep
    have hcleared : Inv words { s with listening := disarmed s.listening } := by
      refine h.recount ?_ ?_ s.incarnation s.reports
      · exact Nat.xor_lt_two_pow h.word_lt (Nat.lt_of_le_of_lt Nat.and_le_left h.word_lt)
      · rw [listeners_disarmed]
        exact h.count
    exact hcleared.goes hn (by simp) fun htells _ => Call.heard_tells.trans htells
  | wakes =>
    cases hstep
    exact h.wakes hn
  | done => cases hstep

theorem Inv.turn (h : Inv words s) {w w' : Waiter} (hn : s.waiters[n]? = some w) {listening : Nat}
    (hlt : listening < 2 ^ 32)
    (hcount : listeners s.listening + (if w'.counted then 1 else 0) =
      listeners listening + (if w.counted then 1 else 0))
    (hfresh : w'.stale = false → ∀ word < w'.past words, s.offers word ≠ 0 → Call.rings ∈ s.calls)
    (htold : w'.isParked = true → ∀ word < words, s.offers word ≠ 0 → Call.rings ∈ s.calls) :
    Inv words { s with listening := listening, waiters := s.waiters.set n w' } where
  word_lt := hlt
  count := by
    have hset := countP_set_add hn Waiter.counted (b := w')
    have hle := h.count
    unfold State.counted at hle ⊢
    dsimp only
    omega
  fresh v hv := by
    rcases mem_or_eq_of_mem_set hv with hv | rfl
    · exact h.fresh v hv
    · exact hfresh
  told v hv hparked word hword hbit := by
    rcases mem_or_eq_of_mem_set hv with hv | rfl
    · exact h.told v hv hparked word hword hbit
    · exact ⟨.rings, htold hparked word hword hbit, rfl⟩

theorem Inv.moves (h : Inv words s) {w w' : Waiter} (hn : s.waiters[n]? = some w)
    (hcounted : w'.counted = w.counted) (hpast : w'.past words = 0)
    (hparked : w'.isParked = false) : Inv words { s with waiters := s.waiters.set n w' } := by
  refine h.turn hn h.word_lt (by rw [hcounted]) (fun _ word hword => ?_) fun hp => ?_
  · rw [hpast] at hword
    exact absurd hword (Nat.not_lt_zero _)
  · rw [hparked] at hp
    cases hp

theorem Inv.waiter (h : Inv words s) {failed : Bool} {w : Waiter} (hn : s.waiters[n]? = some w)
    (hok : careful s (.waiter n failed) = true) (hstep : stepWaiter words failed s n w = some s') :
    Inv words s' := by
  obtain ⟨timed, stale, phase⟩ := w
  have hmem := mem_of_getElem? hn
  cases phase with
  | looks word =>
    simp only [stepWaiter] at hstep
    split at hstep
    · cases hstep
      split
      · exact h.moves hn rfl rfl rfl
      · exact h.moves hn rfl rfl rfl
    · cases hstep
      exact h.moves hn rfl rfl rfl
  | enters =>
    simp only [careful, hn, decide_eq_true_eq] at hok
    cases hstep
    refine h.turn hn (Nat.mod_lt _ (by decide)) ?_ (fun _ word hword => ?_) fun hp => (by cases hp)
    · rw [listeners_add hok]
      rfl
    · exact absurd hword (Nat.not_lt_zero _)
  | loads =>
    cases hstep
    exact h.moves hn rfl rfl rfl
  | rechecks seen word =>
    simp only [stepWaiter] at hstep
    have hpast := h.fresh _ hmem
    split at hstep
    · cases hstep
      split
      · exact h.moves hn rfl rfl rfl
      next hzero =>
        refine h.turn hn h.word_lt rfl (fun hstale looked hlooked hbit => ?_)
          fun hp => (by cases hp)
        rcases Nat.lt_succ_iff_lt_or_eq.mp hlooked with hlt | rfl
        · exact hpast hstale looked hlt hbit
        · exact absurd hbit hzero
    next hend =>
      cases hstep
      refine h.turn hn h.word_lt rfl (fun hstale looked hlooked hbit => ?_) fun hp => (by cases hp)
      exact hpast hstale looked (Nat.lt_of_lt_of_le hlooked (Nat.not_lt.mp hend)) hbit
  | waits seen =>
    simp only [careful, hn] at hok
    cases hstep
    split
    next heq =>
      -- the generation is the one that was loaded, and not one that came round again
      refine h.turn hn h.word_lt rfl (fun _ word hword => absurd hword (Nat.not_lt_zero _)) ?_
      intro _ word hword hbit
      have hstale : stale = false := by
        rw [heq] at hok
        simpa using hok
      exact h.fresh _ hmem hstale word hword hbit
    next => exact h.moves hn rfl rfl rfl
  | leaves =>
    cases hstep
    have hcounted : 0 < s.waiters.countP Waiter.counted :=
      countP_pos_iff.mpr ⟨_, hmem, rfl⟩
    have hpos : 0 < listeners s.listening := by
      have hle := h.count
      unfold State.counted at hle
      omega
    have hsub := listeners_sub hpos
    split
    · refine h.turn hn (Nat.mod_lt _ (by decide)) hsub.symm
        (fun _ word hword => absurd hword (Nat.not_lt_zero _)) fun hp => (by cases hp)
    · refine h.turn hn (Nat.mod_lt _ (by decide)) hsub.symm
        (fun _ word hword => absurd hword (Nat.not_lt_zero _)) fun hp => (by cases hp)
  | parked seen => cases hstep
  | done => cases hstep

theorem Inv.interrupts (h : Inv words s) {w : Waiter} (hn : s.waiters[n]? = some w) :
    Inv words { s with waiters := s.waiters.set n w.woken } := by
  refine h.turn hn h.word_lt (by rw [w.woken_counted])
    (fun hstale word hword hbit => ?_) fun hp => ?_
  · rw [w.woken_stale] at hstale
    exact h.fresh w (mem_of_getElem? hn) hstale word
      (Nat.lt_of_lt_of_le hword w.woken_past) hbit
  · rw [w.woken_isParked] at hp
    cases hp

theorem Inv.comes (h : Inv words s) (timed : Bool) :
    Inv words { s with waiters := s.waiters ++ [⟨timed, false, .looks 0⟩] } where
  word_lt := h.word_lt
  count := by
    refine Nat.le_trans (Nat.le_of_eq ?_) h.count
    rw [State.counted, State.counted, countP_append]
    rfl
  fresh w hw hstale word hword := by
    rcases mem_append.mp hw with hw | hw
    · exact h.fresh w hw hstale word hword
    · obtain rfl := mem_singleton.mp hw
      exact absurd hword (Nat.not_lt_zero _)
  told w hw hparked := by
    rcases mem_append.mp hw with hw | hw
    · exact h.told w hw hparked
    · obtain rfl := mem_singleton.mp hw
      cases hparked

theorem Inv.taken (h : Inv words s) (word bits : Nat) :
    Inv words { s with
      offers := update s.offers word (s.offers word ^^^ (s.offers word &&& bits)) } := by
  have hleft : ∀ looked, update s.offers word
      (s.offers word ^^^ (s.offers word &&& bits)) looked ≠ 0 → s.offers looked ≠ 0 := by
    intro looked hbit
    by_cases hword : looked = word
    · subst hword
      rw [update_self] at hbit
      intro hzero
      rw [hzero, Nat.zero_and] at hbit
      exact hbit rfl
    · rwa [update_of_ne hword] at hbit
  exact
    { word_lt := h.word_lt
      count := h.count
      fresh := fun w hw hstale looked hlooked hbit =>
        h.fresh w hw hstale looked hlooked (hleft looked hbit)
      told := fun w hw hparked looked hlooked hbit =>
        h.told w hw hparked looked hlooked (hleft looked hbit) }

theorem Inv.report (h : Inv words s) {r : Report} (hn : s.reports[n]? = some r)
    (hok : careful s (.reporter n) = true) (hstep : stepReport s n r = some s') : Inv words s' := by
  simp only [careful, hn] at hok
  obtain ⟨incarnation, phase⟩ := r
  cases phase with
  | compares =>
    cases hstep
    exact h.recount h.word_lt h.count _ _
  | clears =>
    cases hstep
    refine h.recount (by decide) ?_ _ _
    have hnone : s.counted = 0 := by simpa using hok
    exact Nat.le_of_eq (hnone.trans rfl)
  | forgets =>
    cases hstep
    exact h.recount h.word_lt h.count _ _
  | done => cases hstep

theorem Inv.kept (h : Inv words s) {a : Action} (hok : careful s a = true)
    (hstep : step words current s a = some s') : Inv words s' := by
  have hdriver : ∀ {driver driver' : Driver}, s.driver = driver →
      driver'.counted = driver.counted →
      s.waiters.countP Waiter.counted + driver'.counted ≤ listeners s.listening := by
    rintro _ driver' rfl hsame
    rw [hsame]
    exact h.count
  cases a with
  | offer index =>
    obtain ⟨-, heq⟩ := ite_none_right_eq_some.mp hstep
    cases heq
    exact h.called _
  | ring =>
    cases hstep
    exact h.called _
  | call m =>
    obtain ⟨c, hc, hcall⟩ := bind_eq_some_iff.mp hstep
    exact h.call hc hcall
  | takeOffer timed =>
    cases hstep
    exact h.comes timed
  | waiter m failed =>
    obtain ⟨w, hw, hwaiter⟩ := bind_eq_some_iff.mp hstep
    exact h.waiter hw hok hwaiter
  | interrupt m =>
    obtain ⟨w, hw, rfl⟩ := map_eq_some_iff.mp hstep
    exact h.interrupts hw
  | taken word bits =>
    cases hstep
    exact h.taken word bits
  | startDriver =>
    obtain ⟨hoff, heq⟩ := ite_none_right_eq_some.mp hstep
    cases heq
    have hcount : _ + Driver.enters.counted ≤ _ := hdriver hoff rfl
    exact h.recount h.word_lt hcount _ _
  | entersDriver =>
    obtain ⟨henters, heq⟩ := ite_none_right_eq_some.mp hstep
    cases heq
    have hroom : listeners s.listening + 1 < 2 ^ 31 := of_decide_eq_true hok
    have hle : _ + Driver.enters.counted ≤ _ := hdriver henters rfl
    refine h.recount (Nat.mod_lt _ (by decide)) ?_ _ _
    rw [listeners_add hroom]
    exact Nat.succ_le_succ hle
  | stopDriver =>
    obtain ⟨hruns, heq⟩ := ite_none_right_eq_some.mp hstep
    cases heq
    have hle : _ + Driver.runs.counted ≤ _ := hdriver hruns rfl
    have hpos : 0 < listeners s.listening := Nat.lt_of_lt_of_le (Nat.succ_pos _) hle
    have hsub := listeners_sub hpos
    refine h.recount (Nat.mod_lt _ (by decide)) ?_ _ _
    rw [← hsub] at hle
    exact Nat.le_of_succ_le_succ hle
  | bumps =>
    cases hstep
    exact h.bumps _
  | startReactor =>
    obtain ⟨hoff, heq⟩ := ite_none_right_eq_some.mp hstep
    cases heq
    have hcount : _ + Driver.reactor.counted ≤ _ := hdriver hoff rfl
    exact h.recount h.word_lt hcount _ _
  | arms =>
    obtain ⟨hreactor, heq⟩ := ite_none_right_eq_some.mp hstep
    cases heq
    refine h.recount (Nat.or_lt_two_pow h.word_lt (by decide)) ?_ _ _
    rw [listeners_arm]
    exact h.count
  | stopReactor =>
    obtain ⟨hreactor, heq⟩ := ite_none_right_eq_some.mp hstep
    cases heq
    refine h.recount ?_ ?_ _ _
    · exact Nat.xor_lt_two_pow h.word_lt (Nat.lt_of_le_of_lt Nat.and_le_left h.word_lt)
    · rw [listeners_disarmed]
      exact hdriver hreactor rfl
  | report incarnation =>
    obtain ⟨-, heq⟩ := ite_none_left_eq_some.mp hstep
    cases heq
    exact h.recount h.word_lt h.count _ _
  | reporter m =>
    obtain ⟨r, hr, hreport⟩ := bind_eq_some_iff.mp hstep
    exact h.report hr hok hreport

/-- Where no report of a death clears the count of a life that has waiters, no thread is left parked
with an offer to take, and the count has in it everyone who will leave it. -/
theorem offer_waiters_survive
    (h : Reached (step words current) (fun s a => careful s a = true) (Start current) s) :
    ¬Stranded words s ∧ s.counted ≤ listeners s.listening := by
  have hinv : Inv words s :=
    h.holds (fun _ hs => hs.inv) fun _ _ _ hs hok hstep => hs.kept hok hstep
  refine ⟨?_, hinv.count⟩
  rintro ⟨⟨word, hword, hbit⟩, hquiet, w, hw, hparked⟩
  obtain ⟨c, hc, htells⟩ := hinv.told w hw hparked word hword hbit
  have hringing := hquiet c hc
  cases c with
  | sets _ | done => cases htells
  | rings | listens | disarms _ | wakes => cases hringing

end

def State.left : State where
  offers _ := 0
  generation := 0
  listening := 1
  incarnation := 1
  calls := []
  waiters := []
  driver := .off
  reports := []

theorem start_left : Start 2 .left := ⟨by decide, rfl, rfl, fun _ h => (by cases h)⟩

def parks : List Action := .takeOffer false :: replicate 7 (.waiter 0 false)

def offers (steps : Nat) : List Action := .offer 0 :: replicate steps (.call 0)

def reported : List Action := .report 1 :: replicate 3 (.reporter 0) ++ parks ++ offers 4

theorem offer_waiters_survive_woken : ∃ s,
    Reached (step 1 2) (fun s a => careful s a = true) (Start 2) s ∧ s.offers 0 = 1 ∧
      s.waiters.map Waiter.phase = [.leaves] ∧ ¬Stranded 1 s ∧
      s.counted ≤ listeners s.listening := by
  have hrun : (actAll (step 1 2) (fun s a => careful s a = true) .left reported).any
      (fun s => s.offers 0 == 1 && s.waiters.map Waiter.phase == [.leaves]) = true := by decide
  obtain ⟨s, hs, hends⟩ := Reached.exists_of_actAll (.start start_left) hrun
  obtain ⟨hoffer, hphase⟩ := Bool.and_eq_true_iff.mp hends
  exact ⟨s, hs, beq_iff_eq.mp hoffer, beq_iff_eq.mp hphase, offer_waiters_survive hs⟩

/-- The report comes after the thread has parked: it clears the count, the offer finds nobody
counted, and the thread that leaves at last takes the count below zero. -/
def reportedLate : List Action := parks ++ .report 1 :: replicate 3 (.reporter 0) ++ offers 3

theorem late_report_strands :
    (∃ s, Reached (step 1 2) anyAction (Start 2) s ∧ Stranded 1 s) ∧
      ∃ s, Reached (step 1 2) anyAction (Start 2) s ∧ s.listening = 2 ^ 32 - 1 := by
  constructor
  · have hrun : (actAll (step 1 2) anyAction .left reportedLate).any
        (fun s => s.offers 0 != 0 && s.calls.all (fun c => !c.ringing) &&
          s.waiters.any Waiter.isParked) = true := by decide
    obtain ⟨s, hs, hends⟩ := Reached.exists_of_actAll (.start start_left) hrun
    simp only [Bool.and_eq_true, bne_iff_ne, List.all_eq_true, Bool.not_eq_true',
      List.any_eq_true] at hends
    exact ⟨s, hs, ⟨0, Nat.one_pos, hends.1.1⟩, hends.1.2, hends.2⟩
  · have hrun : (actAll (step 1 2) anyAction .left
        (reportedLate ++ [.interrupt 0, .waiter 0 false])).any
        (fun s => s.listening == 2 ^ 32 - 1) = true := by decide
    obtain ⟨s, hs, hends⟩ := Reached.exists_of_actAll (.start start_left) hrun
    exact ⟨s, hs, beq_iff_eq.mp hends⟩

end OrbitStream.Waiting
