import Mathlib.Data.List.Basic
import Mathlib.Algebra.GroupWithZero.Nat

/-! The generic cell rate algorithm of a quota store: a policy, the charge of a request, the
transition of one key's theoretical arrival time (TAT), and the rate envelope of its runs.  Time is
measured in nanoseconds multiplied by the sustained unit count. -/

namespace OrbitQuota

open List Option

inductive Error where
  | invalidGeometry
  | invalidPeriod
  | emptyKey
  | keyTooLarge
  | costExceedsBurst
  | busy
  | capacityFull
  | incompatibleState
  | corruptState
  | arithmeticOverflow
  | clockUnavailable
  | clockWentBackwards
  | io
  deriving DecidableEq, Repr

def u64Size : Nat := 2 ^ 64

def u128Size : Nat := 2 ^ 128

structure NonZeroU64 where
  get : Nat
  pos : 0 < get
  lt : get < u64Size

/-- A length of time, in nanoseconds: whole seconds of 64 bits and the rest of a second. -/
structure Duration where
  asNanos : Nat
  lt : asNanos < u64Size * 10 ^ 9

theorem seconds_lt {seconds subsecond : Nat} (hseconds : seconds < u64Size)
    (hsubsecond : subsecond < 10 ^ 9) : seconds * 10 ^ 9 + subsecond < u64Size * 10 ^ 9 := by
  have hle : (seconds + 1) * 10 ^ 9 ≤ u64Size * 10 ^ 9 := Nat.mul_le_mul_right _ hseconds
  omega

theorem mod_second_lt (nanos : Nat) : nanos % 10 ^ 9 < 10 ^ 9 := Nat.mod_lt _ (by decide)

def Duration.new (seconds subsecond : Nat) (hseconds : seconds < u64Size)
    (hsubsecond : subsecond < 10 ^ 9) : Duration :=
  ⟨seconds * 10 ^ 9 + subsecond, seconds_lt hseconds hsubsecond⟩

def checkedMul (a b : Nat) : Except Error Nat :=
  if a * b < u128Size then .ok (a * b) else .error .arithmeticOverflow

def checkedAdd (a b : Nat) : Except Error Nat :=
  if a + b < u128Size then .ok (a + b) else .error .arithmeticOverflow

def divCeil (a b : Nat) : Nat := if a % b = 0 then a / b else a / b + 1

theorem checkedMul_ok {a b c : Nat} (h : checkedMul a b = .ok c) : c = a * b ∧ c < u128Size := by
  unfold checkedMul at h
  split at h
  · rename_i hlt
    cases h
    exact ⟨rfl, hlt⟩
  · cases h

theorem checkedAdd_ok {a b c : Nat} (h : checkedAdd a b = .ok c) : c = a + b ∧ c < u128Size := by
  unfold checkedAdd at h
  split at h
  · rename_i hlt
    cases h
    exact ⟨rfl, hlt⟩
  · cases h

theorem checkedAdd_lt {a b : Nat} (h : a + b < u128Size) : checkedAdd a b = .ok (a + b) := if_pos h

theorem checkedMul_lt {a b : Nat} (h : a * b < u128Size) : checkedMul a b = .ok (a * b) := if_pos h

theorem lt_divCeil {a b k : Nat} (hb : 0 < b) : k < divCeil a b ↔ k * b < a := by
  have hdiv := Nat.div_add_mod' a b
  have hlt := Nat.mod_lt a hb
  unfold divCeil
  split
  · rename_i hzero
    rw [hzero, Nat.add_zero] at hdiv
    rw [← Nat.mul_lt_mul_right hb, hdiv]
  · rename_i hpos
    rw [Nat.lt_succ_iff, Nat.le_div_iff_mul_le hb]
    constructor
    · intro hle
      have hquot : k ≤ a / b := (Nat.le_div_iff_mul_le hb).mpr hle
      have hmul := Nat.mul_le_mul_right b hquot
      omega
    · exact Nat.le_of_lt

/-- Sustained units per explicit period, plus total immediately available burst. -/
structure Policy where
  units : NonZeroU64
  period : Duration
  burst : NonZeroU64
  period_pos : 0 < period.asNanos

def Policy.new (units : NonZeroU64) (period : Duration) (burst : NonZeroU64) :
    Except Error Policy :=
  if h : period.asNanos = 0 then .error .invalidPeriod
  else .ok ⟨units, period, burst, Nat.pos_of_ne_zero h⟩

/-- A unit costs exactly `period`, without rounding the interval. -/
structure Gcra where
  policy : Policy
  period : Nat
  units : Nat
  capacity : Nat
  period_eq : period = policy.period.asNanos
  units_eq : units = policy.units.get
  capacity_eq : capacity = period * policy.burst.get

def Gcra.new (policy : Policy) : Except Error Gcra :=
  match checkedMul policy.period.asNanos policy.burst.get with
  | .error e => .error e
  | .ok _ => .ok
    { policy
      period := policy.period.asNanos
      units := policy.units.get
      capacity := policy.period.asNanos * policy.burst.get
      period_eq := rfl
      units_eq := rfl
      capacity_eq := rfl }

inductive Outcome where
  | allowed (tat : Nat)
  | limited (debt : Nat)
  deriving DecidableEq, Repr

/-- Validated request cost bound to its immutable policy. -/
structure Prepared where
  algorithm : Gcra
  charge : Nat

/-- Whole quota units available immediately after one committed admission. -/
structure Snapshot where
  limit : Nat
  remaining : Nat
  deriving DecidableEq, Repr

namespace Gcra

variable (g : Gcra)

def snapshot (now tat : Nat) : Option Snapshot :=
  if now ≤ tat ∧ tat - now ≤ g.capacity then
    some ⟨g.policy.burst.get, (g.capacity - (tat - now)) / g.period % u64Size⟩
  else none

def prepare (cost : NonZeroU64) : Except Error Prepared :=
  if g.policy.burst.get < cost.get then .error .costExceedsBurst
  else
    match checkedMul g.period cost.get with
    | .error e => .error e
    | .ok charge => .ok ⟨g, charge⟩

def scale (now : Nat) : Except Error Nat := checkedMul now g.units

/-- The time until a denied snapshot's debt is paid. -/
def retryAfter (debt : Nat) : Except Error Duration :=
  let nanos := divCeil debt g.units
  let seconds := nanos / 10 ^ 9
  let subsecond := nanos % 10 ^ 9
  if h : seconds < u64Size then .ok (.new seconds subsecond h (mod_second_lt nanos))
  else .error .arithmeticOverflow

end Gcra

def Prepared.evaluate (p : Prepared) (now : Nat) (previous : Option Nat) : Except Error Outcome :=
  match checkedAdd (max (previous.getD now) now) p.charge with
  | .error e => .error e
  | .ok tat =>
    match checkedAdd now p.algorithm.capacity with
    | .error e => .error e
    | .ok ceiling => .ok (if tat ≤ ceiling then .allowed tat else .limited (tat - ceiling))

section

variable {g : Gcra} {cost : NonZeroU64} {p : Prepared} {now tat debt : Nat} {previous : Option Nat}

theorem Gcra.period_pos (g : Gcra) : 0 < g.period := g.period_eq ▸ g.policy.period_pos

theorem prepare_ok (h : g.prepare cost = .ok p) :
    p.algorithm = g ∧ p.charge = g.period * cost.get ∧ cost.get ≤ g.policy.burst.get := by
  unfold Gcra.prepare at h
  split at h
  · cases h
  rename_i hcost
  split at h
  · cases h
  rename_i charge hcharge
  cases h
  exact ⟨rfl, (checkedMul_ok hcharge).1, Nat.le_of_not_lt hcost⟩

theorem evaluate_allowed (h : p.evaluate now previous = .ok (.allowed tat)) :
    tat = max (previous.getD now) now + p.charge ∧ tat ≤ now + p.algorithm.capacity ∧
      now + p.algorithm.capacity < u128Size := by
  unfold Prepared.evaluate at h
  split at h
  · cases h
  rename_i tat' htat
  split at h
  · cases h
  rename_i ceiling hceiling
  obtain ⟨rfl, -⟩ := checkedAdd_ok htat
  obtain ⟨rfl, hlt⟩ := checkedAdd_ok hceiling
  split at h
  · rename_i hle
    cases h
    exact ⟨rfl, hle, hlt⟩
  · cases h

theorem evaluate_limited (h : p.evaluate now previous = .ok (.limited debt)) :
    now + p.algorithm.capacity < max (previous.getD now) now + p.charge ∧
      now + p.algorithm.capacity < u128Size ∧
      max (previous.getD now) now + p.charge = now + p.algorithm.capacity + debt ∧
      max (previous.getD now) now + p.charge < u128Size := by
  unfold Prepared.evaluate at h
  split at h
  · cases h
  rename_i tat' htat
  split at h
  · cases h
  rename_i ceiling hceiling
  obtain ⟨rfl, htat⟩ := checkedAdd_ok htat
  obtain ⟨rfl, hlt⟩ := checkedAdd_ok hceiling
  split at h
  · cases h
  · rename_i hle
    cases h
    exact ⟨Nat.lt_of_not_le hle, hlt, by omega, htat⟩

theorem evaluate_of_le (hceiling : now + p.algorithm.capacity < u128Size)
    (hle : max (previous.getD now) now + p.charge ≤ now + p.algorithm.capacity) :
    p.evaluate now previous = .ok (.allowed (max (previous.getD now) now + p.charge)) := by
  unfold Prepared.evaluate
  rw [checkedAdd_lt (Nat.lt_of_le_of_lt hle hceiling), checkedAdd_lt hceiling]
  dsimp only
  rw [if_pos hle]

theorem evaluate_of_lt (htat : max (previous.getD now) now + p.charge < u128Size)
    (hlt : now + p.algorithm.capacity < max (previous.getD now) now + p.charge) :
    p.evaluate now previous = .ok (.limited (max (previous.getD now) now + p.charge -
      (now + p.algorithm.capacity))) := by
  unfold Prepared.evaluate
  rw [checkedAdd_lt htat, checkedAdd_lt (Nat.lt_trans hlt htat)]
  dsimp only
  rw [if_neg (Nat.not_le.mpr hlt)]

theorem evaluate_ceiling {outcome : Outcome} (h : p.evaluate now previous = .ok outcome) :
    now + p.algorithm.capacity < u128Size := by
  cases outcome with
  | allowed tat => exact (evaluate_allowed h).2.2
  | limited debt => exact (evaluate_limited h).2.1

theorem Gcra.units_pos (g : Gcra) : 0 < g.units := g.units_eq ▸ g.policy.units.pos

theorem retryAfter_ok {d : Duration} (h : g.retryAfter debt = .ok d) :
    d.asNanos = divCeil debt g.units := by
  unfold Gcra.retryAfter at h
  dsimp only at h
  split at h
  · cases h
    exact Nat.div_add_mod' _ _
  · cases h

theorem prepare_charge (h : g.prepare cost = .ok p) : p.charge ≤ p.algorithm.capacity := by
  obtain ⟨halgorithm, hcharge, hcost⟩ := prepare_ok h
  rw [halgorithm, hcharge, g.capacity_eq]
  exact Nat.mul_le_mul_left _ hcost

theorem limited_ahead (hcharge : p.charge ≤ p.algorithm.capacity)
    (h : p.evaluate now previous = .ok (.limited debt)) :
    ∃ t, previous = some t ∧ now < t ∧ t + p.charge = now + p.algorithm.capacity + debt ∧
      t + p.charge < u128Size := by
  obtain ⟨hover, -, hdebt, htat⟩ := evaluate_limited h
  cases previous with
  | none =>
    rw [getD_none, Nat.max_self] at hover
    omega
  | some t =>
    rw [getD_some] at hover hdebt htat
    have hahead : now < t := by omega
    rw [Nat.max_eq_left (Nat.le_of_lt hahead)] at hdebt htat
    exact ⟨t, rfl, hahead, hdebt, htat⟩

/-- The hint is exact: the same TAT admits the charge once the hint has passed, and not before. -/
theorem retry_exact {n later : Nat} {d : Duration} {outcome : Outcome}
    (hprepare : g.prepare cost = .ok p) (hscale : g.scale now = .ok n)
    (hlimited : p.evaluate n previous = .ok (.limited debt))
    (hretry : g.retryAfter debt = .ok d) (hlater : g.scale (now + d.asNanos) = .ok later)
    (houtcome : p.evaluate later previous = .ok outcome) :
    (∃ tat, outcome = .allowed tat) ∧
      ∀ d' < d.asNanos, ∃ earlier debt', g.scale (now + d') = .ok earlier ∧
        p.evaluate earlier previous = .ok (.limited debt') := by
  obtain ⟨rfl, -⟩ := checkedMul_ok hscale
  obtain ⟨rfl, hrange⟩ := checkedMul_ok hlater
  have hcharge := prepare_charge hprepare
  obtain ⟨t, rfl, hahead, hdebt, htat⟩ := limited_ahead hcharge hlimited
  have hceiling := evaluate_ceiling houtcome
  have hhint := fun k => lt_divCeil (a := debt) (k := k) g.units_pos
  rw [← retryAfter_ok hretry] at hhint
  rw [Nat.add_mul] at hceiling hrange houtcome
  constructor
  · -- the debt is paid: the ceiling has moved by at least as much
    have hpaid : debt ≤ d.asNanos * g.units :=
      Nat.le_of_not_lt fun hlt => Nat.lt_irrefl _ ((hhint _).mpr hlt)
    rw [evaluate_of_le hceiling (by rw [getD_some]; omega)] at houtcome
    exact ⟨_, (Except.ok.inj houtcome).symm⟩
  · intro d' hd'
    have hunpaid := (hhint d').mp hd'
    have hmul := Nat.mul_lt_mul_of_pos_right hd' g.units_pos
    refine ⟨now * g.units + d' * g.units, _, ?_, evaluate_of_lt ?_ ?_⟩
    · rw [← Nat.add_mul]
      exact checkedMul_lt (by rw [Nat.add_mul]; omega)
    · rw [getD_some]
      omega
    · rw [getD_some]
      omega

end

structure Request where
  /-- The clock at the admission, in nanoseconds. -/
  time : Nat
  cost : NonZeroU64

/-- `Gcra::admit`: the outcome, and the TAT that it commits when it is allowed. -/
def Gcra.admitRequest (g : Gcra) (previous : Option Nat) (request : Request) :
    Except Error (Outcome × Option Nat) :=
  match g.prepare request.cost, g.scale request.time with
  | .ok prepared, .ok now =>
    match prepared.evaluate now previous with
    | .ok (.allowed tat) => .ok (.allowed tat, some tat)
    | .ok (.limited debt) => .ok (.limited debt, previous)
    | .error e => .error e
  | .error e, _ | _, .error e => .error e

/-- The admissions of one key, one after the other: their outcomes and the TAT they leave. -/
def Gcra.run (g : Gcra) : Option Nat → List Request →
    Except Error (List (Request × Outcome) × Option Nat)
  | tat, [] => .ok ([], tat)
  | tat, request :: rest =>
    match g.admitRequest tat request with
    | .error e => .error e
    | .ok (outcome, tat) =>
      match g.run tat rest with
      | .error e => .error e
      | .ok (outcomes, tat) => .ok ((request, outcome) :: outcomes, tat)

def admittedCost (t₁ t₂ : Nat) : Request × Outcome → Nat
  | (request, .allowed _) => if t₁ ≤ request.time ∧ request.time ≤ t₂ then request.cost.get else 0
  | (_, .limited _) => 0

def admittedIn (t₁ t₂ : Nat) (outcomes : List (Request × Outcome)) : Nat :=
  (outcomes.map (admittedCost t₁ t₂)).sum

variable {g : Gcra} {request : Request} {outcome : Outcome} {previous tat : Option Nat}
  {requests : List Request} {outcomes : List (Request × Outcome)}

theorem max_getD (previous : Option Nat) (now : Nat) :
    max (previous.getD now) now = max (previous.getD 0) now := by
  cases previous with
  | none => rw [getD_none, getD_none, Nat.max_self, Nat.zero_max]
  | some tat => rfl

/-- The two ways of one admission. -/
inductive Admits (g : Gcra) (previous : Option Nat) (request : Request) :
    Outcome → Option Nat → Prop
  | allowed (tat : Nat)
      (eq : tat = max (previous.getD 0) (request.time * g.units) + g.period * request.cost.get)
      (le : tat ≤ request.time * g.units + g.capacity) :
      Admits g previous request (.allowed tat) (some tat)
  | limited (debt : Nat)
      (lt : request.time * g.units + g.capacity <
        max (previous.getD 0) (request.time * g.units) + g.period * request.cost.get) :
      Admits g previous request (.limited debt) previous

theorem admit_ok (h : g.admitRequest previous request = .ok (outcome, tat)) :
    Admits g previous request outcome tat ∧ request.cost.get ≤ g.policy.burst.get ∧
      request.time * g.units + g.capacity < u128Size := by
  unfold Gcra.admitRequest at h
  split at h
  · rename_i prepared now hprepared hnow
    obtain ⟨halgorithm, hcharge, hcost⟩ := prepare_ok hprepared
    obtain ⟨rfl, -⟩ := checkedMul_ok hnow
    split at h
    · rename_i tat' hevaluate
      cases h
      obtain ⟨heq, hle, hlt⟩ := evaluate_allowed hevaluate
      rw [halgorithm] at hle hlt
      rw [max_getD, hcharge] at heq
      exact ⟨.allowed _ heq hle, hcost, hlt⟩
    · rename_i debt hevaluate
      cases h
      obtain ⟨hover, hlt, -, -⟩ := evaluate_limited hevaluate
      rw [halgorithm] at hover hlt
      rw [max_getD, hcharge] at hover
      exact ⟨.limited debt hover, hcost, hlt⟩
    · cases h
  · cases h
  · cases h

theorem run_cons (h : g.run previous (request :: requests) = .ok (outcomes, tat)) :
    ∃ outcome middle rest, g.admitRequest previous request = .ok (outcome, middle) ∧
      g.run middle requests = .ok (rest, tat) ∧ outcomes = (request, outcome) :: rest := by
  rw [Gcra.run] at h
  split at h
  · cases h
  rename_i outcome middle hadmit
  split at h
  · cases h
  rename_i rest tat' hrest
  cases h
  exact ⟨outcome, middle, rest, hadmit, hrest, rfl⟩

theorem admittedIn_cons (t₁ t₂ : Nat) (first : Request × Outcome) :
    admittedIn t₁ t₂ (first :: outcomes) = admittedCost t₁ t₂ first + admittedIn t₁ t₂ outcomes :=
  sum_cons

/-- The charges of a window telescope: every admission raises the TAT by its charge at least, and
leaves it below the ceiling of its own time. -/
theorem run_window (h : g.run previous requests = .ok (outcomes, tat)) (t₁ t₂ : Nat) :
    admittedIn t₁ t₂ outcomes = 0 ∨
      admittedIn t₁ t₂ outcomes * g.period + max (previous.getD 0) (t₁ * g.units) ≤
        t₂ * g.units + g.capacity := by
  induction requests generalizing previous outcomes with
  | nil =>
    cases h
    exact .inl rfl
  | cons request requests ih =>
    obtain ⟨outcome, middle, rest, hadmit, hrest, rfl⟩ := run_cons h
    have hih := ih hrest
    rw [admittedIn_cons]
    cases (admit_ok hadmit).1 with
    | limited debt hlt =>
      have hzero : admittedCost t₁ t₂ (request, .limited debt) = 0 := rfl
      rw [hzero, Nat.zero_add]
      exact hih
    | allowed tat' heq hle =>
      rw [getD_some] at hih
      have hcomm : request.cost.get * g.period = g.period * request.cost.get := Nat.mul_comm ..
      by_cases hin : t₁ ≤ request.time ∧ request.time ≤ t₂
      · have hcost : admittedCost t₁ t₂ (request, .allowed tat') = request.cost.get := if_pos hin
        have hlow := Nat.mul_le_mul_right g.units hin.1
        have hhigh := Nat.mul_le_mul_right g.units hin.2
        right
        rw [hcost, Nat.add_mul]
        rcases hih with hzero | hih
        · rw [hzero]
          omega
        · omega
      · have hcost : admittedCost t₁ t₂ (request, .allowed tat') = 0 := if_neg hin
        rw [hcost, Nat.zero_add]
        rcases hih with hzero | hih
        · exact .inl hzero
        · right
          omega

theorem run_level (h : g.run previous requests = .ok (outcomes, tat))
    (hsorted : requests.Pairwise fun a b => a.time ≤ b.time)
    (hstart : ∀ t, previous = some t → ∀ r ∈ requests, t ≤ r.time * g.units + g.capacity)
    {last : Request} (hlast : requests.getLast? = some last) :
    ∃ t, tat = some t ∧ last.time * g.units ≤ t ∧ t ≤ last.time * g.units + g.capacity ∧
      last.time * g.units + g.capacity < u128Size := by
  induction requests generalizing previous outcomes with
  | nil => cases hlast
  | cons request requests ih =>
    obtain ⟨outcome, middle, rest, hadmit, hrest, rfl⟩ := run_cons h
    obtain ⟨hadmits, hcost, hlt⟩ := admit_ok hadmit
    obtain ⟨hfirst, hsorted⟩ := pairwise_cons.mp hsorted
    have hcharge : g.period * request.cost.get ≤ g.capacity := by
      rw [g.capacity_eq]
      exact Nat.mul_le_mul_left g.period hcost
    -- the level of the TAT when the first admission is over
    have hlevel : ∃ t, middle = some t ∧ request.time * g.units ≤ t ∧
        t ≤ request.time * g.units + g.capacity := by
      cases hadmits with
      | allowed tat' heq hle => exact ⟨tat', rfl, by omega, hle⟩
      | limited debt hover =>
        cases previous with
        | none =>
          rw [getD_none] at hover
          omega
        | some t =>
          rw [getD_some] at hover
          exact ⟨t, rfl, by omega, hstart t rfl request mem_cons_self⟩
    obtain ⟨t, rfl, hlow, hhigh⟩ := hlevel
    cases requests with
    | nil =>
      cases hlast
      cases hrest
      exact ⟨t, rfl, hlow, hhigh, hlt⟩
    | cons second requests =>
      rw [getLast?_cons_cons] at hlast
      refine ih hrest hsorted (fun t' ht' r hr => ?_) hlast
      cases ht'
      have hle := Nat.mul_le_mul_right g.units (hfirst r hr)
      omega

/-- The snapshot of a TAT between the present and the ceiling: a cost would still be admitted just
when it does not exceed what remains. -/
theorem snapshot_remaining {now t : Nat} (hlow : now ≤ t) (hhigh : t ≤ now + g.capacity)
    (hlt : now + g.capacity < u128Size) :
    ∃ s, g.snapshot now t = some s ∧ s.limit = g.policy.burst.get ∧
      ∀ cost : NonZeroU64, (∃ p tat, g.prepare cost = .ok p ∧
        p.evaluate now (some t) = .ok (.allowed tat)) ↔ cost.get ≤ s.remaining := by
  have hle : (g.capacity - (t - now)) / g.period ≤ g.policy.burst.get := calc
    (g.capacity - (t - now)) / g.period ≤ g.capacity / g.period :=
      Nat.div_le_div_right (Nat.sub_le ..)
    _ = g.period * g.policy.burst.get / g.period := congrArg (· / g.period) g.capacity_eq
    _ = g.policy.burst.get := Nat.mul_div_cancel_left _ g.period_pos
  have hmod : (g.capacity - (t - now)) / g.period % u64Size =
      (g.capacity - (t - now)) / g.period :=
    Nat.mod_eq_of_lt (Nat.lt_of_le_of_lt hle g.policy.burst.lt)
  refine ⟨_, if_pos ⟨hlow, by omega⟩, rfl, fun cost => ?_⟩
  dsimp only
  rw [hmod, Nat.le_div_iff_mul_le g.period_pos, Nat.mul_comm]
  constructor
  · rintro ⟨p, tat, hprepare, hevaluate⟩
    obtain ⟨halgorithm, hcharge, -⟩ := prepare_ok hprepare
    obtain ⟨heq, hceiling, -⟩ := evaluate_allowed hevaluate
    rw [halgorithm] at hceiling
    rw [getD_some, hcharge] at heq
    omega
  · intro hcost
    have hburst : cost.get ≤ g.policy.burst.get := by
      refine Nat.le_trans ((Nat.le_div_iff_mul_le g.period_pos).mpr ?_) hle
      rw [Nat.mul_comm]
      exact hcost
    have hprepare : g.prepare cost = .ok ⟨g, g.period * cost.get⟩ := by
      have hmul : checkedMul g.period cost.get = .ok (g.period * cost.get) := if_pos (by omega)
      unfold Gcra.prepare
      rw [if_neg (Nat.not_lt.mpr hburst), hmul]
    refine ⟨_, _, hprepare, evaluate_of_le hlt ?_⟩
    dsimp only
    rw [getD_some]
    omega

theorem new_ok {policy : Policy} (h : Gcra.new policy = .ok g) : g.policy = policy := by
  unfold Gcra.new at h
  split at h
  · cases h
  · cases h
    rfl

/-- The rate envelope of a policy.  The points of a run are the ends of the runs of its first
requests. -/
theorem rate_envelope {policy : Policy} (hnew : Gcra.new policy = .ok g)
    (hrun : g.run none requests = .ok (outcomes, tat))
    (hsorted : requests.Pairwise fun a b => a.time ≤ b.time) :
    (∀ t₁ t₂, t₁ ≤ t₂ → admittedIn t₁ t₂ outcomes * policy.period.asNanos ≤
      policy.burst.get * policy.period.asNanos + policy.units.get * (t₂ - t₁)) ∧
    ∀ last, requests.getLast? = some last → ∃ now t, g.scale last.time = .ok now ∧ tat = some t ∧
      t ≤ now + policy.burst.get * policy.period.asNanos ∧
      ∃ s, g.snapshot now t = some s ∧ s.limit = policy.burst.get ∧
        ∀ cost : NonZeroU64, (∃ p tat, g.prepare cost = .ok p ∧
          p.evaluate now (some t) = .ok (.allowed tat)) ↔ cost.get ≤ s.remaining := by
  have hpolicy := new_ok hnew
  subst hpolicy
  have hcapacity : g.capacity = g.policy.burst.get * g.policy.period.asNanos := by
    rw [g.capacity_eq, g.period_eq, Nat.mul_comm]
  constructor
  · intro t₁ t₂ hle
    have hunits := Nat.mul_sub g.units t₂ t₁
    have hlow := Nat.mul_le_mul_left g.units hle
    rw [← hcapacity, ← g.period_eq, ← g.units_eq]
    rcases run_window hrun t₁ t₂ with hzero | hwindow
    · rw [hzero]
      omega
    · rw [Nat.mul_comm t₁, Nat.mul_comm t₂] at hwindow
      omega
  · intro last hlast
    obtain ⟨t, htat, hlow, hhigh, hlt⟩ := run_level hrun hsorted (fun _ h => (nomatch h)) hlast
    obtain ⟨s, hsnapshot, hlimit, hremaining⟩ := snapshot_remaining hlow hhigh hlt
    have hscale : g.scale last.time = .ok (last.time * g.units) := if_pos (by omega)
    exact ⟨_, t, hscale, htat, hcapacity ▸ hhigh, s, hsnapshot, hlimit, hremaining⟩

def samplePolicy : Policy where
  units := ⟨3, by decide, by decide⟩
  period := ⟨10, by decide⟩
  burst := ⟨2, by decide, by decide⟩
  period_pos := by decide

def sampleGcra : Gcra := ⟨samplePolicy, 10, 3, 20, rfl, rfl, rfl⟩

theorem one_lt_u64 : 1 < u64Size := by decide

theorem two_lt_u64 : 2 < u64Size := by decide

def sampleRequests : List Request :=
  [⟨0, ⟨2, Nat.two_pos, two_lt_u64⟩⟩, ⟨3, ⟨1, Nat.one_pos, one_lt_u64⟩⟩,
    ⟨4, ⟨1, Nat.one_pos, one_lt_u64⟩⟩]

theorem rate_envelope_sample :
    admittedIn 0 4 (sampleRequests.zip [.allowed 20, .limited 1, .allowed 30]) * 10 ≤
      2 * 10 + 3 * (4 - 0) ∧
    ∃ now t, sampleGcra.scale 4 = .ok now ∧ some 30 = some t ∧ t ≤ now + 2 * 10 ∧
      ∃ s, sampleGcra.snapshot now t = some s ∧ s.limit = 2 ∧
        ∀ cost : NonZeroU64, (∃ p tat, sampleGcra.prepare cost = .ok p ∧
          p.evaluate now (some t) = .ok (.allowed tat)) ↔ cost.get ≤ s.remaining :=
  have hnew : Gcra.new samplePolicy = .ok sampleGcra := rfl
  have hrun : sampleGcra.run none sampleRequests =
      .ok (sampleRequests.zip [.allowed 20, .limited 1, .allowed 30], some 30) := rfl
  have h := rate_envelope hnew hrun (by decide)
  ⟨h.1 0 4 (by decide), h.2 _ rfl⟩

/-- A request at the start, of one unit, when the whole burst is spent: the debt is a period, and a
nanosecond pays three parts of ten. -/
theorem retry_exact_sample :
    (∃ tat, Outcome.allowed 30 = .allowed tat) ∧
      ∀ d' < 4, ∃ earlier debt', sampleGcra.scale (0 + d') = .ok earlier ∧
        Prepared.evaluate ⟨sampleGcra, 10⟩ earlier (some 20) = .ok (.limited debt') :=
  retry_exact (rfl : sampleGcra.prepare ⟨1, Nat.one_pos, one_lt_u64⟩ = .ok ⟨sampleGcra, 10⟩)
    (rfl : sampleGcra.scale 0 = .ok 0)
    (rfl : Prepared.evaluate ⟨sampleGcra, 10⟩ 0 (some 20) = .ok (.limited 10))
    (rfl : sampleGcra.retryAfter 10 = .ok (.new 0 4 (by decide) (by decide)))
    (rfl : sampleGcra.scale (0 + 4) = .ok 12) rfl

end OrbitQuota
