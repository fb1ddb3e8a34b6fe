import Pintos.Project1.SleepTimes

/-!
# Calibration — how well `timer_calibrate` estimates the loops of a tick

`timer_calibrate` finds the greatest power of two that fits into a timer tick and then tries the
next lower bits, each of them on top of the power alone and not of the bits that have been set.
The estimate is never much too low, but it can be too high by half.

The delay functions turn a time into a number of loops with it.
-/

namespace Pintos
namespace Project1

open Project2 (toInt64 toInt64_eq)

/-! ## The code -/

/-- The assertion in the first loop fails, or a loop does not end. -/
inductive CalibrateFault
  | assertion
  | diverges
  deriving DecidableEq, Repr

section Code

variable (tooManyLoops : Nat → Bool)

/-- The `while` loop; the fuel bounds the number of turns. -/
def doubleLoop : Nat → Nat → Except CalibrateFault Nat
  | 0, _ => .error .diverges
  | n + 1, loopsPerTick =>
      let next := (loopsPerTick <<< 1) % Project2.unsignedSize
      if tooManyLoops next then .ok loopsPerTick
      else if next = 0 then .error .assertion
      else doubleLoop n next

/-- The `for` loop over the bits below `high_bit`. -/
def refineLoop (highBit : Nat) : Nat → Nat → Nat → Except CalibrateFault Nat
  | 0, _, _ => .error .diverges
  | n + 1, testBit, loopsPerTick =>
      if testBit ≠ highBit >>> 10 then
        refineLoop highBit n (testBit >>> 1)
          (if tooManyLoops (highBit ||| testBit) then loopsPerTick else loopsPerTick ||| testBit)
      else .ok loopsPerTick

/-- `timer_calibrate` returns `loops_per_tick`; `too_many_loops` measures the time. -/
def timerCalibrate : Except CalibrateFault Nat :=
  (doubleLoop tooManyLoops 32 (1 <<< 10)).bind fun loopsPerTick =>
    let highBit := loopsPerTick
    refineLoop tooManyLoops highBit 32 (highBit >>> 1) loopsPerTick

end Code

/-! ## The power of two -/

/-- `loops` are too many just when they are more than the `T` that fit into a tick. -/
def Threshold (T : Nat) (tooManyLoops : Nat → Bool) : Prop :=
  ∀ loops < Project2.unsignedSize, tooManyLoops loops = decide (T < loops)

section Loops

variable {T : Nat} {tooManyLoops : Nat → Bool} {i j k n : Nat}

theorem shiftLeft_one_mod (hi : i < 31) :
    ((2 ^ i) <<< 1) % Project2.unsignedSize = 2 ^ (i + 1) := by
  rw [Nat.shiftLeft_eq, ← Nat.pow_add]
  exact Nat.mod_eq_of_lt (Nat.pow_lt_pow_right (by omega) (by omega))

theorem pow_lt_unsignedSize (hi : i < 32) : 2 ^ i < Project2.unsignedSize :=
  Nat.pow_lt_pow_right (by omega) hi

/-- The loop ends at the greatest power that fits, if it does not start above it. -/
theorem doubleLoop_eq (hT : Threshold T tooManyLoops) (hik : i ≤ k) (hk : k ≤ 30)
    (hlow : i < k → 2 ^ k ≤ T) (hhigh : T < 2 ^ (k + 1)) (hn : k - i < n) :
    doubleLoop tooManyLoops n (2 ^ i) = .ok (2 ^ k) := by
  induction n generalizing i with
  | zero =>
      omega
  | succ n ih =>
      have htest : tooManyLoops (2 ^ (i + 1)) = decide (T < 2 ^ (i + 1)) :=
        hT _ (pow_lt_unsignedSize (by omega))
      simp only [doubleLoop, shiftLeft_one_mod (show i < 31 by omega), htest]
      by_cases hlast : i = k
      · subst hlast
        rw [if_pos (decide_eq_true hhigh)]
      · have hle : 2 ^ (i + 1) ≤ T :=
          (Nat.pow_le_pow_right (by omega) (by omega)).trans (hlow (by omega))
        rw [if_neg (by simpa using hle), if_neg (Nat.two_pow_pos _).ne']
        exact ih (by omega) (fun _ => hlow (by omega)) (by omega)

/-- When half the range of `unsigned` fits into a tick, the loop counts up to 0. -/
theorem doubleLoop_assertion (hT : Threshold T tooManyLoops) (hhigh : 2 ^ 31 ≤ T) (hi : i ≤ 31)
    (hn : 31 - i < n) : doubleLoop tooManyLoops n (2 ^ i) = .error .assertion := by
  induction n generalizing i with
  | zero =>
      omega
  | succ n ih =>
      by_cases hlast : i = 31
      · subst hlast
        have hzero : ((2 ^ 31) <<< 1) % Project2.unsignedSize = 0 := by decide
        have htest : tooManyLoops 0 = decide (T < 0) := hT 0 (by decide)
        simp only [doubleLoop, hzero, htest]
        rfl
      · have htest : tooManyLoops (2 ^ (i + 1)) = decide (T < 2 ^ (i + 1)) :=
          hT _ (pow_lt_unsignedSize (by omega))
        have hle : 2 ^ (i + 1) ≤ T :=
          (Nat.pow_le_pow_right (by omega) (by omega)).trans hhigh
        simp only [doubleLoop, shiftLeft_one_mod (show i < 31 by omega), htest]
        rw [if_neg (by simpa using hle), if_neg (Nat.two_pow_pos _).ne']
        exact ih (by omega) (by omega)

/-! ## The bits below it -/

theorem lor_two_pow {a : Nat} : 2 ^ (j + 1) * a ||| 2 ^ j = 2 ^ (j + 1) * a + 2 ^ j :=
  (Nat.two_pow_add_eq_or_of_lt (Nat.pow_lt_pow_right (by omega) (by omega)) a).symm

/-- What the bits above `2 ^ e` add that fit singly next to `2 ^ k`, `x` being the rest of `T`. -/
def refinement (x e : Nat) : Nat :=
  if x < 2 ^ (e + 1) then 0 else 2 ^ (x.log2 + 1) - 2 ^ (e + 1)

section Refine

variable {x e a : Nat}

/-- One turn. -/
theorem refineLoop_succ (hbit : ∀ i < e + 10, tooManyLoops (2 ^ (e + 10) ||| 2 ^ i) =
    decide (x < 2 ^ i)) (hj : e ≤ j) (hjk : j + 1 < e + 10) :
    refineLoop tooManyLoops (2 ^ (e + 10)) (n + 1) (2 ^ (j + 1)) (2 ^ (j + 2) * a) =
      refineLoop tooManyLoops (2 ^ (e + 10)) n (2 ^ j)
        (2 ^ (j + 1) * if x < 2 ^ (j + 1) then 2 * a else 2 * a + 1) := by
  have hend : 2 ^ (e + 10) >>> 10 = 2 ^ e := by
    rw [Nat.shiftRight_eq_div_pow, Nat.pow_add, Nat.mul_div_cancel _ (by decide)]
  have hne : 2 ^ (j + 1) ≠ 2 ^ e := fun he => by
    have := Nat.pow_right_injective le_rfl he
    omega
  have hhalf : 2 ^ (j + 1) >>> 1 = 2 ^ j := by
    rw [Nat.shiftRight_eq_div_pow, Nat.pow_succ, Nat.pow_one, Nat.mul_div_cancel _ (by decide)]
  have hkept : 2 ^ (j + 2) * a = 2 ^ (j + 1) * (2 * a) := by
    rw [Nat.pow_succ, Nat.mul_assoc]
  have hset : 2 ^ (j + 2) * a ||| 2 ^ (j + 1) = 2 ^ (j + 1) * (2 * a + 1) := by
    rw [lor_two_pow, hkept, Nat.mul_add, Nat.mul_one]
  simp only [refineLoop, hend, if_pos hne, hhalf, hbit _ hjk, hset, decide_eq_true_eq]
  by_cases hx : x < 2 ^ (j + 1)
  · rw [if_pos hx, if_pos hx, hkept]
  · rw [if_neg hx, if_neg hx]

/-- At the end. -/
theorem refineLoop_end {l : Nat} :
    refineLoop tooManyLoops (2 ^ (e + 10)) (n + 1) (2 ^ e) l = .ok l := by
  have hend : 2 ^ (e + 10) >>> 10 = 2 ^ e := by
    rw [Nat.shiftRight_eq_div_pow, Nat.pow_add, Nat.mul_div_cancel _ (by decide)]
  simp [refineLoop, hend]

/-- Below a bit that fits all bits are set. -/
theorem refineLoop_all (hbit : ∀ i < e + 10, tooManyLoops (2 ^ (e + 10) ||| 2 ^ i) =
    decide (x < 2 ^ i)) (hj : e ≤ j) (hjk : j < e + 10) (hx : 2 ^ j ≤ x) (hn : j - e < n) :
    refineLoop tooManyLoops (2 ^ (e + 10)) n (2 ^ j) (2 ^ (j + 1) * a) =
      .ok (2 ^ (j + 1) * a + (2 ^ (j + 1) - 2 ^ (e + 1))) := by
  obtain ⟨n, rfl⟩ : ∃ m, n = m + 1 := ⟨n - 1, by omega⟩
  induction j generalizing n a with
  | zero =>
      obtain rfl : e = 0 := by omega
      rw [refineLoop_end]
      simp
  | succ j ih =>
      by_cases hend : e = j + 1
      · subst hend
        rw [refineLoop_end]
        simp
      · obtain ⟨n, rfl⟩ : ∃ m, n = m + 1 := ⟨n - 1, by omega⟩
        have hle : 2 ^ (e + 1) ≤ 2 ^ (j + 1) := Nat.pow_le_pow_right (by omega) (by omega)
        have hsmall : 2 ^ j ≤ x := (Nat.pow_le_pow_right (by omega) (by omega)).trans hx
        rw [refineLoop_succ hbit (by omega) hjk, if_neg (not_lt.2 hx),
          ih (by omega) (by omega) hsmall n (by omega)]
        refine congrArg Except.ok ?_
        rw [Nat.pow_succ 2 (j + 1), Nat.mul_add, Nat.mul_one, Nat.mul_assoc]
        omega

/-- The bits that fit are the greatest one of them and all below it. -/
theorem refineLoop_eq (hbit : ∀ i < e + 10, tooManyLoops (2 ^ (e + 10) ||| 2 ^ i) =
    decide (x < 2 ^ i)) (hj : e ≤ j) (hjk : j < e + 10) (hx : x < 2 ^ (j + 1)) (hn : j - e < n) :
    refineLoop tooManyLoops (2 ^ (e + 10)) n (2 ^ j) (2 ^ (j + 1) * a) =
      .ok (2 ^ (j + 1) * a + refinement x e) := by
  obtain ⟨n, rfl⟩ : ∃ m, n = m + 1 := ⟨n - 1, by omega⟩
  induction j generalizing n a with
  | zero =>
      obtain rfl : e = 0 := by omega
      rw [refineLoop_end, refinement, if_pos hx]
      rfl
  | succ j ih =>
      by_cases hend : e = j + 1
      · subst hend
        rw [refineLoop_end, refinement, if_pos hx]
        rfl
      · obtain ⟨n, rfl⟩ : ∃ m, n = m + 1 := ⟨n - 1, by omega⟩
        rw [refineLoop_succ hbit (by omega) hjk]
        by_cases hfits : x < 2 ^ (j + 1)
        · rw [if_pos hfits, ih (by omega) (by omega) hfits n (by omega), Nat.pow_succ 2 (j + 1),
            Nat.mul_assoc]
        · -- the greatest bit that fits
          have hle : 2 ^ (e + 1) ≤ 2 ^ (j + 1) := Nat.pow_le_pow_right (by omega) (by omega)
          have hlog : x.log2 = j + 1 := (Nat.log2_eq_iff (by omega)).2 ⟨not_lt.1 hfits, hx⟩
          have hsmall : 2 ^ j ≤ x :=
            (Nat.pow_le_pow_right (by omega) (Nat.le_succ j)).trans (not_lt.1 hfits)
          rw [if_neg hfits, refineLoop_all hbit (by omega) (by omega) hsmall (by omega),
            refinement, if_neg (by omega), hlog]
          refine congrArg Except.ok ?_
          rw [Nat.pow_succ 2 (j + 1), Nat.mul_add, Nat.mul_one, Nat.mul_assoc]
          omega

end Refine

end Loops

/-! ## The estimate -/

/-- What `timer_calibrate` returns when `T` loops fit into a tick. -/
def estimate (T : Nat) : Nat :=
  let k := max 10 T.log2
  2 ^ k + refinement (T - 2 ^ k) (k - 10)

section Estimate

variable {T : Nat} {tooManyLoops : Nat → Bool}

theorem two_pow_lor {j k : Nat} (hjk : j < k) : 2 ^ k ||| 2 ^ j = 2 ^ k + 2 ^ j := by
  have hlor := @lor_two_pow j (2 ^ (k - (j + 1)))
  rwa [← Nat.pow_add, Nat.add_sub_cancel' hjk] at hlor

theorem timerCalibrate_eq (hT : Threshold T tooManyLoops) (hhigh : T < 2 ^ 31) :
    timerCalibrate tooManyLoops = .ok (estimate T) := by
  obtain ⟨e, he⟩ : ∃ e, max 10 T.log2 = e + 10 := ⟨max 10 T.log2 - 10, by omega⟩
  have hlog : T.log2 ≤ e + 10 := by omega
  have hk : e + 10 ≤ 30 := by
    rw [← he]
    refine max_le (by decide) ?_
    by_cases hzero : T = 0
    · simp [hzero]
    · exact Nat.le_of_lt_succ ((Nat.log2_lt hzero).2 hhigh)
  have habove : T < 2 ^ (e + 10 + 1) := Nat.lt_of_lt_of_le Nat.lt_log2_self
    (Nat.pow_le_pow_right (by omega) (by omega))
  have hbelow : 10 < e + 10 → 2 ^ (e + 10) ≤ T := by
    intro hlt
    have heq : e + 10 = T.log2 := by omega
    have hne : T ≠ 0 := by
      rintro rfl
      simp at heq
    rw [heq]
    exact Nat.log2_self_le hne
  have hpower : doubleLoop tooManyLoops 32 (2 ^ 10) = .ok (2 ^ (e + 10)) :=
    doubleLoop_eq hT (by omega) hk hbelow habove (by omega)
  have hbit : ∀ i < e + 10, tooManyLoops (2 ^ (e + 10) ||| 2 ^ i) =
      decide (T - 2 ^ (e + 10) < 2 ^ i) := by
    intro i hi
    have hpos := Nat.two_pow_pos i
    have hsum : 2 ^ (e + 10) + 2 ^ i < Project2.unsignedSize := by
      have h₁ : 2 ^ (e + 10) ≤ 2 ^ 30 := Nat.pow_le_pow_right (by omega) hk
      have h₂ : 2 ^ i ≤ 2 ^ 30 := Nat.pow_le_pow_right (by omega) (by omega)
      have h₃ : Project2.unsignedSize = 2 ^ 30 + 2 ^ 30 + 2 ^ 31 := by decide
      omega
    rw [two_pow_lor hi, hT _ hsum]
    exact decide_eq_decide.2 (by omega)
  have hhalf : 2 ^ (e + 10) >>> 1 = 2 ^ (e + 9) := by
    rw [Nat.shiftRight_eq_div_pow, Nat.pow_succ, Nat.pow_one, Nat.mul_div_cancel _ (by decide)]
  have hrest : T - 2 ^ (e + 10) < 2 ^ (e + 9 + 1) := by
    rw [Nat.pow_succ] at habove
    have hpos := Nat.two_pow_pos (e + 10)
    show T - 2 ^ (e + 10) < 2 ^ (e + 10)
    omega
  have hrefine := refineLoop_eq (n := 32) (a := 1) hbit (by omega) (by omega) hrest (by omega)
  have hstart : (1 : Nat) <<< 10 = 2 ^ 10 := by decide
  rw [timerCalibrate, hstart, hpower]
  show refineLoop tooManyLoops (2 ^ (e + 10)) 32 (2 ^ (e + 10) >>> 1) (2 ^ (e + 10)) = _
  rw [hhalf]
  rw [Nat.mul_one] at hrefine
  refine hrefine.trans (congrArg Except.ok ?_)
  simp only [estimate, he, Nat.add_sub_cancel]

/-- What is added to the power of two stays below the last bit short of `x`, and is at most twice
`x` less that bit. -/
theorem refinement_bounds (x e : Nat) :
    x < refinement x e + 2 ^ (e + 1) ∧
      (refinement x e = 0 ∨ refinement x e + 2 ^ (e + 1) ≤ 2 * x) := by
  unfold refinement
  by_cases hx : x < 2 ^ (e + 1)
  · rw [if_pos hx]
    exact ⟨by omega, Or.inl rfl⟩
  · have hpos := Nat.two_pow_pos (e + 1)
    have hlow : 2 ^ x.log2 ≤ x := Nat.log2_self_le (by omega)
    have hhigh : x < 2 ^ (x.log2 + 1) := Nat.lt_log2_self
    have hpow : 2 ^ (x.log2 + 1) = 2 * 2 ^ x.log2 := by rw [Nat.pow_succ, Nat.mul_comm]
    rw [if_neg hx]
    exact ⟨by omega, Or.inr (by omega)⟩

theorem estimate_bounds (hT : 2 ^ 10 ≤ T) :
    512 * T < 513 * estimate T ∧ 2 * estimate T < 3 * T := by
  have hne : T ≠ 0 := by
    rintro rfl
    simp at hT
  have hten : 10 ≤ T.log2 := (Nat.le_log2 hne).2 hT
  obtain ⟨e, he⟩ : ∃ e, T.log2 = e + 10 := ⟨T.log2 - 10, by omega⟩
  have hlow : 2 ^ (e + 10) ≤ T := he ▸ Nat.log2_self_le hne
  have hhigh : T < 2 ^ (e + 10 + 1) := he ▸ Nat.lt_log2_self
  have hestimate : estimate T = 2 ^ (e + 10) + refinement (T - 2 ^ (e + 10)) e := by
    have hmax : max 10 T.log2 = e + 10 := by omega
    simp only [estimate, hmax, Nat.add_sub_cancel]
  obtain ⟨hshort, hlong⟩ := refinement_bounds (T - 2 ^ (e + 10)) e
  have hbit : 2 ^ (e + 10) = 512 * 2 ^ (e + 1) := by
    rw [show e + 10 = e + 1 + 9 by omega, Nat.pow_add, Nat.mul_comm]
  have htop : 2 ^ (e + 10 + 1) = 2 * 2 ^ (e + 10) := by rw [Nat.pow_succ, Nat.mul_comm]
  have hpos := Nat.two_pow_pos (e + 1)
  rw [hestimate]
  omega

/-- With `T` loops in a tick, `timer_calibrate` fails exactly from `2 ^ 31` loops on, and otherwise
it returns an estimate that is too low by less than a part in 512 and too high by less than half. -/
theorem timer_calibrate_estimates (hT : Threshold T tooManyLoops) :
    (2 ^ 31 ≤ T → timerCalibrate tooManyLoops = .error .assertion) ∧
      (T < 2 ^ 31 → timerCalibrate tooManyLoops = .ok (estimate T)) ∧
      (2 ^ 10 ≤ T → 512 * T < 513 * estimate T ∧ 2 * estimate T < 3 * T) := by
  refine ⟨fun hhigh => ?_, timerCalibrate_eq hT, estimate_bounds⟩
  have hstart : (1 : Nat) <<< 10 = 2 ^ 10 := by decide
  have hpower : doubleLoop tooManyLoops 32 (2 ^ 10) = .error .assertion :=
    doubleLoop_assertion hT hhigh (by omega) (by omega)
  rw [timerCalibrate, hstart, hpower]
  rfl

end Estimate

/-- One and a half million loops in a tick are taken for 1570816. -/
theorem timer_calibrate_estimates_high :
    timerCalibrate (fun loops => decide (1500000 < loops)) = .ok 1570816 ∧
      2 * 1570816 < 3 * 1500000 := by
  have hest : estimate 1500000 = 1570816 := by decide +kernel
  have hT : Threshold 1500000 fun loops => decide (1500000 < loops) := fun _ _ => rfl
  obtain ⟨-, hok, hbounds⟩ := timer_calibrate_estimates hT
  rw [hest] at hok hbounds
  exact ⟨hok (by decide), (hbounds (by decide)).2⟩

/-! ## Delays -/

/-- The argument with which `real_time_delay` calls `busy_wait`.  The product of `loops_per_tick`
and `num` is one of `int64_t`. -/
def realTimeDelay (freq loopsPerTick num denom : Int) : Int :=
  (toInt64 ((toInt64 (loopsPerTick * num)).tdiv 1000 * freq)).tdiv (denom.tdiv 1000)

def timerMdelay (freq loopsPerTick ms : Int) : Int := realTimeDelay freq loopsPerTick ms 1000

def timerUdelay (freq loopsPerTick us : Int) : Int :=
  realTimeDelay freq loopsPerTick us (1000 * 1000)

def timerNdelay (freq loopsPerTick ns : Int) : Int :=
  realTimeDelay freq loopsPerTick ns (1000 * 1000 * 1000)

section Delay

variable {freq loopsPerTick num m : Int}

/-- Short of a tick no product wraps around: the loops are those of the time, rounded down twice. -/
theorem realTimeDelay_bounds (hfreq : 0 < freq) (hloops : 0 ≤ loopsPerTick)
    (hloops' : loopsPerTick < Project2.unsignedSize) (hnum : 0 ≤ num) (hm : 0 < m)
    (hm' : m ≤ 1000 * 1000) (hshort : num * freq < 1000 * m) :
    0 ≤ realTimeDelay freq loopsPerTick num (1000 * m) ∧
      1000 * m * realTimeDelay freq loopsPerTick num (1000 * m) ≤ loopsPerTick * (num * freq) ∧
      loopsPerTick * (num * freq) <
        1000 * m * (realTimeDelay freq loopsPerTick num (1000 * m) + 1) + 1000 * freq := by
  have hword : ((Project2.unsignedSize : Nat) : Int) = 2 ^ 32 := by decide
  rw [hword] at hloops'
  have hprod : 0 ≤ loopsPerTick * num := Int.mul_nonneg hloops hnum
  have htotal : loopsPerTick * (num * freq) < 2 ^ 32 * 10 ^ 9 :=
    calc loopsPerTick * (num * freq)
        ≤ loopsPerTick * 10 ^ 9 := Int.mul_le_mul_of_nonneg_left (by omega) hloops
      _ < 2 ^ 32 * 10 ^ 9 := Int.mul_lt_mul_of_pos_right hloops' (by decide)
  have hle : loopsPerTick * num ≤ loopsPerTick * (num * freq) := by
    rw [← Int.mul_assoc]
    exact le_mul_of_one_le_right hprod hfreq
  have hfirst : toInt64 (loopsPerTick * num) = loopsPerTick * num :=
    toInt64_eq ⟨by omega, by omega⟩
  obtain ⟨q, hq⟩ : ∃ q, loopsPerTick * num / 1000 = q := ⟨_, rfl⟩
  have hqpos : 0 ≤ q := by omega
  have hbelow : 1000 * (q * freq) ≤ loopsPerTick * (num * freq) := by
    rw [← Int.mul_assoc, ← Int.mul_assoc]
    exact Int.mul_le_mul_of_nonneg_right (by omega) hfreq.le
  have habove : loopsPerTick * (num * freq) < 1000 * (q * freq) + 1000 * freq := by
    calc loopsPerTick * (num * freq)
        = loopsPerTick * num * freq := (Int.mul_assoc ..).symm
      _ < (1000 * q + 1000) * freq := Int.mul_lt_mul_of_pos_right (by omega) hfreq
      _ = 1000 * (q * freq) + 1000 * freq := by rw [Int.add_mul, Int.mul_assoc]
  have hqfreq : 0 ≤ q * freq := Int.mul_nonneg hqpos hfreq.le
  have hsecond : toInt64 (q * freq) = q * freq := toInt64_eq ⟨by omega, by omega⟩
  have hdenom : (1000 * m).tdiv 1000 = m := Int.mul_tdiv_cancel_left m (by decide)
  have hdelay : realTimeDelay freq loopsPerTick num (1000 * m) = q * freq / m := by
    rw [realTimeDelay, hfirst, Int.tdiv_eq_ediv_of_nonneg hprod, hq, hsecond, hdenom,
      Int.tdiv_eq_ediv_of_nonneg hqfreq]
  have hdivLe : m * (q * freq / m) ≤ q * freq := Int.mul_ediv_self_le hm.ne'
  have hdivLt : q * freq < m * (q * freq / m + 1) := by
    rw [Int.mul_comm m]
    exact Int.lt_ediv_add_one_mul_self _ hm
  rw [hdelay, Int.mul_assoc, Int.mul_assoc]
  exact ⟨Int.ediv_nonneg hqfreq hm.le, by omega, by omega⟩

/-- A request of less than a tick goes on to `real_time_delay`. -/
theorem lt_denom_of_none {denom : Int} (hdenom : 0 < denom)
    (hfits : num * freq < 2 ^ 63) (h : realTimeSleep freq num denom = none) :
    num * freq < denom := by
  by_contra hge
  have hone : 1 ≤ num * freq / denom := by
    refine (Int.le_ediv_iff_mul_le hdenom).2 ?_
    omega
  rw [realTimeSleep_of_fits hdenom hone hfits] at h
  cases h

/-- The loops that the call waits for when it does not sleep. -/
def SleepCall.delay (freq loopsPerTick : Int) : SleepCall → Option Int
  | .sleep _ => none
  | .msleep ms => some (timerMdelay freq loopsPerTick ms)
  | .usleep us => some (timerUdelay freq loopsPerTick us)
  | .nsleep ns => some (timerNdelay freq loopsPerTick ns)

/-- The parts of a second that the argument counts. -/
def SleepCall.denom : SleepCall → Int
  | .sleep _ | .msleep _ => 1000
  | .usleep _ => 1000 * 1000
  | .nsleep _ => 1000 * 1000 * 1000

/-- A call for less than a tick waits for the loops of its time, less at most one of its own loops
and what `denom / 1000` leaves of them, and for fewer than `loops_per_tick`. -/
theorem sub_tick_delay {c : SleepCall} {loops : Int} (hfreq : 0 < freq) (hloops : 0 ≤ loopsPerTick)
    (hloops' : loopsPerTick < Project2.unsignedSize) (harg : 0 ≤ c.arg)
    (hfits : c.product freq < 2 ^ 63) (hnone : c.timerSleep freq = none)
    (hdelay : c.delay freq loopsPerTick = some loops) :
    0 ≤ loops ∧ c.denom * loops ≤ loopsPerTick * c.product freq ∧
      loopsPerTick * c.product freq < c.denom * (loops + 1) + 1000 * freq ∧
      (0 < loopsPerTick → loops < loopsPerTick) := by
  obtain ⟨m, hm, hm', hdenom, hshort, hloop⟩ : ∃ m, 0 < m ∧ m ≤ 1000 * 1000 ∧
      c.denom = 1000 * m ∧ c.product freq < 1000 * m ∧ c.product freq = c.arg * freq ∧
      realTimeDelay freq loopsPerTick c.arg (1000 * m) = loops := by
    cases c with
    | sleep ticks =>
        cases hdelay
    | msleep n =>
        exact ⟨1, by decide, by decide, rfl, lt_denom_of_none (by decide) hfits hnone, rfl,
          Option.some.inj hdelay⟩
    | usleep n =>
        exact ⟨1000, by decide, by decide, rfl, lt_denom_of_none (by decide) hfits hnone, rfl,
          Option.some.inj hdelay⟩
    | nsleep n =>
        refine ⟨1000 * 1000, by decide, by decide, rfl, ?_, rfl, ?_⟩ <;> rw [← Int.mul_assoc]
        · exact lt_denom_of_none (by decide) hfits hnone
        · exact Option.some.inj hdelay
  obtain ⟨hproduct, hloop⟩ := hloop
  rw [hproduct] at hshort ⊢
  obtain ⟨hnonneg, hbelow, habove⟩ :=
    realTimeDelay_bounds hfreq hloops hloops' harg hm hm' hshort
  rw [hloop] at hnonneg hbelow habove
  rw [hdenom]
  refine ⟨hnonneg, hbelow, habove, fun hpos => ?_⟩
  have hlt : 1000 * m * loops < 1000 * m * loopsPerTick :=
    calc 1000 * m * loops
        ≤ loopsPerTick * (c.arg * freq) := hbelow
      _ < loopsPerTick * (1000 * m) := Int.mul_lt_mul_of_pos_left hshort hpos
      _ = 1000 * m * loopsPerTick := Int.mul_comm ..
  exact lt_of_mul_lt_mul_left hlt (by omega)

/-- Nine milliseconds at 100 ticks a second. -/
theorem sub_tick_delay_msleep :
    (0 : Int) ≤ 1413700 ∧ 1000 * (1413700 : Int) ≤ 1570816 * (9 * 100) ∧
      (1570816 : Int) * (9 * 100) < 1000 * (1413700 + 1) + 1000 * 100 ∧
      ((0 : Int) < 1570816 → (1413700 : Int) < 1570816) := by
  have hfits : (SleepCall.msleep 9).product 100 < 2 ^ 63 := by decide
  exact sub_tick_delay (c := .msleep 9) (by decide) (by decide) (by decide) (by decide) hfits
    (by decide) (by decide)

end Delay

end Project1
end Pintos
