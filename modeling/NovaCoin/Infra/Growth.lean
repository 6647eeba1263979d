import Mathlib.Analysis.Complex.ExponentialBounds

/-!
# Values that grow with time

A value that is looked at again and again grows at a bounded rate if each look finds it below an
exponential of the time since the last one. Such bounds compose, so one for the steps of a loop is
one for the whole loop, however its steps are spaced.
-/

namespace Growth

/-- From one value and time to another, the value grows at most at the rate `c`. -/
def Grows (c : ℝ) (p q : ℝ × ℝ) : Prop := q.1 ≤ p.1 * Real.exp (c * (q.2 - p.2))

variable {c x : ℝ} {p q r : ℝ × ℝ}

theorem Grows.trans (hpq : Grows c p q) (hqr : Grows c q r) : Grows c p r := by
  have hsum : c * (r.2 - p.2) = c * (q.2 - p.2) + c * (r.2 - q.2) := by ring
  calc r.1 ≤ q.1 * Real.exp (c * (r.2 - q.2)) := hqr
    _ ≤ p.1 * Real.exp (c * (q.2 - p.2)) * Real.exp (c * (r.2 - q.2)) :=
      mul_le_mul_of_nonneg_right hpq (Real.exp_pos _).le
    _ = p.1 * Real.exp (c * (r.2 - p.2)) := by rw [hsum, Real.exp_add, mul_assoc]

theorem Grows.of_le (hx : x ≤ p.1) : Grows c p (x, p.2) := by
  rw [Grows, sub_self, mul_zero, Real.exp_zero, mul_one]
  exact hx

/-- A bound by a power of two. -/
theorem Grows.le_two_pow (h : Grows c p q) (hp : 0 ≤ p.1) {n : ℕ}
    (hspan : c * (q.2 - p.2) ≤ n * Real.log 2) : q.1 ≤ p.1 * 2 ^ n := by
  refine le_trans h (mul_le_mul_of_nonneg_left ?_ hp)
  rw [← Real.exp_log (show (0 : ℝ) < 2 by norm_num), ← Real.exp_nat_mul]
  exact Real.exp_le_exp.mpr hspan

/-- One step of an exponential moving average over `T` toward the spacing `s`: with the spacing `a`,
the value is multiplied by `1 + 2 (a - s) / d`, where `d` is `T` rounded up. -/
theorem grows_movingAverage {T d s a : ℝ} (hT : 0 < T) (hd : T ≤ d) (hds : d ≤ T + s) (ha : -T ≤ a)
    (hx : 0 ≤ x) (t : ℝ) : Grows (2 / T) (x, t) (x * ((d - 2 * s + 2 * a) / d), t + a) := by
  have hdpos : 0 < d := hT.trans_le hd
  have hexp : (2 * a - 2 * s) / d ≤ 2 / T * a := by
    rw [div_mul_eq_mul_div, div_le_div_iff₀ hdpos hT]
    nlinarith
  have hfactor : (d - 2 * s + 2 * a) / d ≤ Real.exp (2 / T * a) :=
    calc (d - 2 * s + 2 * a) / d = (2 * a - 2 * s) / d + 1 := by field_simp; ring
      _ ≤ Real.exp ((2 * a - 2 * s) / d) := Real.add_one_le_exp _
      _ ≤ Real.exp (2 / T * a) := Real.exp_le_exp.mpr hexp
  rw [Grows, add_sub_cancel_left]
  exact mul_le_mul_of_nonneg_left hfactor hx

end Growth
