import Mathlib.Algebra.Order.Ring.Int
import Mathlib.Data.Int.GCD
import Mathlib.Tactic.Ring

/-!
# Euclid's algorithm with truncating division

With the remainder of C, which has the sign of the dividend, Euclid's algorithm returns a
greatest common divisor of either sign. The sign is a function of the ratio of the arguments, so
that division by it still gives one lowest form of a fraction.
-/

namespace Extempore.TruncatedEuclid

/-- Euclid's algorithm on signed numbers. -/
def euclid (a b : ℤ) : ℤ :=
  if b = 0 then a else euclid b (a.tmod b)
termination_by b.natAbs
decreasing_by
  rw [Int.natAbs_tmod]
  exact Nat.mod_lt _ (Int.natAbs_pos.mpr ‹_›)

@[simp] theorem euclid_zero (a : ℤ) : euclid a 0 = a := by
  rw [euclid, if_pos rfl]

theorem euclid_of_ne_zero {b : ℤ} (a : ℤ) (hb : b ≠ 0) : euclid a b = euclid b (a.tmod b) := by
  rw [euclid, if_neg hb]

/-- Up to its sign the result is the greatest common divisor. -/
theorem natAbs_euclid (a b : ℤ) : (euclid a b).natAbs = Int.gcd a b := by
  induction a, b using euclid.induct with
  | case1 a => simp
  | case2 a b hb ih =>
    rw [euclid_of_ne_zero a hb, ih, Int.gcd, Int.gcd, Int.natAbs_tmod, Nat.gcd_comm,
      ← Nat.gcd_rec, Nat.gcd_comm]

theorem euclid_dvd_left (a b : ℤ) : euclid a b ∣ a := by
  rw [← Int.natAbs_dvd, natAbs_euclid]
  exact Int.gcd_dvd_left ..

theorem euclid_dvd_right (a b : ℤ) : euclid a b ∣ b := by
  rw [← Int.natAbs_dvd, natAbs_euclid]
  exact Int.gcd_dvd_right ..

theorem euclid_ne_zero {a b : ℤ} (hb : b ≠ 0) : euclid a b ≠ 0 := by
  intro h
  have hdvd := euclid_dvd_right a b
  rw [h, zero_dvd_iff] at hdvd
  exact hb hdvd

theorem mul_tmod_mul {k : ℤ} (hk : k ≠ 0) (a b : ℤ) : (k * a).tmod (k * b) = k * a.tmod b := by
  cases lt_or_gt_of_ne hk with
  | inl hneg =>
    have h := Int.mul_tmod_mul_of_pos (a := -k) a b (by omega)
    rw [Int.neg_mul, Int.neg_mul, Int.tmod_neg, Int.neg_tmod, Int.neg_mul] at h
    omega
  | inr hpos => exact Int.mul_tmod_mul_of_pos a b hpos

/-- A common factor comes out with its sign. -/
theorem euclid_mul_left {k : ℤ} (hk : k ≠ 0) (a b : ℤ) : euclid (k * a) (k * b) = k * euclid a b := by
  induction a, b using euclid.induct with
  | case1 a => simp
  | case2 a b hb ih =>
    rw [euclid_of_ne_zero _ (mul_ne_zero hk hb), mul_tmod_mul hk, ih, ← euclid_of_ne_zero a hb]

/-- Equal fractions have the same lowest form. -/
theorem lowest_eq_of_mul_eq_mul {a b c d : ℤ} (hb : b ≠ 0) (hd : d ≠ 0) (h : a * d = c * b) :
    a.tdiv (euclid a b) = c.tdiv (euclid c d) ∧ b.tdiv (euclid a b) = d.tdiv (euclid c d) := by
  have hscale : d * euclid a b = b * euclid c d := by
    rw [← euclid_mul_left hd, ← euclid_mul_left hb, mul_comm d a, h, mul_comm c b, mul_comm d b]
  have hg := euclid_ne_zero (a := a) hb
  have hg' := euclid_ne_zero (a := c) hd
  constructor
  · apply Int.tdiv_eq_tdiv_of_mul_eq_mul (euclid_dvd_left c d) hg hg'
    apply mul_left_cancel₀ hb
    calc b * (a * euclid c d) = a * (b * euclid c d) := by ring
      _ = a * d * euclid a b := by rw [← hscale]; ring
      _ = b * (euclid a b * c) := by rw [h]; ring
  · apply Int.tdiv_eq_tdiv_of_mul_eq_mul (euclid_dvd_right c d) hg hg'
    rw [← hscale]
    exact mul_comm _ _

/-- The number of divisions that Euclid's algorithm makes. -/
def divisions (a b : ℕ) : ℕ :=
  if b = 0 then 0 else divisions b (a % b) + 1
termination_by b
decreasing_by exact Nat.mod_lt _ (Nat.pos_of_ne_zero ‹_›)

@[simp] theorem divisions_zero (a : ℕ) : divisions a 0 = 0 := by
  rw [divisions, if_pos rfl]

theorem divisions_of_ne_zero {b : ℕ} (a : ℕ) (hb : b ≠ 0) :
    divisions a b = divisions b (a % b) + 1 := by
  rw [divisions, if_neg hb]

/-- The result has the sign of the second number after an odd number of divisions and that of the
first one otherwise. -/
theorem sign_euclid (a b : ℤ) :
    (euclid a b).sign = if Odd (divisions a.natAbs b.natAbs) then b.sign else a.sign := by
  induction a, b using euclid.induct with
  | case1 a => simp
  | case2 a b hb ih =>
    rw [euclid_of_ne_zero a hb, ih, Int.natAbs_tmod,
      divisions_of_ne_zero _ (Int.natAbs_ne_zero.mpr hb)]
    simp only [Nat.odd_add_one]
    by_cases hodd : Odd (divisions b.natAbs (a.natAbs % b.natAbs))
    · have hdvd : ¬ b ∣ a := by
        intro h
        rw [Nat.mod_eq_zero_of_dvd (Int.natAbs_dvd_natAbs.mpr h), divisions_zero] at hodd
        exact absurd hodd (by decide)
      rw [if_pos hodd, if_neg (not_not.mpr hodd), Int.sign_tmod, if_neg hdvd]
    · rw [if_neg hodd, if_pos hodd]

/-- The lowest form has no common factor any more, not even a negative one. -/
theorem euclid_lowest {a b : ℤ} (hb : b ≠ 0) :
    euclid (a.tdiv (euclid a b)) (b.tdiv (euclid a b)) = 1 := by
  have hg := euclid_ne_zero (a := a) hb
  have h := euclid_mul_left hg (a.tdiv (euclid a b)) (b.tdiv (euclid a b))
  rw [Int.mul_tdiv_cancel_of_dvd (euclid_dvd_left a b),
    Int.mul_tdiv_cancel_of_dvd (euclid_dvd_right a b)] at h
  exact mul_left_cancel₀ hg (by rw [← h, mul_one])

/-- The denominator of the lowest form is positive just when the signs agree or the number of
divisions is odd. -/
theorem lowest_denominator_pos_iff {a b : ℤ} (ha : a ≠ 0) (hb : b ≠ 0) :
    0 < b.tdiv (euclid a b) ↔ a.sign = b.sign ∨ Odd (divisions a.natAbs b.natAbs) := by
  have hmul := Int.mul_tdiv_cancel_of_dvd (euclid_dvd_right a b)
  have hsign := congrArg Int.sign hmul
  rw [Int.sign_mul, sign_euclid] at hsign
  have ha' : a.sign ≠ 0 := fun h => ha (Int.sign_eq_zero_iff_zero.mp h)
  have hb' : b.sign ≠ 0 := fun h => hb (Int.sign_eq_zero_iff_zero.mp h)
  rw [← Int.sign_eq_one_iff_pos]
  by_cases hodd : Odd (divisions a.natAbs b.natAbs)
  · rw [if_pos hodd] at hsign
    exact iff_of_true (mul_left_cancel₀ hb' (by rw [hsign, mul_one])) (Or.inr hodd)
  · rw [if_neg hodd] at hsign
    constructor
    · intro h
      rw [h, mul_one] at hsign
      exact Or.inl hsign
    · intro h
      have heq := h.resolve_right hodd
      exact mul_left_cancel₀ ha' (by rw [hsign, mul_one, heq])

end Extempore.TruncatedEuclid
