import Mathlib.Data.Rat.Floor
import Extempore.PatternLanguage

/-!
# The loop counter of a looper

The counter of a looper is advanced when the position, the sum of the steps since the last advance,
is exactly the length of the pattern. A step is half a beat, or half of a pattern of at most one
beat, so the sum meets the length only when that is a whole number of half beats or at most one.
-/

namespace Extempore.LoopCounters

open PatternLanguage SchemeNumbers SchemeNumbers.Number

variable {start beats : Number} {n k : ℕ}

/-- The `n`-th call sees the number of whole patterns before it and its position in the next one. -/
def CountsLoops (start beats : Number) (n : ℕ) : Prop :=
  let s := Looper.after ⟨start, 0, 0⟩ beats n
  let e := s.beat.value - start.value
  (s.loopcnt : ℤ) = ⌊e / beats.value⌋ ∧
    s.totaldur.value = e - (⌊e / beats.value⌋ : ℤ) * beats.value

theorem after_succ (s : Looper) (beats : Number) (n : ℕ) :
    s.after beats (n + 1) = (s.after beats n).next beats :=
  Function.iterate_succ_apply' ..

theorem elapsed_eq (start beats : Number) (n : ℕ) :
    (Looper.after ⟨start, 0, 0⟩ beats n).beat.value - start.value =
      n * (stepDur beats).value := by
  rw [(after_spec start beats n).1]
  ring

/-- One call more inside a pattern of `k` steps. -/
theorem next_position (hk : 0 < k) (n : ℕ) :
    (n % k + 1 = k ∧ (n + 1) / k = n / k + 1 ∧ (n + 1) % k = 0) ∨
      (n % k + 1 ≠ k ∧ (n + 1) / k = n / k ∧ (n + 1) % k = n % k + 1) := by
  have hlt := Nat.mod_lt n hk
  have hdiv := Nat.mod_add_div n k
  rw [Nat.div_mod_unique hk, Nat.div_mod_unique hk, Nat.mul_succ]
  omega

/-- The calls of a pattern of `k` steps. -/
theorem after_of_steps (start : Number) (hd : 0 < (stepDur beats).value) (hk : 0 < k)
    (hbeats : beats.value = k * (stepDur beats).value) (n : ℕ) :
    (Looper.after ⟨start, 0, 0⟩ beats n).totaldur.value = (n % k : ℕ) * (stepDur beats).value ∧
      (Looper.after ⟨start, 0, 0⟩ beats n).loopcnt = n / k := by
  induction n with
  | zero => simp [Looper.after]
  | succ n ih =>
    rcases ih with ⟨htotal, hcount⟩
    have hsum : ∀ d : ℕ, (d : ℚ) * (stepDur beats).value + (stepDur beats).value =
        ((d + 1 : ℕ) : ℚ) * (stepDur beats).value := by
      intro d
      push_cast
      ring
    have hreset : ((n % k + 1 : ℕ) : ℚ) * (stepDur beats).value = k * (stepDur beats).value ↔
        n % k + 1 = k := by
      rw [mul_left_inj' hd.ne', Nat.cast_inj]
    rw [after_succ, Looper.next]
    simp only [value_add, htotal, hcount, hsum, hbeats, hreset]
    rcases next_position hk n with ⟨hlast, hdiv, hmod⟩ | ⟨hlast, hdiv, hmod⟩
    · rw [if_pos hlast, if_pos hlast, hmod, hdiv]
      simp
    · rw [if_neg hlast, if_neg hlast, hmod, hdiv, value_add, htotal, hsum]
      exact ⟨rfl, rfl⟩

/-- No number of steps is the length, so the position never starts again. -/
theorem after_of_no_steps (start : Number) (h : ∀ k : ℕ, beats.value ≠ k * (stepDur beats).value) (n : ℕ) :
    (Looper.after ⟨start, 0, 0⟩ beats n).totaldur.value = n * (stepDur beats).value ∧
      (Looper.after ⟨start, 0, 0⟩ beats n).loopcnt = 0 := by
  induction n with
  | zero => simp [Looper.after]
  | succ n ih =>
    rcases ih with ⟨htotal, hcount⟩
    have hsum : (Looper.after ⟨start, 0, 0⟩ beats n).totaldur.value + (stepDur beats).value =
        ((n + 1 : ℕ) : ℚ) * (stepDur beats).value := by
      rw [htotal]
      push_cast
      ring
    rw [after_succ, Looper.next]
    simp only [value_add, hsum]
    rw [if_neg (h (n + 1)).symm, if_neg (h (n + 1)).symm, value_add, hsum]
    exact ⟨rfl, hcount⟩

theorem exists_steps_iff (beats : Number) :
    (∃ k : ℕ, beats.value = k * (stepDur beats).value) ↔
      beats.value ≤ 1 ∨ ∃ k : ℕ, 2 * beats.value = k := by
  unfold stepDur
  by_cases hone : 1 < beats.value
  · rw [if_pos hone, or_iff_right (not_le.mpr hone)]
    refine exists_congr fun k => ?_
    rw [value_fraction]
    constructor <;> intro h <;> linarith
  · rw [if_neg hone]
    refine iff_of_true ⟨2, ?_⟩ (Or.inl (not_lt.mp hone))
    rw [value_div, value_two]
    ring

/-- The counter counts the patterns exactly when the pattern is a whole number of steps, or none
has been completed yet. -/
theorem countsLoops_iff (start : Number) (hbeats : 0 < beats.value) (n : ℕ) :
    CountsLoops start beats n ↔
      (beats.value ≤ 1 ∨ ∃ k : ℕ, 2 * beats.value = k) ∨ n * (stepDur beats).value < beats.value := by
  have hd := stepDur_pos hbeats
  rw [← exists_steps_iff]
  unfold CountsLoops
  dsimp only
  rw [elapsed_eq]
  by_cases hsteps : ∃ k : ℕ, beats.value = k * (stepDur beats).value
  · refine iff_of_true ?_ (Or.inl hsteps)
    rcases hsteps with ⟨k, hk⟩
    have hpos : 0 < k := by
      apply Nat.pos_of_ne_zero
      intro hzero
      rw [hzero, Nat.cast_zero, zero_mul] at hk
      exact hbeats.ne' hk
    have hquot : (n : ℚ) * (stepDur beats).value / beats.value = (n : ℚ) / k := by
      rw [hk, mul_div_mul_right _ _ hd.ne']
    rcases after_of_steps start hd hpos hk n with ⟨htotal, hcount⟩
    have hsplit : (n : ℚ) = k * (n / k : ℕ) + (n % k : ℕ) := by
      exact_mod_cast (Nat.div_add_mod n k).symm
    rw [hquot, Rat.floor_natCast_div_natCast, hcount, htotal]
    refine ⟨rfl, ?_⟩
    have hcast : (((n : ℤ) / (k : ℤ) : ℤ) : ℚ) = (n / k : ℕ) := by
      rw [← Int.natCast_div, Int.cast_natCast]
    rw [hcast, hk, hsplit]
    ring
  · rw [or_iff_right hsteps]
    rw [not_exists] at hsteps
    rcases after_of_no_steps start hsteps n with ⟨htotal, hcount⟩
    rw [htotal, hcount]
    constructor
    · intro h
      have hfloor := Int.floor_eq_zero_iff.mp h.1.symm
      exact (div_lt_one hbeats).mp hfloor.2
    · intro hlt
      have hfloor : ⌊(n : ℚ) * (stepDur beats).value / beats.value⌋ = 0 :=
        Int.floor_eq_zero_iff.mpr
          ⟨div_nonneg (mul_nonneg (Nat.cast_nonneg n) hd.le) hbeats.le, (div_lt_one hbeats).mpr hlt⟩
      rw [hfloor]
      simp

theorem countsLoops_four : CountsLoops 0 (integer 4) 9 ↔
    ((integer 4).value ≤ 1 ∨ ∃ k : ℕ, 2 * (integer 4).value = k) ∨
      (9 : ℕ) * (stepDur (integer 4)).value < (integer 4).value :=
  countsLoops_iff 0 (by decide) 9

/-- A pattern of 9/4 beats: the position passes its end at the sixth call and is never reset. -/
theorem not_countsLoops_nine_fourths :
    0 < (fraction (9 / 4)).value ∧ ¬ CountsLoops 0 (fraction (9 / 4)) 5 := by
  refine ⟨by norm_num, fun h => ?_⟩
  have hcount := h.1
  revert hcount
  decide +kernel

end Extempore.LoopCounters
