import Mathlib.Data.Finset.Card
import Mathlib.Data.Nat.Find
import Mathlib.Dynamics.PeriodicPts.Defs

/-!
# A slow and a fast pointer

One pointer follows the links one at a time, the other two at a time. The fast one comes to the
first element without a link, or the two meet.
-/

namespace Extempore.CycleDetection

open Function

variable {α : Type*}

/-- The first element without a link comes after `n` links. -/
structure EndsAfter (next : α → α) (stop : α → Bool) (x : α) (n : ℕ) : Prop where
  stops : stop (next^[n] x) = true
  goes_on : ∀ j < n, stop (next^[j] x) = false

/-- All elements have a link. -/
def Endless (next : α → α) (stop : α → Bool) (x : α) : Prop := ∀ j, stop (next^[j] x) = false

/-- The result `some (some y)` is the first element `y` without a link, `some none` is that the
pointers have met; `none` is a loop that is not over after `fuel` rounds. -/
def chase [DecidableEq α] (next : α → α) (stop : α → Bool) : ℕ → α → α → Option (Option α)
  | 0, _, _ => none
  | fuel + 1, slow, fast =>
    if stop fast then some (some fast)
    else if stop (next fast) then some (some (next fast))
    else if next (next fast) = next slow then some none
    else chase next stop fuel (next slow) (next (next fast))

variable {next : α → α} {stop : α → Bool} {x : α}

theorem exists_endsAfter_or_endless (next : α → α) (stop : α → Bool) (x : α) :
    (∃ n, EndsAfter next stop x n) ∨ Endless next stop x := by
  by_cases h : ∃ n, stop (next^[n] x) = true
  · left
    refine ⟨Nat.find h, Nat.find_spec h, fun j hj => ?_⟩
    exact Bool.eq_false_iff.mpr (Nat.find_min h hj)
  · right
    intro j
    exact Bool.eq_false_iff.mpr fun hj => h ⟨j, hj⟩

theorem EndsAfter.not_endless {n : ℕ} (h : EndsAfter next stop x n) :
    ¬ Endless next stop x := fun hall => by
  have hgoes := hall n
  rw [h.stops] at hgoes
  cases hgoes

theorem EndsAfter.unique {m n : ℕ} (h : EndsAfter next stop x m) (h' : EndsAfter next stop x n) :
    m = n := by
  apply Nat.le_antisymm
  · by_contra hlt
    have hgoes := h.goes_on n (by omega)
    rw [h'.stops] at hgoes
    cases hgoes
  · by_contra hlt
    have hgoes := h'.goes_on m (by omega)
    rw [h.stops] at hgoes
    cases hgoes

/-- Pointers that meet are on a cycle, and there is no end behind a cycle. -/
theorem EndsAfter.not_meet {n k : ℕ} (h : EndsAfter next stop x n) (hk : 0 < k) (hkn : 2 * k ≤ n) :
    next^[2 * k] x ≠ next^[k] x := by
  intro hmeet
  have hperiod : IsPeriodicPt next k (next^[k] x) := by
    show next^[k] (next^[k] x) = next^[k] x
    rw [← iterate_add_apply, ← Nat.two_mul]
    exact hmeet
  have hlast : next^[(n - k) % k + k] x = next^[n] x :=
    calc next^[(n - k) % k + k] x = next^[(n - k) % k] (next^[k] x) := iterate_add_apply ..
      _ = next^[n - k] (next^[k] x) := hperiod.iterate_mod_apply _
      _ = next^[n - k + k] x := (iterate_add_apply ..).symm
      _ = next^[n] x := by rw [Nat.sub_add_cancel (by omega)]
  have hmod := Nat.mod_lt (n - k) hk
  have hgoes := h.goes_on ((n - k) % k + k) (by omega)
  rw [hlast, h.stops] at hgoes
  cases hgoes

/-- There are fewer elements than links, so that the pointers meet. -/
theorem exists_meet {s : Finset α} (hs : ∀ j, next^[j] x ∈ s) :
    ∃ k, 0 < k ∧ k ≤ s.card ∧ next^[2 * k] x = next^[k] x := by
  have hcard : s.card < (Finset.range (s.card + 1)).card := by
    rw [Finset.card_range]
    exact Nat.lt_succ_self _
  obtain ⟨a, ha, b, hb, hne, heq⟩ := Finset.exists_ne_map_eq_of_card_lt_of_maps_to hcard
    (f := fun k : ℕ => next^[k] x) fun k _ => hs k
  obtain ⟨i, j, hij, hj, heq⟩ : ∃ i j, i < j ∧ j ≤ s.card ∧ next^[i] x = next^[j] x := by
    rw [Finset.mem_range] at ha hb
    cases Nat.lt_or_gt_of_ne hne with
    | inl hlt => exact ⟨a, b, hlt, by omega, heq⟩
    | inr hgt => exact ⟨b, a, hgt, by omega, heq.symm⟩
  -- the period is `j - i`, and `k` is its first multiple above `i`
  have hperiod : IsPeriodicPt next (j - i) (next^[i] x) := by
    show next^[j - i] (next^[i] x) = next^[i] x
    rw [← iterate_add_apply, Nat.sub_add_cancel hij.le, heq]
  have hdiv := Nat.div_add_mod i (j - i)
  have hmod := Nat.mod_lt i (show 0 < j - i by omega)
  have hk : (j - i) * (i / (j - i) + 1) = (j - i) * (i / (j - i)) + (j - i) := Nat.mul_succ _ _
  generalize hkdef : (j - i) * (i / (j - i) + 1) = k at hk
  refine ⟨k, by omega, by omega, ?_⟩
  have hpk : IsPeriodicPt next k (next^[k] x) := by
    have hshift : next^[k - i] (next^[i] x) = next^[k] x := by
      rw [← iterate_add_apply, Nat.sub_add_cancel (by omega)]
    rw [← hshift, ← hkdef]
    exact (hperiod.apply_iterate _).mul_const _
  rw [Nat.two_mul, iterate_add_apply]
  exact hpk

/-- Without the cycle, no element comes twice before the end. -/
theorem EndsAfter.lt_card {s : Finset α} {n : ℕ} (h : EndsAfter next stop x n)
    (hs : ∀ j ≤ n, next^[j] x ∈ s) : n < s.card := by
  have hinj : Set.InjOn (fun j : ℕ => next^[j] x) (Finset.range (n + 1)) := by
    intro i hi j hj heq
    rw [Finset.coe_range, Set.mem_Iio] at hi hj
    have hends (i : ℕ) (hi : i < n + 1) : EndsAfter next stop (next^[i] x) (n - i) := by
      refine ⟨?_, fun l hl => ?_⟩
      · rw [← iterate_add_apply, Nat.sub_add_cancel (by omega)]
        exact h.stops
      · rw [← iterate_add_apply]
        exact h.goes_on _ (by omega)
    have hj' := hends j hj
    rw [← show next^[i] x = next^[j] x from heq] at hj'
    have := (hends i hi).unique hj'
    omega
  have hle := Finset.card_le_card_of_injOn _
    (fun j hj => hs j (Nat.lt_succ_iff.mp (Finset.mem_range.mp hj))) hinj
  rw [Finset.card_range] at hle
  omega

variable [DecidableEq α]

/-- The round after `k` others. -/
theorem chase_succ (next : α → α) (stop : α → Bool) (x : α) (fuel k : ℕ) :
    chase next stop (fuel + 1) (next^[k] x) (next^[2 * k] x) =
      if stop (next^[2 * k] x) then some (some (next^[2 * k] x))
      else if stop (next^[2 * k + 1] x) then some (some (next^[2 * k + 1] x))
      else if next^[2 * (k + 1)] x = next^[k + 1] x then some none
      else chase next stop fuel (next^[k + 1] x) (next^[2 * (k + 1)] x) := by
  rw [chase, ← iterate_succ_apply' next (2 * k), ← iterate_succ_apply' next (2 * k).succ,
    ← iterate_succ_apply' next k]
  rfl

theorem chase_of_ends_from {n : ℕ} (h : EndsAfter next stop x n) {fuel k : ℕ} (hk : 2 * k ≤ n)
    (hfuel : n < 2 * (k + fuel)) :
    chase next stop fuel (next^[k] x) (next^[2 * k] x) = some (some (next^[n] x)) := by
  induction fuel generalizing k with
  | zero => omega
  | succ fuel ih =>
    rw [chase_succ]
    by_cases h₀ : n = 2 * k
    · subst h₀
      rw [if_pos h.stops]
    · rw [if_neg (by rw [h.goes_on _ (by omega)]; exact Bool.false_ne_true)]
      by_cases h₁ : n = 2 * k + 1
      · subst h₁
        rw [if_pos h.stops]
      · rw [if_neg (by rw [h.goes_on _ (by omega)]; exact Bool.false_ne_true),
          if_neg (h.not_meet (Nat.succ_pos k) (by omega))]
        exact ih (by omega) (by omega)

theorem chase_of_ends {n fuel : ℕ} (h : EndsAfter next stop x n) (hfuel : n < 2 * fuel) :
    chase next stop fuel x x = some (some (next^[n] x)) :=
  chase_of_ends_from h (k := 0) (Nat.zero_le _) (by omega)

theorem chase_of_meet_from (h : Endless next stop x) {fuel k d : ℕ} (hd : 0 < d) (hdf : d ≤ fuel)
    (hmeet : next^[2 * (k + d)] x = next^[k + d] x) :
    chase next stop fuel (next^[k] x) (next^[2 * k] x) = some none := by
  induction fuel generalizing k d with
  | zero => omega
  | succ fuel ih =>
    rw [chase_succ, if_neg (by rw [h]; exact Bool.false_ne_true),
      if_neg (by rw [h]; exact Bool.false_ne_true)]
    by_cases hnow : next^[2 * (k + 1)] x = next^[k + 1] x
    · rw [if_pos hnow]
    · rw [if_neg hnow]
      have hd' : d ≠ 1 := by
        rintro rfl
        exact hnow hmeet
      have hsum : k + 1 + (d - 1) = k + d := by omega
      exact ih (k := k + 1) (d := d - 1) (by omega) (by omega) (by rw [hsum]; exact hmeet)

theorem chase_of_endless {s : Finset α} {fuel : ℕ} (h : Endless next stop x)
    (hs : ∀ j, next^[j] x ∈ s) (hfuel : s.card ≤ fuel) : chase next stop fuel x x = some none := by
  obtain ⟨k, hpos, hle, hmeet⟩ := exists_meet hs
  exact chase_of_meet_from h (k := 0) (d := k) hpos (by omega) (by rw [Nat.zero_add]; exact hmeet)

end Extempore.CycleDetection
