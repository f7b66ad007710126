import Mathlib

/-!
# Residues in an interval

Every residue of a modulus occurs equally often in an interval of integers exactly if the modulus
divides the length of the interval.
-/

namespace Extempore.ResidueCounts

open Finset

variable {a b r : ℤ}

/-- The integers of an interval with a given residue. -/
noncomputable def withResidue (a b r v : ℤ) : Finset ℤ :=
  {x ∈ Ico a b | x % r = v}

theorem mem_withResidue {v x : ℤ} : x ∈ withResidue a b r v ↔ (a ≤ x ∧ x < b) ∧ x % r = v := by
  rw [withResidue, mem_filter, mem_Ico]

theorem card_withResidue (hr : 0 < r) (hab : a ≤ b) (h : r ∣ b - a) {v : ℤ} (hv : 0 ≤ v ∧ v < r) :
    (#(withResidue a b r v) : ℤ) = (b - a) / r := by
  have hset : withResidue a b r v = {x ∈ Ico a b | x ≡ v [ZMOD r]} := by
    ext x
    rw [mem_withResidue, mem_filter, mem_Ico, Int.ModEq, Int.emod_eq_of_lt hv.1 hv.2]
  rcases h with ⟨c, hc⟩
  have hr' : (r : ℚ) ≠ 0 := by exact_mod_cast hr.ne'
  have hdiv : ((b : ℚ) - v) / r = (a - v) / r + (c : ℤ) := by
    have hb : (b : ℚ) = a + r * c := by exact_mod_cast (by omega : b = a + r * c)
    rw [hb]
    field_simp
    ring
  have hc0 : 0 ≤ c := by
    by_contra hneg
    have hlt := mul_neg_of_pos_of_neg hr (not_le.mp hneg)
    omega
  rw [hset, Int.Ico_filter_modEq_card a b hr, hdiv, Int.ceil_add_intCast, add_sub_cancel_left,
    max_eq_left hc0, hc, Int.mul_ediv_cancel_left _ hr.ne']

/-- The residues are counted equally often. -/
theorem exists_card_iff (hr : 0 < r) (hab : a ≤ b) :
    (∃ c, ∀ v, 0 ≤ v ∧ v < r → #(withResidue a b r v) = c) ↔ r ∣ b - a := by
  constructor
  · rintro ⟨c, hc⟩
    have htotal : #(Ico a b) = ∑ v ∈ Ico 0 r, #{x ∈ Ico a b | x % r = v} :=
      card_eq_sum_card_fiberwise fun x _ => by
        simp only [coe_Ico, Set.mem_Ico]
        exact ⟨Int.emod_nonneg x hr.ne', Int.emod_lt_of_pos x hr⟩
    have hsum : ∑ v ∈ Ico 0 r, #{x ∈ Ico a b | x % r = v} = #(Ico 0 r) * c := by
      rw [sum_const_nat]
      intro v hv
      exact hc v (mem_Ico.mp hv)
    rw [hsum, Int.card_Ico, Int.card_Ico, sub_zero] at htotal
    refine ⟨c, ?_⟩
    have hcast : ((b - a).toNat : ℤ) = (r.toNat : ℤ) * c := by exact_mod_cast htotal
    rwa [Int.toNat_of_nonneg (by omega), Int.toNat_of_nonneg hr.le] at hcast
  · intro h
    refine ⟨((b - a) / r).toNat, fun v hv => ?_⟩
    have hcard := card_withResidue hr hab h hv
    omega

end Extempore.ResidueCounts
