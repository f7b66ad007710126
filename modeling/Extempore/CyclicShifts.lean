import Mathlib.Algebra.Order.Ring.Int

/-!
# Cyclic shifts by integers

`MovedRight l n l'` says that `l'` is `l` with every element moved `n` positions to the right,
around the end; a negative `n` moves to the left.
-/

namespace Extempore.CyclicShifts

universe u

variable {α : Type u} {l l' l'' : List α} {m n : ℤ}

def MovedRight (l : List α) (n : ℤ) (l' : List α) : Prop :=
  l'.length = l.length ∧ ∀ i : ℕ, i < l.length → l'[((i + n) % l.length).toNat]? = l[i]?

theorem natCast_ne_zero_of_lt {i k : ℕ} (h : i < k) : (k : ℤ) ≠ 0 := by
  omega

theorem toNat_emod_lt {k : ℕ} (hk : (k : ℤ) ≠ 0) (m : ℤ) : (m % k).toNat < k := by
  have hnonneg := Int.emod_nonneg m hk
  have hlt := Int.emod_lt_of_pos m (by omega : (0 : ℤ) < k)
  omega

theorem MovedRight.refl (l : List α) : MovedRight l 0 l := by
  refine ⟨rfl, fun i hi => ?_⟩
  rw [Int.add_zero, Int.emod_eq_of_lt (by omega) (by omega), Int.toNat_natCast]

theorem MovedRight.trans (h : MovedRight l m l') (h' : MovedRight l' n l'') :
    MovedRight l (m + n) l'' := by
  refine ⟨h'.1.trans h.1, fun i hi => ?_⟩
  have hk := natCast_ne_zero_of_lt hi
  have hstep := h'.2 ((i + m) % l.length).toNat (by rw [h.1]; exact toNat_emod_lt hk _)
  rw [h.1, Int.toNat_of_nonneg (Int.emod_nonneg _ hk), Int.emod_add_emod, h.2 i hi] at hstep
  rw [← hstep, Int.add_assoc]

theorem MovedRight.symm (h : MovedRight l n l') : MovedRight l' (-n) l := by
  refine ⟨h.1.symm, fun i hi => ?_⟩
  rw [h.1] at hi ⊢
  have hk := natCast_ne_zero_of_lt hi
  have hback := h.2 ((i + -n) % l.length).toNat (toNat_emod_lt hk _)
  rw [Int.toNat_of_nonneg (Int.emod_nonneg _ hk), Int.emod_add_emod,
    Int.neg_add_cancel_right, Int.emod_eq_of_lt (by omega) (by omega), Int.toNat_natCast] at hback
  exact hback.symm

/-- Every position is reached from one position. -/
theorem MovedRight.getElem? (h : MovedRight l n l') {i : ℕ} (hi : i < l.length) :
    l'[i]? = l[((i - n) % l.length).toNat]? := by
  have hback := h.symm.2 i (by rw [h.1]; exact hi)
  rw [h.1] at hback
  exact hback.symm

theorem MovedRight.unique (h : MovedRight l n l') (h' : MovedRight l n l'') : l' = l'' := by
  apply List.ext_getElem?
  intro i
  by_cases hi : i < l.length
  · rw [h.getElem? hi, h'.getElem? hi]
  · rw [List.getElem?_eq_none (by rw [h.1]; omega), List.getElem?_eq_none (by rw [h'.1]; omega)]

theorem MovedRight.eq_iff (h : MovedRight l m l') (h' : MovedRight l n l'') :
    l' = l'' ↔ MovedRight l (m - n) l := by
  constructor
  · intro heq
    rw [Int.sub_eq_add_neg]
    exact h.trans (heq ▸ h'.symm)
  · intro hshift
    have hboth := hshift.trans h'
    rw [Int.sub_add_cancel] at hboth
    exact h.unique hboth

/-- Two parts of a list change places. -/
theorem movedRight_append (as bs : List α) : MovedRight (as ++ bs) bs.length (bs ++ as) := by
  refine ⟨by rw [List.length_append, List.length_append, Nat.add_comm], fun i hi => ?_⟩
  rw [List.length_append] at hi ⊢
  by_cases hlt : i < as.length
  · have hmod : ((i : ℤ) + bs.length) % (as.length + bs.length : ℕ) = (i + bs.length : ℕ) := by
      rw [Int.emod_eq_of_lt (by omega) (by omega)]
      rfl
    rw [hmod, Int.toNat_natCast, List.getElem?_append_left hlt,
      List.getElem?_append_right (by omega), Nat.add_sub_cancel]
  · have hmod : ((i : ℤ) + bs.length) % (as.length + bs.length : ℕ) = (i - as.length : ℕ) := by
      rw [show (i : ℤ) + bs.length = (i - as.length : ℕ) + (as.length + bs.length : ℕ) by omega,
        Int.add_emod_right, Int.emod_eq_of_lt (by omega) (by omega)]
    rw [hmod, Int.toNat_natCast, List.getElem?_append_left (by omega),
      List.getElem?_append_right (by omega)]

end Extempore.CyclicShifts
