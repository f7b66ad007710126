import Mathlib.Algebra.Ring.GeomSum
import Mathlib.Data.Int.ModEq
import Mathlib.SetTheory.Cardinal.NatCard
import Mathlib.RingTheory.Coprime.Lemmas
import Mathlib.Tactic.Ring
import Mathlib.Tactic.LinearCombination

/-!
# Cycles of maps

A map comes back to a point of a finite type after as many steps as the type has elements, and
not before, just when it passes through all of the type on its way. Maps `x ↦ a * x + c` do so
modulo every power of two if `a - 1` is a multiple of four and `c` is odd.
-/

namespace Extempore.CongruentialCycles
open Finset

section Cycle
variable {α : Type*} {f : α → α}

/-- The map comes back exactly after the multiples of the number of elements. -/
def SingleCycle (f : α → α) : Prop := ∀ x n, f^[n] x = x ↔ Nat.card α ∣ n

theorem SingleCycle.eq_of_iterate_eq (h : SingleCycle f) {x : α} {m n : ℕ}
    (hm : m < Nat.card α) (hn : n < Nat.card α) (heq : f^[m] x = f^[n] x) : m = n := by
  wlog hle : m ≤ n generalizing m n with H
  · exact (H hn hm heq.symm (by omega)).symm
  obtain ⟨k, rfl⟩ := Nat.exists_eq_add_of_le hle
  rw [Nat.add_comm, Function.iterate_add_apply] at heq
  have hdvd := (h (f^[m] x) k).mp heq.symm
  have := Nat.eq_zero_of_dvd_of_lt hdvd (by omega)
  omega

/-- From every point every point is reached, at one time of a round. -/
theorem SingleCycle.bijective [Finite α] (h : SingleCycle f) (x : α) :
    Function.Bijective fun n : Fin (Nat.card α) => f^[n] x := by
  rw [Nat.bijective_iff_injective_and_card]
  exact ⟨fun m n heq => Fin.ext (h.eq_of_iterate_eq m.2 n.2 heq), Nat.card_fin _⟩

theorem SingleCycle.exists_iterate_eq [Finite α] (h : SingleCycle f) (x y : α) :
    ∃ n < Nat.card α, f^[n] x = y := by
  obtain ⟨n, hn⟩ := (h.bijective x).2 y
  exact ⟨n, n.2, hn⟩

/-- In a round a value comes as often as there are points that have it. -/
theorem SingleCycle.card_iterate {β : Type*} [Finite α] (h : SingleCycle f) (x : α) (g : α → β)
    (v : β) : Nat.card {n : Fin (Nat.card α) // g (f^[n] x) = v} = Nat.card {y // g y = v} :=
  Nat.card_congr ((Equiv.ofBijective _ (h.bijective x)).subtypeEquiv fun _ => Iff.rfl)

end Cycle

/-! ## Powers of two -/

variable {a c : ℤ}

def affine (a c x : ℤ) : ℤ := a * x + c

theorem affine_iterate (a c x : ℤ) (n : ℕ) :
    (affine a c)^[n] x = x + (∑ i ∈ range n, a ^ i) * ((a - 1) * x + c) := by
  have hiter : (affine a c)^[n] x = a ^ n * x + c * ∑ i ∈ range n, a ^ i := by
    induction n with
    | zero => simp
    | succ n ih =>
      rw [Function.iterate_succ_apply', ih, affine, geom_sum_succ, pow_succ]
      ring
  have hsum := mul_geom_sum a n
  rw [hiter]
  linear_combination (-x) * hsum

theorem geom_sum_two_mul (a : ℤ) (m : ℕ) :
    ∑ i ∈ range (2 * m), a ^ i = (∑ i ∈ range m, a ^ i) * (1 + a ^ m) := by
  rw [two_mul, sum_range_add]
  simp only [pow_add]
  rw [← mul_sum]
  ring

theorem pow_emod_four (ha : a % 4 = 1) (n : ℕ) : a ^ n % 4 = 1 := by
  have h : a ≡ 1 [ZMOD 4] := ha
  have hpow := h.pow n
  rwa [one_pow] at hpow

theorem geom_sum_emod_two (ha : a % 4 = 1) (n : ℕ) :
    (∑ i ∈ range n, a ^ i) % 2 = (n : ℤ) % 2 := by
  induction n with
  | zero => simp
  | succ n ih =>
    have hpow := pow_emod_four ha n
    rw [sum_range_succ]
    push_cast
    omega

theorem dvd_mul_iff_of_coprime {m y z : ℤ} (h : IsCoprime m z) : m ∣ y * z ↔ m ∣ y :=
  ⟨h.dvd_of_dvd_mul_right, fun hy => hy.mul_right z⟩

/-- The sum of `n` powers has as many factors two as `n`. -/
theorem two_pow_dvd_geom_sum_iff (ha : a % 4 = 1) (k n : ℕ) :
    (2 : ℤ) ^ k ∣ ∑ i ∈ range n, a ^ i ↔ 2 ^ k ∣ n := by
  induction k generalizing n with
  | zero => simp
  | succ k ih =>
    have hparity := geom_sum_emod_two ha n
    rcases Nat.even_or_odd' n with ⟨m, rfl | rfl⟩
    · obtain ⟨u, hu⟩ : ∃ u : ℤ, 1 + a ^ m = 2 * (2 * u + 1) := by
        have hpow := pow_emod_four ha m
        exact ⟨(a ^ m - 1) / 4, by omega⟩
      have hodd : IsCoprime ((2 : ℤ) ^ k) (2 * u + 1) :=
        IsCoprime.pow_left ⟨-u, 1, by ring⟩
      rw [geom_sum_two_mul, hu, pow_succ, pow_succ, mul_left_comm, mul_comm ((2 : ℤ) ^ k) 2,
        mul_dvd_mul_iff_left two_ne_zero, dvd_mul_iff_of_coprime hodd, ih, mul_comm (2 ^ k) 2,
        Nat.mul_dvd_mul_iff_left two_pos]
    · have hleft : ¬ (2 : ℤ) ^ (k + 1) ∣ ∑ i ∈ range (2 * m + 1), a ^ i := by
        intro hdvd
        have htwo := (Dvd.intro_left _ (pow_succ (2 : ℤ) k).symm).trans hdvd
        push_cast at hparity
        omega
      have hright : ¬ 2 ^ (k + 1) ∣ 2 * m + 1 := by
        intro hdvd
        have htwo := (Dvd.intro_left _ (pow_succ 2 k).symm).trans hdvd
        omega
      exact iff_of_false hleft hright

/-- The map comes back modulo a power of two exactly after its multiples. -/
theorem affine_iterate_modEq_iff (ha : a % 4 = 1) (hc : c % 2 = 1) (x : ℤ) (k n : ℕ) :
    (affine a c)^[n] x ≡ x [ZMOD 2 ^ k] ↔ 2 ^ k ∣ n := by
  have hodd : IsCoprime ((2 : ℤ) ^ k) ((a - 1) * x + c) := by
    have hdiv : (a - 1) * x = 2 * ((a / 4 * 2) * x) := by
      have : a = 4 * (a / 4) + 1 := by omega
      linear_combination x * this
    have hc : c = 2 * (c / 2) + 1 := by omega
    exact IsCoprime.pow_left ⟨-(a / 4 * 2 * x + c / 2), 1, by linear_combination hdiv + hc⟩
  rw [Int.modEq_comm, Int.modEq_iff_dvd, affine_iterate, add_sub_cancel_left,
    dvd_mul_iff_of_coprime hodd, two_pow_dvd_geom_sum_iff ha]

end Extempore.CongruentialCycles
