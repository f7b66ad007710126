import Mathlib.Tactic.ReduceModChar
import Mathlib.Tactic.NormNum.Prime
import Mathlib.Data.Int.Interval
import Mathlib.Data.ZMod.Basic
import Mathlib.NumberTheory.LucasPrimality
import Mathlib.GroupTheory.OrderOfElement
import Extempore.CongruentialCycles

/-!
# The seeds of the Scheme generator

`random-next` multiplies the seed by 16807 modulo the prime `2 ^ 31 - 1`, in two parts that both
stay below the modulus. The factor is a primitive root, so that every seed is reached.
-/

namespace Extempore.RandomSeeds
open CongruentialCycles

/-- `random-next`, from `*seed*` to the next `*seed*`. -/
def randomNext (seed : ℤ) : ℤ :=
  let a := 16807
  let m := 2147483647
  let q := Int.tdiv m a
  let r := Int.fmod m a
  let seed := a * (seed - seed.tdiv q * q) - seed.tdiv q * r
  if seed < 0 then seed + m else seed

theorem randomNext_eq_ite {s : ℤ} (h : 1 ≤ s) : randomNext s =
    if 16807 * (s % 127773) - 2836 * (s / 127773) < 0 then
      16807 * (s % 127773) - 2836 * (s / 127773) + 2147483647
    else 16807 * (s % 127773) - 2836 * (s / 127773) := by
  have hq : Int.tdiv 2147483647 16807 = 127773 := by decide
  have hr : Int.fmod 2147483647 16807 = 2836 := by decide
  have hdiv : s.tdiv 127773 = s / 127773 := Int.tdiv_eq_ediv_of_nonneg (by omega)
  have hrem : s - s / 127773 * 127773 = s % 127773 := by omega
  simp only [randomNext, hq, hr, hdiv, hrem, mul_comm (s / 127773) 2836]

/-- Neither of the two parts is as large as the modulus, and their difference is the product. -/
theorem randomNext_eq {s : ℤ} (h : 1 ≤ s) (h' : s < 2147483647) :
    randomNext s = 16807 * s % 2147483647 := by
  rw [randomNext_eq_ite h]
  split_ifs
  · omega
  · omega

/-! ## The factor is a primitive root -/

theorem eq_of_dvd {q : ℕ} (hq : q.Prime) (hd : q ∣ 2147483646) :
    q = 2 ∨ q = 3 ∨ q = 7 ∨ q = 11 ∨ q = 31 ∨ q = 151 ∨ q = 331 := by
  have hfactors : 2147483646 = 2 * 3 ^ 2 * 7 * 11 * 31 * 151 * 331 := by norm_num
  rw [hfactors] at hd
  simp only [hq.dvd_mul] at hd
  have is {p : ℕ} (hp : p.Prime) (h : q ∣ p) : q = p := (Nat.prime_dvd_prime_iff_eq hq hp).mp h
  rcases hd with (((((hd | hd) | hd) | hd) | hd) | hd) | hd
  · exact .inl (is (by norm_num) hd)
  · exact .inr (.inl (is (by norm_num) (hq.dvd_of_dvd_pow hd)))
  · exact .inr (.inr (.inl (is (by norm_num) hd)))
  · exact .inr (.inr (.inr (.inl (is (by norm_num) hd))))
  · exact .inr (.inr (.inr (.inr (.inl (is (by norm_num) hd)))))
  · exact .inr (.inr (.inr (.inr (.inr (.inl (is (by norm_num) hd))))))
  · exact .inr (.inr (.inr (.inr (.inr (.inr (is (by norm_num) hd))))))

theorem pow_eq_one : (16807 : ZMod 2147483647) ^ 2147483646 = 1 := by reduce_mod_char

theorem pow_div_ne_one {q : ℕ} (hq : q.Prime) (hd : q ∣ 2147483646) :
    (16807 : ZMod 2147483647) ^ (2147483646 / q) ≠ 1 := by
  rcases eq_of_dvd hq hd with rfl | rfl | rfl | rfl | rfl | rfl | rfl
  all_goals
    norm_num
    reduce_mod_char
    decide

instance factPrimeModulus : Fact (Nat.Prime 2147483647) :=
  ⟨lucas_primality 2147483647 16807 pow_eq_one fun _ hq hd => pow_div_ne_one hq hd⟩

theorem orderOf_factor : orderOf (16807 : ZMod 2147483647) = 2147483646 :=
  orderOf_eq_of_pow_and_pow_div_prime (by norm_num) pow_eq_one fun _ hq hd => pow_div_ne_one hq hd

/-! ## The seeds -/

/-- What `*seed*` may be. -/
abbrev Seed := {s : ℤ // 1 ≤ s ∧ s < 2147483647}

theorem cast_ne_zero (s : Seed) : ((s : ℤ) : ZMod 2147483647) ≠ 0 := by
  rw [ne_eq, ZMod.intCast_zmod_eq_zero_iff_dvd]
  have := s.2
  omega

theorem eq_of_cast_eq {s t : Seed} (h : ((s : ℤ) : ZMod 2147483647) = (t : ℤ)) : s = t := by
  have hmod := (ZMod.intCast_eq_intCast_iff _ _ _).mp h
  have hs := s.2
  have ht := t.2
  rw [Int.ModEq] at hmod
  exact Subtype.ext (by omega)

theorem randomNext_cast (s : Seed) :
    ((randomNext s : ℤ) : ZMod 2147483647) = 16807 * ((s : ℤ) : ZMod 2147483647) := by
  have hmod := ZMod.intCast_mod (16807 * (s : ℤ)) 2147483647
  rw [randomNext_eq s.2.1 s.2.2]
  exact hmod.trans (Int.cast_mul _ _)

theorem randomNext_mem (s : Seed) : 1 ≤ randomNext s ∧ randomNext s < 2147483647 := by
  have hne : ((randomNext s : ℤ) : ZMod 2147483647) ≠ 0 := by
    rw [randomNext_cast]
    exact mul_ne_zero (by decide) (cast_ne_zero s)
  rw [randomNext_eq s.2.1 s.2.2] at hne ⊢
  have hzero : 16807 * (s : ℤ) % 2147483647 ≠ 0 := by
    intro h
    rw [h] at hne
    exact hne Int.cast_zero
  omega

def next (s : Seed) : Seed := ⟨randomNext s, randomNext_mem s⟩

theorem next_iterate_cast (s : Seed) (n : ℕ) : ((next^[n] s : ℤ) : ZMod 2147483647) =
    16807 ^ n * ((s : ℤ) : ZMod 2147483647) := by
  induction n with
  | zero => simp
  | succ n ih =>
    rw [Function.iterate_succ_apply', next, randomNext_cast, ih, pow_succ]
    ring

instance : Finite Seed := (Set.finite_Ico (1 : ℤ) 2147483647).to_subtype

theorem card_seed : Nat.card Seed = 2147483646 := by
  have hcard : Nat.card (Set.Ico (1 : ℤ) 2147483647) = 2147483646 := by
    rw [Nat.card_eq_card_toFinset, Set.toFinset_Ico, Int.card_Ico]
    rfl
  exact hcard

theorem singleCycle_next : SingleCycle next := by
  intro s n
  rw [card_seed, ← orderOf_factor, orderOf_dvd_iff_pow_eq_one]
  constructor
  · intro h
    have hcast := next_iterate_cast s n
    rw [h] at hcast
    exact mul_right_cancel₀ (cast_ne_zero s) (by rw [one_mul, ← hcast])
  · intro h
    exact eq_of_cast_eq (by rw [next_iterate_cast, h, one_mul])

theorem coe_next_iterate (s : Seed) (n : ℕ) : (next^[n] s : ℤ) = randomNext^[n] s := by
  induction n with
  | zero => rfl
  | succ n ih =>
    rw [Function.iterate_succ_apply', Function.iterate_succ_apply', ← ih]
    rfl

/-- From every seed every other is reached, at exactly one time of a round. -/
theorem existsUnique_seed (s t : ℤ) (hs : 1 ≤ s ∧ s < 2147483647) (ht : 1 ≤ t ∧ t < 2147483647) :
    ∃! n, n < 2147483646 ∧ randomNext^[n] s = t := by
  obtain ⟨n, hn, hreach⟩ := singleCycle_next.exists_iterate_eq ⟨s, hs⟩ ⟨t, ht⟩
  rw [card_seed] at hn
  refine ⟨n, ⟨hn, ?_⟩, ?_⟩
  · rw [← coe_next_iterate ⟨s, hs⟩, hreach]
  · rintro m ⟨hm, hmt⟩
    rw [← coe_next_iterate ⟨s, hs⟩] at hmt
    refine singleCycle_next.eq_of_iterate_eq (x := ⟨s, hs⟩) ?_ ?_ ?_
    · rw [card_seed]
      exact hm
    · rw [card_seed]
      exact hn
    · rw [hreach]
      exact Subtype.ext hmt

theorem existsUnique_seed_one : ∃! n, n < 2147483646 ∧ randomNext^[n] 1 = 2147483646 :=
  existsUnique_seed 1 2147483646 (by decide) (by decide)

end Extempore.RandomSeeds
