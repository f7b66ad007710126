import Mathlib.Data.Rat.Floor
import Extempore.DivisionOpcodes

/-!
# The floored modulus

`modulo` should have the sign of its second operand. For integers a truncated remainder is
corrected, when the product of the remainder and the divisor, in one word, is negative; for fractions
it is not corrected.
-/

namespace Extempore.FlooredModulus

open TruncatedEuclid ExactNumbers ExactNumbers.Number DivisionOpcodes

/-- The modulus that is meant. -/
def floored (x y : ℚ) : ℚ := x - y * ⌊x / y⌋

/-! ## Integers and fractions -/

theorem floor_div (n : ℤ) {d : ℤ} (hd : d ≠ 0) : ⌊(n : ℚ) / d⌋ = n.fdiv d := by
  have hmul := Int.mul_fdiv_add_fmod n d
  have hcast : (d : ℚ) * (n.fdiv d : ℤ) + (n.fmod d : ℤ) = n := by exact_mod_cast hmul
  have hd' : (d : ℚ) ≠ 0 := Int.cast_ne_zero.mpr hd
  have hquot : (n : ℚ) / d = (n.fdiv d : ℤ) + (n.fmod d : ℤ) / d := by
    rw [← hcast, add_div, mul_div_cancel_left₀ _ hd']
  rw [Int.floor_eq_iff, hquot]
  have hfrac : 0 ≤ (n.fmod d : ℚ) / d ∧ (n.fmod d : ℚ) / d < 1 := by
    cases lt_or_gt_of_ne hd with
    | inl hneg =>
      have h := Int.fmod_nonneg_of_pos (-n) (b := -d) (by omega)
      have h' := Int.fmod_lt_of_pos (-n) (b := -d) (by omega)
      rw [Int.neg_fmod_neg] at h h'
      have hneg' : (d : ℚ) < 0 := by exact_mod_cast hneg
      refine ⟨div_nonneg_of_nonpos (by exact_mod_cast (by omega : n.fmod d ≤ 0)) hneg'.le, ?_⟩
      rw [div_lt_one_of_neg hneg']
      exact_mod_cast (by omega : d < n.fmod d)
    | inr hpos =>
      have h := Int.fmod_nonneg_of_pos n hpos
      have h' := Int.fmod_lt_of_pos n hpos
      have hpos' : (0 : ℚ) < d := by exact_mod_cast hpos
      refine ⟨div_nonneg (by exact_mod_cast h) hpos'.le, ?_⟩
      rw [div_lt_one hpos']
      exact_mod_cast h'
  constructor
  · linarith only [hfrac.1]
  · linarith only [hfrac.2]

theorem floored_eq_fmod (n : ℤ) {d : ℤ} (hd : d ≠ 0) : floored n d = (n.fmod d : ℤ) := by
  rw [floored, floor_div n hd, Int.fmod_def]
  push_cast
  ring

/-- The modulus is zero or has the sign of the second operand, and is the lesser one. -/
theorem floored_spec (x : ℚ) {y : ℚ} (hy : y ≠ 0) :
    (floored x y = 0 ∨ (0 < floored x y ↔ 0 < y)) ∧ |floored x y| < |y| := by
  have hfract : floored x y = y * Int.fract (x / y) := by
    rw [floored, Int.fract, mul_sub, mul_div_cancel₀ _ hy]
  have h0 := Int.fract_nonneg (x / y)
  have h1 := Int.fract_lt_one (x / y)
  rw [hfract]
  constructor
  · by_cases hzero : Int.fract (x / y) = 0
    · left
      rw [hzero, mul_zero]
    · right
      exact mul_pos_iff_of_pos_right (lt_of_le_of_ne h0 (Ne.symm hzero))
  · rw [abs_mul, abs_of_nonneg h0]
    exact mul_lt_of_lt_one_right (abs_pos.mpr hy) h1

/-- Truncation is no different exactly when the quotient is an integer or not negative. -/
theorem tmod_eq_fmod_iff {n d : ℤ} (hd : d ≠ 0) : n.tmod d = n.fmod d ↔ 0 ≤ n * d ∨ d ∣ n := by
  rw [Int.fmod_eq_tmod]
  split
  · rename_i hdvd
    rw [add_zero]
    exact iff_of_true rfl (Or.inr hdvd)
  · rename_i hdvd
    have hn : n ≠ 0 := fun h => hdvd (h ▸ dvd_zero d)
    simp only [hdvd, or_false]
    split
    · rename_i hn0
      split
      · rename_i hd0
        rw [add_zero]
        exact iff_of_true rfl (mul_nonneg hn0 hd0)
      · rename_i hd0
        refine iff_of_false (by omega) (not_le.mpr ?_)
        exact mul_neg_of_pos_of_neg (by omega) (by omega)
    · rename_i hn0
      split
      · rename_i hd0
        refine iff_of_false (by omega) (not_le.mpr ?_)
        exact mul_neg_of_neg_of_pos (by omega) (by omega)
      · rename_i hd0
        refine iff_of_true (by omega) ?_
        exact mul_nonneg_of_nonpos_of_nonpos (by omega) (by omega)

/-! ## The operands -/

def CrossesFit (a b : Number) : Prop :=
  BothIntegers a b ∨ InInt64 (num a * den b) ∧ InInt64 (den a * num b)

/-- When the code is right, for a quotient `n / d` of the operands and the fraction `p / q` that it
makes of the second operand and the truncated remainder. -/
structure RatRight (b : Number) (n d p q : ℤ) : Prop where
  no_trap : ¬ (n = least ∧ d = -1)
  lowest : ¬ LeastFraction (word p) (word q)
  den_ne_zero : word q ≠ 0
  floor : InInt64 p → InInt64 q → 0 ≤ n * d ∨ d ∣ n
  words : ¬ (InInt64 p ∧ InInt64 q) → word p * q = word q * (num b * n.fmod d)

def ModRight : Number → Number → Prop
  | integer a, integer b =>
    ¬ (a = least ∧ b = -1) ∧ (word (a.tmod b * b) < 0 ↔ a.tmod b * b < 0)
  | a, b => RatRight b (num a * den b) (den a * num b)
    (num b * (num a * den b).tmod (den a * num b)) (den b * (den a * num b))

/-- `modulo` returns the modulus that is meant. -/
def Right (a b : Number) : Prop :=
  ∃ r, opMod [a, b] = .ok r ∧ IsCell r ∧ value r = floored (value a) (value b)

/-! ## Integers -/

theorem tmod_nonpos {a : ℤ} (b : ℤ) (ha : a ≤ 0) : a.tmod b ≤ 0 := by
  have h := Int.tmod_nonneg b (show 0 ≤ -a by omega)
  rw [Int.neg_tmod] at h
  omega

/-- The corrected remainder. -/
theorem fmod_of_mul_neg {a b : ℤ} (h : a.tmod b * b < 0) : a.fmod b = a.tmod b + b := by
  have hdvd : ¬ b ∣ a := by
    intro hdvd
    rw [Int.tmod_eq_zero_of_dvd hdvd, zero_mul] at h
    omega
  rw [Int.fmod_eq_tmod, if_neg hdvd]
  cases mul_neg_iff.mp h with
  | inl hpos =>
    have ha : 0 ≤ a := by
      by_contra hneg
      have := tmod_nonpos b (show a ≤ 0 by omega)
      omega
    rw [if_pos ha, if_neg (by omega)]
  | inr hneg =>
    have ha : ¬ 0 ≤ a := by
      intro hpos
      have := Int.tmod_nonneg b hpos
      omega
    rw [if_neg ha, if_pos (by omega)]
    omega

theorem fmod_of_mul_nonneg {a b : ℤ} (hb : b ≠ 0) (h : 0 ≤ a.tmod b * b) :
    a.fmod b = a.tmod b := by
  apply Eq.symm
  rw [tmod_eq_fmod_iff hb]
  by_cases hzero : a.tmod b = 0
  · exact Or.inr (Int.dvd_of_tmod_eq_zero hzero)
  · left
    cases mul_nonneg_iff.mp h with
    | inl hpos =>
      apply mul_nonneg _ hpos.2
      by_contra hneg
      have := tmod_nonpos b (show a ≤ 0 by omega)
      omega
    | inr hneg =>
      apply mul_nonneg_of_nonpos_of_nonpos _ hneg.2
      by_contra hpos
      have := Int.tmod_nonneg b (show 0 ≤ a by omega)
      omega

/-- The remainder after the code's test of the product. -/
def corrected (a b : ℤ) : ℤ :=
  if word (a.tmod b * b) < 0 then
    if 0 < a.tmod b then word (a.tmod b - word |b|) else word (a.tmod b + word |b|)
  else a.tmod b

theorem numMod_integers {a b : ℤ} (ha : InInt64 a) (hb : b ≠ 0) (h : ¬ (a = least ∧ b = -1)) :
    numMod (integer a) (integer b) = .ok (integer (corrected a b)) := by
  rw [numMod, rem_eq ha hb h, corrected]
  show (if word (a.tmod b * b) < 0 then
    (if 0 < a.tmod b then Except.ok (integer (word (a.tmod b - word |b|)))
      else Except.ok (integer (word (a.tmod b + word |b|)))) else Except.ok (integer (a.tmod b))) = _
  split
  · split <;> rfl
  · rfl

theorem inInt64_corrected (a : ℤ) {b : ℤ} (hb : InInt64 b) (hb0 : b ≠ 0) :
    InInt64 (corrected a b) := by
  have hlow := hb.1
  have hhigh := hb.2
  have hlt := natAbs_tmod_lt a hb0
  rw [corrected]
  split
  · split <;> exact inInt64_word _
  · exact ⟨by omega, by omega⟩

/-- A word changes when less than the size of all words is added. -/
theorem word_add_ne {t k : ℤ} (hk : k ≠ 0) (hlow : -18446744073709551616 < k)
    (hhigh : k < 18446744073709551616) : word (t + k) ≠ t := by
  intro h
  rw [word, Int.bmod_def] at h
  split at h <;> omega

theorem corrected_eq_fmod_iff {a b : ℤ} (hb : InInt64 b) (hb0 : b ≠ 0) :
    corrected a b = a.fmod b ↔ (word (a.tmod b * b) < 0 ↔ a.tmod b * b < 0) := by
  have hlow := hb.1
  have hhigh := hb.2
  have hlt := natAbs_tmod_lt a hb0
  rw [corrected]
  by_cases hneg : a.tmod b * b < 0
  · rw [fmod_of_mul_neg hneg]
    split
    · rename_i hword
      refine iff_of_true ?_ (iff_of_true hword hneg)
      have hfits : InInt64 (a.tmod b + b) := by
        cases mul_neg_iff.mp hneg with
        | inl h => exact ⟨by omega, by omega⟩
        | inr h => exact ⟨by omega, by omega⟩
      cases mul_neg_iff.mp hneg with
      | inl h =>
        rw [if_pos h.1, word, Int.sub_bmod_bmod, abs_of_neg h.2, sub_neg_eq_add]
        exact word_eq hfits
      | inr h =>
        rw [if_neg (by omega), word, Int.add_bmod_bmod, abs_of_pos h.2]
        exact word_eq hfits
    · rename_i hword
      refine iff_of_false (by omega) ?_
      exact fun h => hword (h.mpr hneg)
  · rw [fmod_of_mul_nonneg hb0 (not_lt.mp hneg)]
    split
    · rename_i hword
      refine iff_of_false ?_ fun h => hneg (h.mp hword)
      have habs : 0 < |b| ∧ |b| < 18446744073709551616 := by
        rw [Int.abs_eq_natAbs]
        exact ⟨by omega, by omega⟩
      split
      · rw [word, Int.sub_bmod_bmod, sub_eq_add_neg]
        exact word_add_ne (by omega) (by omega) (by omega)
      · rw [word, Int.add_bmod_bmod]
        exact word_add_ne (by omega) (by omega) (by omega)
    · rename_i hword
      exact iff_of_true rfl (iff_of_false hword hneg)

theorem right_integers_iff {a b : ℤ} (ha : InInt64 a) (hb : InInt64 b) (hb0 : b ≠ 0) :
    Right (integer a) (integer b) ↔
      ¬ (a = least ∧ b = -1) ∧ (word (a.tmod b * b) < 0 ↔ a.tmod b * b < 0) := by
  have hz : isZero (integer b) = false := by simpa [isZero] using hb0
  rw [Right, opMod, hz, if_neg Bool.false_ne_true, ← corrected_eq_fmod_iff hb hb0]
  by_cases hleast : a = least ∧ b = -1
  · rw [hleast.1, hleast.2, numMod, rem_least]
    refine iff_of_false (fun h => ?_) fun h => h.1 ⟨rfl, rfl⟩
    obtain ⟨r, hr, -⟩ := h
    cases hr
  · rw [numMod_integers ha hb0 hleast]
    show (∃ r, Except.ok (integer (corrected a b)) = .ok r ∧ _) ↔ _
    rw [value, value, floored_eq_fmod a hb0]
    constructor
    · intro h
      obtain ⟨r, hr, -, hvalue⟩ := h
      cases hr
      exact ⟨hleast, Int.cast_injective hvalue⟩
    · intro h
      exact ⟨_, rfl, inInt64_corrected a hb hb0, by rw [value, h.2]⟩

/-! ## Fractions -/

theorem value_eq (a : Number) : value a = num a / den a := by
  cases a with
  | integer i => simp [value, num, den]
  | rational n d => rfl

theorem den_ne_zero {a : Number} (ha : Valid a) : den a ≠ 0 := by
  cases a with
  | integer i => exact one_ne_zero
  | rational n d => exact ha.2.2

theorem num_ne_zero {a : Number} (h : isZero a = false) : num a ≠ 0 := by
  cases a with
  | integer i => simpa [isZero, num] using h
  | rational n d => simpa [isZero, num] using h

/-- The modulus as a fraction of the operands' numerators and denominators. -/
theorem floored_value {a b : Number} (ha : den a ≠ 0) (hb : den b ≠ 0) (hb0 : num b ≠ 0) :
    floored (value a) (value b) =
      (num b * (num a * den b).fmod (den a * num b) : ℤ) / (den b * (den a * num b) : ℤ) := by
  have ha' : (den a : ℚ) ≠ 0 := Int.cast_ne_zero.mpr ha
  have hb' : (den b : ℚ) ≠ 0 := Int.cast_ne_zero.mpr hb
  have hn' : (num b : ℚ) ≠ 0 := Int.cast_ne_zero.mpr hb0
  have hquot : value a / value b = (num a * den b : ℤ) / (den a * num b : ℤ) := by
    rw [value_eq, value_eq]
    push_cast
    exact div_div_div_eq ..
  rw [floored, hquot, floor_div _ (mul_ne_zero ha hb0), Int.fmod_def, value_eq a, value_eq b]
  push_cast
  field_simp

theorem mkRational_right_iff {p q : ℤ} {x : ℚ} (hp : InInt64 p) (hq : InInt64 q) :
    (∃ r, mkRational p q = .ok r ∧ IsCell r ∧ value r = x) ↔
      q ≠ 0 ∧ ¬ LeastFraction p q ∧ (p : ℚ) / q = x := by
  cases mkRational_eq hp hq with
  | inl h =>
    rw [h.2]
    refine iff_of_false (fun h' => ?_) fun h' => h'.1 h.1
    obtain ⟨r, hr, -⟩ := h'
    cases hr
  | inr h =>
    cases h with
    | inl h =>
      rw [h.2]
      refine iff_of_false (fun h' => ?_) fun h' => h'.2.1 h.1
      obtain ⟨r, hr, -⟩ := h'
      cases hr
    | inr h =>
      obtain ⟨hq0, hleast, r, hr⟩ := h
      have hvalid : Valid (rational p q) := ⟨hp, hq, hq0⟩
      have hmk : mkNumber (rational p q) = .ok r := hr
      obtain ⟨r', hr', hcell, hvalue⟩ :=
        (mkNumber_agrees hvalid).result (by rw [hmk]; exact fun h => by cases h)
      rw [hmk] at hr'
      cases hr'
      rw [hr]
      constructor
      · intro h
        obtain ⟨r', hr', -, hx⟩ := h
        cases hr'
        exact ⟨hq0, hleast, by rw [← hx, hvalue]; rfl⟩
      · intro h
        exact ⟨r, rfl, hcell, by rw [hvalue, ← h.2.2]; rfl⟩

theorem right_rational_iff {a b : Number} (ha : IsCell a) (hb : IsCell b) (hz : isZero b = false)
    (hints : ¬ BothIntegers a b) (hn : InInt64 (num a * den b)) (hd : InInt64 (den a * num b)) :
    Right a b ↔ RatRight b (num a * den b) (den a * num b)
      (num b * (num a * den b).tmod (den a * num b)) (den b * (den a * num b)) := by
  have hb0 := num_ne_zero hz
  have hda := den_ne_zero ha.valid
  have hdb := den_ne_zero hb.valid
  have hcross : crossNum a b = num a * den b ∧ crossDen a b = den a * num b :=
    ⟨word_eq hn, word_eq hd⟩
  rw [Right, opMod, hz, if_neg Bool.false_ne_true, numMod_eq ha.valid hb.valid hints, hcross.1,
    hcross.2, floored_value hda hdb hb0]
  have hd0 : den a * num b ≠ 0 := mul_ne_zero hda hb0
  have hq0 : den b * (den a * num b) ≠ 0 := mul_ne_zero hdb hd0
  generalize num a * den b = n at *
  generalize den a * num b = d at *
  by_cases hleast : n = least ∧ d = -1
  · rw [hleast.1, hleast.2, rem_least]
    refine iff_of_false (fun h => ?_) fun h => h.no_trap ⟨rfl, rfl⟩
    obtain ⟨r, hr, -⟩ := h
    cases hr
  · rw [rem_eq hn hd0 hleast]
    show (∃ r, mkRational (word (num b * n.tmod d)) (word (den b * d)) = .ok r ∧ _) ↔ _
    rw [mkRational_right_iff (inInt64_word _) (inInt64_word _)]
    have hratio (hw : word (den b * d) ≠ 0) :
        (word (num b * n.tmod d) : ℚ) / word (den b * d) = (num b * n.fmod d : ℤ) / (den b * d : ℤ) ↔
          word (num b * n.tmod d) * (den b * d) = word (den b * d) * (num b * n.fmod d) := by
      rw [div_eq_div_iff (Int.cast_ne_zero.mpr hw) (Int.cast_ne_zero.mpr hq0),
        mul_comm ((num b * n.fmod d : ℤ) : ℚ)]
      exact_mod_cast Iff.rfl
    have hexact (hp : InInt64 (num b * n.tmod d)) (hq : InInt64 (den b * d)) :
        word (num b * n.tmod d) * (den b * d) = word (den b * d) * (num b * n.fmod d) ↔
          0 ≤ n * d ∨ d ∣ n := by
      rw [word_eq hp, word_eq hq, mul_comm (num b * n.tmod d), mul_right_inj' hq0,
        mul_right_inj' hb0, tmod_eq_fmod_iff hd0]
    constructor
    · intro h
      have heq := (hratio h.1).mp h.2.2
      exact ⟨hleast, h.2.1, h.1, fun hp hq => (hexact hp hq).mp heq, fun _ => heq⟩
    · intro h
      refine ⟨h.den_ne_zero, h.lowest, (hratio h.den_ne_zero).mpr ?_⟩
      by_cases hfits : InInt64 (num b * n.tmod d) ∧ InInt64 (den b * d)
      · exact (hexact hfits.1 hfits.2).mpr (h.floor hfits.1 hfits.2)
      · exact h.words hfits

/-- The operands for which `modulo` is the floored modulus. -/
theorem right_iff {a b : Number} (ha : IsCell a) (hb : IsCell b) (hb0 : value b ≠ 0)
    (hfits : CrossesFit a b) : Right a b ↔ ModRight a b := by
  have hz := isZero_eq_false hb hb0
  by_cases hints : BothIntegers a b
  · match a, b, hints with
    | integer i, integer j, _ =>
      have hj : j ≠ 0 := by simpa [isZero] using hz
      exact right_integers_iff ha hb hj
  · obtain ⟨hn, hd⟩ := hfits.resolve_left hints
    rw [right_rational_iff ha hb hz hints hn hd]
    cases a with
    | integer i =>
      cases b with
      | integer j => exact absurd True.intro hints
      | rational n d => rfl
    | rational n d => rfl

theorem right_iff_seven :
    Right (integer (-7)) (integer 2) ↔ ModRight (integer (-7)) (integer 2) :=
  right_iff (by simp [IsCell, InInt64]) (by simp [IsCell, InInt64]) (by simp [value])
    (Or.inl True.intro)

/-- The modulus of `-1/2` and `1/3` is `1/6`, but the code's is `-1/6`. -/
theorem not_right_half :
    ¬ ∀ a b : Number, IsCell a → IsCell b → value b ≠ 0 → CrossesFit a b → Right a b := by
  intro h
  have ha : IsCell (rational 1 (-2)) := ⟨-1, 2, by decide, by decide, by decide⟩
  have hb : IsCell (rational 1 3) := ⟨1, 3, by decide, by decide, by decide⟩
  obtain ⟨r, hr, -, hvalue⟩ := h _ _ ha hb (by simp [value]) (Or.inr ⟨by decide, by decide⟩)
  have hcode : opMod [rational 1 (-2), rational 1 3] = .ok (rational 1 (-6)) := by decide
  rw [hcode] at hr
  cases hr
  have hpos := (floored_spec (value (rational 1 (-2))) (y := value (rational 1 3))
    (by norm_num [value])).1
  rw [← hvalue] at hpos
  norm_num [value] at hpos

end Extempore.FlooredModulus
