import Mathlib.Data.Rat.Floor
import Mathlib.Tactic.Ring
import Mathlib.Tactic.Linarith

/-!
# Numbers with their types

The exact numbers of the interpreter, without a bound on their size. An integer and a fraction
stay apart even where they have one value: the sum of two halves is a fraction, and `modulo`
treats only two integers as it should.
-/

namespace Extempore.SchemeNumbers

/-- `T_INTEGER` or `T_RATIONAL`. -/
inductive Number where
  | integer (i : ℤ)
  | fraction (q : ℚ)
  deriving DecidableEq, Repr

namespace Number

def value : Number → ℚ
  | integer i => i
  | fraction q => q

/-- `mk_rational`; only zero becomes an integer. -/
def mkRational (q : ℚ) : Number := if q = 0 then integer 0 else fraction q

def numAdd : Number → Number → Number
  | integer a, integer b => integer (a + b)
  | a, b => mkRational (a.value + b.value)

def numSub : Number → Number → Number
  | integer a, integer b => integer (a - b)
  | a, b => mkRational (a.value - b.value)

def numMul : Number → Number → Number
  | integer a, integer b => integer (a * b)
  | a, b => mkRational (a.value * b.value)

/-- The quotient by a number that is not zero. -/
def numDiv : Number → Number → Number
  | integer a, integer b => if a.tmod b = 0 then integer (a.tdiv b) else mkRational (a / b)
  | a, b => mkRational (a.value / b.value)

/-- `num_mod`. The numerator and denominator of the quotient may have a common factor in the
source, which their remainder then has too. -/
def numMod : Number → Number → Number
  | integer a, integer b =>
    let res := a.tmod b
    if res * b < 0 then
      if 0 < res then integer (res - |b|) else integer (res + |b|)
    else integer res
  | a, b =>
    let ret := a.value / b.value
    mkRational (b.value * ((ret.num.tmod ret.den : ℤ) / ret.den))

instance : Add Number := ⟨numAdd⟩

instance : Sub Number := ⟨numSub⟩

instance : Mul Number := ⟨numMul⟩

instance : Div Number := ⟨numDiv⟩

instance (i : ℕ) : OfNat Number i := ⟨integer i⟩

variable {a b : Number}

@[simp] theorem value_mkRational (q : ℚ) : (mkRational q).value = q := by
  rw [mkRational]
  split
  · rename_i h
    rw [h]
    rfl
  · rfl

@[simp] theorem value_integer (i : ℤ) : (integer i).value = i := rfl

@[simp] theorem value_fraction (q : ℚ) : (fraction q).value = q := rfl

@[simp] theorem value_zero : (0 : Number).value = 0 := rfl

@[simp] theorem value_one : (1 : Number).value = 1 := rfl

@[simp] theorem value_two : (2 : Number).value = 2 := rfl

@[simp] theorem value_add : (a + b).value = a.value + b.value := by
  change (numAdd a b).value = _
  cases a <;> cases b <;> simp [numAdd]

@[simp] theorem value_sub : (a - b).value = a.value - b.value := by
  change (numSub a b).value = _
  cases a <;> cases b <;> simp [numSub]

@[simp] theorem value_mul : (a * b).value = a.value * b.value := by
  change (numMul a b).value = _
  cases a <;> cases b <;> simp [numMul]

@[simp] theorem value_div : (a / b).value = a.value / b.value := by
  change (numDiv a b).value = _
  cases a with
  | integer i =>
    cases b with
    | integer j =>
      rw [numDiv]
      split
      · rename_i h
        by_cases hj : j = 0
        · simp [hj]
        · have hmul : (j : ℚ) * (i.tdiv j : ℤ) = i := by
            exact_mod_cast Int.mul_tdiv_cancel_of_tmod_eq_zero h
          simp only [value]
          rw [← hmul, mul_div_cancel_left₀ _ (Int.cast_ne_zero.mpr hj)]
      · simp
    | fraction q => simp [numDiv]
  | fraction p => cases b <;> simp [numDiv]

/-- Both numbers are integers. -/
def Integral : Number → Prop
  | integer _ => True
  | fraction _ => False

instance : DecidablePred Integral
  | integer _ => .isTrue True.intro
  | fraction _ => .isFalse id

theorem tmod_den_of_nonneg {q : ℚ} (h : 0 ≤ q) :
    ((q.num.tmod q.den : ℤ) / q.den : ℚ) = Int.fract q := by
  have hden : (q.den : ℚ) ≠ 0 := Nat.cast_ne_zero.mpr q.den_nz
  rw [Int.tmod_eq_emod_of_nonneg (Rat.num_nonneg.mpr h), Int.fract, Rat.floor_def', Int.emod_def]
  push_cast
  rw [sub_div, mul_div_cancel_left₀ _ hden, Rat.num_div_den]

theorem tmod_den_of_nonpos {q : ℚ} (h : q ≤ 0) :
    ((q.num.tmod q.den : ℤ) / q.den : ℚ) = -Int.fract (-q) := by
  rw [← tmod_den_of_nonneg (neg_nonneg.mpr h), Rat.num_neg_eq_neg_num, Rat.den_neg_eq_den,
    Int.neg_tmod]
  push_cast
  rw [neg_div, neg_neg]

theorem numMod_of_not_integral (h : ¬ (a.Integral ∧ b.Integral)) :
    (numMod a b).value =
      b.value * (((a.value / b.value).num.tmod (a.value / b.value).den : ℤ) /
        (a.value / b.value).den) := by
  cases a with
  | integer i =>
    cases b with
    | integer j => exact absurd ⟨True.intro, True.intro⟩ h
    | fraction q => exact value_mkRational _
  | fraction p => cases b <;> exact value_mkRational _

/-- The remainder of two integers has the sign of the divisor. -/
theorem numMod_of_integral (ha : a.Integral) (hb : b.Integral) (hpos : 0 < b.value) :
    (numMod a b).value = b.value * Int.fract (a.value / b.value) := by
  cases a with
  | fraction p => exact ha.elim
  | integer i =>
    cases b with
    | fraction q => exact hb.elim
    | integer j =>
      have hj : 0 < j := Int.cast_pos.mp hpos
      obtain ⟨d, rfl⟩ := Int.eq_ofNat_of_zero_le hj.le
      have hd : (d : ℚ) ≠ 0 := Nat.cast_ne_zero.mpr (by omega)
      have hmod : (numMod (integer i) (integer d)).value = (i % d : ℤ) := by
        have hsplit : i % d = i.tmod d % d := by
          conv_lhs => rw [← Int.tmod_add_mul_tdiv i d, Int.add_mul_emod_self_left]
        have hsmall : (i.tmod d).natAbs < d := by
          rw [Int.natAbs_tmod, Int.natAbs_natCast]
          exact Nat.mod_lt _ (by omega)
        rw [numMod]
        split
        · rename_i hneg
          have hres : i.tmod d < 0 := neg_of_mul_neg_left hneg hj.le
          rw [if_neg hres.not_gt, value_integer, abs_of_pos hj, hsplit,
            ← Int.add_emod_right, Int.emod_eq_of_lt (by omega) (by omega)]
        · rename_i hnonneg
          have hres : 0 ≤ i.tmod d := nonneg_of_mul_nonneg_left (not_lt.mp hnonneg) hj
          rw [value_integer, hsplit, Int.emod_eq_of_lt hres (by omega)]
      rw [hmod, value_integer, value_integer, Int.cast_natCast, Int.fract_div_intCast_eq_div_intCast_mod,
        mul_div_cancel₀ _ hd]

theorem numMod_of_nonneg (hpos : 0 < b.value) (ha : 0 ≤ a.value) :
    (numMod a b).value = b.value * Int.fract (a.value / b.value) := by
  by_cases h : a.Integral ∧ b.Integral
  · exact numMod_of_integral h.1 h.2 hpos
  · rw [numMod_of_not_integral h, tmod_den_of_nonneg (div_nonneg ha hpos.le)]

/-- The remainder of a negative fraction is not positive. -/
theorem numMod_of_nonpos (h : ¬ (a.Integral ∧ b.Integral)) (hpos : 0 < b.value)
    (ha : a.value ≤ 0) :
    (numMod a b).value = -(b.value * Int.fract (-a.value / b.value)) := by
  rw [numMod_of_not_integral h, tmod_den_of_nonpos (div_nonpos_of_nonpos_of_nonneg ha hpos.le),
    mul_neg, neg_div]

theorem mul_fract_div (p : ℚ) {q : ℚ} (hq : q ≠ 0) : q * Int.fract (p / q) = p - ⌊p / q⌋ * q := by
  rw [Int.fract, mul_sub, mul_div_cancel₀ _ hq, mul_comm]

theorem integral_sub_iff (h : a.value ≠ b.value) : (a - b).Integral ↔ a.Integral ∧ b.Integral := by
  have hne : a.value - b.value ≠ 0 := sub_ne_zero.mpr h
  change (numSub a b).Integral ↔ _
  cases a with
  | integer i =>
    cases b with
    | integer j => exact iff_of_true True.intro ⟨True.intro, True.intro⟩
    | fraction q =>
      rw [numSub, mkRational, if_neg hne]
      · exact iff_of_false id fun h => h.2
      · exact fun _ _ _ h => by cases h
  | fraction p =>
    rw [numSub, mkRational, if_neg hne]
    · exact iff_of_false id fun h => h.1
    · exact fun _ _ h => by cases h

/-- Either way a multiple of the divisor is taken off. -/
theorem exists_numMod (a : Number) (hpos : 0 < b.value) :
    ∃ m : ℤ, (numMod a b).value = a.value - m * b.value := by
  by_cases h : 0 ≤ a.value
  · refine ⟨⌊a.value / b.value⌋, ?_⟩
    rw [numMod_of_nonneg hpos h, mul_fract_div _ hpos.ne']
  · by_cases hint : a.Integral ∧ b.Integral
    · refine ⟨⌊a.value / b.value⌋, ?_⟩
      rw [numMod_of_integral hint.1 hint.2 hpos, mul_fract_div _ hpos.ne']
    · refine ⟨-⌊-a.value / b.value⌋, ?_⟩
      rw [numMod_of_nonpos hint hpos (not_le.mp h).le, mul_fract_div _ hpos.ne']
      push_cast
      ring

/-- A multiple of the divisor leaves nothing. -/
theorem numMod_of_multiple (hpos : 0 < b.value) {c : ℤ} (h : a.value = c * b.value) :
    (numMod a b).value = 0 := by
  have hdiv : a.value / b.value = c := by
    rw [h, mul_div_cancel_right₀ _ hpos.ne']
  by_cases ha : 0 ≤ a.value
  · rw [numMod_of_nonneg hpos ha, hdiv, Int.fract_intCast, mul_zero]
  · by_cases hint : a.Integral ∧ b.Integral
    · rw [numMod_of_integral hint.1 hint.2 hpos, hdiv, Int.fract_intCast, mul_zero]
    · rw [numMod_of_nonpos hint hpos (not_le.mp ha).le, neg_div, hdiv, ← Int.cast_neg,
        Int.fract_intCast, mul_zero, neg_zero]

end Number

end Extempore.SchemeNumbers
