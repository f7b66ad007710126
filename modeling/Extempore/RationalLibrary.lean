import Mathlib.Data.Rat.Lemmas
import Mathlib.Tactic.NormNum
import Extempore.ExactNumbers

/-!
# The library of rational numbers

A `Rational` is a pair of 64-bit integers. The arithmetic and comparison functions are overloaded
for two of them and for one of them with an integer of 64, 32 or 8 bits, each overload written out
by itself. `word` is the arithmetic of the machine, `wrap` or `checked`.
-/

namespace Extempore.RationalLibrary
open TruncatedEuclid CheckedResults ExactNumbers

/-- `bind-type Rational <i64,i64>` -/
structure Rational where
  num : ℤ
  den : ℤ
  deriving DecidableEq, Repr

/-- An operand with its type, by which the overload is chosen. -/
inductive Operand where
  | rational (r : Rational)
  | i64 (n : ℤ)
  | i32 (n : BitVec 32)
  | i8 (n : BitVec 8)
  deriving DecidableEq, Repr

open Operand

/-- What an overload returns. -/
inductive Result where
  | rational (r : Rational)
  | i1 (b : Bool)
  deriving DecidableEq, Repr

inductive Op where
  | multiplication | division | addition | subtraction
  | equal | notequal | lessthan | greaterthan
  deriving DecidableEq, Repr

def i32toi64 (n : BitVec 32) : ℤ := n.toInt

def i8toi64 (n : BitVec 8) : ℤ := n.toInt

section

variable (word : ℤ → Except Fault ℤ)

/-- `Rat` -/
def rat (a b : ℤ) : Except Fault Rational :=
  if b < 0 then do .ok ⟨← word (-1 * a), ← word (-1 * b)⟩
  else .ok ⟨a, b⟩

/-- `(if (< m 0) (set! m (* m -1)))` -/
def dropSign (m : ℤ) : Except Fault ℤ := if m < 0 then word (m * -1) else .ok m

def greatestCommonDivisor (m n : ℤ) : Except Fault ℤ :=
  if m = 0 ∧ n = 0 then .ok (-1)
  else do
    let m' ← dropSign word m
    let n' ← dropSign word n
    gcdLoop n'.natAbs m' n'

def reduce (a : Rational) : Except Fault Rational := do
  let gcd ← greatestCommonDivisor word a.num a.den
  rat word (← quot a.num gcd) (← quot a.den gcd)

def xtmMultiplication : Operand → Operand → Except Fault Rational
  | rational a, rational b => do
    reduce word (← rat word (← word (a.num * b.num)) (← word (a.den * b.den)))
  | rational a, i64 b => do rat word (← word (a.num * b)) (← word (a.den * 1))
  | i64 b, rational a => do rat word (← word (a.num * b)) (← word (a.den * 1))
  | rational a, i32 b => do rat word (← word (a.num * i32toi64 b)) (← word (a.den * 1))
  | i32 b, rational a => do rat word (← word (a.num * i32toi64 b)) (← word (a.den * 1))
  | rational a, i8 b => do rat word (← word (a.num * i8toi64 b)) (← word (a.den * 1))
  | i8 b, rational a => do rat word (← word (a.num * i8toi64 b)) (← word (a.den * 1))
  | _, _ => .error .error

def xtmDivision : Operand → Operand → Except Fault Rational
  | rational a, rational b => do
    reduce word (← rat word (← word (a.num * b.den)) (← word (a.den * b.num)))
  | rational a, i64 b => do rat word (← word (a.num * b)) (← word (a.den * 1))
  | i64 a, rational b => do rat word (← word (b.den * a)) (← word (b.num * 1))
  | rational a, i32 b => do rat word (← word (a.num * i32toi64 b)) (← word (a.den * 1))
  | i32 a, rational b => do rat word (← word (b.den * i32toi64 a)) (← word (b.num * 1))
  | rational a, i8 b => do rat word (← word (a.num * i8toi64 b)) (← word (a.den * 1))
  | i8 a, rational b => do rat word (← word (b.den * i8toi64 a)) (← word (b.num * 1))
  | _, _ => .error .error

def xtmAddition : Operand → Operand → Except Fault Rational
  | rational a, rational b => do
    let n ← word ((← word (a.num * b.den)) + (← word (b.num * a.den)))
    reduce word (← rat word n (← word (a.den * b.den)))
  | rational a, i64 b => do rat word (← word (a.num + (← word (a.den * b)))) a.den
  | i64 b, rational a => do rat word (← word (a.num + (← word (a.den * b)))) a.den
  | rational a, i32 b => do rat word (← word (a.num + (← word (a.den * i32toi64 b)))) a.den
  | i32 b, rational a => do rat word (← word (a.num + (← word (a.den * i32toi64 b)))) a.den
  | rational a, i8 b => do rat word (← word (a.num + (← word (a.den * i8toi64 b)))) a.den
  | i8 b, rational a => do rat word (← word (a.num + (← word (a.den * i8toi64 b)))) a.den
  | _, _ => .error .error

def xtmSubtraction : Operand → Operand → Except Fault Rational
  | rational a, rational b => do
    let n ← word ((← word (a.num * b.den)) - (← word (b.num * a.den)))
    reduce word (← rat word n (← word (a.den * b.den)))
  | rational a, i64 b => do rat word (← word (a.num - (← word (a.den * b)))) a.den
  | i64 b, rational a => do rat word (← word (a.num - (← word (a.den * b)))) a.den
  | rational a, i32 b => do rat word (← word (a.num - (← word (a.den * i32toi64 b)))) a.den
  | i32 b, rational a => do rat word (← word (a.num - (← word (a.den * i32toi64 b)))) a.den
  | rational a, i8 b => do rat word (← word (a.num - (← word (a.den * i8toi64 b)))) a.den
  | i8 b, rational a => do rat word (← word (a.num - (← word (a.den * i8toi64 b)))) a.den
  | _, _ => .error .error

/-- The overload of `xtm_equal` that the other ones call. -/
def equalRational (a b : Rational) : Except Fault Bool := do
  let reducedA ← reduce word a
  let reducedB ← reduce word b
  .ok (reducedA.num == reducedB.num && reducedA.den == reducedB.den)

def xtmEqual : Operand → Operand → Except Fault Bool
  | rational a, rational b => equalRational word a b
  | rational a, i64 b => do equalRational word a (← rat word b 1)
  | i64 b, rational a => do equalRational word (← rat word b 1) a
  | rational a, i32 b => do equalRational word a (← rat word (i32toi64 b) 1)
  | i32 b, rational a => do equalRational word (← rat word (i32toi64 b) 1) a
  | rational a, i8 b => do equalRational word a (← rat word (i8toi64 b) 1)
  | i8 b, rational a => do equalRational word (← rat word (i8toi64 b) 1) a
  | _, _ => .error .error

/-- The overload of `xtm_notequal` that the other ones call. -/
def notequalRational (a b : Rational) : Except Fault Bool := do
  let reducedA ← reduce word a
  let reducedB ← reduce word b
  .ok (reducedA.num != reducedB.num || reducedA.den != reducedB.den)

def xtmNotequal : Operand → Operand → Except Fault Bool
  | rational a, rational b => notequalRational word a b
  | rational a, i64 b => do notequalRational word a (← rat word b 1)
  | i64 b, rational a => do notequalRational word (← rat word b 1) a
  | rational a, i32 b => do notequalRational word a (← rat word (i32toi64 b) 1)
  | i32 b, rational a => do notequalRational word (← rat word (i32toi64 b) 1) a
  | rational a, i8 b => do notequalRational word a (← rat word (i8toi64 b) 1)
  | i8 b, rational a => do notequalRational word (← rat word (i8toi64 b) 1) a
  | _, _ => .error .error

def xtmLessthan : Operand → Operand → Except Fault Bool
  | rational a, rational b => do .ok (decide ((← word (a.num * b.den)) < (← word (b.num * a.den))))
  | rational a, i64 b => do .ok (decide (a.num < (← word (b * a.den))))
  | i64 b, rational a => do .ok (decide (a.num < (← word (b * a.den))))
  | rational a, i32 b => do .ok (decide (a.num < (← word (i32toi64 b * a.den))))
  | i32 b, rational a => do .ok (decide (a.num < (← word (i32toi64 b * a.den))))
  | rational a, i8 b => do .ok (decide (a.num < (← word (i8toi64 b * a.den))))
  | i8 b, rational a => do .ok (decide (a.num < (← word (i8toi64 b * a.den))))
  | _, _ => .error .error

def xtmGreaterthan : Operand → Operand → Except Fault Bool
  | rational a, rational b => do .ok (decide ((← word (a.num * b.den)) > (← word (b.num * a.den))))
  | rational a, i64 b => do .ok (decide (a.num > (← word (b * a.den))))
  | i64 b, rational a => do .ok (decide (a.num > (← word (b * a.den))))
  | rational a, i32 b => do .ok (decide (a.num > (← word (i32toi64 b * a.den))))
  | i32 b, rational a => do .ok (decide (a.num > (← word (i32toi64 b * a.den))))
  | rational a, i8 b => do .ok (decide (a.num > (← word (i8toi64 b * a.den))))
  | i8 b, rational a => do .ok (decide (a.num > (← word (i8toi64 b * a.den))))
  | _, _ => .error .error

/-- A call of one of the functions. -/
def call (op : Op) (x y : Operand) : Except Fault Result :=
  match op with
  | .multiplication => do .ok (.rational (← xtmMultiplication word x y))
  | .division => do .ok (.rational (← xtmDivision word x y))
  | .addition => do .ok (.rational (← xtmAddition word x y))
  | .subtraction => do .ok (.rational (← xtmSubtraction word x y))
  | .equal => do .ok (.i1 (← xtmEqual word x y))
  | .notequal => do .ok (.i1 (← xtmNotequal word x y))
  | .lessthan => do .ok (.i1 (← xtmLessthan word x y))
  | .greaterthan => do .ok (.i1 (← xtmGreaterthan word x y))

end

/-- The number that is meant. -/
def Rational.value (r : Rational) : ℚ := r.num / r.den

namespace Operand

/-- An operand as a fraction, an integer `n` as `n/1`. -/
def fraction : Operand → Rational
  | rational r => r
  | i64 n => ⟨n, 1⟩
  | i32 n => ⟨i32toi64 n, 1⟩
  | i8 n => ⟨i8toi64 n, 1⟩

def value (x : Operand) : ℚ := x.fraction.value

def isRational : Operand → Bool
  | rational _ => true
  | _ => false

/-- The integers of all widths as 64-bit integers. -/
def widen : Operand → Operand
  | rational r => rational r
  | i64 n => i64 n
  | i32 n => i64 (i32toi64 n)
  | i8 n => i64 (i8toi64 n)

end Operand

/-- The result of an operation stands for the exact result, or decides the order or equality. -/
def Denotes : Op → ℚ → ℚ → Result → Prop
  | .multiplication, p, q, .rational r => r.den ≠ 0 ∧ r.value = p * q
  | .division, p, q, .rational r => r.den ≠ 0 ∧ r.value = p / q
  | .addition, p, q, .rational r => r.den ≠ 0 ∧ r.value = p + q
  | .subtraction, p, q, .rational r => r.den ≠ 0 ∧ r.value = p - q
  | .equal, p, q, .i1 b => b = true ↔ p = q
  | .notequal, p, q, .i1 b => b = true ↔ p ≠ q
  | .lessthan, p, q, .i1 b => b = true ↔ p < q
  | .greaterthan, p, q, .i1 b => b = true ↔ p > q
  | _, _, _, _ => False

/-- Two results mean the same. -/
def Same : Result → Result → Prop
  | .rational r, .rational r' => r.value = r'.value
  | .i1 b, .i1 b' => b = b'
  | _, _ => False

/-- A call returns what it should, and the same as a call on the converted operands unless a
product or sum of that one does not fit. -/
def Exact (op : Op) (x y : Operand) : Prop :=
  ∃ r, call wrap op x y = .ok r ∧ Denotes op x.value y.value r ∧
    (call checked op (rational x.fraction) (rational y.fraction) ≠ .error .range →
      ∃ r', call wrap op (rational x.fraction) (rational y.fraction) = .ok r' ∧ Same r r')

/-- Dividing by an integer multiplies by it, an integer as the first operand of a subtraction or
comparison is taken for the second one, and no comparison looks at the signs of the
denominators. -/
def InOrder : Op → Operand → Operand → Prop
  | .division, x, y =>
    x.isRational = true → y.isRational = false → x.fraction.num = 0 ∨ y.fraction.num.natAbs = 1
  | .subtraction, x, y => x.isRational = true ∨ x.value = y.value
  | .lessthan, x, y | .greaterthan, x, y =>
    x.value = y.value ∨ x.isRational = true ∧ 0 < x.fraction.den * y.fraction.den
  | _, _, _ => True

/-! ## The lowest form -/

/-- `Rat` keeps the ratio and makes the denominator positive. -/
theorem agrees_rat (a : ℤ) {b : ℤ} (hb : b ≠ 0) :
    Agrees .range (rat checked a b) (rat wrap a b) fun r =>
      0 < r.den ∧ r.value = a / b ∧ Int.gcd r.num r.den = Int.gcd a b := by
  rw [rat, rat]
  split
  · rename_i hneg
    apply (agrees_word _).bind
    intro n hn
    apply (agrees_word _).bind
    intro d hd
    apply Agrees.pure
    rw [hn.1, hd.1]
    refine ⟨by dsimp only; omega, ?_, ?_⟩
    · rw [Rational.value]
      push_cast
      rw [neg_one_mul, neg_one_mul, neg_div_neg_eq]
    · dsimp only
      rw [neg_one_mul, neg_one_mul, Int.neg_gcd, Int.gcd_neg]
  · rename_i hpos
    exact .pure ⟨by dsimp only; omega, rfl, rfl⟩

theorem agrees_dropSign (m : ℤ) :
    Agrees .range (dropSign checked m) (dropSign wrap m) fun v => v = m.natAbs := by
  rw [dropSign, dropSign]
  split
  · apply (agrees_word _).imp
    intro v hv
    omega
  · exact .pure (by omega)

/-- Euclid's algorithm without signs. -/
theorem euclid_natCast (m n : ℕ) : euclid m n = Nat.gcd m n := by
  have habs := natAbs_euclid m n
  have hsign := sign_euclid m n
  have hpos : 0 ≤ (euclid (m : ℤ) n).sign := by
    rw [hsign]
    split <;> simp
  have hnonneg := Int.sign_nonneg_iff.mp hpos
  rw [Int.gcd_natCast_natCast] at habs
  omega

theorem agrees_greatestCommonDivisor (m : ℤ) {n : ℤ} (hn : n ≠ 0) :
    Agrees .range (greatestCommonDivisor checked m n) (greatestCommonDivisor wrap m n) fun v =>
      v = Int.gcd m n := by
  rw [greatestCommonDivisor, greatestCommonDivisor, if_neg (fun h => hn h.2),
    if_neg (fun h => hn h.2)]
  apply (agrees_dropSign m).bind
  intro m' hm'
  apply (agrees_dropSign n).bind
  intro n' hn'
  subst hm'
  subst hn'
  apply (agrees_gcdLoop le_rfl).imp
  intro v hv
  rw [hv, euclid_natCast]
  rfl

/-- The lowest form of a fraction has a positive denominator. -/
theorem agrees_reduce {a : Rational} (ha : a.den ≠ 0) :
    Agrees .range (reduce checked a) (reduce wrap a) fun r =>
      r.num = a.value.num ∧ r.den = a.value.den := by
  have hgcd : (Int.gcd a.num a.den : ℤ) ≠ 0 := by
    rw [Int.natCast_ne_zero]
    exact Int.gcd_ne_zero_right ha
  apply (agrees_greatestCommonDivisor a.num ha).bind
  intro g hg
  subst hg
  apply (agrees_quot a.num hgcd).bind
  intro n hn
  apply (agrees_quot a.den hgcd).bind
  intro d hd
  have hnum := Int.mul_tdiv_cancel_of_dvd (Int.gcd_dvd_left a.num a.den)
  have hden := Int.mul_tdiv_cancel_of_dvd (Int.gcd_dvd_right a.num a.den)
  rw [← hn.1] at hnum
  rw [← hd.1] at hden
  have hdne : d ≠ 0 := by
    intro h
    rw [h, mul_zero] at hden
    exact ha hden.symm
  have hcoprime : Int.gcd n d = 1 := by
    rw [hn.1, hd.1, Int.tdiv_eq_ediv_of_dvd (Int.gcd_dvd_left ..),
      Int.tdiv_eq_ediv_of_dvd (Int.gcd_dvd_right ..)]
    exact Int.gcd_ediv_gcd_ediv_gcd (Int.gcd_pos_of_ne_zero_right _ ha)
  have hvalue : a.value = n / d := by
    have hn' : (Int.gcd a.num a.den : ℚ) * n = a.num := by exact_mod_cast hnum
    have hd' : (Int.gcd a.num a.den : ℚ) * d = a.den := by exact_mod_cast hden
    rw [Rational.value, ← hn', ← hd', mul_div_mul_left _ _ (by exact_mod_cast hgcd)]
  apply (agrees_rat n hdne).imp
  intro r hr
  rw [hvalue, ← hr.2.1]
  have hlowest : Nat.Coprime r.num.natAbs r.den.natAbs := hr.2.2.trans hcoprime
  exact ⟨(Rat.num_div_eq_of_coprime hr.1 hlowest).symm, (Rat.den_div_eq_of_coprime hr.1 hlowest).symm⟩

/-! ## What the overloads compute -/

/-- The operands that the functions have an overload for. -/
def Overloaded (x y : Operand) : Prop := x.isRational = true ∨ y.isRational = true

/-- The comparison of the cross products. -/
def CrossLess (a b : Rational) : Prop := a.num * b.den < b.num * a.den

/-- What a call computes in terms of the numbers that the operands stand for. -/
def Outcome (op : Op) (x y : Operand) : Result → Prop
  | .rational r => r.den ≠ 0 ∧
    match op with
    | .multiplication => r.value = x.value * y.value
    | .division =>
      r.value = if x.isRational = true ∧ y.isRational = false then x.value * y.value
        else x.value / y.value
    | .addition => r.value = x.value + y.value
    | .subtraction =>
      r.value = if x.isRational = true then x.value - y.value else y.value - x.value
    | _ => False
  | .i1 b =>
    match op with
    | .equal => b = true ↔ x.value = y.value
    | .notequal => b = true ↔ x.value ≠ y.value
    | .lessthan =>
      b = true ↔ if x.isRational = true then CrossLess x.fraction y.fraction
        else CrossLess y.fraction x.fraction
    | .greaterthan =>
      b = true ↔ if x.isRational = true then CrossLess y.fraction x.fraction
        else CrossLess x.fraction y.fraction
    | _ => False

theorem agrees_reduce_rat (n : ℤ) {d : ℤ} (hd : d ≠ 0) :
    Agrees .range (rat checked n d >>= reduce checked) (rat wrap n d >>= reduce wrap) fun r =>
      r.den ≠ 0 ∧ r.value = n / d := by
  apply (agrees_rat n hd).bind
  intro s hs
  apply (agrees_reduce hs.1.ne').imp
  intro r hr
  have hden : r.den ≠ 0 := by
    rw [hr.2]
    exact Int.natCast_ne_zero.mpr s.value.den_nz
  refine ⟨hden, ?_⟩
  rw [Rational.value, hr.1, hr.2, ← hs.2.1]
  exact Rat.num_div_den s.value

theorem num_den_iff {p q : ℚ} : p.num = q.num ∧ p.den = q.den ↔ p = q :=
  ⟨fun h => Rat.ext h.1 h.2, fun h => h ▸ ⟨rfl, rfl⟩⟩

theorem agrees_equalRational {a b : Rational} (ha : a.den ≠ 0) (hb : b.den ≠ 0) :
    Agrees .range (equalRational checked a b) (equalRational wrap a b) fun v =>
      v = true ↔ a.value = b.value := by
  apply (agrees_reduce ha).bind
  intro r hr
  apply (agrees_reduce hb).bind
  intro s hs
  apply Agrees.pure
  rw [hr.1, hr.2, hs.1, hs.2, Bool.and_eq_true, beq_iff_eq, beq_iff_eq, Int.natCast_inj,
    num_den_iff]

theorem agrees_notequalRational {a b : Rational} (ha : a.den ≠ 0) (hb : b.den ≠ 0) :
    Agrees .range (notequalRational checked a b) (notequalRational wrap a b) fun v =>
      v = true ↔ a.value ≠ b.value := by
  apply (agrees_reduce ha).bind
  intro r hr
  apply (agrees_reduce hb).bind
  intro s hs
  apply Agrees.pure
  rw [hr.1, hr.2, hs.1, hs.2, Bool.or_eq_true, bne_iff_ne, bne_iff_ne, Ne, Ne, Ne,
    Int.natCast_inj, ← num_den_iff, not_and_or]

/-- `(Rat b 1)` -/
theorem agrees_rat_one (b : ℤ) :
    Agrees .range (rat checked b 1) (rat wrap b 1) fun r => r.den ≠ 0 ∧ r.value = b := by
  apply (agrees_rat b one_ne_zero).imp
  intro r hr
  refine ⟨hr.1.ne', ?_⟩
  rw [hr.2.1, Int.cast_one, div_one]

variable {x y : Operand}

theorem call_widen (word : ℤ → Except Fault ℤ) (op : Op) (x y : Operand) :
    call word op x.widen y.widen = call word op x y := by
  cases x <;> cases y <;> cases op <;> rfl

@[simp] theorem fraction_widen (x : Operand) : x.widen.fraction = x.fraction := by
  cases x <;> rfl

@[simp] theorem value_widen (x : Operand) : x.widen.value = x.value := by
  rw [Operand.value, fraction_widen]
  rfl

@[simp] theorem isRational_widen (x : Operand) : x.widen.isRational = x.isRational := by
  cases x <;> rfl

/-- A quotient of two products in its lowest form. -/
theorem agrees_reduce_words (n : ℤ) {d : ℤ} (hd : d ≠ 0) :
    Agrees .range (do reduce checked (← rat checked (← checked n) (← checked d)))
      (do reduce wrap (← rat wrap (← wrap n) (← wrap d))) fun r =>
      r.den ≠ 0 ∧ r.value = n / d := by
  apply (agrees_word n).bind
  intro p hp
  apply (agrees_word d).bind
  intro q hq
  rw [hp.1, hq.1]
  exact agrees_reduce_rat n hd

/-- A quotient of two products. -/
theorem agrees_rat_words (n : ℤ) {d : ℤ} (hd : d ≠ 0) :
    Agrees .range (do rat checked (← checked n) (← checked d))
      (do rat wrap (← wrap n) (← wrap d)) fun r => r.den ≠ 0 ∧ r.value = n / d := by
  apply (agrees_word n).bind
  intro p hp
  apply (agrees_word d).bind
  intro q hq
  rw [hp.1, hq.1]
  apply (agrees_rat n hd).imp
  intro r hr
  exact ⟨hr.1.ne', hr.2.1⟩

/-- A comparison of two products. -/
theorem agrees_decide (m n : ℤ) (less : ℤ → ℤ → Prop) [DecidableRel less] :
    Agrees .range (do .ok (decide (less (← checked m) (← checked n))))
      (do .ok (decide (less (← wrap m) (← wrap n)))) fun v => v = true ↔ less m n := by
  apply (agrees_word m).bind
  intro p hp
  apply (agrees_word n).bind
  intro q hq
  apply Agrees.pure
  rw [hp.1, hq.1]
  exact decide_eq_true_iff

/-- A comparison with one product. -/
theorem agrees_decide_word (m n : ℤ) (less : ℤ → ℤ → Prop) [DecidableRel less] :
    Agrees .range (do .ok (decide (less m (← checked n))))
      (do .ok (decide (less m (← wrap n)))) fun v => v = true ↔ less m n := by
  apply (agrees_word n).bind
  intro q hq
  apply Agrees.pure
  rw [hq.1]
  exact decide_eq_true_iff

/-- A call on two rationals. -/
theorem agrees_call_rational (op : Op) {a b : Rational} (ha : a.den ≠ 0) (hb : b.den ≠ 0)
    (hdiv : op = .division → b.value ≠ 0) :
    Agrees .range (call checked op (rational a) (rational b))
      (call wrap op (rational a) (rational b)) (Outcome op (rational a) (rational b)) := by
  have hda : (a.den : ℚ) ≠ 0 := Int.cast_ne_zero.mpr ha
  have hdb : (b.den : ℚ) ≠ 0 := Int.cast_ne_zero.mpr hb
  cases op with
  | multiplication =>
    apply Agrees.map Result.rational
    apply (agrees_reduce_words _ (mul_ne_zero ha hb)).imp
    intro r hr
    refine ⟨hr.1, hr.2.trans ?_⟩
    push_cast
    exact (div_mul_div_comm ..).symm
  | division =>
    have hnum : b.num ≠ 0 := by
      intro h
      apply hdiv rfl
      rw [Rational.value, h, Int.cast_zero, zero_div]
    apply Agrees.map Result.rational
    apply (agrees_reduce_words _ (mul_ne_zero ha hnum)).imp
    intro r hr
    refine ⟨hr.1, hr.2.trans ?_⟩
    push_cast
    exact (div_div_div_eq ..).symm
  | addition =>
    apply Agrees.map Result.rational
    apply (agrees_word _).bind
    intro p hp
    apply (agrees_word _).bind
    intro q hq
    apply (agrees_reduce_words (p + q) (mul_ne_zero ha hb)).imp
    intro r hr
    refine ⟨hr.1, hr.2.trans ?_⟩
    rw [hp.1, hq.1]
    push_cast
    change _ = (a.num / a.den + b.num / b.den : ℚ)
    rw [div_add_div _ _ hda hdb, mul_comm (b.num : ℚ)]
  | subtraction =>
    apply Agrees.map Result.rational
    apply (agrees_word _).bind
    intro p hp
    apply (agrees_word _).bind
    intro q hq
    apply (agrees_reduce_words (p - q) (mul_ne_zero ha hb)).imp
    intro r hr
    refine ⟨hr.1, hr.2.trans ?_⟩
    rw [hp.1, hq.1]
    push_cast
    change _ = (a.num / a.den - b.num / b.den : ℚ)
    rw [div_sub_div _ _ hda hdb, mul_comm (b.num : ℚ)]
  | equal =>
    apply Agrees.map Result.i1
    exact agrees_equalRational ha hb
  | notequal =>
    apply Agrees.map Result.i1
    exact agrees_notequalRational ha hb
  | lessthan =>
    apply Agrees.map Result.i1
    exact agrees_decide _ _ (· < ·)
  | greaterthan =>
    apply Agrees.map Result.i1
    exact agrees_decide _ _ (· > ·)

/-- The common shape of the mixed sums and differences. -/
theorem agrees_mixed (f : ℤ → ℤ) (n : ℤ) {a : Rational} {v : ℚ} (ha : a.den ≠ 0)
    (hv : ((f (a.den * n) : ℤ) : ℚ) / a.den = v) :
    Agrees .range (do rat checked (← checked (f (← checked (a.den * n)))) a.den)
      (do rat wrap (← wrap (f (← wrap (a.den * n)))) a.den) fun r =>
      r.den ≠ 0 ∧ r.value = v := by
  apply (agrees_word _).bind
  intro p hp
  apply (agrees_word _).bind
  intro q hq
  apply (agrees_rat q ha).imp
  intro r hr
  refine ⟨hr.1.ne', hr.2.1.trans ?_⟩
  rw [hq.1, hp.1]
  exact hv

theorem agrees_sum (n : ℤ) {a : Rational} (ha : a.den ≠ 0) :
    Agrees .range (do rat checked (← checked (a.num + (← checked (a.den * n)))) a.den)
      (do rat wrap (← wrap (a.num + (← wrap (a.den * n)))) a.den) fun r =>
      r.den ≠ 0 ∧ r.value = a.value + n := by
  apply agrees_mixed (fun p => a.num + p) n ha
  push_cast
  rw [add_div, mul_div_cancel_left₀ _ (Int.cast_ne_zero.mpr ha)]
  rfl

theorem agrees_difference (n : ℤ) {a : Rational} (ha : a.den ≠ 0) :
    Agrees .range (do rat checked (← checked (a.num - (← checked (a.den * n)))) a.den)
      (do rat wrap (← wrap (a.num - (← wrap (a.den * n)))) a.den) fun r =>
      r.den ≠ 0 ∧ r.value = a.value - n := by
  apply agrees_mixed (fun p => a.num - p) n ha
  push_cast
  rw [sub_div, mul_div_cancel_left₀ _ (Int.cast_ne_zero.mpr ha)]
  rfl

/-- The common shape of the mixed products. -/
theorem agrees_product (n : ℤ) {a : Rational} (ha : a.den ≠ 0) :
    Agrees .range (do rat checked (← checked (a.num * n)) (← checked (a.den * 1)))
      (do rat wrap (← wrap (a.num * n)) (← wrap (a.den * 1))) fun r =>
      r.den ≠ 0 ∧ r.value = a.value * n := by
  apply (agrees_rat_words _ (mul_ne_zero ha one_ne_zero)).imp
  intro r hr
  refine ⟨hr.1, hr.2.trans ?_⟩
  push_cast
  rw [mul_one, Rational.value, div_mul_eq_mul_div]

@[simp] theorem value_i64 (n : ℤ) : (i64 n).value = n := by
  rw [Operand.value, Operand.fraction, Rational.value, Int.cast_one, div_one]

/-- A call with an integer as the second operand. -/
theorem agrees_call_i64 (op : Op) {a : Rational} (n : ℤ) (ha : a.den ≠ 0) :
    Agrees .range (call checked op (rational a) (i64 n)) (call wrap op (rational a) (i64 n))
      (Outcome op (rational a) (i64 n)) := by
  cases op with
  | multiplication =>
    apply Agrees.map Result.rational
    simp only [Outcome, value_i64]
    exact agrees_product n ha
  | division =>
    apply Agrees.map Result.rational
    simp only [Outcome, value_i64]
    exact agrees_product n ha
  | addition =>
    apply Agrees.map Result.rational
    simp only [Outcome, value_i64]
    exact agrees_sum n ha
  | subtraction =>
    apply Agrees.map Result.rational
    simp only [Outcome, value_i64]
    exact agrees_difference n ha
  | equal =>
    apply Agrees.map Result.i1
    simp only [Outcome, value_i64]
    apply (agrees_rat_one n).bind
    intro r hr
    rw [← hr.2]
    exact agrees_equalRational ha hr.1
  | notequal =>
    apply Agrees.map Result.i1
    simp only [Outcome, value_i64]
    apply (agrees_rat_one n).bind
    intro r hr
    rw [← hr.2]
    exact agrees_notequalRational ha hr.1
  | lessthan =>
    apply Agrees.map Result.i1
    simp only [Outcome, CrossLess, fraction, mul_one]
    exact agrees_decide_word _ _ (· < ·)
  | greaterthan =>
    apply Agrees.map Result.i1
    simp only [Outcome, CrossLess, fraction, mul_one]
    exact agrees_decide_word _ _ (· > ·)

/-- A call with an integer as the first operand. -/
theorem agrees_i64_call (op : Op) (n : ℤ) {b : Rational} (hb : b.den ≠ 0)
    (hdiv : op = .division → b.value ≠ 0) :
    Agrees .range (call checked op (i64 n) (rational b)) (call wrap op (i64 n) (rational b))
      (Outcome op (i64 n) (rational b)) := by
  cases op with
  | multiplication =>
    apply Agrees.map Result.rational
    simp only [Outcome, value_i64]
    rw [mul_comm (n : ℚ)]
    exact agrees_product n hb
  | division =>
    have hnum : b.num ≠ 0 := by
      intro h
      apply hdiv rfl
      rw [Rational.value, h, Int.cast_zero, zero_div]
    apply Agrees.map Result.rational
    simp only [Outcome, value_i64]
    apply (agrees_rat_words _ (mul_ne_zero hnum one_ne_zero)).imp
    intro r hr
    refine ⟨hr.1, hr.2.trans ?_⟩
    push_cast
    rw [mul_one, mul_comm]
    exact (div_div_eq_mul_div ..).symm
  | addition =>
    apply Agrees.map Result.rational
    simp only [Outcome, value_i64]
    rw [add_comm (n : ℚ)]
    exact agrees_sum n hb
  | subtraction =>
    apply Agrees.map Result.rational
    simp only [Outcome, value_i64]
    exact agrees_difference n hb
  | equal =>
    apply Agrees.map Result.i1
    simp only [Outcome, value_i64]
    apply (agrees_rat_one n).bind
    intro r hr
    rw [← hr.2]
    exact agrees_equalRational hr.1 hb
  | notequal =>
    apply Agrees.map Result.i1
    simp only [Outcome, value_i64]
    apply (agrees_rat_one n).bind
    intro r hr
    rw [← hr.2]
    exact agrees_notequalRational hr.1 hb
  | lessthan =>
    apply Agrees.map Result.i1
    simp only [Outcome, CrossLess, fraction, mul_one]
    exact agrees_decide_word _ _ (· < ·)
  | greaterthan =>
    apply Agrees.map Result.i1
    simp only [Outcome, CrossLess, fraction, mul_one]
    exact agrees_decide_word _ _ (· > ·)

theorem widen_eq (x : Operand) : (∃ r, x.widen = rational r) ∨ ∃ n, x.widen = i64 n := by
  cases x with
  | rational r => exact .inl ⟨r, rfl⟩
  | i64 n => exact .inr ⟨n, rfl⟩
  | i32 n => exact .inr ⟨i32toi64 n, rfl⟩
  | i8 n => exact .inr ⟨i8toi64 n, rfl⟩

/-- Every overload computes its outcome. -/
theorem agrees_call (op : Op) (hone : Overloaded x y) (hx : x.fraction.den ≠ 0)
    (hy : y.fraction.den ≠ 0) (hdiv : op = .division → y.value ≠ 0) :
    Agrees .range (call checked op x y) (call wrap op x y) (Outcome op x y) := by
  have hout : Outcome op x.widen y.widen = Outcome op x y := by
    funext r
    cases r <;> simp [Outcome]
  rw [← call_widen checked, ← call_widen wrap, ← hout]
  rw [← fraction_widen] at hx hy
  rw [← value_widen] at hdiv
  rw [Overloaded, ← isRational_widen x, ← isRational_widen y] at hone
  cases widen_eq x with
  | inl hr =>
    obtain ⟨a, ha⟩ := hr
    rw [ha] at hx ⊢
    cases widen_eq y with
    | inl hr =>
      obtain ⟨b, hb⟩ := hr
      rw [hb] at hy hdiv ⊢
      exact agrees_call_rational op hx hy hdiv
    | inr hi =>
      obtain ⟨n, hn⟩ := hi
      rw [hn]
      exact agrees_call_i64 op n hx
  | inr hi =>
    obtain ⟨n, hn⟩ := hi
    rw [hn] at hone ⊢
    cases widen_eq y with
    | inl hr =>
      obtain ⟨b, hb⟩ := hr
      rw [hb] at hy hdiv ⊢
      exact agrees_i64_call op n hy hdiv
    | inr hi =>
      obtain ⟨m, hm⟩ := hi
      rw [hm] at hone
      cases hone with
      | inl h => cases h
      | inr h => cases h

/-! ## Where the outcome is the exact result -/

theorem value_mul_den {a : Rational} (ha : a.den ≠ 0) : a.value * a.den = a.num :=
  div_mul_cancel₀ _ (Int.cast_ne_zero.mpr ha)

/-- The cross products are the fractions times the product of the denominators. -/
theorem crossLess_iff {a b : Rational} (ha : a.den ≠ 0) (hb : b.den ≠ 0) :
    CrossLess a b ↔ a.value * (a.den * b.den) < b.value * (a.den * b.den) := by
  have hleft : a.value * (a.den * b.den) = a.num * b.den := by
    rw [← mul_assoc, value_mul_den ha]
  have hright : b.value * (a.den * b.den) = b.num * a.den := by
    rw [mul_comm (a.den : ℚ), ← mul_assoc, value_mul_den hb]
  rw [hleft, hright, CrossLess]
  exact_mod_cast Iff.rfl

/-- The cross products are in the order of the fractions for denominators of one sign. -/
theorem crossLess_iff_of_pos {a b : Rational} (h : 0 < a.den * b.den) :
    CrossLess a b ↔ a.value < b.value := by
  have hpos : (0 : ℚ) < a.den * b.den := by exact_mod_cast h
  rw [crossLess_iff (left_ne_zero_of_mul h.ne') (right_ne_zero_of_mul h.ne')]
  exact mul_lt_mul_iff_left₀ hpos

/-- For denominators of different signs they are in the opposite order. -/
theorem crossLess_iff_of_neg {a b : Rational} (h : a.den * b.den < 0) :
    CrossLess a b ↔ b.value < a.value := by
  have hneg : (a.den * b.den : ℚ) < 0 := by exact_mod_cast h
  rw [crossLess_iff (left_ne_zero_of_mul h.ne) (right_ne_zero_of_mul h.ne)]
  exact mul_lt_mul_right_of_neg hneg

theorem crossLess_iff_lt {a b : Rational} (ha : a.den ≠ 0) (hb : b.den ≠ 0) :
    (CrossLess a b ↔ a.value < b.value) ↔ a.value = b.value ∨ 0 < a.den * b.den := by
  cases lt_or_gt_of_ne (mul_ne_zero ha hb) with
  | inl hneg =>
    rw [crossLess_iff_of_neg hneg, or_iff_left (not_lt.mpr hneg.le)]
    exact ⟨fun h => le_antisymm (not_lt.mp fun hlt => lt_asymm hlt (h.mp hlt))
      (not_lt.mp fun hlt => lt_asymm hlt (h.mpr hlt)), fun h => by rw [h]⟩
  | inr hpos => exact iff_of_true (crossLess_iff_of_pos hpos) (Or.inr hpos)

/-- The cross products the other way round. -/
theorem crossLess_swap_iff_lt {a b : Rational} (ha : a.den ≠ 0) (hb : b.den ≠ 0) :
    (CrossLess b a ↔ a.value < b.value) ↔ a.value = b.value ∨ a.den * b.den < 0 := by
  cases lt_or_gt_of_ne (mul_ne_zero hb ha) with
  | inl hneg =>
    rw [mul_comm a.den]
    exact iff_of_true (crossLess_iff_of_neg hneg) (Or.inr hneg)
  | inr hpos =>
    rw [crossLess_iff_of_pos hpos, mul_comm a.den, or_iff_left (not_lt.mpr hpos.le)]
    exact ⟨fun h => le_antisymm (not_lt.mp fun hlt => lt_asymm hlt (h.mp hlt))
      (not_lt.mp fun hlt => lt_asymm hlt (h.mpr hlt)), fun h => by rw [h]⟩

theorem mul_eq_div_iff {q : ℚ} {n : ℤ} (hn : (n : ℚ) ≠ 0) :
    q * n = q / n ↔ q = 0 ∨ n.natAbs = 1 := by
  rw [eq_div_iff hn, mul_assoc]
  constructor
  · intro h
    by_cases hq : q = 0
    · exact Or.inl hq
    · right
      have hsq : (n : ℚ) * n = 1 := mul_left_cancel₀ hq (h.trans (mul_one q).symm)
      have hsq' : n * n = 1 := by exact_mod_cast hsq
      exact Int.natAbs_eq_iff.mpr (mul_self_eq_one_iff.mp hsq')
  · intro h
    cases h with
    | inl hq => rw [hq, zero_mul]
    | inr hone =>
      have hsq : n * n = 1 := by rw [← Int.natAbs_mul_self, hone]; rfl
      rw [show (n : ℚ) * n = 1 by exact_mod_cast hsq, mul_one]

/-- The operands of `op` are taken as they should be, and the comparisons meet denominators of
the sign that they assume. -/
def Straight : Op → Operand → Operand → Prop
  | .division, x, y =>
    x.isRational = true → y.isRational = false → x.fraction.num = 0 ∨ y.fraction.num.natAbs = 1
  | .subtraction, x, y => x.isRational = true ∨ x.value = y.value
  | .lessthan, x, y | .greaterthan, x, y =>
    x.value = y.value ∨
      if x.isRational = true then 0 < x.fraction.den * y.fraction.den
      else x.fraction.den * y.fraction.den < 0
  | _, _, _ => True

theorem isInteger_value {x : Operand} (h : x.isRational = false) : x.value = x.fraction.num := by
  rw [← value_widen, ← fraction_widen]
  rw [← isRational_widen] at h
  cases widen_eq x with
  | inl hr =>
    obtain ⟨r, hr⟩ := hr
    rw [hr] at h
    cases h
  | inr hi =>
    obtain ⟨n, hn⟩ := hi
    rw [hn, value_i64]
    rfl

theorem value_eq_zero_iff {x : Operand} (hx : x.fraction.den ≠ 0) :
    x.value = 0 ↔ x.fraction.num = 0 := by
  rw [Operand.value, Rational.value, div_eq_zero_iff, Int.cast_eq_zero, Int.cast_eq_zero,
    or_iff_left hx]

/-- The outcome is right just for operands in the right order. -/
theorem denotes_iff {op : Op} {r : Result} (hx : x.fraction.den ≠ 0) (hy : y.fraction.den ≠ 0)
    (hdiv : op = .division → y.value ≠ 0) (h : Outcome op x y r) :
    Denotes op x.value y.value r ↔ Straight op x y := by
  cases r with
  | rational r =>
    cases op with
    | multiplication => exact iff_of_true h True.intro
    | addition => exact iff_of_true h True.intro
    | division =>
      obtain ⟨hden, hvalue⟩ := h
      rw [Denotes, and_iff_right hden, hvalue, Straight]
      split
      · rename_i hmixed
        have hy0 := hdiv rfl
        rw [isInteger_value hmixed.2] at hy0 ⊢
        rw [mul_eq_div_iff hy0, value_eq_zero_iff hx]
        exact ⟨fun h _ _ => h, fun h => h hmixed.1 hmixed.2⟩
      · rename_i hmixed
        exact iff_of_true rfl fun hx' hy' => absurd ⟨hx', hy'⟩ hmixed
    | subtraction =>
      obtain ⟨hden, hvalue⟩ := h
      rw [Denotes, and_iff_right hden, hvalue, Straight]
      split
      · rename_i hr
        exact iff_of_true rfl (Or.inl hr)
      · rename_i hr
        rw [or_iff_right hr]
        exact ⟨fun h => by linarith, fun h => by rw [h]⟩
    | equal => exact h.2.elim
    | notequal => exact h.2.elim
    | lessthan => exact h.2.elim
    | greaterthan => exact h.2.elim
  | i1 b =>
    cases op with
    | multiplication => exact h.elim
    | division => exact h.elim
    | addition => exact h.elim
    | subtraction => exact h.elim
    | equal => exact iff_of_true h True.intro
    | notequal => exact iff_of_true h True.intro
    | lessthan =>
      rw [Denotes, show b = true ↔ _ from h, Straight]
      split
      · exact crossLess_iff_lt hx hy
      · exact crossLess_swap_iff_lt hx hy
    | greaterthan =>
      rw [Denotes, show b = true ↔ _ from h, Straight, eq_comm (a := x.value),
        mul_comm x.fraction.den]
      split
      · exact crossLess_iff_lt hy hx
      · exact crossLess_swap_iff_lt hy hx

/-- The converted operands. -/
theorem straight_fraction (op : Op) (x y : Operand) :
    Straight op (rational x.fraction) (rational y.fraction) ↔
      (op = .lessthan ∨ op = .greaterthan →
        x.value = y.value ∨ 0 < x.fraction.den * y.fraction.den) := by
  cases op <;> simp [Straight, Operand.value, Operand.fraction, Operand.isRational]

/-- A result means the same as the exact one just when it is exact. -/
theorem same_iff {op : Op} {p q : ℚ} {r r' : Result} (hr : Denotes op p q r)
    (hr' : Outcome op x y r') : Same r r' ↔ Denotes op p q r' := by
  cases r with
  | rational r =>
    cases r' with
    | rational r' =>
      cases op <;> first
        | exact hr.elim
        | exact ⟨fun h => ⟨hr'.1, h.symm.trans hr.2⟩, fun h => hr.2.trans h.2.symm⟩
    | i1 b' => cases op <;> first | exact hr.elim | exact hr'.elim
  | i1 b =>
    cases r' with
    | rational r' => cases op <;> first | exact hr.elim | exact hr'.2.elim
    | i1 b' =>
      have hiff {P : Prop} (h : b = true ↔ P) : b = b' ↔ (b' = true ↔ P) := by
        rw [Bool.eq_iff_iff, h]
        exact iff_comm
      cases op <;> first | exact hr.elim | exact hiff hr

/-- The fields are 64-bit integers and the denominator is not zero. -/
def Valid (x : Operand) : Prop :=
  InInt64 x.fraction.num ∧ InInt64 x.fraction.den ∧ x.fraction.den ≠ 0

instance (x : Operand) : Decidable (Valid x) := instDecidableAnd

theorem inOrder_iff (op : Op) (x y : Operand) :
    InOrder op x y ↔ Straight op x y ∧ Straight op (rational x.fraction) (rational y.fraction) := by
  rw [straight_fraction]
  have hcompare : (x.value = y.value ∨ x.isRational = true ∧ 0 < x.fraction.den * y.fraction.den) ↔
      (x.value = y.value ∨
        if x.isRational = true then 0 < x.fraction.den * y.fraction.den
        else x.fraction.den * y.fraction.den < 0) ∧
      (x.value = y.value ∨ 0 < x.fraction.den * y.fraction.den) := by
    rw [← or_and_left]
    split <;> rename_i hr
    · simp [hr]
    · have hnot : ¬ (x.fraction.den * y.fraction.den < 0 ∧ 0 < x.fraction.den * y.fraction.den) :=
        fun h => lt_asymm h.1 h.2
      simp [hr, hnot]
  cases op with
  | lessthan => exact hcompare.trans (and_congr_right fun _ => by simp)
  | greaterthan => exact hcompare.trans (and_congr_right fun _ => by simp)
  | _ => exact (and_iff_left (by simp)).symm

theorem inInt64_of_decide (m n : ℤ) (less : ℤ → ℤ → Prop) [DecidableRel less]
    (h : ((do .ok (decide (less (← checked m) (← checked n)))) >>= fun b => .ok (Result.i1 b)) ≠
      .error .range) : InInt64 m ∧ InInt64 n := by
  have hm : InInt64 m := by
    by_contra hm
    apply h
    rw [checked, if_neg hm]
    rfl
  refine ⟨hm, ?_⟩
  by_contra hn
  apply h
  rw [checked, if_pos hm, checked, if_neg hn]
  rfl

theorem inInt64_of_decide_word (m n : ℤ) (less : ℤ → ℤ → Prop) [DecidableRel less]
    (h : ((do .ok (decide (less m (← checked n)))) >>= fun b => .ok (Result.i1 b)) ≠
      .error .range) : InInt64 n := by
  by_contra hn
  apply h
  rw [checked, if_neg hn]
  rfl

/-- The cross products of a comparison fit. -/
theorem inInt64_of_compare {op : Op} (hop : op = .lessthan ∨ op = .greaterthan)
    (hone : Overloaded x y) (hx : InInt64 x.fraction.num) (hy : InInt64 y.fraction.num)
    (hfits : call checked op x y ≠ .error .range) :
    InInt64 (x.fraction.num * y.fraction.den) ∧ InInt64 (y.fraction.num * x.fraction.den) := by
  rw [← call_widen] at hfits
  rw [← fraction_widen] at hx hy
  rw [← fraction_widen x, ← fraction_widen y]
  rw [Overloaded, ← isRational_widen x, ← isRational_widen y] at hone
  cases widen_eq x with
  | inl hr =>
    obtain ⟨a, ha⟩ := hr
    rw [ha] at hx hfits ⊢
    cases widen_eq y with
    | inl hr =>
      obtain ⟨b, hb⟩ := hr
      rw [hb] at hfits ⊢
      cases hop with
      | inl h => subst h; exact inInt64_of_decide _ _ (· < ·) hfits
      | inr h => subst h; exact inInt64_of_decide _ _ (· > ·) hfits
    | inr hi =>
      obtain ⟨n, hn⟩ := hi
      rw [hn] at hfits ⊢
      refine ⟨(mul_one a.num).symm ▸ hx, ?_⟩
      cases hop with
      | inl h => subst h; exact inInt64_of_decide_word a.num _ (· < ·) hfits
      | inr h => subst h; exact inInt64_of_decide_word a.num _ (· > ·) hfits
  | inr hi =>
    obtain ⟨n, hn⟩ := hi
    rw [hn] at hone hfits ⊢
    cases widen_eq y with
    | inl hr =>
      obtain ⟨b, hb⟩ := hr
      rw [hb] at hy hfits ⊢
      refine ⟨?_, (mul_one b.num).symm ▸ hy⟩
      cases hop with
      | inl h => subst h; exact inInt64_of_decide_word b.num _ (· < ·) hfits
      | inr h => subst h; exact inInt64_of_decide_word b.num _ (· > ·) hfits
    | inr hi =>
      obtain ⟨m, hm⟩ := hi
      rw [hm] at hone
      cases hone with
      | inl h => cases h
      | inr h => cases h

theorem compare_fits {op : Op} (hop : op = .lessthan ∨ op = .greaterthan) {a b : Rational}
    (hleft : InInt64 (a.num * b.den)) (hright : InInt64 (b.num * a.den)) :
    call checked op (rational a) (rational b) ≠ .error .range := by
  cases hop with
  | inl h =>
    subst h
    rw [call, xtmLessthan, checked, if_pos hleft, checked, if_pos hright]
    exact fun h => by cases h
  | inr h =>
    subst h
    rw [call, xtmGreaterthan, checked, if_pos hleft, checked, if_pos hright]
    exact fun h => by cases h

/-- Where no product or sum leaves 64 bits and no divisor is zero, a call returns the exact
result, and the one of the converted operands, just when its operands are in the right order. -/
theorem exact_iff (op : Op) (x y : Operand) (hone : Overloaded x y) (hx : Valid x) (hy : Valid y)
    (hdiv : op = .division → y.value ≠ 0) (hfits : call checked op x y ≠ .error .range) :
    Exact op x y ↔ InOrder op x y := by
  obtain ⟨r, hr, hout⟩ := (agrees_call op hone hx.2.2 hy.2.2 hdiv).result hfits
  have hdenotes := denotes_iff hx.2.2 hy.2.2 hdiv hout
  have hconv : Agrees .range (call checked op (rational x.fraction) (rational y.fraction))
      (call wrap op (rational x.fraction) (rational y.fraction))
      (Outcome op (rational x.fraction) (rational y.fraction)) :=
    agrees_call op (Or.inl rfl) hx.2.2 hy.2.2 hdiv
  have hdenotes' {r' : Result} (hout' : Outcome op (rational x.fraction) (rational y.fraction) r') :
      Denotes op x.value y.value r' ↔ Straight op (rational x.fraction) (rational y.fraction) :=
    denotes_iff (x := rational x.fraction) (y := rational y.fraction) hx.2.2 hy.2.2 hdiv hout'
  rw [inOrder_iff op x y]
  constructor
  · intro hexact
    obtain ⟨s, hs, hsd, hagree⟩ := hexact
    obtain rfl : s = r := Except.ok.inj (hs.symm.trans hr)
    refine ⟨hdenotes.mp hsd, ?_⟩
    by_cases hop : op = .lessthan ∨ op = .greaterthan
    · have hwords := inInt64_of_compare hop hone hx.1 hy.1 hfits
      have hfits' := compare_fits hop hwords.1 hwords.2
      obtain ⟨r', hr', hout'⟩ := hconv.result hfits'
      obtain ⟨s', hs', hsame⟩ := hagree hfits'
      obtain rfl : s' = r' := Except.ok.inj (hs'.symm.trans hr')
      exact (hdenotes' hout').mp ((same_iff hsd hout').mp hsame)
    · exact (straight_fraction op x y).mpr fun h => absurd h hop
  · intro h
    refine ⟨r, hr, hdenotes.mpr h.1, ?_⟩
    intro hfits'
    obtain ⟨r', hr', hout'⟩ := hconv.result hfits'
    refine ⟨r', hr', (same_iff (hdenotes.mpr h.1) hout').mpr ?_⟩
    exact (hdenotes' hout').mpr h.2

/-- A half by four. -/
theorem exact_iff_half :
    Exact .multiplication (rational ⟨1, 2⟩) (i32 4) ↔
      InOrder .multiplication (rational ⟨1, 2⟩) (i32 4) :=
  exact_iff .multiplication (rational ⟨1, 2⟩) (i32 4) (Or.inl rfl) (by decide) (by decide)
    (fun h => by cases h) (by decide +kernel)

/-- Three less a half is minus five halves. -/
theorem not_exact_three_sub_half :
    Valid (i64 3) ∧ Valid (rational ⟨1, 2⟩) ∧
      call checked .subtraction (i64 3) (rational ⟨1, 2⟩) ≠ .error .range ∧
      ¬ Exact .subtraction (i64 3) (rational ⟨1, 2⟩) := by
  have hrun : call wrap .subtraction (i64 3) (rational ⟨1, 2⟩) = .ok (.rational ⟨-5, 2⟩) := by
    decide +kernel
  refine ⟨by decide, by decide, by decide +kernel, ?_⟩
  intro h
  obtain ⟨r, hr, hdenotes, -⟩ := h
  obtain rfl := Except.ok.inj (hr.symm.trans hrun)
  have hvalue := hdenotes.2
  norm_num [Operand.value, Operand.fraction, Rational.value] at hvalue

end Extempore.RationalLibrary
