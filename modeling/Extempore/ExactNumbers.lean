import Mathlib.Data.Rat.Cast.Order
import Mathlib.Algebra.BigOperators.Group.List.Basic
import Mathlib.Tactic.FieldSimp
import Mathlib.Tactic.Linarith
import Extempore.TruncatedEuclid
import Extempore.CheckedResults

/-!
# Exact arithmetic

Numbers are 64-bit integers and fractions of two such integers. The arithmetic opcodes add up,
subtract, multiply or divide their arguments from left to right without reducing fractions;
`mk_rational` brings the result to its lowest form by Euclid's algorithm. Neither the sums and
products nor the quotients are checked for overflow.
-/

namespace Extempore.ExactNumbers
open TruncatedEuclid CheckedResults

/-- `range` is a value that does not fit in 64 bits, `zero` is a division by zero of the machine
and `error` a Scheme error. -/
inductive Fault where
  | range | zero | error
  deriving DecidableEq, Repr

/-- A 64-bit integer. -/
def InInt64 (z : ℤ) : Prop := -9223372036854775808 ≤ z ∧ z < 9223372036854775808

instance (z : ℤ) : Decidable (InInt64 z) := instDecidableAnd

/-- How the machine stores a sum, a difference or a product. -/
def wrap (z : ℤ) : Except Fault ℤ := .ok (z.bmod 18446744073709551616)

/-- The same with a check. -/
def checked (z : ℤ) : Except Fault ℤ := if InInt64 z then .ok z else .error .range

/-- `a / b`; the machine checks it. -/
def quot (a b : ℤ) : Except Fault ℤ := if b = 0 then .error .zero else checked (a.tdiv b)

/-- `a % b`, which the machine computes together with the quotient. -/
def rem (a b : ℤ) : Except Fault ℤ := do
  let _ ← quot a b
  .ok (a.tmod b)

/-- A `num` or the number in a cell, without the inexact ones. -/
inductive Number where
  | integer (ivalue : ℤ)
  | rational (n d : ℤ)
  deriving DecidableEq, Repr

open Number

/-- The loop of `gcd`. The second number gets smaller, so that it bounds the iterations. -/
def gcdLoop : ℕ → ℤ → ℤ → Except Fault ℤ
  | 0, a, _ => .ok a
  | fuel + 1, a, b =>
    if b = 0 then .ok a
    else do
      let r ← rem a b
      gcdLoop fuel b r

def gcd (a b : ℤ) : Except Fault ℤ := gcdLoop b.natAbs a b

def mkRational (n d : ℤ) : Except Fault Number :=
  if d = 0 then .error .error
  else if n = 0 then .ok (integer 0)
  else do
    let g ← gcd n d
    .ok (rational (← quot n g) (← quot d g))

def mkNumber : Number → Except Fault Number
  | integer i => .ok (integer i)
  | rational n d => mkRational n d

section

variable (word : ℤ → Except Fault ℤ)

def numAdd : Number → Number → Except Fault Number
  | integer a, integer b => do .ok (integer (← word (a + b)))
  | integer a, rational n d => do .ok (rational (← word ((← word (a * d)) + n)) d)
  | rational n d, integer b => do .ok (rational (← word ((← word (b * d)) + n)) d)
  | rational n d, rational n' d' => do
    let p ← word (n * d')
    let q ← word (n' * d)
    .ok (rational (← word (p + q)) (← word (d * d')))

def numMul : Number → Number → Except Fault Number
  | integer a, integer b => do .ok (integer (← word (a * b)))
  | integer a, rational n d => do .ok (rational (← word (a * n)) d)
  | rational n d, integer b => do .ok (rational (← word (b * n)) d)
  | rational n d, rational n' d' => do .ok (rational (← word (n * n')) (← word (d * d')))

def numDiv : Number → Number → Except Fault Number
  | integer a, integer b => do
    if (← rem a b) = 0 then .ok (integer (← quot a b)) else .ok (rational a b)
  | integer a, rational n d => do .ok (rational (← word (a * d)) n)
  | rational n d, integer b => do .ok (rational n (← word (b * d)))
  | rational n d, rational n' d' => do .ok (rational (← word (n * d')) (← word (d * n')))

def numSub : Number → Number → Except Fault Number
  | integer a, integer b => do .ok (integer (← word (a - b)))
  | integer a, rational n d => do .ok (rational (← word ((← word (a * d)) - n)) d)
  | rational n d, integer b => do .ok (rational (← word (n - (← word (b * d)))) d)
  | rational n d, rational n' d' => do
    let p ← word (n * d')
    let q ← word (n' * d)
    .ok (rational (← word (p - q)) (← word (d * d')))

def numEq : Number → Number → Except Fault Bool
  | integer a, integer b => .ok (a == b)
  | rational n d, integer b => do .ok ((← word (d * b)) == n)
  | integer a, rational n d => do .ok ((← word (d * a)) == n)
  | rational n d, rational n' d' => .ok (n == n' && d == d')

end

/-- `is_zero_double(rvalue(x))` -/
def isZero : Number → Bool
  | integer i => i == 0
  | rational n _ => n == 0

/-- The arithmetic opcodes. -/
inductive Op where
  | add | mul | sub | div
  deriving DecidableEq, Repr

/-- The loop of `OP_DIV` for one argument. -/
def divide (word : ℤ → Except Fault ℤ) (v x : Number) : Except Fault Number :=
  if isZero x then .error .error else numDiv word v x

/-- The number `v` at the end of an opcode's loop. Subtraction and division have at least one
argument. -/
def loopResult (word : ℤ → Except Fault ℤ) : Op → List Number → Except Fault Number
  | .add, args => args.foldlM (numAdd word) (integer 0)
  | .mul, args => args.foldlM (numMul word) (integer 1)
  | .sub, [a] => [a].foldlM (numSub word) (integer 0)
  | .sub, a :: as => as.foldlM (numSub word) a
  | .div, [a] => [a].foldlM (divide word) (integer 1)
  | .div, a :: as => as.foldlM (divide word) a
  | _, [] => .error .error

def opExe (word : ℤ → Except Fault ℤ) (op : Op) (args : List Number) : Except Fault Number := do
  mkNumber (← loopResult word op args)

/-- The number that is meant. -/
def value : Number → ℚ
  | integer i => i
  | rational n d => n / d

/-- The arguments by which an opcode divides. -/
def divisors : Op → List Number → List Number
  | .div, [a] => [a]
  | .div, _ :: as => as
  | _, _ => []

/-- The exact result. -/
def exact : Op → List Number → ℚ
  | .add, args => (args.map value).sum
  | .mul, args => (args.map value).prod
  | .sub, [a] => -value a
  | .sub, a :: as => value a - (as.map value).sum
  | .div, [a] => (value a)⁻¹
  | .div, a :: as => value a / (as.map value).prod
  | _, [] => 0

/-- The numbers that a program can have: integers, and fractions made by `mk_rational`. -/
def IsCell : Number → Prop
  | integer i => InInt64 i
  | rational n d => ∃ p q, InInt64 p ∧ InInt64 q ∧ mkRational p q = .ok (rational n d)

/-- A number on the way to a result. -/
def Valid : Number → Prop
  | integer i => InInt64 i
  | rational n d => InInt64 n ∧ InInt64 d ∧ d ≠ 0

/-! ## Checked words -/

theorem wrap_of_inInt64 {z : ℤ} (h : InInt64 z) : wrap z = .ok z := by
  rw [wrap, Int.bmod_eq_of_le (by have := h.1; omega) (by have := h.2; omega)]

theorem agrees_word (z : ℤ) :
    Agrees .range (checked z) (wrap z) fun v => v = z ∧ InInt64 z := by
  by_cases h : InInt64 z
  · exact Or.inr ⟨z, if_pos h, wrap_of_inInt64 h, rfl, h⟩
  · exact Or.inl (if_neg h)

theorem agrees_quot (a : ℤ) {b : ℤ} (hb : b ≠ 0) :
    Agrees .range (quot a b) (quot a b) fun v => v = a.tdiv b ∧ InInt64 v := by
  rw [quot, if_neg hb]
  by_cases h : InInt64 (a.tdiv b)
  · exact Or.inr ⟨_, if_pos h, if_pos h, rfl, h⟩
  · exact Or.inl (if_neg h)

theorem agrees_rem (a : ℤ) {b : ℤ} (hb : b ≠ 0) :
    Agrees .range (rem a b) (rem a b) fun v => v = a.tmod b := by
  rw [rem]
  exact (agrees_quot a hb).bind fun _ _ => .pure rfl

/-- Only one quotient does not fit. -/
theorem quot_eq {a b : ℤ} (ha : InInt64 a) (hb : b ≠ 0)
    (hab : a ≠ -9223372036854775808 ∨ b ≠ -1) : quot a b = .ok (a.tdiv b) := by
  have hfits : InInt64 (a.tdiv b) := by
    have hlow := ha.1
    have hhigh := ha.2
    have hle := Int.natAbs_tdiv_le_natAbs a b
    by_cases hmin : a = -9223372036854775808
    · by_cases hone : b = 1
      · rw [hone, Int.tdiv_one]
        exact ha
      · have hhalf : (a.tdiv b).natAbs ≤ a.natAbs / 2 := by
          rw [Int.natAbs_tdiv]
          exact Nat.div_le_div_left (by omega) (by decide)
        exact ⟨by omega, by omega⟩
    · exact ⟨by omega, by omega⟩
  rw [quot, if_neg hb, checked, if_pos hfits]

/-- The loop meets only quotients that fit when its second number is not the least one. -/
theorem gcdLoop_eq {fuel : ℕ} {a b : ℤ} (hfuel : b.natAbs ≤ fuel) (ha : InInt64 a)
    (hb : InInt64 b) (hmin : b ≠ -9223372036854775808)
    (hab : a ≠ -9223372036854775808 ∨ b ≠ -1) : gcdLoop fuel a b = .ok (euclid a b) := by
  induction fuel generalizing a b with
  | zero =>
    obtain rfl : b = 0 := by omega
    rw [gcdLoop, euclid_zero]
  | succ fuel ih =>
    rw [gcdLoop]
    split
    · rename_i hz
      rw [hz, euclid_zero]
    · rename_i hz
      have hlt : (a.tmod b).natAbs < b.natAbs := by
        rw [Int.natAbs_tmod]
        exact Nat.mod_lt _ (Int.natAbs_pos.mpr hz)
      have hlow := hb.1
      have hhigh := hb.2
      rw [rem, quot_eq ha hz hab, euclid_of_ne_zero a hz]
      exact ih (by omega) hb ⟨by omega, by omega⟩ (by omega) (Or.inl hmin)

/-- The loop computes what Euclid's algorithm does, unless a quotient does not fit. -/
theorem agrees_gcdLoop {fuel : ℕ} {a b : ℤ} (hfuel : b.natAbs ≤ fuel) :
    Agrees .range (gcdLoop fuel a b) (gcdLoop fuel a b) fun v => v = euclid a b := by
  induction fuel generalizing a b with
  | zero =>
    obtain rfl : b = 0 := by omega
    exact .pure (euclid_zero a).symm
  | succ fuel ih =>
    rw [gcdLoop]
    split
    · rename_i hb
      subst hb
      exact .pure (euclid_zero a).symm
    · rename_i hb
      refine (agrees_rem a hb).bind ?_
      rintro r rfl
      have hlt : (a.tmod b).natAbs < b.natAbs := by
        rw [Int.natAbs_tmod]
        exact Nat.mod_lt _ (Int.natAbs_pos.mpr hb)
      rw [euclid_of_ne_zero a hb]
      exact ih (by omega)

theorem agrees_gcd (a b : ℤ) :
    Agrees .range (gcd a b) (gcd a b) fun v => v = euclid a b := agrees_gcdLoop le_rfl

/-! ## The operations on two numbers -/

variable {a b : Number}

/-- A sum or a difference of a fraction and a product. -/
theorem agrees_over (f : ℤ → ℤ) {x d : ℤ} {v : ℚ} (hd : InInt64 d ∧ d ≠ 0)
    (hv : ((f x : ℤ) : ℚ) / d = v) :
    Agrees .range (do .ok (rational (← checked (f (← checked x))) d))
      (do .ok (rational (← wrap (f (← wrap x))) d)) fun r => Valid r ∧ value r = v := by
  refine (agrees_word _).bind ?_
  rintro _ ⟨rfl, -⟩
  refine (agrees_word _).bind ?_
  rintro _ ⟨rfl, hs⟩
  exact .pure ⟨⟨hs, hd⟩, hv⟩

/-- A sum or a difference of two fractions over their common denominator. -/
theorem agrees_over_mul (f : ℤ → ℤ → ℤ) {n d n' d' : ℤ} {v : ℚ} (hd : d ≠ 0) (hd' : d' ≠ 0)
    (hv : ((f (n * d') (n' * d) : ℤ) : ℚ) / ((d * d' : ℤ) : ℚ) = v) :
    Agrees .range
      (do
        let p ← checked (n * d')
        let q ← checked (n' * d)
        .ok (rational (← checked (f p q)) (← checked (d * d'))))
      (do
        let p ← wrap (n * d')
        let q ← wrap (n' * d)
        .ok (rational (← wrap (f p q)) (← wrap (d * d'))))
      fun r => Valid r ∧ value r = v := by
  refine (agrees_word _).bind ?_
  rintro _ ⟨rfl, -⟩
  refine (agrees_word _).bind ?_
  rintro _ ⟨rfl, -⟩
  refine (agrees_word _).bind ?_
  rintro _ ⟨rfl, hs⟩
  refine (agrees_word _).bind ?_
  rintro _ ⟨rfl, hp⟩
  exact .pure ⟨⟨hs, hp, mul_ne_zero hd hd'⟩, hv⟩

theorem numAdd_agrees (ha : Valid a) (hb : Valid b) :
    Agrees .range (numAdd checked a b) (numAdd wrap a b) fun r =>
      Valid r ∧ value r = value a + value b := by
  cases a with
  | integer i =>
    cases b with
    | integer j =>
      refine (agrees_word _).bind ?_
      rintro _ ⟨rfl, hs⟩
      exact .pure ⟨hs, by simp [value]⟩
    | rational n d =>
      have hd : (d : ℚ) ≠ 0 := Int.cast_ne_zero.mpr hb.2.2
      apply agrees_over (fun p => p + n) hb.2
      simp only [value]
      push_cast
      field_simp
  | rational n d =>
    have hd : (d : ℚ) ≠ 0 := Int.cast_ne_zero.mpr ha.2.2
    cases b with
    | integer j =>
      apply agrees_over (fun p => p + n) ha.2
      simp only [value]
      push_cast
      field_simp
      ring
    | rational n' d' =>
      have hd' : (d' : ℚ) ≠ 0 := Int.cast_ne_zero.mpr hb.2.2
      apply agrees_over_mul (fun p q => p + q) ha.2.2 hb.2.2
      simp only [value]
      push_cast
      field_simp

theorem numSub_agrees (ha : Valid a) (hb : Valid b) :
    Agrees .range (numSub checked a b) (numSub wrap a b) fun r =>
      Valid r ∧ value r = value a - value b := by
  cases a with
  | integer i =>
    cases b with
    | integer j =>
      refine (agrees_word _).bind ?_
      rintro _ ⟨rfl, hs⟩
      exact .pure ⟨hs, by simp [value]⟩
    | rational n d =>
      have hd : (d : ℚ) ≠ 0 := Int.cast_ne_zero.mpr hb.2.2
      apply agrees_over (fun p => p - n) hb.2
      simp only [value]
      push_cast
      field_simp
  | rational n d =>
    have hd : (d : ℚ) ≠ 0 := Int.cast_ne_zero.mpr ha.2.2
    cases b with
    | integer j =>
      apply agrees_over (fun p => n - p) ha.2
      simp only [value]
      push_cast
      field_simp
    | rational n' d' =>
      have hd' : (d' : ℚ) ≠ 0 := Int.cast_ne_zero.mpr hb.2.2
      apply agrees_over_mul (fun p q => p - q) ha.2.2 hb.2.2
      simp only [value]
      push_cast
      field_simp

theorem numMul_agrees (ha : Valid a) (hb : Valid b) :
    Agrees .range (numMul checked a b) (numMul wrap a b) fun r =>
      Valid r ∧ value r = value a * value b := by
  cases a with
  | integer i =>
    cases b with
    | integer j =>
      refine (agrees_word _).bind ?_
      rintro _ ⟨rfl, hs⟩
      exact .pure ⟨hs, by simp [value]⟩
    | rational n d =>
      refine (agrees_word _).bind ?_
      rintro _ ⟨rfl, hs⟩
      refine .pure ⟨⟨hs, hb.2⟩, ?_⟩
      simp only [value]
      push_cast
      ring
  | rational n d =>
    cases b with
    | integer j =>
      refine (agrees_word _).bind ?_
      rintro _ ⟨rfl, hs⟩
      refine .pure ⟨⟨hs, ha.2⟩, ?_⟩
      simp only [value]
      push_cast
      ring
    | rational n' d' =>
      refine (agrees_word _).bind ?_
      rintro _ ⟨rfl, hs⟩
      refine (agrees_word _).bind ?_
      rintro _ ⟨rfl, hp⟩
      refine .pure ⟨⟨hs, hp, mul_ne_zero ha.2.2 hb.2.2⟩, ?_⟩
      simp only [value]
      push_cast
      exact (div_mul_div_comm ..).symm

theorem numDiv_agrees (ha : Valid a) (hb : Valid b) (hz : isZero b = false) :
    Agrees .range (numDiv checked a b) (numDiv wrap a b) fun r =>
      Valid r ∧ value r = value a / value b := by
  cases b with
  | integer j =>
    have hj : j ≠ 0 := by simpa [isZero] using hz
    cases a with
    | integer i =>
      refine (agrees_rem i hj).bind ?_
      rintro _ rfl
      split
      · rename_i hrem
        refine (agrees_quot i hj).bind ?_
        rintro _ ⟨rfl, hq⟩
        refine .pure ⟨hq, ?_⟩
        have hmul := Int.mul_tdiv_cancel_of_tmod_eq_zero hrem
        have hcast : (j : ℚ) * (i.tdiv j : ℤ) = i := by exact_mod_cast hmul
        simp only [value]
        rw [← hcast, mul_div_cancel_left₀ _ (Int.cast_ne_zero.mpr hj)]
      · exact .pure ⟨⟨ha, hb, hj⟩, rfl⟩
    | rational n d =>
      refine (agrees_word _).bind ?_
      rintro _ ⟨rfl, hp⟩
      refine .pure ⟨⟨ha.1, hp, mul_ne_zero hj ha.2.2⟩, ?_⟩
      simp only [value]
      push_cast
      rw [div_div, mul_comm]
  | rational n' d' =>
    have hn : n' ≠ 0 := by simpa [isZero] using hz
    cases a with
    | integer i =>
      refine (agrees_word _).bind ?_
      rintro _ ⟨rfl, hp⟩
      refine .pure ⟨⟨hp, hb.1, hn⟩, ?_⟩
      simp only [value]
      push_cast
      exact (div_div_eq_mul_div ..).symm
    | rational n d =>
      refine (agrees_word _).bind ?_
      rintro _ ⟨rfl, hp⟩
      refine (agrees_word _).bind ?_
      rintro _ ⟨rfl, hq⟩
      refine .pure ⟨⟨hp, hq, mul_ne_zero ha.2.2 hn⟩, ?_⟩
      simp only [value]
      push_cast
      exact (div_div_div_eq ..).symm

/-! ## Cells -/

/-- `mk_rational` keeps the number and brings it to its lowest form. -/
theorem mkRational_agrees {n d : ℤ} (hd : d ≠ 0) :
    Agrees .range (mkRational n d) (mkRational n d) fun r =>
      Valid r ∧ value r = n / d ∧
        (n ≠ 0 → r = rational (n.tdiv (euclid n d)) (d.tdiv (euclid n d))) := by
  rw [mkRational, if_neg hd]
  by_cases hn : n = 0
  · rw [if_pos hn]
    exact .pure ⟨⟨by omega, by omega⟩, by simp [value, hn], fun h => absurd hn h⟩
  · have hg := euclid_ne_zero (a := n) hd
    rw [if_neg hn]
    refine (agrees_gcd n d).bind ?_
    rintro _ rfl
    refine (agrees_quot n hg).bind ?_
    rintro _ ⟨rfl, hq⟩
    refine (agrees_quot d hg).bind ?_
    rintro _ ⟨rfl, hq'⟩
    have hnmul := Int.mul_tdiv_cancel_of_dvd (euclid_dvd_left n d)
    have hdmul := Int.mul_tdiv_cancel_of_dvd (euclid_dvd_right n d)
    have hne : d.tdiv (euclid n d) ≠ 0 := by
      intro h
      rw [h, mul_zero] at hdmul
      exact hd hdmul.symm
    refine .pure ⟨⟨hq, hq', hne⟩, ?_, fun _ => rfl⟩
    have hnq : (euclid n d : ℚ) * (n.tdiv (euclid n d) : ℤ) = n := by exact_mod_cast hnmul
    have hdq : (euclid n d : ℚ) * (d.tdiv (euclid n d) : ℤ) = d := by exact_mod_cast hdmul
    simp only [value]
    rw [← hnq, ← hdq, mul_div_mul_left _ _ (Int.cast_ne_zero.mpr hg)]

theorem IsCell.valid (h : IsCell a) : Valid a := by
  cases a with
  | integer i => exact h
  | rational n d =>
    obtain ⟨p, q, -, -, hmk⟩ := h
    have hq : q ≠ 0 := by
      rintro rfl
      cases hmk
    cases mkRational_agrees (n := p) hq with
    | inl hfault =>
      rw [hfault] at hmk
      cases hmk
    | inr hok =>
      obtain ⟨r, hr, -, hvalid, -⟩ := hok
      obtain rfl : r = rational n d := Except.ok.inj (hr.symm.trans hmk)
      exact hvalid

theorem mkNumber_agrees (ha : Valid a) :
    Agrees .range (mkNumber a) (mkNumber a) fun r => IsCell r ∧ value r = value a := by
  cases a with
  | integer i => exact .pure ⟨ha, rfl⟩
  | rational n d =>
    cases mkRational_agrees (n := n) ha.2.2 with
    | inl hfault => exact Or.inl hfault
    | inr hok =>
      obtain ⟨r, hr, -, hvalid, hvalue, -⟩ := hok
      refine Or.inr ⟨r, hr, hr, ?_, hvalue⟩
      cases r with
      | integer i => exact hvalid
      | rational n' d' => exact ⟨n, d, ha.1, ha.2.1, hr⟩

/-- Cells that stand for the same fraction hold the same numerator and denominator. -/
theorem rational_eq_of_value_eq {n d n' d' : ℤ} (ha : IsCell (rational n d))
    (hb : IsCell (rational n' d')) (h : value (rational n d) = value (rational n' d')) :
    n = n' ∧ d = d' := by
  have hlowest {n d : ℤ} (hc : IsCell (rational n d)) : ∃ p q : ℤ, q ≠ 0 ∧ n = p.tdiv (euclid p q) ∧
      d = q.tdiv (euclid p q) ∧ value (rational n d) = p / q := by
    obtain ⟨p, q, -, -, hmk⟩ := hc
    have hq : q ≠ 0 := by
      rintro rfl
      cases hmk
    have hp : p ≠ 0 := by
      rintro rfl
      rw [mkRational, if_neg hq] at hmk
      cases hmk
    cases mkRational_agrees (n := p) hq with
    | inl hfault =>
      rw [hfault] at hmk
      cases hmk
    | inr hok =>
      obtain ⟨r, hr, -, -, hvalue, hform⟩ := hok
      obtain rfl : r = rational n d := Except.ok.inj (hr.symm.trans hmk)
      have heq := Number.rational.inj (hform hp)
      exact ⟨p, q, hq, heq.1, heq.2, hvalue⟩
  obtain ⟨p, q, hq, rfl, rfl, hv⟩ := hlowest ha
  obtain ⟨p', q', hq', rfl, rfl, hv'⟩ := hlowest hb
  apply lowest_eq_of_mul_eq_mul hq hq'
  rw [hv, hv', div_eq_div_iff (Int.cast_ne_zero.mpr hq) (Int.cast_ne_zero.mpr hq')] at h
  exact_mod_cast h

theorem numEq_agrees (ha : IsCell a) (hb : IsCell b) :
    Agrees .range (numEq checked a b) (numEq wrap a b) fun r => r = true ↔ value a = value b := by
  have hcross {n d i : ℤ} (hd : d ≠ 0) : (d * i == n) = true ↔ (n : ℚ) / d = i := by
    rw [beq_iff_eq, div_eq_iff (Int.cast_ne_zero.mpr hd), mul_comm, eq_comm]
    norm_cast
  cases a with
  | integer i =>
    cases b with
    | integer j => exact .pure (by simp [value])
    | rational n d =>
      refine (agrees_word _).bind ?_
      rintro _ ⟨rfl, -⟩
      exact .pure ((hcross hb.valid.2.2).trans eq_comm)
  | rational n d =>
    cases b with
    | integer j =>
      refine (agrees_word _).bind ?_
      rintro _ ⟨rfl, -⟩
      exact .pure (hcross ha.valid.2.2)
    | rational n' d' =>
      refine .pure ?_
      rw [Bool.and_eq_true, beq_iff_eq, beq_iff_eq]
      constructor
      · intro h
        rw [h.1, h.2]
      · exact rational_eq_of_value_eq ha hb

/-! ## The opcodes -/

variable {args : List Number}

/-- A fold over the arguments has the value of the corresponding fold of numbers. -/
theorem foldlM_agrees (op : ℚ → ℚ → ℚ) {f g : Number → Number → Except Fault Number} {v : Number}
    (hstep : ∀ v x, x ∈ args → Valid v → Valid x →
      Agrees .range (f v x) (g v x) fun r => Valid r ∧ value r = op (value v) (value x))
    (hargs : ∀ x ∈ args, IsCell x) (hv : Valid v) :
    Agrees .range (args.foldlM f v) (args.foldlM g v) fun r =>
      Valid r ∧ value r = (args.map value).foldl op (value v) := by
  refine Agrees.foldlM (fun done r => Valid r ∧ value r = (done.map value).foldl op (value v)) ?_
    [] ⟨hv, rfl⟩
  intro done x r hx hr
  refine (hstep r x hx hr.1 (hargs x hx).valid).imp ?_
  intro r' hr'
  refine ⟨hr'.1, ?_⟩
  rw [hr'.2, hr.2, List.map_append, List.foldl_append]
  rfl

theorem valid_zero : Valid (integer 0) := by
  exact ⟨by omega, by omega⟩

theorem valid_one : Valid (integer 1) := by
  exact ⟨by omega, by omega⟩

theorem foldl_sub (x : ℚ) (xs : List ℚ) : xs.foldl (· - ·) x = x - xs.sum := by
  induction xs generalizing x with
  | nil => simp
  | cons y ys ih =>
    rw [List.foldl_cons, ih, List.sum_cons]
    ring

theorem foldl_div (x : ℚ) (xs : List ℚ) : xs.foldl (· / ·) x = x / xs.prod := by
  induction xs generalizing x with
  | nil => simp
  | cons y ys ih => rw [List.foldl_cons, ih, List.prod_cons, div_div]

theorem isZero_eq_false (ha : IsCell a) (hne : value a ≠ 0) : isZero a = false := by
  cases a with
  | integer i => simpa [isZero, value] using hne
  | rational n d =>
    simp only [isZero, beq_eq_false_iff_ne, ne_eq]
    rintro rfl
    exact hne (by simp [value])

theorem divide_agrees {v : Number} (hv : Valid v) (ha : IsCell a) (hne : value a ≠ 0) :
    Agrees .range (divide checked v a) (divide wrap v a) fun r =>
      Valid r ∧ value r = value v / value a := by
  have hz := isZero_eq_false ha hne
  rw [divide, divide, hz]
  exact numDiv_agrees hv ha.valid hz

/-- An opcode stops with a value that does not fit, or returns the exact result. -/
theorem opExe_agrees {op : Op} (hargs : ∀ x ∈ args, IsCell x)
    (harity : op = .sub ∨ op = .div → args ≠ []) (hdiv : ∀ x ∈ divisors op args, value x ≠ 0) :
    Agrees .range (opExe checked op args) (opExe wrap op args) fun r =>
      IsCell r ∧ value r = exact op args := by
  refine Agrees.bind (P := fun v => Valid v ∧ value v = exact op args) ?_ ?_
  · cases op with
    | add =>
      refine (foldlM_agrees (· + ·) (fun v x _ => numAdd_agrees) hargs valid_zero).imp ?_
      intro r hr
      refine ⟨hr.1, ?_⟩
      rw [hr.2, exact, List.sum_eq_foldl]
      simp [value]
    | mul =>
      refine (foldlM_agrees (· * ·) (fun v x _ => numMul_agrees) hargs valid_one).imp ?_
      intro r hr
      refine ⟨hr.1, ?_⟩
      rw [hr.2, exact, List.prod_eq_foldl]
      simp [value]
    | sub =>
      match args with
      | [] => exact absurd rfl (harity (Or.inl rfl))
      | [a] =>
        refine (foldlM_agrees (· - ·) (fun v x _ => numSub_agrees) hargs valid_zero).imp ?_
        intro r hr
        refine ⟨hr.1, ?_⟩
        rw [hr.2, foldl_sub, exact]
        simp [value]
      | a :: b :: as =>
        refine (foldlM_agrees (· - ·) (fun v x _ => numSub_agrees)
          (fun x hx => hargs x (List.mem_cons_of_mem a hx))
          (hargs a List.mem_cons_self).valid).imp ?_
        intro r hr
        refine ⟨hr.1, ?_⟩
        rw [hr.2, foldl_sub]
        rfl
    | div =>
      match args with
      | [] => exact absurd rfl (harity (Or.inr rfl))
      | [a] =>
        refine (foldlM_agrees (· / ·) (fun v x hx hv _ => divide_agrees hv (hargs x hx) (hdiv x hx)) hargs
          valid_one).imp ?_
        intro r hr
        refine ⟨hr.1, ?_⟩
        rw [hr.2, foldl_div, exact]
        simp [value]
      | a :: b :: as =>
        have hrest : ∀ x ∈ b :: as, IsCell x := fun x hx => hargs x (List.mem_cons_of_mem a hx)
        refine (foldlM_agrees (· / ·) (fun v x hx hv _ => divide_agrees hv (hrest x hx) (hdiv x hx)) hrest
          (hargs a List.mem_cons_self).valid).imp ?_
        intro r hr
        refine ⟨hr.1, ?_⟩
        rw [hr.2, foldl_div]
        rfl
  · intro v hv
    refine (mkNumber_agrees hv.1).imp ?_
    intro r hr
    exact ⟨hr.1, hr.2.trans hv.2⟩

/-- As long as all values fit and no divisor is zero, the opcodes return cells with the exact
results, and two results are equal just when they stand for the same number. -/
theorem exact_arithmetic (op op' : Op) (args args' : List Number)
    (hargs : ∀ x ∈ args, IsCell x) (hargs' : ∀ x ∈ args', IsCell x)
    (harity : op = .sub ∨ op = .div → args ≠ []) (harity' : op' = .sub ∨ op' = .div → args' ≠ [])
    (hdiv : ∀ x ∈ divisors op args, value x ≠ 0) (hdiv' : ∀ x ∈ divisors op' args', value x ≠ 0)
    (hfits : opExe checked op args ≠ .error .range)
    (hfits' : opExe checked op' args' ≠ .error .range) :
    ∃ r r', opExe wrap op args = .ok r ∧ IsCell r ∧ value r = exact op args ∧
      opExe wrap op' args' = .ok r' ∧ IsCell r' ∧ value r' = exact op' args' ∧
      (numEq checked r r' ≠ .error .range →
        ∃ eq, numEq wrap r r' = .ok eq ∧ (eq = true ↔ value r = value r')) := by
  obtain ⟨r, hr, hcell, hvalue⟩ := (opExe_agrees hargs harity hdiv).result hfits
  obtain ⟨r', hr', hcell', hvalue'⟩ := (opExe_agrees hargs' harity' hdiv').result hfits'
  refine ⟨r, r', hr, hcell, hvalue, hr', hcell', hvalue', ?_⟩
  intro heq
  exact (numEq_agrees hcell hcell').result heq

/-- The fractions of -1 and 2 and of 3 and -6. -/
theorem exact_arithmetic_half :
    ∃ r r', opExe wrap .div [integer (-1), integer 2] = .ok r ∧
      opExe wrap .div [integer 3, integer (-6)] = .ok r' ∧ value r = -1 / 2 ∧
      (∃ eq, numEq wrap r r' = .ok eq ∧ (eq = true ↔ value r = value r')) := by
  obtain ⟨r, r', hr, -, hvalue, hr', -, hvalue', heq⟩ := exact_arithmetic .div .div
    [integer (-1), integer 2] [integer 3, integer (-6)]
    (by simp [IsCell, InInt64]) (by simp [IsCell, InInt64]) (by simp) (by simp)
    (by simp [divisors, value]) (by simp [divisors, value]) (by decide +kernel) (by decide +kernel)
  have hr₁ : opExe wrap .div [integer (-1), integer 2] = .ok (rational 1 (-2)) := by decide +kernel
  have hr₂ : opExe wrap .div [integer 3, integer (-6)] = .ok (rational 1 (-2)) := by decide +kernel
  obtain rfl := Except.ok.inj (hr.symm.trans hr₁)
  obtain rfl := Except.ok.inj (hr'.symm.trans hr₂)
  refine ⟨_, _, hr, hr', ?_, heq (by decide)⟩
  rw [hvalue]
  norm_num [exact, value]

/-- The least integer divided by -1 stops the machine, without any sum or product; and a third is
equal to an integer whose product with 3 is 1 in 64 bits. -/
theorem not_exact_arithmetic :
    opExe wrap .div [integer (-9223372036854775808), integer (-1)] = .error .range ∧
      opExe checked .div [integer 1, integer 3] = .ok (rational 1 3) ∧
      opExe checked .add [integer (-6148914691236517205)] =
        .ok (integer (-6148914691236517205)) ∧
      numEq wrap (rational 1 3) (integer (-6148914691236517205)) = .ok true ∧
      value (rational 1 3) ≠ value (integer (-6148914691236517205)) := by
  refine ⟨by decide +kernel, by decide +kernel, by decide +kernel, by decide +kernel, ?_⟩
  norm_num [value]

end Extempore.ExactNumbers
