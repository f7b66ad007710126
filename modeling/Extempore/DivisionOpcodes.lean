import Extempore.ExactNumbers

/-!
# The machine's divisions

The opcodes `/`, `quotient`, `remainder` and `modulo` test their divisors for zero, but the machine
also stops at the quotient of the least integer and -1, and what is finally divided by can be a
product that was reduced to 64 bits.
-/

namespace Extempore.DivisionOpcodes

open TruncatedEuclid ExactNumbers ExactNumbers.Number

abbrev least : ℤ := -9223372036854775808

/-- The value of a word. -/
abbrev word (z : ℤ) : ℤ := z.bmod 18446744073709551616

/-- `TST_INTEGER` for all arguments. -/
def integers : List Number → Option (List ℤ)
  | [] => some []
  | integer i :: args => (integers args).map (i :: ·)
  | rational _ _ :: _ => none

/-- The loop of `OP_INTDIV` for one argument. -/
def intdiv (v x : ℤ) : Except Fault ℤ := if x = 0 then .error .error else quot v x

def opIntdiv (args : List Number) : Except Fault Number :=
  match integers args with
  | none | some [] => .error .error
  | some [a] => do .ok (integer (← [a].foldlM intdiv 1))
  | some (a :: as) => do .ok (integer (← as.foldlM intdiv a))

/-- `std::llabs` -/
def llabs (z : ℤ) : Except Fault ℤ := wrap |z|

def numRem (e₁ e₂ : ℤ) : Except Fault ℤ := do
  let res ← rem e₁ e₂
  if 0 < res then
    if e₁ < 0 then wrap (res - (← llabs e₂)) else .ok res
  else if res < 0 then
    if 0 < e₁ then wrap (res + (← llabs e₂)) else .ok res
  else .ok res

def opRem (args : List Number) : Except Fault Number :=
  match integers args with
  | some [a, b] => if b = 0 then .error .error else do .ok (integer (← numRem a b))
  | _ => .error .error

def numMod : Number → Number → Except Fault Number
  | integer e₁, integer e₂ => do
    let res ← rem e₁ e₂
    if (← wrap (res * e₂)) < 0 then
      if 0 < res then .ok (integer (← wrap (res - (← llabs e₂))))
      else .ok (integer (← wrap (res + (← llabs e₂))))
    else .ok (integer res)
  | a, b => do
    match ← numDiv wrap a b with
    | rational n d => numMul wrap b (rational (← rem n d) d)
    | integer i => .ok (integer i)

def opMod : List Number → Except Fault Number
  | [a, b] => if isZero b then .error .error else do mkNumber (← numMod a b)
  | _ => .error .error

/-- The machine stops at a division. -/
def Traps {α : Type} (r : Except Fault α) : Prop := r = .error .zero ∨ r = .error .range

/-! ## Words -/

theorem word_eq {z : ℤ} (h : InInt64 z) : word z = z :=
  Int.bmod_eq_of_le (by have := h.1; omega) (by have := h.2; omega)

theorem inInt64_word (z : ℤ) : InInt64 (word z) := by
  rw [word, Int.bmod_def]
  constructor <;> omega

theorem not_traps_ok {α : Type} {a : α} : ¬ Traps (.ok a : Except Fault α) := by
  intro h
  cases h with
  | inl h => cases h
  | inr h => cases h

theorem not_traps_error {α : Type} : ¬ Traps (.error .error : Except Fault α) := by
  intro h
  cases h with
  | inl h => cases h
  | inr h => cases h

theorem traps_range {α : Type} : Traps (.error .range : Except Fault α) := Or.inr rfl

theorem traps_zero {α : Type} : Traps (.error .zero : Except Fault α) := Or.inl rfl

/-- A quotient of the least integer and -1 does not fit. -/
theorem quot_least : quot least (-1) = .error .range := by decide

theorem rem_eq {a b : ℤ} (ha : InInt64 a) (hb : b ≠ 0) (hab : ¬ (a = least ∧ b = -1)) :
    rem a b = .ok (a.tmod b) := by
  rw [rem, quot_eq ha hb (not_and_or.mp hab)]
  rfl

theorem rem_zero (a : ℤ) : rem a 0 = .error .zero := rfl

theorem rem_least : rem least (-1) = .error .range := by decide

/-! ## Lowest forms -/

/-- The fractions that `mk_rational` does not reduce: a division by Euclid's result does not fit. -/
def LeastFraction (n d : ℤ) : Prop :=
  n ≠ 0 ∧ d ≠ 0 ∧ euclid n d = -1 ∧ (n = least ∨ d = least)

theorem euclid_least_neg_one : euclid least (-1) = -1 := by
  rw [euclid_of_ne_zero _ (by decide), Int.tmod_neg, Int.tmod_one, euclid_zero]

theorem tmod_least {a : ℤ} (ha : InInt64 a) (hmin : a ≠ least) : a.tmod least = a := by
  have hlow := ha.1
  have hhigh := ha.2
  have hne : a ≠ -9223372036854775808 := hmin
  rw [least, Int.tmod_neg]
  by_cases hneg : a < 0
  · have h := Int.tmod_eq_of_lt (a := -a) (b := 9223372036854775808) (by omega) (by omega)
    rw [Int.neg_tmod] at h
    omega
  · exact Int.tmod_eq_of_lt (by omega) (by omega)

theorem natAbs_tmod_lt (a : ℤ) {b : ℤ} (hb : b ≠ 0) : (a.tmod b).natAbs < b.natAbs := by
  rw [Int.natAbs_tmod]
  exact Nat.mod_lt _ (Int.natAbs_pos.mpr hb)

/-- The loop of `gcd` begins with an exchange when the second number is the least one. -/
theorem gcd_least {a : ℤ} (ha : InInt64 a) (hne : a ≠ 0) (hmin : a ≠ least) :
    ExactNumbers.gcd a least = if a = -1 then .error .range else .ok (euclid a least) := by
  have hlow := ha.1
  have hhigh := ha.2
  have hmin' : a ≠ -9223372036854775808 := hmin
  have hmod := tmod_least ha hmin
  have heuclid : euclid a least = euclid least a := by
    rw [euclid_of_ne_zero a (by decide), hmod]
  have hfuel : least.natAbs = 9223372036854775806 + 1 + 1 := by decide
  rw [ExactNumbers.gcd, hfuel, gcdLoop, if_neg (by decide),
    rem_eq ha (by decide) (fun h => by cases h.2), hmod]
  show gcdLoop (9223372036854775806 + 1) least a = _
  rw [gcdLoop, if_neg hne]
  by_cases hone : a = -1
  · rw [if_pos hone, hone, rem_least]
    rfl
  · rw [if_neg hone, rem_eq (by decide) hne (fun h => hone h.2), heuclid, euclid_of_ne_zero _ hne]
    have hlt := natAbs_tmod_lt least hne
    exact gcdLoop_eq (by omega) ha ⟨by omega, by omega⟩ (by omega) (Or.inl hmin)

theorem gcd_eq {n d : ℤ} (hn : InInt64 n) (hd : InInt64 d) (hn0 : n ≠ 0) :
    ExactNumbers.gcd n d = if (n = least ∧ d = -1) ∨ (n = -1 ∧ d = least) then .error .range
      else .ok (euclid n d) := by
  by_cases hmin : d = least
  · subst hmin
    by_cases hnmin : n = least
    · subst hnmin
      have hfuel : least.natAbs = 9223372036854775806 + 1 + 1 := by decide
      rw [if_neg (by decide), euclid_of_ne_zero _ (by decide), Int.tmod_self, euclid_zero,
        ExactNumbers.gcd, hfuel, gcdLoop, if_neg (by decide), rem_eq hn (by decide) (by decide), Int.tmod_self]
      rfl
    · rw [gcd_least hn hn0 hnmin]
      simp [hnmin]
  · by_cases hone : n = least ∧ d = -1
    · rw [if_pos (Or.inl hone), hone.1, hone.2]
      decide
    · rw [if_neg (by simp [hone, hmin])]
      exact gcdLoop_eq le_rfl hn hd hmin (not_and_or.mp hone)

theorem quot_eq_range {a : ℤ} (ha : a = least) {b : ℤ} (hb : b = -1) :
    quot a b = .error .range := by
  rw [ha, hb, quot_least]

/-- `mk_rational` ends or traps. -/
theorem mkRational_eq {n d : ℤ} (hn : InInt64 n) (hd : InInt64 d) :
    (d = 0 ∧ mkRational n d = .error .error) ∨
      (LeastFraction n d ∧ mkRational n d = .error .range) ∨
      (d ≠ 0 ∧ ¬ LeastFraction n d ∧ ∃ r, mkRational n d = .ok r) := by
  by_cases hd0 : d = 0
  · exact Or.inl ⟨hd0, by rw [mkRational, if_pos hd0]⟩
  right
  by_cases hn0 : n = 0
  · right
    refine ⟨hd0, fun h => h.1 hn0, integer 0, ?_⟩
    rw [mkRational, if_neg hd0, if_pos hn0]
  have hg := euclid_ne_zero (a := n) hd0
  rw [mkRational, if_neg hd0, if_neg hn0, gcd_eq hn hd hn0]
  by_cases hloop : (n = least ∧ d = -1) ∨ (n = -1 ∧ d = least)
  · left
    rw [if_pos hloop]
    refine ⟨⟨hn0, hd0, ?_, hloop.imp And.left And.right⟩, rfl⟩
    cases hloop with
    | inl h => rw [h.1, h.2, euclid_least_neg_one]
    | inr h =>
      rw [h.1, h.2, euclid_of_ne_zero _ (by decide), tmod_least (by decide) (by decide),
        euclid_least_neg_one]
  · rw [if_neg hloop]
    by_cases hleast : euclid n d = -1 ∧ (n = least ∨ d = least)
    · left
      refine ⟨⟨hn0, hd0, hleast⟩, ?_⟩
      by_cases hnmin : n = least
      · show (do .ok (rational (← quot n (euclid n d)) (← quot d (euclid n d)))) = _
        rw [quot_eq_range hnmin hleast.1]
        rfl
      · have hdmin := hleast.2.resolve_left hnmin
        show (do .ok (rational (← quot n (euclid n d)) (← quot d (euclid n d)))) = _
        rw [quot_eq hn hg (Or.inl hnmin), quot_eq_range hdmin hleast.1]
        rfl
    · right
      refine ⟨hd0, fun h => hleast h.2.2, ?_⟩
      rw [not_and_or, not_or] at hleast
      refine ⟨rational (n.tdiv (euclid n d)) (d.tdiv (euclid n d)), ?_⟩
      show (do .ok (rational (← quot n (euclid n d)) (← quot d (euclid n d)))) = _
      rw [quot_eq hn hg (hleast.symm.imp And.left id), quot_eq hd hg (hleast.symm.imp And.right id)]
      rfl

theorem traps_mkRational_iff {n d : ℤ} (hn : InInt64 n) (hd : InInt64 d) :
    Traps (mkRational n d) ↔ LeastFraction n d := by
  cases mkRational_eq hn hd with
  | inl h =>
    rw [h.2]
    exact iff_of_false not_traps_error fun hleast => hleast.2.1 h.1
  | inr h =>
    cases h with
    | inl h =>
      rw [h.2]
      exact iff_of_true traps_range h.1
    | inr h =>
      obtain ⟨-, hleast, r, hr⟩ := h
      rw [hr]
      exact iff_of_false not_traps_ok hleast

/-! ## The loops -/

section ones

variable {α : Type*}

/-- Ones, and then minus one. -/
def OnesThen (one negOne : α) (as : List α) : Prop :=
  ∃ k rest, as = List.replicate k one ++ negOne :: rest

theorem not_onesThen_nil {one negOne : α} : ¬ OnesThen one negOne [] := by
  intro h
  obtain ⟨k, rest, h⟩ := h
  exact absurd h (by simp)

theorem onesThen_cons {one negOne x : α} {as : List α} :
    OnesThen one negOne (x :: as) ↔ x = negOne ∨ (x = one ∧ OnesThen one negOne as) := by
  constructor
  · intro h
    obtain ⟨k, rest, h⟩ := h
    cases k with
    | zero =>
      cases h
      exact Or.inl rfl
    | succ k =>
      rw [List.replicate_succ, List.cons_append] at h
      cases h
      exact Or.inr ⟨rfl, k, rest, rfl⟩
  · intro h
    cases h with
    | inl h => exact ⟨0, as, by rw [h]; rfl⟩
    | inr h =>
      obtain ⟨rfl, k, rest, rfl⟩ := h
      exact ⟨k + 1, rest, by rw [List.replicate_succ]; rfl⟩

end ones

theorem tdiv_inInt64 {i j : ℤ} (hi : InInt64 i) (hj : j ≠ 0) (h : ¬ (i = least ∧ j = -1)) :
    InInt64 (i.tdiv j) := by
  have hok := quot_eq hi hj (not_and_or.mp h)
  rw [quot, if_neg hj, checked] at hok
  split at hok
  · assumption
  · cases hok

/-- Other quotients than those by 1 are not the least integer. -/
theorem tdiv_eq_least_iff {i j : ℤ} (hi : InInt64 i) (hj : j ≠ 0) (h : ¬ (i = least ∧ j = -1)) :
    i.tdiv j = least ↔ i = least ∧ j = 1 := by
  constructor
  · intro hq
    have hlow := hi.1
    have hhigh := hi.2
    have hle := Int.natAbs_tdiv_le_natAbs i j
    have hq' : i.tdiv j = -9223372036854775808 := hq
    have hmin : i = -9223372036854775808 := by
      by_contra hne
      omega
    refine ⟨hmin, ?_⟩
    by_contra hone
    have hhalf : (i.tdiv j).natAbs ≤ i.natAbs / 2 := by
      rw [Int.natAbs_tdiv]
      have hne : j ≠ -1 := fun hj => h ⟨hmin, hj⟩
      exact Nat.div_le_div_left (by omega) (by decide)
    omega
  · intro h
    rw [h.1, h.2, Int.tdiv_one]

theorem foldlM_intdiv_traps {v : ℤ} (hv : InInt64 v) (as : List ℤ) :
    Traps (as.foldlM intdiv v) ↔ v = least ∧ OnesThen 1 (-1) as := by
  induction as generalizing v with
  | nil => exact iff_of_false not_traps_ok fun h => not_onesThen_nil h.2
  | cons x as ih =>
    rw [List.foldlM_cons, intdiv, onesThen_cons]
    by_cases hx : x = 0
    · rw [if_pos hx]
      refine iff_of_false not_traps_error fun h => ?_
      omega
    · rw [if_neg hx]
      by_cases hleast : v = least ∧ x = -1
      · rw [quot_eq_range hleast.1 hleast.2]
        exact iff_of_true traps_range ⟨hleast.1, Or.inl hleast.2⟩
      · rw [quot_eq hv hx (not_and_or.mp hleast)]
        show Traps (as.foldlM intdiv (v.tdiv x)) ↔ _
        rw [ih (tdiv_inInt64 hv hx hleast), tdiv_eq_least_iff hv hx hleast]
        constructor
        · intro h
          exact ⟨h.1.1, Or.inr ⟨h.1.2, h.2⟩⟩
        · intro h
          cases h.2 with
          | inl h' => exact absurd ⟨h.1, h'⟩ hleast
          | inr h' => exact ⟨⟨h.1, h'.1⟩, h'.2⟩

/-- The quotient in unbounded integers, without reduction. -/
def exactDiv : Number → Number → Number
  | integer a, integer b => if b ∣ a then integer (a.tdiv b) else rational a b
  | integer a, rational n d => rational (a * d) n
  | rational n d, integer b => rational n (b * d)
  | rational n d, rational n' d' => rational (n * d') (d * n')

/-- What is left of a fraction in words. -/
def wrapped : Number → Number
  | integer i => integer i
  | rational n d => rational (word n) (word d)

def Fits : Number → Prop
  | integer i => InInt64 i
  | rational _ _ => True

theorem word_mul_word_left (a b : ℤ) : word (word a * b) = word (a * b) := Int.bmod_mul_bmod

theorem word_mul_word_right (a b : ℤ) : word (a * word b) = word (a * b) := Int.mul_bmod_bmod

theorem numDiv_wrapped {e x : Number} (he : Fits e) (hx : Valid x) (hz : isZero x = false)
    (h : ¬ (e = integer least ∧ x = integer (-1))) :
    numDiv wrap (wrapped e) x = .ok (wrapped (exactDiv e x)) ∧ Fits (exactDiv e x) := by
  cases x with
  | integer j =>
    have hj : j ≠ 0 := by simpa [isZero] using hz
    cases e with
    | integer i =>
      have hij : ¬ (i = least ∧ j = -1) := fun h' => h (by rw [h'.1, h'.2]; exact ⟨rfl, rfl⟩)
      rw [wrapped, numDiv, rem_eq he hj hij, exactDiv]
      by_cases hdvd : j ∣ i
      · rw [if_pos hdvd]
        refine ⟨?_, tdiv_inInt64 he hj hij⟩
        show (if i.tmod j = 0 then (do .ok (integer (← quot i j))) else _) = _
        rw [if_pos (Int.tmod_eq_zero_of_dvd hdvd), quot_eq he hj (not_and_or.mp hij)]
        rfl
      · rw [if_neg hdvd]
        refine ⟨?_, True.intro⟩
        show (if i.tmod j = 0 then (do .ok (integer (← quot i j))) else _) = _
        rw [if_neg (fun h0 => hdvd (Int.dvd_of_tmod_eq_zero h0)), wrapped, word_eq he, word_eq hx]
    | rational n d =>
      refine ⟨?_, True.intro⟩
      show Except.ok (rational (word n) (word (j * word d))) = _
      rw [word_mul_word_right]
      rfl
  | rational n' d' =>
    cases e with
    | integer i =>
      refine ⟨?_, True.intro⟩
      show Except.ok (rational (word (i * d')) n') = Except.ok (rational (word (i * d')) (word n'))
      rw [word_eq hx.1]
    | rational n d =>
      refine ⟨?_, True.intro⟩
      show Except.ok (rational (word (word n * d')) (word (word d * n'))) = _
      rw [word_mul_word_left, word_mul_word_left]
      rfl

theorem exactDiv_eq_least {e x : Number} (he : Fits e) (hz : isZero x = false)
    (h : ¬ (e = integer least ∧ x = integer (-1))) :
    exactDiv e x = integer least ↔ e = integer least ∧ x = integer 1 := by
  cases x with
  | integer j =>
    have hj : j ≠ 0 := by simpa [isZero] using hz
    cases e with
    | integer i =>
      have hij : ¬ (i = least ∧ j = -1) := fun h' => h (by rw [h'.1, h'.2]; exact ⟨rfl, rfl⟩)
      rw [exactDiv, Number.integer.injEq, Number.integer.injEq, ← tdiv_eq_least_iff he hj hij]
      split
      · rw [Number.integer.injEq]
      · rename_i hdvd
        refine iff_of_false (fun h => by cases h) fun hq => ?_
        rw [tdiv_eq_least_iff he hj hij] at hq
        exact hdvd (by rw [hq.2]; exact one_dvd _)
    | rational n d => exact iff_of_false (fun h => by cases h) fun h => by cases h.1
  | rational n d =>
    apply iff_of_false
    · intro h
      cases e with
      | integer i => cases h
      | rational n' d' => cases h
    · intro h
      cases h.2

/-- The least integer is divided by -1, perhaps after divisions by 1. -/
def LeastByNegOne (e : Number) (as : List Number) : Prop :=
  e = integer least ∧ OnesThen (integer 1) (integer (-1)) as

theorem foldlM_divide {e : Number} {as : List Number} (he : Fits e) (has : ∀ x ∈ as, IsCell x) :
    (LeastByNegOne e as ∧ as.foldlM (divide wrap) (wrapped e) = .error .range) ∨
      (¬ LeastByNegOne e as ∧ (∃ x ∈ as, isZero x = true) ∧
        as.foldlM (divide wrap) (wrapped e) = .error .error) ∨
      (¬ LeastByNegOne e as ∧ (∀ x ∈ as, isZero x = false) ∧
        as.foldlM (divide wrap) (wrapped e) = .ok (wrapped (as.foldl exactDiv e))) := by
  induction as generalizing e with
  | nil => exact Or.inr (Or.inr ⟨fun h => not_onesThen_nil h.2, by simp, rfl⟩)
  | cons x as ih =>
    have hx := (has x List.mem_cons_self).valid
    rw [List.foldlM_cons, divide]
    cases hz : isZero x with
    | true =>
      refine Or.inr (Or.inl ⟨fun h => ?_, ⟨x, List.mem_cons_self, hz⟩, rfl⟩)
      cases onesThen_cons.mp h.2 with
      | inl h =>
        rw [h] at hz
        cases hz
      | inr h =>
        rw [h.1] at hz
        cases hz
    | false =>
      rw [if_neg Bool.false_ne_true]
      by_cases hleast : e = integer least ∧ x = integer (-1)
      · left
        refine ⟨⟨hleast.1, onesThen_cons.mpr (Or.inl hleast.2)⟩, ?_⟩
        rw [hleast.1, hleast.2, wrapped, numDiv, rem_least]
        rfl
      · have hdiv := numDiv_wrapped he hx hz hleast
        have hiff : LeastByNegOne e (x :: as) ↔ LeastByNegOne (exactDiv e x) as := by
          rw [LeastByNegOne, LeastByNegOne, exactDiv_eq_least he hz hleast, onesThen_cons]
          constructor
          · intro h
            cases h.2 with
            | inl h' => exact absurd ⟨h.1, h'⟩ hleast
            | inr h' => exact ⟨⟨h.1, h'.1⟩, h'.2⟩
          · intro h
            exact ⟨h.1.1, Or.inr ⟨h.1.2, h.2⟩⟩
        rw [hdiv.1, hiff]
        have htail := ih hdiv.2 fun y hy => has y (List.mem_cons_of_mem x hy)
        refine htail.imp id
          (Or.imp (And.imp_right (And.imp_left ?_)) (And.imp_right (And.imp_left ?_)))
        · intro hzero
          obtain ⟨y, hy, hzero⟩ := hzero
          exact ⟨y, List.mem_cons_of_mem x hy, hzero⟩
        · intro hall y hy
          cases hy with
          | head => exact hz
          | tail _ hy => exact hall y hy

/-! ## The opcodes -/

/-- A trap in the loop of `/` from `e`, or in `mk_rational` after it. -/
def DivTraps (e : Number) (as : List Number) : Prop :=
  LeastByNegOne e as ∨ (∀ x ∈ as, isZero x = false) ∧
    ∃ n d, as.foldl exactDiv e = rational n d ∧ LeastFraction (word n) (word d)

theorem fits_of_isCell {a : Number} (ha : IsCell a) : Fits a ∧ wrapped a = a := by
  cases a with
  | integer i => exact ⟨ha, rfl⟩
  | rational n d =>
    refine ⟨True.intro, ?_⟩
    rw [wrapped, word_eq ha.valid.1, word_eq ha.valid.2.1]

theorem traps_mkNumber_wrapped (e : Number) :
    Traps (mkNumber (wrapped e)) ↔ ∃ n d, e = rational n d ∧ LeastFraction (word n) (word d) := by
  cases e with
  | integer i =>
    refine iff_of_false not_traps_ok fun h => ?_
    obtain ⟨n, d, h, -⟩ := h
    cases h
  | rational n d =>
    rw [wrapped, mkNumber, traps_mkRational_iff (inInt64_word n) (inInt64_word d)]
    constructor
    · intro h
      exact ⟨n, d, rfl, h⟩
    · intro h
      obtain ⟨n', d', heq, h⟩ := h
      cases heq
      exact h

theorem traps_divide_iff {e : Number} {as : List Number} (he : IsCell e)
    (has : ∀ x ∈ as, IsCell x) :
    Traps (do mkNumber (← as.foldlM (divide wrap) e)) ↔ DivTraps e as := by
  have hfits := fits_of_isCell he
  have hfold := foldlM_divide hfits.1 has
  rw [hfits.2] at hfold
  cases hfold with
  | inl h =>
    rw [h.2]
    exact iff_of_true traps_range (Or.inl h.1)
  | inr h =>
    cases h with
    | inl h =>
      rw [h.2.2]
      refine iff_of_false not_traps_error fun htraps => ?_
      cases htraps with
      | inl h' => exact h.1 h'
      | inr h' =>
        obtain ⟨x, hx, hz⟩ := h.2.1
        rw [h'.1 x hx] at hz
        cases hz
    | inr h =>
      rw [h.2.2]
      show Traps (mkNumber (wrapped (as.foldl exactDiv e))) ↔ _
      rw [traps_mkNumber_wrapped, DivTraps]
      constructor
      · intro hlast
        exact Or.inr ⟨h.2.1, hlast⟩
      · intro htraps
        exact (htraps.resolve_left h.1).2

def OpDivTraps : List Number → Prop
  | [] => False
  | [a] => DivTraps (integer 1) [a]
  | a :: as => DivTraps a as

theorem isCell_one : IsCell (integer 1) := by
  exact ⟨by omega, by omega⟩

theorem traps_opDiv_iff {args : List Number} (hargs : ∀ x ∈ args, IsCell x) :
    Traps (opExe wrap .div args) ↔ OpDivTraps args := by
  match args, hargs with
  | [], _ => exact iff_of_false not_traps_error id
  | [a], hargs => exact traps_divide_iff isCell_one hargs
  | a :: b :: as, hargs =>
    exact traps_divide_iff (hargs a List.mem_cons_self)
      fun x hx => hargs x (List.mem_cons_of_mem a hx)

/-- The least integer is divided by -1, perhaps after divisions by 1. -/
def OpIntdivTraps (args : List Number) : Prop :=
  ∃ as, integers args = some (least :: as) ∧ OnesThen 1 (-1) as

theorem inInt64_of_integers {args : List Number} {is : List ℤ} (hargs : ∀ x ∈ args, IsCell x)
    (h : integers args = some is) : ∀ i ∈ is, InInt64 i := by
  induction args generalizing is with
  | nil =>
    cases h
    simp
  | cons x args ih =>
    cases x with
    | integer i =>
      rw [integers] at h
      obtain ⟨js, hjs, rfl⟩ := Option.map_eq_some_iff.mp h
      intro j hj
      cases hj with
      | head => exact hargs _ List.mem_cons_self
      | tail _ hj => exact ih (fun y hy => hargs y (List.mem_cons_of_mem _ hy)) hjs j hj
    | rational n d => cases h

theorem traps_integer_iff {r : Except Fault ℤ} : Traps (do .ok (integer (← r))) ↔ Traps r := by
  cases r with
  | ok a => exact iff_of_false not_traps_ok not_traps_ok
  | error fault =>
    cases fault with
    | range => exact iff_of_true traps_range traps_range
    | zero => exact iff_of_true traps_zero traps_zero
    | error => exact iff_of_false not_traps_error not_traps_error

theorem traps_opIntdiv_iff {args : List Number} (hargs : ∀ x ∈ args, IsCell x) :
    Traps (opIntdiv args) ↔ OpIntdivTraps args := by
  rw [opIntdiv, OpIntdivTraps]
  cases his : integers args with
  | none =>
    refine iff_of_false not_traps_error fun h => ?_
    obtain ⟨as, h, -⟩ := h
    cases h
  | some is =>
    have hfits := inInt64_of_integers hargs his
    match is, hfits with
    | [], _ =>
      refine iff_of_false not_traps_error fun h => ?_
      obtain ⟨as, h, -⟩ := h
      cases h
    | [a], _ =>
      refine iff_of_false (fun h => ?_) fun h => ?_
      · exact absurd ((foldlM_intdiv_traps valid_one [a]).mp (traps_integer_iff.mp h)).1 (by decide)
      · obtain ⟨as, h, hones⟩ := h
        cases h
        exact not_onesThen_nil hones
    | a :: b :: as, hfits =>
      refine traps_integer_iff.trans
        ((foldlM_intdiv_traps (hfits a List.mem_cons_self) (b :: as)).trans ?_)
      constructor
      · intro h
        exact ⟨b :: as, by rw [h.1], h.2⟩
      · intro h
        obtain ⟨as', h, hones⟩ := h
        cases h
        exact ⟨rfl, hones⟩

theorem eq_map_of_integers {args : List Number} {is : List ℤ} (h : integers args = some is) :
    args = is.map integer := by
  induction args generalizing is with
  | nil =>
    cases h
    rfl
  | cons x args ih =>
    cases x with
    | integer i =>
      rw [integers] at h
      obtain ⟨js, hjs, rfl⟩ := Option.map_eq_some_iff.mp h
      rw [List.map_cons, ih hjs]
    | rational n d => cases h

theorem traps_numRem_iff {a b : ℤ} (ha : InInt64 a) (hb : b ≠ 0) :
    Traps (numRem a b) ↔ a = least ∧ b = -1 := by
  rw [numRem]
  by_cases hleast : a = least ∧ b = -1
  · rw [hleast.1, hleast.2, rem_least]
    exact iff_of_true traps_range ⟨rfl, rfl⟩
  · rw [rem_eq ha hb hleast]
    refine iff_of_false ?_ hleast
    show ¬ Traps (if 0 < a.tmod b then _ else _)
    split
    · split <;> exact not_traps_ok
    · split
      · split <;> exact not_traps_ok
      · exact not_traps_ok

def OpRemTraps (args : List Number) : Prop := args = [integer least, integer (-1)]

theorem traps_opRem_iff {args : List Number} (hargs : ∀ x ∈ args, IsCell x) :
    Traps (opRem args) ↔ OpRemTraps args := by
  rw [opRem, OpRemTraps]
  split
  · rename_i a b his
    have hfits := inInt64_of_integers hargs his a List.mem_cons_self
    rw [eq_map_of_integers his]
    by_cases hb : b = 0
    · rw [if_pos hb]
      refine iff_of_false not_traps_error fun h => ?_
      simp at h
      omega
    · rw [if_neg hb]
      refine traps_integer_iff.trans ((traps_numRem_iff hfits hb).trans ?_)
      simp
  · rename_i hpair
    refine iff_of_false not_traps_error fun h => ?_
    subst h
    exact hpair _ _ rfl

def num : Number → ℤ
  | integer i => i
  | rational n _ => n

def den : Number → ℤ
  | integer _ => 1
  | rational _ d => d

/-- The numerator of `num_div` in words. -/
def crossNum (a b : Number) : ℤ := word (num a * den b)

def crossDen (a b : Number) : ℤ := word (den a * num b)

/-- A trap in `num_mod`, or in `mk_rational` after it. -/
def ModTraps : Number → Number → Prop
  | integer a, integer b => a = least ∧ b = -1
  | a, b => crossDen a b = 0 ∨ (crossNum a b = least ∧ crossDen a b = -1) ∨
      LeastFraction (word (num b * (crossNum a b).tmod (crossDen a b)))
        (word (den b * crossDen a b))

def OpModTraps : List Number → Prop
  | [a, b] => isZero b = false ∧ ModTraps a b
  | _ => False

def BothIntegers : Number → Number → Prop
  | integer _, integer _ => True
  | _, _ => False

theorem numDiv_eq {a b : Number} (ha : Valid a) (hb : Valid b) (h : ¬ BothIntegers a b) :
    numDiv wrap a b = .ok (rational (crossNum a b) (crossDen a b)) := by
  cases a with
  | integer i =>
    cases b with
    | integer j => exact absurd True.intro h
    | rational n d =>
      show Except.ok (rational (word (i * d)) n) =
        Except.ok (rational (word (i * d)) (word (1 * n)))
      rw [one_mul, word_eq hb.1]
  | rational n d =>
    cases b with
    | integer j =>
      show Except.ok (rational n (word (j * d))) =
        Except.ok (rational (word (n * 1)) (word (d * j)))
      rw [mul_one, word_eq ha.1, mul_comm]
    | rational n' d' => rfl

theorem numMul_eq {b : Number} (r d : ℤ) (hd : InInt64 d) :
    numMul wrap b (rational r d) = .ok (rational (word (num b * r)) (word (den b * d))) := by
  cases b with
  | integer j =>
    show Except.ok (rational (word (j * r)) d) = Except.ok (rational (word (j * r)) (word (1 * d)))
    rw [one_mul, word_eq hd]
  | rational n d' => rfl

/-- The rational path of `num_mod`. -/
theorem numMod_eq {a b : Number} (ha : Valid a) (hb : Valid b) (h : ¬ BothIntegers a b) :
    numMod a b = (rem (crossNum a b) (crossDen a b)).bind fun r =>
      .ok (rational (word (num b * r)) (word (den b * crossDen a b))) := by
  have hmod : numMod a b = (do
      match ← numDiv wrap a b with
      | rational n d => numMul wrap b (rational (← rem n d) d)
      | integer i => .ok (integer i)) := by
    cases a with
    | integer i =>
      cases b with
      | integer j => exact absurd True.intro h
      | rational n d => rfl
    | rational n d => rfl
  rw [hmod, numDiv_eq ha hb h]
  show (do numMul wrap b (rational (← rem (crossNum a b) (crossDen a b)) (crossDen a b))) = _
  cases rem (crossNum a b) (crossDen a b) with
  | error fault => rfl
  | ok r => exact numMul_eq r _ (inInt64_word _)

theorem traps_mod_iff {a b : Number} (ha : IsCell a) (hb : IsCell b) (hz : isZero b = false) :
    Traps (do mkNumber (← numMod a b)) ↔ ModTraps a b := by
  by_cases hints : BothIntegers a b
  · match a, b, hints with
    | integer i, integer j, _ =>
      have hj : j ≠ 0 := by simpa [isZero] using hz
      rw [numMod, ModTraps]
      by_cases hleast : i = least ∧ j = -1
      · rw [hleast.1, hleast.2, rem_least]
        exact iff_of_true traps_range ⟨rfl, rfl⟩
      · rw [rem_eq ha hj hleast]
        refine iff_of_false ?_ hleast
        show ¬ Traps ((if word (i.tmod j * j) < 0 then _ else _) >>= mkNumber)
        split
        · show ¬ Traps ((if 0 < i.tmod j then _ else _) >>= mkNumber)
          split <;> exact not_traps_ok
        · exact not_traps_ok
  · have hiff : ModTraps a b ↔ crossDen a b = 0 ∨ (crossNum a b = least ∧ crossDen a b = -1) ∨
        LeastFraction (word (num b * (crossNum a b).tmod (crossDen a b)))
          (word (den b * crossDen a b)) := by
      cases a with
      | integer i =>
        cases b with
        | integer j => exact absurd True.intro hints
        | rational n d => rfl
      | rational n d => rfl
    rw [numMod_eq ha.valid hb.valid hints, hiff]
    by_cases hd : crossDen a b = 0
    · rw [hd, rem_zero]
      exact iff_of_true traps_zero (Or.inl rfl)
    · by_cases hleast : crossNum a b = least ∧ crossDen a b = -1
      · rw [hleast.1, hleast.2, rem_least]
        exact iff_of_true traps_range (Or.inr (Or.inl ⟨rfl, rfl⟩))
      · have hfits : InInt64 (crossNum a b) := inInt64_word _
        rw [rem_eq hfits hd hleast]
        show Traps (mkRational _ _) ↔ _
        rw [traps_mkRational_iff (inInt64_word _) (inInt64_word _)]
        constructor
        · intro h
          exact Or.inr (Or.inr h)
        · intro h
          exact (h.resolve_left hd).resolve_left hleast

theorem traps_opMod_iff {args : List Number} (hargs : ∀ x ∈ args, IsCell x) :
    Traps (opMod args) ↔ OpModTraps args := by
  match args, hargs with
  | [a, b], hargs =>
    rw [opMod, OpModTraps]
    cases hz : isZero b with
    | true => exact iff_of_false not_traps_error fun h => by cases h.1
    | false =>
      rw [if_neg Bool.false_ne_true, traps_mod_iff (hargs a List.mem_cons_self)
        (hargs b (List.mem_cons_of_mem a List.mem_cons_self)) hz]
      simp
  | [], _ => exact iff_of_false not_traps_error id
  | [a], _ => exact iff_of_false not_traps_error id
  | a :: b :: c :: as, _ => exact iff_of_false not_traps_error id

/-- The opcodes end without a trap of the machine exactly when the operands are none of these. -/
theorem not_traps_iff (args : List Number) (hargs : ∀ x ∈ args, IsCell x) :
    (¬ Traps (opExe wrap .div args) ↔ ¬ OpDivTraps args) ∧
      (¬ Traps (opIntdiv args) ↔ ¬ OpIntdivTraps args) ∧
      (¬ Traps (opRem args) ↔ ¬ OpRemTraps args) ∧ (¬ Traps (opMod args) ↔ ¬ OpModTraps args) :=
  ⟨not_congr (traps_opDiv_iff hargs), not_congr (traps_opIntdiv_iff hargs),
    not_congr (traps_opRem_iff hargs), not_congr (traps_opMod_iff hargs)⟩

theorem not_traps_iff_seven :
    (¬ Traps (opExe wrap .div [integer 7, integer (-2)]) ↔ ¬ OpDivTraps [integer 7, integer (-2)]) ∧
      (¬ Traps (opIntdiv [integer 7, integer (-2)]) ↔ ¬ OpIntdivTraps [integer 7, integer (-2)]) ∧
      (¬ Traps (opRem [integer 7, integer (-2)]) ↔ ¬ OpRemTraps [integer 7, integer (-2)]) ∧
      (¬ Traps (opMod [integer 7, integer (-2)]) ↔ ¬ OpModTraps [integer 7, integer (-2)]) :=
  not_traps_iff [integer 7, integer (-2)] (by simp [IsCell, InInt64])

/-- The quotient of the least integer and -1. -/
theorem traps_quotient :
    ¬ ∀ args : List Number, (∀ x ∈ args, IsCell x) → ¬ Traps (opExe wrap .div args) ∧
      ¬ Traps (opIntdiv args) ∧ ¬ Traps (opRem args) ∧ ¬ Traps (opMod args) := by
  intro h
  have hfits : ∀ x ∈ [integer least, integer (-1)], IsCell x := by simp [IsCell, InInt64]
  have hquot := (h _ hfits).2.1
  apply hquot
  right
  decide

end Extempore.DivisionOpcodes
