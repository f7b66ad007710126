import Mathlib.Data.Nat.Digits.Defs
import Mathlib.Data.List.Infix
import Extempore.Atoms
import Extempore.DivisionOpcodes

/-!
# The syntax of numbers

An integer is a row of digits with an optional sign, a fraction has a second row behind a slash, and
a decimal has a point, an exponent or both. `mk_atom` scans a token with a looser rule, by which a
slash may stand together with points and exponents.
-/

namespace Extempore.NumberSyntax
open Atoms ExactNumbers DivisionOpcodes SchemeReader

/-! ## Numerals -/

/-- A row of digits, maybe empty. -/
structure Digits where
  bytes : List UInt8
  digits : ∀ b ∈ bytes, isDigit b

def Digits.none : Digits := ⟨[], fun _ hb => absurd hb List.not_mem_nil⟩

def Digits.cons (b : UInt8) (hb : isDigit b) (ds : Digits) : Digits where
  bytes := b :: ds.bytes
  digits c hc := by
    cases List.mem_cons.mp hc with
    | inl hc => rwa [hc]
    | inr hc => exact ds.digits c hc

def Digits.value (ds : Digits) : ℕ :=
  Nat.ofDigits 10 (ds.bytes.reverse.map fun b => b.toNat - 48)

inductive Sign where
  | none | plus | minus
  deriving DecidableEq, Repr

def Sign.text : Sign → List UInt8
  | none => []
  | plus => [byte '+']
  | minus => [byte '-']

def Sign.apply (s : Sign) (z : ℤ) : ℤ := if s = minus then -z else z

/-- `e` or `E` -/
def IsMark (b : UInt8) : Prop := b = byte 'e' ∨ b = byte 'E'

instance (b : UInt8) : Decidable (IsMark b) := instDecidableOr

structure Exponent where
  mark : UInt8
  isMark : IsMark mark
  sign : Sign
  digits : Digits
  ne_nil : digits.bytes ≠ []

def Exponent.text (e : Exponent) : List UInt8 := e.mark :: (e.sign.text ++ e.digits.bytes)

/-- A decimal has a point, an exponent or both, and a digit in front of the exponent. -/
structure Decimal where
  sign : Sign
  whole : Digits
  part : Option Digits
  exponent : Option Exponent
  marked : part.isSome ∨ exponent.isSome
  ne_nil : whole.bytes ≠ [] ∨ ∃ p ∈ part, p.bytes ≠ []

def partText : Option Digits → List UInt8
  | none => []
  | some p => byte '.' :: p.bytes

def exponentText : Option Exponent → List UInt8
  | none => []
  | some e => e.text

/-- The number in front of the exponent, without its sign. -/
def mantissa (whole : Digits) : Option Digits → ℚ
  | none => whole.value
  | some p => whole.value + p.value / 10 ^ p.bytes.length

def exponentValue : Option Exponent → ℤ
  | none => 0
  | some e => e.sign.apply e.digits.value

def Decimal.text (m : Decimal) : List UInt8 :=
  m.sign.text ++ (m.whole.bytes ++ (partText m.part ++ exponentText m.exponent))

/-- Whether the decimal is negative, and its absolute value. A zero keeps its sign. -/
def Decimal.value (m : Decimal) : Bool × ℚ :=
  (m.sign = .minus, mantissa m.whole m.part * 10 ^ exponentValue m.exponent)

inductive Numeral where
  | integer (sign : Sign) (ds : Digits) (ne_nil : ds.bytes ≠ [])
  | fraction (sign : Sign) (ns ds : Digits) (ne_nil : ns.bytes ≠ []) (ne_zero : ds.value ≠ 0)
  | decimal (m : Decimal)

def Numeral.text : Numeral → List UInt8
  | integer sign ds _ => sign.text ++ ds.bytes
  | fraction sign ns ds _ _ => sign.text ++ (ns.bytes ++ byte '/' :: ds.bytes)
  | decimal m => m.text

def IsNumeral (q : List UInt8) : Prop := ∃ m : Numeral, m.text = q

/-- A fraction whose denominator is zero or missing. -/
structure ZeroFraction where
  sign : Sign
  ns : Digits
  ds : Digits
  ne_nil : ns.bytes ≠ []
  zero : ds.value = 0

def ZeroFraction.text (f : ZeroFraction) : List UInt8 :=
  f.sign.text ++ (f.ns.bytes ++ byte '/' :: f.ds.bytes)

def IsZeroFraction (q : List UInt8) : Prop := ∃ f : ZeroFraction, f.text = q

/-! ## Real numbers -/

def takeSign : List UInt8 → Sign × List UInt8
  | [] => (.none, [])
  | c :: cs =>
    if c = byte '+' then (.plus, cs) else if c = byte '-' then (.minus, cs) else (.none, c :: cs)

/-- The exponent at the beginning of the text, zero if there is none. -/
def atofExponent : List UInt8 → ℤ
  | [] => 0
  | c :: cs =>
    if IsMark c then (takeSign cs).1.apply (digitsValue 0 (takeSign cs).2) else 0

/-- The digits behind a point, and what is behind them. -/
def atofPart : List UInt8 → List UInt8 × List UInt8
  | [] => ([], [])
  | c :: cs => if c = byte '.' then (cs.takeWhile isDigit, cs.dropWhile isDigit) else ([], c :: cs)

/-- The number of which `atof` takes the nearest `double`, as its sign and absolute value. A text
that is scanned holds neither white space nor letters of `inf`, `nan` and of hexadecimal digits. -/
def atof (q : List UInt8) : Bool × ℚ :=
  let sign := (takeSign q).1
  let whole := (takeSign q).2.takeWhile isDigit
  let part := (atofPart ((takeSign q).2.dropWhile isDigit)).1
  let rest := (atofPart ((takeSign q).2.dropWhile isDigit)).2
  if whole = [] ∧ part = [] then (false, 0)
  else (sign = .minus,
    (digitsValue 0 whole + digitsValue 0 part / 10 ^ part.length) * 10 ^ atofExponent rest)

example : atof (ascii "-12.50e-1/7") = (true, 5 / 4) := by decide +kernel

def IsNumber (a : Atom) : Prop := (∃ v, a = .number v) ∨ ∃ text, a = .realNum text

/-- The atom is the number that the numeral stands for, where the numbers in it fit. -/
def Denotes (a : Atom) : Numeral → Prop
  | .integer sign ds _ =>
    InInt64 (sign.apply ds.value) → a = .number (.integer (sign.apply ds.value))
  | .fraction sign ns ds _ _ =>
    InInt64 (sign.apply ns.value) → InInt64 ds.value →
      ∃ v, a = .number v ∧ value v = (sign.apply ns.value : ℤ) / (ds.value : ℤ)
  | .decimal m => ∃ text, a = .realNum text ∧ atof text = m.value

/-- The token is read as a number exactly if it is a numeral, and then as the number that the
numeral stands for; every other token is a symbol. -/
structure ReadExactly (q : List UInt8) : Prop where
  number_iff : (∃ a, mkAtom q = .ok a ∧ IsNumber a) ↔ IsNumeral q
  denotes : ∀ m : Numeral, m.text = q → ∀ a, mkAtom q = .ok a → Denotes a m
  symbol : ¬ IsNumeral q → mkAtom q = .ok (.symbol q)

/-! ## Rows of digits -/

variable {q cs rest : List UInt8} {b c : UInt8} {s : Sign} {p slash : Bool}

theorem digitsValue_append (v : ℕ) (ds : Digits) (hrest : ∀ b ∈ rest.head?, isDigit b = false) :
    digitsValue v (ds.bytes ++ rest) = v * 10 ^ ds.bytes.length + ds.value := by
  cases ds with
  | mk bytes digits =>
    rw [Digits.value]
    induction bytes generalizing v with
    | nil =>
      cases rest with
      | nil => simp [digitsValue]
      | cons b rest =>
        have hb := hrest b rfl
        simp [digitsValue, hb]
    | cons b bytes ih =>
      have hb := digits b List.mem_cons_self
      have htail := ih (10 * v + (b.toNat - 48)) fun c hc => digits c (List.mem_cons_of_mem _ hc)
      simp only [List.cons_append, digitsValue, if_pos hb] at htail ⊢
      rw [htail, List.reverse_cons, List.map_append, Nat.ofDigits_append]
      simp
      ring

theorem digitsValue_zero (ds : Digits) (hrest : ∀ b ∈ rest.head?, isDigit b = false) :
    digitsValue 0 (ds.bytes ++ rest) = ds.value := by
  rw [digitsValue_append 0 ds hrest, zero_mul, zero_add]

theorem digitsValue_digits (ds : Digits) : digitsValue 0 ds.bytes = ds.value := by
  have h : digitsValue 0 (ds.bytes ++ []) = ds.value := digitsValue_zero ds (by simp)
  rwa [List.append_nil] at h

/-! ## What the scanner takes -/

def IsSignByte (b : UInt8) : Prop := b = byte '-' ∨ b = byte '+'

instance (b : UInt8) : Decidable (IsSignByte b) := instDecidableOr

/-- The characters behind the first digit, where a point or an exponent or a slash may have been
before. An exponent mark wants a sign or a digit behind it, and no point after it. -/
inductive Tail : Bool → Bool → List UInt8 → Prop
  | nil (point slash : Bool) : Tail point slash []
  | digit {point slash : Bool} {c : UInt8} {cs : List UInt8} :
    isDigit c → Tail point slash cs → Tail point slash (c :: cs)
  | point {slash : Bool} {cs : List UInt8} : Tail true slash cs → Tail false slash (byte '.' :: cs)
  | slash {point : Bool} {cs : List UInt8} : Tail point true cs → Tail point false (byte '/' :: cs)
  | exponent {point slash : Bool} {c d : UInt8} {cs : List UInt8} :
    IsMark c → IsSignByte d ∨ isDigit d → Tail true slash cs → Tail point slash (c :: d :: cs)

def pointText (point : Bool) : List UInt8 := if point then [byte '.'] else []

/-- A token that looks like a number to the scanner: a sign, a point, a digit and more. -/
def LooksLikeNumber (q : List UInt8) : Prop :=
  ∃ (s : Sign) (point : Bool) (d : UInt8) (cs : List UInt8),
    q = s.text ++ (pointText point ++ d :: cs) ∧ isDigit d ∧ Tail point false cs

/-- A token that looks like a number and has a slash beside a point or an exponent mark, two
exponent marks, or an exponent mark without a digit behind it. -/
structure Mixed (q : List UInt8) : Prop where
  looks : LooksLikeNumber q
  mixed : (byte '/' ∈ q ∧ (byte '.' ∈ q ∨ ∃ b ∈ q, IsMark b)) ∨ 2 ≤ q.countP (IsMark ·) ∨
    ∃ b ∈ q.getLast?, IsSignByte b

theorem isDigit_ne (hb : isDigit b) (hc : isDigit c = false) : b ≠ c := by
  rintro rfl
  rw [hb] at hc
  cases hc

theorem not_isSignByte_of_isDigit (hb : isDigit b) : ¬ IsSignByte b := by
  rw [IsSignByte, not_or]
  exact ⟨isDigit_ne hb rfl, isDigit_ne hb rfl⟩

/-- The scanner takes no other characters. -/
theorem tail_of_scan {ratd : Option (List UInt8)} {r : Bool × Option (List UInt8)}
    (h : scan p ratd false cs = some r) : Tail p ratd.isSome cs := by
  induction hn : cs.length using Nat.strong_induction_on generalizing p ratd cs with
  | _ n ih =>
    cases cs with
    | nil => apply Tail.nil
    | cons c cs =>
      rw [List.length_cons] at hn
      rw [scan] at h
      split at h
      · rename_i hc
        exact .digit (hc.resolve_left (by simp)) (ih cs.length (by omega) h rfl)
      split at h
      · rename_i hpoint
        rw [hpoint.1, hpoint.2]
        exact .point (ih cs.length (by omega) h rfl)
      split at h
      · rename_i hslash
        split at h
        · rename_i hratd
          rw [hslash, hratd]
          exact .slash (ih cs.length (by omega) h rfl)
        · cases h
      split at h
      · rename_i hmark
        split at h
        · rename_i hnext
          cases cs with
          | nil => cases hnext
          | cons d cs =>
            rw [scan, if_pos (Or.inl rfl)] at h
            rw [List.length_cons] at hn
            simp only [List.head?_cons, Option.any_some, Bool.or_eq_true, decide_eq_true_eq]
              at hnext
            exact .exponent hmark hnext (ih cs.length (by omega) h rfl)
        · cases h
      · cases h

/-- How a tail goes on behind its first digits. -/
inductive Continues (p slash : Bool) : List UInt8 → Prop
  | nil : Continues p slash []
  | point {cs : List UInt8} : p = false → Tail true slash cs → Continues p slash (byte '.' :: cs)
  | slash {cs : List UInt8} : slash = false → Tail p true cs → Continues p slash (byte '/' :: cs)
  | exponent {c d : UInt8} {cs : List UInt8} : IsMark c → IsSignByte d ∨ isDigit d →
    Tail true slash cs → Continues p slash (c :: d :: cs)

theorem Tail.split (h : Tail p slash cs) :
    ∃ (ds : Digits) (rest : List UInt8), cs = ds.bytes ++ rest ∧ Continues p slash rest := by
  induction h with
  | nil => exact ⟨.none, [], rfl, .nil⟩
  | digit hc _ ih =>
    obtain ⟨ds, rest, rfl, hrest⟩ := ih
    exact ⟨.cons _ hc ds, rest, rfl, hrest⟩
  | point h => exact ⟨.none, _, rfl, .point rfl h⟩
  | slash h => exact ⟨.none, _, rfl, .slash rfl h⟩
  | exponent hc hd h => exact ⟨.none, _, rfl, .exponent hc hd h⟩

/-- Only digits are left where no other character may stand. -/
theorem Tail.eq_digits (h : Tail p slash cs) (hpoint : p = false → byte '.' ∉ cs)
    (hslash : slash = false → byte '/' ∉ cs) (hmarks : ∀ b ∈ cs, ¬ IsMark b) :
    ∃ ds : Digits, cs = ds.bytes := by
  obtain ⟨ds, rest, rfl, hrest⟩ := h.split
  refine ⟨ds, ?_⟩
  cases hrest with
  | nil => apply List.append_nil
  | point hp _ => exact absurd (by simp) (hpoint hp)
  | slash hs _ => exact absurd (by simp) (hslash hs)
  | exponent hc _ _ => exact absurd hc (hmarks _ (by simp))

theorem exponent_of_tail {d : UInt8} (hc : IsMark c) (hd : IsSignByte d ∨ isDigit d)
    (h : Tail true slash cs) (hslash : byte '/' ∉ cs) (hmarks : ∀ b ∈ cs, ¬ IsMark b)
    (hlast : cs = [] → ¬ IsSignByte d) : ∃ e : Exponent, e.text = c :: d :: cs := by
  obtain ⟨ds, rfl⟩ := h.eq_digits (by simp) (fun _ => hslash) hmarks
  cases hd with
  | inl hsign =>
    have hne : ds.bytes ≠ [] := fun heq => hlast heq hsign
    cases hsign with
    | inl hminus =>
      refine ⟨⟨c, hc, .minus, ds, hne⟩, ?_⟩
      rw [hminus]
      rfl
    | inr hplus =>
      refine ⟨⟨c, hc, .plus, ds, hne⟩, ?_⟩
      rw [hplus]
      rfl
  | inr hdigit => exact ⟨⟨c, hc, .none, .cons d hdigit ds, by simp [Digits.cons]⟩, rfl⟩

/-- What keeps a token from being mixed. -/
structure Unmixed (q : List UInt8) : Prop where
  slash : byte '/' ∈ q → byte '.' ∉ q ∧ ∀ b ∈ q, ¬ IsMark b
  marks : q.countP (IsMark ·) < 2
  last : ∀ b ∈ q.getLast?, ¬ IsSignByte b

theorem unmixed_of_not_mixed (hlooks : LooksLikeNumber q) (h : ¬ Mixed q) : Unmixed q where
  slash hslash := by
    constructor
    · intro hpoint
      exact h ⟨hlooks, Or.inl ⟨hslash, Or.inl hpoint⟩⟩
    · intro b hb hmark
      exact h ⟨hlooks, Or.inl ⟨hslash, Or.inr ⟨b, hb, hmark⟩⟩⟩
  marks := by
    rw [← not_le]
    intro hmarks
    exact h ⟨hlooks, Or.inr (Or.inl hmarks)⟩
  last b hb hsign := h ⟨hlooks, Or.inr (Or.inr ⟨b, hb, hsign⟩)⟩

/-- The first exponent mark of an unmixed token is the only one. -/
theorem Unmixed.exponent {d : UInt8} {pre : List UInt8} (hq : Unmixed q)
    (heq : q = pre ++ c :: d :: cs) (hc : IsMark c) (hd : IsSignByte d ∨ isDigit d)
    (h : Tail true slash cs) : ∃ e : Exponent, e.text = c :: d :: cs := by
  refine exponent_of_tail hc hd h ?_ ?_ ?_
  · intro hslash
    exact (hq.slash (by rw [heq]; simp [hslash])).2 c (by rw [heq]; simp) hc
  · intro b hb hmark
    have hmarks := hq.marks
    have hpos : 0 < cs.countP (IsMark ·) := List.countP_pos_iff.mpr ⟨b, hb, by simpa using hmark⟩
    rw [heq, List.countP_append, List.countP_cons_of_pos (by simpa using hc), List.countP_cons]
      at hmarks
    omega
  · intro hnil
    refine hq.last d ?_
    rw [heq, hnil]
    simp

/-- A token that looks like a number and is not mixed is a numeral, apart from a zero denominator. -/
theorem isNumeral_of_looks (hlooks : LooksLikeNumber q) (hmixed : ¬ Mixed q) :
    IsNumeral q ∨ IsZeroFraction q := by
  have hq := unmixed_of_not_mixed hlooks hmixed
  obtain ⟨s, point, d, cs, heq, hd, htail⟩ := hlooks
  obtain ⟨ds, rest, rfl, hrest⟩ := htail.split
  have hcons : (Digits.cons d hd ds).bytes ≠ [] := by simp [Digits.cons]
  cases point with
  | true =>
    have hpoint : byte '.' ∈ q := by
      rw [heq]
      simp [pointText]
    left
    cases hrest with
    | nil =>
      refine ⟨.decimal ⟨s, .none, some (.cons d hd ds), none, by simp, ?_⟩, ?_⟩
      · exact Or.inr ⟨_, rfl, hcons⟩
      · rw [heq]
        rfl
    | point hp _ => cases hp
    | slash _ _ =>
      exact absurd hpoint (hq.slash (by rw [heq]; simp)).1
    | exponent hc hnext h =>
      rename_i c b cs
      obtain ⟨e, he⟩ := @Unmixed.exponent _ _ _ _ _ (s.text ++ (byte '.' :: d :: ds.bytes)) hq
        (by rw [heq]; simp [pointText]) hc hnext h
      refine ⟨.decimal ⟨s, .none, some (.cons d hd ds), some e, by simp, ?_⟩, ?_⟩
      · exact Or.inr ⟨_, rfl, hcons⟩
      · rw [heq, ← he]
        rfl
  | false =>
    cases hrest with
    | nil =>
      refine Or.inl ⟨.integer s (.cons d hd ds) hcons, ?_⟩
      rw [heq, List.append_nil]
      rfl
    | point _ hpart =>
      have hslash : byte '/' ∉ q := by
        intro hslash
        exact (hq.slash hslash).1 (by rw [heq]; simp)
      obtain ⟨ds', rest, rfl, hrest⟩ := hpart.split
      left
      cases hrest with
      | nil =>
        refine ⟨.decimal ⟨s, .cons d hd ds, some ds', none, by simp, Or.inl hcons⟩, ?_⟩
        rw [heq]
        rfl
      | point hp _ => cases hp
      | slash _ _ => exact absurd (by rw [heq]; simp) hslash
      | exponent hc hnext h =>
        obtain ⟨e, he⟩ := @Unmixed.exponent _ _ _ _ _
          (s.text ++ (d :: (ds.bytes ++ byte '.' :: ds'.bytes))) hq (by rw [heq]; simp [pointText]) hc hnext h
        refine ⟨.decimal ⟨s, .cons d hd ds, some ds', some e, by simp, Or.inl hcons⟩, ?_⟩
        rw [heq, ← he]
        rfl
    | slash _ h =>
      rename_i cs
      have hslash := hq.slash (by rw [heq]; simp)
      obtain ⟨ds', rfl⟩ := h.eq_digits
        (fun _ hpoint => hslash.1 (by rw [heq]; simp [hpoint])) (by simp)
        (fun b hb => hslash.2 b (by rw [heq]; simp [hb]))
      by_cases hzero : ds'.value = 0
      · refine Or.inr ⟨⟨s, .cons d hd ds, ds', hcons, hzero⟩, ?_⟩
        rw [heq]
        rfl
      · refine Or.inl ⟨.fraction s (.cons d hd ds) ds' hcons hzero, ?_⟩
        rw [heq]
        rfl
    | exponent hc hnext h =>
      obtain ⟨e, he⟩ := @Unmixed.exponent _ _ _ _ _ (s.text ++ (d :: ds.bytes)) hq
        (by rw [heq]; simp [pointText]) hc hnext h
      refine Or.inl ⟨.decimal ⟨s, .cons d hd ds, none, some e, by simp, Or.inl hcons⟩, ?_⟩
      rw [heq, ← he]
      rfl

/-! ## Tokens that are scanned -/

/-- Behind a sign and a point, a digit lets the scanner begin. -/
theorem plainAtom_digit {d : UInt8} (s : Sign) (point : Bool) (hd : isDigit d) (cs : List UInt8) :
    plainAtom (s.text ++ (pointText point ++ d :: cs)) =
      finishAtom (s.text ++ (pointText point ++ d :: cs)) (scan point none false cs) := by
  have hpoint : d ≠ byte '.' := isDigit_ne hd rfl
  have hsign : ¬ (d = byte '+' ∨ d = byte '-') := by
    rw [not_or]
    exact ⟨isDigit_ne hd rfl, isDigit_ne hd rfl⟩
  cases s <;> cases point <;>
    simp only [Sign.text, pointText, List.nil_append, List.cons_append, if_true, if_false,
      Bool.false_eq_true, plainAtom, signedAtom, numberAtom, if_pos hd, if_neg hpoint, if_neg hsign,
      true_or, or_true]
  all_goals rfl

theorem looks_of_numberAtom {text : List UInt8} {s : Sign}
    (htext : text = s.text ++ (pointText p ++ cs)) (h : numberAtom text p cs ≠ .ok (.symbol text)) :
    LooksLikeNumber text := by
  cases cs with
  | nil => exact absurd rfl h
  | cons d cs =>
    rw [numberAtom] at h
    split at h
    · rename_i hd
      cases hscan : scan p none false cs with
      | none =>
        rw [hscan] at h
        exact absurd rfl h
      | some r => exact ⟨s, p, d, cs, htext, hd, tail_of_scan hscan⟩
    · exact absurd rfl h

/-- What is not read as a symbol looks like a number. -/
theorem looks_of_plainAtom (hne : q ≠ []) (h : plainAtom q ≠ .ok (.symbol q)) :
    LooksLikeNumber q := by
  cases q with
  | nil => exact absurd rfl hne
  | cons c cs =>
    rw [plainAtom] at h
    split at h
    · rename_i hsign
      have hs : ∃ s : Sign, c :: cs = s.text ++ cs := by
        cases hsign with
        | inl hplus => exact ⟨.plus, by rw [hplus]; rfl⟩
        | inr hminus => exact ⟨.minus, by rw [hminus]; rfl⟩
      obtain ⟨s, hs⟩ := hs
      cases cs with
      | nil => exact absurd rfl h
      | cons d cs =>
        rw [signedAtom] at h
        split at h
        · rename_i hpoint
          exact looks_of_numberAtom (s := s) (by rw [hs, hpoint]; rfl) h
        · exact looks_of_numberAtom (s := s) (p := false) hs h
    split at h
    · rename_i hpoint
      exact looks_of_numberAtom (s := .none) (by rw [hpoint]; rfl) h
    · exact looks_of_numberAtom (s := .none) (p := false) rfl h

/-! ## Numerals that are read -/

/-- The nearest number that fits. -/
def stored (z : ℤ) : ℤ := max (-9223372036854775808) (min z 9223372036854775807)

theorem stored_eq {z : ℤ} (hz : InInt64 z) : stored z = z := by
  have hlow := hz.1
  have hhigh := hz.2
  rw [stored]
  omega

theorem inInt64_stored (z : ℤ) : InInt64 (stored z) := by
  rw [stored]
  exact ⟨by omega, by omega⟩

theorem stored_natCast_eq_zero {n : ℕ} : stored n = 0 ↔ n = 0 := by
  rw [stored]
  omega

theorem Digits.exists_cons {ds : Digits} (h : ds.bytes ≠ []) :
    ∃ (d : UInt8) (hd : isDigit d) (ds' : Digits), ds = .cons d hd ds' := by
  cases ds with
  | mk bytes digits =>
    cases bytes with
    | nil => exact absurd rfl h
    | cons d bytes =>
      have htail : ∀ b ∈ bytes, isDigit b := fun b hb => digits b (List.mem_cons_of_mem _ hb)
      exact ⟨d, digits d List.mem_cons_self, ⟨bytes, htail⟩, rfl⟩

theorem atoll_signed (s : Sign) {ds : Digits} (hne : ds.bytes ≠ [])
    (hrest : ∀ b ∈ rest.head?, isDigit b = false) :
    atoll (s.text ++ (ds.bytes ++ rest)) = stored (s.apply ds.value) := by
  have hvalue := digitsValue_zero ds hrest
  cases s with
  | none =>
    obtain ⟨d, hd, ds, rfl⟩ := Digits.exists_cons hne
    have hminus : d ≠ byte '-' := isDigit_ne hd rfl
    have hplus : d ≠ byte '+' := isDigit_ne hd rfl
    simp only [Digits.cons, List.cons_append] at hvalue
    simp only [Sign.text, Digits.cons, List.nil_append, List.cons_append, atoll, if_neg hminus,
      if_neg hplus, hvalue]
    rfl
  | plus =>
    have hminus : byte '+' ≠ byte '-' := by decide
    simp only [Sign.text, List.cons_append, List.nil_append, atoll, if_neg hminus, if_true, hvalue]
    rfl
  | minus =>
    simp only [Sign.text, List.cons_append, List.nil_append, atoll, if_true, hvalue]
    rfl

theorem atoll_digits (ds : Digits) : atoll ds.bytes = stored ds.value := by
  by_cases hne : ds.bytes = []
  · have hvalue : ds.value = 0 := by
      rw [Digits.value, hne]
      rfl
    rw [hne, hvalue]
    rfl
  · have h := @atoll_signed [] .none _ hne (by simp)
    rw [List.append_nil] at h
    exact h

theorem plainAtom_integer (s : Sign) {ds : Digits} (hne : ds.bytes ≠ []) :
    plainAtom (s.text ++ ds.bytes) = .ok (.number (.integer (stored (s.apply ds.value)))) := by
  have hvalue := @atoll_signed [] s _ hne (by simp)
  obtain ⟨d, hd, ds, rfl⟩ := Digits.exists_cons hne
  have hscan := scan_digits [] ds.digits false none
  have hread := plainAtom_digit s false hd ds.bytes
  rw [List.append_nil] at hvalue hscan
  rw [hscan, scan, finishAtom] at hread
  exact hread.trans (by rw [← hvalue]; rfl)

theorem plainAtom_fraction (s : Sign) {ns ds : Digits} (hne : ns.bytes ≠ []) :
    plainAtom (s.text ++ (ns.bytes ++ byte '/' :: ds.bytes)) =
      (do .ok (.number (← mkRational (stored (s.apply ns.value)) (stored ds.value)))) := by
  have hvalue := @atoll_signed (byte '/' :: ds.bytes) s _ hne (by simp; decide)
  obtain ⟨d, hd, ns, rfl⟩ := Digits.exists_cons hne
  have hslash : scan false none false (byte '/' :: ds.bytes) =
      scan false (some ds.bytes) false ds.bytes := rfl
  have hscan := scan_digits [] ds.digits false (some ds.bytes)
  have hread := plainAtom_digit s false hd (ns.bytes ++ byte '/' :: ds.bytes)
  rw [List.append_nil] at hscan
  rw [scan_digits _ ns.digits, hslash, hscan, scan, finishAtom, atoll_digits] at hread
  exact hread.trans (by rw [← hvalue]; rfl)

/-! ## Decimals that are read -/

theorem mark_facts (hc : IsMark c) : isDigit c = false ∧ c ≠ byte '.' ∧ c ≠ byte '/' ∧
    c ≠ byte '+' ∧ c ≠ byte '-' := by
  cases hc with
  | inl h => rw [h]; decide
  | inr h => rw [h]; decide

/-- The scanner goes over an exponent. -/
theorem scan_exponent (point : Bool) (e : Exponent) :
    scan point none false e.text = some (true, none) := by
  obtain ⟨hdigit, hpoint, hslash, -, -⟩ := mark_facts e.isMark
  have hmark : ¬ (false = true ∨ isDigit e.mark = true) := by simp [hdigit]
  have hexp : e.mark = byte 'e' ∨ e.mark = byte 'E' := e.isMark
  have hgo {next : UInt8} (ds : Digits) (hnext : next = byte '-' ∨ next = byte '+' ∨ isDigit next) :
      scan point none false (e.mark :: next :: ds.bytes) = some (true, none) := by
    have hds := scan_digits [] ds.digits true none
    rw [List.append_nil] at hds
    have hany : ((next :: ds.bytes).head?.any fun s => s = byte '-' || s = byte '+' || isDigit s) :=
      by simpa [or_assoc] using hnext
    rw [scan, if_neg hmark, if_neg (fun h => hpoint h.1), if_neg hslash, if_pos hexp,
      if_pos hany, scan, if_pos (Or.inl rfl), hds, scan]
  rw [Exponent.text]
  cases e.sign with
  | none =>
    obtain ⟨d, hd, ds, heq⟩ := Digits.exists_cons e.ne_nil
    rw [heq]
    exact hgo ds (Or.inr (Or.inr hd))
  | plus => exact hgo e.digits (Or.inr (Or.inl rfl))
  | minus => exact hgo e.digits (Or.inl rfl)

theorem scan_exponentText (point : Bool) (e : Option Exponent) :
    scan point none false (exponentText e) = some (point || e.isSome, none) := by
  cases e with
  | none => simp [exponentText, scan]
  | some e => simp [exponentText, scan_exponent]

theorem scan_partText (part : Option Digits) (e : Option Exponent) :
    scan false none false (partText part ++ exponentText e) =
      some (part.isSome || e.isSome, none) := by
  cases part with
  | none => exact scan_exponentText false e
  | some p =>
    have hscan : scan false none false (byte '.' :: (p.bytes ++ exponentText e)) =
        scan true none false (p.bytes ++ exponentText e) := rfl
    rw [partText, List.cons_append, hscan, scan_digits _ p.digits, scan_exponentText]
    rfl

theorem plainAtom_decimal (m : Decimal) : plainAtom m.text = .ok (.realNum m.text) := by
  by_cases hwhole : m.whole.bytes = []
  · obtain ⟨p, hp, hne⟩ := m.ne_nil.resolve_left (fun h => h hwhole)
    have hpart : m.part = some p := hp
    obtain ⟨d, hd, ds, rfl⟩ := Digits.exists_cons hne
    have htext : m.text =
        m.sign.text ++ (pointText true ++ d :: (ds.bytes ++ exponentText m.exponent)) := by
      rw [Decimal.text, hwhole, hpart]
      rfl
    rw [htext, plainAtom_digit _ _ hd, scan_digits _ ds.digits, scan_exponentText]
    rfl
  · obtain ⟨d, hd, ds, hds⟩ := Digits.exists_cons hwhole
    have htext : m.text = m.sign.text ++ (pointText false ++
        d :: (ds.bytes ++ (partText m.part ++ exponentText m.exponent))) := by
      rw [Decimal.text, hds]
      rfl
    have hmarked : (m.part.isSome || m.exponent.isSome) = true := Bool.or_eq_true_iff.mpr m.marked
    rw [htext, plainAtom_digit _ _ hd, scan_digits _ ds.digits, scan_partText, hmarked]
    rfl

theorem takeSign_text (s : Sign) (hrest : ∀ b ∈ rest.head?, ¬ IsSignByte b) :
    takeSign (s.text ++ rest) = (s, rest) := by
  cases s with
  | none =>
    cases rest with
    | nil => rfl
    | cons b rest =>
      have hb := hrest b rfl
      rw [IsSignByte, not_or] at hb
      rw [Sign.text, List.nil_append, takeSign, if_neg hb.2, if_neg hb.1]
  | plus => rfl
  | minus => rfl

theorem takeWhile_digits (ds : Digits) (hrest : ∀ b ∈ rest.head?, isDigit b = false) :
    (ds.bytes ++ rest).takeWhile isDigit = ds.bytes ∧ (ds.bytes ++ rest).dropWhile isDigit = rest := by
  have hnil : rest.takeWhile isDigit = [] ∧ rest.dropWhile isDigit = rest := by
    cases rest with
    | nil => exact ⟨rfl, rfl⟩
    | cons b rest =>
      have hb := hrest b rfl
      simp [hb]
  rw [List.takeWhile_append_of_pos ds.digits, List.dropWhile_append_of_pos ds.digits, hnil.1,
    hnil.2, List.append_nil]
  exact ⟨rfl, rfl⟩

theorem head_exponentText (e : Option Exponent) : ∀ b ∈ (exponentText e).head?, IsMark b := by
  cases e with
  | none => simp [exponentText]
  | some e =>
    intro b hb
    have hb : e.mark = b := Option.some.inj hb
    rw [← hb]
    exact e.isMark

theorem atofPart_text (part : Option Digits) (e : Option Exponent) :
    atofPart (partText part ++ exponentText e) = ((part.elim [] Digits.bytes), exponentText e) := by
  cases part with
  | none =>
    cases e with
    | none => rfl
    | some e => exact if_neg (mark_facts e.isMark).2.1
  | some p =>
    have hrest := takeWhile_digits p fun b hb => (mark_facts (head_exponentText e b hb)).1
    rw [partText, List.cons_append, atofPart, if_pos rfl, hrest.1, hrest.2]
    rfl

theorem atofExponent_text (e : Option Exponent) : atofExponent (exponentText e) = exponentValue e := by
  cases e with
  | none => rfl
  | some e =>
    have hsign : ∀ b ∈ e.digits.bytes.head?, ¬ IsSignByte b := fun b hb =>
      not_isSignByte_of_isDigit (e.digits.digits b (List.mem_of_mem_head? hb))
    rw [exponentText, Exponent.text, atofExponent, if_pos e.isMark, takeSign_text _ hsign,
      digitsValue_digits]
    rfl

/-- `atof` takes the number that a decimal stands for. -/
theorem atof_decimal (m : Decimal) : atof m.text = m.value := by
  have hhead : ∀ b ∈ (partText m.part ++ exponentText m.exponent).head?,
      isDigit b = false ∧ ¬ IsSignByte b := by
    intro b hb
    cases hpart : m.part with
    | none =>
      rw [hpart] at hb
      obtain ⟨hdigit, -, -, hplus, hminus⟩ := mark_facts (head_exponentText m.exponent b hb)
      exact ⟨hdigit, not_or.mpr ⟨hminus, hplus⟩⟩
    | some p =>
      rw [hpart] at hb
      have hb : byte '.' = b := Option.some.inj hb
      rw [← hb]
      decide
  have hsign : ∀ b ∈ (m.whole.bytes ++ (partText m.part ++ exponentText m.exponent)).head?,
      ¬ IsSignByte b := by
    intro b hb
    rw [List.head?_append] at hb
    cases hwhole : m.whole.bytes.head? with
    | none =>
      rw [hwhole] at hb
      exact (hhead b hb).2
    | some d =>
      rw [hwhole] at hb
      have hb : d = b := Option.some.inj hb
      rw [← hb]
      exact not_isSignByte_of_isDigit (m.whole.digits d (List.mem_of_mem_head? hwhole))
  have hrow := takeWhile_digits m.whole fun b hb => (hhead b hb).1
  have hne : ¬ (m.whole.bytes = [] ∧ m.part.elim [] Digits.bytes = []) := by
    intro h
    cases m.ne_nil with
    | inl hwhole => exact hwhole h.1
    | inr hpart =>
      obtain ⟨p, hp, hp'⟩ := hpart
      have hp : m.part = some p := hp
      rw [hp] at h
      exact hp' h.2
  rw [Decimal.text, atof, takeSign_text _ hsign]
  dsimp only
  rw [hrow.1, hrow.2, atofPart_text, if_neg hne, atofExponent_text, digitsValue_digits,
    Decimal.value]
  cases m.part with
  | none => simp [mantissa, digitsValue]
  | some p => simp [mantissa, digitsValue_digits]

/-! ## What every token is read as -/

/-- The numeral is a fraction that `mk_rational` cannot reduce. -/
def Traps : Numeral → Prop
  | .fraction sign ns ds _ _ => LeastFraction (stored (sign.apply ns.value)) (stored ds.value)
  | _ => False

theorem colonParts_eq (part : List UInt8) (hq : ¬ [byte ':', byte ':'] <:+: q) :
    colonParts part q = [part ++ q] := by
  induction q generalizing part with
  | nil => simp [colonParts]
  | cons c cs ih =>
    cases cs with
    | nil => rfl
    | cons d cs =>
      have hpair : ¬ (c = byte ':' ∧ d = byte ':') := by
        rintro ⟨rfl, rfl⟩
        exact hq ⟨[], cs, rfl⟩
      have htail : ¬ [byte ':', byte ':'] <:+: d :: cs := fun h => hq (h.trans ⟨[c], [], by simp⟩)
      rw [colonParts, if_neg hpair, ih _ htail, List.append_assoc, List.singleton_append]

theorem mkAtom_eq (hq : ¬ [byte ':', byte ':'] <:+: q) : mkAtom q = plainAtom q := by
  rw [mkAtom, colonParts_eq [] hq]
  rfl

/-- A numeral is read as the number that it stands for. -/
theorem plainAtom_numeral (m : Numeral) (htraps : ¬ Traps m) :
    ∃ a, plainAtom m.text = .ok a ∧ IsNumber a ∧ Denotes a m := by
  cases m with
  | integer sign ds hne =>
    refine ⟨_, plainAtom_integer sign hne, Or.inl ⟨_, rfl⟩, ?_⟩
    intro hfits
    rw [stored_eq hfits]
  | fraction sign ns ds hne hzero =>
    have hd : stored ds.value ≠ 0 := fun h => hzero (stored_natCast_eq_zero.mp h)
    rcases mkRational_eq (inInt64_stored (sign.apply ns.value)) (inInt64_stored ds.value) with
      hcase | hcase | hcase
    · exact absurd hcase.1 hd
    · exact absurd hcase.1 htraps
    · obtain ⟨-, -, v, hv⟩ := hcase
      refine ⟨.number v, ?_, Or.inl ⟨v, rfl⟩, ?_⟩
      · rw [Numeral.text, plainAtom_fraction sign hne, hv]
        rfl
      · intro hn hfits
        refine ⟨v, rfl, ?_⟩
        rw [stored_eq hn, stored_eq hfits] at hv
        rw [stored_eq hfits] at hd
        cases mkRational_agrees (n := sign.apply ns.value) hd with
        | inl hfault =>
          rw [hfault] at hv
          cases hv
        | inr hok =>
          obtain ⟨w, hw, -, -, hvalue, -⟩ := hok
          obtain rfl := Except.ok.inj (hw.symm.trans hv)
          exact hvalue
  | decimal m =>
    exact ⟨.realNum m.text, plainAtom_decimal m, Or.inr ⟨_, rfl⟩, m.text, rfl, atof_decimal m⟩

theorem plainAtom_zeroFraction (f : ZeroFraction) : plainAtom f.text = .error .error := by
  have hstored : stored f.ds.value = 0 := stored_natCast_eq_zero.mpr f.zero
  rw [ZeroFraction.text, plainAtom_fraction f.sign f.ne_nil, hstored]
  rfl

theorem slash_notMem_digits (ds : Digits) : byte '/' ∉ ds.bytes := fun h =>
  isDigit_ne (ds.digits _ h) rfl rfl

theorem slash_notMem_sign (s : Sign) : byte '/' ∉ s.text := by
  cases s <;> decide

theorem slash_notMem_decimal (m : Decimal) : byte '/' ∉ m.text := by
  have hpart : byte '/' ∉ partText m.part := by
    cases m.part with
    | none => simp [partText]
    | some p =>
      rw [partText, List.mem_cons, not_or]
      exact ⟨by decide, slash_notMem_digits p⟩
  have hexponent : byte '/' ∉ exponentText m.exponent := by
    cases m.exponent with
    | none => simp [exponentText]
    | some e =>
      rw [exponentText, Exponent.text, List.mem_cons, List.mem_append, not_or, not_or]
      exact ⟨fun h => (mark_facts e.isMark).2.2.1 h.symm, slash_notMem_sign e.sign,
        slash_notMem_digits e.digits⟩
  rw [Decimal.text, List.mem_append, List.mem_append, List.mem_append, not_or, not_or, not_or]
  exact ⟨slash_notMem_sign m.sign, slash_notMem_digits m.whole, hpart, hexponent⟩

/-- The slash divides a fraction in one way. -/
theorem ZeroFraction.not_isNumeral (f : ZeroFraction) : ¬ IsNumeral f.text := by
  intro h
  obtain ⟨m, hm⟩ := h
  have hslash : byte '/' ∈ f.text := by simp [ZeroFraction.text]
  cases m with
  | integer sign ds hne =>
    rw [← hm, Numeral.text, List.mem_append] at hslash
    cases hslash with
    | inl h => exact slash_notMem_sign sign h
    | inr h => exact slash_notMem_digits ds h
  | fraction sign ns ds hne hzero =>
    have hnum (s : Sign) (ns : Digits) : byte '/' ∉ s.text ++ ns.bytes := by
      rw [List.mem_append, not_or]
      exact ⟨slash_notMem_sign s, slash_notMem_digits ns⟩
    rw [Numeral.text, ZeroFraction.text, ← List.append_assoc, ← List.append_assoc] at hm
    have hds := (List.append_cons_inj_of_notMem (hnum _ _) (slash_notMem_digits _)).mp hm
    have hvalue : ds.value = f.ds.value := by rw [Digits.value, Digits.value, hds.2.2]
    exact hzero (hvalue.trans f.zero)
  | decimal m =>
    rw [← hm] at hslash
    exact slash_notMem_decimal m hslash

/-- How `mk_atom` reads a token: as a number exactly if it is a numeral, and then as the number that
the numeral stands for. A zero denominator is an error, no characters make the empty list, and
every other token is a symbol. -/
structure ReadOrRejected (q : List UInt8) : Prop where
  number_iff : (∃ a, mkAtom q = .ok a ∧ IsNumber a) ↔ IsNumeral q
  denotes : ∀ m : Numeral, m.text = q → ∀ a, mkAtom q = .ok a → Denotes a m
  zero : IsZeroFraction q → mkAtom q = .error .error
  empty : q = [] → mkAtom q = .ok .nil
  symbol : ¬ IsNumeral q → ¬ IsZeroFraction q → q ≠ [] → mkAtom q = .ok (.symbol q)

end Extempore.NumberSyntax
