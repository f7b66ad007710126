import Extempore.ExactNumbers
import Extempore.SchemeReader

/-!
# Texts of atoms

`atom2str` prints an exact number in decimal digits, a fraction as two numbers around a slash.
`mk_atom` decides by the characters of a text whether it is a number or a symbol.
-/

namespace Extempore.Atoms
open ExactNumbers TruncatedEuclid CheckedResults SchemeReader

/-- A character of a text. -/
def byte (c : Char) : UInt8 := UInt8.ofNat c.toNat

/-- `isdigit` -/
def isDigit (b : UInt8) : Bool := 48 ≤ b.toNat && b.toNat ≤ 57

/-! ## Decimal numbers -/

/-- The digits of a number. -/
def decimalNat (n : ℕ) : List UInt8 := (Nat.toDigits 10 n).map byte

/-- `sprintf` with `PRId64` -/
def decimal (z : ℤ) : List UInt8 :=
  if z < 0 then byte '-' :: decimalNat z.natAbs else decimalNat z.natAbs

/-- The value of a row of digits up to the first other character. -/
def digitsValue (v : ℕ) : List UInt8 → ℕ
  | [] => v
  | b :: bs => if isDigit b then digitsValue (10 * v + (b.toNat - 48)) bs else v

/-- `atoll` on a text without leading white space. A number that does not fit is replaced by the
nearest one that does. -/
def atoll : List UInt8 → ℤ
  | [] => 0
  | b :: bs =>
    let z : ℤ :=
      if b = byte '-' then -(digitsValue 0 bs : ℤ)
      else if b = byte '+' then digitsValue 0 bs
      else digitsValue 0 (b :: bs)
    max (-9223372036854775808) (min z 9223372036854775807)

theorem isDigit_byte {c : Char} (h : c.isDigit) : isDigit (byte c) ∧ (byte c).toNat = c.toNat := by
  have hc := h
  simp only [Char.isDigit, Bool.and_eq_true, decide_eq_true_eq, UInt32.le_iff_toNat_le] at hc
  have hlt : c.toNat < 256 := lt_of_le_of_lt hc.2 (by decide)
  have hb : (byte c).toNat = c.toNat := by
    rw [byte, UInt8.toNat_ofNat', Nat.mod_eq_of_lt hlt]
  refine ⟨?_, hb⟩
  simp only [isDigit, hb, Bool.and_eq_true, decide_eq_true_eq, Char.toNat]
  exact hc

theorem isDigit_of_mem_decimalNat {n : ℕ} {b : UInt8} (h : b ∈ decimalNat n) : isDigit b := by
  obtain ⟨c, hc, rfl⟩ := List.mem_map.mp h
  exact (isDigit_byte (Nat.isDigit_of_mem_toDigits (by decide) (by decide) hc)).1

theorem decimalNat_ne_nil (n : ℕ) : decimalNat n ≠ [] := by
  simp [decimalNat, Nat.toDigits_ne_nil]

/-- The digits of a number have its value; what follows does not count. -/
theorem digitsValue_decimalNat (n : ℕ) {rest : List UInt8}
    (hrest : ∀ b ∈ rest.head?, isDigit b = false) : digitsValue 0 (decimalNat n ++ rest) = n := by
  have hdigits (cs : List Char) (hcs : ∀ c ∈ cs, c.isDigit) (v : ℕ) :
      digitsValue v (cs.map byte ++ rest) = Nat.ofDigitChars 10 cs v := by
    induction cs generalizing v with
    | nil =>
      cases rest with
      | nil => rfl
      | cons b bs =>
        have hb := hrest b rfl
        simp [digitsValue, hb]
    | cons c cs ih =>
      have hc := isDigit_byte (hcs c List.mem_cons_self)
      rw [List.map_cons, List.cons_append, digitsValue, if_pos hc.1, hc.2,
        ih (fun d hd => hcs d (List.mem_cons_of_mem _ hd)), Nat.ofDigitChars_cons]
      rfl
  rw [decimalNat, hdigits _ fun c hc => Nat.isDigit_of_mem_toDigits (by decide) (by decide) hc]
  exact Nat.ofDigitChars_ten_toDigits

theorem atoll_decimal {z : ℤ} (hz : InInt64 z) {rest : List UInt8}
    (hrest : ∀ b ∈ rest.head?, isDigit b = false) : atoll (decimal z ++ rest) = z := by
  have hlow := hz.1
  have hhigh := hz.2
  rw [decimal]
  split
  · simp only [List.cons_append, atoll, if_true, digitsValue_decimalNat _ hrest]
    omega
  · cases hd : decimalNat z.natAbs with
    | nil => exact absurd hd (decimalNat_ne_nil _)
    | cons b bs =>
      have hb : isDigit b := isDigit_of_mem_decimalNat (hd ▸ List.mem_cons_self)
      have hminus : b ≠ byte '-' := by
        rintro rfl
        exact absurd hb (by decide)
      have hplus : b ≠ byte '+' := by
        rintro rfl
        exact absurd hb (by decide)
      have hvalue := digitsValue_decimalNat z.natAbs hrest
      rw [hd] at hvalue
      simp only [List.cons_append, atoll, if_neg hminus, if_neg hplus] at hvalue ⊢
      rw [hvalue]
      omega

/-! ## `mk_atom` -/

/-- What `mk_atom` makes. A fraction has been brought to its lowest form, a real number is kept as
its text, and of a name with two colons the part in front of them is a symbol. -/
inductive Atom where
  | nil
  | symbol (name : List UInt8)
  | number (v : Number)
  | realNum (text : List UInt8)
  | colonHook (member : Atom) (name : List UInt8)
  deriving DecidableEq, Repr

/-- The loop over the characters behind the first digit. The result is whether there is a decimal
point and what is behind the slash, if there is one; `none` is a symbol. The character behind an
exponent mark has been `seen`, and the loop goes over it. -/
def scan (hasDecPoint : Bool) (ratd : Option (List UInt8)) (seen : Bool) :
    List UInt8 → Option (Bool × Option (List UInt8))
  | [] => some (hasDecPoint, ratd)
  | c :: cs =>
    if seen ∨ isDigit c then scan hasDecPoint ratd false cs
    else if c = byte '.' ∧ hasDecPoint = false then scan true ratd false cs
    else if c = byte '/' then
      if ratd = none then scan hasDecPoint (some cs) false cs else none
    else if c = byte 'e' ∨ c = byte 'E' then
      if cs.head?.any fun s => s = byte '-' || s = byte '+' || isDigit s then
        scan true ratd true cs
      else none
    else none

/-- What is made of a text after the loop. -/
def finishAtom (q : List UInt8) : Option (Bool × Option (List UInt8)) → Except Fault Atom
  | none => .ok (.symbol q)
  | some (true, _) => .ok (.realNum q)
  | some (false, some ratd) => do .ok (.number (← mkRational (atoll q) (atoll ratd)))
  | some (false, none) => .ok (.number (.integer (atoll q)))

/-- A number, if the rest of the text begins with a digit. -/
def numberAtom (q : List UInt8) (hasDecPoint : Bool) : List UInt8 → Except Fault Atom
  | [] => .ok (.symbol q)
  | c :: cs => if isDigit c then finishAtom q (scan hasDecPoint none false cs) else .ok (.symbol q)

/-- The text `q` behind its sign. -/
def signedAtom (q : List UInt8) : List UInt8 → Except Fault Atom
  | [] => .ok (.symbol q)
  | c :: cs => if c = byte '.' then numberAtom q true cs else numberAtom q false (c :: cs)

/-- `mk_atom` on a text without two colons in a row. -/
def plainAtom : List UInt8 → Except Fault Atom
  | [] => .ok .nil
  | c :: cs =>
    if c = byte '+' ∨ c = byte '-' then signedAtom (c :: cs) cs
    else if c = byte '.' then numberAtom (c :: cs) true cs
    else numberAtom (c :: cs) false (c :: cs)

/-- The parts of a text between pairs of colons. -/
def colonParts (part : List UInt8) : List UInt8 → List (List UInt8)
  | [] => [part]
  | [c] => [part ++ [c]]
  | c :: d :: cs =>
    if c = byte ':' ∧ d = byte ':' then part :: colonParts [] cs
    else colonParts (part ++ [c]) (d :: cs)

def colonHooks : List (List UInt8) → Except Fault Atom
  | [] => .ok .nil
  | [q] => plainAtom q
  | q :: parts => do .ok (.colonHook (← colonHooks parts) q)

def mkAtom (q : List UInt8) : Except Fault Atom := colonHooks (colonParts [] q)

/-- `atom2str` of an exact number. -/
def atom2str : Number → List UInt8
  | .integer i => decimal i
  | .rational n d => decimal n ++ byte '/' :: decimal d

/-! ## Reading what was printed -/

theorem scan_digits {ds : List UInt8} (rest : List UInt8) (hds : ∀ b ∈ ds, isDigit b) (hasDecPoint : Bool)
    (ratd : Option (List UInt8)) :
    scan hasDecPoint ratd false (ds ++ rest) = scan hasDecPoint ratd false rest := by
  induction ds with
  | nil => rfl
  | cons b ds ih =>
    rw [List.cons_append, scan, if_pos (Or.inr (hds b List.mem_cons_self))]
    exact ih fun c hc => hds c (List.mem_cons_of_mem _ hc)

/-- A text that begins with a number is decided by what follows. -/
theorem plainAtom_decimal (z : ℤ) (rest : List UInt8) :
    plainAtom (decimal z ++ rest) = finishAtom (decimal z ++ rest) (scan false none false rest) := by
  cases hd : decimalNat z.natAbs with
  | nil => exact absurd hd (decimalNat_ne_nil _)
  | cons b bs =>
    have hdigits : ∀ c ∈ b :: bs, isDigit c := fun c hc => isDigit_of_mem_decimalNat (hd ▸ hc)
    have hb := hdigits b List.mem_cons_self
    have hscan := scan_digits rest (fun c hc => hdigits c (List.mem_cons_of_mem _ hc))
      false none
    have hne (c : Char) (hc : isDigit (byte c) = false) : b ≠ byte c := by
      rintro rfl
      rw [hc] at hb
      cases hb
    rw [decimal]
    split
    · rw [hd, List.cons_append, List.cons_append, plainAtom, if_pos (Or.inr rfl), signedAtom,
        if_neg (hne '.' rfl), numberAtom, if_pos hb, hscan]
    · have hsign : ¬ (b = byte '+' ∨ b = byte '-') := not_or.mpr ⟨hne '+' rfl, hne '-' rfl⟩
      rw [hd, List.cons_append, plainAtom, if_neg hsign, if_neg (hne '.' rfl), numberAtom,
        if_pos hb, hscan]

theorem colonParts_of_notMem {part q : List UInt8} (hq : byte ':' ∉ q) :
    colonParts part q = [part ++ q] := by
  induction q generalizing part with
  | nil => simp [colonParts]
  | cons c cs ih =>
    cases cs with
    | nil => rfl
    | cons d cs =>
      have hc : c ≠ byte ':' := fun h => hq (h ▸ List.mem_cons_self)
      rw [colonParts, if_neg fun h => hc h.1, ih fun h => hq (List.mem_cons_of_mem _ h)]
      simp

theorem mkAtom_of_notMem {q : List UInt8} (hq : byte ':' ∉ q) : mkAtom q = plainAtom q := by
  rw [mkAtom, colonParts_of_notMem hq]
  rfl

theorem colon_notMem_decimal (z : ℤ) : byte ':' ∉ decimal z := by
  have hdigits : byte ':' ∉ decimalNat z.natAbs := fun h =>
    absurd (isDigit_of_mem_decimalNat h) (by decide)
  rw [decimal]
  split
  · rw [List.mem_cons, not_or]
    exact ⟨by decide, hdigits⟩
  · exact hdigits

theorem mkAtom_decimal {z : ℤ} (hz : InInt64 z) :
    mkAtom (decimal z) = .ok (.number (.integer z)) := by
  have h := plainAtom_decimal z []
  have hvalue : atoll (decimal z ++ []) = z := atoll_decimal hz (by simp)
  rw [List.append_nil] at h hvalue
  rw [mkAtom_of_notMem (colon_notMem_decimal z), h]
  simp only [scan, finishAtom, hvalue]

/-- A fraction is read if its denominator is printed without a sign. -/
theorem mkAtom_fraction {n d : ℤ} (hn : InInt64 n) (hd : InInt64 d) :
    mkAtom (decimal n ++ byte '/' :: decimal d) =
      if 0 ≤ d then (do .ok (.number (← mkRational n d)))
      else .ok (.symbol (decimal n ++ byte '/' :: decimal d)) := by
  have hcolon : byte ':' ∉ decimal n ++ byte '/' :: decimal d := by
    rw [List.mem_append, List.mem_cons, not_or, not_or]
    exact ⟨colon_notMem_decimal n, by decide, colon_notMem_decimal d⟩
  have hslash : scan false none false (byte '/' :: decimal d) =
      scan false (some (decimal d)) false (decimal d) := rfl
  rw [mkAtom_of_notMem hcolon, plainAtom_decimal, hslash]
  have hvalue : atoll (decimal n ++ byte '/' :: decimal d) = n :=
    atoll_decimal hn (by simp; decide)
  split
  · rename_i hpos
    have hdec : decimal d = decimalNat d.natAbs := by rw [decimal, if_neg (by omega)]
    have hdigits : ∀ b ∈ decimal d, isDigit b := by
      rw [hdec]
      exact fun b => isDigit_of_mem_decimalNat
    have hscan := scan_digits [] hdigits false (some (decimal d))
    have hvalue' : atoll (decimal d ++ []) = d := atoll_decimal hd (by simp)
    rw [List.append_nil] at hscan hvalue'
    rw [hscan, scan, finishAtom, hvalue, hvalue']
  · rename_i hneg
    have hscan : scan false (some (decimal d)) false (decimal d) = none := by
      conv_lhs => arg 4; rw [decimal, if_pos (by omega)]
      rfl
    rw [hscan, finishAtom]

/-! ## Results of the arithmetic -/

/-- The text of the number is read as an equal number. -/
def ReadsBack (v : Number) : Prop :=
  ∃ w, mkAtom (atom2str v) = .ok (.number w) ∧ numEq wrap w v = .ok true

/-- A number with an integral value is an integer cell. -/
def IntegralIsInteger (v : Number) : Prop :=
  ∀ z : ℤ, value v = z → v = .integer z

/-- When a number at the end of an opcode's loop is made into a cell that survives. A fraction must
not be integral, and either its numerator and denominator have the same sign or Euclid's algorithm
takes an odd number of divisions for them. -/
def Survives : Number → Prop
  | .integer _ => True
  | .rational n d =>
    n = 0 ∨ ¬ d ∣ n ∧ (n.sign = d.sign ∨ Odd (divisions n.natAbs d.natAbs))

/-- What `mk_rational` makes of a numerator that is not zero. -/
theorem mkRational_eq_ok {n d : ℤ} {v : Number} (hn : n ≠ 0) (h : mkRational n d = .ok v) :
    d ≠ 0 ∧ Valid v ∧ value v = n / d ∧
      v = .rational (n.tdiv (euclid n d)) (d.tdiv (euclid n d)) := by
  have hd : d ≠ 0 := by
    rintro rfl
    cases h
  cases mkRational_agrees (n := n) hd with
  | inl hfault =>
    rw [hfault] at h
    cases h
  | inr hok =>
    obtain ⟨w, hw, -, hvalid, hvalue, hform⟩ := hok
    obtain rfl := Except.ok.inj (hw.symm.trans h)
    exact ⟨hd, hvalid, hvalue, hform hn⟩

/-- A fraction in lowest form with a positive denominator is made again. -/
theorem mkRational_lowest {n d : ℤ} (hn : InInt64 n) (hd : InInt64 d) (hn0 : n ≠ 0) (hpos : 0 < d)
    (hlowest : euclid n d = 1) : mkRational n d = .ok (.rational n d) := by
  have hg : ExactNumbers.gcd n d = .ok 1 := by
    rw [ExactNumbers.gcd, gcdLoop_eq le_rfl hn hd (by omega) (Or.inr (by omega)), hlowest]
  rw [mkRational, if_neg (by omega), if_neg hn0, hg]
  have hnq := quot_eq (b := 1) hn (by decide) (Or.inr (by decide))
  have hdq := quot_eq (b := 1) hd (by decide) (Or.inr (by decide))
  rw [Int.tdiv_one] at hnq hdq
  show (do .ok (Number.rational (← quot n 1) (← quot d 1))) = _
  rw [hnq, hdq]
  rfl

theorem readsBack_integer {i : ℤ} (hi : InInt64 i) : ReadsBack (.integer i) := by
  refine ⟨.integer i, mkAtom_decimal hi, ?_⟩
  rw [numEq, beq_self_eq_true]

/-- A fraction in its lowest form is read back just when its denominator is positive. -/
theorem readsBack_rational_iff {n d : ℤ} (hv : Valid (.rational n d)) (hn : n ≠ 0)
    (hlowest : euclid n d = 1) : ReadsBack (.rational n d) ↔ 0 < d := by
  have hread := mkAtom_fraction hv.1 hv.2.1
  rw [ReadsBack, atom2str, hread]
  split
  · rename_i hd
    have hpos : 0 < d := lt_of_le_of_ne hd hv.2.2.symm
    rw [mkRational_lowest hv.1 hv.2.1 hn hpos hlowest]
    refine iff_of_true ⟨.rational n d, rfl, ?_⟩ hpos
    rw [numEq, beq_self_eq_true, beq_self_eq_true]
    rfl
  · rename_i hd
    refine iff_of_false ?_ (by omega)
    intro h
    obtain ⟨w, hw, -⟩ := h
    cases hw

theorem value_eq_int_iff {n d : ℤ} (hd : d ≠ 0) : (∃ z : ℤ, (n : ℚ) / d = z) ↔ d ∣ n := by
  have hd' : (d : ℚ) ≠ 0 := Int.cast_ne_zero.mpr hd
  constructor
  · intro h
    obtain ⟨z, hz⟩ := h
    rw [div_eq_iff hd'] at hz
    exact ⟨z, by rw [mul_comm]; exact_mod_cast hz⟩
  · intro h
    obtain ⟨z, rfl⟩ := h
    refine ⟨z, ?_⟩
    push_cast
    exact mul_div_cancel_left₀ _ hd'

/-- The cell that is made of a result is printed and read back as an equal number, and is an
integer if its value is, just when the result survives. -/
theorem reads_back_iff {v c : Number} (hv : Valid v) (hc : mkNumber v = .ok c) :
    ReadsBack c ∧ IntegralIsInteger c ↔ Survives v := by
  cases v with
  | integer i =>
    cases hc
    refine iff_of_true ⟨readsBack_integer hv, ?_⟩ trivial
    intro z hz
    rw [value, Int.cast_inj] at hz
    rw [hz]
  | rational n d =>
    by_cases hn : n = 0
    · subst hn
      rw [mkNumber, mkRational, if_neg hv.2.2, if_pos rfl] at hc
      cases hc
      refine iff_of_true ⟨readsBack_integer ⟨by omega, by omega⟩, ?_⟩ (Or.inl rfl)
      intro z hz
      rw [value, Int.cast_inj] at hz
      rw [hz]
    · obtain ⟨hd, hvalid, hvalue, rfl⟩ := mkRational_eq_ok hn hc
      have hlowest := euclid_lowest (a := n) hd
      have hn' : n.tdiv (euclid n d) ≠ 0 := by
        intro h
        have hmul := Int.mul_tdiv_cancel_of_dvd (euclid_dvd_left n d)
        rw [h, mul_zero] at hmul
        exact hn hmul.symm
      have hintegral : IntegralIsInteger
          (.rational (n.tdiv (euclid n d)) (d.tdiv (euclid n d))) ↔ ¬ d ∣ n := by
        rw [← value_eq_int_iff hd, ← hvalue]
        simp [IntegralIsInteger]
      rw [readsBack_rational_iff hvalid hn' hlowest, hintegral, lowest_denominator_pos_iff hn hd,
        Survives, and_comm]
      simp [hn]

/-- Three halves. -/
theorem reads_back_three_halves :
    ReadsBack (.rational 3 2) ∧ IntegralIsInteger (.rational 3 2) := by
  have hv : Valid (.rational 6 4) := ⟨⟨by omega, by omega⟩, ⟨by omega, by omega⟩, by omega⟩
  apply (reads_back_iff hv (by decide +kernel)).mpr
  exact Or.inr ⟨by decide, Or.inl rfl⟩

/-- Minus three halves are stored and printed with a negative denominator, so that a symbol is read;
and the sum of two halves is not an integer cell. -/
theorem not_reads_back :
    mkNumber (.rational (-3) 2) = .ok (.rational 3 (-2)) ∧
      mkAtom (atom2str (.rational 3 (-2))) = .ok (.symbol (ascii "3/-2")) ∧
      ¬ ReadsBack (.rational 3 (-2)) ∧
      opExe wrap .add [.rational 1 2, .rational 1 2] = .ok (.rational 1 1) ∧
      ¬ IntegralIsInteger (.rational 1 1) := by
  have hsymbol : mkAtom (atom2str (.rational 3 (-2))) = .ok (.symbol (ascii "3/-2")) := by
    decide +kernel
  refine ⟨by decide +kernel, hsymbol, ?_, by decide +kernel, ?_⟩
  · intro h
    obtain ⟨w, hw, -⟩ := h
    rw [hsymbol] at hw
    cases hw
  · intro h
    have heq := h 1 (by norm_num [value])
    cases heq

end Extempore.Atoms
