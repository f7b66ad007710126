import Extempore.Atoms

/-!
# String constants

`impc:ir:make-const-string` emits a global constant for a string literal and keeps its name for the
next time. The length of the array comes from the literal with the escapes of two decimal digits
rewritten; LLVM undoes the escapes of the quoted text from left to right.
-/

namespace Extempore.StringConstants
open Atoms SchemeReader

/-! ## What LLVM reads -/

/-- `isxdigit` -/
def isHexDigit (b : UInt8) : Bool :=
  isDigit b || (65 ≤ b.toNat && b.toNat ≤ 70) || (97 ≤ b.toNat && b.toNat ≤ 102)

def hexDigitValue (b : UInt8) : ℕ :=
  if isDigit b then b.toNat - 48 else if b.toNat ≤ 70 then b.toNat - 55 else b.toNat - 87

/-- What stands for one byte of a constant. -/
inductive Piece where
  | doubled
  | hex (high low : UInt8)
  | plain (b : UInt8)
  deriving DecidableEq, Repr

/-- The pieces of a quoted text from left to right, each with the text behind it. -/
def pieces : List UInt8 → List (Piece × List UInt8)
  | [] => []
  | [a] => [(.plain a, [])]
  | [a, b] =>
    if a = 92 ∧ b = 92 then [(.doubled, [])] else (.plain a, [b]) :: pieces [b]
  | a :: b :: c :: rest =>
    if a = 92 ∧ b = 92 then (.doubled, c :: rest) :: pieces (c :: rest)
    else if a = 92 ∧ isHexDigit b ∧ isHexDigit c then (.hex b c, rest) :: pieces rest
    else (.plain a, b :: c :: rest) :: pieces (b :: c :: rest)

def Piece.byte : Piece → UInt8
  | doubled => 92
  | hex high low => UInt8.ofNat (16 * hexDigitValue high + hexDigitValue low)
  | plain b => b

/-- The bytes that LLVM's lexer makes of a quoted text. -/
def unescape (text : List UInt8) : List UInt8 := (pieces text).map fun u => u.1.byte

example : unescape (ascii "a\\\\41\\41\\x\\00") = ascii "a\\41A\\x" ++ [0] := by decide

/-- The text between the first two quotes of an instruction. -/
def quoted (ir : List UInt8) : List UInt8 := ((ir.dropWhile (· != 34)).drop 1).takeWhile (· != 34)

/-! ## `impc:ir:make-const-string` -/

/-- A match of the pattern `\\[0-9][0-9]` at the beginning of the text. -/
def startsEscape : List UInt8 → Bool
  | a :: b :: c :: _ => a == 92 && isDigit b && isDigit c
  | _ => false

/-- The text in front of the first match and the text behind it. -/
def findEscape : List UInt8 → Option (List UInt8 × List UInt8)
  | [] => none
  | a :: as =>
    if startsEscape (a :: as) then some ([], as.drop 2)
    else (findEscape as).map fun r => (a :: r.1, r.2)

/-- `(regex:replace-all str "\\\\[0-9][0-9]" "x")`, where a match is replaced as long as there is
one. -/
def replaceAll : ℕ → List UInt8 → List UInt8
  | 0, str => str
  | fuel + 1, str =>
    match findEscape str with
    | none => str
    | some (before, behind) => replaceAll fuel (before ++ 120 :: behind)

/-- A global constant as it is emitted. -/
structure Global where
  name : List UInt8
  lgth : ℕ
  ir : List UInt8
  deriving DecidableEq, Repr

/-- The alias table, the counter for names and the constants so far. -/
structure State where
  aliases : List UInt8 → Option (List UInt8)
  gstrcnt : ℕ
  globals : List Global

def start : State := ⟨fun _ => none, 0, []⟩

def lgth (ast : List UInt8) : ℕ := (replaceAll ast.length ast).length + 1

/-- The instruction for a constant in memory. -/
def compileStr (mcjit : Bool) (strname ast : List UInt8) : List UInt8 :=
  strname ++ (if mcjit then ascii " = hidden constant [" else
    ascii " = private unnamed_addr constant [") ++ decimalNat (lgth ast) ++ ascii " x i8] c\"" ++
      ast ++ ascii "\\00\""

/-- `impc:ir:make-const-string` without an output port and a module name. -/
def makeConstString (mcjit : Bool) (st : State) (ast : List UInt8) : State :=
  match st.aliases ast with
  | some _ => st
  | none =>
    let strname := ascii "@gs" ++ decimalNat st.gstrcnt
    { aliases := fun l => if l = ast then some strname else st.aliases l
      gstrcnt := st.gstrcnt + 1
      globals := ⟨strname, lgth ast, compileStr mcjit strname ast⟩ :: st.globals }

/-- The literals are compiled one after the other. -/
def compileAll (mcjit : Bool) (literals : List (List UInt8)) : State :=
  literals.foldl (makeConstString mcjit) start

/-- Every constant has the length that LLVM reads, every literal has a constant and no two literals
share one. -/
structure ConstantsExact (literals : List (List UInt8)) (st : State) : Prop where
  lgth_eq : ∀ g ∈ st.globals, g.lgth = (unescape (quoted g.ir)).length
  named : ∀ ast ∈ literals, ∃ g ∈ st.globals, st.aliases ast = some g.name
  injective : ∀ a b n, st.aliases a = some n → st.aliases b = some n → a = b

/-! ## Lengths -/

def escapes : List UInt8 → ℕ
  | [] => 0
  | a :: as => (startsEscape (a :: as)).toNat + escapes as

/-- Double backslashes, read from left to right. -/
def doubled (text : List UInt8) : ℕ := (pieces text).countP fun u => u.1 == .doubled

/-- Double backslashes with two decimal digits behind them. -/
def doubledDigits (text : List UInt8) : ℕ :=
  (pieces text).countP fun u => u.1 == .doubled && startsEscape (92 :: u.2)

def Piece.isLettered : Piece → Bool
  | hex high low => !(isDigit high && isDigit low)
  | _ => false

def Piece.isDecimal : Piece → Bool
  | hex high low => isDigit high && isDigit low
  | _ => false

@[simp] theorem isLettered_doubled : Piece.doubled.isLettered = false := rfl
@[simp] theorem isLettered_plain (b : UInt8) : (Piece.plain b).isLettered = false := rfl
@[simp] theorem isLettered_hex (high low : UInt8) :
    (Piece.hex high low).isLettered = !(isDigit high && isDigit low) := rfl
@[simp] theorem isDecimal_doubled : Piece.doubled.isDecimal = false := rfl
@[simp] theorem isDecimal_plain (b : UInt8) : (Piece.plain b).isDecimal = false := rfl
@[simp] theorem isDecimal_hex (high low : UInt8) :
    (Piece.hex high low).isDecimal = (isDigit high && isDigit low) := rfl

/-- Hexadecimal escapes with a letter. -/
def lettered (text : List UInt8) : ℕ := (pieces text).countP fun u => u.1.isLettered

def decimals (text : List UInt8) : ℕ := (pieces text).countP fun u => u.1.isDecimal

variable {text before behind ast : List UInt8} {a b c : UInt8} {mcjit : Bool}

theorem isHexDigit_ne (h : isHexDigit b) : b ≠ 92 := by
  rintro rfl
  exact absurd h (by decide)

theorem startsEscape_of_ne (h : a ≠ 92) (rest : List UInt8) : startsEscape (a :: rest) = false := by
  cases rest with
  | nil => rfl
  | cons b rest =>
    cases rest with
    | nil => rfl
    | cons c rest => simp [startsEscape, h]

/-- Each piece accounts for its bytes and for the escapes that begin in it. -/
theorem length_pieces (text : List UInt8) :
    text.length = (unescape text).length + doubled text + 2 * lettered text + 2 * decimals text ∧
      escapes text = doubledDigits text + decimals text := by
  simp only [unescape, doubled, lettered, decimals, doubledDigits]
  induction text using pieces.induct with
  | case1 => exact ⟨rfl, rfl⟩
  | case2 a => exact ⟨rfl, rfl⟩
  | case3 a b h =>
    obtain ⟨rfl, rfl⟩ := h
    exact ⟨rfl, rfl⟩
  | case4 a b h ih =>
    rw [pieces, if_neg h]
    refine ⟨?_, rfl⟩
    have hlen := ih.1
    simp at hlen ⊢
    omega
  | case5 a b c rest h ih =>
    rw [pieces, if_pos h]
    obtain ⟨rfl, rfl⟩ := h
    have hfirst : startsEscape (92 :: 92 :: c :: rest) = false := rfl
    constructor
    · have hlen := ih.1
      simp at hlen ⊢
      omega
    · rw [escapes, escapes, ih.2, hfirst, List.countP_cons, List.countP_cons]
      cases startsEscape (92 :: c :: rest)
      · simp
      · simp
        omega
  | case6 a b c rest hdoubled h ih =>
    rw [pieces, if_neg hdoubled, if_pos h]
    obtain ⟨rfl, hb, hc⟩ := h
    have hsecond : startsEscape (b :: c :: rest) = false := startsEscape_of_ne (isHexDigit_ne hb) _
    have hthird : startsEscape (c :: rest) = false := startsEscape_of_ne (isHexDigit_ne hc) _
    have hfirst : startsEscape (92 :: b :: c :: rest) = (isDigit b && isDigit c) := rfl
    constructor
    · have hlen := ih.1
      cases hdigits : isDigit b && isDigit c <;>
        simp [hdigits] at hlen ⊢ <;> omega
    · rw [escapes, escapes, escapes, hfirst, hsecond, hthird, ih.2, List.countP_cons,
        List.countP_cons]
      cases hdigits : isDigit b && isDigit c
      · simp [hdigits]
      · simp [hdigits]
        omega
  | case7 a b c rest hdoubled h ih =>
    rw [pieces, if_neg hdoubled, if_neg h]
    have hfirst : startsEscape (a :: b :: c :: rest) = false := by
      rw [startsEscape, Bool.eq_false_iff]
      intro hstarts
      simp only [Bool.and_eq_true, beq_iff_eq] at hstarts
      exact h ⟨hstarts.1.1, by simp [isHexDigit, hstarts.1.2], by simp [isHexDigit, hstarts.2]⟩
    constructor
    · have hlen := ih.1
      simp at hlen ⊢
      omega
    · rw [escapes, hfirst, ih.2, List.countP_cons, List.countP_cons]
      simp

theorem exists_of_startsEscape {as : List UInt8} (h : startsEscape (a :: as)) :
    a = 92 ∧ ∃ b c rest, as = b :: c :: rest ∧ isDigit b ∧ isDigit c := by
  cases as with
  | nil => cases h
  | cons b as =>
    cases as with
    | nil => cases h
    | cons c as =>
      simp only [startsEscape, Bool.and_eq_true, beq_iff_eq] at h
      exact ⟨h.1.1, b, c, as, rfl, h.1.2, h.2⟩

theorem findEscape_some (h : findEscape text = some (before, behind)) :
    ∃ b c, text = before ++ 92 :: b :: c :: behind ∧ isDigit b ∧ isDigit c := by
  induction text generalizing before with
  | nil => cases h
  | cons a as ih =>
    rw [findEscape] at h
    split at h
    · rename_i hstarts
      obtain ⟨rfl, b, c, rest, rfl, hb, hc⟩ := exists_of_startsEscape hstarts
      cases h
      exact ⟨b, c, rfl, hb, hc⟩
    · cases hfind : findEscape as with
      | none =>
        rw [hfind] at h
        cases h
      | some r =>
        rw [hfind] at h
        cases h
        obtain ⟨b, c, has, hb, hc⟩ := ih hfind
        refine ⟨b, c, ?_, hb, hc⟩
        rw [has]
        rfl

/-- A match overlaps no other, and none begins at the letter put in its place. -/
theorem escapes_replace (before behind : List UInt8) (hb : isDigit b) (hc : isDigit c) :
    escapes (before ++ 92 :: b :: c :: behind) = escapes (before ++ 120 :: behind) + 1 := by
  have hdigit {d : UInt8} (hd : isDigit d) : d ≠ 92 := by
    rintro rfl
    exact absurd hd (by decide)
  induction before with
  | nil =>
    have hstarts : startsEscape (92 :: b :: c :: behind) = true := by simp [startsEscape, hb, hc]
    simp only [List.nil_append, escapes, hstarts, startsEscape_of_ne (hdigit hb),
      startsEscape_of_ne (hdigit hc), startsEscape_of_ne (show (120 : UInt8) ≠ 92 by decide)]
    simp
    omega
  | cons a before ih =>
    have hwindow : startsEscape (a :: (before ++ 92 :: b :: c :: behind)) =
        startsEscape (a :: (before ++ 120 :: behind)) := by
      have h92 : isDigit 92 = false := rfl
      have h120 : isDigit 120 = false := rfl
      cases before with
      | nil => cases behind <;> simp [startsEscape, h92, h120]
      | cons x before =>
        cases before with
        | nil => simp [startsEscape, h92, h120]
        | cons y before => rfl
    rw [List.cons_append, List.cons_append, escapes, escapes, hwindow, ih, Nat.add_assoc]

theorem escapes_of_findEscape_none (h : findEscape text = none) : escapes text = 0 := by
  induction text with
  | nil => rfl
  | cons a as ih =>
    rw [findEscape] at h
    split at h
    · cases h
    · rename_i hstarts
      rw [Bool.not_eq_true] at hstarts
      rw [escapes, hstarts, ih (Option.map_eq_none_iff.mp h)]
      rfl

/-- All matches are replaced, and each makes the text shorter by two. -/
theorem length_replaceAll {fuel : ℕ} (hfuel : text.length ≤ fuel) :
    (replaceAll fuel text).length + 2 * escapes text = text.length := by
  induction fuel generalizing text with
  | zero =>
    obtain rfl : text = [] := List.length_eq_zero_iff.mp (by omega)
    rfl
  | succ fuel ih =>
    rw [replaceAll]
    cases hfind : findEscape text with
    | none => simp [escapes_of_findEscape_none hfind]
    | some r =>
      obtain ⟨b, c, rfl, hb, hc⟩ := findEscape_some hfind
      simp only [List.length_append, List.length_cons] at hfuel
      have hshort := @ih (r.1 ++ 120 :: r.2) (by simp; omega)
      rw [escapes_replace _ _ hb hc]
      simp only [List.length_append, List.length_cons] at hshort ⊢
      omega

theorem escapes_append_zero (ast : List UInt8) :
    escapes (ast ++ [92, 48, 48]) = escapes ast + 1 := by
  induction ast with
  | nil => rfl
  | cons a ast ih =>
    have hwindow : startsEscape (a :: (ast ++ [92, 48, 48])) = startsEscape (a :: ast) := by
      have h92 : isDigit 92 = false := rfl
      cases ast with
      | nil => simp [startsEscape, h92]
      | cons b ast =>
        cases ast with
        | nil => simp [startsEscape, h92]
        | cons c ast => rfl
    rw [List.cons_append, escapes, escapes, hwindow, ih, Nat.add_assoc]

/-- The escapes of a literal, with the final zero behind it, make up for the double backslashes:
these and twice the escapes with a letter are as many as twice the double backslashes in front of
two decimal digits. -/
def Balanced (ast : List UInt8) : Prop :=
  doubled (ast ++ [92, 48, 48]) + 2 * lettered (ast ++ [92, 48, 48]) =
    2 * doubledDigits (ast ++ [92, 48, 48])

instance (ast : List UInt8) : Decidable (Balanced ast) := inferInstanceAs (Decidable (_ = _))

theorem lgth_eq_iff (ast : List UInt8) :
    lgth ast = (unescape (ast ++ [92, 48, 48])).length ↔ Balanced ast := by
  have hreplace := length_replaceAll (le_refl ast.length)
  have hpieces := length_pieces (ast ++ [92, 48, 48])
  rw [escapes_append_zero, List.length_append] at hpieces
  have hthree : [92, 48, 48].length = 3 := rfl
  rw [lgth, Balanced]
  omega

/-! ## The constants of a run -/

theorem decimalNat_injective {n k : ℕ} (h : decimalNat n = decimalNat k) : n = k := by
  have hn := @digitsValue_decimalNat n [] (by simp)
  have hk := @digitsValue_decimalNat k [] (by simp)
  rw [← hn, ← hk, h]

/-- The name of a constant. -/
def strname (cnt : ℕ) : List UInt8 := ascii "@gs" ++ decimalNat cnt

theorem strname_injective {n k : ℕ} (h : strname n = strname k) : n = k :=
  decimalNat_injective (List.append_cancel_left h)

theorem quote_notMem_decimalNat (n : ℕ) : 34 ∉ decimalNat n := fun h =>
  absurd (isDigit_of_mem_decimalNat h) (by decide)

theorem quote_notMem_strname (cnt : ℕ) : 34 ∉ strname cnt := by
  rw [strname, List.mem_append, not_or]
  exact ⟨by decide, quote_notMem_decimalNat cnt⟩

theorem quoted_between {pre body : List UInt8} (hpre : 34 ∉ pre) (hbody : 34 ∉ body) :
    quoted (pre ++ 34 :: (body ++ [34])) = body := by
  have hne {l : List UInt8} (hl : 34 ∉ l) : ∀ b ∈ l, (b != 34) = true := by
    intro b hb
    rw [bne_iff_ne]
    rintro rfl
    exact hl hb
  rw [quoted, List.dropWhile_append_of_pos (hne hpre), List.dropWhile_cons_of_neg (by simp),
    List.drop_one, List.tail_cons, List.takeWhile_append_of_pos (hne hbody)]
  simp

/-- The quoted text of a constant is its literal and the final zero. -/
theorem quoted_compileStr (cnt : ℕ) (hast : 34 ∉ ast) :
    quoted (compileStr mcjit (strname cnt) ast) = ast ++ [92, 48, 48] := by
  have hkind : 34 ∉ (if mcjit then ascii " = hidden constant [" else
      ascii " = private unnamed_addr constant [") := by
    cases mcjit <;> decide
  have hbody : 34 ∉ ast ++ [92, 48, 48] := by
    rw [List.mem_append, not_or]
    exact ⟨hast, by decide⟩
  have hquote : ascii " x i8] c\"" = ascii " x i8] c" ++ [34] := by decide
  have hzero : ascii "\\00\"" = [92, 48, 48, 34] := by decide
  have hpre : 34 ∉ strname cnt ++ ((if mcjit then ascii " = hidden constant [" else
      ascii " = private unnamed_addr constant [") ++ (decimalNat (lgth ast) ++ ascii " x i8] c")) := by
    rw [List.mem_append, List.mem_append, List.mem_append, not_or, not_or, not_or]
    exact ⟨quote_notMem_strname cnt, hkind, quote_notMem_decimalNat _, by decide⟩
  have h := quoted_between hpre hbody
  rw [← h, compileStr, hquote, hzero]
  simp only [List.append_assoc, List.cons_append, List.nil_append]

def constant (mcjit : Bool) (cnt : ℕ) (ast : List UInt8) : Global :=
  ⟨strname cnt, lgth ast, compileStr mcjit (strname cnt) ast⟩

/-- What the table and the constants hold after the literals. -/
structure Holds (mcjit : Bool) (literals : List (List UInt8)) (st : State) : Prop where
  globals : ∀ g ∈ st.globals, ∃ ast ∈ literals, ∃ cnt, g = constant mcjit cnt ast
  covers : ∀ ast ∈ literals, ∃ n, st.aliases ast = some n
  numbered : ∀ ast n, st.aliases ast = some n →
    ∃ cnt < st.gstrcnt, n = strname cnt ∧ constant mcjit cnt ast ∈ st.globals
  injective : ∀ a b n, st.aliases a = some n → st.aliases b = some n → a = b

variable {literals : List (List UInt8)} {st : State}

theorem holds_start (mcjit : Bool) : Holds mcjit [] start where
  globals g hg := by cases hg
  covers ast hast := by cases hast
  numbered ast n h := by cases h
  injective a b n h := by cases h

/-- A known literal adds nothing. -/
theorem Holds.known {n : List UInt8} (h : Holds mcjit literals st) (halias : st.aliases ast = some n) :
    Holds mcjit (literals ++ [ast]) st where
  globals g hg := by
    obtain ⟨l, hl, hcnt⟩ := h.globals g hg
    exact ⟨l, List.mem_append_left _ hl, hcnt⟩
  covers l hl := by
    cases List.mem_append.mp hl with
    | inl hl => exact h.covers l hl
    | inr hl =>
      rw [List.mem_singleton.mp hl]
      exact ⟨n, halias⟩
  numbered := h.numbered
  injective := h.injective

/-- A new literal gets a name with the next number. -/
theorem Holds.new (h : Holds mcjit literals st) (ast : List UInt8) :
    Holds mcjit (literals ++ [ast])
      ⟨fun l => if l = ast then some (strname st.gstrcnt) else st.aliases l, st.gstrcnt + 1,
        constant mcjit st.gstrcnt ast :: st.globals⟩ where
  globals g hg := by
    cases List.mem_cons.mp hg with
    | inl hg => exact ⟨ast, by simp, _, hg⟩
    | inr hg =>
      obtain ⟨l, hl, hcnt⟩ := h.globals g hg
      exact ⟨l, List.mem_append_left _ hl, hcnt⟩
  covers l hl := by
    by_cases hast : l = ast
    · exact ⟨_, if_pos hast⟩
    · cases List.mem_append.mp hl with
      | inl hl =>
        obtain ⟨n, hn⟩ := h.covers l hl
        exact ⟨n, (if_neg hast).trans hn⟩
      | inr hl => exact absurd (List.mem_singleton.mp hl) hast
  numbered l n hl := by
    dsimp only at hl
    split at hl
    · rename_i hast
      rw [hast]
      exact ⟨st.gstrcnt, Nat.lt_succ_self _, (Option.some.inj hl).symm, List.mem_cons_self⟩
    · obtain ⟨cnt, hlt, hn, hmem⟩ := h.numbered l n hl
      exact ⟨cnt, Nat.lt_succ_of_lt hlt, hn, List.mem_cons_of_mem _ hmem⟩
  injective a b n ha hb := by
    have hfresh (l : List UInt8) : st.aliases l ≠ some (strname st.gstrcnt) := by
      intro hl
      obtain ⟨cnt, hlt, hn, -⟩ := h.numbered l _ hl
      exact absurd (strname_injective hn) (by omega)
    dsimp only at ha hb
    split at ha <;> split at hb
    · rename_i haast hbast
      rw [haast, hbast]
    · rw [← ha] at hb
      exact absurd hb (hfresh b)
    · rw [← hb] at ha
      exact absurd ha (hfresh a)
    · exact h.injective a b n ha hb

theorem Holds.step (h : Holds mcjit literals st) (ast : List UInt8) :
    Holds mcjit (literals ++ [ast]) (makeConstString mcjit st ast) := by
  rw [makeConstString]
  cases halias : st.aliases ast with
  | some n => exact h.known halias
  | none => exact h.new ast

theorem Holds.run (h : Holds mcjit literals st) (more : List (List UInt8)) :
    Holds mcjit (literals ++ more) (more.foldl (makeConstString mcjit) st) := by
  induction more generalizing literals st with
  | nil => rwa [List.append_nil]
  | cons ast more ih =>
    rw [List.foldl_cons, ← List.singleton_append, ← List.append_assoc]
    exact ih (h.step ast)

theorem holds_compileAll (mcjit : Bool) (literals : List (List UInt8)) :
    Holds mcjit literals (compileAll mcjit literals) :=
  (holds_start mcjit).run literals

end Extempore.StringConstants
