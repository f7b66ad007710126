import Extempore.SchemeReader

/-!
# Lexemes

A text consists of lexemes, with white space and comments in front of each of them. A lexeme that
is a token when it stands alone is one in front of all that it may be followed by.
-/

namespace Extempore.Lexemes
open SchemeReader

/-- Where the text of an atom ends. -/
def delimiters : String := "();\t\n\r "

/-- The text alone is read as an atom. -/
def IsAtomText (text : List UInt8) : Prop :=
  token ⟨[], text⟩ = (.atom, ⟨[], text⟩) ∧
    ∃ past, readstrUpto delimiters [] [] text = (text, ⟨past, []⟩)

/-- The text alone, behind a number sign, is read as a constant. -/
def IsSharpText (text : List UInt8) : Prop :=
  text ≠ [] ∧ token ⟨[], 35 :: text⟩ = (.sharpConst, ⟨[35], text⟩) ∧
    ∃ past, readstrUpto delimiters [] [] text = (text, ⟨past, []⟩)

/-- The characters between two quotes are read as the string `s`. -/
def IsStringText (raw s : List UInt8) : Prop :=
  ∃ past, readstrexp [] .ok 0 [] (raw ++ [34]) = (some s, ⟨past, []⟩)

/-- What `token` tells apart, with the characters that belong to it. A dot takes the white space
behind it along. The characters of a string are meant to be read as `s`, and a comma in front of a
name that begins with an at sign is meant to be an unquote. -/
inductive Lexeme where
  | lparen | rparen | quote | bquote | comma | atmark | vec
  | dot (c : UInt8) (h : c = 32 ∨ c = 10 ∨ c = 9)
  | atom (text : List UInt8) (h : IsAtomText text)
  | sharpConst (text : List UInt8) (h : IsSharpText text)
  | string (raw s : List UInt8)
  | splice (name : List UInt8)

def Lexeme.token : Lexeme → Token
  | .lparen => .lparen
  | .rparen => .rparen
  | .quote => .quote
  | .bquote => .bquote
  | .comma => .comma
  | .atmark => .atmark
  | .vec => .vec
  | .dot _ _ => .dot
  | .atom _ _ => .atom
  | .sharpConst _ _ => .sharpConst
  | .string _ _ => .dquote
  | .splice _ => .atmark

def Lexeme.bytes : Lexeme → List UInt8
  | .lparen => [40]
  | .rparen => [41]
  | .quote => [39]
  | .bquote => [96]
  | .comma => [44]
  | .atmark => [44, 64]
  | .vec => [35, 40]
  | .dot c _ => [46, c]
  | .atom text _ => text
  | .sharpConst text _ => 35 :: text
  | .string raw _ => 34 :: (raw ++ [34])
  | .splice name => 44 :: 64 :: name

/-- The characters that are still to be read after `token`. -/
def Lexeme.unread : Lexeme → List UInt8
  | .atom text _ | .sharpConst text _ => text
  | .string raw _ => raw ++ [34]
  | .splice name => name
  | _ => []

/-- A character in front of which an atom ends. -/
def isDelimiter (b : UInt8) : Bool := b ≠ 0 && b ≠ 255 && isOneOf delimiters (signedChar b)

def AtDelimiter (rest : List UInt8) : Prop := ∀ b ∈ rest.head?, isDelimiter b

/-- A backslash takes the delimiter along. -/
def TakesDelimiter (text : List UInt8) : Prop :=
  ∃ d, d ≠ 0 ∧ isOneOf delimiters (signedChar d) ∧ text = [92, d]

/-- The lexeme ends in front of `rest`. -/
def Lexeme.Follows (rest : List UInt8) : Lexeme → Prop
  | .atom text _ | .sharpConst text _ => AtDelimiter rest ∨ TakesDelimiter text
  | .comma => ∀ b ∈ rest.head?, b ≠ 64 ∧ b ≠ 255
  | _ => True

/-- White space or a comment line. -/
inductive Piece where
  | space (b : UInt8) (h : b ≠ 0 ∧ isSpaceOrCntrl (signedChar b))
  | comment (text : List UInt8) (h : ∀ b ∈ text, b ≠ 0 ∧ b ≠ 10 ∧ b ≠ 255)

def Piece.bytes : Piece → List UInt8
  | .space b _ => [b]
  | .comment text _ => 59 :: (text ++ [10])

def Piece.isComment : Piece → Bool
  | .space _ _ => false
  | .comment _ _ => true

abbrev Layout := List (List Piece × Lexeme)

def render (layout : Layout) : List UInt8 :=
  layout.flatMap fun p => p.1.flatMap Piece.bytes ++ p.2.bytes

/-- All lexemes end where the next one or the space in front of it begins. -/
def Joined : Layout → Prop
  | [] => True
  | (_, l) :: layout => l.Follows (render layout) ∧ Joined layout

/-! ## Lexemes in front of other text -/

/-- A character that is neither white space nor the end of the text. -/
structure Visible (b : UInt8) : Prop where
  ne_zero : b ≠ 0
  not_space : isSpaceOrCntrl (signedChar b) = false
  ne_eof : signedChar b ≠ eof

theorem skipspace_length (past xs : List UInt8) : (skipspace past xs).curr.length ≤ xs.length := by
  induction xs generalizing past with
  | nil => exact Nat.le_refl _
  | cons b xs ih =>
    rw [skipspace]
    split
    · exact Nat.le_refl _
    · split
      · exact Nat.le_succ_of_le (ih _)
      · rw [backchar]
        split
        · exact Nat.le_succ _
        · exact Nat.le_refl _

theorem skipspace_space {b : UInt8} (h : b ≠ 0 ∧ isSpaceOrCntrl (signedChar b)) (past xs : List UInt8) :
    skipspace past (b :: xs) = skipspace (b :: past) xs := by
  rw [skipspace, if_neg h.1, if_pos h.2]

theorem skipspace_visible {b : UInt8} (h : Visible b) (past xs : List UInt8) :
    skipspace past (b :: xs) = ⟨past, b :: xs⟩ := by
  rw [skipspace, if_neg h.ne_zero, if_neg (by simp [h.not_space]), backchar_cons h.ne_eof]

/-- `token` behind the first character `c`. -/
def tokenAt (c : ℤ) (pt : Port) : Token × Port :=
  if c = eof then (.eof, pt)
  else if c = chr '(' then (.lparen, pt)
  else if c = chr ')' then (.rparen, pt)
  else if c = chr '.' then
    if isOneOf " \n\t" (inchar pt).1 then (.dot, (inchar pt).2)
    else (.atom, backchar (backchar (inchar pt).2 (inchar pt).1) (chr '.'))
  else if c = chr '\'' then (.quote, pt)
  else if c = chr ';' then (.comment, pt)
  else if c = chr '"' then (.dquote, pt)
  else if c = chr '\x60' then (.bquote, pt)
  else if c = chr ',' then
    if (inchar pt).1 = chr '@' then (.atmark, (inchar pt).2)
    else (.comma, backchar (inchar pt).2 (inchar pt).1)
  else if c = chr '#' then
    if (inchar pt).1 = chr '(' then (.vec, (inchar pt).2)
    else if (inchar pt).1 = chr '!' then (.comment, (inchar pt).2)
    else if isOneOf " tfodxb\\" (inchar pt).1 then
      (.sharpConst, backchar (inchar pt).2 (inchar pt).1)
    else (.sharp, backchar (inchar pt).2 (inchar pt).1)
  else (.atom, backchar pt c)

theorem token_eq (pt : Port) :
    token pt = tokenAt (inchar (skipspace pt.past pt.curr)).1 (inchar (skipspace pt.past pt.curr)).2 :=
  rfl

/-- The first characters of atoms other than the dot. -/
def StartsAtom (c : ℤ) : Prop :=
  c ∉ [eof, chr '(', chr ')', chr '.', chr '\'', chr ';', chr '"', chr '\x60', chr ',', chr '#']

/-- A branch that makes another token was not taken. -/
theorem of_ite_token {p : Prop} [Decidable p] {t t' : Token} {pt pt' : Port} {b : Token × Port}
    (hne : t ≠ t') (h : (if p then (t, pt) else b) = (t', pt')) : ¬ p ∧ b = (t', pt') := by
  split at h
  · cases h
    exact absurd rfl hne
  · exact ⟨‹_›, h⟩

theorem tokenAt_atom {c : ℤ} {pt pt' : Port} (h : tokenAt c pt = (.atom, pt')) :
    StartsAtom c ∧ pt' = backchar pt c ∨
      c = chr '.' ∧ isOneOf " \n\t" (inchar pt).1 = false ∧
        pt' = backchar (backchar (inchar pt).2 (inchar pt).1) (chr '.') := by
  rw [tokenAt] at h
  obtain ⟨h₁, h⟩ := of_ite_token (by decide) h
  obtain ⟨h₂, h⟩ := of_ite_token (by decide) h
  obtain ⟨h₃, h⟩ := of_ite_token (by decide) h
  by_cases hdot : c = chr '.'
  · rw [if_pos hdot] at h
    obtain ⟨h₄, h⟩ := of_ite_token (by decide) h
    cases h
    exact Or.inr ⟨hdot, by simpa only [Bool.not_eq_true] using h₄, rfl⟩
  · rw [if_neg hdot] at h
    obtain ⟨h₅, h⟩ := of_ite_token (by decide) h
    obtain ⟨h₆, h⟩ := of_ite_token (by decide) h
    obtain ⟨h₇, h⟩ := of_ite_token (by decide) h
    obtain ⟨h₈, h⟩ := of_ite_token (by decide) h
    split at h
    · obtain ⟨-, h⟩ := of_ite_token (by decide) h
      cases h
    · split at h
      · obtain ⟨-, h⟩ := of_ite_token (by decide) h
        obtain ⟨-, h⟩ := of_ite_token (by decide) h
        obtain ⟨-, h⟩ := of_ite_token (by decide) h
        cases h
      · rename_i h₉ h₁₀
        cases h
        refine Or.inl ⟨?_, rfl⟩
        simp only [StartsAtom, List.mem_cons, List.not_mem_nil, or_false, not_or]
        exact ⟨h₁, h₂, h₃, hdot, h₅, h₆, h₇, h₈, h₉, h₁₀⟩

theorem tokenAt_startsAtom {c : ℤ} (h : StartsAtom c) (pt : Port) :
    tokenAt c pt = (.atom, backchar pt c) := by
  simp only [StartsAtom, List.mem_cons, List.not_mem_nil, or_false, not_or] at h
  obtain ⟨h₁, h₂, h₃, hdot, h₅, h₆, h₇, h₈, h₉, h₁₀⟩ := h
  rw [tokenAt, if_neg h₁, if_neg h₂, if_neg h₃, if_neg hdot, if_neg h₅, if_neg h₆, if_neg h₇,
    if_neg h₈, if_neg h₉, if_neg h₁₀]

/-- The characters `b` and `bs` begin an atom. -/
def AtomStart (b : UInt8) (bs : List UInt8) : Prop :=
  StartsAtom (signedChar b) ∨
    signedChar b = chr '.' ∧ ∃ c cs, bs = c :: cs ∧ c ≠ 0 ∧ isOneOf " \n\t" (signedChar c) = false

theorem AtomStart.ne_eof {b : UInt8} {bs : List UInt8} (h : AtomStart b bs) : signedChar b ≠ eof := by
  cases h with
  | inl hstart =>
    intro heq
    exact hstart (heq ▸ List.mem_cons_self)
  | inr hdot =>
    rw [hdot.1]
    decide

theorem AtomStart.append {b : UInt8} {bs : List UInt8} (h : AtomStart b bs) (rest : List UInt8) :
    AtomStart b (bs ++ rest) := by
  cases h with
  | inl hstart => exact Or.inl hstart
  | inr hdot =>
    obtain ⟨hb, c, cs, rfl, hc⟩ := hdot
    exact Or.inr ⟨hb, c, cs ++ rest, rfl, hc⟩

theorem isOneOf_eof (s : String) : isOneOf s eof = true := by
  rw [isOneOf, beq_self_eq_true, Bool.true_or]

/-- An atom is not moved past. -/
theorem token_atom {pt pt' : Port} (h : token pt = (.atom, pt')) :
    ∃ b bs, pt'.curr = b :: bs ∧ skipspace pt.past pt.curr = pt' ∧ b ≠ 0 ∧ AtomStart b bs := by
  rw [token_eq] at h
  generalize skipspace pt.past pt.curr = sp at h ⊢
  obtain ⟨past, curr⟩ := sp
  cases curr with
  | nil => cases h
  | cons b bs =>
    by_cases hb : b = 0
    · subst hb
      cases h
    · rw [inchar_cons hb] at h
      cases tokenAt_atom h with
      | inl hstart =>
        obtain ⟨hstart, rfl⟩ := hstart
        have hatom : AtomStart b bs := Or.inl hstart
        rw [backchar_cons hatom.ne_eof]
        exact ⟨b, bs, rfl, rfl, hb, hatom⟩
      | inr hdot =>
        obtain ⟨hdot, hnext, rfl⟩ := hdot
        have hne : chr '.' ≠ eof := by decide
        cases bs with
        | nil =>
          rw [inchar_nil, isOneOf_eof] at hnext
          cases hnext
        | cons c cs =>
          by_cases hc : c = 0
          · subst hc
            have heof := isOneOf_eof " \n\t"
            rw [show inchar ⟨b :: past, 0 :: cs⟩ = (eof, ⟨b :: past, 0 :: cs⟩) from rfl, heof] at hnext
            cases hnext
          · rw [inchar_cons hc] at hnext ⊢
            have hc' : signedChar c ≠ eof := by
              intro heq
              rw [heq, isOneOf_eof] at hnext
              cases hnext
            dsimp only
            rw [backchar_cons hc', backchar_cons hne]
            exact ⟨b, c :: cs, rfl, rfl, hb, Or.inr ⟨hdot, c, cs, rfl, hc, hnext⟩⟩

theorem token_of_atomStart {b : UInt8} {bs : List UInt8} (hb : Visible b) (h : AtomStart b bs)
    (past : List UInt8) : token ⟨past, b :: bs⟩ = (.atom, ⟨past, b :: bs⟩) := by
  rw [token_eq, skipspace_visible hb, inchar_cons hb.ne_zero]
  cases h with
  | inl hstart => rw [tokenAt_startsAtom hstart, backchar_cons hb.ne_eof]
  | inr hdot =>
    obtain ⟨hdot, c, cs, rfl, hc, hnext⟩ := hdot
    have hc' : signedChar c ≠ eof := by
      intro heq
      rw [heq, isOneOf_eof] at hnext
      cases hnext
    rw [hdot]
    show tokenAt (chr '.') ⟨b :: past, c :: cs⟩ = _
    rw [tokenAt, if_neg (by decide), if_neg (by decide), if_neg (by decide), if_pos rfl,
      inchar_cons hc, if_neg (by rw [hnext]; decide), backchar_cons hc', backchar_cons (by decide)]

/-- An atom is one whatever follows it. -/
theorem IsAtomText.start {text : List UInt8} (h : IsAtomText text) :
    ∃ b bs, text = b :: bs ∧ Visible b ∧ AtomStart b bs := by
  obtain ⟨b, bs, hcurr, hskip, hb, hstart⟩ := token_atom h.1
  obtain rfl : text = b :: bs := hcurr
  refine ⟨b, bs, rfl, ⟨hb, ?_, hstart.ne_eof⟩, hstart⟩
  cases hspace : isSpaceOrCntrl (signedChar b) with
  | false => rfl
  | true =>
    have hlen := skipspace_length [b] bs
    have hskip' : skipspace [b] bs = ⟨[], b :: bs⟩ := (skipspace_space ⟨hb, hspace⟩ [] bs).symm.trans hskip
    rw [hskip', List.length_cons] at hlen
    omega

theorem IsAtomText.token {text : List UInt8} (h : IsAtomText text) (past rest : List UInt8) :
    token ⟨past, text ++ rest⟩ = (.atom, ⟨past, text ++ rest⟩) := by
  obtain ⟨b, bs, rfl, hb, hstart⟩ := h.start
  exact token_of_atomStart hb (hstart.append rest) past

theorem ascii_backslash : ascii "\\" = [92] := by decide

/-- The characters of an atom: no delimiters, or a backslash and a delimiter. -/
def Body (text : List UInt8) : Prop :=
  (∀ b ∈ text, b ≠ 0 ∧ isOneOf delimiters (signedChar b) = false) ∧ text ≠ [92] ∨ TakesDelimiter text

theorem body_of_readstrUpto {past past' p xs : List UInt8}
    (h : readstrUpto delimiters past p xs = (p ++ xs, ⟨past', []⟩)) :
    (∀ b ∈ xs, b ≠ 0 ∧ isOneOf delimiters (signedChar b) = false) ∧ p ++ xs ≠ [92] ∨
      ∃ d, xs.getLast? = some d ∧ d ≠ 0 ∧ isOneOf delimiters (signedChar d) ∧ p ++ xs = [92, d] := by
  induction xs generalizing past p with
  | nil =>
    refine Or.inl ⟨by simp, ?_⟩
    rintro hp
    rw [List.append_nil] at hp
    subst hp
    cases h
  | cons b xs ih =>
    rw [readstrUpto] at h
    split at h
    · have hcurr := congrArg (fun r => r.2.curr) h
      cases hcurr
    · rename_i hb
      split at h
      · rename_i hone
        split at h
        · rename_i hp
          subst hp
          obtain rfl : xs = [] := by
            have hport := congrArg (fun r => r.2.curr) h
            exact hport
          exact Or.inr ⟨b, rfl, hb, hone, rfl⟩
        · have htext := congrArg (fun r => r.1.length) h
          simp at htext
      · rename_i hone
        have hone : isOneOf delimiters (signedChar b) = false := by simpa using hone
        have hp : p ++ [b] ++ xs = p ++ b :: xs := by simp
        rw [← hp] at h ⊢
        cases ih h with
        | inl hplain =>
          refine Or.inl ⟨?_, hplain.2⟩
          intro c hc
          cases hc with
          | head => exact ⟨hb, hone⟩
          | tail _ hc => exact hplain.1 c hc
        | inr hlast =>
          obtain ⟨d, hd, hrest⟩ := hlast
          refine Or.inr ⟨d, ?_, hrest⟩
          rw [List.getLast?_cons, hd]
          rfl

theorem body_of_text {text : List UInt8}
    (h : ∃ past, readstrUpto delimiters [] [] text = (text, ⟨past, []⟩)) : Body text := by
  obtain ⟨past, h⟩ := h
  cases body_of_readstrUpto (p := []) h with
  | inl hplain => exact Or.inl hplain
  | inr hlast =>
    obtain ⟨d, -, hd, hone, htext⟩ := hlast
    exact Or.inr ⟨d, hd, hone, htext⟩

theorem signedChar_ne_eof {b : UInt8} (h : b ≠ 255) : signedChar b ≠ eof := by
  have hlt := b.toNat_lt
  have hne : b.toNat ≠ 255 := fun heq => h (UInt8.toNat_inj.mp heq)
  rw [signedChar, eof]
  split <;> omega

theorem readstrUpto_of_plain {text rest : List UInt8} (past p : List UInt8)
    (hplain : ∀ b ∈ text, b ≠ 0 ∧ isOneOf delimiters (signedChar b) = false)
    (hne : p ++ text ≠ [92]) (hrest : AtDelimiter rest) :
    ∃ past', readstrUpto delimiters past p (text ++ rest) = (p ++ text, ⟨past', rest⟩) := by
  induction text generalizing past p with
  | nil =>
    rw [List.append_nil] at hne ⊢
    refine ⟨past, ?_⟩
    cases rest with
    | nil => exact congrArg (fun text => (text, (⟨past, []⟩ : Port))) (if_neg hne)
    | cons b rest =>
      have hb := hrest b rfl
      simp only [isDelimiter, Bool.and_eq_true, decide_eq_true_eq] at hb
      rw [List.nil_append, readstrUpto, if_neg hb.1.1, if_pos hb.2, ascii_backslash, if_neg hne,
        backchar_cons (signedChar_ne_eof hb.1.2)]
  | cons b text ih =>
    have hb := hplain b List.mem_cons_self
    obtain ⟨past', hread⟩ := ih (b :: past) (p ++ [b])
      (fun c hc => hplain c (List.mem_cons_of_mem _ hc)) (by simpa using hne)
    refine ⟨past', ?_⟩
    rw [List.cons_append, readstrUpto, if_neg hb.1, if_neg (by rw [hb.2]; decide), hread]
    simp

/-- A text without quotes, comments and dots in front is one of an atom. -/
theorem isAtomText_of_plain {text : List UInt8} (h : Plain text) : IsAtomText text := by
  obtain ⟨b, bs, rfl⟩ := List.exists_cons_of_ne_nil h.ne_nil
  have hplain : ∀ c ∈ b :: bs, c ≠ 0 ∧ isOneOf delimiters (signedChar c) = false := by
    intro c hc
    obtain ⟨h1, h2, hnot⟩ := h.bytes c hc
    refine ⟨(h.bytes c hc).ne_zero, ?_⟩
    simp only [List.mem_cons, List.not_mem_nil, or_false, not_or] at hnot
    rw [(h.bytes c hc).signedChar]
    simp [isOneOf, delimiters, chr, eof]
    omega
  have hne : b :: bs ≠ [92] := by
    intro heq
    have hb := h.bytes 92 (by simp [heq])
    exact absurd hb (by decide)
  have hb := h.bytes b List.mem_cons_self
  have hchar := hb.signedChar
  obtain ⟨h1, h2, hnot⟩ := hb
  have hvisible : Visible b := by
    refine ⟨(hplain b List.mem_cons_self).1, ?_, ?_⟩
    · rw [hchar]
      simp [isSpaceOrCntrl]
      omega
    · rw [hchar, eof]
      omega
  have hstart : AtomStart b bs := by
    have hdot : b.toNat ≠ 46 := fun hb => h.head (by simp [show b = 46 from UInt8.toNat_inj.mp hb])
    simp only [List.mem_cons, List.not_mem_nil, or_false, not_or] at hnot
    refine Or.inl ?_
    rw [StartsAtom, hchar]
    simp [chr, eof]
    omega
  refine ⟨token_of_atomStart hvisible hstart [], ?_⟩
  have hdelim : AtDelimiter [] := by simp [AtDelimiter]
  have hread := readstrUpto_of_plain [] [] hplain hne hdelim
  simpa using hread

theorem isAtomText_of_all {text : List UInt8} (hne : text ≠ []) (h : text.all fun b => PlainByte b)
    (hhead : text.head? ≠ some 46) : IsAtomText text := by
  rw [List.all_eq_true] at h
  exact isAtomText_of_plain ⟨hne, fun b hb => of_decide_eq_true (h b hb), hhead⟩

/-- An atom is read to its end. -/
theorem Body.readstrUpto {text rest : List UInt8} (h : Body text)
    (hrest : AtDelimiter rest ∨ TakesDelimiter text) (past : List UInt8) :
    ∃ past', readstrUpto delimiters past [] (text ++ rest) = (text, ⟨past', rest⟩) := by
  have htakes (htext : TakesDelimiter text) :
      ∃ past', SchemeReader.readstrUpto delimiters past [] (text ++ rest) = (text, ⟨past', rest⟩) := by
    obtain ⟨d, hd, hone, rfl⟩ := htext
    refine ⟨d :: 92 :: past, ?_⟩
    show SchemeReader.readstrUpto delimiters past [] (92 :: d :: rest) = _
    rw [SchemeReader.readstrUpto, if_neg (by decide), if_neg (by decide),
      SchemeReader.readstrUpto, if_neg hd, if_pos hone, if_pos (by decide)]
    rfl
  cases h with
  | inl hplain =>
    cases hrest with
    | inl hdelim => exact readstrUpto_of_plain past [] hplain.1 hplain.2 hdelim
    | inr htext => exact htakes htext
  | inr htext => exact htakes htext

theorem Body.head {c : UInt8} {cs : List UInt8} (h : Body (c :: cs)) : c ≠ 0 ∧ signedChar c ≠ eof := by
  cases h with
  | inl hplain =>
    obtain ⟨hzero, hone⟩ := hplain.1 c List.mem_cons_self
    refine ⟨hzero, fun heq => ?_⟩
    rw [heq, isOneOf_eof] at hone
    cases hone
  | inr htakes =>
    obtain ⟨d, -, -, heq⟩ := htakes
    cases heq
    decide

theorem IsSharpText.token {text : List UInt8} (h : IsSharpText text) (past rest : List UInt8) :
    token ⟨past, 35 :: (text ++ rest)⟩ = (.sharpConst, ⟨35 :: past, text ++ rest⟩) := by
  obtain ⟨hne, htoken, hread⟩ := h
  have hbody := body_of_text hread
  cases text with
  | nil => exact absurd rfl hne
  | cons c cs =>
    obtain ⟨hc, hc'⟩ := hbody.head
    have hvisible : Visible 35 := ⟨by decide, by decide, by decide⟩
    have hat (past xs : List UInt8) : SchemeReader.token ⟨past, 35 :: c :: xs⟩ =
        if signedChar c = chr '(' then (.vec, ⟨c :: 35 :: past, xs⟩)
        else if signedChar c = chr '!' then (.comment, ⟨c :: 35 :: past, xs⟩)
        else if isOneOf " tfodxb\\" (signedChar c) then
          (.sharpConst, backchar ⟨c :: 35 :: past, xs⟩ (signedChar c))
        else (.sharp, backchar ⟨c :: 35 :: past, xs⟩ (signedChar c)) := by
      rw [token_eq, skipspace_visible hvisible, inchar_cons (by decide)]
      show tokenAt 35 ⟨35 :: past, c :: xs⟩ = _
      rw [tokenAt, inchar_cons hc]
      rfl
    rw [hat] at htoken
    obtain ⟨h₁, htoken⟩ := of_ite_token (by decide) htoken
    obtain ⟨h₂, htoken⟩ := of_ite_token (by decide) htoken
    split at htoken
    · rename_i hsharp
      rw [List.cons_append, hat, if_neg h₁, if_neg h₂, if_pos hsharp, backchar_cons hc']
    · cases htoken

/-- A string ends at its quote, whatever follows. -/
theorem readstrexp_append {past past' p xs s : List UInt8} {state : StrState} {c1 : ℤ}
    (h : readstrexp past state c1 p xs = (some s, ⟨past', []⟩)) (past₁ rest : List UInt8) :
    ∃ past₂, readstrexp past₁ state c1 p (xs ++ rest) = (some s, ⟨past₂, rest⟩) := by
  induction xs generalizing past past₁ state c1 p with
  | nil => cases h
  | cons b xs ih =>
    rw [readstrexp.eq_def] at h
    rw [List.cons_append, readstrexp.eq_def]
    dsimp only at h ⊢
    by_cases hb : b = 0
    · rw [if_pos hb] at h
      cases h
    rw [if_neg hb] at h ⊢
    by_cases hend : signedChar b = eof ∨ p.length > strbuffSize - 1
    · rw [if_pos hend] at h
      cases h
    rw [if_neg hend] at h ⊢
    cases state with
    | ok =>
      dsimp only at h ⊢
      split at h
      · rename_i hbsl
        rw [if_pos hbsl]
        exact ih h _
      · rename_i hbsl
        rw [if_neg hbsl]
        split at h
        · rename_i hquote
          rw [if_pos hquote]
          cases h
          exact ⟨_, rfl⟩
        · rename_i hquote
          rw [if_neg hquote]
          exact ih h _
    | bsl =>
      dsimp only at h ⊢
      split at h
      · rename_i hx
        rw [if_pos hx]
        exact ih h _
      rename_i hx
      rw [if_neg hx]
      split at h
      · rename_i hn
        rw [if_pos hn]
        exact ih h _
      rename_i hn
      rw [if_neg hn]
      split at h
      · rename_i ht
        rw [if_pos ht]
        exact ih h _
      rename_i ht
      rw [if_neg ht]
      split at h
      · rename_i hr
        rw [if_pos hr]
        exact ih h _
      · rename_i hr
        rw [if_neg hr]
        exact ih h _
    | x1 =>
      dsimp only at h ⊢
      split at h
      · rename_i hdigit
        rw [if_pos hdigit]
        exact ih h _
      · cases h
    | x2 =>
      dsimp only at h ⊢
      split at h
      · rename_i hdigit
        rw [if_pos hdigit]
        exact ih h _
      · cases h

theorem IsStringText.readstrexp {raw s : List UInt8} (h : IsStringText raw s)
    (past rest : List UInt8) :
    ∃ past', readstrexp past .ok 0 [] (raw ++ 34 :: rest) = (some s, ⟨past', rest⟩) := by
  obtain ⟨past₀, h⟩ := h
  obtain ⟨past', hread⟩ := readstrexp_append h past rest
  exact ⟨past', by simpa using hread⟩

theorem token_of_visible {b : UInt8} (hb : Visible b) (past xs : List UInt8) :
    token ⟨past, b :: xs⟩ = tokenAt (signedChar b) ⟨b :: past, xs⟩ := by
  rw [token_eq, skipspace_visible hb, inchar_cons hb.ne_zero]

/-- A lexeme is the next token if it ends in front of the rest. -/
theorem token_lexeme {l : Lexeme} {rest : List UInt8} (h : l.Follows rest) (past : List UInt8) :
    ∃ past', token ⟨past, l.bytes ++ rest⟩ = (l.token, ⟨past', l.unread ++ rest⟩) := by
  cases l with
  | lparen => exact ⟨_, token_of_visible ⟨by decide, by decide, by decide⟩ past rest⟩
  | rparen => exact ⟨_, token_of_visible ⟨by decide, by decide, by decide⟩ past rest⟩
  | quote => exact ⟨_, token_of_visible ⟨by decide, by decide, by decide⟩ past rest⟩
  | bquote => exact ⟨_, token_of_visible ⟨by decide, by decide, by decide⟩ past rest⟩
  | atmark => exact ⟨_, token_of_visible ⟨by decide, by decide, by decide⟩ past (64 :: rest)⟩
  | vec => exact ⟨_, token_of_visible ⟨by decide, by decide, by decide⟩ past (40 :: rest)⟩
  | comma =>
    refine ⟨44 :: past, (token_of_visible ⟨by decide, by decide, by decide⟩ past rest).trans ?_⟩
    have hcomma (c : ℤ) (pt : Port) (hc : c ≠ 64) (hin : inchar ⟨44 :: past, rest⟩ = (c, pt)) :
        tokenAt (signedChar 44) ⟨44 :: past, rest⟩ = (.comma, backchar pt c) := by
      show (if (inchar ⟨44 :: past, rest⟩).1 = chr '@' then _ else _) = _
      rw [hin]
      exact if_neg hc
    cases rest with
    | nil => exact hcomma eof _ (by decide) rfl
    | cons b rest =>
      obtain ⟨hat, heof⟩ := h b rfl
      by_cases hb : b = 0
      · subst hb
        exact hcomma eof _ (by decide) rfl
      · have hc : signedChar b ≠ 64 := by
          have hne : b.toNat ≠ 64 := fun heq => hat (UInt8.toNat_inj.mp heq)
          rw [signedChar]
          have hlt := b.toNat_lt
          split <;> omega
        rw [hcomma _ _ hc (inchar_cons hb), backchar_cons (signedChar_ne_eof heof)]
        rfl
  | splice name => exact ⟨_, token_of_visible ⟨by decide, by decide, by decide⟩ past (64 :: (name ++ rest))⟩
  | dot c hc =>
    rcases hc with rfl|rfl|rfl
    all_goals exact ⟨_, token_of_visible ⟨by decide, by decide, by decide⟩ past _⟩
  | atom text ht => exact ⟨past, ht.token past rest⟩
  | sharpConst text ht => exact ⟨35 :: past, ht.token past rest⟩
  | string raw s =>
    have hvisible : Visible 34 := ⟨by decide, by decide, by decide⟩
    have hbytes : (Lexeme.string raw s).bytes ++ rest = 34 :: (raw ++ [34] ++ rest) := rfl
    refine ⟨34 :: past, ?_⟩
    rw [hbytes, token_of_visible hvisible]
    rfl

/-! ## Space in front of a lexeme -/

theorem token_space {b : UInt8} (h : b ≠ 0 ∧ isSpaceOrCntrl (signedChar b)) (past xs : List UInt8) :
    token ⟨past, b :: xs⟩ = token ⟨b :: past, xs⟩ := by
  rw [token_eq, token_eq, skipspace_space h]

theorem token_comment (past xs : List UInt8) :
    token ⟨past, 59 :: xs⟩ = (.comment, ⟨59 :: past, xs⟩) :=
  token_of_visible ⟨by decide, by decide, by decide⟩ past xs

theorem skipLine_comment {text : List UInt8} (h : ∀ b ∈ text, b ≠ 0 ∧ b ≠ 10 ∧ b ≠ 255)
    (past rest : List UInt8) : ∃ past', skipLine past (text ++ 10 :: rest) = ⟨past', rest⟩ := by
  induction text generalizing past with
  | nil => exact ⟨10 :: past, rfl⟩
  | cons b text ih =>
    obtain ⟨hzero, hline, heof⟩ := h b List.mem_cons_self
    obtain ⟨past', hskip⟩ := ih (fun c hc => h c (List.mem_cons_of_mem _ hc)) (b :: past)
    refine ⟨past', ?_⟩
    have hne : ¬ (signedChar b = chr '\n' ∨ signedChar b = eof) := by
      rintro (heq|heq)
      · have hne : b.toNat ≠ 10 := fun h10 => hline (UInt8.toNat_inj.mp h10)
        have hlt := b.toNat_lt
        rw [signedChar, show chr '\n' = 10 from rfl] at heq
        split at heq <;> omega
      · exact signedChar_ne_eof heof heq
    rw [List.cons_append, skipLine, if_neg hzero, if_neg hne, hskip]

theorem Lexeme.bytes_head (l : Lexeme) : ∃ b bs, l.bytes = b :: bs ∧ Visible b := by
  cases l with
  | atom text h =>
    obtain ⟨b, bs, htext, hb, -⟩ := h.start
    exact ⟨b, bs, htext, hb⟩
  | _ => exact ⟨_, _, rfl, by decide, by decide, by decide⟩

end Extempore.Lexemes
