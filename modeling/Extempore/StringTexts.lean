import Extempore.Lexemes

/-!
# Texts of strings

A string is printed as it is, or with slashes by `printslashstring`. What `readstrexp` makes of
such a text is the string, if the text ends where it is meant to.
-/

namespace Extempore.StringTexts
open SchemeReader Lexemes

def hexDigit (d : ℕ) : UInt8 := if d < 10 then UInt8.ofNat (d + 48) else UInt8.ofNat (d - 10 + 65)

/-- What `printslashstring` writes for one character. -/
def slashed (b : UInt8) : List UInt8 :=
  if b = 255 ∨ b = 34 ∨ b < 32 ∨ b = 92 then
    92 ::
      (if b = 34 then [34]
      else if b = 10 then ascii "n"
      else if b = 9 then ascii "t"
      else if b = 13 then ascii "r"
      else if b = 92 then [92]
      else ascii "x" ++ [hexDigit (b.toNat / 16), hexDigit (b.toNat % 16)])
  else [b]

/-- `printslashstring` -/
def printslashstring (s : List UInt8) : List UInt8 := 34 :: (s.flatMap slashed ++ [34])

example : printslashstring (ascii "a\"\n\x01") = ascii "\"a\\\"\\n\\x01\"" := by decide

/-! ## What is read -/

/-- How the string `t` comes from the characters `raw` in front of its closing quote. -/
structure Decodes (state : StrState) (raw t : List UInt8) : Prop where
  quotes : raw.count 34 ≤ t.count 34
  length_le : t.length ≤ raw.length
  ne_eof : 255 ∉ raw
  verbatim : state = .ok → t.length = raw.length → 34 ∉ raw ∧ 92 ∉ raw

variable {past past' p xs rest raw s t : List UInt8} {state : StrState} {c1 : ℤ} {pt : Port} {b : UInt8}

/-- A character after which the reader goes on. -/
structure Goes (b : UInt8) (p : List UInt8) : Prop where
  ne_zero : b ≠ 0
  ne_eof : signedChar b ≠ eof
  fits : p.length < strbuffSize

theorem Goes.not_end (h : Goes b p) : ¬ (signedChar b = eof ∨ p.length > strbuffSize - 1) := by
  have hfits := h.fits
  rw [not_or]
  exact ⟨h.ne_eof, by omega⟩

theorem goes_of_not_end (hzero : b ≠ 0)
    (hend : ¬ (signedChar b = eof ∨ p.length > strbuffSize - 1)) : Goes b p := by
  have hpos : 0 < strbuffSize := by decide
  rw [not_or] at hend
  exact ⟨hzero, hend.1, by omega⟩

theorem goes_of_some (h : readstrexp past state c1 p (b :: xs) = (some s, pt)) : Goes b p := by
  rw [readstrexp.eq_def] at h
  dsimp only at h
  split at h
  · cases h
  · split at h
    · cases h
    · rename_i hb hend
      exact goes_of_not_end hb hend

theorem Goes.ok (h : Goes b p) (xs : List UInt8) : readstrexp past .ok c1 p (b :: xs) =
    if signedChar b = chr '\\' then readstrexp (b :: past) .bsl c1 p xs
    else if signedChar b = chr '"' then (some p, ⟨b :: past, xs⟩)
    else readstrexp (b :: past) .ok c1 (p ++ [b]) xs := by
  rw [readstrexp.eq_def]
  dsimp only
  rw [if_neg h.ne_zero, if_neg h.not_end]

theorem Goes.bsl (h : Goes b p) (xs : List UInt8) : readstrexp past .bsl c1 p (b :: xs) =
    if signedChar b = chr 'x' ∨ signedChar b = chr 'X' then readstrexp (b :: past) .x1 0 p xs
    else if signedChar b = chr 'n' then readstrexp (b :: past) .ok c1 (p ++ ascii "\n") xs
    else if signedChar b = chr 't' then readstrexp (b :: past) .ok c1 (p ++ ascii "\t") xs
    else if signedChar b = chr 'r' then readstrexp (b :: past) .ok c1 (p ++ ascii "\r") xs
    else readstrexp (b :: past) .ok c1 (p ++ [b]) xs := by
  rw [readstrexp.eq_def]
  dsimp only
  rw [if_neg h.ne_zero, if_neg h.not_end]

/-- The value of a hexadecimal digit, added to those before. -/
def hexValue (c1 c : ℤ) : ℤ :=
  if c ≤ chr '9' then c1 * 16 + c - chr '0' else c1 * 16 + c - chr 'A' + 10

theorem Goes.x1 (h : Goes b p) (xs : List UInt8) : readstrexp past .x1 c1 p (b :: xs) =
    if chr '0' ≤ toupper (signedChar b) ∧ toupper (signedChar b) ≤ chr 'F' then
      readstrexp (b :: past) .x2 (hexValue c1 (toupper (signedChar b))) p xs
    else (none, ⟨b :: past, xs⟩) := by
  rw [readstrexp.eq_def]
  dsimp only
  rw [if_neg h.ne_zero, if_neg h.not_end]
  rfl

theorem Goes.x2 (h : Goes b p) (xs : List UInt8) : readstrexp past .x2 c1 p (b :: xs) =
    if chr '0' ≤ toupper (signedChar b) ∧ toupper (signedChar b) ≤ chr 'F' then
      readstrexp (b :: past) .ok (hexValue c1 (toupper (signedChar b)))
        (p ++ [UInt8.ofNat (hexValue c1 (toupper (signedChar b)) % 256).toNat]) xs
    else (none, ⟨b :: past, xs⟩) := by
  rw [readstrexp.eq_def]
  dsimp only
  rw [if_neg h.ne_zero, if_neg h.not_end]
  rfl

theorem signedChar_inj {b c : UInt8} (h : signedChar b = signedChar c) : b = c := by
  have hb := b.toNat_lt
  have hc := c.toNat_lt
  rw [signedChar, signedChar] at h
  refine UInt8.toNat_inj.mp ?_
  split at h <;> split at h <;> omega

/-- One more character of the text and of the string. -/
theorem Decodes.cons {c d : UInt8} {state' : StrState} (h : Decodes state raw t) (hc : c ≠ 255)
    (hquote : c = 34 → d = 34)
    (hverbatim : state' = .ok → state = .ok ∧ c ≠ 34 ∧ c ≠ 92) :
    Decodes state' (c :: raw) (d :: t) where
  quotes := by
    have hq := h.quotes
    simp only [List.count_cons, beq_iff_eq]
    split
    · rename_i hc
      rw [if_pos (hquote hc)]
      omega
    · split <;> omega
  length_le := Nat.succ_le_succ h.length_le
  ne_eof := by
    rw [List.mem_cons, not_or]
    exact ⟨hc.symm, h.ne_eof⟩
  verbatim hstate hlen := by
    obtain ⟨hok, h34, h92⟩ := hverbatim hstate
    obtain ⟨hq, hb⟩ := h.verbatim hok (Nat.succ_inj.mp hlen)
    rw [List.mem_cons, List.mem_cons, not_or, not_or]
    exact ⟨⟨h34.symm, hq⟩, h92.symm, hb⟩

/-- A character of the text that is not one of the string. -/
theorem Decodes.skip {c : UInt8} {state' : StrState} (h : Decodes state raw t) (hc : c ≠ 255)
    (hquote : c ≠ 34) : Decodes state' (c :: raw) t where
  quotes := by
    rw [List.count_cons_of_ne hquote]
    exact h.quotes
  length_le := Nat.le_succ_of_le h.length_le
  ne_eof := by
    rw [List.mem_cons, not_or]
    exact ⟨hc.symm, h.ne_eof⟩
  verbatim _ hlen := by
    have hle := h.length_le
    rw [List.length_cons] at hlen
    omega

/-- What is read is decoded from the characters in front of the closing quote. -/
theorem readstrexp_some (h : readstrexp past state c1 p xs = (some s, pt)) :
    ∃ raw t, xs = raw ++ 34 :: pt.curr ∧ s = p ++ t ∧ s.length < strbuffSize ∧
      Decodes state raw t := by
  induction xs generalizing past state c1 p with
  | nil => cases h
  | cons b xs ih =>
    have hb := goes_of_some h
    have hb255 : b ≠ 255 := by
      rintro rfl
      exact hb.ne_eof rfl
    have hcons {past' p' : List UInt8} {state' : StrState} {c1' : ℤ} {d : UInt8}
        (hread : readstrexp past' state' c1' p' xs = (some s, pt)) (hp : p' = p ++ [d])
        (hquote : b = 34 → d = 34)
        (hverbatim : state = .ok → state' = .ok ∧ b ≠ 34 ∧ b ≠ 92) :
        ∃ raw t, b :: xs = raw ++ 34 :: pt.curr ∧ s = p ++ t ∧ s.length < strbuffSize ∧
          Decodes state raw t := by
      obtain ⟨raw, t, rfl, rfl, hlen, hdecodes⟩ := ih hread
      subst hp
      refine ⟨b :: raw, d :: t, rfl, by simp, by simpa using hlen, ?_⟩
      exact hdecodes.cons hb255 hquote hverbatim
    have hskip {past' : List UInt8} {state' : StrState} {c1' : ℤ}
        (hread : readstrexp past' state' c1' p xs = (some s, pt)) (hquote : b ≠ 34) :
        ∃ raw t, b :: xs = raw ++ 34 :: pt.curr ∧ s = p ++ t ∧ s.length < strbuffSize ∧
          Decodes state raw t := by
      obtain ⟨raw, t, rfl, rfl, hlen, hdecodes⟩ := ih hread
      exact ⟨b :: raw, t, rfl, rfl, hlen, hdecodes.skip hb255 hquote⟩
    cases state with
    | ok =>
      rw [hb.ok] at h
      split at h
      · rename_i hslash
        obtain rfl : b = 92 := signedChar_inj hslash
        exact hskip h (by decide)
      · rename_i hslash
        split at h
        · rename_i hquote
          obtain rfl : b = 34 := signedChar_inj hquote
          cases h
          refine ⟨[], [], rfl, by simp, hb.fits, ?_⟩
          exact ⟨le_rfl, le_rfl, by simp, fun _ _ => ⟨by simp, by simp⟩⟩
        · rename_i hquote
          have hb34 : b ≠ 34 := by
            rintro rfl
            exact hquote rfl
          have hb92 : b ≠ 92 := by
            rintro rfl
            exact hslash rfl
          exact hcons h rfl (fun heq => absurd heq hb34) fun _ => ⟨rfl, hb34, hb92⟩
    | bsl =>
      have hne {c : Char} (hchar : signedChar b = chr c) (hc : signedChar 34 ≠ chr c) : b ≠ 34 := by
        rintro rfl
        exact hc hchar
      have hbsl : StrState.bsl ≠ .ok := by decide
      rw [hb.bsl] at h
      split at h
      · rename_i hx
        refine hskip h ?_
        cases hx with
        | inl hx => exact hne hx (by decide)
        | inr hx => exact hne hx (by decide)
      split at h
      · rename_i hn
        exact hcons h rfl (fun heq => absurd heq (hne hn (by decide))) fun hok => absurd hok hbsl
      split at h
      · rename_i ht
        exact hcons h rfl (fun heq => absurd heq (hne ht (by decide))) fun hok => absurd hok hbsl
      split at h
      · rename_i hr
        exact hcons h rfl (fun heq => absurd heq (hne hr (by decide))) fun hok => absurd hok hbsl
      · exact hcons h rfl id fun hok => absurd hok hbsl
    | x1 =>
      rw [hb.x1] at h
      split at h
      · rename_i hdigit
        refine hskip h ?_
        rintro rfl
        exact absurd hdigit (by decide)
      · cases h
    | x2 =>
      rw [hb.x2] at h
      split at h
      · rename_i hdigit
        refine hcons h rfl ?_ fun hok => absurd hok (by decide)
        rintro rfl
        exact absurd hdigit (by decide)
      · cases h

/-! ## Strings that are printed as they are -/

/-- The characters stand for themselves between quotes, and the string buffer holds them. -/
def Verbatim (s : List UInt8) : Prop :=
  s.length < strbuffSize ∧ ∀ b ∈ s, b ≠ 34 ∧ b ≠ 92 ∧ b ≠ 255

/-- A text that is read as itself has no slashes and ends at its first quote. If the reader went on
behind the text, there would be more quotes in what it read than in the text. -/
theorem verbatim_of_readstrexp
    (h : readstrexp past .ok c1 [] (raw ++ 34 :: rest) = (some raw, pt)) : Verbatim raw := by
  obtain ⟨raw', t, heq, ht, hlen, hdecodes⟩ := readstrexp_some h
  obtain rfl : raw = t := ht
  have hraw : raw' = raw := by
    cases List.append_eq_append_iff.mp heq with
    | inl hlonger =>
      obtain ⟨as, rfl, has⟩ := hlonger
      cases as with
      | nil => exact List.append_nil _
      | cons a as =>
        obtain rfl : 34 = a := (List.cons.inj has).1
        have hquotes := hdecodes.quotes
        rw [List.count_append, List.count_cons_self] at hquotes
        omega
    | inr hshorter =>
      obtain ⟨as, rfl, has⟩ := hshorter
      have hle := hdecodes.length_le
      rw [List.length_append] at hle
      obtain rfl : as = [] := List.length_eq_zero_iff.mp (by omega)
      exact (List.append_nil _).symm
  subst hraw
  obtain ⟨h34, h92⟩ := hdecodes.verbatim rfl rfl
  refine ⟨hlen, ?_⟩
  intro b hb
  refine ⟨?_, ?_, ?_⟩
  · rintro rfl
    exact h34 hb
  · rintro rfl
    exact h92 hb
  · rintro rfl
    exact hdecodes.ne_eof hb

theorem readstrexp_verbatim (past p : List UInt8) (h : ∀ b ∈ raw, b ≠ 34 ∧ b ≠ 92 ∧ b ≠ 255)
    (hzero : 0 ∉ raw) (hlen : (p ++ raw).length < strbuffSize) :
    ∃ past', readstrexp past .ok c1 p (raw ++ 34 :: rest) = (some (p ++ raw), ⟨past', rest⟩) := by
  induction raw generalizing past p with
  | nil =>
    rw [List.append_nil] at hlen ⊢
    have hgoes : Goes 34 p := ⟨by decide, by decide, hlen⟩
    refine ⟨34 :: past, ?_⟩
    rw [List.nil_append, hgoes.ok, if_neg (by decide), if_pos (by decide)]
  | cons b raw ih =>
    obtain ⟨h34, h92, h255⟩ := h b List.mem_cons_self
    rw [List.mem_cons, not_or] at hzero
    have hgoes : Goes b p := by
      refine ⟨Ne.symm hzero.1, signedChar_ne_eof h255, ?_⟩
      rw [List.length_append] at hlen
      omega
    have hslash : signedChar b ≠ chr '\\' := fun heq => h92 (signedChar_inj (c := 92) heq)
    have hquote : signedChar b ≠ chr '"' := fun heq => h34 (signedChar_inj (c := 34) heq)
    rw [List.cons_append, hgoes.ok, if_neg hslash, if_neg hquote]
    have hread := ih (b :: past) (p ++ [b]) (fun c hc => h c (List.mem_cons_of_mem _ hc)) hzero.2
      (by simpa using hlen)
    simpa using hread

theorem Verbatim.isStringText (h : Verbatim raw) (hzero : 0 ∉ raw) : IsStringText raw raw :=
  readstrexp_verbatim [] [] h.2 hzero h.1

/-! ## Strings with slashes -/

theorem toupper_hexDigit {d : ℕ} (h : d < 16) :
    chr '0' ≤ toupper (signedChar (hexDigit d)) ∧ toupper (signedChar (hexDigit d)) ≤ chr 'F' ∧
      ∀ c1, hexValue c1 (toupper (signedChar (hexDigit d))) = c1 * 16 + d := by
  have hchar : ∀ d < 16, toupper (signedChar (hexDigit d)) =
      if d < 10 then (d : ℤ) + 48 else (d : ℤ) + 55 := by decide
  rw [hchar d h]
  have h0 : chr '0' = 48 := rfl
  have h9 : chr '9' = 57 := rfl
  have hA : chr 'A' = 65 := rfl
  have hF : chr 'F' = 70 := rfl
  refine ⟨by split <;> omega, by split <;> omega, ?_⟩
  intro c1
  rw [hexValue]
  split <;> split <;> omega

theorem hexDigit_ne : ∀ d < 16, hexDigit d ≠ 0 ∧ hexDigit d ≠ 255 := by decide

/-- The text of one character is read as the character. -/
theorem readstrexp_slashed (past xs : List UInt8) (c1 : ℤ) (hzero : b ≠ 0)
    (hp : p.length < strbuffSize) :
    ∃ past' c1', readstrexp past .ok c1 p (slashed b ++ xs) =
      readstrexp past' .ok c1' (p ++ [b]) xs := by
  have hslash : Goes 92 p := ⟨by decide, by decide, hp⟩
  have hgo (c : UInt8) (bs : List UInt8) :
      readstrexp past .ok c1 p (92 :: c :: bs) = readstrexp (92 :: past) .bsl c1 p (c :: bs) := by
    rw [hslash.ok, if_pos (by decide)]
  rw [slashed]
  split
  · split
    · rename_i hb
      subst hb
      have hgoes : Goes 34 p := ⟨by decide, by decide, hp⟩
      refine ⟨34 :: 92 :: past, c1, (hgo 34 xs).trans ?_⟩
      rw [hgoes.bsl, if_neg (by decide), if_neg (by decide), if_neg (by decide), if_neg (by decide)]
    split
    · rename_i hb
      subst hb
      have hgoes : Goes 110 p := ⟨by decide, by decide, hp⟩
      refine ⟨110 :: 92 :: past, c1, (hgo 110 xs).trans ?_⟩
      rw [hgoes.bsl, if_neg (by decide), if_pos (by decide)]
      rfl
    split
    · rename_i hb
      subst hb
      have hgoes : Goes 116 p := ⟨by decide, by decide, hp⟩
      refine ⟨116 :: 92 :: past, c1, (hgo 116 xs).trans ?_⟩
      rw [hgoes.bsl, if_neg (by decide), if_neg (by decide), if_pos (by decide)]
      rfl
    split
    · rename_i hb
      subst hb
      have hgoes : Goes 114 p := ⟨by decide, by decide, hp⟩
      refine ⟨114 :: 92 :: past, c1, (hgo 114 xs).trans ?_⟩
      rw [hgoes.bsl, if_neg (by decide), if_neg (by decide), if_neg (by decide), if_pos (by decide)]
      rfl
    split
    · rename_i hb
      subst hb
      refine ⟨92 :: 92 :: past, c1, (hgo 92 xs).trans ?_⟩
      rw [hslash.bsl, if_neg (by decide), if_neg (by decide), if_neg (by decide), if_neg (by decide)]
    · have hx : Goes 120 p := ⟨by decide, by decide, hp⟩
      have hlt := b.toNat_lt
      have hhigh : b.toNat / 16 < 16 := by omega
      have hlow : b.toNat % 16 < 16 := by omega
      have hdigit {d : ℕ} (hd : d < 16) : Goes (hexDigit d) p :=
        ⟨(hexDigit_ne d hd).1, signedChar_ne_eof (hexDigit_ne d hd).2, hp⟩
      obtain ⟨hlow₁, hhigh₁, hvalue₁⟩ := toupper_hexDigit hhigh
      obtain ⟨hlow₂, hhigh₂, hvalue₂⟩ := toupper_hexDigit hlow
      refine ⟨hexDigit (b.toNat % 16) :: hexDigit (b.toNat / 16) :: 120 :: 92 :: past,
        (0 * 16 + ((b.toNat / 16 : ℕ) : ℤ)) * 16 + ((b.toNat % 16 : ℕ) : ℤ), (hgo 120 _).trans ?_⟩
      show readstrexp (92 :: past) .bsl c1 p
        (120 :: hexDigit (b.toNat / 16) :: hexDigit (b.toNat % 16) :: xs) = _
      rw [hx.bsl, if_pos (by decide), (hdigit hhigh).x1, if_pos ⟨hlow₁, hhigh₁⟩, (hdigit hlow).x2,
        if_pos ⟨hlow₂, hhigh₂⟩, hvalue₁, hvalue₂]
      have hbyte : UInt8.ofNat (((0 * 16 + ((b.toNat / 16 : ℕ) : ℤ)) * 16 +
          ((b.toNat % 16 : ℕ) : ℤ)) % 256).toNat = b := by
        have hvalue : (((0 * 16 + ((b.toNat / 16 : ℕ) : ℤ)) * 16 +
            ((b.toNat % 16 : ℕ) : ℤ)) % 256).toNat = b.toNat := by omega
        rw [hvalue]
        exact UInt8.ofNat_toNat
      rw [hbyte]
  · rename_i hplain
    simp only [not_or] at hplain
    obtain ⟨h255, h34, -, h92⟩ := hplain
    have hgoes : Goes b p := ⟨hzero, signedChar_ne_eof h255, hp⟩
    have hslash : signedChar b ≠ chr '\\' := fun heq => h92 (signedChar_inj (c := 92) heq)
    have hquote : signedChar b ≠ chr '"' := fun heq => h34 (signedChar_inj (c := 34) heq)
    refine ⟨b :: past, c1, ?_⟩
    rw [List.cons_append, List.nil_append, hgoes.ok, if_neg hslash, if_neg hquote]

theorem readstrexp_slashes (past p : List UInt8) (c1 : ℤ) (hzero : 0 ∉ s)
    (hlen : (p ++ s).length < strbuffSize) :
    ∃ past', readstrexp past .ok c1 p (s.flatMap slashed ++ 34 :: rest) =
      (some (p ++ s), ⟨past', rest⟩) := by
  induction s generalizing past c1 p with
  | nil =>
    rw [List.append_nil] at hlen ⊢
    have hgoes : Goes 34 p := ⟨by decide, by decide, hlen⟩
    refine ⟨34 :: past, ?_⟩
    rw [List.flatMap_nil, List.nil_append, hgoes.ok, if_neg (by decide), if_pos (by decide)]
  | cons b s ih =>
    rw [List.mem_cons, not_or] at hzero
    have hp : p.length < strbuffSize := by
      rw [List.length_append] at hlen
      omega
    obtain ⟨past', c1', hread⟩ := readstrexp_slashed past (s.flatMap slashed ++ 34 :: rest) c1
      (Ne.symm hzero.1) hp
    rw [List.flatMap_cons, List.append_assoc, hread]
    have hrest := ih past' (p ++ [b]) c1' hzero.2 (by simpa using hlen)
    simpa using hrest

/-- What `printslashstring` writes is read as the string if the string buffer holds it. -/
theorem isStringText_slashes (hzero : 0 ∉ s) (hlen : s.length < strbuffSize) :
    IsStringText (s.flatMap slashed) s :=
  readstrexp_slashes [] [] 0 hzero hlen

/-! ## The printed characters and what is behind them -/

/-- The characters of a port, read or not. -/
def characters (pt : Port) : List UInt8 := pt.past.reverse ++ pt.curr

/-- The reader of strings goes over characters and changes none. -/
theorem characters_readstrexp (past : List UInt8) (state : StrState) (c1 : ℤ) (p xs : List UInt8) :
    characters (readstrexp past state c1 p xs).2 = past.reverse ++ xs := by
  induction xs generalizing past state c1 p with
  | nil => rfl
  | cons b xs ih =>
    have hover : (b :: past).reverse ++ xs = past.reverse ++ b :: xs := by
      rw [List.reverse_cons, List.append_assoc, List.singleton_append]
    have hnext (state' : StrState) (c1' : ℤ) (p' : List UInt8) :
        characters (readstrexp (b :: past) state' c1' p' xs).2 = past.reverse ++ b :: xs :=
      (ih (b :: past) state' c1' p').trans hover
    by_cases hgo : Goes b p
    · cases state with
      | ok =>
        rw [hgo.ok]
        split
        · apply hnext
        split
        · exact hover
        · apply hnext
      | bsl =>
        rw [hgo.bsl]
        split_ifs <;> apply hnext
      | x1 =>
        rw [hgo.x1]
        split
        · apply hnext
        · exact hover
      | x2 =>
        rw [hgo.x2]
        split
        · apply hnext
        · exact hover
    · rw [readstrexp.eq_def]
      dsimp only
      split
      · rfl
      split
      · exact hover
      · rename_i hzero hend
        exact absurd (goes_of_not_end hzero hend) hgo

theorem token_quote (past xs : List UInt8) :
    token ⟨past, 34 :: xs⟩ = (.dquote, ⟨34 :: past, xs⟩) := rfl

/-- A string that `printslashstring` has written is read as itself, and just the characters that
were written are read. -/
theorem reads_printslashstring (past rest : List UInt8) (hzero : 0 ∉ s)
    (hlen : s.length < strbuffSize) :
    ∃ pt, token ⟨past, printslashstring s ++ rest⟩ = (.dquote, pt) ∧
      readstrexp pt.past .ok 0 [] pt.curr =
        (some s, ⟨(printslashstring s).reverse ++ past, rest⟩) := by
  have htext : printslashstring s ++ rest = 34 :: (s.flatMap slashed ++ 34 :: rest) := by
    rw [printslashstring, List.cons_append, List.append_assoc, List.singleton_append]
  refine ⟨⟨34 :: past, s.flatMap slashed ++ 34 :: rest⟩, ?_, ?_⟩
  · rw [htext]
    apply token_quote
  · cases readstrexp_slashes (34 :: past) [] 0 hzero hlen with
    | intro past' hread =>
      have hpast := characters_readstrexp (34 :: past) .ok 0 [] (s.flatMap slashed ++ 34 :: rest)
      have hover : (34 :: past).reverse ++ (s.flatMap slashed ++ 34 :: rest) =
          (past.reverse ++ printslashstring s) ++ rest := by
        rw [List.append_assoc, htext, List.reverse_cons, List.append_assoc, List.singleton_append]
      rw [hread, hover, characters] at hpast
      have hpast' : past' = (printslashstring s).reverse ++ past := by
        rw [← List.reverse_inj, List.append_cancel_right hpast, List.reverse_append,
          List.reverse_reverse]
      rw [hread, hpast']
      rfl

/-- A quote, a backslash, a line feed and the bytes 1, 127 and 255 in front of a parenthesis. -/
theorem reads_printslashstring_mixed :
    ∃ pt, token ⟨[40], printslashstring [34, 92, 10, 1, 127, 255] ++ [41]⟩ = (.dquote, pt) ∧
      readstrexp pt.past .ok 0 [] pt.curr = (some [34, 92, 10, 1, 127, 255],
        ⟨(printslashstring [34, 92, 10, 1, 127, 255]).reverse ++ [40], [41]⟩) :=
  reads_printslashstring [40] [41] (by decide) (by decide)

end Extempore.StringTexts
