import Extempore.TypeStrings

/-!
# Pieces of a type string

A printed type is a word, or a text in braces, square or angle brackets, with stars behind it. The
pattern for structs and atoms takes such a piece as a whole, so that it cuts a row of pieces with
commas and blanks in between at the right places.
-/

namespace Extempore.TypeTokens
open Atoms (byte isDigit decimalNat)
open SchemeReader (ascii)
open OrderedPatterns TypeStrings RegexLoops

/-- A condition on the bytes of a text is tested on these bytes, not on all there are. -/
scoped instance (priority := 2000) decidableForallByte (P : UInt8 → Prop) [DecidablePred P]
    (s : List UInt8) : Decidable (∀ a ∈ s, P a) :=
  List.decidableBAll P s

scoped instance (priority := 2000) decidableForallHead (P : UInt8 → Prop) [DecidablePred P]
    (o : Option UInt8) : Decidable (∀ a ∈ o, P a) :=
  Option.decidableForallMem o

variable {s t r b w : List UInt8} {n p : ℕ}

/-- No bracket and no newline. -/
def plain (a : UInt8) : Bool := !(ascii "\x7b\x7d[]<>\n").contains a

/-- A left angle bracket has something other than a brace behind it. -/
def AngleSafe : List UInt8 → Prop
  | [] => True
  | a :: s => (a = byte '<' → ∃ b ∈ s.head?, b ≠ byte '\x7b') ∧ AngleSafe s

/-- All brackets are balanced, each kind by itself. -/
structure Clean (s : List UInt8) : Prop where
  braces : Balanced (byte '\x7b') (byte '\x7d') s
  squares : Balanced (byte '[') (byte ']') s
  angles : Balanced (byte '<') (byte '>') s
  angleSafe : AngleSafe s
  line : ∀ a ∈ s, a ≠ byte '\n'

/-- A text that is taken as a whole. -/
inductive Piece : List UInt8 → Prop
  | word {w : List UInt8} (p : ℕ) (hne : w ≠ []) (hw : ∀ a ∈ w, wordByte a = true) :
      Piece (w ++ stars p)
  | braces {b : List UInt8} (p : ℕ) (hb : Clean b) :
      Piece (byte '\x7b' :: (b ++ byte '\x7d' :: stars p))
  | squares {b : List UInt8} (p : ℕ) (hb : Clean b) :
      Piece (byte '[' :: (b ++ byte ']' :: stars p))
  | angles {b : List UInt8} (p : ℕ) (hb : Clean b) (hhead : ∃ a ∈ b.head?, a ≠ byte '\x7b') :
      Piece (byte '<' :: (b ++ byte '>' :: stars p))

/-- A piece ends in front of this text. -/
def Stops (r : List UInt8) : Prop :=
  ∀ a ∈ r.head?, wordByte a = false ∧ a ≠ byte '*' ∧ a ≠ byte '>'

/-! ## Clean texts -/

theorem AngleSafe.append (hs : AngleSafe s) (ht : AngleSafe t) : AngleSafe (s ++ t) := by
  induction s with
  | nil => exact ht
  | cons a s ih =>
    refine ⟨?_, ih hs.2⟩
    intro ha
    rcases hs.1 ha with ⟨b, hb, hne⟩
    cases s with
    | nil => cases hb
    | cons c s => exact ⟨b, hb, hne⟩

theorem angleSafe_of_forall (h : ∀ a ∈ s, a ≠ byte '<') : AngleSafe s := by
  induction s with
  | nil => exact trivial
  | cons a s ih =>
    refine ⟨?_, ih fun b hb => h b (List.mem_cons_of_mem a hb)⟩
    intro ha
    exact absurd ha (h a List.mem_cons_self)

theorem AngleSafe.isChain (h : AngleSafe s) :
    s.IsChain fun a b => ¬ (a = byte '<' ∧ b = byte '\x7b') := by
  induction s with
  | nil => exact .nil
  | cons a s ih =>
    cases s with
    | nil => exact .singleton a
    | cons b s =>
      refine .cons_cons ?_ (ih h.2)
      rintro ⟨ha, hb⟩
      rcases h.1 ha with ⟨b', hb', hne⟩
      exact hne ((Option.some.inj hb').symm.trans hb)

theorem plain_ne {a c : UInt8} (h : plain a = true) (hc : plain c = false) : a ≠ c := by
  intro heq
  rw [heq, hc] at h
  cases h

theorem clean_of_plain (h : ∀ a ∈ s, plain a = true) : Clean s where
  braces := balanced_of_forall fun a ha => ⟨plain_ne (h a ha) rfl, plain_ne (h a ha) rfl⟩
  squares := balanced_of_forall fun a ha => ⟨plain_ne (h a ha) rfl, plain_ne (h a ha) rfl⟩
  angles := balanced_of_forall fun a ha => ⟨plain_ne (h a ha) rfl, plain_ne (h a ha) rfl⟩
  angleSafe := angleSafe_of_forall fun a ha => plain_ne (h a ha) rfl
  line a ha := plain_ne (h a ha) rfl

theorem Clean.append (hs : Clean s) (ht : Clean t) : Clean (s ++ t) where
  braces := hs.braces.append ht.braces
  squares := hs.squares.append ht.squares
  angles := hs.angles.append ht.angles
  angleSafe := hs.angleSafe.append ht.angleSafe
  line a ha := by
    rcases List.mem_append.mp ha with ha | ha
    · exact hs.line a ha
    · exact ht.line a ha

theorem plain_of_mem_stars {a : UInt8} (h : a ∈ stars p) : plain a = true := by
  rw [List.eq_of_mem_replicate h]
  rfl

theorem clean_stars (p : ℕ) : Clean (stars p) := clean_of_plain fun _ => plain_of_mem_stars

/-- A balanced text between two other elements. -/
theorem balanced_wrap {o c a a' : UInt8} (h : Balanced o c b) (ha : a ≠ o ∧ a ≠ c)
    (ha' : a' ≠ o ∧ a' ≠ c) : Balanced o c (a :: (b ++ [a'])) :=
  .plain ha.1 ha.2 (h.append (.plain ha'.1 ha'.2 .nil))

theorem clean_line {a c : UInt8} (h : Clean b) (ha : a ≠ byte '\n') (hc : c ≠ byte '\n') :
    ∀ x ∈ a :: (b ++ [c]), x ≠ byte '\n' := by
  intro x hx
  rcases List.mem_cons.mp hx with rfl | hx
  · exact ha
  · rcases List.mem_append.mp hx with hx | hx
    · exact h.line x hx
    · rw [List.mem_singleton.mp hx]
      exact hc

theorem angleSafe_wrap {a c : UInt8} (h : AngleSafe b) (ha : a ≠ byte '<') (hc : c ≠ byte '<') :
    AngleSafe (a :: (b ++ [c])) := by
  refine ⟨fun heq => absurd heq ha, h.append (angleSafe_of_forall ?_)⟩
  intro x hx
  rw [List.mem_singleton.mp hx]
  exact hc

theorem Clean.inBraces (h : Clean b) : Clean (byte '\x7b' :: (b ++ [byte '\x7d'])) where
  braces := .nested h.braces .nil
  squares := balanced_wrap h.squares (by decide) (by decide)
  angles := balanced_wrap h.angles (by decide) (by decide)
  angleSafe := angleSafe_wrap h.angleSafe (by decide) (by decide)
  line := clean_line h (by decide) (by decide)

theorem Clean.inSquares (h : Clean b) : Clean (byte '[' :: (b ++ [byte ']'])) where
  braces := balanced_wrap h.braces (by decide) (by decide)
  squares := .nested h.squares .nil
  angles := balanced_wrap h.angles (by decide) (by decide)
  angleSafe := angleSafe_wrap h.angleSafe (by decide) (by decide)
  line := clean_line h (by decide) (by decide)

theorem Clean.inAngles (h : Clean b) (hhead : ∃ a ∈ b.head?, a ≠ byte '\x7b') :
    Clean (byte '<' :: (b ++ [byte '>'])) where
  braces := balanced_wrap h.braces (by decide) (by decide)
  squares := balanced_wrap h.squares (by decide) (by decide)
  angles := .nested h.angles .nil
  angleSafe := by
    refine ⟨fun _ => ?_, h.angleSafe.append (angleSafe_of_forall ?_)⟩
    · rcases hhead with ⟨a, ha, hne⟩
      cases b with
      | nil => cases ha
      | cons c b => exact ⟨a, ha, hne⟩
    · intro x hx
      rw [List.mem_singleton.mp hx]
      decide
  line := clean_line h (by decide) (by decide)

theorem plain_of_wordByte {a : UInt8} (h : wordByte a = true) : plain a = true := by
  by_contra hplain
  have hmem : a ∈ ascii "\x7b\x7d[]<>\n" := by
    rw [plain, Bool.not_eq_true, Bool.not_eq_false'] at hplain
    exact List.contains_iff_mem.mp hplain
  have hfalse : ∀ a ∈ ascii "\x7b\x7d[]<>\n", wordByte a = false := by decide
  rw [hfalse a hmem] at h
  cases h

theorem Piece.clean (h : Piece s) : Clean s := by
  cases h with
  | word p _ hw =>
    exact (clean_of_plain fun a ha => plain_of_wordByte (hw a ha)).append (clean_stars p)
  | braces p hb =>
    have hclean := hb.inBraces.append (clean_stars p)
    rwa [List.cons_append, List.append_assoc] at hclean
  | squares p hb =>
    have hclean := hb.inSquares.append (clean_stars p)
    rwa [List.cons_append, List.append_assoc] at hclean
  | angles p hb hhead =>
    have hclean := (hb.inAngles hhead).append (clean_stars p)
    rwa [List.cons_append, List.append_assoc] at hclean

/-! ## Brackets in the patterns -/

/-- Where `.` does not match. -/
def Inline (a : UInt8) : Prop := a ≠ byte '\n'

/-- The pairs of bytes at which a text in braces may stop. -/
def AngleBrace (a b : UInt8) : Prop := a = byte '<' ∧ b = byte '\x7b'

theorem first_lit (c : Char) (t : List UInt8) : First (lit c) (byte c :: t) t :=
  first_set (beq_self_eq_true (byte c))

theorem fails_lit {c : Char} {a : UInt8} (h : a ≠ byte c) : Fails (lit c) (a :: t) :=
  fails_set (beq_eq_false_iff_ne.mpr h)

theorem fails_lit_nil (c : Char) : Fails (lit c) [] := fails_set_nil _

theorem first_anyByte {a : UInt8} (h : a ≠ byte '\n') : First anyByte (a :: t) t :=
  first_set (bne_iff_ne.mpr h)

theorem first_stars (p : ℕ) (hr : ∀ a ∈ r.head?, a ≠ byte '*') :
    First anyStars (stars p ++ r) r := by
  apply first_star_set
  · intro a ha
    rw [List.eq_of_mem_replicate ha]
    rfl
  · intro a ha
    exact beq_eq_false_iff_ne.mpr (hr a ha)

theorem exists_first_stars (t : List UInt8) :
    ∃ p r, t = stars p ++ r ∧ First anyStars t r := by
  induction t with
  | nil => exact ⟨0, [], rfl, first_stars 0 (by simp)⟩
  | cons a t ih =>
    by_cases ha : a = byte '*'
    · rcases ih with ⟨p, r, heq, hfirst⟩
      refine ⟨p + 1, r, by rw [heq, ha]; rfl, ?_⟩
      rw [ha]
      exact first_star_step (first_lit '*' t) (Nat.lt_succ_self _) hfirst
    · refine ⟨0, a :: t, rfl, first_stars 0 ?_⟩
      intro b hb
      rwa [← Option.some.inj hb]

theorem mem_stars_ne {a c : UInt8} (h : a ∈ stars p) (hc : c ≠ byte '*') : a ≠ c := by
  rw [List.eq_of_mem_replicate h]
  exact hc.symm

theorem bracketBrackets {o c : Char} (hoc : byte o ≠ byte c) (ho : byte o ≠ byte '*')
    (hc : byte c ≠ byte '*') :
    Brackets (byte o) (byte c) Inline (fun _ _ => False) (bracketGroup o c) where
  close g t := by
    apply fails_alt
    · exact fails_seq_left (fails_notAhead (first_alt_right (fails_lit hoc.symm) (first_lit c t)))
    · exact fails_seq_left (fails_lit hoc.symm)
  plain g a t hao hac hline _ := by
    apply first_alt_left
    exact first_seq (first_notAhead (fails_alt (fails_lit hao) (fails_lit hac)))
      (first_anyByte hline)
  nest g t t' h := by
    rcases exists_first_stars t' with ⟨p, r, heq, hfirst⟩
    refine ⟨stars p, r, heq, fun a ha => ⟨mem_stars_ne ha ho, mem_stars_ne ha hc⟩, ?_⟩
    apply first_alt_right
    · exact fails_seq_left (fails_notAhead (first_alt_left (first_lit o t)))
    · exact first_seq (first_lit o t) (first_seq h (first_seq (first_lit c t') hfirst))
  notBad _ h := h

theorem fails_word_pair {a a' b : UInt8} (h : a = a' → ∀ c ∈ t.head?, c ≠ b) :
    Fails (word [a', b]) (a :: t) := by
  by_cases ha : a = a'
  · apply fails_seq
    intro s hs
    rcases mem_results_set.mp hs with ⟨c, -, heq⟩
    rw [← (List.cons.inj heq).2]
    apply fails_seq_left
    cases t with
    | nil => exact fails_set_nil _
    | cons c t => exact fails_set (beq_eq_false_iff_ne.mpr (h ha c rfl))
  · exact fails_seq_left (fails_set (beq_eq_false_iff_ne.mpr ha))

theorem structBrackets :
    Brackets (byte '\x7b') (byte '\x7d') Inline AngleBrace structGroup where
  close g t := by
    apply fails_alt
    · exact fails_seq_left (fails_notAhead (first_alt_right (fails_lit (by decide))
        (first_alt_left (first_lit '\x7d' t))))
    · have hopt : Pattern.results (.opt (lit '<')) (byte '\x7d' :: t) = [byte '\x7d' :: t] := rfl
      apply fails_seq
      intro s hs
      rw [hopt, List.mem_singleton] at hs
      rw [hs]
      exact fails_seq_left (fails_lit (by decide))
  plain g a t hao hac hline hbad := by
    apply first_alt_left
    refine first_seq (first_notAhead ?_) (first_anyByte hline)
    refine fails_alt (fails_lit hao) (fails_alt (fails_lit hac) (fails_alt ?_ ?_))
    · apply fails_word_pair
      intro ha c hc heq
      exact hbad c hc ⟨ha, heq⟩
    · apply fails_word_pair
      intro ha
      exact absurd ha hac
  nest g t t' h := by
    have hclose : ∃ u r, t' = u ++ r ∧ (∀ a ∈ u, a ≠ byte '\x7b' ∧ a ≠ byte '\x7d') ∧
        First (.seq (.opt (lit '>')) anyStars) t' r := by
      by_cases hhead : ∃ t₁, t' = byte '>' :: t₁
      · rcases hhead with ⟨t₁, rfl⟩
        rcases exists_first_stars t₁ with ⟨p, r, heq, hfirst⟩
        refine ⟨byte '>' :: stars p, r, by rw [heq]; rfl, ?_,
          first_seq (first_opt (first_lit '>' t₁)) hfirst⟩
        intro a ha
        rcases List.mem_cons.mp ha with rfl | ha
        · decide
        · exact ⟨mem_stars_ne ha (by decide), mem_stars_ne ha (by decide)⟩
      · rcases exists_first_stars t' with ⟨p, r, heq, hfirst⟩
        refine ⟨stars p, r, heq,
          fun a ha => ⟨mem_stars_ne ha (by decide), mem_stars_ne ha (by decide)⟩,
          first_seq (first_opt_skip ?_) hfirst⟩
        cases t' with
        | nil => exact fails_lit_nil '>'
        | cons a t₁ =>
          apply fails_lit
          intro ha
          exact hhead ⟨t₁, by rw [ha]⟩
    rcases hclose with ⟨u, r, heq, hu, hfirst⟩
    refine ⟨u, r, heq, hu, ?_⟩
    apply first_alt_right
    · exact fails_seq_left (fails_notAhead (first_alt_left (first_lit '\x7b' t)))
    · exact first_seq (first_opt_skip (fails_lit (by decide))) (first_seq (first_lit '\x7b' t)
        (first_seq h (first_seq (first_lit '\x7d' t') hfirst)))
  notBad a h := absurd h.2 (by decide)

theorem Clean.even (h : Clean s) : Even Inline (fun _ _ => False) s where
  fine := h.line
  notBad := by
    rw [List.isChain_iff_getElem]
    intro i hi hfalse
    exact hfalse

theorem Clean.evenAngle (h : Clean s) : Even Inline AngleBrace s where
  fine := h.line
  notBad := h.angleSafe.isChain

/-! ## A piece is taken as a whole -/

theorem Stops.notStar (h : Stops r) : ∀ a ∈ r.head?, a ≠ byte '*' := fun a ha => (h a ha).2.1

theorem fails_plus_word {a : UInt8} (h : wordByte a = false) :
    Fails (Pattern.plus (.seq (.set wordByte) anyStars)) (a :: t) :=
  fails_seq_left (fails_seq_left (fails_set h))

theorem fails_wordByte (hr : Stops r) : Fails (.seq (.set wordByte) anyStars) r := by
  cases r with
  | nil => exact fails_seq_left (fails_set_nil _)
  | cons a r => exact fails_seq_left (fails_set (hr a rfl).1)

/-- One byte of a word. The last one takes the stars along. -/
theorem first_wordByte {a : UInt8} (hw : ∀ b ∈ a :: w, wordByte b = true) (hr : Stops r) :
    ∃ q ≤ p, First (.seq (.set wordByte) anyStars) (a :: (w ++ (stars p ++ r)))
      (w ++ (stars q ++ r)) ∧ (w ≠ [] ∨ q = 0) := by
  have ha := first_set (s := w ++ (stars p ++ r)) (hw a List.mem_cons_self)
  cases w with
  | nil => exact ⟨0, Nat.zero_le p, first_seq ha (first_stars p hr.notStar), .inr rfl⟩
  | cons b w =>
    refine ⟨p, le_rfl, first_seq ha (first_stars 0 ?_), .inl (List.cons_ne_nil b w)⟩
    intro c hc heq
    have hb := hw b (List.mem_cons_of_mem a List.mem_cons_self)
    rw [Option.some.inj hc, heq] at hb
    cases hb

theorem first_star_word (hw : ∀ a ∈ w, wordByte a = true) (hr : Stops r) (hpos : w ≠ [] ∨ p = 0) :
    First (.star (.seq (.set wordByte) anyStars)) (w ++ (stars p ++ r)) r := by
  induction w generalizing p with
  | nil =>
    rcases hpos with hpos | hpos
    · exact absurd rfl hpos
    · rw [hpos]
      exact first_star_stop (fails_wordByte hr)
  | cons a w ih =>
    rcases first_wordByte (p := p) hw hr with ⟨q, hq, hround, hpos'⟩
    refine first_star_step hround ?_ (ih (fun b hb => hw b (List.mem_cons_of_mem a hb)) hpos')
    simp only [stars, List.cons_append, List.length_cons, List.length_append, List.length_replicate]
    omega

theorem first_plus_word (hne : w ≠ []) (hw : ∀ a ∈ w, wordByte a = true) (hr : Stops r) :
    First (Pattern.plus (.seq (.set wordByte) anyStars)) (w ++ (stars p ++ r)) r := by
  cases w with
  | nil => exact absurd rfl hne
  | cons a w =>
    rcases first_wordByte (p := p) hw hr with ⟨q, -, hround, hpos⟩
    exact first_seq hround
      (first_star_word (fun b hb => hw b (List.mem_cons_of_mem a hb)) hr hpos)

/-- The braces need a brace in front, perhaps behind an angle bracket. -/
theorem fails_braces {q : Bytes} {a : UInt8} (ha : a ≠ byte '\x7b')
    (hangle : a = byte '<' → ∀ b ∈ t.head?, b ≠ byte '\x7b') :
    Fails (.seq (.opt (lit '<')) (.seq (lit '\x7b') q)) (a :: t) := by
  apply fails_seq
  intro s hs
  rw [results_opt, List.mem_append, List.mem_singleton] at hs
  rcases hs with hs | rfl
  · rcases mem_results_set.mp hs with ⟨c, hc, heq⟩
    rw [← (List.cons.inj heq).2]
    apply fails_seq_left
    cases t with
    | nil => exact fails_lit_nil _
    | cons b t =>
      apply fails_lit
      apply hangle _ b rfl
      rw [(List.cons.inj heq).1]
      exact beq_iff_eq.mp hc
  · exact fails_seq_left (fails_lit ha)

/-- A piece is the first match at its place. -/
theorem first_piece (hs : Piece s) (hr : Stops r) (hn : s.length < n) :
    First (regexStructsOrAtoms n) (s ++ r) r := by
  cases hs with
  | @word w p hne hw =>
    rw [List.append_assoc]
    have hplus := first_plus_word (p := p) hne hw hr
    cases w with
    | nil => exact absurd rfl hne
    | cons a w =>
      have ha (c : UInt8) (hc : wordByte c = false) : a ≠ c := by
        intro heq
        have htrue := hw a List.mem_cons_self
        rw [heq, hc] at htrue
        cases htrue
      apply first_alt_right (fails_braces (ha _ rfl) fun heq => absurd heq (ha _ rfl))
      apply first_alt_right (fails_seq_left (fails_lit (ha _ rfl)))
      exact first_alt_right (fails_seq_left (fails_lit (ha _ rfl))) hplus
  | @braces b p hb =>
    rw [List.length_cons, List.length_append] at hn
    have hstar := (structBrackets.first_star (t := stars p ++ r) (n := n) hb.braces hb.evenAngle
      (by omega)).1
    have htext : byte '\x7b' :: (b ++ byte '\x7d' :: stars p) ++ r =
        byte '\x7b' :: (b ++ byte '\x7d' :: (stars p ++ r)) := by simp
    have hopt : Fails (lit '>') (stars p ++ r) := by
      cases p with
      | zero =>
        cases r with
        | nil => exact fails_lit_nil '>'
        | cons a r => exact fails_lit (hr a rfl).2.2
      | succ p => exact fails_lit (by decide)
    rw [htext]
    apply first_alt_left
    refine first_seq (first_opt_skip (fails_lit (by decide))) (first_seq (first_lit _ _) ?_)
    exact first_seq hstar (first_seq (first_lit _ _)
      (first_seq (first_opt_skip hopt) (first_stars p hr.notStar)))
  | @squares b p hb =>
    rw [List.length_cons, List.length_append] at hn
    have hstar := ((bracketBrackets (o := '[') (c := ']') (by decide) (by decide)
      (by decide)).first_star (t := stars p ++ r) (n := n) hb.squares hb.even (by omega)).1
    have htext : byte '[' :: (b ++ byte ']' :: stars p) ++ r =
        byte '[' :: (b ++ byte ']' :: (stars p ++ r)) := by simp
    rw [htext]
    apply first_alt_right (fails_braces (by decide) fun heq => absurd heq (by decide))
    apply first_alt_left
    exact first_seq (first_lit _ _) (first_seq hstar (first_seq (first_lit _ _)
      (first_stars p hr.notStar)))
  | @angles b p hb hhead =>
    rw [List.length_cons, List.length_append] at hn
    have hstar := ((bracketBrackets (o := '<') (c := '>') (by decide) (by decide)
      (by decide)).first_star (t := stars p ++ r) (n := n) hb.angles hb.even (by omega)).1
    have htext : byte '<' :: (b ++ byte '>' :: stars p) ++ r =
        byte '<' :: (b ++ byte '>' :: (stars p ++ r)) := by simp
    have hangle : ∀ a ∈ (b ++ byte '>' :: (stars p ++ r)).head?, a ≠ byte '\x7b' := by
      rcases hhead with ⟨a, ha, hne⟩
      cases b with
      | nil => cases ha
      | cons c b =>
        intro a' ha'
        rw [← Option.some.inj ha', Option.some.inj ha]
        exact hne
    rw [htext]
    apply first_alt_right (fails_braces (by decide) fun _ => hangle)
    apply first_alt_right (fails_seq_left (fails_lit (by decide)))
    apply first_alt_left
    exact first_seq (first_lit _ _) (first_seq hstar (first_seq (first_lit _ _)
      (first_stars p hr.notStar)))

/-! ## Rows of pieces -/

/-- The bytes between pieces. -/
def idle (a : UInt8) : Bool := (ascii ",() *").contains a

/-- Pieces with idle bytes in front of each and at the end. -/
inductive Row : List UInt8 → List (List UInt8) → Prop
  | rest {s : List UInt8} (hs : ∀ a ∈ s, idle a = true) : Row s []
  | piece {before s r : List UInt8} {pieces : List (List UInt8)}
      (hbefore : ∀ a ∈ before, idle a = true) (hs : Piece s) (hr : Stops r) (h : Row r pieces) :
      Row (before ++ (s ++ r)) (s :: pieces)

theorem not_idle {a : UInt8} (h : idle a = true) :
    wordByte a = false ∧ a ≠ byte '<' ∧ a ≠ byte '\x7b' ∧ a ≠ byte '[' := by
  have hall : ∀ a ∈ ascii ",() *",
      wordByte a = false ∧ a ≠ byte '<' ∧ a ≠ byte '\x7b' ∧ a ≠ byte '[' := by decide
  exact hall a (List.contains_iff_mem.mp h)

theorem fails_idle {a : UInt8} (h : idle a = true) (n : ℕ) (t : List UInt8) :
    Fails (regexStructsOrAtoms n) (a :: t) := by
  rcases not_idle h with ⟨hword, hangle, hbrace, hsquare⟩
  apply fails_alt (fails_braces hbrace fun heq => absurd heq hangle)
  apply fails_alt (fails_seq_left (fails_lit hsquare))
  exact fails_alt (fails_seq_left (fails_lit hangle)) (fails_plus_word hword)

theorem fails_nil (n : ℕ) : Fails (regexStructsOrAtoms n) [] := rfl

/-- `pcre_exec` for structs and atoms. -/
def structExec (data : List UInt8) : Option (ℕ × ℕ) :=
  (regexStructsOrAtoms (data.length + 1)).find data

theorem structExec_idle (hs : ∀ a ∈ s, idle a = true) : structExec s = none :=
  find_eq_none (fun a ha t => fails_idle (hs a ha) _ t) (fails_nil _)

theorem structExec_piece {before : List UInt8} (hbefore : ∀ a ∈ before, idle a = true)
    (hs : Piece s) (hr : Stops r) :
    structExec (before ++ (s ++ r)) = some (before.length, before.length + s.length) := by
  have hn : s.length < (before ++ (s ++ r)).length + 1 := by
    rw [List.length_append, List.length_append]
    omega
  rw [structExec, find_append fun a ha t => fails_idle (hbefore a ha) _ t,
    find_of_first (first_piece hs hr hn)]
  rfl

theorem Piece.ne_nil (h : Piece s) : s ≠ [] := by
  cases h with
  | word p hne _ => exact fun h => hne (List.append_eq_nil_iff.mp h).1
  | braces p _ => exact List.cons_ne_nil _ _
  | squares p _ => exact List.cons_ne_nil _ _
  | angles p _ _ => exact List.cons_ne_nil _ _

/-- The loop of `regex:match-all` over a row. -/
theorem Row.loop {pieces : List (List UInt8)} (h : Row s pieces) (list : List (List UInt8))
    {fuel : ℕ} (hfuel : s.length < fuel) :
    ∃ rest, WhileLoops.loop (found structExec) (matchAllRound structExec) fuel ⟨s, list⟩ =
      some ⟨rest, pieces.reverse ++ list⟩ := by
  induction h generalizing list fuel with
  | @rest s hs =>
    cases fuel with
    | zero => cases hfuel
    | succ fuel =>
      refine ⟨s, ?_⟩
      rw [WhileLoops.loop, found, structExec_idle hs]
      rfl
  | @piece before s r pieces hbefore hs hr _ ih =>
    cases fuel with
    | zero => cases hfuel
    | succ fuel =>
      have hexec := structExec_piece hbefore hs hr
      have hround : matchAllRound structExec ⟨before ++ (s ++ r), list⟩ = ⟨r, s :: list⟩ := by
        simp only [matchAllRound, hexec, drop_parts, List.drop_left, Nat.add_sub_cancel_left,
          List.take_left]
      have hpos := List.length_pos_iff.mpr hs.ne_nil
      rw [List.length_append, List.length_append] at hfuel
      rcases @ih (s :: list) fuel (by omega) with ⟨rest, hrest⟩
      refine ⟨rest, ?_⟩
      rw [WhileLoops.loop, found, hexec, if_pos (Option.isSome_some), hround, hrest,
        List.reverse_cons, List.append_assoc, List.singleton_append]

theorem Row.all {pieces : List (List UInt8)} (h : Row s pieces) : ∀ t ∈ pieces, Piece t := by
  induction h with
  | rest _ => exact fun _ ht => absurd ht List.not_mem_nil
  | piece _ hs _ _ ih =>
    intro t ht
    rcases List.mem_cons.mp ht with rfl | ht
    · exact hs
    · exact ih t ht

/-- A row is cut into its pieces. -/
theorem Row.structsOrAtoms_eq {pieces : List (List UInt8)} (h : Row s pieces) :
    structsOrAtoms s = some pieces := by
  rcases h.loop [] (Nat.lt_succ_self _) with ⟨rest, hloop⟩
  have hmatch : matchAll structExec s = some pieces := by
    rw [matchAll, hloop, Option.map_some, List.append_nil, List.reverse_reverse]
  have hfilter : pieces.filter (· ≠ []) = pieces :=
    List.filter_eq_self.mpr fun t ht => decide_eq_true (h.all t ht).ne_nil
  exact (congrArg (Option.map _) hmatch).trans (congrArg some hfilter)

theorem Row.cons {pieces : List (List UInt8)} (hs : Piece s) (hr : Stops r) (h : Row r pieces) :
    Row (s ++ r) (s :: pieces) :=
  @Row.piece [] s r pieces (List.forall_mem_nil _) hs hr h

theorem Row.behind {before : List UInt8} {pieces : List (List UInt8)} (h : Row s pieces)
    (hbefore : ∀ a ∈ before, idle a = true) : Row (before ++ s) pieces := by
  have happend {u v : List UInt8} (hu : ∀ a ∈ u, idle a = true) (hv : ∀ a ∈ v, idle a = true) :
      ∀ a ∈ u ++ v, idle a = true := by
    intro a ha
    rcases List.mem_append.mp ha with ha | ha
    · exact hu a ha
    · exact hv a ha
  cases h with
  | rest hs => exact .rest (happend hbefore hs)
  | piece hbefore' hs hr h =>
    rw [← List.append_assoc]
    exact .piece (happend hbefore hbefore') hs hr h

theorem join_singleton (sep text : List UInt8) : join sep [text] = text := by
  rw [join, List.intersperse_singleton, List.flatten_singleton]

theorem join_cons (sep : List UInt8) (text : List UInt8) {texts : List (List UInt8)}
    (h : texts ≠ []) : join sep (text :: texts) = text ++ (sep ++ join sep texts) := by
  cases texts with
  | nil => exact absurd rfl h
  | cons _ _ => rfl

/-- Pieces with a separator in between. -/
theorem row_join {sep : List UInt8} {texts : List (List UInt8)}
    (hsep : ∀ a ∈ sep, idle a = true) (hstops : ∀ t, Stops (sep ++ t)) (hne : texts ≠ [])
    (htexts : ∀ t ∈ texts, Piece t) (hidle : ∀ a ∈ r, idle a = true) (hr : Stops r) :
    Row (join sep texts ++ r) texts := by
  induction texts with
  | nil => exact absurd rfl hne
  | cons text texts ih =>
    have htext := htexts text List.mem_cons_self
    cases texts with
    | nil =>
      rw [join_singleton]
      exact Row.cons htext hr (.rest hidle)
    | cons text' texts =>
      have hrow := ih (List.cons_ne_nil _ _) fun t ht => htexts t (List.mem_cons_of_mem text ht)
      rw [join_cons sep text (List.cons_ne_nil _ _), List.append_assoc, List.append_assoc]
      exact Row.cons htext (hstops _) (hrow.behind hsep)

end Extempore.TypeTokens
