import Extempore.TypeTokens

/-!
# Reading printed types back

`impc:ir:get-type-from-str` gives back what `impc:ir:get-type-str` has printed, without the signs
of integers. It stops with an error at a vector whose element has a comma in its text.
-/

namespace Extempore.TypeParsing
open Atoms (byte isDigit decimalNat digitsValue)
open SchemeReader (ascii)
open OrderedPatterns TypeStrings TypeTokens

variable {s t body text : List UInt8} {texts : List (List UInt8)} {p fuel : ℕ} {type : XType}
  {types : List XType}

/-- The types of expressions: base types, named types and those made of them. -/
inductive WellFormed : XType → Prop
  | void : WellFormed (.atom (-1))
  | base (p : ℕ) (base : ℤ) (h : 0 ≤ base ∧ base ≤ 11) : WellFormed (.atom (100 * p + base))
  | named (p : ℕ) (name : List UInt8) (h : ∀ a ∈ name, wordByte a = true ∧ a ≠ byte '#') :
      WellFormed (.named (byte '%' :: name ++ stars p))
  | closure (ptr : ℕ) {types : List XType} (hne : types ≠ []) (h : ∀ t ∈ types, WellFormed t) :
      WellFormed (.closure ptr types)
  | tuple (ptr : ℕ) {types : List XType} (hne : types ≠ []) (h : ∀ t ∈ types, WellFormed t) :
      WellFormed (.tuple ptr types)
  | array (ptr size : ℕ) {type : XType} (h : WellFormed type) : WellFormed (.array ptr size type)
  | vector (ptr size : ℕ) {type : XType} (h : WellFormed type) : WellFormed (.vector ptr size type)

/-- The signed type of the same width, and an 8 bit integer for a character. -/
def eraseBase (base : ℤ) : ℤ :=
  if base = 3 ∨ base = 5 ∨ base = 7 ∨ base = 9 then base - 1
  else if base = 11 then 8
  else base

def eraseAtom (n : ℤ) : ℤ := if n < 0 then n else n - n % 100 + eraseBase (n % 100)

mutual

/-- The printed type has a comma. -/
def hasComma : XType → Bool
  | .atom _ => false
  | .named _ => false
  | .closure _ _ => true
  | .tuple _ types => decide (2 ≤ types.length) || anyComma types
  | .array _ _ type => hasComma type
  | .vector _ _ type => hasComma type

def anyComma : List XType → Bool
  | [] => false
  | type :: types => hasComma type || anyComma types

end

mutual

/-- What the printed type is read as. -/
def reread : XType → Option XType
  | .atom n => some (.atom (eraseAtom n))
  | .named text => some (.named text)
  | .closure ptr types => (rereads types).map (.closure ptr)
  | .tuple ptr types => (rereads types).map (.tuple ptr)
  | .array ptr size type => (reread type).map (.array ptr size)
  | .vector ptr size type =>
    if hasComma type then none else (reread type).map (.vector ptr size)

def rereads : List XType → Option (List XType)
  | [] => some []
  | type :: types => do
    let type ← reread type
    let types ← rereads types
    some (type :: types)

end

/-! ## Printed types -/

/-- What is known of a printed type. -/
structure Printed (type : XType) (s : List UInt8) : Prop where
  eq : getTypeStr type = some s
  piece : Piece s
  sharp : ∀ a ∈ s, a ≠ byte '#'
  comma : byte ',' ∈ s ↔ hasComma type = true

theorem getTypeStrs_eq (h : List.Forall₂ Printed types texts) :
    getTypeStrs types = some texts := by
  induction h with
  | nil => rfl
  | cons hp _ ih =>
    rw [getTypeStrs, hp.eq, ih]
    rfl

theorem exists_texts (h : ∀ t ∈ types, ∃ s, Printed t s) :
    ∃ texts, List.Forall₂ Printed types texts := by
  induction types with
  | nil => exact ⟨[], .nil⟩
  | cons type types ih =>
    rcases h type List.mem_cons_self with ⟨s, hs⟩
    rcases ih fun t ht => h t (List.mem_cons_of_mem type ht) with ⟨texts, htexts⟩
    exact ⟨s :: texts, .cons hs htexts⟩

theorem forall_texts {P : List UInt8 → Prop} (h : List.Forall₂ Printed types texts)
    (hP : ∀ t s, Printed t s → P s) : ∀ s ∈ texts, P s := by
  induction h with
  | nil => exact fun _ hs => absurd hs List.not_mem_nil
  | cons hp _ ih =>
    intro s hs
    rcases List.mem_cons.mp hs with rfl | hs
    · exact hP _ _ hp
    · exact ih s hs

theorem forall_mem_append {P : UInt8 → Prop} (hs : ∀ a ∈ s, P a) (ht : ∀ a ∈ t, P a) :
    ∀ a ∈ s ++ t, P a := by
  intro a ha
  rcases List.mem_append.mp ha with ha | ha
  · exact hs a ha
  · exact ht a ha

theorem forall_mem_join {P : UInt8 → Prop} {sep : List UInt8} (hsep : ∀ a ∈ sep, P a)
    (htexts : ∀ t ∈ texts, ∀ a ∈ t, P a) : ∀ a ∈ join sep texts, P a := by
  induction texts with
  | nil => exact fun _ ha => absurd ha List.not_mem_nil
  | cons text texts ih =>
    have htext := htexts text List.mem_cons_self
    cases texts with
    | nil =>
      rw [join_singleton]
      exact htext
    | cons text' texts =>
      rw [join_cons sep text (List.cons_ne_nil _ _)]
      apply forall_mem_append htext (forall_mem_append hsep _)
      exact ih fun t ht => htexts t (List.mem_cons_of_mem text ht)

theorem clean_join {sep : List UInt8} (hsep : Clean sep) (htexts : ∀ t ∈ texts, Clean t) :
    Clean (join sep texts) := by
  induction texts with
  | nil => exact clean_of_plain (List.forall_mem_nil _)
  | cons text texts ih =>
    have htext := htexts text List.mem_cons_self
    cases texts with
    | nil =>
      rw [join_singleton]
      exact htext
    | cons text' texts =>
      rw [join_cons sep text (List.cons_ne_nil _ _)]
      apply htext.append (hsep.append _)
      exact ih fun t ht => htexts t (List.mem_cons_of_mem text ht)

theorem not_mem_stars {c : UInt8} (hc : c ≠ byte '*') : c ∉ stars p :=
  fun h => mem_stars_ne h hc rfl

theorem mem_join_comma : byte ',' ∈ join (ascii ",") texts ↔
    2 ≤ texts.length ∨ ∃ t ∈ texts, byte ',' ∈ t := by
  induction texts with
  | nil => exact iff_of_false List.not_mem_nil (by simp)
  | cons text texts ih =>
    cases texts with
    | nil =>
      rw [join_singleton]
      simp
    | cons text' texts =>
      rw [join_cons _ text (List.cons_ne_nil _ _), List.mem_append, List.mem_append]
      exact iff_of_true (.inr (.inl (by decide))) (.inl (by simp))

theorem anyComma_iff (h : List.Forall₂ Printed types texts) :
    anyComma types = true ↔ ∃ t ∈ texts, byte ',' ∈ t := by
  induction h with
  | nil => exact iff_of_false Bool.false_ne_true (by simp)
  | cons hp _ ih =>
    rw [anyComma, Bool.or_eq_true, ih, ← hp.comma, List.exists_mem_cons_iff]

/-- The body of a printed closure. -/
def closureBody (ret : List UInt8) (args : List (List UInt8)) : List UInt8 :=
  ascii "i8*, i8*, " ++ (ret ++ (ascii " (i8*, i8*" ++ ((if args = [] then [] else ascii ", ") ++
    (join (ascii ", ") args ++ ascii ")*"))))

theorem makeFunctionStr_eq (ret : List UInt8) (args : List (List UInt8)) :
    (makeFunctionStr (ret :: args)).map (fun function => ascii "\x7bi8*, i8*, " ++ function ++
      ascii "*\x7d" ++ stars p) =
        some (byte '\x7b' :: (closureBody ret args ++ byte '\x7d' :: stars p)) := by
  have hopen : ascii "\x7bi8*, i8*, " = byte '\x7b' :: ascii "i8*, i8*, " := rfl
  have hclose : ascii "*\x7d" = ascii "*" ++ [byte '\x7d'] := rfl
  have hparen : ascii ")*" = ascii ")" ++ ascii "*" := rfl
  simp [makeFunctionStr, closureBody, hopen, hclose, hparen]

theorem clean_closureBody {ret : List UInt8} {args : List (List UInt8)} (hret : Clean ret)
    (hargs : ∀ t ∈ args, Clean t) : Clean (closureBody ret args) := by
  have hcomma : Clean (ascii ", ") := clean_of_plain (by decide)
  have hopt : Clean (if args = [] then [] else ascii ", ") := by
    split
    · exact clean_of_plain (List.forall_mem_nil _)
    · exact hcomma
  exact (clean_of_plain (by decide)).append (hret.append ((clean_of_plain (by decide)).append
    (hopt.append ((clean_join hcomma hargs).append (clean_of_plain (by decide))))))

theorem sharp_closureBody {ret : List UInt8} {args : List (List UInt8)}
    (hret : ∀ a ∈ ret, a ≠ byte '#') (hargs : ∀ t ∈ args, ∀ a ∈ t, a ≠ byte '#') :
    ∀ a ∈ closureBody ret args, a ≠ byte '#' := by
  have hcomma : ∀ a ∈ ascii ", ", a ≠ byte '#' := by decide
  have hopt : ∀ a ∈ if args = [] then [] else ascii ", ", a ≠ byte '#' := by
    split
    · exact List.forall_mem_nil _
    · exact hcomma
  exact forall_mem_append (by decide) (forall_mem_append hret (forall_mem_append (by decide)
    (forall_mem_append hopt (forall_mem_append (forall_mem_join hcomma hargs) (by decide)))))

theorem sharp_wrapped {a c : UInt8} (ha : a ≠ byte '#') (hc : c ≠ byte '#')
    (hs : ∀ x ∈ s, x ≠ byte '#') : ∀ x ∈ a :: (s ++ c :: stars p), x ≠ byte '#' := by
  intro x hx
  rcases List.mem_cons.mp hx with rfl | hx
  · exact ha
  · apply forall_mem_append hs _ x hx
    intro y hy
    rcases List.mem_cons.mp hy with rfl | hy
    · exact hc
    · exact mem_stars_ne hy (by decide)

theorem comma_wrapped {a c : UInt8} (ha : a ≠ byte ',') (hc : c ≠ byte ',') :
    byte ',' ∈ a :: (s ++ c :: stars p) ↔ byte ',' ∈ s := by
  rw [List.mem_cons, List.mem_append, List.mem_cons]
  constructor
  · intro h
    rcases h with h | h | h | h
    · exact absurd h.symm ha
    · exact h
    · exact absurd h.symm hc
    · exact absurd h (not_mem_stars (by decide))
  · exact fun h => .inr (.inl h)

theorem printed_closure (ptr : ℕ) (hne : types ≠ []) (h : List.Forall₂ Printed types texts) :
    ∃ ret args, texts = ret :: args ∧ Printed (.closure ptr types)
      (byte '\x7b' :: (closureBody ret args ++ byte '\x7d' :: stars ptr)) := by
  have heq := getTypeStrs_eq h
  have hclean := forall_texts h fun _ _ hp => hp.piece.clean
  have hsharp := forall_texts h fun _ _ hp => hp.sharp
  cases h with
  | nil => exact absurd rfl hne
  | @cons _ ret _ args _ _ =>
    refine ⟨ret, args, rfl, ?_, .braces ptr (clean_closureBody (hclean ret List.mem_cons_self)
      fun t ht => hclean t (List.mem_cons_of_mem ret ht)), ?_, ?_⟩
    · rw [getTypeStr, heq]
      exact makeFunctionStr_eq ret args
    · exact sharp_wrapped (by decide) (by decide) (sharp_closureBody
        (hsharp ret List.mem_cons_self) fun t ht => hsharp t (List.mem_cons_of_mem ret ht))
    · refine iff_of_true ((comma_wrapped (by decide) (by decide)).mpr ?_) rfl
      exact List.mem_append_left _ (by decide)

theorem printed_tuple (ptr : ℕ) (h : List.Forall₂ Printed types texts) :
    Printed (.tuple ptr types)
      (byte '\x7b' :: (join (ascii ",") texts ++ byte '\x7d' :: stars ptr)) where
  eq := by
    have hopen : ascii "\x7b" = [byte '\x7b'] := rfl
    have hclose : ascii "\x7d" = [byte '\x7d'] := rfl
    rw [getTypeStr, getTypeStrs_eq h]
    simp [hopen, hclose]
  piece := .braces ptr (clean_join (clean_of_plain (by decide))
    (forall_texts h fun _ _ hp => hp.piece.clean))
  sharp := sharp_wrapped (by decide) (by decide)
    (forall_mem_join (by decide) (forall_texts h fun _ _ hp => hp.sharp))
  comma := by
    rw [comma_wrapped (by decide) (by decide), mem_join_comma, ← anyComma_iff h, hasComma,
      Bool.or_eq_true, decide_eq_true_iff, h.length_eq]

/-- The body of a printed array or vector. -/
def sizeBody (size : ℕ) (text : List UInt8) : List UInt8 :=
  decimalNat size ++ (ascii " x " ++ text)

theorem wordByte_of_isDigit {a : UInt8} (h : isDigit a = true) : wordByte a = true := by
  rw [wordByte, h]
  simp

theorem isDigit_ne {a c : UInt8} (h : isDigit a = true) (hc : isDigit c = false) : a ≠ c := by
  intro heq
  rw [heq, hc] at h
  cases h

theorem clean_sizeBody (size : ℕ) (h : Clean text) : Clean (sizeBody size text) :=
  (clean_of_plain fun _ ha => plain_of_wordByte
    (wordByte_of_isDigit (Atoms.isDigit_of_mem_decimalNat ha))).append
      ((clean_of_plain (by decide)).append h)

theorem sharp_sizeBody (size : ℕ) (h : ∀ a ∈ text, a ≠ byte '#') :
    ∀ a ∈ sizeBody size text, a ≠ byte '#' :=
  forall_mem_append (fun _ ha => isDigit_ne (Atoms.isDigit_of_mem_decimalNat ha) rfl)
    (forall_mem_append (by decide) h)

theorem comma_sizeBody (size : ℕ) : byte ',' ∈ sizeBody size text ↔ byte ',' ∈ text := by
  rw [sizeBody, List.mem_append, List.mem_append]
  constructor
  · intro h
    rcases h with h | h | h
    · exact absurd rfl (isDigit_ne (Atoms.isDigit_of_mem_decimalNat h) rfl)
    · exact absurd h (by decide)
    · exact h
  · exact fun h => .inr (.inr h)

theorem head_sizeBody (size : ℕ) (text : List UInt8) :
    ∃ a ∈ (sizeBody size text).head?, a ≠ byte '\x7b' := by
  have hdigit (a : UInt8) := Atoms.isDigit_of_mem_decimalNat (n := size) (b := a)
  rw [sizeBody]
  cases hds : decimalNat size with
  | nil => exact absurd hds (Atoms.decimalNat_ne_nil size)
  | cons a ds =>
    rw [hds] at hdigit
    exact ⟨a, rfl, isDigit_ne (hdigit a List.mem_cons_self) rfl⟩

theorem printed_array (ptr size : ℕ) (h : Printed type text) :
    Printed (.array ptr size type)
      (byte '[' :: (sizeBody size text ++ byte ']' :: stars ptr)) where
  eq := by
    have hopen : ascii "[" = [byte '['] := rfl
    have hclose : ascii "]" = [byte ']'] := rfl
    rw [getTypeStr, h.eq]
    simp [hopen, hclose, sizeBody]
  piece := .squares ptr (clean_sizeBody size h.piece.clean)
  sharp := sharp_wrapped (by decide) (by decide) (sharp_sizeBody size h.sharp)
  comma := by rw [comma_wrapped (by decide) (by decide), comma_sizeBody, h.comma, hasComma]

theorem printed_vector (ptr size : ℕ) (h : Printed type text) :
    Printed (.vector ptr size type)
      (byte '<' :: (sizeBody size text ++ byte '>' :: stars ptr)) where
  eq := by
    have hopen : ascii "<" = [byte '<'] := rfl
    have hclose : ascii ">" = [byte '>'] := rfl
    rw [getTypeStr, h.eq]
    simp [hopen, hclose, sizeBody]
  piece := .angles ptr (clean_sizeBody size h.piece.clean) (head_sizeBody size text)
  sharp := sharp_wrapped (by decide) (by decide) (sharp_sizeBody size h.sharp)
  comma := by rw [comma_wrapped (by decide) (by decide), comma_sizeBody, h.comma, hasComma]

/-- A word without a sharp and stars. -/
theorem printed_word {name : List UInt8} (heq : getTypeStr type = some (name ++ stars p))
    (hne : name ≠ []) (hname : ∀ a ∈ name, wordByte a = true ∧ a ≠ byte '#')
    (hcomma : hasComma type = false) : Printed type (name ++ stars p) where
  eq := heq
  piece := .word p hne fun a ha => (hname a ha).1
  sharp := forall_mem_append (fun a ha => (hname a ha).2) fun _ ha => mem_stars_ne ha (by decide)
  comma := by
    refine iff_of_false ?_ (by rw [hcomma]; exact Bool.false_ne_true)
    intro h
    rcases List.mem_append.mp h with h | h
    · exact absurd (hname _ h).1 (by decide)
    · exact not_mem_stars (by decide) h

/-- The names of the base types. -/
theorem exists_baseStr {base : ℤ} (h : 0 ≤ base ∧ base ≤ 11) :
    ∃ name, baseStr base = some name ∧ name ≠ [] ∧
      (∀ a ∈ name, wordByte a = true ∧ a ≠ byte '#') := by
  have hall : ∀ i < 12, (baseStr (i : ℕ)).any
      (fun name => name ≠ [] ∧ ∀ a ∈ name, wordByte a = true ∧ a ≠ byte '#') = true := by decide
  rcases Int.eq_ofNat_of_zero_le h.1 with ⟨i, rfl⟩
  rcases (Option.any_eq_true _ _).mp (hall i (by omega)) with ⟨name, heq, hname⟩
  exact ⟨name, heq, of_decide_eq_true hname⟩

theorem atomStr_base (p : ℕ) {base : ℤ} (h : 0 ≤ base ∧ base ≤ 11) :
    atomStr (100 * p + base) = (baseStr base).map fun name => name ++ stars p := by
  have hmod : (100 * p + base) % 100 = base := by omega
  have hdiv : ((100 * p + base) / 100).toNat = p := by omega
  rw [atomStr, if_neg (by omega), if_neg (by omega), if_neg (by omega), hmod, hdiv]

theorem exists_printed (h : WellFormed type) : ∃ s, Printed type s := by
  induction h with
  | void =>
    have hprint : getTypeStr (.atom (-1)) = some (ascii "void" ++ stars 0) := rfl
    exact ⟨_, printed_word hprint (by decide) (by decide) rfl⟩
  | base p base h =>
    rcases exists_baseStr h with ⟨name, heq, hne, hname⟩
    have hprint : getTypeStr (.atom (100 * p + base)) = some (name ++ stars p) := by
      rw [getTypeStr, atomStr_base p h, heq]
      rfl
    exact ⟨_, printed_word hprint hne hname rfl⟩
  | named p name h =>
    refine ⟨byte '%' :: name ++ stars p, printed_word rfl (List.cons_ne_nil _ _) ?_ rfl⟩
    intro a ha
    rcases List.mem_cons.mp ha with rfl | ha
    · decide
    · exact h a ha
  | closure ptr hne _ ih =>
    rcases exists_texts ih with ⟨texts, htexts⟩
    rcases printed_closure ptr hne htexts with ⟨_, _, -, hp⟩
    exact ⟨_, hp⟩
  | tuple ptr _ _ ih =>
    rcases exists_texts ih with ⟨texts, htexts⟩
    exact ⟨_, printed_tuple ptr htexts⟩
  | array ptr size _ ih =>
    rcases ih with ⟨text, htext⟩
    exact ⟨_, printed_array ptr size htext⟩
  | vector ptr size _ ih =>
    rcases ih with ⟨text, htext⟩
    exact ⟨_, printed_vector ptr size htext⟩

/-! ## Pointers and base -/

/-- The text of a type without its pointers. -/
structure Body (b : List UInt8) : Prop where
  last : ∃ a ∈ b.getLast?, a ≠ byte '*'
  sharp : ∀ a ∈ b, a ≠ byte '#'
  line : ∀ a ∈ b, a ≠ byte '\n'

theorem fails_endOfText {a : UInt8} (h : a ≠ byte '\n') : Fails endOfText (a :: t) :=
  fails_notAhead (first_alt_right (fails_seq_left (fails_lit h)) (first_anyByte h))

theorem first_endOfText : First endOfText [] [] := rfl

theorem endOfText_iff (hline : ∀ a ∈ s, a ≠ byte '\n') : t ∈ endOfText.results s ↔ s = [] ∧ t = [] := by
  cases s with
  | nil =>
    have hresults : endOfText.results [] = [[]] := rfl
    rw [hresults, List.mem_singleton]
    exact (and_iff_right rfl).symm
  | cons a s =>
    have hfails := fails_endOfText (t := s) (hline a List.mem_cons_self)
    rw [Fails] at hfails
    rw [hfails]
    exact iff_of_false List.not_mem_nil fun h => List.cons_ne_nil a s h.1

/-- Stars in front of a text whose last element is none do not reach its end. -/
theorem stars_inside {x y v w : List UInt8} (hlast : ∃ a ∈ x.getLast?, a ≠ byte '*')
    (hw : ∀ a ∈ w, a = byte '*') (h : x ++ v = w ++ y) :
    ∃ a z, x = w ++ a :: z ∧ y = a :: z ++ v := by
  rcases hlast with ⟨a, ha, hne⟩
  have hmem := List.mem_of_mem_getLast? ha
  rcases List.append_eq_append_iff.mp h with ⟨z, hwz, -⟩ | ⟨z, hxz, hy⟩
  · exact absurd (hw a (by rw [hwz]; exact List.mem_append_left z hmem)) hne
  · cases z with
    | nil =>
      rw [List.append_nil] at hxz
      rw [hxz] at hmem
      exact absurd (hw a hmem) hne
    | cons b z => exact ⟨b, z, hxz, hy⟩

theorem getPtrDepth_eq (h : Body body) (p : ℕ) : getPtrDepth (body ++ stars p) = p := by
  have hend : First (.alt endOfText (lit '#')) [] [] := first_alt_left first_endOfText
  have hstars : groupAt .empty anyStars (.alt endOfText (lit '#')) (stars p) =
      some (stars p, []) := by
    apply groupAt_star (v := [])
    · rw [List.append_nil]
      rfl
    · intro a ha
      rw [List.eq_of_mem_replicate ha]
      rfl
    · intro x y hxy hx
      exact absurd (List.append_eq_nil_iff.mp hxy.symm).1 hx
    · exact hend
  have hbody : ∀ x y, body = x ++ y → y ≠ [] →
      groupAt .empty anyStars (.alt endOfText (lit '#')) (y ++ stars p) = none := by
    intro x y hxy hy
    apply groupAt_eq_none
    intro s₁ h₁ s₂ h₂
    have hs₁ : s₁ = y ++ stars p := List.mem_singleton.mp h₁
    rw [hs₁] at h₂
    rcases mem_results_star_set.mp h₂ with ⟨u, heq, hu⟩
    have hlast : ∃ a ∈ y.getLast?, a ≠ byte '*' := by
      rcases h.last with ⟨a, ha, hne⟩
      rw [hxy, List.getLast?_append_of_ne_nil _ hy] at ha
      exact ⟨a, ha, hne⟩
    rcases stars_inside hlast (fun a ha => beq_iff_eq.mp (hu a ha)) heq with ⟨a, z, hyz, hs₂⟩
    have hmem : a ∈ body := by
      rw [hxy, hyz]
      simp
    rw [hs₂]
    exact fails_alt (fails_endOfText (h.line a hmem)) (fails_lit (h.sharp a hmem))
  rw [getPtrDepth, findGroup_append hbody, findGroup_of_groupAt hstars]
  exact List.length_replicate

theorem first_word (text t : List UInt8) : First (word text) (text ++ t) t := by
  induction text with
  | nil => exact first_empty t
  | cons a text ih => exact first_seq (first_set (beq_self_eq_true a)) ih

theorem mem_results_word {r : List UInt8} : r ∈ (word text).results s ↔ s = text ++ r := by
  induction text generalizing s with
  | nil =>
    constructor
    · exact fun h => (List.mem_singleton.mp h).symm
    · exact fun h => List.mem_singleton.mpr h.symm
  | cons a text ih =>
    have hword : word (a :: text) = .seq (.set (· == a)) (word text) := rfl
    rw [hword, mem_results_seq]
    constructor
    · intro h
      rcases h with ⟨s', hs', hr⟩
      rcases mem_results_set.mp hs' with ⟨b, hb, heq⟩
      rw [heq, beq_iff_eq.mp hb, ih.mp hr]
      rfl
    · intro h
      exact ⟨text ++ r, mem_results_set.mpr ⟨a, beq_self_eq_true a, h⟩, ih.mpr rfl⟩

theorem fails_of_forall {q : Bytes} (h : ∀ r, r ∉ q.results s) : Fails q s :=
  List.eq_nil_iff_forall_not_mem.mpr h

theorem getBaseType_eq (h : Body body) (p : ℕ) : getBaseType (body ++ stars p) = body := by
  have hsharp : ∀ a ∈ body ++ stars p, a ≠ byte '#' :=
    forall_mem_append h.sharp fun _ ha => mem_stars_ne ha (by decide)
  have hfind : (word (ascii "##")).find (body ++ stars p) = none := by
    apply find_eq_none
    · intro a ha t
      exact fails_seq_left (fails_set (beq_eq_false_iff_ne.mpr (hsharp a ha)))
    · exact fails_of_forall fun r hr => absurd (mem_results_word.mp hr) (by simp [ascii])
  have hgroup : groupAt .empty (.star anyByte) (.seq (word (stars p)) endOfText)
      (body ++ stars p) = some (body, []) := by
    apply groupAt_star rfl
    · exact fun a ha => bne_iff_ne.mpr (h.line a ha)
    · intro x y hxy hx _
      apply fails_of_forall
      intro r hr
      rcases mem_results_seq.mp hr with ⟨s', hs', -⟩
      have hlength := congrArg List.length (mem_results_word.mp hs')
      have hsum := congrArg List.length hxy
      rw [List.length_append] at hlength hsum
      have hpos := List.length_pos_iff.mpr hx
      omega
    · have hword := first_word (stars p) []
      rw [List.append_nil] at hword
      exact first_seq hword first_endOfText
  rw [getBaseType, hfind]
  simp only [getPtrDepth_eq h p, replaceGroupAt, hgroup]
  exact List.append_nil body

/-! ## The patterns for the kinds of types -/

theorem test_lit_eq_false {c : Char} {q : Bytes} {a : UInt8} (h : a ≠ byte c) :
    (Pattern.seq (lit c) q).test (a :: t) = false :=
  test_eq_false (fails_seq_left (fails_lit h))

theorem not_vector_test {a : UInt8} (h : a ≠ byte '<') {P : Prop} :
    ¬ (vectorPattern.test (a :: t) = true ∧ P) := by
  rw [vectorPattern, test_lit_eq_false h]
  exact fun htest => Bool.false_ne_true htest.1

theorem not_closure_test {a : UInt8} (h : a ≠ byte '\x7b') :
    ¬ closurePattern.test (a :: t) = true := by
  rw [closurePattern, test_lit_eq_false h]
  exact Bool.false_ne_true

theorem not_array_test {a : UInt8} (h : a ≠ byte '[') : ¬ arrayPattern.test (a :: t) = true := by
  rw [arrayPattern, test_lit_eq_false h]
  exact Bool.false_ne_true

theorem digits_test_eq_false {a : UInt8} (h : isDigit a = false) (hline : a ≠ byte '\n') :
    digitsPattern.test (a :: t) = false := by
  apply test_eq_false
  apply fails_seq
  intro s' hs'
  rw [results_star_of_fails (fails_set h), List.mem_singleton] at hs'
  rw [hs']
  exact fails_endOfText hline

theorem mem_results_lit {c : Char} (t : List UInt8) : t ∈ (lit c).results (byte c :: t) :=
  mem_results_set.mpr ⟨byte c, beq_self_eq_true (byte c), rfl⟩

theorem mem_results_any (hs : ∀ a ∈ s, a ≠ byte '\n') :
    t ∈ (Pattern.star anyByte).results (s ++ t) :=
  mem_results_star_set.mpr ⟨s, rfl, fun a ha => bne_iff_ne.mpr (hs a ha)⟩

theorem tuple_test (hs : ∀ a ∈ s, a ≠ byte '\n') :
    tuplePattern.test (byte '\x7b' :: (s ++ [byte '\x7d'])) = true := by
  have hopt : byte '\x7b' :: (s ++ [byte '\x7d']) ∈
      (Pattern.opt (lit '<')).results (byte '\x7b' :: (s ++ [byte '\x7d'])) :=
    mem_results_alt.mpr (.inr (List.mem_singleton.mpr rfl))
  have hend : [] ∈ (Pattern.seq (.opt (lit '>')) (.seq anyStars endOfText)).results [] := by
    decide
  refine test_iff.mpr ⟨[], mem_results_seq.mpr ⟨_, hopt, ?_⟩⟩
  refine mem_results_seq.mpr ⟨_, mem_results_lit _, ?_⟩
  exact mem_results_seq.mpr ⟨_, mem_results_any hs, mem_results_seq.mpr
    ⟨_, mem_results_lit _, hend⟩⟩

theorem vector_test (size : ℕ) (hs : ∀ a ∈ s, a ≠ byte '\n') :
    vectorPattern.test (byte '<' :: (sizeBody size s ++ [byte '>'])) = true := by
  have hdigits : ∀ a ∈ decimalNat size, a ≠ byte '\n' :=
    fun a ha => isDigit_ne (Atoms.isDigit_of_mem_decimalNat ha) rfl
  have hend : [] ∈ (Pattern.seq anyStars endOfText).results [] := by decide
  have htext : sizeBody size s ++ [byte '>'] =
      decimalNat size ++ (ascii " x " ++ (s ++ [byte '>'])) := by simp [sizeBody]
  rw [htext]
  refine test_iff.mpr ⟨[], mem_results_seq.mpr ⟨_, mem_results_lit _, ?_⟩⟩
  refine mem_results_seq.mpr ⟨_, mem_results_any hdigits, ?_⟩
  refine mem_results_seq.mpr ⟨_, mem_results_word.mpr rfl, ?_⟩
  exact mem_results_seq.mpr ⟨_, mem_results_any hs, mem_results_seq.mpr
    ⟨_, mem_results_lit _, hend⟩⟩

theorem array_test (size : ℕ) (hs : ∀ a ∈ s, a ≠ byte '\n') :
    arrayPattern.test (byte '[' :: (sizeBody size s ++ [byte ']'])) = true := by
  have hdigits : ∀ a ∈ decimalNat size ++ ascii " ", a ≠ byte '\n' :=
    forall_mem_append (fun a ha => isDigit_ne (Atoms.isDigit_of_mem_decimalNat ha) rfl) (by decide)
  have hend : [] ∈ (Pattern.seq anyStars endOfText).results [] := by decide
  have htext : sizeBody size s ++ [byte ']'] =
      (decimalNat size ++ ascii " ") ++ (byte 'x' :: ((ascii " " ++ s) ++ [byte ']'])) := by
    have hx : ascii " x " = ascii " " ++ (byte 'x' :: ascii " ") := rfl
    simp [sizeBody, hx]
  rw [htext]
  refine test_iff.mpr ⟨[], mem_results_seq.mpr ⟨_, mem_results_lit _, ?_⟩⟩
  refine mem_results_seq.mpr ⟨_, mem_results_any hdigits, ?_⟩
  refine mem_results_seq.mpr ⟨_, mem_results_lit _, ?_⟩
  exact mem_results_seq.mpr ⟨_, mem_results_any (forall_mem_append (by decide) hs),
    mem_results_seq.mpr ⟨_, mem_results_lit _, hend⟩⟩

/-- What is between the second argument of a closure and its last parenthesis. -/
theorem exists_closureBody {ret : List UInt8} {texts : List (List UInt8)}
    (h : ∀ a ∈ closureBody ret texts, a ≠ byte '\n') :
    ∃ w, (∀ a ∈ w, a ≠ byte '\n') ∧
      closureBody ret texts = ascii "i8*, i8*" ++ (w ++ ascii ")*") := by
  refine ⟨ascii ", " ++ (ret ++ (ascii " (i8*, i8*" ++
    ((if texts = [] then [] else ascii ", ") ++ join (ascii ", ") texts))), ?_, ?_⟩
  · intro a ha
    apply h a
    rw [closureBody]
    simp only [List.mem_append] at ha ⊢
    rcases ha with ha | ha | ha | ha | ha
    · have hcomma : ∀ a ∈ ascii ", ", a ∈ ascii "i8*, i8*, " := by decide
      exact .inl (hcomma a ha)
    · exact .inr (.inl ha)
    · exact .inr (.inr (.inl ha))
    · exact .inr (.inr (.inr (.inl ha)))
    · exact .inr (.inr (.inr (.inr (.inl ha))))
  · have hopen : ascii "i8*, i8*, " = ascii "i8*, i8*" ++ ascii ", " := rfl
    simp [closureBody, hopen]

theorem closure_test {ret : List UInt8} (h : ∀ a ∈ closureBody ret texts, a ≠ byte '\n') :
    closurePattern.test (byte '\x7b' :: (closureBody ret texts ++ [byte '\x7d'])) = true := by
  rcases exists_closureBody h with ⟨w, hw, heq⟩
  have htext : closureBody ret texts ++ [byte '\x7d'] = ascii "i8*," ++ (byte ' ' ::
      (ascii "i8*" ++ (w ++ (byte ')' :: (stars 1 ++ [byte '\x7d']))))) := by
    have hopen : ascii "i8*, i8*" = ascii "i8*," ++ (byte ' ' :: ascii "i8*") := rfl
    have hclose : ascii ")*" = byte ')' :: stars 1 := rfl
    rw [heq, hopen, hclose]
    simp
  have hskip : ∀ t, ascii "i8*," ++ t ∈ optSpace.results (ascii "i8*," ++ t) := by
    intro t
    exact mem_results_alt.mpr (.inr (List.mem_singleton.mpr rfl))
  have hspace : ∀ t, t ∈ optSpace.results (byte ' ' :: t) := by
    intro t
    exact mem_results_alt.mpr (.inl (mem_results_set.mpr ⟨_, rfl, rfl⟩))
  have hend : [] ∈ (Pattern.seq anyStars (.seq (lit '\x7d') endOfText)).results
      (stars 1 ++ [byte '\x7d']) := by decide
  rw [htext]
  refine test_iff.mpr ⟨[], mem_results_seq.mpr ⟨_, mem_results_lit _, ?_⟩⟩
  refine mem_results_seq.mpr ⟨_, hskip _, ?_⟩
  refine mem_results_seq.mpr ⟨_, mem_results_word.mpr rfl, ?_⟩
  refine mem_results_seq.mpr ⟨_, hspace _, ?_⟩
  refine mem_results_seq.mpr ⟨_, mem_results_word.mpr rfl, ?_⟩
  refine mem_results_seq.mpr ⟨_, mem_results_any hw, ?_⟩
  exact mem_results_seq.mpr ⟨_, mem_results_lit _, hend⟩

/-- The last byte that is no star is no parenthesis. -/
def Ends (s : List UInt8) : Prop :=
  ∃ x a n, s = x ++ a :: stars n ∧ a ≠ byte '*' ∧ a ≠ byte ')'

theorem Ends.behind (h : Ends s) (t : List UInt8) : Ends (t ++ s) := by
  rcases h with ⟨x, a, n, heq, ha⟩
  exact ⟨t ++ x, a, n, by rw [heq, List.append_assoc], ha⟩

theorem ends_of_getLast {x : List UInt8} (hx : ∃ a ∈ x.getLast?, a ≠ byte '*' ∧ a ≠ byte ')')
    (n : ℕ) : Ends (x ++ stars n) := by
  rcases hx with ⟨a, ha, hne⟩
  rcases List.getLast?_eq_some_iff.mp ha with ⟨y, heq⟩
  exact ⟨y, a, n, by rw [heq, List.append_assoc]; rfl, hne⟩

theorem ends_piece (h : Piece s) : Ends s := by
  cases h with
  | @word w n hne hw =>
    apply ends_of_getLast
    have hmem := List.getLast_mem hne
    refine ⟨w.getLast hne, List.getLast?_eq_some_getLast hne, ?_, ?_⟩
    · intro heq
      exact absurd (hw _ hmem) (by rw [heq]; decide)
    · intro heq
      exact absurd (hw _ hmem) (by rw [heq]; decide)
  | @braces b n _ => exact ⟨byte '\x7b' :: b, byte '\x7d', n, rfl, by decide, by decide⟩
  | @squares b n _ => exact ⟨byte '[' :: b, byte ']', n, rfl, by decide, by decide⟩
  | @angles b n _ _ => exact ⟨byte '<' :: b, byte '>', n, rfl, by decide, by decide⟩

theorem ends_join {sep : List UInt8} (hne : texts ≠ []) (h : ∀ t ∈ texts, Piece t) :
    Ends (join sep texts) := by
  induction texts with
  | nil => exact absurd rfl hne
  | cons text texts ih =>
    cases texts with
    | nil =>
      rw [join_singleton]
      exact ends_piece (h text List.mem_cons_self)
    | cons text' texts =>
      have hrest := ih (List.cons_ne_nil _ _) fun t ht => h t (List.mem_cons_of_mem text ht)
      rw [join_cons sep text (List.cons_ne_nil _ _)]
      exact (hrest.behind sep).behind text

/-- Behind as many stars stands the same byte. -/
theorem eq_of_replicate {a c : UInt8} {x y : List UInt8} {m n : ℕ} (ha : a ≠ byte '*')
    (hc : c ≠ byte '*') (h : stars m ++ a :: x = stars n ++ c :: y) : a = c := by
  induction m generalizing n with
  | zero =>
    cases n with
    | zero => exact (List.cons.inj h).1
    | succ n => exact absurd (List.cons.inj h).1 ha
  | succ m ih =>
    cases n with
    | zero => exact absurd (List.cons.inj h).1.symm hc
    | succ n => exact ih (List.cons.inj h).2

theorem reverse_stars (n : ℕ) : (stars n).reverse = stars n := List.reverse_replicate

theorem Ends.ne (h : Ends s) (x : List UInt8) (n : ℕ) : s ≠ x ++ byte ')' :: stars n := by
  rcases h with ⟨y, a, m, rfl, hstar, hparen⟩
  intro heq
  have hreverse := congrArg List.reverse heq
  simp only [List.reverse_append, List.reverse_cons, reverse_stars, List.append_assoc,
    List.singleton_append] at hreverse
  exact hparen (eq_of_replicate hstar (by decide) hreverse)

/-- A closure has a parenthesis in front of its brace. -/
theorem closure_test_eq_false (hline : ∀ a ∈ s, a ≠ byte '\n') (hs : Ends (byte '\x7b' :: s)) :
    closurePattern.test (byte '\x7b' :: (s ++ [byte '\x7d'])) = false := by
  by_contra htest
  rw [Bool.not_eq_false, test_iff] at htest
  rcases htest with ⟨r, hr⟩
  have hline' : ∀ a ∈ byte '\x7b' :: (s ++ [byte '\x7d']), a ≠ byte '\n' := by
    intro a ha
    rcases List.mem_cons.mp ha with rfl | ha
    · decide
    · exact forall_mem_append hline (by decide) a ha
  rcases mem_results_seq.mp hr with ⟨s₁, h₁, hr⟩
  rcases mem_results_seq.mp hr with ⟨s₂, h₂, hr⟩
  rcases mem_results_seq.mp hr with ⟨s₃, h₃, hr⟩
  rcases mem_results_seq.mp hr with ⟨s₄, h₄, hr⟩
  rcases mem_results_seq.mp hr with ⟨s₅, h₅, hr⟩
  rcases mem_results_seq.mp hr with ⟨s₆, h₆, hr⟩
  have hsuffix := (suffix_of_mem_results _ _ _ h₆).trans ((suffix_of_mem_results _ _ _ h₅).trans
    ((suffix_of_mem_results _ _ _ h₄).trans ((suffix_of_mem_results _ _ _ h₃).trans
      ((suffix_of_mem_results _ _ _ h₂).trans (suffix_of_mem_results _ _ _ h₁)))))
  rcases mem_results_seq.mp hr with ⟨s₇, h₇, hr⟩
  rcases mem_results_seq.mp hr with ⟨s₈, h₈, hr⟩
  rcases mem_results_seq.mp hr with ⟨s₉, h₉, h₁₀⟩
  rcases mem_results_set.mp h₇ with ⟨a, ha, rfl⟩
  rcases mem_results_star_set.mp h₈ with ⟨u, rfl, hu⟩
  rcases mem_results_set.mp h₉ with ⟨c, hc, rfl⟩
  rcases hsuffix with ⟨x, hx⟩
  have hend : s₉ = [] := by
    refine ((endOfText_iff ?_).mp h₁₀).1
    intro b hb
    apply hline' b
    rw [← hx]
    simp [hb]
  have hstars : u = stars u.length := List.eq_replicate_length.mpr fun b hb => beq_iff_eq.mp (hu b hb)
  have hwhole : (byte '\x7b' :: s) ++ [byte '\x7d'] = (x ++ a :: u) ++ [c] := by
    rw [List.cons_append, ← hx, hend]
    simp
  have heq := (List.append_inj' hwhole rfl).1
  rw [beq_iff_eq.mp ha, hstars] at heq
  exact hs.ne x u.length heq

theorem baseNumber_eq_none {a : UInt8} (h : wordByte a = false) : baseNumber (a :: t) = none := by
  have hall : ∀ i ∈ (List.range 18).map Int.ofNat, ∀ name ∈ baseStr i, ∀ b ∈ name.head?,
      wordByte b = true := by decide
  rw [baseNumber, List.find?_eq_none]
  intro i hi heq
  have hword := hall i hi (a :: t) (of_decide_eq_true heq) a rfl
  rw [h] at hword
  cases hword

/-! ## The parts of a type -/

/-- The group runs up to the last closing bracket. -/
theorem groupAt_close {q₀ q : Bytes} {c : Char} {n : ℕ}
    (hp : q₀.results text = [s ++ byte c :: stars n]) (hline : ∀ a ∈ s, a ≠ byte '\n')
    (hc : byte c ≠ byte '*') (hq : First q (stars n) []) :
    groupAt q₀ (.star anyByte) (.seq (lit c) q) text = some (s, []) := by
  apply groupAt_star hp
  · exact fun a ha => bne_iff_ne.mpr (hline a ha)
  · intro x y hxy hx _
    cases x with
    | nil => exact absurd rfl hx
    | cons a x =>
      apply fails_seq_left
      cases y with
      | nil => exact fails_lit_nil c
      | cons b y =>
        have hmem : b ∈ stars n := by
          rw [(List.cons.inj hxy).2]
          simp
        exact fails_lit (mem_stars_ne hmem hc)
  · exact first_seq (first_lit c _) hq

theorem replaceGroupAt_eq {q₀ g q : Bytes} (h : groupAt q₀ g q text = some (s, [])) :
    replaceGroupAt q₀ g q text = s := by
  rw [replaceGroupAt, h]
  exact List.append_nil s

theorem replaceGroup_eq {q₀ g q : Bytes} (h : groupAt q₀ g q text = some (s, [])) :
    replaceGroup q₀ g q text = s := by
  rw [replaceGroup, findGroup_of_groupAt h]
  exact List.append_nil s

/-- `.*` behind a type. -/
theorem first_any_stars (n : ℕ) : First (.star anyByte) (stars n) [] := by
  have hline : ∀ a ∈ stars n, (a != byte '\n') = true :=
    fun a ha => bne_iff_ne.mpr (mem_stars_ne ha (by decide))
  have hfirst := first_star_set (r := []) hline (by simp)
  rwa [List.append_nil] at hfirst

theorem first_opt_any (n : ℕ) : First (.seq (.opt (lit '>')) (.star anyByte)) (stars n) [] := by
  refine first_seq (first_opt_skip ?_) (first_any_stars n)
  cases n with
  | zero => exact fails_lit_nil '>'
  | succ n => exact fails_lit (by decide)

theorem getTupleTypeFromStr_eq (read : List UInt8 → Option XType) (n : ℕ)
    (hline : ∀ a ∈ s, a ≠ byte '\n') (hrow : Row s texts) :
    getTupleTypeFromStr read (byte '\x7b' :: (s ++ byte '\x7d' :: stars n)) =
      texts.mapM read := by
  have hopen : (Pattern.seq (.opt (lit '<')) (lit '\x7b')).results
      (byte '\x7b' :: (s ++ byte '\x7d' :: stars n)) = [s ++ byte '\x7d' :: stars n] := rfl
  have hgroup := groupAt_close hopen hline (by decide) (first_opt_any n)
  simp only [getTupleTypeFromStr, replaceGroup_eq hgroup, hrow.structsOrAtoms_eq]
  rfl

theorem stops_of_mem {a : UInt8} (h : a ∈ ascii ",() ") (t : List UInt8) : Stops (a :: t) := by
  have hall : ∀ a ∈ ascii ",() ", wordByte a = false ∧ a ≠ byte '*' ∧ a ≠ byte '>' := by decide
  intro b hb
  rw [← Option.some.inj hb]
  exact hall a h

theorem stops_nil : Stops [] := fun _ h => absurd h (by simp)

theorem piece_decimalNat (size : ℕ) : Piece (decimalNat size) := by
  have hpiece := Piece.word 0 (Atoms.decimalNat_ne_nil size) fun _ ha =>
    wordByte_of_isDigit (Atoms.isDigit_of_mem_decimalNat ha)
  have hzero : stars 0 = [] := rfl
  rwa [hzero, List.append_nil] at hpiece

theorem row_sizeBody (size : ℕ) (h : Piece text) :
    Row (sizeBody size text) [decimalNat size, ascii "x", text] := by
  have hx : Piece (ascii "x" ++ stars 0) := .word 0 (by decide) (by decide)
  have htext : Row text [text] := by
    have hrow := Row.cons h stops_nil (.rest (List.forall_mem_nil _))
    rwa [List.append_nil] at hrow
  have hblank : ∀ a ∈ ascii " ", idle a = true := by decide
  have hbehind : Row (ascii " " ++ (ascii "x" ++ (ascii " " ++ text))) [ascii "x", text] :=
    .piece hblank hx (stops_of_mem (by decide) _) (htext.behind hblank)
  exact Row.cons (piece_decimalNat size) (stops_of_mem (by decide) _) hbehind

theorem stringToNumber_decimalNat (size : ℕ) : stringToNumber (decimalNat size) = some size := by
  have hall : (decimalNat size).all isDigit = true :=
    List.all_eq_true.mpr fun _ ha => Atoms.isDigit_of_mem_decimalNat ha
  have hvalue := @Atoms.digitsValue_decimalNat size [] (by simp)
  rw [List.append_nil] at hvalue
  rw [stringToNumber, if_pos ⟨Atoms.decimalNat_ne_nil size, hall⟩, hvalue]

theorem sizeAndType_eq (read : List UInt8 → Option XType) (size : ℕ) (x text : List UInt8) :
    sizeAndType read [decimalNat size, x, text] = (read text).map fun t => (size, t) := by
  rw [sizeAndType, stringToNumber_decimalNat]
  cases read text with
  | none => rfl
  | some t => rfl

theorem line_sizeBody (size : ℕ) (h : Piece text) : ∀ a ∈ sizeBody size text, a ≠ byte '\n' :=
  (clean_sizeBody size h.clean).line

theorem getArrayTypeFromStr_eq (read : List UInt8 → Option XType) (size n : ℕ) (h : Piece text) :
    getArrayTypeFromStr read (byte '[' :: (sizeBody size text ++ byte ']' :: stars n)) =
      (read text).map fun t => (size, t) := by
  have hopen : (lit '[').results (byte '[' :: (sizeBody size text ++ byte ']' :: stars n)) =
      [sizeBody size text ++ byte ']' :: stars n] := rfl
  have hgroup := groupAt_close hopen (line_sizeBody size h) (by decide) (first_any_stars n)
  simp only [getArrayTypeFromStr, replaceGroup_eq hgroup, (row_sizeBody size h).structsOrAtoms_eq]
  exact sizeAndType_eq read size (ascii "x") text

theorem getVectorTypeFromStr_eq (read : List UInt8 → Option XType) (size n : ℕ) (h : Piece text) :
    getVectorTypeFromStr read (byte '<' :: (sizeBody size text ++ byte '>' :: stars n)) =
      (read text).map fun t => (size, t) := by
  have hopen : (lit '<').results (byte '<' :: (sizeBody size text ++ byte '>' :: stars n)) =
      [sizeBody size text ++ byte '>' :: stars n] := rfl
  have hgroup := groupAt_close hopen (line_sizeBody size h) (by decide) (first_any_stars n)
  simp only [getVectorTypeFromStr, replaceGroup_eq hgroup,
    (row_sizeBody size h).structsOrAtoms_eq]
  exact sizeAndType_eq read size (ascii "x") text

/-- What is behind the second argument of a closure. -/
def functionText (ret : List UInt8) (args : List (List UInt8)) : List UInt8 :=
  ascii " " ++ (ret ++ (ascii " (i8*, i8*" ++ ((if args = [] then [] else ascii ", ") ++
    (join (ascii ", ") args ++ ascii ")*"))))

theorem closureBody_eq (ret : List UInt8) (args : List (List UInt8)) :
    closureBody ret args = ascii "i8*, i8*," ++ functionText ret args := by
  have hopen : ascii "i8*, i8*, " = ascii "i8*, i8*," ++ ascii " " := rfl
  rw [closureBody, functionText, hopen, List.append_assoc]

theorem row_functionText {ret : List UInt8} {args : List (List UInt8)} (hret : Piece ret)
    (hargs : ∀ t ∈ args, Piece t) :
    Row (functionText ret args) (ret :: ascii "i8*" :: ascii "i8*" :: args) := by
  have hpointer : Piece (ascii "i8" ++ stars 1) := .word 1 (by decide) (by decide)
  have hcomma : ∀ a ∈ ascii ", ", idle a = true := by decide
  have hrest : Row ((if args = [] then [] else ascii ", ") ++
      (join (ascii ", ") args ++ ascii ")*")) args ∧
        Stops ((if args = [] then [] else ascii ", ") ++ (join (ascii ", ") args ++ ascii ")*")) := by
    by_cases hnil : args = []
    · rw [if_pos hnil, hnil]
      exact ⟨.rest (by decide), stops_of_mem (by decide) _⟩
    · rw [if_neg hnil]
      refine ⟨Row.behind ?_ hcomma, stops_of_mem (by decide) _⟩
      exact row_join hcomma (fun t => stops_of_mem (by decide) _) hnil hargs (by decide)
        (stops_of_mem (by decide) _)
  have hsecond := Row.piece hcomma hpointer hrest.2 hrest.1
  have hparen : ∀ a ∈ ascii " (", idle a = true := by decide
  have hfirst := Row.piece hparen hpointer (stops_of_mem (by decide) _) hsecond
  have hblank : ∀ a ∈ ascii " ", idle a = true := by decide
  exact .piece hblank hret (stops_of_mem (by decide) _) hfirst

theorem getFunctionTypeFromStr_eq (read : List UInt8 → Option XType) {ret : List UInt8}
    {args : List (List UInt8)} (hret : Piece ret) (hargs : ∀ t ∈ args, Piece t) :
    getFunctionTypeFromStr read (functionText ret args) = (ret :: args).mapM read := by
  have hblank : ∀ a ∈ ascii " ", idle a = true := by decide
  have hparen : ∀ a ∈ ascii "(", idle a = true := by decide
  have hjoin : Row (join (ascii " ") args) args := by
    by_cases hnil : args = []
    · rw [hnil]
      exact .rest (List.forall_mem_nil _)
    · have hrow := row_join hblank (fun t => stops_of_mem (by decide) _) hnil hargs
        (List.forall_mem_nil _) stops_nil
      rwa [List.append_nil] at hrow
  have hrow : Row (ascii "(" ++ (ret ++ (ascii " " ++ join (ascii " ") args))) (ret :: args) :=
    .piece hparen hret (stops_of_mem (by decide) _) (hjoin.behind hblank)
  simp only [getFunctionTypeFromStr, (row_functionText hret hargs).structsOrAtoms_eq,
    Option.bind_eq_bind, Option.bind_some, List.append_assoc, hrow.structsOrAtoms_eq]

theorem getClosureTypeFromStr_eq (read : List UInt8 → Option XType) (n : ℕ) {ret : List UInt8}
    {args : List (List UInt8)} (hret : Piece ret) (hargs : ∀ t ∈ args, Piece t)
    (hline : ∀ a ∈ closureBody ret args, a ≠ byte '\n') :
    getClosureTypeFromStr read (byte '\x7b' :: (closureBody ret args ++ byte '\x7d' :: stars n)) =
      (ret :: args).mapM read := by
  have hopen : (Pattern.seq (lit '\x7b') (.seq optSpace (.seq (word (ascii "i8*,"))
      (.seq optSpace (word (ascii "i8*,")))))).results
        (byte '\x7b' :: (closureBody ret args ++ byte '\x7d' :: stars n)) =
          [functionText ret args ++ byte '\x7d' :: stars n] := rfl
  have hline' : ∀ a ∈ functionText ret args, a ≠ byte '\n' := by
    intro a ha
    apply hline a
    rw [closureBody_eq]
    exact List.mem_append_right _ ha
  have hgroup := groupAt_close hopen hline' (by decide)
    (first_seq (first_any_stars n) first_endOfText)
  rw [getClosureTypeFromStr, replaceGroupAt_eq hgroup, getFunctionTypeFromStr_eq read hret hargs]

/-! ## Reading back -/

theorem body_wrapped {a c : UInt8} (h : Piece (a :: (s ++ c :: stars p)))
    (hsharp : ∀ x ∈ a :: (s ++ c :: stars p), x ≠ byte '#') (hc : c ≠ byte '*') :
    Body (a :: (s ++ [c])) := by
  have hmem : ∀ x ∈ a :: (s ++ [c]), x ∈ a :: (s ++ c :: stars p) := by
    intro x hx
    simp only [List.mem_cons, List.mem_append, List.not_mem_nil, or_false] at hx ⊢
    rcases hx with hx | hx | hx
    · exact .inl hx
    · exact .inr (.inl hx)
    · exact .inr (.inr (.inl hx))
  refine ⟨⟨c, ?_, hc⟩, fun x hx => hsharp x (hmem x hx), fun x hx => h.clean.line x (hmem x hx)⟩
  rw [← List.cons_append, List.getLast?_append_of_ne_nil _ (List.cons_ne_nil c []),
    List.getLast?_singleton]
  rfl

theorem text_wrapped (a c : UInt8) (s : List UInt8) (p : ℕ) :
    a :: (s ++ c :: stars p) = a :: (s ++ [c]) ++ stars p := by simp

/-- The texts of the parts are shorter than a text that holds all of them. -/
theorem length_le_join {sep : List UInt8} (ht : t ∈ texts) :
    t.length ≤ (join sep texts).length := by
  induction texts with
  | nil => cases ht
  | cons text texts ih =>
    cases texts with
    | nil =>
      rw [join_singleton, List.mem_singleton.mp ht]
    | cons text' texts =>
      rw [join_cons sep text (List.cons_ne_nil _ _), List.length_append, List.length_append]
      rcases List.mem_cons.mp ht with rfl | ht
      · omega
      · have hlength := ih ht
        omega

theorem mapM_reread {read : List UInt8 → Option XType} (h : List.Forall₂ Printed types texts)
    (hread : ∀ t ∈ types, ∀ s ∈ texts, Printed t s → read s = reread t) :
    texts.mapM read = rereads types := by
  induction h with
  | nil => rfl
  | @cons type text types texts hp _ ih =>
    rw [List.mapM_cons, rereads, hread type List.mem_cons_self text List.mem_cons_self hp,
      ih fun t ht s hs => hread t (List.mem_cons_of_mem type ht) s (List.mem_cons_of_mem text hs)]
    rfl

/-- The branches for a text that begins with a bracket or a percent sign. -/
theorem getTypeFromStr_kinds {b : UInt8} {bs : List UInt8} (hdepth : getPtrDepth text = p)
    (hbase : getBaseType text = b :: bs) (hb : b ∈ ascii "\x7b[<%") :
    getTypeFromStr (fuel + 1) text =
      if vectorPattern.test (b :: bs) ∧ byte ',' ∉ b :: bs then
        (getVectorTypeFromStr (getTypeFromStr fuel) text).map fun t => .vector p t.1 t.2
      else if closurePattern.test (b :: bs) then
        (getClosureTypeFromStr (getTypeFromStr fuel) text).map (.closure p)
      else if tuplePattern.test (b :: bs) then
        (getTupleTypeFromStr (getTypeFromStr fuel) text).map (.tuple p)
      else if arrayPattern.test (b :: bs) then
        (getArrayTypeFromStr (getTypeFromStr fuel) text).map fun t => .array p t.1 t.2
      else if b = byte '%' then some (.named text)
      else (baseNumber (b :: bs)).map fun n => .atom (n + 100 * p) := by
  have hheads : ∀ b ∈ ascii "\x7b[<%", b ≠ byte '\\' ∧ b ≠ byte 'v' ∧ b ≠ byte 'n' ∧
      b ≠ byte '@' ∧ b ≠ byte 'c' ∧ b ≠ byte 't' ∧ b ≠ byte 'a' ∧ isDigit b = false ∧
      b ≠ byte '\n' := by decide
  rcases hheads b hb with ⟨hslash, hv, hn, hat, hc, ht, ha, hdigit, hline⟩
  have hne {a : UInt8} {x : List UInt8} (hab : b ≠ a) : b :: bs ≠ a :: x :=
    fun heq => hab (List.cons.inj heq).1
  have hvoid : b :: bs ≠ ascii "void" := hne hv
  have hnotype : b :: bs ≠ ascii "notype" := hne hn
  have hself : b :: bs ≠ ascii "@" := hne hat
  have hclosure : b :: bs ≠ ascii "closure" := hne hc
  have htuple : b :: bs ≠ ascii "tuple" := hne ht
  have harray : b :: bs ≠ ascii "array" := hne ha
  have hvector : b :: bs ≠ ascii "vector" := hne hv
  have hdigits : ¬ digitsPattern.test (b :: bs) = true := by
    rw [digits_test_eq_false hdigit hline]
    exact Bool.false_ne_true
  simp only [getTypeFromStr, hbase, hdepth, if_neg hslash, if_neg hvoid, if_neg hnotype,
    if_neg hself, if_neg hdigits, if_neg hclosure, if_neg htuple, if_neg harray, if_neg hvector,
    List.head?_cons, Option.some.injEq]

theorem getTypeFromStr_tuple (hpiece : Piece (byte '\x7b' :: (s ++ byte '\x7d' :: stars p)))
    (hsharp : ∀ a ∈ byte '\x7b' :: (s ++ byte '\x7d' :: stars p), a ≠ byte '#')
    (hends : Ends s) (hline : ∀ a ∈ s, a ≠ byte '\n') (hrow : Row s texts) :
    getTypeFromStr (fuel + 1) (byte '\x7b' :: (s ++ byte '\x7d' :: stars p)) =
      (texts.mapM (getTypeFromStr fuel)).map (.tuple p) := by
  have hbody := body_wrapped hpiece hsharp (by decide)
  have hread := getTupleTypeFromStr_eq (getTypeFromStr fuel) p hline hrow
  rw [text_wrapped] at hread ⊢
  rw [getTypeFromStr_kinds (getPtrDepth_eq hbody p) (getBaseType_eq hbody p) (by decide),
    if_neg, if_neg, if_pos (tuple_test hline), hread]
  · rw [closure_test_eq_false hline (hends.behind [_])]
    exact Bool.false_ne_true
  · exact not_vector_test (by decide)

theorem getTypeFromStr_closure {ret : List UInt8} {args : List (List UInt8)}
    (hpiece : Piece (byte '\x7b' :: (closureBody ret args ++ byte '\x7d' :: stars p)))
    (hsharp : ∀ a ∈ byte '\x7b' :: (closureBody ret args ++ byte '\x7d' :: stars p), a ≠ byte '#')
    (hret : Piece ret) (hargs : ∀ t ∈ args, Piece t) :
    getTypeFromStr (fuel + 1) (byte '\x7b' :: (closureBody ret args ++ byte '\x7d' :: stars p)) =
      ((ret :: args).mapM (getTypeFromStr fuel)).map (.closure p) := by
  have hbody := body_wrapped hpiece hsharp (by decide)
  have hline := (clean_closureBody hret.clean fun t ht => (hargs t ht).clean).line
  have hread := getClosureTypeFromStr_eq (getTypeFromStr fuel) p hret hargs hline
  rw [text_wrapped] at hread ⊢
  rw [getTypeFromStr_kinds (getPtrDepth_eq hbody p) (getBaseType_eq hbody p) (by decide),
    if_neg (not_vector_test (by decide)), if_pos (closure_test hline), hread]

theorem getTypeFromStr_array (size : ℕ)
    (hpiece : Piece (byte '[' :: (sizeBody size text ++ byte ']' :: stars p)))
    (hsharp : ∀ a ∈ byte '[' :: (sizeBody size text ++ byte ']' :: stars p), a ≠ byte '#')
    (h : Piece text) :
    getTypeFromStr (fuel + 1) (byte '[' :: (sizeBody size text ++ byte ']' :: stars p)) =
      (getTypeFromStr fuel text).map (.array p size) := by
  have hbody := body_wrapped hpiece hsharp (by decide)
  have hread := getArrayTypeFromStr_eq (getTypeFromStr fuel) size p h
  rw [text_wrapped] at hread ⊢
  rw [getTypeFromStr_kinds (getPtrDepth_eq hbody p) (getBaseType_eq hbody p) (by decide),
    if_neg, if_neg, if_neg, if_pos (array_test size h.clean.line), hread, Option.map_map]
  · rfl
  · rw [tuplePattern, test_eq_false (fails_braces (by decide) fun heq => absurd heq (by decide))]
    exact Bool.false_ne_true
  · exact not_closure_test (by decide)
  · exact not_vector_test (by decide)

/-- A vector is read if there is no comma in it. -/
theorem getTypeFromStr_vector (size : ℕ)
    (hpiece : Piece (byte '<' :: (sizeBody size text ++ byte '>' :: stars p)))
    (hsharp : ∀ a ∈ byte '<' :: (sizeBody size text ++ byte '>' :: stars p), a ≠ byte '#')
    (h : Piece text) :
    getTypeFromStr (fuel + 1) (byte '<' :: (sizeBody size text ++ byte '>' :: stars p)) =
      if byte ',' ∈ text then none else (getTypeFromStr fuel text).map (.vector p size) := by
  have hbody := body_wrapped hpiece hsharp (by decide)
  have hread := getVectorTypeFromStr_eq (getTypeFromStr fuel) size p h
  have hcomma : byte ',' ∈ byte '<' :: (sizeBody size text ++ [byte '>']) ↔ byte ',' ∈ text :=
    (comma_wrapped (p := 0) (by decide) (by decide)).trans (comma_sizeBody size)
  rw [text_wrapped] at hread ⊢
  rw [getTypeFromStr_kinds (getPtrDepth_eq hbody p) (getBaseType_eq hbody p) (by decide)]
  by_cases hmem : byte ',' ∈ text
  · rw [if_pos hmem, if_neg, if_neg, if_neg, if_neg, if_neg (by decide), baseNumber_eq_none rfl]
    · rfl
    · exact not_array_test (by decide)
    · rw [tuplePattern, test_eq_false]
      · exact Bool.false_ne_true
      · apply fails_braces (by decide)
        intro _ a ha
        rcases head_sizeBody size text with ⟨c, hc, hne⟩
        have hnil : sizeBody size text ≠ [] := by
          intro heq
          rw [heq] at hc
          cases hc
        rw [List.head?_append_of_ne_nil _ hnil] at ha
        rwa [Option.some.inj (ha.symm.trans hc)]
    · exact not_closure_test (by decide)
    · exact fun htest => htest.2 (hcomma.mpr hmem)
  · rw [if_neg hmem, if_pos ⟨vector_test size h.clean.line, fun hc => hmem (hcomma.mp hc)⟩, hread,
      Option.map_map]
    rfl

/-- A name of a base type goes through all branches to the last one. -/
structure LastBranch (base : ℤ) (name : List UInt8) : Prop where
  kinds : ∀ kind ∈ [ascii "void", ascii "notype", ascii "@", ascii "closure", ascii "tuple",
    ascii "array", ascii "vector"], name ≠ kind
  heads : ∀ a ∈ name.head?, a ≠ byte '\\' ∧ a ≠ byte '%'
  patterns : ∀ pattern ∈ [digitsPattern, vectorPattern, closurePattern, tuplePattern,
    arrayPattern], pattern.test name = false
  number : baseNumber name = some (eraseBase base)

theorem lastBranch {base : ℤ} {name : List UInt8} (h : 0 ≤ base ∧ base ≤ 11)
    (hname : baseStr base = some name) : LastBranch base name := by
  have hall : ∀ i < 12, ∀ name ∈ baseStr (i : ℕ),
      (∀ kind ∈ [ascii "void", ascii "notype", ascii "@", ascii "closure", ascii "tuple",
        ascii "array", ascii "vector"], name ≠ kind) ∧
      (∀ a ∈ name.head?, a ≠ byte '\\' ∧ a ≠ byte '%') ∧
      (∀ pattern ∈ [digitsPattern, vectorPattern, closurePattern, tuplePattern, arrayPattern],
        pattern.test name = false) ∧
      baseNumber name = some (eraseBase (i : ℕ)) := by decide
  rcases Int.eq_ofNat_of_zero_le h.1 with ⟨i, rfl⟩
  rcases hall i (by omega) name hname with ⟨hkinds, hheads, hpatterns, hnumber⟩
  exact ⟨hkinds, hheads, hpatterns, hnumber⟩

theorem eraseAtom_eq (p : ℕ) {base : ℤ} (h : 0 ≤ base ∧ base ≤ 11) :
    eraseAtom (100 * p + base) = eraseBase base + 100 * p := by
  have hmod : (100 * p + base) % 100 = base := by omega
  rw [eraseAtom, if_neg (by omega), hmod]
  omega

theorem body_word {name : List UInt8} (hne : name ≠ [])
    (hname : ∀ a ∈ name, wordByte a = true ∧ a ≠ byte '#') : Body name := by
  have hlast := (hname _ (List.getLast_mem hne)).1
  refine ⟨⟨name.getLast hne, List.getLast?_eq_some_getLast hne, ?_⟩, fun a ha => (hname a ha).2, ?_⟩
  · intro heq
    rw [heq] at hlast
    cases hlast
  · exact fun a ha => plain_ne (plain_of_wordByte (hname a ha).1) rfl

theorem getTypeFromStr_base {base : ℤ} {name : List UInt8} (h : 0 ≤ base ∧ base ≤ 11)
    (heq : baseStr base = some name) (hne : name ≠ [])
    (hname : ∀ a ∈ name, wordByte a = true ∧ a ≠ byte '#') :
    getTypeFromStr (fuel + 1) (name ++ stars p) = some (.atom (eraseAtom (100 * p + base))) := by
  have hbody := body_word hne hname
  have hlast := lastBranch h heq
  have hkind (kind : List UInt8) (hk : kind ∈ [ascii "void", ascii "notype", ascii "@",
      ascii "closure", ascii "tuple", ascii "array", ascii "vector"]) := hlast.kinds kind hk
  have hpattern (pattern : Bytes) (hp : pattern ∈ [digitsPattern, vectorPattern, closurePattern,
      tuplePattern, arrayPattern]) : ¬ pattern.test name = true := by
    rw [hlast.patterns pattern hp]
    exact Bool.false_ne_true
  have hbase := getBaseType_eq hbody p
  cases name with
  | nil => exact absurd rfl hne
  | cons b bs =>
    rcases hlast.heads b rfl with ⟨hslash, hpercent⟩
    have hhead : ¬ (b :: bs).head? = some (byte '%') := fun hb => hpercent (Option.some.inj hb)
    have hvector : ¬ (vectorPattern.test (b :: bs) = true ∧ byte ',' ∉ b :: bs) :=
      fun hv => hpattern vectorPattern (by simp) hv.1
    simp only [getTypeFromStr, hbase, getPtrDepth_eq hbody p, if_neg hslash,
      if_neg (hkind (ascii "void") (by simp)), if_neg (hkind (ascii "notype") (by simp)),
      if_neg (hkind (ascii "@") (by simp)), if_neg (hkind (ascii "closure") (by simp)),
      if_neg (hkind (ascii "tuple") (by simp)), if_neg (hkind (ascii "array") (by simp)),
      if_neg (hkind (ascii "vector") (by simp)), if_neg (hpattern digitsPattern (by simp)),
      if_neg hvector, if_neg (hpattern closurePattern (by simp)),
      if_neg (hpattern tuplePattern (by simp)), if_neg (hpattern arrayPattern (by simp)),
      if_neg hhead, hlast.number, Option.map_some, eraseAtom_eq p h]

theorem getTypeFromStr_named {name : List UInt8}
    (hname : ∀ a ∈ name, wordByte a = true ∧ a ≠ byte '#') :
    getTypeFromStr (fuel + 1) (byte '%' :: name ++ stars p) =
      some (.named (byte '%' :: name ++ stars p)) := by
  have hword : ∀ a ∈ byte '%' :: name, wordByte a = true ∧ a ≠ byte '#' := by
    intro a ha
    rcases List.mem_cons.mp ha with rfl | ha
    · decide
    · exact hname a ha
  have hbody := body_word (List.cons_ne_nil (byte '%') name) hword
  rw [getTypeFromStr_kinds (getPtrDepth_eq hbody p) (getBaseType_eq hbody p) (by decide),
    if_neg, if_neg, if_neg, if_neg, if_pos rfl]
  · exact not_array_test (by decide)
  · rw [tuplePattern, test_eq_false (fails_braces (by decide) fun heq => absurd heq (by decide))]
    exact Bool.false_ne_true
  · exact not_closure_test (by decide)
  · exact not_vector_test (by decide)

/-- The text in the braces of a tuple is a row of its elements. -/
theorem tuple_row (hne : types ≠ []) (h : List.Forall₂ Printed types texts) :
    Row (join (ascii ",") texts) texts ∧ (∀ a ∈ join (ascii ",") texts, a ≠ byte '\n') ∧
      Ends (join (ascii ",") texts) := by
  have hpieces := forall_texts h fun _ _ hp => hp.piece
  have htexts : texts ≠ [] := by
    intro hnil
    rw [hnil] at h
    exact hne (List.forall₂_nil_right_iff.mp h)
  have hcomma : ∀ a ∈ ascii ",", idle a = true := by decide
  have hrow := row_join hcomma (fun t => stops_of_mem (by decide) _) htexts hpieces
    (List.forall_mem_nil _) stops_nil
  rw [List.append_nil] at hrow
  have hclean : Clean (join (ascii ",") texts) :=
    clean_join (clean_of_plain (by decide)) fun t ht => (hpieces t ht).clean
  exact ⟨hrow, hclean.line, ends_join htexts hpieces⟩

theorem Printed.unique (h : Printed type s) (h' : Printed type t) : s = t :=
  Option.some.inj (h.eq.symm.trans h'.eq)

/-- The text of a well formed type is read as the type without signs; there is no result just if a
vector has an element with a comma. -/
theorem getTypeFromStr_eq (h : WellFormed type) (hs : Printed type s) (hfuel : s.length < fuel) :
    getTypeFromStr fuel s = reread type := by
  induction h generalizing s fuel with
  | void =>
    have hprint : s = ascii "void" ++ stars 0 := Option.some.inj (hs.eq.symm.trans rfl)
    cases fuel with
    | zero => cases hfuel
    | succ fuel =>
      have hbody : Body (ascii "void") := body_word (by decide) (by decide)
      rw [hprint, reread]
      simp only [getTypeFromStr, getPtrDepth_eq hbody 0, getBaseType_eq hbody 0]
      rfl
  | base p base h =>
    rcases exists_baseStr h with ⟨name, heq, hne, hname⟩
    have hprint : s = name ++ stars p := by
      have hs' := hs.eq
      rw [getTypeStr, atomStr_base p h, heq] at hs'
      exact (Option.some.inj hs').symm
    cases fuel with
    | zero => cases hfuel
    | succ fuel =>
      rw [hprint, reread]
      exact getTypeFromStr_base h heq hne hname
  | named p name hname =>
    have hprint : s = byte '%' :: name ++ stars p := Option.some.inj (hs.eq.symm.trans rfl)
    cases fuel with
    | zero => cases hfuel
    | succ fuel =>
      rw [hprint, reread]
      exact getTypeFromStr_named hname
  | @closure ptr types hne hwf ih =>
    rcases exists_texts fun t ht => exists_printed (hwf t ht) with ⟨texts, htexts⟩
    rcases printed_closure ptr hne htexts with ⟨ret, args, rfl, hp⟩
    have hpieces := forall_texts htexts fun _ _ hp => hp.piece
    rw [hs.unique hp] at hfuel ⊢
    cases fuel with
    | zero => cases hfuel
    | succ fuel =>
      rw [getTypeFromStr_closure hp.piece hp.sharp (hpieces ret List.mem_cons_self)
        fun t ht => hpieces t (List.mem_cons_of_mem ret ht), reread, mapM_reread htexts]
      intro t ht text htext hprinted
      apply ih t ht hprinted
      have hlength : text.length ≤ (closureBody ret args).length := by
        rw [closureBody]
        simp only [List.length_append]
        rcases List.mem_cons.mp htext with rfl | htext
        · omega
        · have hjoin := @length_le_join _ _ (ascii ", ") htext
          omega
      rw [List.length_cons, List.length_append] at hfuel
      omega
  | @tuple ptr types hne hwf ih =>
    rcases exists_texts fun t ht => exists_printed (hwf t ht) with ⟨texts, htexts⟩
    have hp := printed_tuple ptr htexts
    rcases tuple_row hne htexts with ⟨hrow, hline, hends⟩
    rw [hs.unique hp] at hfuel ⊢
    cases fuel with
    | zero => cases hfuel
    | succ fuel =>
      rw [getTypeFromStr_tuple hp.piece hp.sharp hends hline hrow, reread, mapM_reread htexts]
      intro t ht text htext hprinted
      apply ih t ht hprinted
      have hjoin := @length_le_join _ _ (ascii ",") htext
      rw [List.length_cons, List.length_append] at hfuel
      omega
  | @array ptr size type hwf ih =>
    rcases exists_printed hwf with ⟨text, htext⟩
    have hp := printed_array ptr size htext
    rw [hs.unique hp] at hfuel ⊢
    cases fuel with
    | zero => cases hfuel
    | succ fuel =>
      rw [getTypeFromStr_array size hp.piece hp.sharp htext.piece, reread, ih htext]
      simp only [sizeBody, List.length_cons, List.length_append] at hfuel
      omega
  | @vector ptr size type hwf ih =>
    rcases exists_printed hwf with ⟨text, htext⟩
    have hp := printed_vector ptr size htext
    rw [hs.unique hp] at hfuel ⊢
    cases fuel with
    | zero => cases hfuel
    | succ fuel =>
      rw [getTypeFromStr_vector size hp.piece hp.sharp htext.piece, reread, ih htext]
      · simp only [htext.comma]
      · simp only [sizeBody, List.length_cons, List.length_append] at hfuel
        omega

/-- The elements that are found in the text of a tuple. -/
theorem getTupleTypeFromStr_printed (h : List.Forall₂ Printed types texts) (hne : types ≠ [])
    (hwf : ∀ t ∈ types, WellFormed t) (ptr : ℕ) :
    getTupleTypeFromStr (fun s => getTypeFromStr (s.length + 1) s)
      (byte '\x7b' :: (join (ascii ",") texts ++ byte '\x7d' :: stars ptr)) = rereads types := by
  rcases tuple_row hne h with ⟨hrow, hline, -⟩
  rw [getTupleTypeFromStr_eq _ ptr hline hrow]
  apply mapM_reread h
  intro t ht s _ hs
  exact getTypeFromStr_eq (hwf t ht) hs (Nat.lt_succ_self _)

/-! ## Types without signs -/

theorem rereads_eq_some {types' : List XType} :
    rereads types = some types' ↔ List.Forall₂ (fun t t' => reread t = some t') types types' := by
  induction types generalizing types' with
  | nil =>
    rw [rereads, List.forall₂_nil_left_iff, Option.some.injEq]
    exact eq_comm
  | cons type types ih =>
    rw [rereads, List.forall₂_cons_left_iff]
    constructor
    · intro h
      rcases Option.bind_eq_some_iff.mp h with ⟨t', ht', h⟩
      rcases Option.bind_eq_some_iff.mp h with ⟨ts', hts', h⟩
      exact ⟨t', ts', ht', ih.mp hts', (Option.some.inj h).symm⟩
    · intro h
      rcases h with ⟨t', ts', ht', hts', rfl⟩
      rw [ht', ih.mpr hts']
      rfl

/-- The elements of a row of types that is read unchanged. -/
theorem rereads_mem (h : rereads types = some types) : ∀ t ∈ types, reread t = some t := by
  have hall := rereads_eq_some.mp h
  intro t ht
  exact List.forall₂_same.mp hall t ht

theorem eraseBase_range {base : ℤ} (h : 0 ≤ base ∧ base ≤ 11) :
    (0 ≤ eraseBase base ∧ eraseBase base ≤ 11) ∧ eraseBase (eraseBase base) = eraseBase base := by
  have hall : ∀ i < 12, (0 ≤ eraseBase (i : ℕ) ∧ eraseBase (i : ℕ) ≤ 11) ∧
      eraseBase (eraseBase (i : ℕ)) = eraseBase (i : ℕ) := by decide
  rcases Int.eq_ofNat_of_zero_le h.1 with ⟨i, rfl⟩
  exact hall i (by omega)

/-- What is read is again a well formed type, and reading it once more changes nothing. -/
structure Reread (type type' : XType) : Prop where
  wellFormed : WellFormed type'
  again : reread type' = some type'
  comma : hasComma type' = hasComma type

theorem reread_all {types' : List XType}
    (h : List.Forall₂ (fun t t' => reread t = some t') types types')
    (hread : ∀ t ∈ types, ∀ t', reread t = some t' → Reread t t') :
    (∀ t ∈ types', WellFormed t) ∧ rereads types' = some types' ∧
      anyComma types' = anyComma types := by
  induction h with
  | nil => exact ⟨fun _ ht => absurd ht List.not_mem_nil, rfl, rfl⟩
  | @cons type type' types types' hr _ ih =>
    have hhead := hread type List.mem_cons_self type' hr
    rcases ih fun t ht => hread t (List.mem_cons_of_mem type ht) with ⟨hwf, hagain, hcomma⟩
    refine ⟨List.forall_mem_cons.mpr ⟨hhead.wellFormed, hwf⟩, ?_, ?_⟩
    · rw [rereads, hhead.again, hagain]
      rfl
    · rw [anyComma, anyComma, hhead.comma, hcomma]

theorem reread_spec {type' : XType} (h : WellFormed type) (hr : reread type = some type') :
    Reread type type' := by
  induction h generalizing type' with
  | void =>
    rw [reread] at hr
    rw [← Option.some.inj hr]
    exact ⟨.void, rfl, rfl⟩
  | base p base h =>
    rcases eraseBase_range h with ⟨hrange, hagain⟩
    rw [reread, eraseAtom_eq p h, add_comm] at hr
    rw [← Option.some.inj hr]
    refine ⟨.base p _ hrange, ?_, rfl⟩
    rw [reread, eraseAtom_eq p hrange, hagain, add_comm]
  | named p name hname =>
    rw [reread] at hr
    rw [← Option.some.inj hr]
    exact ⟨.named p name hname, rfl, rfl⟩
  | @closure ptr types hne _ ih =>
    rw [reread] at hr
    rcases Option.map_eq_some_iff.mp hr with ⟨types', htypes, rfl⟩
    have hall := rereads_eq_some.mp htypes
    rcases reread_all hall fun t ht t' hr => ih t ht hr with ⟨hwf, hagain, -⟩
    have hne' : types' ≠ [] := fun hnil => hne (by
      rw [hnil] at hall
      exact List.forall₂_nil_right_iff.mp hall)
    exact ⟨.closure ptr hne' hwf, by rw [reread, hagain]; rfl, rfl⟩
  | @tuple ptr types hne _ ih =>
    rw [reread] at hr
    rcases Option.map_eq_some_iff.mp hr with ⟨types', htypes, rfl⟩
    have hall := rereads_eq_some.mp htypes
    rcases reread_all hall fun t ht t' hr => ih t ht hr with ⟨hwf, hagain, hcomma⟩
    have hne' : types' ≠ [] := fun hnil => hne (by
      rw [hnil] at hall
      exact List.forall₂_nil_right_iff.mp hall)
    refine ⟨.tuple ptr hne' hwf, by rw [reread, hagain]; rfl, ?_⟩
    rw [hasComma, hasComma, hcomma, hall.length_eq]
  | @array ptr size type _ ih =>
    rw [reread] at hr
    rcases Option.map_eq_some_iff.mp hr with ⟨type', htype, rfl⟩
    have helement := ih htype
    exact ⟨.array ptr size helement.wellFormed, by rw [reread, helement.again]; rfl,
      helement.comma⟩
  | @vector ptr size type _ ih =>
    rw [reread] at hr
    by_cases hc : hasComma type = true
    · rw [if_pos hc] at hr
      cases hr
    · rw [if_neg hc] at hr
      rcases Option.map_eq_some_iff.mp hr with ⟨type', htype, rfl⟩
      have helement := ih htype
      refine ⟨.vector ptr size helement.wellFormed, ?_, helement.comma⟩
      rw [reread, helement.comma, if_neg hc, helement.again]
      rfl

end Extempore.TypeParsing
