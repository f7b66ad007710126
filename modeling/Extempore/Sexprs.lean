import Extempore.TokenReader

/-!
# The grammar of data

The tokens of a datum follow a grammar, with one rule for each way in which a printer may write a
part of it. What the grammar derives is read as that datum, and so is its text, as far as its
strings are read as they are meant.
-/

namespace Extempore.Sexprs
open SchemeReader ReaderFrames Lexemes TokenReader

/-- A whole datum, or what follows the first element of a list. -/
inductive Part where
  | datum | tail
  deriving DecidableEq, Repr

/-- The frame of an abbreviation. -/
def abbreviates : Lexeme → Option Frame
  | .quote => some .rdQuote
  | .bquote => some .rdQquote
  | .comma => some .rdUnquote
  | .atmark => some .rdUqtsp
  | _ => none

/-- The lexemes are those of the datum. A vector behind a backquote is read as a list. -/
inductive Spells : Part → List Lexeme → Datum → Prop where
  | atom {text : List UInt8} (h : IsAtomText text) : Spells .datum [.atom text h] (.atom text)
  | sharpConst {text : List UInt8} (h : IsSharpText text) :
      Spells .datum [.sharpConst text h] (.sharpConst text)
  | string (raw s : List UInt8) : Spells .datum [.string raw s] (.string s)
  | splice (name : List UInt8) : Spells .datum [.splice name] (meant (.splice name))
  | nil : Spells .datum [.lparen, .rparen] .nil
  | list {ls ts : List Lexeme} {a d : Datum} : Spells .datum ls a → Spells .tail ts d →
      Spells .datum (.lparen :: (ls ++ ts)) (.pair a d)
  | vector {ls : List Lexeme} {e : Datum} : Spells .datum (.lparen :: ls) e →
      Spells .datum (.vec :: ls) (.vector e)
  | abbreviation {l : Lexeme} {ls : List Lexeme} {f : Frame} {v w : Datum} :
      abbreviates l = some f → wrap f v = some w → (l = .bquote → ls.head? ≠ some .vec) →
      Spells .datum ls v → Spells .datum (l :: ls) w
  | quasiVector {ls : List Lexeme} {v w : Datum} : wrap .rdQquoteVec v = some w →
      Spells .datum (.lparen :: ls) v → Spells .datum (.bquote :: .vec :: ls) w
  | close : Spells .tail [.rparen] .nil
  | next {ls ts : List Lexeme} {a d : Datum} : Spells .datum ls a → Spells .tail ts d →
      Spells .tail (ls ++ ts) (.pair a d)
  | dot {c : UInt8} (h : c = 32 ∨ c = 10 ∨ c = 9) {ls : List Lexeme} {d : Datum} :
      Spells .datum ls d → Spells .tail (.dot c h :: (ls ++ [.rparen])) d

/-- The tokens without comments. -/
def plain (ls : List Lexeme) : Tokens := ls.map fun l => (0, l)

variable {ls : List Lexeme} {v w : Datum} {frames : List Frame} {part : Part}

theorem Spells.starts (h : Spells .datum ls v) : ∃ l ls', ls = l :: ls' ∧ Starts l := by
  cases h with
  | @abbreviation l ls f v w hl =>
    refine ⟨l, ls, rfl, ?_⟩
    cases l with
    | rparen => cases hl
    | dot c h => cases hl
    | _ => trivial
  | _ => exact ⟨_, _, rfl, trivial⟩

theorem vector_of_spells (h : Spells .datum (.vec :: ls) v) : ∃ e, v = .vector e := by
  cases h with
  | vector => exact ⟨_, rfl⟩
  | abbreviation hl => cases hl

/-- From its first token on, a datum is read as the value in front of the frames; a tail is read
behind the elements before. -/
def IsRead : Part → List Lexeme → Datum → Prop
  | .datum, ls, v => ∀ rest frames,
      TokenReader.Steps ⟨(next (plain ls ++ rest)).2, .rdSexpr (next (plain ls ++ rest)).1, frames⟩
        ⟨rest, .value v, frames⟩
  | .tail, ls, v => ∀ rest args u frames,
      TokenReader.Steps ⟨plain ls ++ rest, .value u, .rdList args :: frames⟩
        ⟨rest, .value (Datum.revAppend v (u :: args)), frames⟩

theorem plain_append (ls ts : List Lexeme) (rest : Tokens) :
    plain (ls ++ ts) ++ rest = plain ls ++ (plain ts ++ rest) := by
  rw [plain, List.map_append, List.append_assoc]
  rfl

theorem step_wrap {f : Frame} (h : wrap f v = some w) (rest : Tokens) :
    TokenReader.step ⟨rest, .value v, f :: frames⟩ = .more ⟨rest, .value w, frames⟩ := by
  cases f with
  | rdList args => cases h
  | rdDot args => cases h
  | _ =>
    cases h
    rfl

/-- Two states with the same next step lead to the same end. -/
theorem steps_of_step_eq {s s' t : State} (h : TokenReader.Steps s t) (hne : s ≠ t)
    (hstep : TokenReader.step s' = TokenReader.step s) : TokenReader.Steps s' t := by
  cases Relation.ReflTransGen.cases_head h with
  | inl heq => exact absurd heq hne
  | inr hhead =>
    obtain ⟨u, hu, hrest⟩ := hhead
    exact .head (hstep.trans hu) hrest

theorem quasi_other {l : Lexeme} (hl : l ≠ .vec) (rest : Tokens) :
    quasi frames (.lexeme l, rest) = .more ⟨rest, .rdSexpr (.lexeme l), .rdQquote :: frames⟩ := by
  cases l with
  | vec => exact absurd rfl hl
  | _ => rfl

theorem step_abbreviation {l : Lexeme} {f : Frame} (hl : abbreviates l = some f)
    (hvec : l = .bquote → ls.head? ≠ some .vec) (hne : ls ≠ []) (rest : Tokens) :
    TokenReader.step ⟨plain ls ++ rest, .rdSexpr (.lexeme l), frames⟩ =
      .more ⟨(next (plain ls ++ rest)).2, .rdSexpr (next (plain ls ++ rest)).1, f :: frames⟩ := by
  cases l with
  | quote =>
    cases hl
    rfl
  | comma =>
    cases hl
    rfl
  | atmark =>
    cases hl
    rfl
  | bquote =>
    cases hl
    cases ls with
    | nil => exact absurd rfl hne
    | cons l ls => exact quasi_other (fun heq => hvec rfl (by rw [heq]; rfl)) _
  | _ => cases hl

/-- What the grammar derives is read. -/
theorem Spells.isRead (h : Spells part ls v) : IsRead part ls v := by
  induction h with
  | atom h => exact fun rest frames => .single rfl
  | sharpConst h => exact fun rest frames => .single rfl
  | string raw s => exact fun rest frames => .single rfl
  | splice name => exact fun rest frames => .single rfl
  | nil => exact fun rest frames => .single rfl
  | @list ls ts a d hls _ iha ihd =>
    intro rest frames
    obtain ⟨l, ls, rfl, hl⟩ := hls.starts
    have hopen : openTokens frames (.lexeme l, plain (ls ++ ts) ++ rest) = _ := openTokens_starts hl _
    have ha := iha (plain ts ++ rest) (.rdList [] :: frames)
    rw [← plain_append] at ha
    exact .head hopen (ha.trans (ihd rest [] a frames))
  | @vector ls e hls ih =>
    intro rest frames
    have hsteps := (ih rest (.rdVec :: frames)).tail (step_wrap rfl rest)
    exact steps_of_step_eq hsteps (by simp) rfl
  | @abbreviation l ls f v w hl hw hvec hls ih =>
    intro rest frames
    obtain ⟨l', ls', rfl, -⟩ := hls.starts
    exact .head (step_abbreviation hl hvec (by simp) rest)
      ((ih rest (f :: frames)).tail (step_wrap hw rest))
  | @quasiVector ls v w hw hls ih =>
    intro rest frames
    exact .head rfl ((ih rest (.rdQquoteVec :: frames)).tail (step_wrap hw rest))
  | close => exact fun rest args u frames => .single rfl
  | @next ls ts a d hls _ iha ihd =>
    intro rest args u frames
    obtain ⟨l, ls, rfl, hl⟩ := hls.starts
    have hnext : nextElement (u :: args) frames (.lexeme l, plain (ls ++ ts) ++ rest) = _ :=
      nextElement_starts hl _
    have ha := iha (plain ts ++ rest) (.rdList (u :: args) :: frames)
    rw [← plain_append] at ha
    exact .head hnext (ha.trans (ihd rest (u :: args) a frames))
  | @dot c h ls d hls ih =>
    intro rest args u frames
    have hd := ih ((0, .rparen) :: rest) (.rdDot (u :: args) :: frames)
    have hplain : plain (ls ++ [.rparen]) ++ rest = plain ls ++ (0, .rparen) :: rest :=
      plain_append ls [.rparen] rest
    refine .head ?_ (hd.tail rfl)
    rw [← hplain]
    rfl

/-- The tokens of a datum are accepted as this datum. -/
theorem Spells.accepts (h : Spells .datum ls v) : Accepts (plain ls) v := by
  have hread := h.isRead [] []
  rw [List.append_nil] at hread
  exact hread

/-! ## Texts -/

/-- The text is that of the lexemes with white space between them, and a delimiter may follow. -/
def Renders (ls : List Lexeme) (text : List UInt8) : Prop :=
  ∃ layout : Layout, render layout = text ∧ tokens layout = plain ls ∧
    ∀ layout' : Layout, Joined layout' → AtDelimiter (render layout') → Joined (layout ++ layout')

variable {qs qs' : List Lexeme} {l : Lexeme} {ts : List Lexeme} {text tail : List UInt8} {a d e : Datum}

theorem render_append (layout layout' : Layout) :
    render (layout ++ layout') = render layout ++ render layout' := List.flatMap_append

theorem atDelimiter_cons {b : UInt8} (hb : isDelimiter b) (rest : List UInt8) :
    AtDelimiter (b :: rest) := by
  intro c hc
  cases hc
  exact hb

theorem renders_single (hfollows : ∀ rest, AtDelimiter rest → l.Follows rest) :
    Renders [l] l.bytes := by
  refine ⟨[([], l)], ?_, rfl, fun layout' hlayout' hdelim => ⟨hfollows _ hdelim, hlayout'⟩⟩
  simp [render]

/-- White space in front. -/
theorem Renders.space (h : Renders (l :: ls) text) : Renders (l :: ls) (32 :: text) := by
  obtain ⟨layout, rfl, htokens, hjoined⟩ := h
  cases layout with
  | nil => cases htokens
  | cons p layout =>
    obtain ⟨gap, l'⟩ := p
    refine ⟨(.space 32 (by decide) :: gap, l') :: layout, rfl, ?_, hjoined⟩
    rw [← htokens]
    simp [tokens, Piece.isComment]

/-- A lexeme in front that may be followed by the text. -/
theorem Renders.cons (h : Renders ls text) (hfollows : ∀ rest, l.Follows (text ++ rest)) :
    Renders (l :: ls) (l.bytes ++ text) := by
  obtain ⟨layout, rfl, htokens, hjoined⟩ := h
  refine ⟨([], l) :: layout, rfl, ?_, ?_⟩
  · rw [tokens, List.map_cons, ← tokens, htokens]
    rfl
  · intro layout' hlayout' hdelim
    refine ⟨?_, hjoined layout' hlayout' hdelim⟩
    show l.Follows (render (layout ++ layout'))
    rw [render_append]
    exact hfollows _

theorem Renders.append (h : Renders ls text) (h' : Renders ts tail)
    (htail : ∀ rest, AtDelimiter (tail ++ rest)) : Renders (ls ++ ts) (text ++ tail) := by
  obtain ⟨layout, rfl, htokens, hjoined⟩ := h
  obtain ⟨layout', rfl, htokens', hjoined'⟩ := h'
  refine ⟨layout ++ layout', render_append .., ?_, ?_⟩
  · rw [tokens, List.map_append, ← tokens, ← tokens, htokens, htokens', plain, plain, plain,
      List.map_append]
  · intro layout'' hlayout hdelim
    rw [List.append_assoc]
    refine hjoined _ (hjoined' layout'' hlayout hdelim) ?_
    rw [render_append]
    exact htail _

/-- The text is one of the datum, with these lexemes in it that may be read as something else. -/
def Prints (qs : List Lexeme) (part : Part) (text : List UInt8) (v : Datum) :
    Prop :=
  ∃ ls, Renders ls text ∧ ls.flatMap doubtsOf = qs ∧ Spells part ls v

/-- The text behind the opening parenthesis of a list. -/
def Opens (qs : List Lexeme) (text : List UInt8) (e : Datum) : Prop :=
  ∃ ls, Renders ls text ∧ ls.flatMap doubtsOf = qs ∧ Spells .datum (.lparen :: ls) e

theorem prints_atom (h : IsAtomText text) : Prints [] .datum text (.atom text) :=
  ⟨[.atom text h], renders_single fun _ hdelim => Or.inl hdelim, rfl, .atom h⟩

theorem prints_sharpConst (h : IsSharpText text) :
    Prints [] .datum (35 :: text) (.sharpConst text) :=
  ⟨[.sharpConst text h], renders_single fun _ hdelim => Or.inl hdelim, rfl, .sharpConst h⟩

theorem prints_string (raw s : List UInt8) :
    Prints [.string raw s] .datum (34 :: (raw ++ [34])) (.string s) :=
  ⟨[.string raw s], renders_single fun _ _ => trivial, rfl, .string raw s⟩

/-- An unquoted name that begins with an at sign. -/
theorem prints_splice (name : List UInt8) :
    Prints [.splice name] .datum (44 :: 64 :: name) (meant (.splice name)) :=
  ⟨[.splice name], renders_single fun _ _ => trivial, rfl, .splice name⟩

theorem prints_close : Prints [] .tail [41] .nil :=
  ⟨[.rparen], renders_single fun _ _ => trivial, rfl, .close⟩

theorem opens_nil : Opens [] [41] .nil :=
  ⟨[.rparen], renders_single fun _ _ => trivial, rfl, .nil⟩

theorem Prints.space (h : Prints qs .datum text v) : Prints qs .datum (32 :: text) v := by
  obtain ⟨ls, hrenders, hqs, hspells⟩ := h
  obtain ⟨l, ls, rfl, -⟩ := hspells.starts
  exact ⟨_, hrenders.space, hqs, hspells⟩

theorem Prints.next (h : Prints qs .datum text a) (ht : Prints qs' .tail tail d)
    (hdelim : ∀ rest, AtDelimiter (tail ++ rest)) :
    Prints (qs ++ qs') .tail (text ++ tail) (.pair a d) := by
  obtain ⟨ls, hrenders, rfl, hspells⟩ := h
  obtain ⟨ts, hrenders', rfl, hspells'⟩ := ht
  exact ⟨_, hrenders.append hrenders' hdelim, List.flatMap_append, .next hspells hspells'⟩

theorem Prints.opens (h : Prints qs .datum text a) (ht : Prints qs' .tail tail d)
    (hdelim : ∀ rest, AtDelimiter (tail ++ rest)) :
    Opens (qs ++ qs') (text ++ tail) (.pair a d) := by
  obtain ⟨ls, hrenders, rfl, hspells⟩ := h
  obtain ⟨ts, hrenders', rfl, hspells'⟩ := ht
  exact ⟨_, hrenders.append hrenders' hdelim, List.flatMap_append, .list hspells hspells'⟩

theorem Opens.list (h : Opens qs text e) : Prints qs .datum (40 :: text) e := by
  obtain ⟨ls, hrenders, hqs, hspells⟩ := h
  have hcons : Renders (.lparen :: ls) (40 :: text) := hrenders.cons fun _ => trivial
  exact ⟨_, hcons, hqs, hspells⟩

theorem Opens.vector (h : Opens qs text e) : Prints qs .datum (35 :: 40 :: text) (.vector e) := by
  obtain ⟨ls, hrenders, hqs, hspells⟩ := h
  have hcons : Renders (.vec :: ls) (35 :: 40 :: text) := hrenders.cons fun _ => trivial
  exact ⟨_, hcons, hqs, .vector hspells⟩

theorem Opens.quasiVector (h : Opens qs text e) (hw : wrap .rdQquoteVec e = some w) :
    Prints qs .datum (96 :: 35 :: 40 :: text) w := by
  obtain ⟨ls, hrenders, hqs, hspells⟩ := h
  have hvec : Renders (.vec :: ls) (35 :: 40 :: text) := hrenders.cons fun _ => trivial
  have hcons : Renders (.bquote :: .vec :: ls) (96 :: 35 :: 40 :: text) := hvec.cons fun _ => trivial
  exact ⟨_, hcons, hqs, .quasiVector hw hspells⟩

/-- A dotted tail, behind a space. -/
theorem Prints.dot (h : Prints qs .datum text d) :
    Prints qs .tail (32 :: 46 :: 32 :: (text ++ [41])) d := by
  obtain ⟨ls, hrenders, rfl, hspells⟩ := h
  have hclose : Renders [.rparen] [41] := renders_single fun _ _ => trivial
  have hdelim : ∀ rest, AtDelimiter ([41] ++ rest) := fun rest => atDelimiter_cons (by decide) rest
  have hdot : Renders (.dot 32 (Or.inl rfl) :: (ls ++ [.rparen])) (46 :: 32 :: (text ++ [41])) :=
    (hrenders.append hclose hdelim).cons fun _ => trivial
  refine ⟨_, hdot.space, ?_, .dot (Or.inl rfl) hspells⟩
  simp [doubtsOf]

/-- The text behind the sign of an abbreviation; a vector must not follow a backquote. -/
theorem Prints.abbreviation {f : Frame} (h : Prints qs .datum text v) (hl : abbreviates l = some f)
    (hw : wrap f v = some w) (hfollows : ∀ rest, l.Follows (text ++ rest))
    (hvec : l = .bquote → ∀ e, v ≠ .vector e) : Prints qs .datum (l.bytes ++ text) w := by
  obtain ⟨ls, hrenders, hqs, hspells⟩ := h
  refine ⟨_, hrenders.cons hfollows, ?_, .abbreviation hl hw ?_ hspells⟩
  · cases l with
    | string raw t => cases hl
    | splice name => cases hl
    | _ => exact hqs
  · intro hquasi hhead
    cases ls with
    | nil => cases hhead
    | cons l' ls =>
      cases hhead
      obtain ⟨e, rfl⟩ := vector_of_spells hspells
      exact hvec hquasi e rfl

/-! ## Elements of a list -/

section

variable {α : Type} {q : α → List Lexeme} {f : α → List UInt8} {g : α → Datum}

theorem atDelimiter_elements (xs : List α) (rest : List UInt8) :
    AtDelimiter (xs.flatMap (fun x => 32 :: f x) ++ [41] ++ rest) := by
  cases xs with
  | nil => exact atDelimiter_cons (by decide) rest
  | cons x xs => exact atDelimiter_cons (by decide) _

/-- The rest of a proper list. -/
theorem prints_elements {xs : List α} (h : ∀ x ∈ xs, Prints (q x) .datum (f x) (g x)) :
    Prints (xs.flatMap q) .tail (xs.flatMap (fun x => 32 :: f x) ++ [41]) (.list (xs.map g)) := by
  induction xs with
  | nil => exact prints_close
  | cons x xs ih =>
    have hrest := ih fun y hy => h y (List.mem_cons_of_mem _ hy)
    have hnext := (h x List.mem_cons_self).space.next hrest (atDelimiter_elements xs)
    rw [List.flatMap_cons, List.flatMap_cons, List.append_assoc]
    exact hnext

/-- Elements with a space in front of each. -/
theorem opens_elements {xs : List α} (h : ∀ x ∈ xs, Prints (q x) .datum (f x) (g x)) :
    Opens (xs.flatMap q) (xs.flatMap (fun x => 32 :: f x) ++ [41]) (.list (xs.map g)) := by
  cases xs with
  | nil => exact opens_nil
  | cons x xs =>
    have hrest := prints_elements fun y hy => h y (List.mem_cons_of_mem _ hy)
    rw [List.flatMap_cons, List.flatMap_cons, List.append_assoc]
    exact (h x List.mem_cons_self).space.opens hrest (atDelimiter_elements xs)

/-- Elements with spaces between them. -/
theorem opens_intercalate {xs : List α} (h : ∀ x ∈ xs, Prints (q x) .datum (f x) (g x)) :
    Opens (xs.flatMap q) ([32].intercalate (xs.map f) ++ [41]) (.list (xs.map g)) := by
  cases xs with
  | nil => exact opens_nil
  | cons x xs =>
    have hrest := prints_elements fun y hy => h y (List.mem_cons_of_mem _ hy)
    have htext : [32].intercalate ((x :: xs).map f) = f x ++ xs.flatMap fun y => 32 :: f y := by
      clear h hrest
      induction xs generalizing x with
      | nil => simp
      | cons y xs ih =>
        rw [List.map_cons, List.map_cons, List.intercalate_cons_cons, ← List.map_cons, ih y]
        simp
    rw [htext, List.append_assoc]
    exact (h x List.mem_cons_self).opens hrest (atDelimiter_elements xs)

end

theorem doubtsIn_plain (ls : List Lexeme) : doubtsIn (plain ls) = ls.flatMap doubtsOf := by
  rw [doubtsIn, plain, List.flatMap_map]

/-- What is printed is read, or the reader meets a lexeme that is not read as it is meant. -/
theorem Prints.readsAs_or (h : Prints qs .datum text d) :
    (ReadsAs text d ∧ ∀ l ∈ qs, Readable l) ∨ MeetsDoubt qs d (start text) := by
  obtain ⟨ls, ⟨layout, rfl, htokens, hjoined⟩, rfl, hspells⟩ := h
  have hjoined' := hjoined [] trivial (by simp [AtDelimiter, render])
  rw [List.append_nil] at hjoined'
  have hor := Accepts.readsAs_or hjoined' (htokens ▸ hspells.accepts)
  rwa [htokens, doubtsIn_plain] at hor

end Extempore.Sexprs
