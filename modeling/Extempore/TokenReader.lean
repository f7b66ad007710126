import Extempore.Lexemes
import Extempore.ReaderFrames

/-!
# The reader on tokens

The reader on tokens does what the reader on characters does; of the space between two lexemes it
only sees the number of comments.
-/

namespace Extempore.TokenReader
open SchemeReader ReaderFrames Lexemes

/-- Lexemes with the number of comments in front of them. -/
abbrev Tokens := List (ℕ × Lexeme)

def tokens (layout : Layout) : Tokens := layout.map fun p => (p.1.countP Piece.isComment, p.2)

inductive Head where
  | eof | comment
  | lexeme (l : Lexeme)

def Head.token : Head → Token
  | .eof => .eof
  | .comment => .comment
  | .lexeme l => l.token

/-- `token` on tokens. -/
def next : Tokens → Head × Tokens
  | [] => (.eof, [])
  | (0, l) :: rest => (.lexeme l, rest)
  | (n + 1, l) :: rest => (.comment, (n, l) :: rest)

inductive Phase where
  | rdSexpr (h : Head)
  | value (v : Datum)

structure State where
  rest : Tokens
  phase : Phase
  frames : List Frame

inductive Outcome where
  | more (s : State)
  | done (v : Datum) (rest : Tokens)
  | stop

def openTokens (frames : List Frame) : Head × Tokens → Outcome
  | (.lexeme .rparen, rest) => .more ⟨rest, .value .nil, frames⟩
  | (.lexeme (.dot _ _), _) => .stop
  | (h, rest) => .more ⟨rest, .rdSexpr h, .rdList [] :: frames⟩

def nextElement (args : List Datum) (frames : List Frame) : Head × Tokens → Outcome
  | (.lexeme .rparen, rest) => .more ⟨rest, .value (Datum.revAppend .nil args), frames⟩
  | (.lexeme (.dot _ _), rest) => .more ⟨(next rest).2, .rdSexpr (next rest).1, .rdDot args :: frames⟩
  | (h, rest) => .more ⟨rest, .rdSexpr h, .rdList args :: frames⟩

/-- One comment is skipped in front of the next element of a list. -/
def skipComment : Head × Tokens → Head × Tokens
  | (.comment, rest) => next rest
  | r => r

def below (frames : List Frame) (r : Head × Tokens) : Outcome :=
  .more ⟨r.2, .rdSexpr r.1, frames⟩

def quasi (frames : List Frame) : Head × Tokens → Outcome
  | (.lexeme .vec, rest) => .more ⟨rest, .rdSexpr (.lexeme .lparen), .rdQquoteVec :: frames⟩
  | (h, rest) => .more ⟨rest, .rdSexpr h, .rdQquote :: frames⟩

def closeDotted (v : Datum) (args : List Datum) (frames : List Frame) : Head × Tokens → Outcome
  | (.lexeme .rparen, rest) => .more ⟨rest, .value (Datum.revAppend v args), frames⟩
  | _ => .stop

/-- What a lexeme is meant to be read as if its characters may be read as something else. -/
def meant : Lexeme → Datum
  | .string _ s => .string s
  | .splice name => .list [.atom (ascii "unquote"), .atom (64 :: name)]
  | _ => .nil

def dispatch (rest : Tokens) (frames : List Frame) : Lexeme → Outcome
  | .vec => openTokens (.rdVec :: frames) (next rest)
  | .lparen => openTokens frames (next rest)
  | .quote => below (.rdQuote :: frames) (next rest)
  | .bquote => quasi frames (next rest)
  | .comma => below (.rdUnquote :: frames) (next rest)
  | .atmark => below (.rdUqtsp :: frames) (next rest)
  | .atom text _ => .more ⟨rest, .value (.atom text), frames⟩
  | .sharpConst text _ => .more ⟨rest, .value (.sharpConst text), frames⟩
  | .string raw s => .more ⟨rest, .value (meant (.string raw s)), frames⟩
  | .splice name => .more ⟨rest, .value (meant (.splice name)), frames⟩
  | .rparen | .dot _ _ => .stop

def deliver (v : Datum) (rest : Tokens) : List Frame → Outcome
  | [] => .done v rest
  | .rdList args :: frames => nextElement (v :: args) frames (skipComment (next rest))
  | .rdDot args :: frames => closeDotted v args frames (next rest)
  | f :: frames =>
    match wrap f v with
    | some w => .more ⟨rest, .value w, frames⟩
    | none => .stop

def step (s : State) : Outcome :=
  match s.phase with
  | .rdSexpr .eof => .stop
  | .rdSexpr .comment => below s.frames (next s.rest)
  | .rdSexpr (.lexeme l) => dispatch s.rest s.frames l
  | .value v => deliver v s.rest s.frames

def start (ts : Tokens) : State := ⟨(next ts).2, .rdSexpr (next ts).1, []⟩

def Steps : State → State → Prop := Relation.ReflTransGen fun s s' => step s = .more s'

/-- The tokens are read as the datum `d`. -/
def Accepts (ts : Tokens) (d : Datum) : Prop := Steps (start ts) ⟨[], .value d, []⟩

/-! ## The reader on characters does the same -/

/-- What is in front of the reader after `token`. -/
def Head.Unread (layout : Layout) (curr : List UInt8) : Head → Prop
  | .eof => layout = [] ∧ curr = []
  | .comment =>
    ∃ text, (∀ b ∈ text, b ≠ 0 ∧ b ≠ 10 ∧ b ≠ 255) ∧ curr = text ++ 10 :: render layout
  | .lexeme l => l.Follows (render layout) ∧ curr = l.unread ++ render layout

/-- Both `token`s have the same result. -/
def Matches (r : Head × Tokens) (t : Token × Port) : Prop :=
  t.1 = r.1.token ∧ ∃ layout, Joined layout ∧ tokens layout = r.2 ∧ r.1.Unread layout t.2.curr

def Phase.Shown (layout : Layout) (curr : List UInt8) : Phase → SchemeReader.Phase → Prop
  | .value v, p => p = .value v ∧ curr = render layout
  | .rdSexpr h, p => p = .rdSexpr h.token ∧ h.Unread layout curr

/-- The reader on characters is in the same state. -/
def Shows (s : State) (r : Reader) : Prop :=
  r.frames = s.frames ∧
    ∃ layout, Joined layout ∧ tokens layout = s.rest ∧ s.phase.Shown layout r.port.curr r.phase

def Corresponds : Outcome → Result → Prop
  | .more s, .more r => Shows s r
  | .done v rest, .done w pt =>
    w = v ∧ ∃ layout, Joined layout ∧ tokens layout = rest ∧ pt.curr = render layout
  | .stop, .quit | .stop, .error => True
  | _, _ => False

variable {layout : Layout} {r : Head × Tokens} {t : Token × Port} {frames : List Frame}

theorem token_render (h : Joined layout) (past : List UInt8) :
    Matches (next (tokens layout)) (token ⟨past, render layout⟩) := by
  cases layout with
  | nil => exact ⟨rfl, [], trivial, rfl, rfl, rfl⟩
  | cons p layout =>
    obtain ⟨gap, l⟩ := p
    induction gap generalizing past with
    | nil =>
      obtain ⟨past', htoken⟩ := token_lexeme h.1 past
      have hrender : render (([], l) :: layout) = l.bytes ++ render layout := rfl
      rw [hrender, htoken]
      exact ⟨rfl, layout, h.2, rfl, h.1, rfl⟩
    | cons piece gap ih =>
      have hrender : render ((piece :: gap, l) :: layout) = piece.bytes ++ render ((gap, l) :: layout) := by
        simp [render]
      rw [hrender]
      cases piece with
      | space b hb =>
        show Matches _ (token ⟨past, b :: render ((gap, l) :: layout)⟩)
        rw [token_space hb]
        have htokens : tokens ((.space b hb :: gap, l) :: layout) = tokens ((gap, l) :: layout) := by
          simp [tokens, Piece.isComment]
        rw [htokens]
        exact ih (b :: past) h
      | comment text ht =>
        have htokens : tokens ((.comment text ht :: gap, l) :: layout) =
            (gap.countP Piece.isComment + 1, l) :: tokens layout := by
          simp [tokens, List.countP_cons, Piece.isComment]
        rw [htokens]
        have hbytes : (Piece.comment text ht).bytes ++ render ((gap, l) :: layout) =
            59 :: (text ++ 10 :: render ((gap, l) :: layout)) := by
          simp [Piece.bytes]
        rw [hbytes, token_comment]
        exact ⟨rfl, (gap, l) :: layout, h, rfl, text, ht, rfl⟩

theorem Matches.shows (h : Matches r t) :
    Shows ⟨r.2, .rdSexpr r.1, frames⟩ ⟨t.2, .rdSexpr t.1, frames⟩ := by
  obtain ⟨htok, layout, hjoined, hrest, hunread⟩ := h
  exact ⟨rfl, layout, hjoined, hrest, by rw [htok], hunread⟩

/-- After a token all of whose characters are read, a value is in front of the frames. -/
theorem shows_value {v : Datum} {l : Lexeme} {rest : Tokens} {pt : Port} (hl : l.unread = [])
    (h : ∃ layout, Joined layout ∧ tokens layout = rest ∧ (Head.lexeme l).Unread layout pt.curr) :
    Shows ⟨rest, .value v, frames⟩ ⟨pt, .value v, frames⟩ := by
  obtain ⟨layout, hjoined, hrest, -, hcurr⟩ := h
  exact ⟨rfl, layout, hjoined, hrest, rfl, by rw [hcurr, hl]; rfl⟩

theorem corresponds_open (h : Matches r t) :
    Corresponds (openTokens frames r) (dispatchOpen frames t) := by
  obtain ⟨head, rest⟩ := r
  obtain ⟨tok, pt⟩ := t
  obtain rfl : tok = head.token := h.1
  cases head with
  | eof => exact h.shows
  | comment => exact h.shows
  | lexeme l =>
    cases l with
    | rparen => exact shows_value rfl h.2
    | dot c hc => trivial
    | _ => exact h.shows

theorem corresponds_below (h : Matches r t) :
    Corresponds (below frames r) (.more ⟨t.2, .rdSexpr t.1, frames⟩) := h.shows

theorem corresponds_quasi (h : Matches r t) :
    Corresponds (quasi frames r)
      (if t.1 = .vec then .more ⟨t.2, .rdSexpr .lparen, .rdQquoteVec :: frames⟩
        else .more ⟨t.2, .rdSexpr t.1, .rdQquote :: frames⟩) := by
  obtain ⟨head, rest⟩ := r
  obtain ⟨tok, pt⟩ := t
  obtain rfl : tok = head.token := h.1
  cases head with
  | eof => exact h.shows
  | comment => exact h.shows
  | lexeme l =>
    cases l with
    | vec =>
      obtain ⟨layout, hjoined, hrest, hunread⟩ := h.2
      exact ⟨rfl, layout, hjoined, hrest, rfl, hunread⟩
    | _ => exact h.shows

/-- The port behind a closing parenthesis. -/
def skipNewline (pt : Port) : Port :=
  if (inchar pt).1 = chr '\n' then (inchar pt).2 else backchar (inchar pt).2 (inchar pt).1

theorem skipNewline_cons {past bs : List UInt8} {b : UInt8} (hb : b ≠ 0) (hb' : signedChar b ≠ eof) :
    (skipNewline ⟨past, b :: bs⟩).curr = if signedChar b = chr '\n' then bs else b :: bs := by
  rw [skipNewline, inchar_cons hb]
  dsimp only
  rw [backchar_cons hb']
  split <;> rfl

/-- A newline in front of a lexeme is white space. -/
theorem skipNewline_render {pt : Port} (h : Joined layout) (hcurr : pt.curr = render layout) :
    ∃ layout', Joined layout' ∧ tokens layout' = tokens layout ∧
      (skipNewline pt).curr = render layout' := by
  obtain ⟨past, curr⟩ := pt
  obtain rfl : curr = render layout := hcurr
  cases layout with
  | nil => exact ⟨[], trivial, rfl, rfl⟩
  | cons p layout =>
    obtain ⟨gap, l⟩ := p
    cases gap with
    | nil =>
      obtain ⟨b, bs, hbytes, hb⟩ := l.bytes_head
      have hrender : render (([], l) :: layout) = b :: (bs ++ render layout) := by
        show l.bytes ++ render layout = _
        rw [hbytes, List.cons_append]
      have hline : signedChar b ≠ chr '\n' := by
        intro heq
        have hspace := hb.not_space
        rw [heq] at hspace
        exact absurd hspace (by decide)
      refine ⟨_, h, rfl, ?_⟩
      rw [hrender, skipNewline_cons hb.ne_zero hb.ne_eof, if_neg hline]
    | cons piece gap =>
      have hrender : render ((piece :: gap, l) :: layout) = piece.bytes ++ render ((gap, l) :: layout) := by
        simp [render]
      cases piece with
      | space b hb =>
        have heof : signedChar b ≠ eof := by
          intro heq
          have hspace := hb.2
          rw [heq] at hspace
          exact absurd hspace (by decide)
        rw [hrender]
        show ∃ layout', _ ∧ _ ∧ (skipNewline ⟨past, b :: render ((gap, l) :: layout)⟩).curr = _
        rw [skipNewline_cons hb.1 heof]
        split
        · refine ⟨(gap, l) :: layout, h, ?_, rfl⟩
          simp [tokens, Piece.isComment]
        · exact ⟨_, h, rfl, hrender.symm⟩
      | comment text ht =>
        refine ⟨_, h, rfl, ?_⟩
        rw [hrender]
        exact skipNewline_cons (by decide) (by decide)

/-- A newline behind the closing parenthesis is read over. -/
theorem shows_close {v : Datum} {rest : Tokens} {pt : Port}
    (h : ∃ layout, Joined layout ∧ tokens layout = rest ∧ pt.curr = render layout) :
    Shows ⟨rest, .value v, frames⟩
      ⟨skipNewline pt, .value v, frames⟩ := by
  obtain ⟨layout, hjoined, rfl, hcurr⟩ := h
  obtain ⟨layout', hjoined', htokens, hcurr'⟩ := skipNewline_render hjoined hcurr
  exact ⟨rfl, layout', hjoined', htokens, rfl, hcurr'⟩

theorem corresponds_nextElement {args : List Datum} (h : Matches r t) :
    Corresponds (nextElement args frames r) (dispatchInList args frames t) := by
  obtain ⟨head, rest⟩ := r
  obtain ⟨tok, pt⟩ := t
  obtain rfl : tok = head.token := h.1
  cases head with
  | eof => exact h.shows
  | comment => exact h.shows
  | lexeme l =>
    cases l with
    | rparen =>
      obtain ⟨layout, hjoined, hrest, -, hcurr⟩ := h.2
      exact shows_close ⟨layout, hjoined, hrest, hcurr⟩
    | dot c hc =>
      obtain ⟨layout, hjoined, rfl, -, hcurr⟩ := h.2
      obtain ⟨past, curr⟩ := pt
      obtain rfl : curr = render layout := hcurr
      exact (token_render hjoined past).shows
    | _ => exact h.shows

theorem matches_skipComment (h : Matches r t) :
    Matches (skipComment r)
      (if t.1 = .comment then token (skipLine t.2.past t.2.curr) else t) := by
  obtain ⟨head, rest⟩ := r
  obtain ⟨tok, pt⟩ := t
  obtain rfl : tok = head.token := h.1
  cases head with
  | eof => exact h
  | comment =>
    obtain ⟨layout, hjoined, rfl, text, htext, hcurr⟩ := h.2
    obtain ⟨past, hskip⟩ := skipLine_comment htext pt.past (render layout)
    have hport : skipLine pt.past pt.curr = ⟨past, render layout⟩ := hcurr ▸ hskip
    show Matches (next (tokens layout)) (token (skipLine pt.past pt.curr))
    rw [hport]
    exact token_render hjoined past
  | lexeme l =>
    cases l with
    | _ => exact h

theorem corresponds_closeDotted {v : Datum} {args : List Datum} (h : Matches r t) :
    Corresponds (closeDotted v args frames r) (dispatchDotted v args frames t) := by
  obtain ⟨head, rest⟩ := r
  obtain ⟨tok, pt⟩ := t
  obtain rfl : tok = head.token := h.1
  cases head with
  | eof => trivial
  | comment => trivial
  | lexeme l =>
    cases l with
    | rparen => exact shows_value rfl h.2
    | _ => trivial

/-- The lexeme is read as it is meant. -/
def Readable (l : Lexeme) : Prop :=
  match l with
  | .string raw s => IsStringText raw s
  | .splice _ => False
  | _ => True

theorem step_dquote {past curr s : List UInt8} {pt : Port}
    (h : readstrexp past .ok 0 [] curr = (some s, pt)) :
    SchemeReader.step ⟨⟨past, curr⟩, .rdSexpr .dquote, frames⟩ = .more ⟨pt, .value (.string s), frames⟩ := by
  simp only [SchemeReader.step, h]

theorem corresponds_dispatch {l : Lexeme} {rest : Tokens} {pt : Port} (hl : Readable l)
    (h : ∃ layout, Joined layout ∧ tokens layout = rest ∧ (Head.lexeme l).Unread layout pt.curr) :
    Corresponds (dispatch rest frames l) (SchemeReader.step ⟨pt, .rdSexpr l.token, frames⟩) := by
  obtain ⟨layout, hjoined, rfl, hfollows, hcurr⟩ := h
  obtain ⟨past, curr⟩ := pt
  obtain rfl : curr = l.unread ++ render layout := hcurr
  have htoken := token_render hjoined past
  cases l with
  | lparen =>
    show Corresponds (openTokens _ _) (openList _ _)
    rw [openList_eq]
    exact corresponds_open htoken
  | vec =>
    show Corresponds (openTokens _ _) (openList _ _)
    rw [openList_eq]
    exact corresponds_open htoken
  | rparen => trivial
  | dot c hc => trivial
  | quote => exact corresponds_below htoken
  | comma => exact corresponds_below htoken
  | atmark => exact corresponds_below htoken
  | bquote => exact corresponds_quasi htoken
  | atom text ht =>
    obtain ⟨past', hread⟩ := (body_of_text ht.2).readstrUpto hfollows past
    show Corresponds _ (.more ⟨(readstrUpto delimiters past [] (text ++ render layout)).2,
      .value (.atom (readstrUpto delimiters past [] (text ++ render layout)).1), frames⟩)
    rw [hread]
    exact ⟨rfl, layout, hjoined, rfl, rfl, rfl⟩
  | sharpConst text ht =>
    obtain ⟨past', hread⟩ := (body_of_text ht.2.2).readstrUpto hfollows past
    show Corresponds _ (.more ⟨(readstrUpto delimiters past [] (text ++ render layout)).2,
      .value (.sharpConst (readstrUpto delimiters past [] (text ++ render layout)).1), frames⟩)
    rw [hread]
    exact ⟨rfl, layout, hjoined, rfl, rfl, rfl⟩
  | string raw s =>
    obtain ⟨past', hread⟩ := IsStringText.readstrexp hl past (render layout)
    have hcurr : (Lexeme.string raw s).unread ++ render layout = raw ++ 34 :: render layout := by
      simp [Lexeme.unread]
    rw [hcurr, Lexeme.token, step_dquote hread]
    exact ⟨rfl, layout, hjoined, rfl, rfl, rfl⟩
  | splice name => exact hl.elim

theorem step_corresponds {s : State} {r : Reader} (h : Shows s r)
    (hs : ∀ l, s.phase = .rdSexpr (.lexeme l) → Readable l) :
    Corresponds (step s) (SchemeReader.step r) := by
  obtain ⟨hframes, layout, hjoined, hrest, hshown⟩ := h
  obtain ⟨rest, phase, frames⟩ := s
  obtain ⟨pt, phase', frames'⟩ := r
  obtain rfl : frames' = frames := hframes
  cases phase with
  | rdSexpr head =>
    obtain ⟨hphase, hunread⟩ := hshown
    obtain rfl : phase' = .rdSexpr head.token := hphase
    cases head with
    | eof => trivial
    | comment =>
      obtain ⟨text, htext, hcurr⟩ := hunread
      obtain ⟨past, hskip⟩ := skipLine_comment htext pt.past (render layout)
      have hport : skipLine pt.past pt.curr = ⟨past, render layout⟩ := hcurr ▸ hskip
      obtain rfl : tokens layout = rest := hrest
      show Corresponds _ (afterToken (skipLine pt.past pt.curr) frames')
      rw [hport]
      exact corresponds_below (token_render hjoined past)
    | lexeme l => exact corresponds_dispatch (hs l rfl) ⟨layout, hjoined, hrest, hunread⟩
  | value v =>
    obtain ⟨hphase, hcurr⟩ := hshown
    obtain rfl : phase' = .value v := hphase
    obtain ⟨past, curr⟩ := pt
    obtain rfl : curr = render layout := hcurr
    obtain rfl : tokens layout = rest := hrest
    have htoken := token_render hjoined past
    cases frames' with
    | nil => exact ⟨rfl, layout, hjoined, rfl, rfl⟩
    | cons f frames =>
      cases f with
      | rdList args =>
        show Corresponds (nextElement _ _ _) (nextInList _ _ _)
        rw [nextInList_dispatch]
        exact corresponds_nextElement (matches_skipComment htoken)
      | rdDot args =>
        rw [step_rdDot]
        exact corresponds_closeDotted htoken
      | _ => exact ⟨rfl, layout, hjoined, rfl, rfl, rfl⟩

/-! ## Runs -/

def Phase.front : Phase → Option Datum
  | .rdSexpr _ => none
  | .value v => some v

variable {s s' : State} {d : Datum}

theorem frames_open (h : openTokens frames r = .more s') : ∃ above, s'.frames = above ++ frames := by
  obtain ⟨head, rest⟩ := r
  cases head with
  | eof =>
    cases h
    exact ⟨[.rdList []], rfl⟩
  | comment =>
    cases h
    exact ⟨[.rdList []], rfl⟩
  | lexeme l =>
    cases l with
    | rparen =>
      cases h
      exact ⟨[], rfl⟩
    | dot c hc => cases h
    | _ =>
      cases h
      exact ⟨[.rdList []], rfl⟩

theorem frames_quasi (h : quasi frames r = .more s') : ∃ above, s'.frames = above ++ frames := by
  obtain ⟨head, rest⟩ := r
  cases head with
  | eof =>
    cases h
    exact ⟨[.rdQquote], rfl⟩
  | comment =>
    cases h
    exact ⟨[.rdQquote], rfl⟩
  | lexeme l =>
    cases l with
    | vec =>
      cases h
      exact ⟨[.rdQquoteVec], rfl⟩
    | _ =>
      cases h
      exact ⟨[.rdQquote], rfl⟩

theorem frames_dispatch {l : Lexeme} {rest : Tokens} (h : dispatch rest frames l = .more s') :
    ∃ above, s'.frames = above ++ frames := by
  cases l with
  | lparen => exact frames_open h
  | vec =>
    obtain ⟨above, heq⟩ := frames_open h
    exact ⟨above ++ [.rdVec], by rw [heq, List.append_assoc]; rfl⟩
  | bquote => exact frames_quasi h
  | rparen => cases h
  | dot c hc => cases h
  | quote =>
    cases h
    exact ⟨[.rdQuote], rfl⟩
  | comma =>
    cases h
    exact ⟨[.rdUnquote], rfl⟩
  | atmark =>
    cases h
    exact ⟨[.rdUqtsp], rfl⟩
  | _ =>
    cases h
    exact ⟨[], rfl⟩

theorem shift_nextElement {args : List Datum} {v : Datum}
    (h : nextElement (v :: args) frames r = .more s') :
    Shift (some v) (.rdList args :: frames) s'.phase.front s'.frames := by
  obtain ⟨head, rest⟩ := r
  cases head with
  | eof =>
    cases h
    exact .next args v
  | comment =>
    cases h
    exact .next args v
  | lexeme l =>
    cases l with
    | rparen =>
      cases h
      exact .close args v
    | dot c hc =>
      cases h
      exact .dot args v
    | _ =>
      cases h
      exact .next args v

theorem shift_closeDotted {args : List Datum} {v : Datum} (h : closeDotted v args frames r = .more s') :
    Shift (some v) (.rdDot args :: frames) s'.phase.front s'.frames := by
  obtain ⟨head, rest⟩ := r
  cases head with
  | eof => cases h
  | comment => cases h
  | lexeme l =>
    cases l with
    | rparen =>
      cases h
      exact .closeDot args v
    | _ => cases h

theorem shift_step (h : step s = .more s') :
    Shift s.phase.front s.frames s'.phase.front s'.frames := by
  obtain ⟨rest, phase, frames⟩ := s
  cases phase with
  | rdSexpr head =>
    have habove : ∃ above, s'.frames = above ++ frames := by
      cases head with
      | eof => cases h
      | comment =>
        cases h
        exact ⟨[], rfl⟩
      | lexeme l => exact frames_dispatch h
    obtain ⟨above, heq⟩ := habove
    rw [heq]
    exact .read above _
  | value v =>
    cases frames with
    | nil => cases h
    | cons f frames =>
      cases f with
      | rdList args => exact shift_nextElement h
      | rdDot args => exact shift_closeDotted h
      | _ =>
        cases h
        exact .wrap rfl

/-- What is read in the end fits the frames all the time. -/
theorem Steps.ahead {rest : Tokens} (h : Steps s ⟨rest, .value d, []⟩) :
    Ahead s.frames d s.phase.front := by
  induction h using Relation.ReflTransGen.head_induction_on with
  | refl => rfl
  | head hstep _ ih => exact (shift_step hstep).ahead ih

/-- A token that a datum begins with. -/
def Starts : Lexeme → Prop
  | .rparen | .dot _ _ => False
  | _ => True

theorem openTokens_starts {l : Lexeme} (hl : Starts l) (rest : Tokens) :
    openTokens frames (.lexeme l, rest) = .more ⟨rest, .rdSexpr (.lexeme l), .rdList [] :: frames⟩ := by
  cases l with
  | rparen => exact hl.elim
  | dot c hc => exact hl.elim
  | _ => rfl

theorem nextElement_starts {l : Lexeme} {args : List Datum} (hl : Starts l) (rest : Tokens) :
    nextElement args frames (.lexeme l, rest) =
      .more ⟨rest, .rdSexpr (.lexeme l), .rdList args :: frames⟩ := by
  cases l with
  | rparen => exact hl.elim
  | dot c hc => exact hl.elim
  | _ => rfl

/-! ## Lexemes that may be read as something else -/

def doubtsOf : Lexeme → List Lexeme
  | .string raw s => [.string raw s]
  | .splice name => [.splice name]
  | _ => []

def Head.doubts : Head → List Lexeme
  | .lexeme l => doubtsOf l
  | _ => []

def doubtsIn (ts : Tokens) : List Lexeme :=
  ts.flatMap fun p => doubtsOf p.2

def Phase.doubts : Phase → List Lexeme
  | .rdSexpr h => h.doubts
  | .value _ => []

def State.doubts (s : State) : List Lexeme := s.phase.doubts ++ doubtsIn s.rest

theorem doubts_next (ts : Tokens) : (next ts).1.doubts ++ doubtsIn (next ts).2 = doubtsIn ts := by
  cases ts with
  | nil => rfl
  | cons p ts =>
    obtain ⟨n, l⟩ := p
    cases n <;> rfl

theorem doubts_open (h : openTokens frames r = .more s') :
    s'.doubts = r.1.doubts ++ doubtsIn r.2 := by
  obtain ⟨head, rest⟩ := r
  cases head with
  | eof =>
    cases h
    rfl
  | comment =>
    cases h
    rfl
  | lexeme l =>
    cases l with
    | dot c hc => cases h
    | _ =>
      cases h
      rfl

theorem doubts_nextElement {args : List Datum} (h : nextElement args frames r = .more s') :
    s'.doubts = r.1.doubts ++ doubtsIn r.2 := by
  obtain ⟨head, rest⟩ := r
  cases head with
  | eof =>
    cases h
    rfl
  | comment =>
    cases h
    rfl
  | lexeme l =>
    cases l with
    | dot c hc =>
      cases h
      exact doubts_next rest
    | _ =>
      cases h
      rfl

theorem doubts_quasi (h : quasi frames r = .more s') : s'.doubts = r.1.doubts ++ doubtsIn r.2 := by
  obtain ⟨head, rest⟩ := r
  cases head with
  | eof =>
    cases h
    rfl
  | comment =>
    cases h
    rfl
  | lexeme l =>
    cases l with
    | _ =>
      cases h
      rfl

theorem doubts_skipComment (r : Head × Tokens) :
    (skipComment r).1.doubts ++ doubtsIn (skipComment r).2 = r.1.doubts ++ doubtsIn r.2 := by
  obtain ⟨head, rest⟩ := r
  cases head with
  | comment => exact doubts_next rest
  | eof => rfl
  | lexeme l => rfl

/-- A step takes away the lexeme that is dispatched on and no other. -/
theorem doubts_step (h : step s = .more s') : s.doubts = s.phase.doubts ++ s'.doubts := by
  obtain ⟨rest, phase, frames⟩ := s
  refine congrArg (phase.doubts ++ ·) ?_
  show doubtsIn rest = s'.doubts
  have hnext := doubts_next rest
  cases phase with
  | rdSexpr head =>
    cases head with
    | eof => cases h
    | comment =>
      cases h
      exact hnext.symm
    | lexeme l =>
      cases l with
      | lparen => exact (doubts_open h ▸ hnext).symm
      | vec => exact (doubts_open h ▸ hnext).symm
      | bquote => exact (doubts_quasi h ▸ hnext).symm
      | rparen => cases h
      | dot c hc => cases h
      | quote =>
        cases h
        exact hnext.symm
      | comma =>
        cases h
        exact hnext.symm
      | atmark =>
        cases h
        exact hnext.symm
      | _ =>
        cases h
        rfl
  | value v =>
    cases frames with
    | nil => cases h
    | cons f frames =>
      cases f with
      | rdList args =>
        rw [doubts_nextElement h, doubts_skipComment, hnext]
      | rdDot args =>
        simp only [step, deliver] at h
        generalize next rest = r at h hnext
        obtain ⟨head, rest'⟩ := r
        cases head with
        | eof => cases h
        | comment => cases h
        | lexeme l =>
          cases l with
          | rparen =>
            cases h
            exact hnext.symm
          | _ => cases h
      | _ =>
        cases h
        rfl

/-- The next step of the reader on characters, unless a lexeme is not read as it is meant. -/
theorem shows_more {r : Reader} (h : Shows s r) (hstep : step s = .more s')
    (hs : ∀ l, s.phase = .rdSexpr (.lexeme l) → Readable l) :
    ∃ r', SchemeReader.step r = .more r' ∧ Shows s' r' := by
  have hcorr := step_corresponds h hs
  rw [hstep] at hcorr
  cases hr : SchemeReader.step r with
  | more r' =>
    rw [hr] at hcorr
    exact ⟨r', rfl, hcorr⟩
  | _ =>
    rw [hr] at hcorr
    exact hcorr.elim

theorem readable_of_mem_doubts {phase : Phase} (h : ∀ l, phase = .rdSexpr (.lexeme l) → Readable l) :
    ∀ l ∈ phase.doubts, Readable l := by
  intro l' hl'
  cases phase with
  | value v => cases hl'
  | rdSexpr head =>
    cases head with
    | eof => cases hl'
    | comment => cases hl'
    | lexeme l =>
      cases l with
      | string raw t =>
        obtain rfl := List.mem_singleton.mp hl'
        exact h _ rfl
      | splice name =>
        obtain rfl := List.mem_singleton.mp hl'
        exact h _ rfl
      | _ => cases hl'

theorem readable_of_doubtsOf {l : Lexeme} (h : ∀ l' ∈ doubtsOf l, Readable l') : Readable l := by
  cases l with
  | string raw t => exact h _ List.mem_cons_self
  | splice name => exact h _ List.mem_cons_self
  | _ => trivial

/-- The reader meets a lexeme `l` that is not read as it is meant, in a place where what is meant
stands in the end. -/
def MeetsDoubt (doubts : List Lexeme) (d : Datum) (r : Reader) : Prop :=
  ∃ l past rest frames, l ∈ doubts ∧ ¬ Readable l ∧ Fits frames (meant l) d ∧
    SchemeReader.Steps r ⟨⟨past, l.unread ++ rest⟩, .rdSexpr l.token, frames⟩

/-- The reader on characters gets to the same end, or it meets a lexeme that is not read as it is
meant. -/
theorem Shows.reads_or_meets {r : Reader} (h : Shows s r) (hsteps : Steps s ⟨[], .value d, []⟩) :
    (∃ r', SchemeReader.Steps r r' ∧ Shows ⟨[], .value d, []⟩ r' ∧ ∀ l ∈ s.doubts, Readable l) ∨
      MeetsDoubt s.doubts d r := by
  induction hsteps using Relation.ReflTransGen.head_induction_on generalizing r with
  | refl => exact Or.inl ⟨r, .refl, h, by simp [State.doubts, Phase.doubts, doubtsIn]⟩
  | @head s s' hstep hrest ih =>
    have hdoubts := doubts_step hstep
    by_cases hs : ∀ l, s.phase = .rdSexpr (.lexeme l) → Readable l
    · obtain ⟨r', hr, h'⟩ := shows_more h hstep hs
      refine (ih h').imp ?_ ?_
      · intro hreads
        obtain ⟨r'', hsteps, hshows, hreadable⟩ := hreads
        refine ⟨r'', .head hr hsteps, hshows, ?_⟩
        intro l hl
        rw [hdoubts] at hl
        rcases List.mem_append.mp hl with hl|hl
        · exact readable_of_mem_doubts hs l hl
        · exact hreadable l hl
      · intro hmeets
        obtain ⟨l, past, rest, frames, hmem, hnot, hfits, hsteps⟩ := hmeets
        refine ⟨l, past, rest, frames, ?_, hnot, hfits, .head hr hsteps⟩
        rw [hdoubts]
        exact List.mem_append_right _ hmem
    · push Not at hs
      obtain ⟨l, hphase, hl⟩ := hs
      obtain ⟨rest', phase, frames⟩ := s
      obtain rfl : phase = .rdSexpr (.lexeme l) := hphase
      obtain ⟨hframes, layout, -, -, hphase, -, hcurr⟩ := h
      obtain ⟨⟨past, curr⟩, phase, frames'⟩ := r
      obtain rfl : frames' = frames := hframes
      obtain rfl : phase = .rdSexpr l.token := hphase
      obtain rfl : curr = l.unread ++ render layout := hcurr
      cases l with
      | string raw t =>
        cases hstep
        exact Or.inr ⟨_, past, _, frames', List.mem_cons_self, hl, Steps.ahead hrest, .refl⟩
      | splice name =>
        cases hstep
        exact Or.inr ⟨_, past, _, frames', List.mem_cons_self, hl, Steps.ahead hrest, .refl⟩
      | _ => exact absurd trivial hl

theorem shows_start (h : Joined layout) :
    Shows (start (tokens layout)) (SchemeReader.start (render layout)) :=
  (token_render h []).shows

/-- At the end of the tokens the text is at its end. -/
theorem shows_done {r : Reader} (h : Shows ⟨[], .value d, []⟩ r) :
    ∃ pt, SchemeReader.step r = .done d pt ∧ (SchemeReader.token pt).1 = .eof := by
  obtain ⟨hframes, layout, -, hrest, hphase, hcurr⟩ := h
  obtain ⟨⟨past, curr⟩, phase, frames⟩ := r
  obtain rfl : frames = [] := hframes
  obtain rfl : phase = .value d := hphase
  obtain rfl : layout = [] := List.map_eq_nil_iff.mp hrest
  obtain rfl : curr = [] := hcurr
  exact ⟨_, rfl, rfl⟩

theorem eq_nil_of_next {ts : Tokens} (h : (next ts).1.token = .eof) : ts = [] := by
  cases ts with
  | nil => rfl
  | cons p ts =>
    obtain ⟨n, l⟩ := p
    cases n with
    | zero => cases l <;> cases h
    | succ n => cases h

/-- The reader on tokens follows the one on characters. -/
theorem Shows.accepts {r r' : Reader} {pt : Port} (h : Shows s r) (hs : ∀ l ∈ s.doubts, Readable l)
    (hsteps : SchemeReader.Steps r r') (hdone : SchemeReader.step r' = .done d pt)
    (heof : (SchemeReader.token pt).1 = .eof) : Steps s ⟨[], .value d, []⟩ := by
  induction hsteps using Relation.ReflTransGen.head_induction_on generalizing s with
  | refl =>
    obtain rfl := eq_of_step_done hdone
    obtain ⟨hframes, layout, hjoined, hrest, hshown⟩ := h
    obtain ⟨rest, phase, frames⟩ := s
    obtain rfl : [] = frames := hframes
    obtain ⟨past, curr⟩ := pt
    cases phase with
    | rdSexpr head => cases hshown.1
    | value v =>
      obtain ⟨hphase, hcurr⟩ := hshown
      obtain rfl : curr = render layout := hcurr
      cases hphase
      have heof' := (token_render hjoined past).1.symm.trans heof
      rw [hrest] at heof'
      cases eq_nil_of_next heof'
      exact .refl
  | head hstep _ ih =>
    have hhead : ∀ l, s.phase = .rdSexpr (.lexeme l) → Readable l := by
      intro l hl
      refine readable_of_doubtsOf fun l' hl' => hs l' (List.mem_append_left _ ?_)
      rw [hl]
      exact hl'
    have hcorr := step_corresponds h hhead
    rw [hstep] at hcorr
    cases hs' : step s with
    | more s' =>
      rw [hs'] at hcorr
      refine .head hs' (ih hcorr fun q hq => hs q ?_)
      rw [doubts_step hs']
      exact List.mem_append_right _ hq
    | _ =>
      rw [hs'] at hcorr
      exact hcorr.elim

theorem doubts_start (ts : Tokens) : (start ts).doubts = doubtsIn ts := doubts_next ts

theorem Accepts.readsAs_or (h : Joined layout) (ha : Accepts (tokens layout) d) :
    (ReadsAs (render layout) d ∧ ∀ l ∈ doubtsIn (tokens layout), Readable l) ∨
      MeetsDoubt (doubtsIn (tokens layout)) d (SchemeReader.start (render layout)) := by
  have hor := (shows_start h).reads_or_meets ha
  rw [doubts_start] at hor
  refine hor.imp_left ?_
  intro hreads
  obtain ⟨r, hsteps, hshows, hreadable⟩ := hreads
  obtain ⟨pt, hdone, heof⟩ := shows_done hshows
  exact ⟨⟨r, pt, hsteps, hdone, heof⟩, hreadable⟩

/-- The characters are read as the tokens, if all lexemes are read as they are meant. -/
theorem readsAs_iff (h : Joined layout) (hs : ∀ p ∈ layout, Readable p.2) :
    ReadsAs (render layout) d ↔ Accepts (tokens layout) d := by
  have hdoubts : ∀ l ∈ doubtsIn (tokens layout), Readable l := by
    intro l hl
    obtain ⟨t, ht, hl⟩ := List.mem_flatMap.mp hl
    obtain ⟨p, hp, rfl⟩ := List.mem_map.mp ht
    have hreadable : ∀ l, Phase.rdSexpr (.lexeme p.2) = .rdSexpr (.lexeme l) → Readable l := by
      intro l hl
      cases hl
      exact hs p hp
    exact readable_of_mem_doubts hreadable l hl
  constructor
  · intro hread
    obtain ⟨r, pt, hsteps, hdone, heof⟩ := hread
    rw [← doubts_start] at hdoubts
    exact (shows_start h).accepts hdoubts hsteps hdone heof
  · intro ha
    cases ha.readsAs_or h with
    | inl hread => exact hread.1
    | inr hmeets =>
      obtain ⟨l, past, rest, frames, hmem, hnot, -⟩ := hmeets
      exact absurd (hdoubts l hmem) hnot

end Extempore.TokenReader
