import Extempore.TokenReader

/-!
# Comments in front of tokens

A comment is skipped wherever the reader dispatches on a token, and one more by the loop of a list.
It is not skipped directly behind an opening parenthesis, behind the tail of a dotted list and
behind a backquote, where the reader looks for one certain token.
-/

namespace Extempore.ReaderComments
open SchemeReader ReaderFrames Lexemes TokenReader

/-- The same text without comments. -/
def bare (layout : Layout) : Layout :=
  layout.map fun p => (p.1.filter fun piece => !piece.isComment, p.2)

def strip (ts : Tokens) : Tokens := ts.map fun p => (0, p.2)

/-- What may be in front of a token. -/
inductive Before where
  | opening | bquote | other
  deriving DecidableEq, Repr

def before : Lexeme → Before
  | .lparen | .vec => .opening
  | .bquote => .bquote
  | _ => .other

/-- The lists around what follows a lexeme, each with whether there was a dot. -/
def after (levels : List Bool) : Lexeme → List Bool
  | .lparen | .vec => false :: levels
  | .dot _ _ => true :: levels.tail
  | .rparen => levels.tail
  | _ => levels

/-- The numbers of comments that do no harm in front of a lexeme. -/
def Allowed (levels : List Bool) (prev : Before) (n : ℕ) : Lexeme → Prop
  | .rparen => if prev = .opening ∨ levels.head? = some true then n = 0 else n ≤ 1
  | .dot _ _ => n ≤ 1
  | .vec => prev = .bquote → n = 0
  | _ => True

def Placed (levels : List Bool) (prev : Before) : Tokens → Prop
  | [] => True
  | (n, l) :: ts => Allowed levels prev n l ∧ Placed (after levels l) (before l) ts

/-- The lists that are being read, by their frames. -/
def levelsOf : List Frame → List Bool
  | [] => []
  | .rdList _ :: frames => false :: levelsOf frames
  | .rdDot _ :: frames => true :: levelsOf frames
  | _ :: frames => levelsOf frames

variable {s s' : State} {d : Datum} {frames : List Frame} {ts : Tokens} {n : ℕ} {l : Lexeme}

/-- The tokens are read to their end. -/
abbrev Finishes (s : State) (d : Datum) : Prop := Steps s ⟨[], .value d, []⟩

theorem finishes_more (h : step s = .more s') : Finishes s d ↔ Finishes s' d := by
  constructor
  · intro hs
    cases Relation.ReflTransGen.cases_head hs with
    | inl heq =>
      rw [heq] at h
      cases h
    | inr hstep =>
      obtain ⟨s'', hs'', hrest⟩ := hstep
      rw [h] at hs''
      cases hs''
      exact hrest
  · exact .head h

theorem not_finishes_stop (h : step s = .stop) : ¬ Finishes s d := by
  intro hs
  cases Relation.ReflTransGen.cases_head hs with
  | inl heq =>
    rw [heq] at h
    cases h
  | inr hstep =>
    obtain ⟨s'', hs'', -⟩ := hstep
    rw [h] at hs''
    cases hs''

/-- Comments are skipped in front of a token that is dispatched on. -/
theorem finishes_comment (n : ℕ) :
    Finishes ⟨(n, l) :: ts, .rdSexpr .comment, frames⟩ d ↔
      Finishes ⟨ts, .rdSexpr (.lexeme l), frames⟩ d := by
  induction n with
  | zero => exact finishes_more rfl
  | succ n ih => exact (finishes_more rfl).trans ih

theorem finishes_next (n : ℕ) :
    Finishes ⟨(next ((n, l) :: ts)).2, .rdSexpr (next ((n, l) :: ts)).1, frames⟩ d ↔
      Finishes ⟨ts, .rdSexpr (.lexeme l), frames⟩ d := by
  cases n with
  | zero => exact Iff.rfl
  | succ n => exact finishes_comment n

/-- The same state of the reader on the bare text. -/
def bareState (s : State) : State := { s with rest := strip s.rest }

/-- The comments that are still to come are placed well. -/
def PlacedFrom (s : State) : Prop :=
  match s.phase with
  | .rdSexpr (.lexeme l) => Placed (after (levelsOf s.frames) l) (before l) s.rest
  | _ => Placed (levelsOf s.frames) .other s.rest

theorem starts_or (l : Lexeme) : Starts l ∨ l = .rparen ∨ ∃ c h, l = .dot c h := by
  cases l with
  | rparen => exact Or.inr (Or.inl rfl)
  | dot c h => exact Or.inr (Or.inr ⟨c, h, rfl⟩)
  | _ => exact Or.inl trivial

theorem starts_of_finishes (h : Finishes ⟨ts, .rdSexpr (.lexeme l), frames⟩ d) : Starts l := by
  rcases starts_or l with hl|rfl|⟨c, hc, rfl⟩
  · exact hl
  · exact absurd h (not_finishes_stop rfl)
  · exact absurd h (not_finishes_stop rfl)

variable {levels : List Bool} {prev : Before}

theorem allowed_of_starts (hl : Starts l) (hprev : prev ≠ .bquote) : Allowed levels prev n l := by
  cases l with
  | rparen => exact hl.elim
  | dot c hc => exact hl.elim
  | vec => exact fun h => absurd h hprev
  | _ => trivial

/-- The next token is dispatched on, however many comments there are. -/
theorem finishes_element
    (hb : Finishes ⟨(next (strip ts)).2, .rdSexpr (next (strip ts)).1, frames⟩ d)
    (ih : ∀ n l ts', ts = (n, l) :: ts' → (Finishes ⟨ts', .rdSexpr (.lexeme l), frames⟩ d ↔
      PlacedFrom ⟨ts', .rdSexpr (.lexeme l), frames⟩)) (hprev : prev ≠ .bquote) :
    Finishes ⟨(next ts).2, .rdSexpr (next ts).1, frames⟩ d ↔ Placed (levelsOf frames) prev ts := by
  cases ts with
  | nil => exact absurd hb (not_finishes_stop rfl)
  | cons p ts =>
    obtain ⟨n, l⟩ := p
    have hl : Starts l := starts_of_finishes hb
    rw [finishes_next, ih n l ts rfl, Placed, and_iff_right (allowed_of_starts hl hprev)]
    rfl

theorem finishes_open {c : State} (hc : step c = openTokens frames (next ts))
    (hb : openTokens frames (next (strip ts)) = .more s') (hrest : Finishes s' d)
    (ih : ∀ c', bareState c' = s' → (Finishes c' d ↔ PlacedFrom c')) :
    Finishes c d ↔ Placed (false :: levelsOf frames) .opening ts := by
  cases ts with
  | nil =>
    cases hb
    exact absurd hrest (not_finishes_stop rfl)
  | cons p ts =>
    obtain ⟨n, l⟩ := p
    change openTokens frames (.lexeme l, strip ts) = _ at hb
    rw [Placed]
    rcases starts_or l with hl|rfl|⟨e, he, rfl⟩
    · rw [openTokens_starts hl] at hb
      cases hb
      rw [and_iff_right (allowed_of_starts hl (by decide))]
      have hgoal := ih ⟨ts, .rdSexpr (.lexeme l), .rdList [] :: frames⟩ rfl
      cases n with
      | zero => exact (finishes_more (hc.trans (openTokens_starts hl ts))).trans hgoal
      | succ n => exact (finishes_more hc).trans ((finishes_comment n).trans hgoal)
    · cases hb
      cases n with
      | zero =>
        rw [and_iff_right (by simp [Allowed])]
        exact (finishes_more hc).trans (ih ⟨ts, .value .nil, frames⟩ rfl)
      | succ n =>
        refine ((finishes_more hc).trans (finishes_comment n)).trans ?_
        refine iff_of_false (not_finishes_stop rfl) ?_
        simp [Allowed]
    · cases hb

theorem finishes_nextElement {c : State} {args : List Datum}
    (hc : step c = nextElement args frames (skipComment (next ts)))
    (hb : nextElement args frames (skipComment (next (strip ts))) = .more s') (hrest : Finishes s' d)
    (ih : ∀ c', bareState c' = s' → (Finishes c' d ↔ PlacedFrom c')) :
    Finishes c d ↔ Placed (false :: levelsOf frames) .other ts := by
  cases ts with
  | nil =>
    cases hb
    exact absurd hrest (not_finishes_stop rfl)
  | cons p ts =>
    obtain ⟨n, l⟩ := p
    change nextElement args frames (.lexeme l, strip ts) = _ at hb
    rw [Placed]
    -- up to one comment is skipped in front of a parenthesis or a dot
    have hfew (hn : n ≤ 1) : skipComment (next ((n, l) :: ts)) = (.lexeme l, ts) := by
      match n, hn with
      | 0, _ => rfl
      | 1, _ => rfl
    have hmany (hn : ¬ n ≤ 1) : Finishes c d ↔
        Finishes ⟨ts, .rdSexpr (.lexeme l), .rdList args :: frames⟩ d := by
      obtain ⟨m, rfl⟩ : ∃ m, n = m + 2 := ⟨n - 2, by omega⟩
      exact (finishes_more hc).trans (finishes_comment m)
    rcases starts_or l with hl|rfl|⟨e, he, rfl⟩
    · rw [nextElement_starts hl] at hb
      cases hb
      rw [and_iff_right (allowed_of_starts hl (by decide))]
      have hgoal := ih ⟨ts, .rdSexpr (.lexeme l), .rdList args :: frames⟩ rfl
      by_cases hn : n ≤ 1
      · rw [hfew hn, nextElement_starts hl] at hc
        exact (finishes_more hc).trans hgoal
      · exact (hmany hn).trans hgoal
    · cases hb
      by_cases hn : n ≤ 1
      · rw [and_iff_right (by simpa [Allowed] using hn)]
        rw [hfew hn] at hc
        exact (finishes_more hc).trans (ih ⟨ts, .value _, frames⟩ rfl)
      · rw [hmany hn]
        refine iff_of_false (not_finishes_stop rfl) ?_
        simp [Allowed, hn]
    · cases hb
      by_cases hn : n ≤ 1
      · rw [and_iff_right (show Allowed _ _ n (.dot e he) from hn)]
        rw [hfew hn] at hc
        refine (finishes_more hc).trans ?_
        exact finishes_element hrest (fun m x ts' hts => ih _ (by subst hts; rfl))
          (show Before.other ≠ .bquote by decide)
      · rw [hmany hn]
        exact iff_of_false (not_finishes_stop rfl) fun h => hn h.1

theorem finishes_quasi {c : State} (hc : step c = quasi frames (next ts))
    (hb : quasi frames (next (strip ts)) = .more s') (hrest : Finishes s' d)
    (ih : ∀ c', bareState c' = s' → (Finishes c' d ↔ PlacedFrom c')) :
    Finishes c d ↔ Placed (levelsOf frames) .bquote ts := by
  cases ts with
  | nil =>
    cases hb
    exact absurd hrest (not_finishes_stop rfl)
  | cons p ts =>
    obtain ⟨n, l⟩ := p
    change quasi frames (.lexeme l, strip ts) = _ at hb
    rw [Placed]
    by_cases hl : l = .vec
    · subst hl
      cases hb
      cases n with
      | zero =>
        rw [and_iff_right (show Allowed _ _ 0 .vec from fun _ => rfl)]
        exact (finishes_more hc).trans (ih ⟨ts, .rdSexpr (.lexeme .lparen), .rdQquoteVec :: frames⟩ rfl)
      | succ n =>
        -- with a comment in between, the vector is quoted as a whole
        refine iff_of_false (fun h => ?_) fun h => absurd (h.1 rfl) (Nat.succ_ne_zero n)
        obtain ⟨v, w, hw, hfits⟩ := Steps.ahead hrest
        obtain ⟨v', w', hw', hfits'⟩ := Steps.ahead ((finishes_more hc).mp h)
        cases hw
        cases hw'
        cases hfits.unique hfits'
    · have hother (r : Tokens) :
          quasi frames (.lexeme l, r) = .more ⟨r, .rdSexpr (.lexeme l), .rdQquote :: frames⟩ := by
        cases l with
        | vec => exact absurd rfl hl
        | _ => rfl
      rw [hother] at hb
      cases hb
      have hstarts : Starts l := starts_of_finishes hrest
      have hallowed : Allowed (levelsOf frames) .bquote n l := by
        cases l with
        | rparen => exact hstarts.elim
        | dot e he => exact hstarts.elim
        | vec => exact absurd rfl hl
        | _ => trivial
      rw [and_iff_right hallowed]
      have hgoal := ih ⟨ts, .rdSexpr (.lexeme l), .rdQquote :: frames⟩ rfl
      cases n with
      | zero => exact (finishes_more (hc.trans (hother ts))).trans hgoal
      | succ n => exact (finishes_more hc).trans ((finishes_comment n).trans hgoal)

/-- Behind the tail of a dotted list no comment is skipped. -/
theorem finishes_closeDotted {c : State} {v : Datum} {args : List Datum}
    (hc : step c = closeDotted v args frames (next ts))
    (hb : closeDotted v args frames (next (strip ts)) = .more s')
    (ih : ∀ c', bareState c' = s' → (Finishes c' d ↔ PlacedFrom c')) :
    Finishes c d ↔ Placed (true :: levelsOf frames) .other ts := by
  cases ts with
  | nil => cases hb
  | cons p ts =>
    obtain ⟨n, l⟩ := p
    change closeDotted v args frames (.lexeme l, strip ts) = _ at hb
    rw [Placed]
    cases l with
    | rparen =>
      cases hb
      cases n with
      | zero =>
        rw [and_iff_right (by simp [Allowed])]
        exact (finishes_more hc).trans (ih ⟨ts, .value _, frames⟩ rfl)
      | succ n => exact iff_of_false (not_finishes_stop hc) (by simp [Allowed])
    | _ => cases hb

/-- Comments leave the datum as it is just where they are allowed. -/
theorem finishes_iff {c : State} (hb : Finishes (bareState c) d) :
    Finishes c d ↔ PlacedFrom c := by
  generalize hbare : bareState c = b at hb
  induction hb using Relation.ReflTransGen.head_induction_on generalizing c with
  | refl =>
    obtain ⟨ts, phase, frames⟩ := c
    simp only [bareState, State.mk.injEq] at hbare
    obtain ⟨hts, rfl, rfl⟩ := hbare
    obtain rfl : ts = [] := List.map_eq_nil_iff.mp hts
    exact iff_of_true .refl trivial
  | @head b b' hstep hrest ih =>
    obtain ⟨ts, phase, frames⟩ := c
    subst hbare
    have ih' : ∀ c', bareState c' = b' → (Finishes c' d ↔ PlacedFrom c') := fun c' h => ih h
    cases phase with
    | rdSexpr head =>
      cases head with
      | eof => cases hstep
      | comment =>
        cases hstep
        refine (finishes_more rfl).trans ?_
        exact finishes_element hrest (fun n l ts' hts => ih' _ (by subst hts; rfl)) (by decide)
      | lexeme l =>
        cases l with
        | lparen => exact finishes_open rfl hstep hrest ih'
        | vec =>
          show Finishes _ d ↔ Placed (false :: levelsOf (.rdVec :: frames)) .opening ts
          exact finishes_open rfl hstep hrest ih'
        | bquote => exact finishes_quasi rfl hstep hrest ih'
        | rparen => cases hstep
        | dot e he => cases hstep
        | quote =>
          cases hstep
          refine (finishes_more rfl).trans ?_
          exact finishes_element hrest (fun n l ts' hts => ih' _ (by subst hts; rfl)) (by decide)
        | comma =>
          cases hstep
          refine (finishes_more rfl).trans ?_
          exact finishes_element hrest (fun n l ts' hts => ih' _ (by subst hts; rfl)) (by decide)
        | atmark =>
          cases hstep
          refine (finishes_more rfl).trans ?_
          exact finishes_element hrest (fun n l ts' hts => ih' _ (by subst hts; rfl)) (by decide)
        | _ =>
          cases hstep
          exact (finishes_more rfl).trans (ih' ⟨ts, .value _, frames⟩ rfl)
    | value v =>
      cases frames with
      | nil => cases hstep
      | cons f frames =>
        cases f with
        | rdList args => exact finishes_nextElement rfl hstep hrest ih'
        | rdDot args => exact finishes_closeDotted rfl hstep ih'
        | _ =>
          cases hstep
          exact (finishes_more rfl).trans (ih' ⟨ts, .value _, frames⟩ rfl)

theorem accepts_iff (h : Accepts (strip ts) d) : Accepts ts d ↔ Placed [] .other ts := by
  refine finishes_element h ?_ (by decide)
  intro n l ts' hts
  subst hts
  exact finishes_iff h

/-! ## Texts with comments -/

theorem tokens_bare (layout : Layout) : tokens (bare layout) = strip (tokens layout) := by
  simp [tokens, bare, strip, Function.comp_def, List.countP_filter]

/-- With comments, a text begins as before or with a semicolon. -/
theorem head_render (layout : Layout) :
    (render layout).head? = (render (bare layout)).head? ∨ (render layout).head? = some 59 := by
  cases layout with
  | nil => exact Or.inl rfl
  | cons p layout =>
    obtain ⟨gap, l⟩ := p
    cases gap with
    | nil =>
      obtain ⟨b, bs, hbytes, -⟩ := l.bytes_head
      have hhead (rest : Layout) : (render (([], l) :: rest)).head? = some b := by
        show (l.bytes ++ render rest).head? = _
        rw [hbytes]
        rfl
      exact Or.inl ((hhead layout).trans (hhead (bare layout)).symm)
    | cons piece gap =>
      cases piece with
      | space b hb => exact Or.inl rfl
      | comment text ht => exact Or.inr rfl

theorem follows_of_head {rest rest' : List UInt8} (h : l.Follows rest)
    (hhead : rest'.head? = rest.head? ∨ rest'.head? = some 59) : l.Follows rest' := by
  have hdelim (hd : AtDelimiter rest) : AtDelimiter rest' := by
    intro b hb
    cases hhead with
    | inl heq => exact hd b (heq ▸ hb)
    | inr heq =>
      rw [heq] at hb
      cases hb
      decide
  cases l with
  | atom text ht => exact h.imp hdelim id
  | sharpConst text ht => exact h.imp hdelim id
  | comma =>
    intro b hb
    cases hhead with
    | inl heq => exact h b (heq ▸ hb)
    | inr heq =>
      rw [heq] at hb
      cases hb
      decide
  | _ => trivial

theorem joined_of_bare {layout : Layout} (h : Joined (bare layout)) : Joined layout := by
  induction layout with
  | nil => trivial
  | cons p layout ih => exact ⟨follows_of_head h.1 (head_render layout), ih h.2⟩

/-- `()`, with the comment `;c` in the parentheses. -/
def emptyList : Layout := [([], .lparen), ([.comment [99] (by simp)], .rparen)]

theorem isAtomText_a : IsAtomText [97] := ⟨by decide, [97], by decide⟩

/-- `'( ;c⏎ ;c⏎ a ;c⏎ )`, where the text without comments is read as `(quote (a))`. -/
def quotedList : Layout :=
  [([], .quote), ([], .lparen),
    ([.space 32 (by decide), .comment [99] (by simp), .comment [99] (by simp)],
      .atom [97] isAtomText_a),
    ([.space 32 (by decide), .comment [99] (by simp)], .rparen)]

end Extempore.ReaderComments
