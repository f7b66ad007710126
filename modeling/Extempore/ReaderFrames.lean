import Extempore.SchemeReader

/-!
# Frames of the reader

The frames on the dump stack say where in the datum the reader is. A value that is given to them
is in this place of what is read in the end, whatever the rest of the text is.
-/

namespace Extempore.ReaderFrames
open SchemeReader

/-- What a frame other than one of a list makes of its value. -/
def wrap : Frame → Datum → Option Datum
  | .rdQuote, v => some (.list [.atom (ascii "quote"), v])
  | .rdQquote, v => some (.list [.atom (ascii "quasiquote"), v])
  | .rdQquoteVec, v =>
    some (.list [.atom (ascii "apply"), .atom (ascii "vector"),
      .list [.atom (ascii "quasiquote"), v]])
  | .rdUnquote, v => some (.list [.atom (ascii "unquote"), v])
  | .rdUqtsp, v => some (.list [.atom (ascii "unquote-splicing"), v])
  | .rdVec, v => some (.vector v)
  | .rdList _, _ | .rdDot _, _ => none

/-- How the frames and the value in front of them may change in one step, whatever the input is. A
value that is still to be read is `none`. -/
inductive Shift : Option Datum → List Frame → Option Datum → List Frame → Prop where
  | read {frames : List Frame} (above : List Frame) (v : Option Datum) :
      Shift none frames v (above ++ frames)
  | next {frames : List Frame} (args : List Datum) (v : Datum) :
      Shift (some v) (.rdList args :: frames) none (.rdList (v :: args) :: frames)
  | dot {frames : List Frame} (args : List Datum) (v : Datum) :
      Shift (some v) (.rdList args :: frames) none (.rdDot (v :: args) :: frames)
  | close {frames : List Frame} (args : List Datum) (v : Datum) :
      Shift (some v) (.rdList args :: frames) (some (Datum.revAppend .nil (v :: args))) frames
  | closeDot {frames : List Frame} (args : List Datum) (v : Datum) :
      Shift (some v) (.rdDot args :: frames) (some (Datum.revAppend v args)) frames
  | wrap {frames : List Frame} {f : Frame} {v w : Datum} (h : wrap f v = some w) :
      Shift (some v) (f :: frames) (some w) frames

/-- What a frame may make of a value. The end of a list is not known yet. -/
def Makes : Frame → Datum → Datum → Prop
  | .rdList args, v, w => ∃ tail, w = Datum.revAppend (.pair v tail) args
  | .rdDot args, v, w => w = Datum.revAppend v args
  | f, v, w => wrap f v = some w

/-- The datum `d` has `v` in the place that the frames stand for. -/
def Fits : List Frame → Datum → Datum → Prop
  | [], v, d => v = d
  | f :: frames, v, d => ∃ w, Makes f v w ∧ Fits frames w d

/-- The same where the value may still be to be read. -/
def Ahead (frames : List Frame) (d : Datum) : Option Datum → Prop
  | none => ∃ v, Fits frames v d
  | some v => Fits frames v d

/-- A relation that goes down to the parts of data. -/
structure Deep (R : Datum → Datum → Prop) : Prop where
  pair : ∀ {a b a' b' : Datum}, R (.pair a b) (.pair a' b') → R a a' ∧ R b b'
  vector : ∀ {e e' : Datum}, R (.vector e) (.vector e') → R e e'

variable {R : Datum → Datum → Prop} {frames frames' : List Frame} {v v' w w' d d' : Datum}

theorem deep_eq : Deep Eq where
  pair h := by
    cases h
    exact ⟨rfl, rfl⟩
  vector h := by
    cases h
    rfl

theorem Fits.below (above : List Frame) (h : Fits (above ++ frames) v d) :
    ∃ w, Fits frames w d := by
  induction above generalizing v with
  | nil => exact ⟨v, h⟩
  | cons f above ih =>
    obtain ⟨w, -, hw⟩ := h
    exact ih hw

/-- What fits after a step fitted before it. -/
theorem Shift.ahead {x y : Option Datum} (h : Shift x frames y frames')
    (hy : Ahead frames' d y) : Ahead frames d x := by
  cases h with
  | read above =>
    cases y with
    | none =>
      obtain ⟨v, hv⟩ := hy
      exact hv.below above
    | some v => exact Fits.below above hy
  | next args v =>
    obtain ⟨u, w, ⟨tail, rfl⟩, hw⟩ := hy
    exact ⟨_, ⟨.pair u tail, rfl⟩, hw⟩
  | dot args v =>
    obtain ⟨u, w, hu, hw⟩ := hy
    obtain rfl : w = Datum.revAppend u (v :: args) := hu
    exact ⟨_, ⟨u, rfl⟩, hw⟩
  | close args v => exact ⟨_, ⟨.nil, rfl⟩, hy⟩
  | closeDot args v => exact ⟨_, rfl, hy⟩
  | @wrap _ f v w hw =>
    refine ⟨w, ?_, hy⟩
    cases f with
    | rdList args => cases hw
    | rdDot args => cases hw
    | _ => exact hw

theorem Deep.revAppend (hR : Deep R) (args : List Datum)
    (h : R (Datum.revAppend v args) (Datum.revAppend v' args)) : R v v' := by
  induction args generalizing v v' with
  | nil => exact h
  | cons a args ih => exact (hR.pair (ih h)).2

theorem Deep.list_second (hR : Deep R) {name name' : Datum}
    (h : R (.list [name, v]) (.list [name', v'])) : R v v' := (hR.pair (hR.pair h).2).1

theorem Deep.makes {f : Frame} (hR : Deep R) (h : Makes f v w) (h' : Makes f v' w') (hw : R w w') :
    R v v' := by
  cases f with
  | rdList args =>
    obtain ⟨tail, rfl⟩ := h
    obtain ⟨tail', rfl⟩ := h'
    exact (hR.pair (hR.revAppend args hw)).1
  | rdDot args =>
    obtain rfl : w = _ := h
    obtain rfl : w' = _ := h'
    exact hR.revAppend args hw
  | rdVec =>
    cases h
    cases h'
    exact hR.vector hw
  | rdQquoteVec =>
    cases h
    cases h'
    exact hR.list_second (hR.pair (hR.pair (hR.pair hw).2).2).1
  | _ =>
    cases h
    cases h'
    exact hR.list_second hw

/-- Related data have related parts in the same place. -/
theorem Fits.related (hR : Deep R) (h : Fits frames v d) (h' : Fits frames v' d') (hd : R d d') :
    R v v' := by
  induction frames generalizing v v' with
  | nil =>
    obtain rfl : v = d := h
    obtain rfl : v' = d' := h'
    exact hd
  | cons f frames ih =>
    obtain ⟨w, hw, hfits⟩ := h
    obtain ⟨w', hw', hfits'⟩ := h'
    exact hR.makes hw hw' (ih hfits hfits')

theorem Fits.unique (h : Fits frames v d) (h' : Fits frames v' d) : v = v' :=
  h.related deep_eq h' rfl

/-! ## Runs of the reader -/

/-- The value in front of the frames. -/
def front : Phase → Option Datum
  | .rdSexpr _ => none
  | .value v => some v

/-- The reader is done with `d` in the end. -/
def Ends (r : Reader) (d : Datum) : Prop := ∃ r' pt, Steps r r' ∧ step r' = .done d pt

variable {r r' : Reader}

theorem steps_head (h : step r = .more r') {r'' : Reader} (h' : Steps r r'') (hne : r ≠ r'') :
    Steps r' r'' := by
  cases Relation.ReflTransGen.cases_head h' with
  | inl heq => exact absurd heq hne
  | inr hstep =>
    obtain ⟨s, hs, hrest⟩ := hstep
    rw [h] at hs
    cases hs
    exact hrest

theorem Ends.step (h : Ends r d) (hs : SchemeReader.step r = .more r') : Ends r' d := by
  obtain ⟨r'', pt, hsteps, hdone⟩ := h
  refine ⟨r'', pt, steps_head hs hsteps ?_, hdone⟩
  intro heq
  rw [heq, hdone] at hs
  cases hs

/-- The reader is deterministic. -/
theorem Ends.steps (h : Ends r d) (hs : Steps r r') : Ends r' d := by
  induction hs with
  | refl => exact h
  | tail _ hstep ih => exact ih.step hstep

/-- What `nextInList` does with the token that is not skipped. -/
def dispatchInList (args : List Datum) (frames : List Frame) : Token × Port → Result
  | (.rparen, pt) =>
    let pt' := if (inchar pt).1 = chr '\n' then (inchar pt).2 else backchar (inchar pt).2 (inchar pt).1
    .more ⟨pt', .value (Datum.revAppend .nil args), frames⟩
  | (.dot, pt) => .more ⟨(token pt).2, .rdSexpr (token pt).1, .rdDot args :: frames⟩
  | (tok, pt) => .more ⟨pt, .rdSexpr tok, .rdList args :: frames⟩

theorem nextInList_dispatch (pt : Port) (args : List Datum) (frames : List Frame) :
    nextInList pt args frames = dispatchInList args frames
      (if (token pt).1 = .comment then token (skipLine (token pt).2.past (token pt).2.curr)
        else token pt) := by
  rw [nextInList]
  generalize token pt = t
  obtain ⟨tok, pt'⟩ := t
  dsimp only
  generalize (if tok = .comment then token (skipLine pt'.past pt'.curr) else (tok, pt')) = t
  obtain ⟨tok', pt''⟩ := t
  cases tok' <;> rfl

/-- What `openList` does with its token. -/
def dispatchOpen (frames : List Frame) : Token × Port → Result
  | (.rparen, pt) => .more ⟨pt, .value .nil, frames⟩
  | (.dot, _) => .error
  | (tok, pt) => .more ⟨pt, .rdSexpr tok, .rdList [] :: frames⟩

theorem openList_eq (pt : Port) (frames : List Frame) :
    openList pt frames = dispatchOpen frames (token pt) := by
  rw [openList]
  generalize token pt = t
  obtain ⟨tok, pt'⟩ := t
  cases tok <;> rfl

/-- What a frame with a dotted list does with its token. -/
def dispatchDotted (v : Datum) (args : List Datum) (frames : List Frame) : Token × Port → Result
  | (.rparen, pt) => .more ⟨pt, .value (Datum.revAppend v args), frames⟩
  | _ => .error

theorem step_rdDot (pt : Port) (v : Datum) (args : List Datum) (frames : List Frame) :
    step ⟨pt, .value v, .rdDot args :: frames⟩ = dispatchDotted v args frames (token pt) := by
  simp only [step]
  generalize token pt = t
  obtain ⟨tok, pt'⟩ := t
  cases tok <;> rfl

theorem shift_openList {pt : Port} (h : openList pt frames = .more r') :
    ∃ above, r'.frames = above ++ frames := by
  rw [openList_eq] at h
  generalize token pt = t at h
  obtain ⟨tok, pt'⟩ := t
  cases tok with
  | rparen =>
    cases h
    exact ⟨[], rfl⟩
  | dot => cases h
  | _ =>
    cases h
    exact ⟨[.rdList []], rfl⟩

theorem shift_nextInList {pt : Port} {args : List Datum}
    (h : nextInList pt (v :: args) frames = .more r') :
    Shift (some v) (.rdList args :: frames) (front r'.phase) r'.frames := by
  rw [nextInList_dispatch] at h
  generalize (if (token pt).1 = .comment then
    token (skipLine (token pt).2.past (token pt).2.curr) else token pt) = t at h
  obtain ⟨tok, pt'⟩ := t
  cases tok with
  | rparen =>
    cases h
    exact .close args v
  | dot =>
    cases h
    exact .dot args v
  | _ =>
    cases h
    exact .next args v

theorem frames_afterToken {pt : Port} (h : afterToken pt frames = .more r') : r'.frames = frames := by
  rw [afterToken] at h
  cases h
  rfl

/-- Reading goes on with new frames above the old ones. -/
theorem frames_rdSexpr {pt : Port} {tok : Token} (h : step ⟨pt, .rdSexpr tok, frames⟩ = .more r') :
    ∃ above, r'.frames = above ++ frames := by
  cases tok with
  | eof => cases h
  | sharp => cases h
  | rparen => cases h
  | dot => cases h
  | comment => exact ⟨[], frames_afterToken h⟩
  | quote => exact ⟨[.rdQuote], frames_afterToken h⟩
  | comma => exact ⟨[.rdUnquote], frames_afterToken h⟩
  | atmark => exact ⟨[.rdUqtsp], frames_afterToken h⟩
  | lparen => exact shift_openList h
  | vec =>
    obtain ⟨above, heq⟩ := shift_openList h
    exact ⟨above ++ [.rdVec], by rw [heq, List.append_assoc]; rfl⟩
  | bquote =>
    simp only [step] at h
    split at h
    · cases h
      exact ⟨[.rdQquoteVec], rfl⟩
    · cases h
      exact ⟨[.rdQquote], rfl⟩
  | atom =>
    cases h
    exact ⟨[], rfl⟩
  | sharpConst =>
    cases h
    exact ⟨[], rfl⟩
  | dquote =>
    simp only [step] at h
    split at h
    · cases h
      exact ⟨[], rfl⟩
    · cases h

theorem shift_step (h : step r = .more r') :
    Shift (front r.phase) r.frames (front r'.phase) r'.frames := by
  obtain ⟨pt, phase, frames⟩ := r
  cases phase with
  | rdSexpr tok =>
    obtain ⟨above, heq⟩ := frames_rdSexpr h
    rw [heq]
    exact .read above _
  | value v =>
    cases frames with
    | nil => cases h
    | cons f frames =>
      cases f with
      | rdList args => exact shift_nextInList h
      | rdDot args =>
        rw [step_rdDot] at h
        generalize token pt = t at h
        obtain ⟨tok, pt'⟩ := t
        cases tok with
        | rparen =>
          cases h
          exact .closeDot args v
        | _ => cases h
      | _ =>
        cases h
        exact .wrap rfl

theorem openList_ne_done (pt pt' : Port) (frames : List Frame) (d : Datum) :
    openList pt frames ≠ .done d pt' := by
  rw [openList_eq]
  generalize token pt = t
  obtain ⟨tok, pt₁⟩ := t
  cases tok <;> simp [dispatchOpen]

/-- The reader is done when there are no frames. -/
theorem eq_of_step_done {pt : Port} (h : step r = .done d pt) : r = ⟨pt, .value d, []⟩ := by
  obtain ⟨pt₀, phase, frames⟩ := r
  cases phase with
  | rdSexpr tok =>
    cases tok with
    | lparen => exact (openList_ne_done _ _ _ _ h).elim
    | vec => exact (openList_ne_done _ _ _ _ h).elim
    | dquote =>
      simp only [step] at h
      split at h <;> cases h
    | bquote =>
      simp only [step] at h
      split at h <;> cases h
    | _ => cases h
  | value v =>
    cases frames with
    | nil =>
      cases h
      rfl
    | cons f frames =>
      cases f with
      | rdList args =>
        have hd := (nextInList_dispatch pt₀ (v :: args) frames).symm.trans h
        generalize (if (token pt₀).1 = .comment then
          token (skipLine (token pt₀).2.past (token pt₀).2.curr) else token pt₀) = t at hd
        obtain ⟨tok, pt'⟩ := t
        cases tok <;> cases hd
      | rdDot args =>
        rw [step_rdDot] at h
        generalize token pt₀ = t at h
        obtain ⟨tok, pt'⟩ := t
        cases tok <;> cases h
      | _ => cases h

/-- What is read in the end fits the frames all the time. -/
theorem Ends.ahead (h : Ends r d) : Ahead r.frames d (front r.phase) := by
  obtain ⟨r', pt, hsteps, hdone⟩ := h
  induction hsteps using Relation.ReflTransGen.head_induction_on with
  | refl =>
    rw [eq_of_step_done hdone]
    rfl
  | head hstep _ ih => exact (shift_step hstep).ahead ih

theorem Ends.unique (h : Ends r d) (h' : Ends r d') : d = d' := by
  obtain ⟨r', pt, hsteps, hdone⟩ := h
  obtain ⟨r'', pt', hsteps', hdone'⟩ := h'.steps hsteps
  cases Relation.ReflTransGen.cases_head hsteps' with
  | inl heq =>
    subst heq
    cases hdone.symm.trans hdone'
    rfl
  | inr hhead =>
    obtain ⟨_, hstep, -⟩ := hhead
    cases hdone.symm.trans hstep

/-- The string that is read has its place in what is read in the end. -/
theorem Ends.string {past xs : List UInt8} (h : Ends ⟨⟨past, xs⟩, .rdSexpr .dquote, frames⟩ d) :
    ∃ s pt, readstrexp past .ok 0 [] xs = (some s, pt) ∧ Fits frames (.string s) d := by
  cases hread : readstrexp past .ok 0 [] xs with
  | mk s pt =>
    cases s with
    | some s =>
      have hstep : SchemeReader.step ⟨⟨past, xs⟩, .rdSexpr .dquote, frames⟩ =
          .more ⟨pt, .value (.string s), frames⟩ := by
        simp only [SchemeReader.step, hread]
      exact ⟨s, pt, rfl, (h.step hstep).ahead⟩
    | none =>
      have hstep : SchemeReader.step ⟨⟨past, xs⟩, .rdSexpr .dquote, frames⟩ = .error := by
        simp only [SchemeReader.step, hread]
      obtain ⟨r', pt', hsteps, hdone⟩ := h
      cases Relation.ReflTransGen.cases_head hsteps with
      | inl heq =>
        subst heq
        cases hstep.symm.trans hdone
      | inr hhead =>
        obtain ⟨_, hmore, -⟩ := hhead
        cases hstep.symm.trans hmore

end Extempore.ReaderFrames
