import Extempore.FirstMatches
import Extempore.FirstOccurrences

/-!
# Expansion of generic types

`impc:ti:expand-generic-type` of `llvmti.xtm` writes the arguments of a generic type in place of its
type variables: one variable after the other, each with `regex:replace-all`, which calls
`regex:replace` for as long as `regex:match?` finds the variable. A text is read here as its pieces,
the type variables and the characters between them.
-/

namespace Extempore.GenericExpansion

open Extempore.FirstMatches Extempore.FirstOccurrences

abbrev Text := List Char

/-- The class `[A-Za-z0-9_]` of the search for type variables. -/
def isNameChar (c : Char) : Bool :=
  c.isAlphanum || c == '_'

/-- The variables `regex:match-all` finds with `(![A-Za-z0-9_]*)`. It goes on behind each match;
there is no `!` to be found in a name. -/
def matchAll : Text → List Text
  | [] => []
  | c :: cs =>
    if c = '!' then ('!' :: cs.takeWhile isNameChar) :: matchAll cs
    else matchAll cs

/-- What `regex:replace` puts in for its third argument. A `$` is left out with the number behind
it; a number above zero asks for a group that the pattern does not have, at bounds no match has
set. -/
def replacement : Bool → Text → Option Text
  | _, [] => some []
  | inNumber, c :: cs =>
    if c = '$' then replacement true cs
    else if inNumber && c.isDigit then
      if c = '0' then replacement true cs else none
    else (replacement false cs).map (c :: ·)

def regexReplace (str find new : Text) : Option Text :=
  match splitFirst find str with
  | none => some str
  | some parts => (replacement false new).map fun put => parts.1 ++ (put ++ parts.2)

/-- `regex:replace-all`; without a result when the fuel runs out. -/
def replaceAll : ℕ → Text → Text → Text → Option Text
  | 0, _, _, _ => none
  | fuel + 1, str, find, new =>
    if (splitFirst find str).isSome then
      (regexReplace str find new).bind fun str' => replaceAll fuel str' find new
    else some str

def replaceVariables (fuel : ℕ) : List (Text × Text) → Text → Option Text
  | [], gtype => some gtype
  | (x, y) :: vars, gtype => (replaceAll fuel gtype x y).bind (replaceVariables fuel vars)

/-- The text of the expanded type, from the text of the generic one and the arguments. A wrong
number of arguments is `print-expansion-arity-error`. -/
def expandGenericType (fuel : ℕ) (gtype : Text) (xvars : List Text) : Option Text :=
  let gvars := (matchAll gtype).eraseDups
  if gvars.length ≠ xvars.length then none
  else replaceVariables fuel (gvars.zip xvars) gtype

inductive Piece where
  | char (c : Char)
  | var (name : Text)

/-- The text of the pieces, with `ρ` written for the variables. -/
def render (ρ : Text → Text) : List Piece → Text
  | [] => []
  | .char c :: ps => c :: render ρ ps
  | .var x :: ps => ρ ('!' :: x) ++ render ρ ps

/-- The occurrences of variables, in order. -/
def occurrences : List Piece → List Text
  | [] => []
  | .char _ :: ps => occurrences ps
  | .var x :: ps => ('!' :: x) :: occurrences ps

/-- Every variable is a whole one: a bracket, a comma, a star or the end follows its name. -/
def Separated : List Piece → Prop
  | [] => True
  | .char c :: ps => c ≠ '!' ∧ Separated ps
  | .var x :: ps =>
    (∀ c ∈ x, isNameChar c) ∧ (∀ p ∈ ps.head?, ∃ c, p = .char c ∧ isNameChar c = false) ∧
      Separated ps

/-- A generic type or the type of a generic function. -/
structure Signature where
  pieces : List Piece
  separated : Separated pieces

def Signature.text (s : Signature) : Text :=
  render id s.pieces

/-- Its type variables, each once. -/
def Signature.gvars (s : Signature) : List Text :=
  (occurrences s.pieces).eraseDups

def Signature.substitute (s : Signature) (σ : Text → Text) : Text :=
  render σ s.pieces

def IsVariable (v : Text) : Prop :=
  ∃ x, v = '!' :: x ∧ ∀ c ∈ x, isNameChar c

section Pieces

variable {ρ ρ' : Text → Text} {ps qs front todo : List Piece} {x y v : Text}

theorem render_append : render ρ (ps ++ qs) = render ρ ps ++ render ρ qs := by
  induction ps with
  | nil => rfl
  | cons p ps ih =>
    cases p with
    | char c => exact congrArg (c :: ·) ih
    | var x => rw [List.cons_append, render, render, ih, List.append_assoc]

theorem render_congr (h : ∀ v ∈ occurrences ps, ρ v = ρ' v) : render ρ ps = render ρ' ps := by
  induction ps with
  | nil => rfl
  | cons p ps ih =>
    cases p with
    | char c => exact congrArg (c :: ·) (ih h)
    | var x =>
      rw [render, render, h _ List.mem_cons_self,
        ih fun v hv => h v (List.mem_cons_of_mem _ hv)]

theorem occurrences_append : occurrences (ps ++ qs) = occurrences ps ++ occurrences qs := by
  induction ps with
  | nil => rfl
  | cons p ps ih =>
    cases p with
    | char c => exact ih
    | var x => exact congrArg (('!' :: x) :: ·) ih

theorem isVariable_of_mem (hps : Separated ps) (hv : v ∈ occurrences ps) : IsVariable v := by
  induction ps with
  | nil => cases hv
  | cons p ps ih =>
    cases p with
    | char c => exact ih hps.2 hv
    | var x =>
      cases hv with
      | head => exact ⟨x, rfl, hps.1⟩
      | tail _ hv => exact ih hps.2.2 hv

theorem not_isNameChar_bang : isNameChar '!' = false := rfl

theorem bang_not_mem (h : ∀ c ∈ x, isNameChar c) : '!' ∉ x := fun hmem =>
  absurd (h _ hmem) (by rw [not_isNameChar_bang]; exact Bool.false_ne_true)

/-- A variable in another one stands at its front. -/
theorem prefix_of_within (hx : IsVariable x) (hv : IsVariable v) (h : x <:+: v) : x <+: v := by
  rcases hx with ⟨n, rfl, -⟩
  rcases hv with ⟨m, rfl, hm⟩
  rw [List.infix_cons_iff] at h
  rcases h with hprefix | hin
  · exact hprefix
  · exact absurd (hin.subset List.mem_cons_self) (bang_not_mem hm)

/-- What follows a variable does not go on with its name, written out or not. -/
theorem head_behind (h : Separated (.var v :: (front ++ todo))) :
    ∀ c ∈ (render ρ' front ++ render ρ todo).head?, isNameChar c = false := by
  have hstop := h.2.1
  intro c hc
  cases front with
  | cons p front =>
    rcases hstop p rfl with ⟨d, rfl, hd⟩
    cases hc
    exact hd
  | nil =>
    cases todo with
    | nil => cases hc
    | cons p todo =>
      rcases hstop p rfl with ⟨d, rfl, hd⟩
      cases hc
      exact hd

theorem separated_tail {p : Piece} (h : Separated (p :: ps)) : Separated ps := by
  cases p with
  | char c => exact h.2
  | var x => exact h.2.2

/-- No match begins in a part whose variables are written out with texts that have none. -/
theorem free_render (hx : IsVariable x) (hsep : Separated (front ++ todo))
    (hfree : ∀ v ∈ occurrences front, ¬ x <:+: ρ' v) :
    Free x (render ρ' front) (render ρ todo) := by
  induction front with
  | nil => trivial
  | cons p front ih =>
    have hrest := separated_tail hsep
    cases p with
    | char c =>
      refine ⟨fun hprefix => ?_, ih hrest hfree⟩
      rcases hx with ⟨n, rfl, -⟩
      exact hsep.1 (List.cons_prefix_cons.mp hprefix).1.symm
    | var v =>
      rw [render, free_append]
      refine ⟨free_of_not_within (hfree _ List.mem_cons_self) fun c hc hmem => ?_,
        ih hrest fun w hw => hfree w (List.mem_cons_of_mem _ hw)⟩
      rcases hx with ⟨n, rfl, hn⟩
      have hname := hn c hmem
      rw [head_behind hsep c hc] at hname
      cases hname

theorem matchAll_append (h : '!' ∉ x) (t : Text) : matchAll (x ++ t) = matchAll t := by
  induction x with
  | nil => rfl
  | cons c x ih =>
    rw [List.mem_cons, not_or] at h
    rw [List.cons_append, matchAll, if_neg (Ne.symm h.1), ih h.2]

theorem takeWhile_name {t : Text} (hx : ∀ c ∈ x, isNameChar c)
    (ht : ∀ c ∈ t.head?, isNameChar c = false) : (x ++ t).takeWhile isNameChar = x := by
  rw [List.takeWhile_append_of_pos hx]
  cases t with
  | nil => rw [List.takeWhile_nil, List.append_nil]
  | cons c t =>
    rw [List.takeWhile_cons_of_neg (by rw [ht c rfl]; exact Bool.false_ne_true), List.append_nil]

/-- The search finds the variables of a signature. -/
theorem matchAll_text (hps : Separated ps) : matchAll (render id ps) = occurrences ps := by
  induction ps with
  | nil => rfl
  | cons p ps ih =>
    cases p with
    | char c => rw [render, matchAll, if_neg hps.1, ih hps.2, occurrences]
    | var x =>
      have hstop : ∀ c ∈ (render id ps).head?, isNameChar c = false :=
        @head_behind id id [] ps x hps
      rw [render, id, List.cons_append, matchAll, if_pos rfl, takeWhile_name hps.1 hstop,
        matchAll_append (bang_not_mem hps.1), ih hps.2.2, occurrences]

/-! ## One variable -/

theorem replacement_eq (hy : '$' ∉ y) : replacement false y = some y := by
  induction y with
  | nil => rfl
  | cons c y ih =>
    rw [List.mem_cons, not_or] at hy
    rw [replacement, if_neg (Ne.symm hy.1), Bool.false_and, if_neg Bool.false_ne_true, ih hy.2]
    rfl

theorem replaceAll_succ {p q : Text} (hy : '$' ∉ y) (h : Free x p (x ++ q)) (fuel : ℕ) :
    replaceAll (fuel + 1) (p ++ (x ++ q)) x y = replaceAll fuel (p ++ (y ++ q)) x y := by
  rw [replaceAll, regexReplace, splitFirst_of_free h, replacement_eq hy]
  rfl

theorem replaceAll_done {p : Text} (hx : IsVariable x) (h : Free x p []) (fuel : ℕ) :
    replaceAll (fuel + 1) p x y = some p := by
  have hne : x ≠ [] := by
    rcases hx with ⟨n, rfl, -⟩
    exact List.cons_ne_nil _ _
  rw [replaceAll, splitFirst_eq_none h hne]
  rfl

/-- The replacement of one variable goes through the pieces once, when none of the texts written
has the variable in it: `ρ` says what stands for each variable before it, `ρ'` afterwards. -/
theorem replaceAll_render (hx : IsVariable x) (hy : '$' ∉ y)
    (hstep : ∀ v ∈ occurrences todo, ρ' v = ρ v ∨ ∃ r, v = x ++ r ∧ ρ v = v ∧ ρ' v = y ++ r)
    (hfree : ∀ v ∈ occurrences (front ++ todo), ¬ x <:+: ρ' v) (hsep : Separated (front ++ todo)) :
    ∃ n, ∀ fuel, n ≤ fuel →
      replaceAll fuel (render ρ' front ++ render ρ todo) x y = some (render ρ' (front ++ todo)) := by
  induction todo generalizing front with
  | nil =>
    refine ⟨1, fun fuel hfuel => ?_⟩
    rw [List.append_nil] at hfree hsep ⊢
    rw [render, List.append_nil]
    have hnone : Free x (render ρ' front) (render ρ []) :=
      free_render hx (by rwa [List.append_nil]) hfree
    cases fuel with
    | zero => cases hfuel
    | succ fuel => exact replaceAll_done hx hnone fuel
  | cons p todo ih =>
    have hfront : ∀ v ∈ occurrences front, ¬ x <:+: ρ' v := fun v hv =>
      hfree v (by rw [occurrences_append]; exact List.mem_append_left _ hv)
    have hfirst := free_render (ρ := ρ) hx hsep hfront
    have hmove : front ++ p :: todo = (front ++ [p]) ++ todo := List.append_cons ..
    rw [hmove] at hfree hsep ⊢
    cases p with
    | char c =>
      rcases ih hstep hfree hsep with ⟨n, hn⟩
      refine ⟨n, fun fuel hfuel => ?_⟩
      rw [← hn fuel hfuel, render_append, List.append_assoc]
      rfl
    | var w =>
      rcases ih (fun v hv => hstep v (List.mem_cons_of_mem _ hv)) hfree hsep with ⟨n, hn⟩
      have hlast : render ρ' (front ++ [.var w]) = render ρ' front ++ ρ' ('!' :: w) := by
        rw [render_append, render, render, List.append_nil]
      rw [hlast, List.append_assoc] at hn
      rcases hstep _ List.mem_cons_self with hsame | ⟨r, hr, hold, hnew⟩
      · rw [hsame] at hn
        exact ⟨n, hn⟩
      · rw [hnew, List.append_assoc] at hn
        rw [render, hold, hr, List.append_assoc] at hfirst ⊢
        refine ⟨n + 1, fun fuel hfuel => ?_⟩
        cases fuel with
        | zero => cases hfuel
        | succ fuel =>
          rw [replaceAll_succ hy hfirst, hn fuel (Nat.le_of_succ_le_succ hfuel)]

end Pieces

/-! ## All variables, one after the other -/

/-- The variables with their arguments, from the first one on that the name `v` begins with. -/
def fromLeader (vars : List (Text × Text)) (v : Text) : List (Text × Text) :=
  vars.dropWhile fun q => ¬ q.1 <+: v

/-- What becomes of the variable `v`: the first name it begins with is replaced, and the rest of
its own name stays behind that argument. -/
def resolve (vars : List (Text × Text)) (v : Text) : Text :=
  match fromLeader vars v with
  | [] => v
  | q :: _ => q.2 ++ v.drop q.1.length

/-- The arguments by their variables. -/
def argument (vars : List (Text × Text)) (v : Text) : Text :=
  (vars.lookup v).getD v

/-- No text that is written has a variable in it whose turn is then or later. -/
def Settled (vars : List (Text × Text)) : Prop :=
  ∀ p ∈ vars, '$' ∉ p.2 ∧ ∀ q ∈ fromLeader vars p.1, ¬ q.1 <:+: resolve vars p.1

/-- The variables do not get in each other's way. -/
def Independent (vars : List (Text × Text)) : Prop :=
  Settled vars ∧ ∀ p ∈ vars, resolve vars p.1 = p.2

instance (vars : List (Text × Text)) : Decidable (Settled vars) := by
  unfold Settled
  infer_instance

instance (vars : List (Text × Text)) : Decidable (Independent vars) := by
  unfold Independent
  infer_instance

/-- The expansion of a signature with these variables is the simultaneous substitution of their
arguments. -/
def Simultaneous (vars : List (Text × Text)) : Prop :=
  ∀ s : Signature, s.gvars = vars.map Prod.fst → ∃ n, ∀ fuel, n ≤ fuel →
    expandGenericType fuel s.text (vars.map Prod.snd) = some (s.substitute (argument vars))

section Run

variable {vars done todo : List (Text × Text)} {ps : List Piece} {x y v : Text}

/-- What stands for a variable once those of `done` have been replaced. -/
def written (vars done : List (Text × Text)) (v : Text) : Text :=
  if ∃ q ∈ done, q.1 <+: v then resolve vars v else v

theorem written_of_mem (h : ∃ q ∈ done, q.1 <+: v) : written vars done v = resolve vars v :=
  if_pos h

theorem written_of_not (h : ¬ ∃ q ∈ done, q.1 <+: v) : written vars done v = v :=
  if_neg h

theorem fromLeader_append_of_not (h : ¬ ∃ q ∈ done, q.1 <+: v) :
    fromLeader (done ++ todo) v = fromLeader todo v :=
  List.dropWhile_append_of_pos fun q hq => decide_eq_true fun hprefix => h ⟨q, hq, hprefix⟩

theorem mem_fromLeader {p : Text × Text} (h : ∃ q ∈ done ++ [p], q.1 <+: v) :
    p ∈ fromLeader (done ++ p :: todo) v := by
  induction done with
  | nil =>
    rcases h with ⟨q, hq, hprefix⟩
    cases List.mem_singleton.mp hq
    rw [fromLeader, List.nil_append, List.dropWhile_cons_of_neg (by simpa using hprefix)]
    exact List.mem_cons_self
  | cons d done ih =>
    by_cases hd : d.1 <+: v
    · rw [fromLeader, List.cons_append, List.dropWhile_cons_of_neg (by simpa using hd)]
      exact List.mem_cons_of_mem _ (List.mem_append_right _ List.mem_cons_self)
    · rw [fromLeader, List.cons_append, List.dropWhile_cons_of_pos (by simpa using hd)]
      apply ih
      rcases h with ⟨q, hq, hprefix⟩
      cases hq with
      | head => exact absurd hprefix hd
      | tail _ hq => exact ⟨q, hq, hprefix⟩

theorem resolve_of_first (h : ¬ ∃ q ∈ done, q.1 <+: x ++ v) :
    resolve (done ++ (x, y) :: todo) (x ++ v) = y ++ v := by
  have hleader : fromLeader ((x, y) :: todo) (x ++ v) = (x, y) :: todo :=
    List.dropWhile_cons_of_neg (by simp)
  rw [resolve, fromLeader_append_of_not h, hleader]
  exact congrArg (y ++ ·) List.drop_left

/-- One step of the run: the variable whose turn it is. -/
theorem replaceAll_written (hsettled : Settled (done ++ (x, y) :: todo)) (hx : IsVariable x)
    (hsep : Separated ps)
    (hmem : ∀ v ∈ occurrences ps, v ∈ (done ++ (x, y) :: todo).map Prod.fst) :
    ∃ n, ∀ fuel, n ≤ fuel →
      replaceAll fuel (render (written (done ++ (x, y) :: todo) done) ps) x y =
        some (render (written (done ++ (x, y) :: todo) (done ++ [(x, y)])) ps) := by
  have hy : '$' ∉ y := (hsettled (x, y) (List.mem_append_right _ List.mem_cons_self)).1
  refine @replaceAll_render _ _ [] ps x y hx hy (fun v _ => ?_) (fun v hv => ?_) hsep
  · by_cases hd : ∃ q ∈ done, q.1 <+: v
    · left
      rcases hd with ⟨q, hq, hprefix⟩
      rw [written_of_mem ⟨q, hq, hprefix⟩,
        written_of_mem ⟨q, List.mem_append_left _ hq, hprefix⟩]
    · by_cases hxv : x <+: v
      · right
        rcases hxv with ⟨r, rfl⟩
        refine ⟨r, rfl, written_of_not hd, ?_⟩
        rw [written_of_mem ⟨(x, y), List.mem_append_right _ List.mem_cons_self,
          List.prefix_append x r⟩, resolve_of_first hd]
      · left
        rw [written_of_not hd, written_of_not]
        rintro ⟨q, hq, hprefix⟩
        rcases List.mem_append.mp hq with hq | hq
        · exact hd ⟨q, hq, hprefix⟩
        · cases List.mem_singleton.mp hq
          exact hxv hprefix
  · by_cases hd : ∃ q ∈ done ++ [(x, y)], q.1 <+: v
    · rw [written_of_mem hd]
      rcases List.mem_map.mp (hmem v hv) with ⟨p, hp, rfl⟩
      exact (hsettled p hp).2 (x, y) (mem_fromLeader hd)
    · rw [written_of_not hd]
      intro hin
      apply hd
      exact ⟨(x, y), List.mem_append_right _ List.mem_cons_self,
        prefix_of_within hx (isVariable_of_mem hsep hv) hin⟩

/-- The whole run, by induction on the variables that are left. -/
theorem replaceVariables_written (hsettled : Settled (done ++ todo))
    (hvar : ∀ p ∈ todo, IsVariable p.1) (hsep : Separated ps)
    (hmem : ∀ v ∈ occurrences ps, v ∈ (done ++ todo).map Prod.fst) :
    ∃ n, ∀ fuel, n ≤ fuel →
      replaceVariables fuel todo (render (written (done ++ todo) done) ps) =
        some (render (written (done ++ todo) (done ++ todo)) ps) := by
  induction todo generalizing done with
  | nil =>
    refine ⟨0, fun fuel _ => ?_⟩
    rw [List.append_nil, replaceVariables]
  | cons p todo ih =>
    rcases replaceAll_written hsettled (hvar p List.mem_cons_self) hsep hmem with ⟨n, hn⟩
    have hmove : done ++ p :: todo = (done ++ [p]) ++ todo := List.append_cons ..
    rw [hmove] at hsettled hmem
    rcases ih hsettled (fun q hq => hvar q (List.mem_cons_of_mem _ hq)) hmem with ⟨m, hm⟩
    refine ⟨max n m, fun fuel hfuel => ?_⟩
    rw [replaceVariables, hn fuel ((le_max_left n m).trans hfuel), Option.bind_some, hmove,
      hm fuel ((le_max_right n m).trans hfuel)]

theorem expandGenericType_eq (s : Signature) (hs : s.gvars = vars.map Prod.fst) (fuel : ℕ) :
    expandGenericType fuel s.text (vars.map Prod.snd) = replaceVariables fuel vars s.text := by
  have hzip : (vars.map Prod.fst).zip (vars.map Prod.snd) = vars := by
    rw [List.zip_map']
    exact List.map_id vars
  have hgvars : (matchAll s.text).eraseDups = vars.map Prod.fst := by
    rw [Signature.text, matchAll_text s.separated]
    exact hs
  have hlength : (vars.map Prod.fst).length = (vars.map Prod.snd).length := by
    rw [List.length_map, List.length_map]
  rw [expandGenericType, hgvars, if_neg (not_not.mpr hlength), hzip]

theorem mem_of_occurrence (s : Signature) (hs : s.gvars = vars.map Prod.fst)
    (hv : v ∈ occurrences s.pieces) : v ∈ vars.map Prod.fst := by
  rw [← hs]
  exact List.mem_eraseDups.mpr hv

theorem occurrence_of_mem (s : Signature) (hs : s.gvars = vars.map Prod.fst)
    (hv : v ∈ vars.map Prod.fst) : v ∈ occurrences s.pieces := by
  rw [← hs] at hv
  exact List.mem_eraseDups.mp hv

/-- The expansion writes `resolve` for the variables. -/
theorem expandGenericType_resolve (hsettled : Settled vars) (s : Signature)
    (hs : s.gvars = vars.map Prod.fst) :
    ∃ n, ∀ fuel, n ≤ fuel →
      expandGenericType fuel s.text (vars.map Prod.snd) = some (s.substitute (resolve vars)) := by
  have hmem : ∀ v ∈ occurrences s.pieces, v ∈ vars.map Prod.fst := fun v hv =>
    mem_of_occurrence s hs hv
  have hvar : ∀ p ∈ vars, IsVariable p.1 := fun p hp =>
    isVariable_of_mem s.separated (occurrence_of_mem s hs (List.mem_map_of_mem hp))
  have hfirst : render (written vars []) s.pieces = s.text :=
    render_congr fun v _ => written_of_not (by rintro ⟨q, hq, -⟩; cases hq)
  have hlast : render (written vars vars) s.pieces = s.substitute (resolve vars) := by
    apply render_congr
    intro v hv
    rcases List.mem_map.mp (hmem v hv) with ⟨p, hp, rfl⟩
    exact written_of_mem ⟨p, hp, List.prefix_refl _⟩
  rcases @replaceVariables_written [] vars _ hsettled hvar s.separated hmem with ⟨n, hn⟩
  rw [List.nil_append, hfirst, hlast] at hn
  refine ⟨n, fun fuel hfuel => ?_⟩
  rw [expandGenericType_eq s hs, hn fuel hfuel]

/-! ## An argument with its own variable -/

/-- A text with a whole variable in it. -/
def Holds (v t : Text) : Prop :=
  ∃ a b, t = a ++ (v ++ b) ∧ ∀ c ∈ b.head?, isNameChar c = false ∧ c ≠ '!'

theorem holds_text (hsep : Separated ps) (hv : v ∈ occurrences ps) : Holds v (render id ps) := by
  induction ps with
  | nil => cases hv
  | cons p ps ih =>
    have hrest : v ∈ occurrences ps → Holds v (render id (p :: ps)) := by
      intro hv
      rcases ih (separated_tail hsep) hv with ⟨a, b, hab, hb⟩
      cases p with
      | char c => exact ⟨c :: a, b, congrArg (c :: ·) hab, hb⟩
      | var x =>
        refine ⟨'!' :: x ++ a, b, ?_, hb⟩
        rw [render, hab, List.append_assoc]
        rfl
    cases p with
    | char c => exact hrest hv
    | var x =>
      cases hv with
      | tail _ hv => exact hrest hv
      | head =>
        refine ⟨[], render id ps, rfl, fun c hc => ?_⟩
        cases ps with
        | nil => cases hc
        | cons q ps =>
          rcases hsep.2.1 q rfl with ⟨d, rfl, hd⟩
          cases hc
          exact ⟨hd, hsep.2.2.1⟩

/-- A variable begins a whole one only if it begins its name. -/
theorem prefix_of_prefix_append {b : Text} (hx : IsVariable x) (hv : IsVariable v)
    (hb : ∀ c ∈ b.head?, isNameChar c = false ∧ c ≠ '!') (h : x <+: v ++ b) : x <+: v := by
  rcases List.prefix_or_prefix_of_prefix h (List.prefix_append v b) with hprefix | ⟨r, rfl⟩
  · exact hprefix
  · cases r with
    | nil => rw [List.append_nil]
    | cons d r =>
      rw [List.prefix_append_right_inj] at h
      rcases h with ⟨b', rfl⟩
      rcases hx with ⟨n, hn, hname⟩
      rcases hv with ⟨m, rfl, -⟩
      have hd : d ∈ n := by
        rw [← (List.cons.inj hn).2]
        exact List.mem_append_right m List.mem_cons_self
      have hstop := (hb d rfl).1
      rw [hname d hd] at hstop
      cases hstop

/-- The replacement of a variable leaves the whole variables it does not begin. -/
theorem holds_regexReplace {t t' : Text} (hx : IsVariable x) (hv : IsVariable v)
    (hnot : ¬ x <+: v) (ht : Holds v t) (h : regexReplace t x y = some t') : Holds v t' := by
  rcases ht with ⟨a, b, rfl, hb⟩
  rw [regexReplace] at h
  cases hsplit : splitFirst x (a ++ (v ++ b)) with
  | none =>
    rw [hsplit] at h
    cases h
    exact ⟨a, b, rfl, hb⟩
  | some parts =>
    rw [hsplit, Option.map_eq_some_iff] at h
    rcases h with ⟨put, -, rfl⟩
    have hspec := splitFirst_spec hsplit
    have hxv := hx
    rcases hxv with ⟨n, rfl, hn⟩
    rcases hv with ⟨m, rfl, hm⟩
    rcases apart (bang_not_mem hm) (bang_not_mem hn) hspec with
      ⟨k, hk, hq⟩ | ⟨k, hk, hq⟩ | ⟨-, hsame⟩
    · refine ⟨a, k ++ (put ++ parts.2), ?_, ?_⟩
      · rw [hk]
        simp only [List.append_assoc]
      · cases k with
        | nil => exact absurd rfl (hb '!' (by rw [hq]; rfl)).2
        | cons d k => exact fun c hc => hb c (by rw [hq]; exact hc)
    · refine ⟨parts.1 ++ (put ++ k), b, ?_, hb⟩
      rw [hq]
      simp only [List.append_assoc]
    · apply absurd _ hnot
      apply prefix_of_prefix_append hx ⟨m, rfl, hm⟩ hb
      exact ⟨parts.2, congrArg ('!' :: ·) hsame.symm⟩

theorem holds_replaceAll {t t' : Text} (hx : IsVariable x) (hv : IsVariable v) (hnot : ¬ x <+: v)
    {fuel : ℕ} (ht : Holds v t) (h : replaceAll fuel t x y = some t') : Holds v t' := by
  induction fuel generalizing t with
  | zero => cases h
  | succ fuel ih =>
    rw [replaceAll] at h
    split at h
    · rcases Option.bind_eq_some_iff.mp h with ⟨u, hu, hrest⟩
      exact ih (holds_regexReplace hx hv hnot ht hu) hrest
    · cases h
      exact ht

/-- An argument with its own variable in it brings the variable back each time. -/
theorem replaceAll_own {t : Text} (hy : '$' ∉ y) (hown : x <:+: y) (ht : x <:+: t) (fuel : ℕ) :
    replaceAll fuel t x y = none := by
  induction fuel generalizing t with
  | zero => rfl
  | succ fuel ih =>
    have hsome := splitFirst_isSome ht
    cases hsplit : splitFirst x t with
    | none =>
      rw [hsplit] at hsome
      cases hsome
    | some parts =>
      rw [replaceAll, regexReplace, hsplit, replacement_eq hy]
      apply ih
      rcases hown with ⟨a, b, rfl⟩
      refine ⟨parts.1 ++ a, b ++ parts.2, ?_⟩
      simp only [List.append_assoc]

theorem replaceVariables_own {t : Text} (hv : IsVariable v) (hy : '$' ∉ y) (hown : v <:+: y)
    (hdone : ∀ q ∈ done, IsVariable q.1 ∧ ¬ q.1 <+: v) (ht : Holds v t) (fuel : ℕ) :
    replaceVariables fuel (done ++ (v, y) :: todo) t = none := by
  induction done generalizing t with
  | nil =>
    rcases ht with ⟨a, b, rfl, -⟩
    have hin : v <:+: a ++ (v ++ b) := ⟨a, b, List.append_assoc ..⟩
    rw [List.nil_append, replaceVariables, replaceAll_own hy hown hin, Option.bind_none]
  | cons d done ih =>
    have hd := hdone d List.mem_cons_self
    rw [List.cons_append, replaceVariables]
    cases hrun : replaceAll fuel t d.1 d.2 with
    | none => rfl
    | some t' =>
      exact ih (fun q hq => hdone q (List.mem_cons_of_mem _ hq))
        (holds_replaceAll hd.1 hv hd.2 ht hrun)

/-- An argument has its own variable in it, and the turn of that variable comes. -/
def Endless (vars : List (Text × Text)) : Prop :=
  ∃ done v y todo, vars = done ++ (v, y) :: todo ∧ '$' ∉ y ∧ v <:+: y ∧ ∀ q ∈ done, ¬ q.1 <+: v

theorem expandGenericType_endless (h : Endless vars) (s : Signature)
    (hs : s.gvars = vars.map Prod.fst) (fuel : ℕ) :
    expandGenericType fuel s.text (vars.map Prod.snd) = none := by
  rw [expandGenericType_eq s hs]
  have hvar : ∀ p ∈ vars, IsVariable p.1 := fun p hp =>
    isVariable_of_mem s.separated (occurrence_of_mem s hs (List.mem_map_of_mem hp))
  rcases h with ⟨done, v, y, todo, rfl, hy, hown, hfirst⟩
  have hmem : (v, y) ∈ done ++ (v, y) :: todo := List.mem_append_right _ List.mem_cons_self
  have hholds : Holds v s.text :=
    holds_text s.separated (occurrence_of_mem s hs (List.mem_map_of_mem hmem))
  exact replaceVariables_own (hvar _ hmem) hy hown
    (fun q hq => ⟨hvar q (List.mem_append_left _ hq), hfirst q hq⟩) hholds fuel

/-! ## Simultaneous substitution -/

theorem argument_of_mem (hnodup : (vars.map Prod.fst).Nodup) {p : Text × Text} (hp : p ∈ vars) :
    argument vars p.1 = p.2 := by
  induction vars with
  | nil => cases hp
  | cons q vars ih =>
    rw [List.map_cons, List.nodup_cons] at hnodup
    cases hp with
    | head => rw [argument, List.lookup_cons_self, Option.getD_some]
    | tail _ hp =>
      have hne : (p.1 == q.1) = false := by
        apply beq_false_of_ne
        rintro heq
        exact hnodup.1 (heq ▸ List.mem_map_of_mem hp)
      rw [argument, List.lookup_cons, hne]
      exact ih hnodup.2 hp

/-- The variables, a comma behind each. -/
def listed : List (Text × Text) → List Piece
  | [] => []
  | p :: vars => .var p.1.tail :: .char ',' :: listed vars

theorem occurrences_listed (hvar : ∀ p ∈ vars, IsVariable p.1) :
    occurrences (listed vars) = vars.map Prod.fst := by
  induction vars with
  | nil => rfl
  | cons p vars ih =>
    rcases hvar p List.mem_cons_self with ⟨n, hn, -⟩
    rw [listed, occurrences, occurrences, ih fun q hq => hvar q (List.mem_cons_of_mem _ hq),
      List.map_cons, hn, List.tail_cons]

theorem separated_listed (hvar : ∀ p ∈ vars, IsVariable p.1) (hps : Separated ps) :
    Separated (listed vars ++ ps) := by
  induction vars with
  | nil => exact hps
  | cons p vars ih =>
    rcases hvar p List.mem_cons_self with ⟨n, hn, hname⟩
    refine ⟨?_, ?_, ?_, ih fun q hq => hvar q (List.mem_cons_of_mem _ hq)⟩
    · rw [hn]
      exact hname
    · intro q hq
      cases hq
      exact ⟨',', rfl, rfl⟩
    · decide

/-- Where the expansion is simultaneous for every signature, each variable becomes its argument:
two signatures tell, one of them with the variable once more at its end. -/
theorem resolve_of_simultaneous (hvar : ∀ p ∈ vars, IsVariable p.1)
    (hnodup : (vars.map Prod.fst).Nodup) (hsettled : Settled vars) (h : Simultaneous vars)
    {p : Text × Text} (hp : p ∈ vars) : resolve vars p.1 = p.2 := by
  have hsame : ∀ ps, Separated ps → (occurrences ps).eraseDups = vars.map Prod.fst →
      render (resolve vars) ps = render (argument vars) ps := by
    intro ps hsep hs
    rcases expandGenericType_resolve hsettled ⟨ps, hsep⟩ hs with ⟨n, hn⟩
    rcases h ⟨ps, hsep⟩ hs with ⟨m, hm⟩
    have hboth := hn (max n m) (le_max_left n m)
    rw [hm (max n m) (le_max_right n m)] at hboth
    exact (Option.some.inj hboth).symm
  rcases hvar p hp with ⟨n, hn, hname⟩
  have hempty : Separated [] := trivial
  have hlast : Separated [.var n] := by
    refine ⟨hname, fun q hq => ?_, hempty⟩
    cases hq
  have hmem : '!' :: n ∈ vars.map Prod.fst := hn ▸ List.mem_map_of_mem hp
  have hone := hsame _ (separated_listed hvar hempty) (by
    rw [List.append_nil, occurrences_listed hvar, eraseDups_of_nodup hnodup])
  have htwo := hsame _ (separated_listed hvar hlast) (by
    have hold : List.removeAll [('!' :: n)] (vars.map Prod.fst) = [] := by
      rw [List.removeAll, List.filter_eq_nil_iff]
      intro v hv
      rw [List.mem_singleton.mp hv, List.elem_eq_true_of_mem hmem]
      exact Bool.false_ne_true
    rw [occurrences_append, occurrences_listed hvar, List.eraseDups_append,
      eraseDups_of_nodup hnodup]
    show _ ++ (List.removeAll [('!' :: n)] (vars.map Prod.fst)).eraseDups = _
    rw [hold, List.eraseDups_nil, List.append_nil])
  rw [List.append_nil] at hone
  rw [render_append, render_append, hone, List.append_cancel_left_eq, render, render, render,
    render, List.append_nil, List.append_nil, ← hn, argument_of_mem hnodup hp] at htwo
  exact htwo

/-- When the variables do not get in each other's way, the expansion of every signature with these
variables ends with the simultaneous substitution. It does so for all of them only then, as long as
no text that is written brings a variable with it whose turn is then or later; an argument with its
own variable in it never comes to an end. -/
theorem simultaneous_iff (hvar : ∀ p ∈ vars, IsVariable p.1)
    (hnodup : (vars.map Prod.fst).Nodup) :
    (Independent vars → Simultaneous vars) ∧
      (Settled vars → Simultaneous vars → Independent vars) ∧
      (Endless vars → ∀ s : Signature, s.gvars = vars.map Prod.fst → ∀ fuel,
        expandGenericType fuel s.text (vars.map Prod.snd) = none) := by
  refine ⟨?_, ?_, fun h s hs fuel => expandGenericType_endless h s hs fuel⟩
  · rintro ⟨hsettled, hresolve⟩ s hs
    rcases expandGenericType_resolve hsettled s hs with ⟨n, hn⟩
    have hsame : s.substitute (resolve vars) = s.substitute (argument vars) := by
      apply render_congr
      intro v hv
      rcases List.mem_map.mp (mem_of_occurrence s hs hv) with ⟨p, hp, rfl⟩
      rw [hresolve p hp, argument_of_mem hnodup hp]
    rw [hsame] at hn
    exact ⟨n, hn⟩
  · intro hsettled h
    exact ⟨hsettled, fun p hp => resolve_of_simultaneous hvar hnodup hsettled h hp⟩

end Run

theorem isVariable_pair {n m : List Char} {a b : Text} (hn : n.all isNameChar)
    (hm : m.all isNameChar) : ∀ p ∈ [('!' :: n, a), ('!' :: m, b)], IsVariable p.1 := by
  intro p hp
  cases hp with
  | head => exact ⟨n, rfl, List.all_eq_true.mp hn⟩
  | tail _ hp =>
    cases List.mem_singleton.mp hp
    exact ⟨m, rfl, List.all_eq_true.mp hm⟩

/-- An argument with a variable of another name in it. -/
theorem simultaneous_pointer :
    Simultaneous [(['!', 'a'], ['!', 'c', '*']), (['!', 'b'], ['i', '6', '4'])] :=
  (simultaneous_iff (isVariable_pair rfl rfl) (by decide)).1 (by decide)

/-- The argument of `!a` is written for the first two characters of `!ab` as well. -/
theorem not_simultaneous_prefix :
    expandGenericType 3 "<!a,!ab>".toList ["i8".toList, "i64".toList] = some "<i8,i8b>".toList ∧
      ¬ Simultaneous [(['!', 'a'], ['i', '8']), (['!', 'a', 'b'], ['i', '6', '4'])] := by
  refine ⟨by decide, fun h => ?_⟩
  have hwrong := resolve_of_simultaneous (isVariable_pair rfl rfl) (by decide)
    (by decide) h (List.mem_cons_of_mem _ (List.mem_singleton_self _))
  exact absurd hwrong (by decide)

end Extempore.GenericExpansion
