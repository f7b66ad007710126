import Extempore.WhileLoops
import Mathlib.Data.List.Basic

/-!
# Loops over regular expression matches

`regex:match-all` and `regex:split` look for a match from the data pointer on and move the pointer
behind it until there is none. `pcre_exec` is a parameter.
-/

namespace Extempore.RegexLoops
open WhileLoops

/-- `pcre_exec` on the text from the data pointer on: `ovector[0]` and `ovector[1]`, or no match. -/
abbrev Exec := List UInt8 → Option (ℕ × ℕ)

/-- What `pcre_exec` returns lies in the text. -/
def InText (exec : Exec) : Prop := ∀ text b e, exec text = some (b, e) → b ≤ e ∧ e ≤ text.length

/-- The data pointer and the list of strings, the last one first. -/
structure State where
  data : List UInt8
  list : List (List UInt8)
  deriving DecidableEq, Repr

variable {exec : Exec} {data before matched rest text text' : List UInt8}

def found (exec : Exec) (s : State) : Bool := (exec s.data).isSome

/-- A round of `regex_match_all`. -/
def matchAllRound (exec : Exec) (s : State) : State :=
  match exec s.data with
  | none => s
  | some (b, e) => ⟨s.data.drop e, (s.data.drop b).take (e - b) :: s.list⟩

/-- `regex:match-all` returns. -/
def MatchAll (exec : Exec) (data : List UInt8) (result : List (List UInt8)) : Prop :=
  ∃ s, Ends (found exec) (matchAllRound exec) ⟨data, []⟩ s ∧ result = s.list.reverse

/-- A round of `regex_split`. -/
def splitRound (exec : Exec) (s : State) : State :=
  match exec s.data with
  | none => s
  | some (b, e) => ⟨s.data.drop e, s.data.take b :: s.list⟩

/-- `regex:split` returns; what is behind the last match is added if it is not empty. -/
def Split (exec : Exec) (data : List UInt8) (result : List (List UInt8)) : Prop :=
  ∃ s, Ends (found exec) (splitRound exec) ⟨data, []⟩ s ∧
    result = (if s.data = [] then s.list else s.data :: s.list).reverse

/-! ## Matches from left to right -/

/-- A text is cut into matches, each with the text in front of it. Every match is the one that is
found behind the match before, and none is found in the rest. -/
inductive CutInto (exec : Exec) : List UInt8 → List (List UInt8 × List UInt8) → List UInt8 → Prop
  | rest {rest : List UInt8} (h : exec rest = none) : CutInto exec rest [] rest
  | cut {before matched behind rest : List UInt8} {cuts : List (List UInt8 × List UInt8)}
    (h : exec (before ++ (matched ++ behind)) =
      some (before.length, before.length + matched.length))
    (hbehind : CutInto exec behind cuts rest) :
    CutInto exec (before ++ (matched ++ behind)) ((before, matched) :: cuts) rest

/-- The pieces of `regex:split` for a text that is cut so. -/
def pieces (cuts : List (List UInt8 × List UInt8)) (rest : List UInt8) : List (List UInt8) :=
  cuts.map Prod.fst ++ (if rest = [] then [] else [rest])

/-- The pieces with a separator behind each but the last one. -/
def interleave : List (List UInt8) → List (List UInt8) → List UInt8
  | piece :: pieces, separator :: separators => piece ++ separator ++ interleave pieces separators
  | pieces, _ => pieces.flatten

/-- Both loops end. The matches follow one another in the text, and the pieces interleaved with the
matches make up the text. -/
structure Finishes (exec : Exec) (data : List UInt8) : Prop where
  matchAll : ∃ cuts rest, CutInto exec data cuts rest ∧ MatchAll exec data (cuts.map Prod.snd)
  split : ∃ cuts rest, CutInto exec data cuts rest ∧ Split exec data (pieces cuts rest) ∧
    interleave (pieces cuts rest) (cuts.map Prod.snd) = data

/-- The data pointer gets to the text. -/
inductive Reached (exec : Exec) (data : List UInt8) : List UInt8 → Prop
  | start : Reached exec data data
  | behind {text : List UInt8} {b e : ℕ} (h : Reached exec data text) (hmatch : exec text = some (b, e)) :
    Reached exec data (text.drop e)

/-! ## Termination -/

theorem Reached.trans (h : Reached exec data text) (h' : Reached exec text text') :
    Reached exec data text' := by
  induction h' with
  | start => exact h
  | behind _ hmatch ih => exact .behind ih hmatch

/-- A match cuts the text in three. -/
theorem exists_parts (hexec : InText exec) {b e : ℕ} (h : exec data = some (b, e)) :
    ∃ before matched behind, data = before ++ (matched ++ behind) ∧ b = before.length ∧
      e = before.length + matched.length := by
  obtain ⟨hbe, he⟩ := hexec data b e h
  refine ⟨data.take b, (data.drop b).take (e - b), data.drop e, ?_, ?_, ?_⟩
  · conv_lhs => rw [← List.take_append_drop b data, ← List.take_append_drop (e - b) (data.drop b)]
    rw [List.drop_drop, Nat.add_sub_cancel' hbe]
  · rw [List.length_take]
    omega
  · rw [List.length_take, List.length_take, List.length_drop]
    omega

theorem drop_parts (before matched behind : List UInt8) :
    (before ++ (matched ++ behind)).drop (before.length + matched.length) = behind := by
  rw [← List.append_assoc, ← List.length_append, List.drop_left]

/-- Without an empty match at the beginning of a text that is reached, every match shortens it. -/
theorem exists_cutInto (hexec : InText exec)
    (h : ∀ text, Reached exec data text → exec text ≠ some (0, 0)) :
    ∃ cuts rest, CutInto exec data cuts rest := by
  induction hn : data.length using Nat.strongRecOn generalizing data with
  | ind n ih =>
    cases hmatch : exec data with
    | none => exact ⟨[], data, .rest hmatch⟩
    | some r =>
      obtain ⟨b, e⟩ := r
      obtain ⟨before, matched, behind, rfl, rfl, rfl⟩ := exists_parts hexec hmatch
      have hpos : 0 < before.length + matched.length := by
        rw [Nat.pos_iff_ne_zero]
        intro hzero
        obtain ⟨hb, hm⟩ := Nat.add_eq_zero_iff.mp hzero
        rw [hb, hm] at hmatch
        exact h _ .start hmatch
      have hreached : Reached exec (before ++ (matched ++ behind)) behind := by
        have hbehind := Reached.behind .start hmatch
        rwa [drop_parts] at hbehind
      rw [List.length_append, List.length_append] at hn
      obtain ⟨cuts, rest, hcuts⟩ :=
        ih behind.length (by omega) (fun text htext => h text (hreached.trans htext)) rfl
      exact ⟨_, rest, .cut hmatch hcuts⟩

theorem CutInto.ends_matchAll {cuts : List (List UInt8 × List UInt8)}
    (h : CutInto exec data cuts rest) (list : List (List UInt8)) :
    Ends (found exec) (matchAllRound exec) ⟨data, list⟩
      ⟨rest, (cuts.map Prod.snd).reverse ++ list⟩ := by
  induction h generalizing list with
  | rest hnone => exact ends_of_done (by rw [found, hnone]; rfl)
  | cut hmatch _ ih =>
    rename_i before matched behind rest cuts _
    have hround : matchAllRound exec ⟨before ++ (matched ++ behind), list⟩ =
        ⟨behind, matched :: list⟩ := by
      simp only [matchAllRound, hmatch, drop_parts, List.drop_left, Nat.add_sub_cancel_left,
        List.take_left]
    refine ends_of_step (by rw [found, hmatch]; rfl) ?_
    rw [hround, List.map_cons, List.reverse_cons, List.append_assoc, List.singleton_append]
    exact ih (matched :: list)

theorem CutInto.ends_split {cuts : List (List UInt8 × List UInt8)}
    (h : CutInto exec data cuts rest) (list : List (List UInt8)) :
    Ends (found exec) (splitRound exec) ⟨data, list⟩
      ⟨rest, (cuts.map Prod.fst).reverse ++ list⟩ := by
  induction h generalizing list with
  | rest hnone => exact ends_of_done (by rw [found, hnone]; rfl)
  | cut hmatch _ ih =>
    rename_i before matched behind rest cuts _
    have hround : splitRound exec ⟨before ++ (matched ++ behind), list⟩ =
        ⟨behind, before :: list⟩ := by
      simp only [splitRound, hmatch, drop_parts, List.take_left]
    refine ends_of_step (by rw [found, hmatch]; rfl) ?_
    rw [hround, List.map_cons, List.reverse_cons, List.append_assoc, List.singleton_append]
    exact ih (before :: list)

theorem CutInto.interleave_eq {cuts : List (List UInt8 × List UInt8)}
    (h : CutInto exec data cuts rest) :
    interleave (pieces cuts rest) (cuts.map Prod.snd) = data := by
  induction h with
  | rest hnone =>
    rename_i rest
    by_cases hrest : rest = []
    · simp [pieces, interleave, hrest]
    · simp [pieces, interleave, hrest]
  | cut _ _ ih =>
    rename_i before matched behind rest cuts _ _
    have hpieces : pieces ((before, matched) :: cuts) rest = before :: pieces cuts rest := rfl
    rw [hpieces, List.map_cons, interleave, ih, List.append_assoc]

theorem CutInto.finishes {cuts : List (List UInt8 × List UInt8)}
    (h : CutInto exec data cuts rest) : Finishes exec data where
  matchAll := by
    refine ⟨cuts, rest, h, _, h.ends_matchAll [], ?_⟩
    rw [List.append_nil, List.reverse_reverse]
  split := by
    refine ⟨cuts, rest, h, ⟨_, h.ends_split [], ?_⟩, h.interleave_eq⟩
    rw [List.append_nil, pieces]
    split
    · simp
    · simp

/-- A loop that ends from the beginning of the text ends from every text that it gets to. -/
theorem ends_of_reached (h : Reached exec data text) {list : List (List UInt8)} {s : State}
    (hends : Ends (found exec) (matchAllRound exec) ⟨data, list⟩ s) :
    ∃ list', Ends (found exec) (matchAllRound exec) ⟨text, list'⟩ s := by
  induction h with
  | start => exact ⟨list, hends⟩
  | behind _ hmatch ih =>
    obtain ⟨list', hends'⟩ := ih
    have hbehind := hends'.behind (by rw [found, hmatch]; rfl)
    simp only [matchAllRound, hmatch] at hbehind
    exact ⟨_, hbehind⟩

/-- At an empty match in front of the text the data pointer stays where it is. -/
theorem not_ends_of_empty (hempty : exec text = some (0, 0)) (list : List (List UInt8)) (s : State) :
    ¬ Ends (found exec) (matchAllRound exec) ⟨text, list⟩ s := by
  refine not_ends (I := fun s => s.data = text) ?_ ?_ rfl
  · intro s hs
    rw [found, hs, hempty]
    rfl
  · intro s hs
    rw [matchAllRound, hs, hempty]
    rfl

/-- Both loops end, with the matches and pieces from left to right, just if no text that the data
pointer gets to has an empty match at its beginning. -/
theorem loopsFinish_iff (hexec : InText exec) :
    Finishes exec data ↔ ∀ text, Reached exec data text → exec text ≠ some (0, 0) := by
  constructor
  · intro h text hreached hempty
    obtain ⟨_, _, -, s, hends, -⟩ := h.matchAll
    obtain ⟨list, hends'⟩ := ends_of_reached hreached hends
    exact not_ends_of_empty hempty list s hends'
  · intro h
    obtain ⟨cuts, rest, hcuts⟩ := exists_cutInto hexec h
    exact hcuts.finishes

/-- A comma is the match. -/
def comma (text : List UInt8) : Option (ℕ × ℕ) := (text.findIdx? (· == 44)).map fun i => (i, i + 1)

/-- Letters between commas. -/
theorem finishes_comma : Finishes comma [97, 44, 98] := by
  refine (loopsFinish_iff ?_).mpr ?_
  · intro text b e h
    rw [comma, Option.map_eq_some_iff] at h
    obtain ⟨i, hi, heq⟩ := h
    cases heq
    obtain ⟨hlt, -⟩ := List.findIdx?_eq_some_iff_getElem.mp hi
    exact ⟨Nat.le_succ b, hlt⟩
  · intro text _ h
    rw [comma, Option.map_eq_some_iff] at h
    obtain ⟨i, -, hi⟩ := h
    cases hi

/-- The empty pattern matches in front of every text. -/
theorem not_finishes_empty : ¬ Finishes (fun _ => some (0, 0)) [97] := by
  intro h
  obtain ⟨_, _, -, s, hends, -⟩ := h.matchAll
  exact not_ends_of_empty rfl [] s hends

end Extempore.RegexLoops
