import Mathlib.Data.List.Infix

/-!
# First matches of a word

A text is cut at the first place where a word occurs. `Free v p t` says that no occurrence of `v` in
the text `p ++ t` begins in `p`; then what comes behind `p` is found first.
-/

namespace Extempore.FirstMatches

universe u

variable {α : Type u} [DecidableEq α] {v p p' q t : List α}

/-- The text in front of the first occurrence of a word, and the text behind it. -/
def splitFirst (v : List α) : List α → Option (List α × List α)
  | [] => if v = [] then some ([], []) else none
  | c :: t =>
    if v <+: c :: t then some ([], (c :: t).drop v.length)
    else (splitFirst v t).map fun parts => (c :: parts.1, parts.2)

def Free (v : List α) : List α → List α → Prop
  | [], _ => True
  | c :: p, t => ¬ v <+: c :: (p ++ t) ∧ Free v p t

omit [DecidableEq α] in
theorem free_append : Free v (p ++ p') t ↔ Free v p (p' ++ t) ∧ Free v p' t := by
  induction p with
  | nil => exact ⟨fun h => ⟨trivial, h⟩, fun h => h.2⟩
  | cons c p ih => rw [List.cons_append, Free, Free, ih, List.append_assoc, and_assoc]

theorem splitFirst_of_free (h : Free v p (v ++ q)) :
    splitFirst v (p ++ (v ++ q)) = some (p, q) := by
  induction p with
  | nil =>
    rw [List.nil_append]
    cases v with
    | nil => cases q <;> simp [splitFirst]
    | cons c v =>
      rw [List.cons_append, splitFirst, if_pos ⟨q, rfl⟩, ← List.cons_append,
        List.drop_left]
  | cons c p ih => rw [List.cons_append, splitFirst, if_neg h.1, ih h.2, Option.map_some]

theorem splitFirst_spec (h : splitFirst v t = some (p, q)) : t = p ++ (v ++ q) := by
  induction t generalizing p with
  | nil =>
    by_cases hv : v = []
    · rw [splitFirst, if_pos hv] at h
      cases h
      rw [hv]
      rfl
    · rw [splitFirst, if_neg hv] at h
      cases h
  | cons c t ih =>
    by_cases hprefix : v <+: c :: t
    · rw [splitFirst, if_pos hprefix] at h
      cases h
      rw [List.nil_append, List.prefix_iff_eq_append.mp hprefix]
    · rw [splitFirst, if_neg hprefix, Option.map_eq_some_iff] at h
      rcases h with ⟨⟨p', q'⟩, hparts, heq⟩
      cases heq
      rw [List.cons_append, ← ih hparts]

theorem splitFirst_isSome (h : v <:+: t) : (splitFirst v t).isSome := by
  induction t with
  | nil =>
    rw [splitFirst, if_pos (List.eq_nil_of_infix_nil h)]
    rfl
  | cons c t ih =>
    by_cases hprefix : v <+: c :: t
    · rw [splitFirst, if_pos hprefix]
      rfl
    · rw [splitFirst, if_neg hprefix, Option.isSome_map]
      exact ih ((List.infix_cons_iff.mp h).resolve_left hprefix)

theorem splitFirst_eq_none (h : Free v p []) (hv : v ≠ []) : splitFirst v p = none := by
  induction p with
  | nil => rw [splitFirst, if_neg hv]
  | cons c p ih =>
    have hnot := h.1
    rw [List.append_nil] at hnot
    rw [splitFirst, if_neg hnot, ih h.2, Option.map_none]

omit [DecidableEq α] in
/-- A word that is not in a part of the text begins there only if it goes on behind that part. -/
theorem free_of_not_within (h : ¬ v <:+: p) (hbehind : ∀ c ∈ t.head?, c ∉ v.tail) : Free v p t := by
  induction p with
  | nil => trivial
  | cons c p ih =>
    rw [List.infix_cons_iff, not_or] at h
    refine ⟨fun hprefix => ?_, ih h.2⟩
    rcases List.prefix_or_prefix_of_prefix hprefix (List.prefix_append (c :: p) t) with hin | hover
    · exact h.1 hin
    · rcases hover with ⟨r, rfl⟩
      cases r with
      | nil => exact h.1 (by rw [List.append_nil])
      | cons d r =>
        rw [← List.cons_append, List.prefix_append_right_inj] at hprefix
        rcases hprefix with ⟨t', rfl⟩
        apply hbehind d rfl
        rw [List.cons_append, List.tail_cons]
        exact List.mem_append_right p List.mem_cons_self

/-! ## Words with a mark at their front -/

omit [DecidableEq α] in
theorem behind_of_not_mem {c : α} {u w : List α} (hu : c ∉ u) (h : u ++ q = t ++ c :: w) :
    ∃ m, t = u ++ m ∧ q = m ++ c :: w := by
  induction u generalizing t with
  | nil => exact ⟨t, rfl, h⟩
  | cons d u ih =>
    rw [List.mem_cons, not_or] at hu
    cases t with
    | nil => exact absurd (List.cons.inj h).1.symm hu.1
    | cons e t =>
      rcases List.cons.inj h with ⟨rfl, htail⟩
      rcases ih hu.2 htail with ⟨m, rfl, hm⟩
      exact ⟨m, rfl, hm⟩

omit [DecidableEq α] in
/-- Two occurrences of words whose mark is nowhere else in them begin together or lie apart. -/
theorem apart {c : α} {u w : List α} (hu : c ∉ u) (hw : c ∉ w)
    (h : p ++ (c :: u ++ q) = p' ++ (c :: w ++ t)) :
    (∃ m, p' = p ++ (c :: u ++ m) ∧ q = m ++ (c :: w ++ t)) ∨
      (∃ m, p = p' ++ (c :: w ++ m) ∧ t = m ++ (c :: u ++ q)) ∨ p = p' ∧ u ++ q = w ++ t := by
  induction p generalizing p' with
  | nil =>
    cases p' with
    | nil => exact Or.inr (Or.inr ⟨rfl, (List.cons.inj h).2⟩)
    | cons d p' =>
      left
      rcases List.cons.inj h with ⟨rfl, htail⟩
      rcases behind_of_not_mem hu htail with ⟨m, rfl, hm⟩
      exact ⟨m, rfl, hm⟩
  | cons d p ih =>
    cases p' with
    | nil =>
      right
      left
      rcases List.cons.inj h with ⟨rfl, htail⟩
      rcases behind_of_not_mem hw htail.symm with ⟨m, rfl, hm⟩
      exact ⟨m, rfl, hm⟩
    | cons e p' =>
      rcases List.cons.inj h with ⟨rfl, htail⟩
      rcases ih htail with ⟨m, rfl, hm⟩ | ⟨m, rfl, hm⟩ | ⟨rfl, hm⟩
      · exact Or.inl ⟨m, rfl, hm⟩
      · exact Or.inr (Or.inl ⟨m, rfl, hm⟩)
      · exact Or.inr (Or.inr ⟨rfl, hm⟩)

end Extempore.FirstMatches
