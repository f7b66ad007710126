import Mathlib.Data.Rat.Floor
import Mathlib.Tactic.Ring
import Mathlib.Tactic.Linarith

/-!
# Words of marks and gaps

A cyclic word of marks and blanks that begins with a mark is given by the lengths of its gaps. From
each mark to the next one it is one place more than its gap is long; when the gaps differ by one at
most, these distances are the mean distance, rounded down or up.
-/

namespace Extempore.GapWords

universe u

variable {α : Type u} {mark blank : α} {gaps : List ℕ} {i d g q : ℕ}

/-- Every gap behind a mark. -/
def word (mark blank : α) : List ℕ → List α
  | [] => []
  | g :: gaps => mark :: (List.replicate g blank ++ word mark blank gaps)

theorem word_append (gaps gaps' : List ℕ) :
    word mark blank (gaps ++ gaps') = word mark blank gaps ++ word mark blank gaps' := by
  induction gaps with
  | nil => rfl
  | cons g gaps ih => rw [List.cons_append, word, ih, word, List.cons_append, List.append_assoc]

theorem length_word : (word mark blank gaps).length = gaps.sum + gaps.length := by
  induction gaps with
  | nil => rfl
  | cons g gaps ih =>
    rw [word, List.length_cons, List.length_append, List.length_replicate, ih, List.sum_cons,
      List.length_cons]
    omega

theorem count_word [DecidableEq α] (hne : mark ≠ blank) :
    (word mark blank gaps).count mark = gaps.length := by
  induction gaps with
  | nil => rfl
  | cons g gaps ih =>
    rw [word, List.count_cons_self, List.count_append, List.count_replicate, ih,
      if_neg (by simpa using hne.symm), Nat.zero_add, List.length_cons]

/-- The next mark behind the place `i` is `d` places away, in a cyclic word. -/
structure NextMark (mark : α) (l : List α) (i d : ℕ) : Prop where
  pos : 0 < d
  next : l[(i + d) % l.length]? = some mark
  between : ∀ e, 0 < e → e < d → l[(i + e) % l.length]? ≠ some mark

/-- A mark in a word is the mark of one of its gaps. -/
theorem exists_split (hne : mark ≠ blank) (h : (word mark blank gaps)[i]? = some mark) :
    ∃ before g behind, gaps = before ++ g :: behind ∧ i = (word mark blank before).length := by
  induction gaps generalizing i with
  | nil => cases h
  | cons g gaps ih =>
    cases i with
    | zero => exact ⟨[], g, gaps, rfl, rfl⟩
    | succ i =>
      rw [word, List.getElem?_cons_succ] at h
      by_cases hi : i < g
      · rw [List.getElem?_append_left (by rwa [List.length_replicate]), List.getElem?_replicate,
          if_pos hi] at h
        exact absurd (Option.some.inj h).symm hne
      · rw [List.getElem?_append_right (by rw [List.length_replicate]; omega),
          List.length_replicate] at h
        rcases ih h with ⟨before, g', behind, rfl, hlength⟩
        refine ⟨g :: before, g', behind, rfl, ?_⟩
        rw [word, List.length_cons, List.length_append, List.length_replicate, ← hlength]
        omega

theorem getElem?_zero_word (hne : gaps ≠ []) : (word mark blank gaps)[0]? = some mark := by
  cases gaps with
  | nil => exact absurd rfl hne
  | cons g gaps => rfl

theorem nextMark_word (hne : mark ≠ blank) (before behind : List ℕ) (g : ℕ) :
    NextMark mark (word mark blank (before ++ g :: behind)) (word mark blank before).length
      (g + 1) := by
  have hlength : (word mark blank (before ++ g :: behind)).length =
      (word mark blank before).length + (g + 1 + (word mark blank behind).length) := by
    rw [word_append, List.length_append, word, List.length_cons, List.length_append,
      List.length_replicate]
    omega
  have hget (e : ℕ) : (word mark blank (before ++ g :: behind))[
      (word mark blank before).length + (e + 1)]? =
        (List.replicate g blank ++ word mark blank behind)[e]? := by
    rw [word_append, List.getElem?_append_right (by omega), Nat.add_sub_cancel_left, word,
      List.getElem?_cons_succ]
  refine ⟨Nat.succ_pos g, ?_, fun e he hlt => ?_⟩
  · cases behind with
    | nil =>
      rw [hlength, word, List.length_nil, Nat.add_zero, Nat.mod_self]
      exact getElem?_zero_word (by simp)
    | cons g' behind =>
      rw [Nat.mod_eq_of_lt (by rw [hlength, word, List.length_cons]; omega), hget,
        List.getElem?_append_right (by rw [List.length_replicate]), List.length_replicate,
        Nat.sub_self]
      rfl
  · cases e with
    | zero => cases he
    | succ e =>
      rw [Nat.mod_eq_of_lt (by omega), hget,
        List.getElem?_append_left (by rw [List.length_replicate]; omega), List.getElem?_replicate,
        if_pos (by omega)]
      exact fun h => hne (Option.some.inj h).symm

/-! ## Even gaps -/

theorem sum_bounds (h : ∀ g ∈ gaps, q ≤ g ∧ g ≤ q + 1) :
    gaps.length * q ≤ gaps.sum ∧ gaps.sum ≤ gaps.length * (q + 1) := by
  induction gaps with
  | nil => exact ⟨by simp, by simp⟩
  | cons g gaps ih =>
    have hg := h g List.mem_cons_self
    have hrest := ih fun g' hg' => h g' (List.mem_cons_of_mem g hg')
    rw [List.sum_cons, List.length_cons, Nat.add_mul, Nat.add_mul, Nat.one_mul, Nat.one_mul]
    omega

/-- The distances between marks are the mean distance, rounded down or up. -/
theorem floor_or_ceil (h : ∀ g ∈ gaps, q ≤ g ∧ g ≤ q + 1) (hg : g ∈ gaps) :
    ((g + 1 : ℕ) : ℤ) = ⌊((gaps.sum + gaps.length : ℕ) : ℚ) / gaps.length⌋ ∨
      ((g + 1 : ℕ) : ℤ) = ⌈((gaps.sum + gaps.length : ℕ) : ℚ) / gaps.length⌉ := by
  rcases List.append_of_mem hg with ⟨before, behind, rfl⟩
  have hbefore := sum_bounds fun g' hg' => h g' (List.mem_append_left _ hg')
  have hbehind := sum_bounds fun g' hg' =>
    h g' (List.mem_append_right _ (List.mem_cons_of_mem g hg'))
  have hpos : (0 : ℚ) < ((before ++ g :: behind).length : ℕ) :=
    Nat.cast_pos.mpr (List.length_pos_of_mem hg)
  have hlower : (before.length + behind.length) * q + g ≤ (before ++ g :: behind).sum := by
    rw [List.sum_append, List.sum_cons, Nat.add_mul]
    omega
  have hupper : (before ++ g :: behind).sum ≤
      (before.length + behind.length) * (q + 1) + g := by
    rw [List.sum_append, List.sum_cons, Nat.add_mul]
    omega
  have hlength : (before ++ g :: behind).length = before.length + behind.length + 1 := by
    rw [List.length_append, List.length_cons]
    omega
  rw [hlength] at hpos ⊢
  generalize (before ++ g :: behind).sum = s at hlower hupper ⊢
  generalize before.length + behind.length = k at hlower hupper hpos ⊢
  rcases Nat.eq_or_lt_of_le (h g hg).1 with hmin | hmax
  · left
    symm
    rw [Int.floor_eq_iff, le_div_iff₀ hpos, div_lt_iff₀ hpos]
    subst hmin
    constructor
    · exact_mod_cast (by nlinarith : (q + 1) * (k + 1) ≤ s + (k + 1))
    · exact_mod_cast (by nlinarith : s + (k + 1) < (q + 1 + 1) * (k + 1))
  · right
    symm
    have hg' : g = q + 1 := by
      have hle := (h g hg).2
      omega
    rw [Int.ceil_eq_iff, lt_div_iff₀ hpos, div_le_iff₀ hpos]
    subst hg'
    constructor
    · rw [Nat.cast_add, Nat.cast_one, Int.cast_add, Int.cast_one, add_sub_cancel_right]
      exact_mod_cast (by nlinarith : (q + 1) * (k + 1) < s + (k + 1))
    · exact_mod_cast (by nlinarith : s + (k + 1) ≤ (q + 1 + 1) * (k + 1))

end Extempore.GapWords
