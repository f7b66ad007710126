import Mathlib

/-!
# Sorting lists

`cl:sort` copies a list and sorts the copy by merging halves. The copy's cells are relinked in
place; here a step returns the sorted part beside the cells that it has not reached.
-/

namespace Extempore.ListSorting

variable {α : Type}

/-- `cl:merge!`. -/
def clMerge (less : α → α → Bool) : List α → List α → List α
  | [], b => b
  | a, [] => a
  | x :: a, y :: b => if less y x then y :: clMerge less (x :: a) b else x :: clMerge less a (y :: b)

/-- `step` of `cl:sort!`, which sorts the first `n` elements of `seq`. -/
def sortStep (less : α → α → Bool) (n : ℕ) (seq : List α) : List α × List α :=
  if n > 2 then
    let (a, seq) := sortStep less (n / 2) seq
    let (b, seq) := sortStep less (n - n / 2) seq
    (clMerge less a b, seq)
  else if n = 2 then
    match seq with
    | x :: y :: seq => (if less y x then [y, x] else [x, y], seq)
    | seq => (seq, [])
  else if n = 1 then
    match seq with
    | x :: seq => ([x], seq)
    | [] => ([], [])
  else ([], seq)
termination_by n

def clSort (seq : List α) (less : α → α → Bool) : List α :=
  (sortStep less seq.length seq).1

/-- The order that the sorted list is in. -/
def notLess (less : α → α → Bool) (x y : α) : Bool :=
  !less y x

/-- What a comparison has to satisfy, elements that tie included. -/
structure WeakOrder (less : α → α → Bool) : Prop where
  trans : ∀ x y z, notLess less x y = true → notLess less y z = true → notLess less x z = true
  total : ∀ x y, (notLess less x y || notLess less y x) = true

theorem clMerge_eq (less : α → α → Bool) (a b : List α) :
    clMerge less a b = List.merge a b (notLess less) := by
  fun_induction clMerge less a b with
  | case1 b => rw [List.nil_merge]
  | case2 a => rw [List.merge_right]
  | case3 x a y b h ih => rw [List.cons_merge_cons, notLess, h, ih]; rfl
  | case4 x a y b h ih => rw [List.cons_merge_cons, notLess, Bool.eq_false_iff.mpr h, ih]; rfl

/-- What a step leaves: the first `n` elements in order, and the others. -/
structure StepSorted (less : α → α → Bool) (n : ℕ) (seq : List α) (r : List α × List α) : Prop where
  perm : r.1.Perm (seq.take n)
  rest : r.2 = seq.drop n
  ordered : r.1.Pairwise fun x y => notLess less x y = true

theorem StepSorted.merge {less : α → α → Bool} (hless : WeakOrder less) {m n : ℕ}
    {seq seq₁ seq₂ a b : List α} (ha : StepSorted less m seq (a, seq₁))
    (hb : StepSorted less n seq₁ (b, seq₂)) :
    StepSorted less (m + n) seq (clMerge less a b, seq₂) := by
  have hrest : seq₁ = seq.drop m := ha.rest
  have hpermb := hb.perm
  rw [hrest] at hpermb
  rw [clMerge_eq]
  constructor
  · rw [List.take_add]
    exact (List.merge_perm_append _).trans (ha.perm.append hpermb)
  · have := hb.rest
    rw [hrest, List.drop_drop] at this
    exact this
  · exact List.pairwise_merge hless.trans hless.total a b ha.ordered hb.ordered

theorem StepSorted.pair {less : α → α → Bool} (hless : WeakOrder less) (x y : α)
    (seq : List α) :
    StepSorted less 2 (x :: y :: seq) (if less y x then [y, x] else [x, y], seq) := by
  by_cases h : less y x = true
  · have hle : notLess less y x = true := by
      have := hless.total x y
      rw [notLess, h] at this
      exact this
    rw [if_pos h]
    exact ⟨List.Perm.swap x y [], rfl, by simpa using hle⟩
  · rw [if_neg h]
    exact ⟨List.Perm.refl _, rfl, by simpa [notLess] using h⟩

theorem sortStep_sorted {less : α → α → Bool} (hless : WeakOrder less) (n : ℕ) (seq : List α)
    (hn : n ≤ seq.length) : StepSorted less n seq (sortStep less n seq) := by
  fun_induction sortStep less n seq with
  | case1 n seq h a seq₁ ha b seq₂ hb iha ihb =>
    have hfirst := iha (by omega)
    rw [ha] at hfirst
    have hlength : n - n / 2 ≤ seq₁.length := by
      have hrest : seq₁ = seq.drop (n / 2) := hfirst.rest
      rw [hrest, List.length_drop]
      omega
    have hsecond := ihb hlength
    rw [hb] at hsecond
    rw [show n = n / 2 + (n - n / 2) by omega]
    exact hfirst.merge hless hsecond
  | case2 x y seq h => exact StepSorted.pair hless x y seq
  | case3 seq hshort =>
    match seq, hn with
    | x :: y :: seq, _ => exact absurd rfl (hshort x y seq)
  | case4 x seq h₂ h => exact ⟨List.Perm.refl _, rfl, List.pairwise_singleton _ _⟩
  | case5 h₂ h => simp at hn
  | case6 n seq h₂ h h₁ =>
    obtain rfl : n = 0 := by omega
    exact ⟨List.Perm.refl _, rfl, List.Pairwise.nil⟩

theorem clSort_perm {less : α → α → Bool} (hless : WeakOrder less) (seq : List α) :
    (clSort seq less).Perm seq := by
  have h := (sortStep_sorted hless seq.length seq (Nat.le_refl _)).perm
  rwa [List.take_length] at h

theorem clSort_ordered {less : α → α → Bool} (hless : WeakOrder less) (seq : List α) :
    (clSort seq less).Pairwise fun x y => notLess less x y = true :=
  (sortStep_sorted hless seq.length seq (Nat.le_refl _)).ordered

/-- Comparing by a key. -/
theorem weakOrder_key {κ : Type} [LinearOrder κ] (key : α → κ) :
    WeakOrder fun x y => decide (key x < key y) := by
  constructor
  · intro x y z hxy hyz
    simp only [notLess, Bool.not_eq_true', decide_eq_false_iff_not, not_lt] at *
    exact le_trans hxy hyz
  · intro x y
    simp only [notLess, Bool.or_eq_true, Bool.not_eq_true', decide_eq_false_iff_not, not_lt]
    exact le_total _ _

end Extempore.ListSorting
