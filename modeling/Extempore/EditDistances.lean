import Mathlib.Data.List.Basic
import Mathlib.Tactic.Linarith

/-!
# Edit distance

The least number of insertions, deletions and substitutions that turn one list into another. A
sequence of edits can be put in the order of the letters, as an alignment of the two lists, and
the recursion on the first letters finds the least alignment.
-/

namespace Extempore.EditDistances

variable {α : Type}

/-- One insertion, deletion or substitution, at the front or behind a common letter. -/
inductive Edit : List α → List α → Prop
  | insert (y : α) (xs : List α) : Edit xs (y :: xs)
  | delete (x : α) (xs : List α) : Edit (x :: xs) xs
  | substitute (x y : α) (xs : List α) : Edit (x :: xs) (y :: xs)
  | behind (x : α) {xs ys : List α} (h : Edit xs ys) : Edit (x :: xs) (x :: ys)

/-- So many edits, one after the other. -/
inductive Edits : ℕ → List α → List α → Prop
  | refl (xs : List α) : Edits 0 xs xs
  | step {n : ℕ} {xs ys zs : List α} (h : Edit xs ys) (rest : Edits n ys zs) :
      Edits (n + 1) xs zs

/-- `n` is the least number of edits. -/
structure IsDistance (xs ys : List α) (n : ℕ) : Prop where
  edits : Edits n xs ys
  least : ∀ m, Edits m xs ys → n ≤ m

/-- The letters of both lists in order, with the number of those that differ. -/
inductive Aligned : List α → List α → ℕ → Prop
  | nil : Aligned [] [] 0
  | keep (x : α) {xs ys : List α} {n : ℕ} (h : Aligned xs ys n) : Aligned (x :: xs) (x :: ys) n
  | change (x y : α) {xs ys : List α} {n : ℕ} (h : Aligned xs ys n) :
      Aligned (x :: xs) (y :: ys) (n + 1)
  | insert (y : α) {xs ys : List α} {n : ℕ} (h : Aligned xs ys n) : Aligned xs (y :: ys) (n + 1)
  | delete (x : α) {xs ys : List α} {n : ℕ} (h : Aligned xs ys n) : Aligned (x :: xs) ys (n + 1)

section Edits

theorem Edits.behind (x : α) {n : ℕ} {xs ys : List α} (h : Edits n xs ys) :
    Edits n (x :: xs) (x :: ys) := by
  induction h with
  | refl xs => exact .refl _
  | step h rest ih => exact .step (.behind x h) ih

theorem Aligned.edits {xs ys : List α} {n : ℕ} (h : Aligned xs ys n) : Edits n xs ys := by
  induction h with
  | nil => exact .refl _
  | keep x h ih => exact ih.behind x
  | change x y h ih => exact .step (.substitute x y _) (ih.behind y)
  | insert y h ih => exact .step (.insert y _) (ih.behind y)
  | delete x h ih => exact .step (.delete x _) ih

theorem Aligned.refl (xs : List α) : Aligned xs xs 0 := by
  induction xs with
  | nil => exact .nil
  | cons x xs ih => exact .keep x ih

/-- An edit before an alignment makes the alignment longer by one at most. -/
theorem Edit.aligned {xs ys zs : List α} {n : ℕ} (h : Aligned ys zs n) (he : Edit xs ys) :
    ∃ m, m ≤ n + 1 ∧ Aligned xs zs m := by
  induction h generalizing xs with
  | nil =>
    cases he with
    | delete x => exact ⟨1, le_rfl, .delete x .nil⟩
  | @keep y ys zs n h ih =>
    cases he with
    | insert => exact ⟨n + 1, le_rfl, .insert y h⟩
    | delete x => exact ⟨n + 1, le_rfl, .delete x (.keep y h)⟩
    | substitute x => exact ⟨n + 1, le_rfl, .change x y h⟩
    | behind _ he =>
      obtain ⟨m, hm, ha⟩ := ih he
      exact ⟨m, hm, .keep y ha⟩
  | @change y z ys zs n h ih =>
    cases he with
    | insert => exact ⟨n + 1, by omega, .insert z h⟩
    | delete x => exact ⟨n + 2, le_rfl, .delete x (.change y z h)⟩
    | substitute x => exact ⟨n + 1, by omega, .change x z h⟩
    | behind _ he =>
      obtain ⟨m, hm, ha⟩ := ih he
      exact ⟨m + 1, by omega, .change y z ha⟩
  | insert z h ih =>
    obtain ⟨m, hm, ha⟩ := ih he
    exact ⟨m + 1, by omega, .insert z ha⟩
  | @delete y ys zs n h ih =>
    cases he with
    | insert => exact ⟨n, by omega, h⟩
    | delete x => exact ⟨n + 2, le_rfl, .delete x (.delete y h)⟩
    | substitute x => exact ⟨n + 1, by omega, .delete x h⟩
    | behind _ he =>
      obtain ⟨m, hm, ha⟩ := ih he
      exact ⟨m + 1, by omega, .delete y ha⟩

theorem Edits.aligned {n : ℕ} {xs ys : List α} (h : Edits n xs ys) :
    ∃ m, m ≤ n ∧ Aligned xs ys m := by
  induction h with
  | refl xs => exact ⟨0, le_rfl, .refl xs⟩
  | step he rest ih =>
    obtain ⟨m, hm, ha⟩ := ih
    obtain ⟨k, hk, ha⟩ := Edit.aligned ha he
    exact ⟨k, by omega, ha⟩

end Edits

section Alignments

theorem aligned_nil_left (ys : List α) : Aligned [] ys ys.length := by
  induction ys with
  | nil => exact .nil
  | cons y ys ih => exact .insert y ih

theorem Aligned.symm {xs ys : List α} {n : ℕ} (h : Aligned xs ys n) : Aligned ys xs n := by
  induction h with
  | nil => exact .nil
  | keep x h ih => exact .keep x ih
  | change x y h ih => exact .change y x ih
  | insert y h ih => exact .delete y ih
  | delete x h ih => exact .insert x ih

theorem Aligned.append {xs ys xs' ys' : List α} {m n : ℕ} (h : Aligned xs ys m)
    (h' : Aligned xs' ys' n) : Aligned (xs ++ xs') (ys ++ ys') (n + m) := by
  induction h with
  | nil => exact h'
  | keep x h ih => exact .keep x ih
  | change x y h ih => exact .change x y ih
  | insert y h ih => exact .insert y ih
  | delete x h ih => exact .delete x ih

theorem Aligned.reverse {xs ys : List α} {n : ℕ} (h : Aligned xs ys n) :
    Aligned xs.reverse ys.reverse n := by
  induction h with
  | nil => exact .nil
  | keep x h ih =>
    rw [List.reverse_cons, List.reverse_cons]
    have := ih.append (.keep x .nil)
    rwa [Nat.zero_add] at this
  | @change x y xs ys n h ih =>
    rw [List.reverse_cons, List.reverse_cons, Nat.add_comm]
    exact ih.append (.change x y .nil)
  | @insert y xs ys n h ih =>
    rw [List.reverse_cons, ← List.append_nil xs.reverse, Nat.add_comm]
    exact ih.append (.insert y .nil)
  | @delete x xs ys n h ih =>
    rw [List.reverse_cons, ← List.append_nil ys.reverse, Nat.add_comm]
    exact ih.append (.delete x .nil)

end Alignments

section Distance

variable [DecidableEq α]

def distance : List α → List α → ℕ
  | [], ys => ys.length
  | xs, [] => xs.length
  | x :: xs, y :: ys =>
    min (min (distance xs (y :: ys) + 1) (distance (x :: xs) ys + 1))
      (distance xs ys + if x = y then 0 else 1)

theorem distance_nil_left (ys : List α) : distance [] ys = ys.length := by
  rw [distance]

theorem distance_nil_right (xs : List α) : distance xs [] = xs.length := by
  cases xs with
  | nil => rw [distance]
  | cons x xs =>
    rw [distance]
    exact List.cons_ne_nil x xs

/-- The recursion finds an alignment. -/
theorem aligned_distance (xs ys : List α) : Aligned xs ys (distance xs ys) := by
  fun_induction distance xs ys with
  | case1 ys => exact aligned_nil_left ys
  | case2 xs => exact (aligned_nil_left xs).symm
  | case3 x xs y ys hdelete hinsert hkeep =>
    rcases min_choice (min (distance xs (y :: ys) + 1) (distance (x :: xs) ys + 1))
      (distance xs ys + if x = y then 0 else 1) with h | h
    · rw [h]
      rcases min_choice (distance xs (y :: ys) + 1) (distance (x :: xs) ys + 1) with h | h
      · rw [h]
        exact .delete x hdelete
      · rw [h]
        exact .insert y hinsert
    · rw [h]
      by_cases he : x = y
      · subst he
        rw [if_pos rfl]
        exact .keep x hkeep
      · rw [if_neg he]
        exact .change x y hkeep

theorem distance_cons_right_le (y : α) (xs ys : List α) :
    distance xs (y :: ys) ≤ distance xs ys + 1 := by
  cases xs with
  | nil => rw [distance_nil_left, distance_nil_left, List.length_cons]
  | cons x xs =>
    rw [distance]
    exact (min_le_left _ _).trans (min_le_right _ _)

theorem distance_cons_left_le (x : α) (xs ys : List α) :
    distance (x :: xs) ys ≤ distance xs ys + 1 := by
  cases ys with
  | nil => rw [distance_nil_right, distance_nil_right, List.length_cons]
  | cons y ys =>
    rw [distance]
    exact (min_le_left _ _).trans (min_le_left _ _)

/-- No alignment is shorter. -/
theorem distance_le {xs ys : List α} {n : ℕ} (h : Aligned xs ys n) : distance xs ys ≤ n := by
  induction h with
  | nil => rw [distance_nil_left, List.length_nil]
  | @keep x xs ys n h ih =>
    rw [distance, if_pos rfl]
    exact (min_le_right _ _).trans ih
  | @change x y xs ys n h ih =>
    rw [distance]
    apply (min_le_right _ _).trans
    split
    · omega
    · omega
  | @insert y xs ys n h ih => exact (distance_cons_right_le y xs ys).trans (by omega)
  | @delete x xs ys n h ih => exact (distance_cons_left_le x xs ys).trans (by omega)

theorem isDistance (xs ys : List α) : IsDistance xs ys (distance xs ys) := by
  refine ⟨(aligned_distance xs ys).edits, fun m hm => ?_⟩
  obtain ⟨k, hk, ha⟩ := hm.aligned
  exact (distance_le ha).trans hk

theorem distance_symm (xs ys : List α) : distance xs ys = distance ys xs :=
  le_antisymm (distance_le (aligned_distance ys xs).symm) (distance_le (aligned_distance xs ys).symm)

theorem distance_reverse (xs ys : List α) :
    distance xs.reverse ys.reverse = distance xs ys := by
  apply le_antisymm (distance_le (aligned_distance xs ys).reverse)
  have h := (aligned_distance xs.reverse ys.reverse).reverse
  rw [List.reverse_reverse, List.reverse_reverse] at h
  exact distance_le h

theorem distance_eq_zero (xs ys : List α) : distance xs ys = 0 ↔ xs = ys := by
  constructor
  · intro h
    have hedits := (isDistance xs ys).edits
    rw [h] at hedits
    cases hedits
    rfl
  · intro h
    subst h
    exact Nat.le_zero.mp (distance_le (.refl xs))

end Distance

end Extempore.EditDistances
