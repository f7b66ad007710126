import Mathlib.Data.Int.Notation
import Mathlib.Data.List.Basic
import Extempore.ContainerLaws

/-!
# The containers of the prelude

`List` and `Option` of `libs/base/prelude.xtm` with `unit`, `flatmap`, `join`, `fmap` and `apply`.
They are data types without assignment, so a value is a list or an option of Lean, and the functions
that are passed compute without side effects. On lists `apply` goes through the functions and the
elements side by side and ends with the shorter list, where the law of an applicative functor
applies every function to every element.
-/

namespace Extempore.PreludeContainers

open ContainerLaws

universe u v

/-! ## Lists -/

namespace Lists

variable {α : Type u} {β : Type u} {γ : Type u}

def append : List α → List α → List α
  | x :: xs, bs => x :: append xs bs
  | [], bs => bs

def join : List (List α) → List α
  | xs :: xss => append xs (join xss)
  | [] => []

def fmap (f : α → β) : List α → List β
  | x :: xs => f x :: fmap f xs
  | [] => []

def flatmap : List α → (α → List β) → List β
  | x :: xs, f => append (f x) (flatmap xs f)
  | [], _ => []

def unit (x : α) : List α := [x]

def apply : List (α → β) → List α → List β
  | f :: fs, x :: xs => f x :: apply fs xs
  | _ :: _, [] => []
  | [], _ => []

@[simp] theorem append_eq (as bs : List α) : append as bs = as ++ bs := by
  induction as with
  | nil => rfl
  | cons x xs ih => rw [append, ih, List.cons_append]

@[simp] theorem fmap_eq (f : α → β) (F : List α) : fmap f F = F.map f := by
  induction F with
  | nil => rfl
  | cons x xs ih => rw [fmap, ih, List.map_cons]

@[simp] theorem flatmap_eq (M : List α) (f : α → List β) : flatmap M f = M.flatMap f := by
  induction M with
  | nil => rfl
  | cons x xs ih => rw [flatmap, append_eq, ih, List.flatMap_cons]

@[simp] theorem join_eq (M : List (List α)) : join M = M.flatten := by
  induction M with
  | nil => rfl
  | cons xs xss ih => rw [join, append_eq, ih, List.flatten_cons]

@[simp] theorem apply_eq (F₁ : List (α → β)) (F₂ : List α) :
    apply F₁ F₂ = List.zipWith (fun f x => f x) F₁ F₂ := by
  induction F₁ generalizing F₂ with
  | nil => rfl
  | cons f fs ih =>
    cases F₂ with
    | nil => rfl
    | cons x xs => rw [apply, ih, List.zipWith_cons_cons]

end Lists

def lists : Container List where
  unit := Lists.unit
  flatmap := Lists.flatmap
  join := Lists.join
  fmap := Lists.fmap
  apply := Lists.apply

theorem lists_fromFlatmap : FromFlatmap lists where
  unit_flatmap := by
    intro α β x f
    exact (Lists.flatmap_eq [x] f).trans (List.flatMap_singleton f x)
  flatmap_unit := by
    intro α m
    exact (Lists.flatmap_eq m Lists.unit).trans (List.flatMap_singleton' m)
  flatmap_flatmap := by
    intro α β γ m f g
    simp only [lists, Lists.flatmap_eq]
    exact List.flatMap_assoc
  fmap_eq := by
    intro α β f m
    simp only [lists, Lists.fmap_eq, Lists.flatmap_eq]
    exact List.map_eq_flatMap
  join_eq := by
    intro α M
    simp only [lists, Lists.join_eq, Lists.flatmap_eq]
    exact List.flatMap_id.symm

/-! ## Options -/

namespace Options

variable {α : Type u} {β : Type v}

def fmap (f : α → β) : Option α → Option β
  | some x => some (f x)
  | none => none

def join : Option (Option α) → Option α
  | some x => x
  | none => none

def flatmap : Option α → (α → Option β) → Option β
  | some x, f => f x
  | none, _ => none

def unit (x : α) : Option α := some x

def apply : Option (α → β) → Option α → Option β
  | some f, some x => some (f x)
  | some _, none => none
  | none, _ => none

end Options

def options : Container Option where
  unit := Options.unit
  flatmap := Options.flatmap
  join := Options.join
  fmap := Options.fmap
  apply := Options.apply

theorem options_fromFlatmap : FromFlatmap options where
  unit_flatmap := by
    intro α β x f
    rfl
  flatmap_unit := by
    intro α m
    cases m <;> rfl
  flatmap_flatmap := by
    intro α β γ m f g
    cases m <;> rfl
  fmap_eq := by
    intro α β f m
    cases m <;> rfl
  join_eq := by
    intro α M
    cases M <;> rfl

theorem options_apply_eq {α β : Type u} (F : Option (α → β)) (m : Option α) :
    options.apply F m = options.flatmap F fun f => options.fmap f m := by
  cases F with
  | none => rfl
  | some f => cases m <;> rfl

/-! ## What the names promise -/

variable {α : Type u} {β : Type u}

/-- The laws of both containers, those of `apply` on lists at two arguments. -/
structure Lawful (F : List (α → β)) (m : List α) : Prop where
  listLaws : MonadLaws lists.{u}
  listApply : ApplyLaw lists F m
  optionLaws : MonadLaws options.{u}
  optionApply : ∀ {γ δ : Type u} (G : Option (γ → δ)) (n : Option γ), ApplyLaw options G n

theorem min_eq_mul_iff (a b : ℕ) : min a b = a * b ↔ a = 0 ∨ b = 0 ∨ a = 1 ∧ b = 1 := by
  constructor
  · intro h
    by_contra hnot
    have ha : 1 ≤ a := by omega
    have hb : 1 ≤ b := by omega
    have hleft := Nat.le_mul_of_pos_right a hb
    have hright := Nat.le_mul_of_pos_left b ha
    have hmul : a * b = a ∧ a * b = b := by omega
    have hone : b = 1 := Nat.eq_of_mul_eq_mul_left ha (by rw [hmul.1, Nat.mul_one])
    omega
  · rintro (rfl | rfl | ⟨rfl, rfl⟩)
    · rw [Nat.zero_mul, Nat.zero_min]
    · rw [Nat.mul_zero, Nat.min_zero]
    · rfl

/-- Side by side there are as many results as the shorter list has elements, and by the law one for
each function and element. -/
theorem length_apply_eq_iff (F : List (α → β)) (m : List α) :
    (lists.apply F m).length = (lists.flatmap F fun f => lists.fmap f m).length ↔
      F = [] ∨ m = [] ∨ F.length = 1 ∧ m.length = 1 := by
  simp only [lists, Lists.apply_eq, Lists.flatmap_eq, Lists.fmap_eq, List.length_zipWith,
    List.length_flatMap, List.length_map, List.map_const', List.sum_replicate_nat,
    ← List.length_eq_zero_iff]
  exact min_eq_mul_iff F.length m.length

theorem apply_eq_of {F : List (α → β)} {m : List α}
    (h : F = [] ∨ m = [] ∨ F.length = 1 ∧ m.length = 1) :
    lists.apply F m = lists.flatmap F fun f => lists.fmap f m := by
  simp only [lists, Lists.apply_eq, Lists.flatmap_eq, Lists.fmap_eq]
  rcases h with rfl | rfl | ⟨hF, hm⟩
  · rfl
  · simp
  · rw [List.length_eq_one_iff] at hF hm
    rcases hF with ⟨f, rfl⟩
    rcases hm with ⟨x, rfl⟩
    rfl

/-- All laws of both containers hold, but for `apply` on lists: its law holds just where one of the
lists is empty, or both have one element. -/
theorem lawful_iff (F : List (α → β)) (m : List α) :
    Lawful F m ↔ F = [] ∨ m = [] ∨ F.length = 1 ∧ m.length = 1 := by
  rw [← length_apply_eq_iff]
  constructor
  · intro h
    exact congrArg List.length h.listApply.apply_eq
  · intro h
    rw [length_apply_eq_iff] at h
    constructor
    · exact lists_fromFlatmap.monadLaws
    · exact lists_fromFlatmap.applyLaw (apply_eq_of h)
    · exact options_fromFlatmap.monadLaws
    · intro γ δ G n
      exact options_fromFlatmap.applyLaw (options_apply_eq G n)

/-- One function is applied to the first element only. -/
theorem apply_unit_eq_fmap_iff (f : α → β) (m : List α) :
    lists.apply (lists.unit f) m = lists.fmap f m ↔ m.length ≤ 1 := by
  cases m with
  | nil => simp [lists, Lists.unit]
  | cons x xs => simp [lists, Lists.unit]

/-- One function and two elements. -/
theorem not_lawful_two : ¬ Lawful [fun x : ℤ => x + 1] [1, 2] := by
  intro h
  have hlength := congrArg List.length (h.listApply.apply_unit _ rfl)
  revert hlength
  decide

end Extempore.PreludeContainers
