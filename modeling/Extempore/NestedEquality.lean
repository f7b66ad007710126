import Mathlib.Data.Set.Basic
import Extempore.AdtLists

/-!
# Equality of nested lists

`equal` on lists asks `every` of two lists for the `equal` of the elements, and `every` ends with
the shorter list. So it says whether two lists agree as far as both go, at every depth, and it is
equality among values of which no two different ones agree in this way.
-/

namespace Extempore.NestedEquality

open AdtLists

universe u

/-- Lists of lists, `depth` deep, over a type of elements. -/
def Nested (α : Type u) : ℕ → Type u
  | 0 => α
  | depth + 1 => List (Nested α depth)

/-- The elements of a list, of the next depth. -/
def Nested.elements {α : Type u} {depth : ℕ} (x : Nested α (depth + 1)) :
    List (Nested α depth) := x

instance Nested.decidableEq {α : Type u} [DecidableEq α] :
    (depth : ℕ) → DecidableEq (Nested α depth)
  | 0 => inferInstanceAs (DecidableEq α)
  | depth + 1 =>
    haveI := Nested.decidableEq (α := α) depth
    inferInstanceAs (DecidableEq (List (Nested α depth)))

section Equal

variable {α : Type u} [DecidableEq α]

/-- `equal` at the type of the values: a comparison of the elements, or `equal` of lists. -/
def equal : (depth : ℕ) → Nested α depth → Nested α depth → Bool
  | 0, a, b => decide (a = b)
  | depth + 1, list₁, list₂ => every (equal depth) list₁ list₂

/-- The values agree wherever both have an element. -/
def Overlay : (depth : ℕ) → Nested α depth → Nested α depth → Prop
  | 0, a, b => a = b
  | depth + 1, list₁, list₂ => List.Forall₂ (Overlay depth)
      ((Nested.elements list₁).take (Nested.elements list₂).length)
      ((Nested.elements list₂).take (Nested.elements list₁).length)

theorem every_iff {β γ : Type u} {pred : β → γ → Bool} {R : β → γ → Prop}
    (h : ∀ b c, pred b c = true ↔ R b c) (l₁ : List β) (l₂ : List γ) :
    every pred l₁ l₂ = true ↔ List.Forall₂ R (l₁.take l₂.length) (l₂.take l₁.length) := by
  induction l₁ generalizing l₂ with
  | nil => simp [every]
  | cons car₁ l₁ ih =>
    cases l₂ with
    | nil => simp [every]
    | cons car₂ l₂ =>
      rw [every, List.length_cons, List.length_cons, List.take_succ_cons, List.take_succ_cons,
        List.forall₂_cons, ← h, ← ih]
      cases pred car₁ car₂ <;> simp

theorem equal_iff_overlay (depth : ℕ) (x y : Nested α depth) :
    equal depth x y = true ↔ Overlay depth x y := by
  induction depth with
  | zero => exact decide_eq_true_iff
  | succ depth ih => exact every_iff ih x y

omit [DecidableEq α] in
theorem overlay_refl (depth : ℕ) (x : Nested α depth) : Overlay depth x x := by
  induction depth with
  | zero => rfl
  | succ depth ih => exact List.forall₂_same.mpr fun y _ => ih y

/-- What `equal` on lists promises, for lists among the values `S` and lists of them. -/
structure EqualityOn (depth : ℕ) (S : Set (Nested α (depth + 1))) : Prop where
  /-- Two lists are equal exactly when they have one length and equal elements at every position. -/
  equal_iff : ∀ x ∈ S, ∀ y ∈ S, equal (depth + 1) x y = true ↔
    x.elements.length = y.elements.length ∧ ∀ i : ℕ, x.elements[i]? = y.elements[i]?
  equivalence : Equivalence fun x y : S => equal (depth + 1) x.1 y.1 = true
  member_eq : ∀ x ∈ S, ∀ l : List (Nested α (depth + 1)), (∀ y ∈ l, y ∈ S) →
    member (equal (depth + 1)) x l = l.dropWhile fun y => decide (x ≠ y)
  indexOf_eq : ∀ x ∈ S, ∀ l : List (Nested α (depth + 1)), (∀ y ∈ l, y ∈ S) →
    indexOf (equal (depth + 1)) x l = if x ∈ l then (l.idxOf x : ℤ) else -1
  unique_count : ∀ l : List (Nested α (depth + 1)), (∀ y ∈ l, y ∈ S) →
    ∀ v, (unique (equal (depth + 1)) l).count v = if v ∈ l then 1 else 0
  intersection_count : ∀ l₁ l₂ : List (Nested α (depth + 1)), (∀ y ∈ l₁, y ∈ S) →
    (∀ y ∈ l₂, y ∈ S) → ∀ v,
      (intersection (equal (depth + 1)) l₁ l₂).count v = if v ∈ l₁ ∧ v ∈ l₂ then 1 else 0

variable {depth : ℕ} {S : Set (Nested α (depth + 1))}

omit [DecidableEq α] in
theorem elements_eq_iff (x y : Nested α (depth + 1)) :
    (x.elements.length = y.elements.length ∧ ∀ i : ℕ, x.elements[i]? = y.elements[i]?) ↔ x = y := by
  constructor
  · intro h
    exact List.ext_getElem? h.2
  · intro h
    rw [h]
    exact ⟨rfl, fun _ => rfl⟩

theorem equal_eq_of_overlay (hS : ∀ x ∈ S, ∀ y ∈ S, Overlay (depth + 1) x y → x = y)
    {x y : Nested α (depth + 1)} (hx : x ∈ S) (hy : y ∈ S) :
    equal (depth + 1) x y = true ↔ x = y := by
  rw [equal_iff_overlay]
  exact ⟨hS x hx y hy, fun h => h ▸ overlay_refl (depth + 1) x⟩

/-- Lists are compared as wholes exactly among values of which no two different ones agree as far
as both go. -/
theorem equalityOn_iff (depth : ℕ) (S : Set (Nested α (depth + 1))) :
    EqualityOn depth S ↔ ∀ x ∈ S, ∀ y ∈ S, Overlay (depth + 1) x y → x = y := by
  constructor
  · intro h x hx y hy hxy
    exact (elements_eq_iff x y).mp ((h.equal_iff x hx y hy).mp ((equal_iff_overlay _ x y).mpr hxy))
  · intro hS
    have hexact : ∀ l : List (Nested α (depth + 1)), (∀ y ∈ l, y ∈ S) →
        ExactOn (equal (depth + 1)) l :=
      fun l hl a ha b hb => equal_eq_of_overlay hS (hl a ha) (hl b hb)
    constructor
    · intro x hx y hy
      rw [elements_eq_iff, equal_eq_of_overlay hS hx hy]
    · have hsame : (fun x y : S => equal (depth + 1) x.1 y.1 = true) = fun x y => x = y := by
        funext x y
        rw [equal_eq_of_overlay hS x.2 y.2, Subtype.ext_iff]
      rw [hsame]
      exact eq_equivalence
    · intro x hx l hl
      exact member_eq fun b hb => equal_eq_of_overlay hS hx (hl b hb)
    · intro x hx l hl
      exact indexOf_eq fun b hb => equal_eq_of_overlay hS hx (hl b hb)
    · intro l hl v
      exact count_unique (hexact l hl) v
    · intro l₁ l₂ h₁ h₂ v
      apply count_intersection (hexact (l₁ ++ l₂) ?_) v
      intro y hy
      exact (List.mem_append.mp hy).elim (h₁ y) (h₂ y)

end Equal

/-- A list is equal to the longer list it begins. -/
theorem not_equal_iff_eq :
    ¬ ∀ x y : Nested ℤ 1, equal 1 x y = true ↔
      x.elements.length = y.elements.length ∧ ∀ i : ℕ, x.elements[i]? = y.elements[i]? := by
  intro h
  have hlength := ((h ([1, 2] : List ℤ) ([1, 2, 3] : List ℤ)).mp (by decide)).1
  revert hlength
  decide

end Extempore.NestedEquality
