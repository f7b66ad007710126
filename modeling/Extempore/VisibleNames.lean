import Mathlib.Data.List.Forall2
import Mathlib.Data.List.Nodup

/-!
# Visible names of a scope

A scope lists what is bound, innermost first. A name that is bound again inside hides the outer
binding. The visible names are the scope without the hidden ones, and the last of them is the
name that is bound outermost.
-/

namespace Extempore.VisibleNames

universe u v

variable {α : Type u} {β : Type v} [DecidableEq α] {seen names : List α} {x : α}

/-- The names that are not hidden, neither by names of the scope nor by those in `seen`. -/
def visible (seen : List α) : List α → List α
  | [] => []
  | x :: names => if x ∈ seen then visible seen names else x :: visible (x :: seen) names

theorem mem_visible : x ∈ visible seen names ↔ x ∈ names ∧ x ∉ seen := by
  induction names generalizing seen with
  | nil => simp [visible]
  | cons y names ih =>
    rw [visible]
    split
    · next hy =>
      rw [ih, List.mem_cons]
      constructor
      · exact fun h => ⟨.inr h.1, h.2⟩
      · intro h
        apply And.intro _ h.2
        apply h.1.resolve_left
        intro hx
        exact h.2 (hx ▸ hy)
    · next hy =>
      rw [List.mem_cons, ih, List.mem_cons, List.mem_cons, not_or]
      by_cases hx : x = y
      · simp [hx, hy]
      · simp [hx]

theorem visible_eq_nil : visible seen names = [] ↔ ∀ x ∈ names, x ∈ seen := by
  rw [List.eq_nil_iff_forall_not_mem]
  apply forall_congr'
  intro x
  rw [mem_visible, not_and, Classical.not_not]

theorem visible_map {β : Type v} [DecidableEq β] {f : α → β} (hf : ∀ x y, f x = f y → x = y) :
    visible (seen.map f) (names.map f) = (visible seen names).map f := by
  have hmem (x : α) (xs : List α) : f x ∈ xs.map f ↔ x ∈ xs := by
    constructor
    · intro h
      obtain ⟨y, hy, hxy⟩ := List.mem_map.mp h
      rwa [← hf y x hxy]
    · exact fun h => List.mem_map_of_mem h
  induction names generalizing seen with
  | nil => rfl
  | cons y names ih =>
    rw [List.map_cons, visible, visible, ← List.map_cons, ih, ih]
    split
    · next hy => rw [if_pos ((hmem y seen).mp hy)]
    · next hy => rw [if_neg (fun h => hy ((hmem y seen).mpr h)), List.map_cons]

/-- Nothing is hidden where all names are different, but for what follows them. -/
theorem visible_append (hnodup : names.Nodup) (hseen : ∀ x ∈ names, x ∉ seen) (rest : List α) :
    visible seen (names ++ rest) = names ++ visible (names.reverse ++ seen) rest := by
  induction names generalizing seen with
  | nil => rfl
  | cons y names ih =>
    obtain ⟨hy, hnodup⟩ := List.nodup_cons.mp hnodup
    rw [List.cons_append, visible, if_neg (hseen y List.mem_cons_self), ih hnodup]
    · simp
    · intro x hx
      rw [List.mem_cons, not_or]
      exact ⟨fun h => hy (h ▸ hx), hseen x (List.mem_cons_of_mem y hx)⟩

/-! ## Bindings -/

/-- All visible bindings but the outermost satisfy `p`, where `outer` is bound outside of the
scope. -/
def AllButOutermost (p : β → Prop) (outer : α) (seen : List α) : List (α × β) → Prop
  | [] => True
  | (x, b) :: scope =>
    if x ∈ seen then AllButOutermost p outer seen scope
    else ((∃ y ∈ scope.map Prod.fst ++ [outer], y ∉ x :: seen) → p b) ∧
      AllButOutermost p outer (x :: seen) scope

theorem lookup_of_ne {y : α} {b : β} {scope : List (α × β)} (h : x ≠ y) :
    ((y, b) :: scope).lookup x = scope.lookup x := by
  rw [List.lookup_cons, beq_eq_false_iff_ne.mpr h]

theorem allButOutermost_iff {p : β → Prop} {outer : α} {scope : List (α × β)} :
    AllButOutermost p outer seen scope ↔
      ∀ x ∈ (visible seen (scope.map Prod.fst ++ [outer])).dropLast,
        ∃ b, scope.lookup x = some b ∧ p b := by
  induction scope generalizing seen with
  | nil =>
    rw [List.map_nil, List.nil_append, visible, visible, visible]
    split <;> simp [AllButOutermost]
  | cons entry scope ih =>
    obtain ⟨y, b⟩ := entry
    rw [List.map_cons, List.cons_append, visible, AllButOutermost]
    split
    · next hy =>
      rw [ih]
      apply forall₂_congr
      intro x hx
      have hseen : x ∉ seen := (mem_visible.mp (List.dropLast_subset _ hx)).2
      have hne : x ≠ y := fun h => hseen (h.symm ▸ hy)
      rw [lookup_of_ne hne]
    · rw [ih]
      have hinner : ∀ x ∈ (visible (y :: seen) (scope.map Prod.fst ++ [outer])).dropLast,
          ((y, b) :: scope).lookup x = scope.lookup x := by
        intro x hx
        apply lookup_of_ne
        exact fun h => (mem_visible.mp (List.dropLast_subset _ hx)).2 (h ▸ .head _)
      by_cases hlast : ∃ z ∈ scope.map Prod.fst ++ [outer], z ∉ y :: seen
      · have hne : visible (y :: seen) (scope.map Prod.fst ++ [outer]) ≠ [] := by
          obtain ⟨z, hz, hzseen⟩ := hlast
          exact fun h => hzseen (visible_eq_nil.mp h z hz)
        rw [List.dropLast_cons_of_ne_nil hne, List.forall_mem_cons, List.lookup_cons_self]
        apply and_congr
        · exact ⟨fun h => ⟨b, rfl, h hlast⟩, fun ⟨c, hc, h⟩ _ => Option.some.inj hc ▸ h⟩
        · apply forall₂_congr
          intro x hx
          rw [hinner x hx]
      · have hnil : visible (y :: seen) (scope.map Prod.fst ++ [outer]) = [] := by
          rw [visible_eq_nil]
          intro z hz
          by_contra hzseen
          exact hlast ⟨z, hz, hzseen⟩
        simp only [hnil, hlast, false_imp_iff, true_and, List.dropLast,
          List.not_mem_nil, implies_true]

theorem allButOutermost_true {outer : α} {scope : List (α × β)} :
    AllButOutermost (fun _ => True) outer seen scope := by
  induction scope generalizing seen with
  | nil => exact True.intro
  | cons entry scope ih =>
    rw [AllButOutermost]
    split
    · exact ih
    · exact ⟨fun _ => True.intro, ih⟩

/-- Two scopes of the same names, where bindings of one satisfy `p` iff those of the other
satisfy `q`. -/
theorem allButOutermost_congr {γ : Type v} {p : β → Prop} {q : γ → Prop} {outer : α}
    {scope : List (α × β)} {scope' : List (α × γ)}
    (h : List.Forall₂ (fun entry entry' => entry.1 = entry'.1 ∧ (p entry.2 ↔ q entry'.2))
      scope scope') :
    AllButOutermost p outer seen scope ↔ AllButOutermost q outer seen scope' := by
  have hnames : scope.map Prod.fst = scope'.map Prod.fst := by
    rw [← List.forall₂_eq_eq_eq, List.forall₂_map_left_iff, List.forall₂_map_right_iff]
    exact h.imp fun _ _ h => h.1
  induction h generalizing seen with
  | nil => exact Iff.rfl
  | @cons entry entry' scope scope' hentry _ ih =>
    rw [List.map_cons, List.map_cons, List.cons.injEq] at hnames
    simp only [AllButOutermost, hentry.1, hentry.2, hnames.2, ih hnames.2]

end Extempore.VisibleNames
