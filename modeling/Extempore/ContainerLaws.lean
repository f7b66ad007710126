import Mathlib.Logic.Function.Basic

/-!
# The laws of containers

A container type with the operations `unit`, `flatmap`, `join`, `fmap` and `apply`, each of them
defined on its own, and the laws of monads and applicative functors that connect them. The laws of
a monad follow from those of `unit` and `flatmap` once `fmap` and `join` are written in these two.
-/

namespace Extempore.ContainerLaws

universe u

structure Container (C : Type u → Type u) where
  unit : {α : Type u} → α → C α
  flatmap : {α β : Type u} → C α → (α → C β) → C β
  join : {α : Type u} → C (C α) → C α
  fmap : {α β : Type u} → (α → β) → C α → C β
  apply : {α β : Type u} → C (α → β) → C α → C β

variable {C : Type u → Type u} {c : Container C} {α β : Type u}

structure FlatmapLaws (c : Container C) : Prop where
  unit_flatmap : ∀ {α β : Type u} (x : α) (f : α → C β), c.flatmap (c.unit x) f = f x
  flatmap_unit : ∀ {α : Type u} (m : C α), c.flatmap m c.unit = m
  flatmap_flatmap : ∀ {α β γ : Type u} (m : C α) (f : α → C β) (g : β → C γ),
    c.flatmap (c.flatmap m f) g = c.flatmap m fun x => c.flatmap (f x) g

/-- `fmap` and `join` written in `unit` and `flatmap`. -/
structure FromFlatmap (c : Container C) : Prop extends FlatmapLaws c where
  fmap_eq : ∀ {α β : Type u} (f : α → β) (m : C α), c.fmap f m = c.flatmap m (c.unit ∘ f)
  join_eq : ∀ {α : Type u} (M : C (C α)), c.join M = c.flatmap M id

/-- The laws of a monad with `join` and `fmap`. -/
structure MonadLaws (c : Container C) : Prop extends FlatmapLaws c where
  flatmap_eq_join : ∀ {α β : Type u} (m : C α) (f : α → C β), c.flatmap m f = c.join (c.fmap f m)
  fmap_id : ∀ {α : Type u}, c.fmap (id : α → α) = id
  fmap_comp : ∀ {α β γ : Type u} (g : β → γ) (f : α → β), c.fmap (g ∘ f) = c.fmap g ∘ c.fmap f

/-- The law of `apply` at two arguments: every function is applied to every element. -/
structure ApplyLaw (c : Container C) (F : C (α → β)) (m : C α) : Prop where
  apply_eq : c.apply F m = c.flatmap F fun f => c.fmap f m
  apply_unit : ∀ f, F = c.unit f → c.apply F m = c.fmap f m

namespace FromFlatmap

variable (h : FromFlatmap c)

include h

/-- A function applied to the elements in front of `flatmap`. -/
theorem flatmap_fmap {γ : Type u} (m : C α) (f : α → β) (g : β → C γ) :
    c.flatmap (c.fmap f m) g = c.flatmap m (g ∘ f) := by
  rw [h.fmap_eq, h.flatmap_flatmap]
  congr 1
  funext x
  exact h.unit_flatmap (f x) g

theorem monadLaws : MonadLaws c where
  toFlatmapLaws := h.toFlatmapLaws
  flatmap_eq_join := by
    intro α β m f
    rw [h.join_eq, h.flatmap_fmap]
    rfl
  fmap_id := by
    intro α
    funext m
    rw [h.fmap_eq]
    exact h.flatmap_unit m
  fmap_comp := by
    intro α β γ g f
    funext m
    rw [Function.comp_apply, h.fmap_eq g, h.flatmap_fmap, h.fmap_eq]
    rfl

end FromFlatmap

/-- The law at a function alone follows from the law at all functions. -/
theorem FlatmapLaws.applyLaw (h : FlatmapLaws c) {F : C (α → β)} {m : C α}
    (hF : c.apply F m = c.flatmap F fun f => c.fmap f m) : ApplyLaw c F m where
  apply_eq := hF
  apply_unit := by
    intro f hf
    rw [hF, hf]
    exact h.unit_flatmap f fun f => c.fmap f m

end Extempore.ContainerLaws
