import Mathlib.Order.Monotone.Union
import Mathlib.Topology.Order.OrderClosed

/-!
# Maps glued at a point

The map that is `f` up to the point `a` and `g` behind it. Where both maps have one value at `a`,
the glued map is strictly increasing if they are, and continuous if they are.
-/

namespace Extempore.GluedMaps

universe u v

variable {α : Type u} {β : Type v} [LinearOrder α] {f g : α → β} {a x : α}

/-- `f` up to `a`, `g` behind it. -/
def glue (a : α) (f g : α → β) (x : α) : β := if x ≤ a then f x else g x

theorem glue_of_le (h : x ≤ a) : glue a f g x = f x := if_pos h

theorem glue_of_ge (hglue : f a = g a) (h : a ≤ x) : glue a f g x = g x := by
  rw [glue]
  split
  · next hle => rw [le_antisymm hle h, hglue]
  · rfl

theorem strictMono_glue [Preorder β] (hf : StrictMono f) (hg : StrictMono g)
    (hglue : f a = g a) : StrictMono (glue a f g) := by
  apply StrictMonoOn.Iic_union_Ici (a := a)
  · exact (hf.strictMonoOn _).congr fun x hx => (glue_of_le hx).symm
  · exact (hg.strictMonoOn _).congr fun x hx => (glue_of_ge hglue hx).symm

theorem continuous_glue [TopologicalSpace α] [OrderClosedTopology α] [TopologicalSpace β]
    (hf : Continuous f) (hg : Continuous g) (hglue : f a = g a) : Continuous (glue a f g) := by
  apply hf.if_le hg continuous_id continuous_const
  intro x hx
  rw [show x = a from hx, hglue]

end Extempore.GluedMaps
