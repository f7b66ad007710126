import Mathlib.Data.List.Infix

/-!
# Streams that arrive in chunks

The frames of a stream are sent one after the other and arrive in chunks that know nothing
of the frame boundaries. `Aligned` says that every frame ends where a chunk ends.
-/

namespace Extempore.ChunkedStreams

universe u

variable {α : Type u} {c e rest : List α} {cs fs : List (List α)}

/-- The chunks fall into groups, one for each frame, so that no chunk has a part in two frames. -/
def Aligned (fs cs : List (List α)) : Prop :=
  ∃ gs : List (List (List α)), cs = gs.flatten ∧ gs.map List.flatten = fs

theorem aligned_nil : Aligned [] cs ↔ cs = [] := by
  constructor
  · rintro ⟨gs, rfl, h⟩
    simp [List.map_eq_nil_iff.mp h]
  · rintro rfl
    exact ⟨[], rfl, rfl⟩

theorem aligned_cons {f : List α} :
    Aligned (f :: fs) cs ↔ ∃ g cs', cs = g ++ cs' ∧ g.flatten = f ∧ Aligned fs cs' := by
  constructor
  · rintro ⟨gs, rfl, h⟩
    obtain ⟨g, gs, rfl, hg, hgs⟩ := List.map_eq_cons_iff.mp h
    exact ⟨g, gs.flatten, rfl, hg, gs, rfl, hgs⟩
  · rintro ⟨g, cs, rfl, hg, gs, rfl, hgs⟩
    exact ⟨g :: gs, rfl, by simp [hg, hgs]⟩

/-- Where the first frame ends: at the end of a chunk, or inside a chunk that goes on with
the bytes behind it. -/
theorem exists_cut (h : cs.flatten = e ++ rest) :
    (∃ g cs', cs = g ++ cs' ∧ g.flatten = e ∧ cs'.flatten = rest) ∨
      ∃ g u w cs', cs = g ++ (u ++ w) :: cs' ∧ g.flatten ++ u = e ∧ u ≠ [] ∧ w ≠ [] ∧
        w ++ cs'.flatten = rest := by
  induction cs generalizing e with
  | nil =>
    obtain ⟨rfl, rfl⟩ := List.append_eq_nil_iff.mp h.symm
    exact .inl ⟨[], [], rfl, rfl, rfl⟩
  | cons c cs ih =>
    rcases e with _ | ⟨x, e⟩
    · exact .inl ⟨[], c :: cs, rfl, rfl, h⟩
    rw [List.flatten_cons] at h
    rcases List.append_eq_append_iff.mp h with ⟨m, he, hm⟩|⟨m, hc, hm⟩
    · rcases ih hm with ⟨g, cs', rfl, hg, hr⟩|⟨g, u, w, cs', rfl, hg, hu, hw, hr⟩
      · exact .inl ⟨c :: g, cs', rfl, by simp [hg, he], hr⟩
      · exact .inr ⟨c :: g, u, w, cs', rfl, by simp [hg, he], hu, hw, hr⟩
    · rcases m with _ | ⟨y, m⟩
      · exact .inl ⟨[c], cs, rfl, by simp [hc], by simpa using hm.symm⟩
      · exact .inr ⟨[], x :: e, y :: m, cs, by simp [hc], rfl, by simp, by simp, hm.symm⟩

end Extempore.ChunkedStreams
