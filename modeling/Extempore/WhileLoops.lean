import Mathlib.Data.Nat.Notation

/-!
# While loops

`while (cond s) s = body s` with a bound on the number of rounds. `Ends` says that the loop
ends, for some bound, and in which state. A counted loop ends by `ends_of_rounds`; an invariant
under which the condition always holds shows by `not_ends` that the loop goes on for ever.
-/

namespace Extempore.WhileLoops

universe u

variable {σ : Type u} {cond : σ → Bool} {body : σ → σ} {s s' : σ}

/-- At most `fuel` tests of the condition; `none` if the loop has not ended by then. -/
def loop (cond : σ → Bool) (body : σ → σ) : ℕ → σ → Option σ
  | 0, _ => none
  | fuel + 1, s => if cond s then loop cond body fuel (body s) else some s

/-- The loop ends in `s'`. -/
def Ends (cond : σ → Bool) (body : σ → σ) (s s' : σ) : Prop :=
  ∃ fuel, loop cond body fuel s = some s'

theorem ends_of_done (h : cond s = false) : Ends cond body s s :=
  ⟨1, by simp [loop, h]⟩

theorem ends_of_step (h : cond s = true) (hs : Ends cond body (body s) s') :
    Ends cond body s s' := by
  obtain ⟨fuel, hfuel⟩ := hs
  exact ⟨fuel + 1, by simp [loop, h, hfuel]⟩

/-- What is left of the loop behind its first round. -/
theorem Ends.behind (hs : Ends cond body s s') (h : cond s = true) : Ends cond body (body s) s' := by
  obtain ⟨fuel, hfuel⟩ := hs
  cases fuel with
  | zero => cases hfuel
  | succ fuel =>
    rw [loop, if_pos h] at hfuel
    exact ⟨fuel, hfuel⟩

theorem loop_mono {fuel fuel' : ℕ} (h : loop cond body fuel s = some s') (hle : fuel ≤ fuel') :
    loop cond body fuel' s = some s' := by
  induction fuel generalizing s fuel' with
  | zero => simp [loop] at h
  | succ fuel ih =>
    cases fuel' with
    | zero => simp at hle
    | succ fuel' =>
      simp only [loop] at h ⊢
      split
      · next hcond =>
        rw [if_pos hcond] at h
        exact ih h (by omega)
      · next hcond => rwa [if_neg hcond] at h

theorem Ends.unique {t : σ} (h : Ends cond body s s') (h' : Ends cond body s t) : s' = t := by
  obtain ⟨fuel, hfuel⟩ := h
  obtain ⟨fuel', hfuel'⟩ := h'
  have hmax := loop_mono hfuel (Nat.le_max_left fuel fuel')
  rw [loop_mono hfuel' (Nat.le_max_right fuel fuel')] at hmax
  exact (Option.some.inj hmax).symm

/-- The loop makes `n` rounds, and `I k` holds before round `k`. -/
theorem ends_of_rounds {I : ℕ → σ → Prop} {n : ℕ}
    (hcond : ∀ k s, k < n → I k s → cond s = true)
    (hbody : ∀ k s, k < n → I k s → I (k + 1) (body s))
    (hdone : ∀ s, I n s → cond s = false) (hs : I 0 s) :
    ∃ s', Ends cond body s s' ∧ I n s' := by
  suffices h : ∀ m k s, k + m = n → I k s → ∃ s', Ends cond body s s' ∧ I n s' by
    exact h n 0 s (by omega) hs
  intro m
  induction m with
  | zero =>
    intro k s hk hI
    obtain rfl : k = n := by omega
    exact ⟨s, ends_of_done (hdone s hI), hI⟩
  | succ m ih =>
    intro k s hk hI
    have hlt : k < n := by omega
    obtain ⟨s', hends, hI'⟩ := ih (k + 1) (body s) (by omega) (hbody k s hlt hI)
    exact ⟨s', ends_of_step (hcond k s hlt hI) hends, hI'⟩

/-- A loop whose condition is kept true goes on for ever. -/
theorem not_ends {I : σ → Prop} (hcond : ∀ s, I s → cond s = true)
    (hbody : ∀ s, I s → I (body s)) (hs : I s) : ¬ Ends cond body s s' := by
  rintro ⟨fuel, hfuel⟩
  induction fuel generalizing s with
  | zero => simp [loop] at hfuel
  | succ fuel ih =>
    simp only [loop, hcond s hs, if_true] at hfuel
    exact ih (hbody s hs) hfuel

end Extempore.WhileLoops
