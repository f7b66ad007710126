import Mathlib

/-!
# Counting the members of a set along the integers

A counter goes up by one at each member of a set and stays where it is elsewhere. When it is
unbounded in both directions, its values number the members in their order.
-/

namespace Extempore.IntegerCounting

structure Counts (S : ℤ → Prop) (F : ℤ → ℤ) : Prop where
  member : ∀ q, S q → F q = F (q - 1) + 1
  other : ∀ q, ¬S q → F q = F (q - 1)
  above : ∀ i, ∃ q, i ≤ F q
  below : ∀ i, ∃ q, F q < i

namespace Counts

variable {S : ℤ → Prop} {F : ℤ → ℤ}

theorem step (h : Counts S F) (q : ℤ) : F (q - 1) ≤ F q := by
  by_cases hq : S q
  · have := h.member q hq
    omega
  · exact (h.other q hq).ge

theorem le_add (h : Counts S F) (q : ℤ) (n : ℕ) : F q ≤ F (q + n) := by
  induction n with
  | zero => simp
  | succ n ih =>
    have hs := h.step (q + ↑(n + 1))
    have he : q + ↑(n + 1) - 1 = q + n := by
      push_cast
      omega
    rw [he] at hs
    exact ih.trans hs

theorem mono (h : Counts S F) : Monotone F := by
  intro q r hqr
  have hn := h.le_add q (r - q).toNat
  have he : q + ((r - q).toNat : ℤ) = r := by omega
  rwa [he] at hn

/-- The counter is higher at a member than anywhere before it. -/
theorem lt_of_member (h : Counts S F) {q r : ℤ} (hr : S r) (hqr : q < r) : F q < F r := by
  have hm := h.mono (show q ≤ r - 1 by omega)
  have := h.member r hr
  omega

theorem eq_of_members (h : Counts S F) {q r : ℤ} (hq : S q) (hr : S r) (he : F q = F r) :
    q = r := by
  rcases lt_trichotomy q r with hlt | heq | hgt
  · have := h.lt_of_member hr hlt
    omega
  · exact heq
  · have := h.lt_of_member hq hgt
    omega

theorem lt_iff (h : Counts S F) {q r : ℤ} (hr : S r) : q < r ↔ F q < F r := by
  constructor
  · exact h.lt_of_member hr
  · intro hlt
    by_contra hle
    have := h.mono (not_lt.mp hle)
    omega

/-- Every integer is the number of a member. -/
theorem exists_member (h : Counts S F) (i : ℤ) : ∃ q, S q ∧ F q = i := by
  obtain ⟨b, hb⟩ := h.below i
  obtain ⟨q, hq, hleast⟩ := Int.exists_least_of_bdd
    ⟨b, fun z (hz : i ≤ F z) => by
      by_contra hlt
      have := h.mono (not_le.mp hlt).le
      omega⟩ (h.above i)
  have hbefore : F (q - 1) < i := by
    by_contra hle
    have := hleast (q - 1) (not_lt.mp hle)
    omega
  by_cases hs : S q
  · have := h.member q hs
    exact ⟨q, hs, by omega⟩
  · have := h.other q hs
    omega

/-- The member with the number `i`. -/
noncomputable def nth (h : Counts S F) (i : ℤ) : ℤ :=
  (h.exists_member i).choose

theorem nth_member (h : Counts S F) (i : ℤ) : S (h.nth i) :=
  (h.exists_member i).choose_spec.1

theorem count_nth (h : Counts S F) (i : ℤ) : F (h.nth i) = i :=
  (h.exists_member i).choose_spec.2

theorem nth_count (h : Counts S F) {q : ℤ} (hq : S q) : h.nth (F q) = q :=
  h.eq_of_members (h.nth_member _) hq (h.count_nth _)

theorem nth_strictMono (h : Counts S F) : StrictMono h.nth := by
  intro i j hij
  rw [h.lt_iff (h.nth_member j), h.count_nth, h.count_nth]
  exact hij

/-- A number above the count of a place belongs to a member above that place. -/
theorem lt_nth_iff (h : Counts S F) {q i : ℤ} : q < h.nth i ↔ F q < i := by
  constructor
  · intro hlt
    simpa only [h.count_nth] using h.lt_of_member (h.nth_member i) hlt
  · intro hlt
    by_contra hle
    have := h.mono (not_lt.mp hle)
    rw [h.count_nth] at this
    omega

end Counts

end Extempore.IntegerCounting
