import Mathlib.Data.List.Infix
import Mathlib.Data.Nat.Notation

/-!
# Windows of a list

`window xs q n` is what is in `xs` at `q`, for `n` elements. `firstMatch p xs` is the first place
where `p` is in `xs`.
-/

namespace Extempore.ListWindows

universe u

variable {α : Type u} {xs ys zs p : List α} {q n : ℕ}

def window (xs : List α) (q n : ℕ) : List α := (xs.drop q).take n

theorem length_window (h : q + n ≤ xs.length) : (window xs q n).length = n := by
  rw [window, List.length_take, List.length_drop]
  omega

/-- What is added behind a window does not matter. -/
theorem window_append_left (h : q + n ≤ xs.length) : window (xs ++ ys) q n = window xs q n := by
  rw [window, window, List.drop_append_of_le_length (by omega), List.take_append_of_le_length]
  rw [List.length_drop]
  omega

theorem window_append_right : window (xs ++ ys) (xs.length + q) n = window ys q n := by
  rw [window, window, List.drop_append, List.drop_eq_nil_of_le (Nat.le_add_right _ _),
    Nat.add_sub_cancel_left, List.nil_append]

theorem window_append_exact : window (xs ++ (ys ++ zs)) xs.length ys.length = ys := by
  rw [window, List.drop_left, List.take_left]

theorem window_eq_iff_isPrefix : window xs q p.length = p ↔ p <+: xs.drop q := by
  rw [window, List.prefix_iff_eq_take]
  exact eq_comm

/-- A window that ends where the list ends has its last element at the end. -/
theorem window_concat {a : α} (h : q + (n + 1) = xs.length + 1) :
    window (xs ++ [a]) q (n + 1) = window xs q n ++ [a] := by
  have hle : q ≤ xs.length := by omega
  have hlength : (xs.drop q).length = n := by
    rw [List.length_drop]
    omega
  rw [window, window, List.drop_append_of_le_length hle, ← hlength, List.take_length,
    List.take_of_length_le]
  rw [List.length_append]
  rfl

variable [BEq α] [LawfulBEq α]

/-- The first place of `p`, searched for from every element. -/
def firstMatch (p : List α) : List α → Option ℕ
  | [] => none
  | x :: xs => if p.isPrefixOf (x :: xs) then some 0 else (firstMatch p xs).map (· + 1)

theorem firstMatch_eq_some_iff (hp : p ≠ []) :
    firstMatch p xs = some q ↔
      window xs q p.length = p ∧ ∀ j < q, window xs j p.length ≠ p := by
  simp only [ne_eq, window_eq_iff_isPrefix]
  induction xs generalizing q with
  | nil =>
    rw [firstMatch, List.drop_nil, List.prefix_nil]
    simp [hp]
  | cons x xs ih =>
    rw [firstMatch]
    by_cases hx : p <+: x :: xs
    · rw [if_pos (List.isPrefixOf_iff_prefix.mpr hx)]
      constructor
      · intro h
        obtain rfl := Option.some.inj h
        exact ⟨hx, fun j hj => absurd hj (Nat.not_lt_zero j)⟩
      · rintro ⟨-, hfirst⟩
        cases q with
        | zero => rfl
        | succ q => exact absurd hx (hfirst 0 (Nat.succ_pos q))
    · rw [if_neg (fun h => hx (List.isPrefixOf_iff_prefix.mp h)), Option.map_eq_some_iff]
      constructor
      · rintro ⟨r, hr, rfl⟩
        rcases ih.mp hr with ⟨hmatch, hfirst⟩
        refine ⟨hmatch, ?_⟩
        intro j hj
        cases j with
        | zero => exact hx
        | succ j => exact hfirst j (Nat.lt_of_succ_lt_succ hj)
      · rintro ⟨hmatch, hfirst⟩
        cases q with
        | zero => exact absurd hmatch hx
        | succ q =>
          exact ⟨q, ih.mpr ⟨hmatch, fun j hj => hfirst (j + 1) (Nat.succ_lt_succ hj)⟩, rfl⟩

end Extempore.ListWindows
