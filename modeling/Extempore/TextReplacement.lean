import Extempore.FirstMatches
import Mathlib.Tactic.Linarith

/-!
# Replacing every occurrence

`replace_all` replaces the first occurrence of a word for as long as the text changes, for a
hundred rounds at most, and begins each round at the front of the new text. The occurrences of the
given text are replaced, and no others, when every round comes to the next one of these.
-/

namespace Extempore.TextReplacement

open FirstMatches

variable {α : Type} [DecidableEq α]

/-- `replace`: the first occurrence only, where `strstr` finds it. -/
def replace (orig rep w : List α) : List α :=
  match splitFirst rep orig with
  | none => orig
  | some (start, rest) => start ++ (w ++ rest)

/-- The loop of `replace_all`, with the number of rounds that are left. -/
def replaceAllLoop (rep w : List α) : ℕ → List α → List α → List α
  | 0, s1, _ => s1
  | n + 1, s1, s2 => if s1 = s2 then s1 else replaceAllLoop rep w n (replace s1 rep w) s1

def replaceAll (orig rep w : List α) : List α :=
  replaceAllLoop rep w 100 orig w

/-- The text in front of the first occurrence, and the pieces behind the occurrences, which are
found from the left and do not overlap. -/
def pieces (rep t : List α) : List α × List (List α) :=
  match splitFirst rep t with
  | none => (t, [])
  | some (p, q) =>
    if q.length < t.length then (p, (pieces rep q).1 :: (pieces rep q).2) else (t, [])
termination_by t.length

omit [DecidableEq α] in
/-- The pieces joined again, by `w` in the first `i` places and by `rep` in the others. -/
def joined (rep w : List α) : ℕ → List (List α) → List α
  | _, [] => []
  | 0, p :: ps => rep ++ (p ++ joined rep w 0 ps)
  | i + 1, p :: ps => w ++ (p ++ joined rep w i ps)

/-- The text with its first `i` occurrences replaced. -/
def partly (orig rep w : List α) (i : ℕ) : List α :=
  (pieces rep orig).1 ++ joined rep w i (pieces rep orig).2

/-- The number of the occurrences. -/
def occurrences (orig rep : List α) : ℕ :=
  (pieces rep orig).2.length

/-- The text with every occurrence replaced. -/
def replaced (orig rep w : List α) : List α :=
  (pieces rep orig).1 ++ ((pieces rep orig).2.map fun p => w ++ p).flatten

/-- Nothing is to do, or every round replaces the next occurrence of the given text and the last
one leaves none. -/
def Stable (orig rep w : List α) : Prop :=
  w = rep ∨ ¬rep <:+: orig ∨
    orig ≠ w ∧ occurrences orig rep ≤ 100 ∧
    (∀ i < occurrences orig rep, replace (partly orig rep w i) rep w = partly orig rep w (i + 1)) ∧
    (occurrences orig rep < 100 → ¬rep <:+: replaced orig rep w)

section Replace

variable {orig rep w : List α}

theorem splitFirst_eq_none_iff {t : List α} : splitFirst rep t = none ↔ ¬rep <:+: t := by
  constructor
  · intro h hinfix
    have := splitFirst_isSome hinfix
    rw [h] at this
    cases this
  · intro h
    cases hs : splitFirst rep t with
    | none => rfl
    | some parts =>
      refine absurd ⟨parts.1, parts.2, ?_⟩ h
      rw [splitFirst_spec hs, List.append_assoc]

theorem replace_of_not_within (h : ¬rep <:+: orig) : replace orig rep w = orig := by
  rw [replace, splitFirst_eq_none_iff.mpr h]

theorem replace_self : replace orig rep rep = orig := by
  rw [replace]
  split
  next => rfl
  next p q hs => exact (splitFirst_spec hs).symm

theorem length_replace (h : rep <:+: orig) :
    (replace orig rep w).length + rep.length = orig.length + w.length := by
  rw [replace]
  split
  next hs => exact absurd h (splitFirst_eq_none_iff.mp hs)
  next p q hs =>
    rw [splitFirst_spec hs]
    simp only [List.length_append]
    omega

end Replace

section Pieces

variable {rep w : List α}

theorem partly_zero (orig : List α) : partly orig rep w 0 = orig := by
  rw [partly]
  fun_induction pieces rep orig with
  | case1 t hs => rw [joined, List.append_nil]
  | case2 t p q hs hlt ih => rw [joined, ih, splitFirst_spec hs]
  | case3 t p q hs hlt => rw [joined, List.append_nil]

omit [DecidableEq α] in
theorem joined_all (ps : List (List α)) :
    joined rep w ps.length ps = (ps.map fun p => w ++ p).flatten := by
  induction ps with
  | nil => rfl
  | cons p ps ih =>
    rw [List.length_cons, joined, ih, List.map_cons, List.flatten_cons, List.append_assoc]

theorem partly_all (orig : List α) :
    partly orig rep w (occurrences orig rep) = replaced orig rep w := by
  rw [partly, occurrences, joined_all, replaced]

omit [DecidableEq α] in
theorem joined_same (i : ℕ) (ps : List (List α)) : joined rep rep i ps = joined rep rep 0 ps := by
  induction ps generalizing i with
  | nil => cases i <;> rfl
  | cons p ps ih =>
    cases i with
    | zero => rfl
    | succ i => rw [joined, joined, ih]

omit [DecidableEq α] in
/-- One more place makes a difference. -/
theorem joined_succ_ne (hw : w ≠ rep) {ps : List (List α)} {i : ℕ} (hi : i < ps.length) :
    joined rep w i ps ≠ joined rep w (i + 1) ps := by
  induction ps generalizing i with
  | nil => exact absurd hi (Nat.not_lt_zero i)
  | cons p ps ih =>
    cases i with
    | zero =>
      intro h
      rw [joined, joined] at h
      exact hw (List.append_cancel_right h).symm
    | succ i =>
      intro h
      rw [joined, joined] at h
      exact ih (Nat.lt_of_succ_lt_succ hi)
        (List.append_cancel_left (List.append_cancel_left h))

theorem occurrences_eq_zero_iff {orig : List α} (hrep : rep ≠ []) :
    occurrences orig rep = 0 ↔ ¬rep <:+: orig := by
  rw [occurrences, pieces]
  split
  next hs => simp [splitFirst_eq_none_iff.mp hs]
  next p q hs =>
    have hlt : q.length < orig.length := by
      have := List.length_pos_iff.mpr hrep
      rw [splitFirst_spec hs]
      simp only [List.length_append]
      omega
    rw [if_pos hlt]
    have hin : rep <:+: orig := ⟨p, q, by rw [splitFirst_spec hs, List.append_assoc]⟩
    simp [hin]

omit [DecidableEq α] in
theorem length_joined (ps : List (List α)) :
    (joined rep w ps.length ps).length + ps.length * rep.length =
      (joined rep w 0 ps).length + ps.length * w.length := by
  induction ps with
  | nil => simp [joined]
  | cons p ps ih =>
    rw [List.length_cons, joined, joined]
    simp only [List.length_append, Nat.succ_mul]
    omega

theorem length_replaced (orig : List α) :
    (replaced orig rep w).length + occurrences orig rep * rep.length =
      orig.length + occurrences orig rep * w.length := by
  have h := @length_joined _ rep w (pieces rep orig).2
  have hzero := congrArg List.length (@partly_zero _ _ rep w orig)
  rw [partly, List.length_append] at hzero
  rw [← partly_all, partly, occurrences, List.length_append]
  omega

end Pieces

section Loop

variable {orig rep w : List α}

theorem loop_self (n : ℕ) (t : List α) : replaceAllLoop rep w n t t = t := by
  cases n with
  | zero => rfl
  | succ n => rw [replaceAllLoop, if_pos rfl]

/-- A text that `replace` leaves as it is ends the loop. -/
theorem loop_fixed {t : List α} (h : replace t rep w = t) (n : ℕ) (s2 : List α) :
    replaceAllLoop rep w n t s2 = t := by
  cases n with
  | zero => rfl
  | succ n =>
    rw [replaceAllLoop, h, loop_self]
    exact ite_self t

/-- When every round replaces the next occurrence, the loop replaces them all. -/
theorem loop_partly (hw : w ≠ rep)
    (hstep : ∀ i < occurrences orig rep,
      replace (partly orig rep w i) rep w = partly orig rep w (i + 1))
    {n j : ℕ} (hj : j ≤ occurrences orig rep) (hn : occurrences orig rep ≤ j + n)
    (hfree : occurrences orig rep < j + n → ¬rep <:+: replaced orig rep w) {s2 : List α}
    (hs2 : partly orig rep w j ≠ s2) :
    replaceAllLoop rep w n (partly orig rep w j) s2 = replaced orig rep w := by
  induction n generalizing j s2 with
  | zero =>
    obtain rfl : j = occurrences orig rep := by omega
    exact partly_all orig
  | succ n ih =>
    rcases hj.eq_or_lt with rfl | hlt
    · rw [partly_all]
      exact loop_fixed (replace_of_not_within (hfree (by omega))) _ _
    · rw [replaceAllLoop, if_neg hs2, hstep j hlt]
      have hne : partly orig rep w (j + 1) ≠ partly orig rep w j := fun he =>
        joined_succ_ne hw hlt (List.append_cancel_left he).symm
      exact ih (by omega) (by omega) (fun h => hfree (by omega)) hne

/-- The length tells how many occurrences were replaced; with rounds to spare none is left. -/
theorem loop_length (hlength : w.length ≠ rep.length) {n : ℕ} {s1 s2 : List α} (hs : s1 ≠ s2) :
    ∃ k ≤ n, (replaceAllLoop rep w n s1 s2).length + k * rep.length = s1.length + k * w.length ∧
      (k < n → ¬rep <:+: replaceAllLoop rep w n s1 s2) := by
  induction n generalizing s1 s2 with
  | zero => exact ⟨0, Nat.le_refl 0, by simp [replaceAllLoop], fun h => absurd h (Nat.lt_irrefl 0)⟩
  | succ n ih =>
    rw [replaceAllLoop, if_neg hs]
    by_cases hin : rep <:+: s1
    · have hreplace := @length_replace _ _ s1 rep w hin
      have hne : replace s1 rep w ≠ s1 := by
        intro he
        rw [he] at hreplace
        omega
      obtain ⟨k, hk, hsum, hfree⟩ := ih hne
      refine ⟨k + 1, by omega, ?_, fun h => hfree (by omega)⟩
      rw [Nat.succ_mul, Nat.succ_mul]
      omega
    · rw [replace_of_not_within hin, loop_self]
      exact ⟨0, Nat.zero_le _, by simp, fun _ => hin⟩

end Loop

/-- On a stable text every occurrence is replaced once. -/
theorem replaceAll_of_stable {orig rep w : List α} (hrep : rep ≠ []) (h : Stable orig rep w) :
    replaceAll orig rep w = replaced orig rep w := by
  rcases h with rfl | hnone | ⟨hne, hle, hstep, hfree⟩
  · rw [replaceAll, loop_fixed replace_self, ← partly_all, partly, joined_same, ← partly,
      partly_zero]
  · have hzero := (occurrences_eq_zero_iff hrep).mpr hnone
    rw [replaceAll, loop_fixed (replace_of_not_within hnone), ← partly_all, hzero, partly_zero]
  · by_cases hw : w = rep
    · subst hw
      rw [replaceAll, loop_fixed replace_self, ← partly_all, partly, joined_same, ← partly,
        partly_zero]
    · have hzero : partly orig rep w 0 ≠ w := by
        rw [partly_zero]
        exact hne
      have hrun := loop_partly hw hstep (Nat.zero_le _) (show _ ≤ 0 + 100 by omega)
        (fun hlt => hfree (by omega)) hzero
      rwa [partly_zero] at hrun

/-- When the length changes, the number of the rounds can be read off the result. -/
theorem of_replaceAll_eq {orig rep w : List α} (hrep : rep ≠ []) (hlength : w.length ≠ rep.length)
    (h : replaceAll orig rep w = replaced orig rep w) :
    ¬rep <:+: orig ∨ orig ≠ w ∧ occurrences orig rep ≤ 100 ∧
      (occurrences orig rep < 100 → ¬rep <:+: replaced orig rep w) := by
  rw [← occurrences_eq_zero_iff hrep]
  have hreplaced := @length_replaced _ _ rep w orig
  by_cases hne : orig = w
  · left
    rw [replaceAll, hne, loop_self] at h
    rw [hne, ← h] at hreplaced
    rw [hne]
    by_contra hpos
    exact hlength (Nat.eq_of_mul_eq_mul_left (Nat.pos_of_ne_zero hpos) (by omega))
  · right
    obtain ⟨k, hk, hsum, hfree⟩ := @loop_length _ _ rep w hlength 100 orig w hne
    rw [← replaceAll, h] at hsum
    have heq : k = occurrences orig rep := by
      have hproduct : ((k : ℤ) - occurrences orig rep) * (w.length - rep.length) = 0 := by
        zify at hsum hreplaced
        linarith
      rcases mul_eq_zero.mp hproduct with hzero | hzero
      · omega
      · omega
    rw [← heq]
    refine ⟨hne, hk, fun hlt => ?_⟩
    rw [← h]
    exact hfree hlt

end Extempore.TextReplacement
