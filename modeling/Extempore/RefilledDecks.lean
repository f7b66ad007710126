import Mathlib.Data.List.Perm.Subperm
import Mathlib.Tactic.Ring
import Mathlib.Tactic.Linarith

/-!
# A deck that is refilled when it is empty

Cards are taken off a deck one at a time, in any order, and the whole deck comes back when none is
left. Whatever the order, every card is then taken equally often, up to one time.
-/

namespace Extempore.RefilledDecks

variable {α : Type} [DecidableEq α]

/-- `left` of the deck `full` remains after the cards `used` were taken in `k` whole rounds and
the present one. -/
structure Dealt (full left used : List α) (k : ℕ) : Prop where
  nodup : left.Nodup
  subset : left ⊆ full
  mem : ∀ x ∈ used, x ∈ full
  length : used.length + left.length = (k + 1) * full.length
  count : ∀ x ∈ full, used.count x + (if x ∈ left then 1 else 0) = k + 1

namespace Dealt

variable {full left used : List α} {k : ℕ}

theorem start (h : full.Nodup) : Dealt full full [] 0 :=
  ⟨h, fun _ hx => hx, by simp, by simp, fun x hx => by simp [hx]⟩

theorem refill (hfull : full.Nodup) (h : Dealt full [] used k) : Dealt full full used (k + 1) := by
  refine ⟨hfull, fun _ hx => hx, h.mem, ?_, fun x hx => ?_⟩
  · have := h.length
    rw [List.length_nil, Nat.add_zero] at this
    rw [this]
    ring
  · have := h.count x hx
    simp only [List.not_mem_nil, if_false] at this
    rw [if_pos hx]
    omega

theorem deal (h : Dealt full left used k) {x : α} (hx : x ∈ left) :
    Dealt full (left.erase x) (x :: used) k := by
  have hpos := List.length_pos_of_mem hx
  constructor
  · exact h.nodup.erase x
  · exact fun y hy => h.subset (List.mem_of_mem_erase hy)
  · intro y hy
    cases hy with
    | head => exact h.subset hx
    | tail _ hy => exact h.mem y hy
  · have := h.length
    rw [List.length_erase_of_mem hx, List.length_cons]
    omega
  · intro y hy
    have hcount := h.count y hy
    by_cases he : x = y
    · subst he
      rw [if_pos hx] at hcount
      rw [if_neg h.nodup.not_mem_erase, List.count_cons_self]
      omega
    · rw [List.count_cons_of_ne he]
      simp only [List.mem_erase_of_ne (Ne.symm he)]
      exact hcount

/-- With a card left, the whole rounds are the quotient. -/
theorem rounds_eq (h : Dealt full left used k) (hleft : left ≠ []) :
    used.length / full.length = k := by
  have hpos := List.length_pos_iff.mpr hleft
  have hle : left.length ≤ full.length := (h.nodup.subperm h.subset).length_le
  have hlength := h.length
  rw [Nat.succ_mul] at hlength
  rw [Nat.div_eq_iff (by omega)]
  constructor
  · omega
  · omega

/-- Every card is taken as often as the quotient, rounded down or up. -/
theorem balanced (h : Dealt full left used k) (hleft : left ≠ []) {x : α} (hx : x ∈ full) :
    used.count x = used.length / full.length ∨
      used.count x = (used.length + full.length - 1) / full.length := by
  have hpos := List.length_pos_iff.mpr hleft
  have hle : left.length ≤ full.length := (h.nodup.subperm h.subset).length_le
  have hlength := h.length
  have hcount := h.count x hx
  by_cases hin : x ∈ left
  · left
    rw [if_pos hin] at hcount
    rw [h.rounds_eq hleft]
    omega
  · right
    rw [if_neg hin] at hcount
    have hlt : left.length < full.length := by
      by_contra hge
      have hperm := (h.nodup.subperm h.subset).perm_of_length_le (not_lt.mp hge)
      exact hin (hperm.mem_iff.mpr hx)
    rw [Nat.add_zero] at hcount
    rw [hcount]
    symm
    rw [Nat.div_eq_iff (by omega)]
    constructor
    · omega
    · omega

end Dealt

end Extempore.RefilledDecks
