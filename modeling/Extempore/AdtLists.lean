import Mathlib.Data.List.Dedup
import Extempore.CyclicShifts

/-!
# The singly linked lists of the data types library, as values

The functions on `List` of `libs/core/adt.xtm` that only read their arguments: none of them changes
a cell, so a list is the sequence of its elements and the null pointer is the empty list. The
comparison `equal` of the elements is a parameter, as it is chosen by their type. An index is an
integer; a list is shorter than `2 ^ 63` elements, and `-1` times the least `i64` is still below 0.
-/

namespace Extempore.AdtLists

open CyclicShifts

universe u v

variable {α : Type u} {β : Type v}

def length : List α → ℤ
  | [] => 0
  | _ :: cdr => 1 + length cdr

def reverseInline : List α → List α → List α
  | [], new => new
  | car :: old, new => reverseInline old (car :: new)

def reverse (lst : List α) : List α := reverseInline lst []

/-- The loop of `copy`. -/
def copyLoop : List α → List α → List α
  | [], cpy => cpy
  | car :: orig, cpy => copyLoop orig (car :: cpy)

def copy (lst : List α) : List α := reverse (copyLoop lst [])

def appendLoop : List α → List α → List α
  | [], b => b
  | car :: a, b => appendLoop a (car :: b)

def append (as bs : List α) : List α := appendLoop (reverse as) bs

def nthTail : List α → ℤ → List α
  | [], _ => []
  | car :: cdr, idx => if idx ≤ 0 then car :: cdr else nthTail cdr (idx - 1)

/-- `every` with two lists. -/
def every (pred : α → β → Bool) : List α → List β → Bool
  | car₁ :: l₁, car₂ :: l₂ => if !pred car₁ car₂ then false else every pred l₁ l₂
  | _, _ => true

section Equal

variable (equal : α → α → Bool)

/-- The loop of `index_of`. -/
def indexFrom (element : α) : List α → ℤ → ℤ
  | [], _ => -1
  | car :: cdr, cnt => if equal element car then cnt else indexFrom element cdr (cnt + 1)

def indexOf (element : α) (lst : List α) : ℤ := indexFrom equal element lst 0

def member (element : α) : List α → List α
  | [] => []
  | car :: cdr => if equal element car then car :: cdr else member element cdr

/-- The loop of `duplicates`. -/
def duplicatesLoop : List α → List α → List α
  | [], dupes => dupes
  | car :: cdr, dupes =>
    duplicatesLoop cdr (if !(member equal car cdr).isEmpty then car :: dupes else dupes)

def duplicates (lst : List α) : List α := reverse (duplicatesLoop equal lst [])

/-- The loop of `unique`. -/
def uniqueLoop : List α → List α → List α
  | [], unq => unq
  | car :: cdr, unq => uniqueLoop cdr (if (member equal car cdr).isEmpty then car :: unq else unq)

def unique (lst : List α) : List α := reverse (uniqueLoop equal lst [])

def intersection (l₁ l₂ : List α) : List α :=
  duplicates equal (append (unique equal l₁) (unique equal l₂))

def union (l₁ l₂ : List α) : List α := unique equal (append l₁ l₂)

end Equal

/-- The loop of `take`: what is left of `lst`, the elements taken so far, their number. -/
def takeLoop (n : ℤ) : List α → List α → ℤ → List α
  | [], newlst, _ => newlst
  | car :: oldlst, newlst, count =>
    if count < n then takeLoop n oldlst (car :: newlst) (count + 1) else newlst

def take (lst : List α) (n : ℤ) : List α := reverse (takeLoop n lst [] 0)

def drop (lst : List α) (n : ℤ) : List α := copy (nthTail lst n)

def rotate (l : List α) (n : ℤ) : List α :=
  if n < 0 then append (drop l (-1 * n)) (take l (-1 * n))
  else append (drop l (length l - n)) (take l (length l - n))

/-! ## Copies and parts -/

@[simp] theorem length_eq (lst : List α) : length lst = lst.length := by
  induction lst with
  | nil => rfl
  | cons car cdr ih =>
    rw [length, ih, List.length_cons]
    omega

theorem reverseInline_eq (old new : List α) : reverseInline old new = old.reverse ++ new := by
  induction old generalizing new with
  | nil => rfl
  | cons car old ih =>
    rw [reverseInline, ih, List.reverse_cons, List.append_assoc]
    rfl

@[simp] theorem reverse_eq (lst : List α) : reverse lst = lst.reverse := by
  rw [reverse, reverseInline_eq, List.append_nil]

theorem copyLoop_eq (orig cpy : List α) : copyLoop orig cpy = orig.reverse ++ cpy := by
  induction orig generalizing cpy with
  | nil => rfl
  | cons car orig ih =>
    rw [copyLoop, ih, List.reverse_cons, List.append_assoc]
    rfl

@[simp] theorem copy_eq (lst : List α) : copy lst = lst := by
  rw [copy, copyLoop_eq, List.append_nil, reverse_eq, List.reverse_reverse]

theorem appendLoop_eq (a b : List α) : appendLoop a b = a.reverse ++ b := by
  induction a generalizing b with
  | nil => rfl
  | cons car a ih =>
    rw [appendLoop, ih, List.reverse_cons, List.append_assoc]
    rfl

@[simp] theorem append_eq (as bs : List α) : append as bs = as ++ bs := by
  rw [append, reverse_eq, appendLoop_eq, List.reverse_reverse]

@[simp] theorem nthTail_eq (lst : List α) (idx : ℤ) : nthTail lst idx = lst.drop idx.toNat := by
  induction lst generalizing idx with
  | nil => rw [nthTail, List.drop_nil]
  | cons car cdr ih =>
    rw [nthTail]
    by_cases hidx : idx ≤ 0
    · rw [if_pos hidx, Int.toNat_of_nonpos hidx, List.drop_zero]
    · have hsucc : idx.toNat = (idx - 1).toNat + 1 := by omega
      rw [if_neg hidx, ih, hsucc, List.drop_succ_cons]

theorem takeLoop_eq (n : ℤ) (oldlst newlst : List α) (count : ℤ) :
    takeLoop n oldlst newlst count = (oldlst.take (n - count).toNat).reverse ++ newlst := by
  induction oldlst generalizing newlst count with
  | nil => rw [takeLoop, List.take_nil, List.reverse_nil, List.nil_append]
  | cons car oldlst ih =>
    rw [takeLoop]
    by_cases hcount : count < n
    · have hsucc : (n - count).toNat = (n - (count + 1)).toNat + 1 := by omega
      rw [if_pos hcount, ih, hsucc, List.take_succ_cons, List.reverse_cons, List.append_assoc]
      rfl
    · have hzero : (n - count).toNat = 0 := by omega
      rw [if_neg hcount, hzero, List.take_zero, List.reverse_nil, List.nil_append]

@[simp] theorem take_eq (lst : List α) (n : ℤ) : take lst n = lst.take n.toNat := by
  rw [take, takeLoop_eq, List.append_nil, reverse_eq, List.reverse_reverse, Int.sub_zero]

@[simp] theorem drop_eq (lst : List α) (n : ℤ) : drop lst n = lst.drop n.toNat := by
  rw [drop, nthTail_eq, copy_eq]

/-! ## Rotation -/

/-- The number of positions by which `rotate` really moves: none beyond the length. -/
def turn (l : List α) (n : ℤ) : ℤ := if |n| ≤ l.length then n else 0

theorem movedRight_drop_take (l : List α) (k : ℕ) :
    MovedRight l (l.length - k : ℕ) (l.drop k ++ l.take k) := by
  have hmoved := movedRight_append (l.take k) (l.drop k)
  rwa [List.take_append_drop, List.length_drop] at hmoved

/-- A shift by the length is none. -/
theorem MovedRight.of_sub_length {l l' : List α} {n : ℤ} (h : MovedRight l (n + l.length) l') :
    MovedRight l n l' := by
  refine ⟨h.1, fun i hi => ?_⟩
  rw [← h.2 i hi, ← Int.add_assoc, Int.add_emod_right]

theorem rotate_turn (l : List α) (n : ℤ) : MovedRight l (turn l n) (rotate l n) := by
  unfold turn rotate
  simp only [append_eq, drop_eq, take_eq, length_eq]
  by_cases hneg : n < 0
  · rw [if_pos hneg]
    by_cases hle : |n| ≤ l.length
    · rw [if_pos hle]
      rw [abs_of_neg hneg] at hle
      apply MovedRight.of_sub_length
      have hmoved := movedRight_drop_take l (-1 * n).toNat
      rwa [show ((l.length - (-1 * n).toNat : ℕ) : ℤ) = n + l.length by omega] at hmoved
    · rw [if_neg hle]
      rw [abs_of_neg hneg] at hle
      rw [List.drop_of_length_le (by omega), List.take_of_length_le (by omega), List.nil_append]
      exact MovedRight.refl l
  · rw [if_neg hneg]
    by_cases hle : |n| ≤ l.length
    · rw [if_pos hle]
      rw [abs_of_nonneg (by omega)] at hle
      have hmoved := movedRight_drop_take l (l.length - n).toNat
      rwa [show ((l.length - (l.length - n).toNat : ℕ) : ℤ) = n by omega] at hmoved
    · rw [if_neg hle]
      rw [abs_of_nonneg (by omega)] at hle
      rw [show (l.length - n).toNat = 0 by omega, List.drop_zero, List.take_zero, List.append_nil]
      exact MovedRight.refl l

theorem length_rotate (l : List α) (n : ℤ) : (rotate l n).length = l.length := (rotate_turn l n).1

theorem rotate_perm (l : List α) (n : ℤ) : (rotate l n).Perm l := by
  unfold rotate
  simp only [append_eq, drop_eq, take_eq]
  split
  · exact List.perm_append_comm.trans (by rw [List.take_append_drop])
  · exact List.perm_append_comm.trans (by rw [List.take_append_drop])

theorem movedRight_rotate_iff (l : List α) (n : ℤ) :
    MovedRight l n (rotate l n) ↔ |n| ≤ l.length ∨ MovedRight l n l := by
  have hturn := rotate_turn l n
  unfold turn at hturn
  by_cases hle : |n| ≤ l.length
  · rw [if_pos hle] at hturn
    exact ⟨fun _ => Or.inl hle, fun _ => hturn⟩
  · rw [if_neg hle] at hturn
    rw [hturn.unique (MovedRight.refl l)]
    exact ⟨Or.inr, fun h => h.resolve_left hle⟩

theorem rotate_rotate_iff (l : List α) (a b : ℤ) :
    rotate (rotate l a) b = rotate l (a + b) ↔
      MovedRight l (turn l a + turn l b - turn l (a + b)) l := by
  have hsecond := rotate_turn (rotate l a) b
  have hsame : turn (rotate l a) b = turn l b := by rw [turn, turn, length_rotate]
  rw [hsame] at hsecond
  exact ((rotate_turn l a).trans hsecond).eq_iff (rotate_turn l (a + b))

/-- `take` and `drop` cut a list in two, and `rotate` permutes it. It moves every element cyclically
exactly when the distance is at most the length, or such a shift leaves the list as it is. -/
theorem rotate_cyclic_iff (l : List α) (a b : ℤ) :
    ((∀ n, append (take l n) (drop l n) = l) ∧ (∀ n, (rotate l n).Perm l) ∧
      MovedRight l a (rotate l a) ∧ rotate (rotate l a) b = rotate l (a + b)) ↔
    (|a| ≤ l.length ∨ MovedRight l a l) ∧
      MovedRight l (turn l a + turn l b - turn l (a + b)) l := by
  rw [movedRight_rotate_iff, rotate_rotate_iff]
  constructor
  · intro h
    exact h.2.2
  · intro h
    refine ⟨fun n => ?_, rotate_perm l, h⟩
    rw [append_eq, take_eq, drop_eq, List.take_append_drop]

theorem not_movedRight_rotate_four :
    ¬ ∀ (l : List ℤ) (n : ℤ), MovedRight l n (rotate l n) := by
  intro h
  have hzero := (h [1, 2, 3] 4).2 0 (by decide)
  revert hzero
  decide

/-! ## Lists as sets -/

section Sets

variable {equal : α → α → Bool}

/-- `equal` is equality among the elements of a list. -/
def ExactOn (equal : α → α → Bool) (lst : List α) : Prop :=
  ∀ a ∈ lst, ∀ b ∈ lst, (equal a b = true ↔ a = b)

theorem ExactOn.of_subset {lst lst' : List α} (h : ExactOn equal lst') (hsub : lst ⊆ lst') :
    ExactOn equal lst :=
  fun a ha b hb => h a (hsub ha) b (hsub hb)

theorem ExactOn.cdr {car : α} {cdr : List α} (h : ExactOn equal (car :: cdr)) :
    ExactOn equal cdr :=
  h.of_subset (List.subset_cons_self car cdr)

theorem member_isEmpty {element : α} {lst : List α}
    (hequal : ∀ b ∈ lst, (equal element b = true ↔ element = b)) :
    (member equal element lst).isEmpty = true ↔ element ∉ lst := by
  induction lst with
  | nil => simp [member]
  | cons car cdr ih =>
    have hcar := hequal car List.mem_cons_self
    rw [member, List.mem_cons, not_or]
    by_cases heq : element = car
    · rw [if_pos (hcar.mpr heq)]
      exact ⟨fun h => absurd h Bool.false_ne_true, fun h => absurd heq h.1⟩
    · rw [if_neg (fun h => heq (hcar.mp h)), ih fun b hb => hequal b (List.mem_cons_of_mem car hb)]
      exact ⟨fun h => ⟨heq, h⟩, fun h => h.2⟩

theorem member_eq [DecidableEq α] {element : α} {lst : List α}
    (hequal : ∀ b ∈ lst, (equal element b = true ↔ element = b)) :
    member equal element lst = lst.dropWhile fun y => decide (element ≠ y) := by
  induction lst with
  | nil => rfl
  | cons car cdr ih =>
    have hcar := hequal car List.mem_cons_self
    rw [member, List.dropWhile_cons]
    by_cases heq : element = car
    · rw [if_pos (hcar.mpr heq), if_neg (by simp [heq])]
    · rw [if_neg (fun h => heq (hcar.mp h)), if_pos (by simp [heq]),
        ih fun b hb => hequal b (List.mem_cons_of_mem car hb)]

theorem indexFrom_eq [DecidableEq α] {element : α} {lst : List α}
    (hequal : ∀ b ∈ lst, (equal element b = true ↔ element = b)) (cnt : ℤ) :
    indexFrom equal element lst cnt =
      if element ∈ lst then cnt + (lst.idxOf element : ℤ) else -1 := by
  induction lst generalizing cnt with
  | nil => rfl
  | cons car cdr ih =>
    have hcar := hequal car List.mem_cons_self
    rw [indexFrom]
    by_cases heq : element = car
    · rw [if_pos (hcar.mpr heq), if_pos (by simp [heq]), heq, List.idxOf_cons_self]
      simp
    · rw [if_neg (fun h => heq (hcar.mp h)), ih fun b hb => hequal b (List.mem_cons_of_mem car hb),
        List.idxOf_cons_ne cdr (Ne.symm heq)]
      simp only [List.mem_cons, heq, false_or, Nat.succ_eq_add_one, Int.natCast_add,
        Int.natCast_one]
      by_cases hmem : element ∈ cdr
      · rw [if_pos hmem, if_pos hmem]
        omega
      · rw [if_neg hmem, if_neg hmem]

theorem indexOf_eq [DecidableEq α] {element : α} {lst : List α}
    (hequal : ∀ b ∈ lst, (equal element b = true ↔ element = b)) :
    indexOf equal element lst = if element ∈ lst then (lst.idxOf element : ℤ) else -1 := by
  rw [indexOf, indexFrom_eq hequal, Int.zero_add]

theorem ExactOn.member_isEmpty {car : α} {cdr : List α} (h : ExactOn equal (car :: cdr)) :
    (member equal car cdr).isEmpty = true ↔ car ∉ cdr :=
  AdtLists.member_isEmpty fun b hb => h car List.mem_cons_self b (List.mem_cons_of_mem car hb)

variable [DecidableEq α]

theorem uniqueLoop_eq {lst : List α} (hequal : ExactOn equal lst) (unq : List α) :
    uniqueLoop equal lst unq = lst.dedup.reverse ++ unq := by
  induction lst generalizing unq with
  | nil => rfl
  | cons car cdr ih =>
    rw [uniqueLoop, ih hequal.cdr]
    by_cases hmem : car ∈ cdr
    · rw [if_neg (fun h => hequal.member_isEmpty.mp h hmem), List.dedup_cons_of_mem hmem]
    · rw [if_pos (hequal.member_isEmpty.mpr hmem), List.dedup_cons_of_notMem hmem,
        List.reverse_cons, List.append_assoc]
      rfl

theorem unique_eq {lst : List α} (hequal : ExactOn equal lst) : unique equal lst = lst.dedup := by
  rw [unique, uniqueLoop_eq hequal, List.append_nil, reverse_eq, List.reverse_reverse]

theorem count_unique {lst : List α} (hequal : ExactOn equal lst) (v : α) :
    (unique equal lst).count v = if v ∈ lst then 1 else 0 := by
  rw [unique_eq hequal, List.count_dedup]

/-- Every element is counted once less than in the rest of the list. -/
theorem count_duplicatesLoop {lst : List α} (hequal : ExactOn equal lst) (v : α)
    (dupes : List α) :
    (duplicatesLoop equal lst dupes).count v = (lst.count v - 1) + dupes.count v := by
  induction lst generalizing dupes with
  | nil => simp [duplicatesLoop]
  | cons car cdr ih =>
    rw [duplicatesLoop, ih hequal.cdr]
    by_cases hmem : car ∈ cdr
    · have hfound : (!(member equal car cdr).isEmpty) = true := by
        rw [Bool.not_eq_true']
        exact Bool.eq_false_iff.mpr fun h => hequal.member_isEmpty.mp h hmem
      rw [if_pos hfound, List.count_cons, List.count_cons]
      by_cases hv : car = v
      · have hpos := List.count_pos_iff.mpr (hv ▸ hmem)
        simp only [hv, beq_self_eq_true, if_true]
        omega
      · simp only [beq_iff_eq, hv, if_false, Nat.add_zero]
    · have hfound : ¬ (!(member equal car cdr).isEmpty) = true := by
        rw [hequal.member_isEmpty.mpr hmem]
        exact Bool.false_ne_true
      rw [if_neg hfound, List.count_cons]
      by_cases hv : car = v
      · have hzero := List.count_eq_zero.mpr (hv ▸ hmem)
        simp only [hv, beq_self_eq_true, if_true]
        omega
      · simp only [beq_iff_eq, hv, if_false, Nat.add_zero]

theorem count_duplicates {lst : List α} (hequal : ExactOn equal lst) (v : α) :
    (duplicates equal lst).count v = lst.count v - 1 := by
  rw [duplicates, reverse_eq, List.count_reverse, count_duplicatesLoop hequal, List.count_nil,
    Nat.add_zero]

theorem count_union {l₁ l₂ : List α} (hequal : ExactOn equal (l₁ ++ l₂)) (v : α) :
    (union equal l₁ l₂).count v = if v ∈ l₁ ∨ v ∈ l₂ then 1 else 0 := by
  rw [union, append_eq, count_unique hequal]
  simp only [List.mem_append]

theorem count_intersection {l₁ l₂ : List α} (hequal : ExactOn equal (l₁ ++ l₂)) (v : α) :
    (intersection equal l₁ l₂).count v = if v ∈ l₁ ∧ v ∈ l₂ then 1 else 0 := by
  have h₁ := hequal.of_subset (List.subset_append_left l₁ l₂)
  have h₂ := hequal.of_subset (List.subset_append_right l₁ l₂)
  have hboth : ExactOn equal (l₁.dedup ++ l₂.dedup) := hequal.of_subset
    (List.append_subset.mpr
      ⟨List.Subset.trans (List.dedup_subset l₁) (List.subset_append_left l₁ l₂),
        List.Subset.trans (List.dedup_subset l₂) (List.subset_append_right l₁ l₂)⟩)
  rw [intersection, append_eq, unique_eq h₁, unique_eq h₂, count_duplicates hboth,
    List.count_append, List.count_dedup, List.count_dedup]
  by_cases hm₁ : v ∈ l₁ <;> by_cases hm₂ : v ∈ l₂ <;> simp [hm₁, hm₂]

/-- What the set functions return for two lists: `unique` keeps the last occurrence of every
element, in order; `duplicates` keeps all occurrences of an element but one. -/
theorem lists_as_sets (hequal : ∀ a b, equal a b = true ↔ a = b) (l₁ l₂ : List α) :
    (unique equal l₁ = l₁.dedup ∧ ∀ v, (unique equal l₁).count v = if v ∈ l₁ then 1 else 0) ∧
    (∀ v, (union equal l₁ l₂).count v = if v ∈ l₁ ∨ v ∈ l₂ then 1 else 0) ∧
    (∀ v, (intersection equal l₁ l₂).count v = if v ∈ l₁ ∧ v ∈ l₂ then 1 else 0) ∧
    ∀ v, (duplicates equal l₁).count v = l₁.count v - 1 := by
  have hexact : ∀ lst : List α, ExactOn equal lst := fun _ a _ b _ => hequal a b
  exact ⟨⟨unique_eq (hexact l₁), count_unique (hexact l₁)⟩, count_union (hexact (l₁ ++ l₂)),
    count_intersection (hexact (l₁ ++ l₂)), count_duplicates (hexact l₁)⟩

theorem lists_as_sets_ints :
    (∀ a b : ℤ, decide (a = b) = true ↔ a = b) ∧
    ∀ v, (intersection (fun a b : ℤ => decide (a = b)) [1, 2, 3] [1, 4, 2]).count v =
      if v ∈ [1, 2, 3] ∧ v ∈ [1, 4, 2] then 1 else 0 :=
  ⟨fun _ _ => decide_eq_true_iff,
    (lists_as_sets (fun _ _ => decide_eq_true_iff) [1, 2, 3] [1, 4, 2]).2.2.1⟩

theorem duplicates_thrice :
    (∀ a b : ℤ, decide (a = b) = true ↔ a = b) ∧
    ¬ ∀ v, 1 < [1, 1, 1].count v →
      (duplicates (fun a b : ℤ => decide (a = b)) [1, 1, 1]).count v = 1 := by
  refine ⟨fun _ _ => decide_eq_true_iff, fun h => ?_⟩
  have hone := h 1 (by decide)
  revert hone
  decide

end Sets

end Extempore.AdtLists
