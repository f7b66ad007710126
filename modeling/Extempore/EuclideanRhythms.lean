import Extempore.GapWords

/-!
# Euclidean rhythms

`euclid` of `pattern-language.xtm` appends the groups of one list to those of another one again and
again, until one list of groups is left. With the default values, the groups of both lists are
words whose gaps differ by one at most.
-/

namespace Extempore.EuclideanRhythms

open GapWords

/-- The default values `1` and `_`. -/
inductive Cell where
  | one
  | zero
  deriving DecidableEq, Repr

open Cell

abbrev Group := List Cell

/-- What the stop test compares: a value, or a list of groups. -/
inductive Item where
  | value (c : Cell)
  | groups (gs : List Group)
  deriving DecidableEq

/-- The loop of `repeat`, for `i` above 0. -/
def repeatLoop {α : Type} : ℕ → α → List α → List α
  | 0, _, out => out
  | i + 1, val, out => repeatLoop i val (val :: out)

def repeatVal {α : Type} (n : ℤ) (val : α) : List α :=
  repeatLoop n.toNat val []

/-- The loop of `euclid-distribute-zeros`. -/
def distributeLoop (out : List Group) : List Group → List Group → List (List Group)
  | d :: dst, u :: undst => distributeLoop ((d ++ u) :: out) dst undst
  | dst, undst =>
    [out.reverse] ++ (if dst = [] then [] else [dst]) ++ (if undst = [] then [] else [undst])

/-- `euclid-distribute-zeros` of the lists `dst` and `undst`. -/
def euclidDistributeZeros (dst undst : List Group) : List (List Group) :=
  distributeLoop [] dst undst

/-- The loop of `euclid`, which goes on with two lists of groups. -/
def euclidLoop : ℕ → List (List Group) → Option (List Cell)
  | 0, _ => none
  | _ + 1, [] => none
  | _ + 1, [dst] => some dst.flatten
  | fuel + 1, dst :: undst :: others =>
    if Item.groups undst ∈ [Item.value zero] then some (dst :: undst :: others).flatten.flatten
    else euclidLoop fuel (euclidDistributeZeros dst undst)

def euclid (fuel : ℕ) (k n : ℤ) : Option (List Cell) :=
  if k ≤ 0 then some (repeatVal n zero)
  else if k ≥ n then some (repeatVal n one)
  else euclidLoop fuel (euclidDistributeZeros (repeatVal k [one]) (repeatVal (n - k) [zero]))

/-- The result is as long as it should be, has the ones it should have and begins with one, and the
cyclic distances between the ones are the mean distance, rounded down or up. -/
structure MaximallyEven (k n : ℤ) (l : List Cell) : Prop where
  length : (l.length : ℤ) = n
  count : (l.count one : ℤ) = min (max k 0) n
  first : 0 < k → l.head? = some one
  even : 0 < k → k ≤ n → ∀ i : ℕ, l[i]? = some one → ∃ d : ℕ, NextMark one l i d ∧
    ((d : ℤ) = ⌊(n : ℚ) / k⌋ ∨ (d : ℤ) = ⌈(n : ℚ) / k⌉)

theorem repeatLoop_eq {α : Type} (i : ℕ) (val : α) (out : List α) :
    repeatLoop i val out = List.replicate i val ++ out := by
  induction i generalizing out with
  | zero => rfl
  | succ i ih =>
    rw [repeatLoop, ih, List.replicate_succ', List.append_assoc]
    rfl

theorem repeatVal_eq {α : Type} (n : ℤ) (val : α) :
    repeatVal n val = List.replicate n.toNat val := by
  rw [repeatVal, repeatLoop_eq, List.append_nil]

/-! ## One distribution -/

variable {X Y : Group} {a b : ℕ} {l : List Cell} {k n : ℤ}

theorem distributeLoop_replicate (a b : ℕ) (out : List Group) :
    distributeLoop out (List.replicate a X) (List.replicate b Y) =
      [out.reverse ++ List.replicate (min a b) (X ++ Y)] ++
        (if a ≤ b then [] else [List.replicate (a - b) X]) ++
        (if b ≤ a then [] else [List.replicate (b - a) Y]) := by
  induction a generalizing b out with
  | zero =>
    rw [List.replicate_zero, Nat.zero_min, List.replicate_zero, List.append_nil,
      if_pos (Nat.zero_le b), Nat.sub_zero]
    cases b with
    | zero => rfl
    | succ b =>
      rw [List.replicate_succ, distributeLoop, if_pos rfl, if_neg (List.cons_ne_nil _ _),
        if_neg (Nat.not_succ_le_zero b)]
      rintro d dst u undst hd
      cases hd
  | succ a ih =>
    cases b with
    | zero =>
      rw [List.replicate_zero, List.replicate_succ, distributeLoop, if_neg (List.cons_ne_nil _ _),
        if_pos rfl, Nat.min_zero, List.replicate_zero, List.append_nil,
        if_neg (Nat.not_succ_le_zero a), if_pos (Nat.zero_le _), Nat.sub_zero, List.replicate_succ,
        List.append_nil, List.append_nil]
      rintro d dst u undst - hu
      cases hu
    | succ b =>
      rw [List.replicate_succ, List.replicate_succ, distributeLoop, ih, Nat.succ_sub_succ,
        Nat.succ_sub_succ, Nat.succ_min_succ, List.reverse_cons, List.append_assoc,
        List.replicate_succ]
      simp only [Nat.succ_le_succ_iff, List.append_assoc, List.cons_append, List.nil_append]

theorem distribute_eq (h : a = b) :
    euclidDistributeZeros (List.replicate a X) (List.replicate b Y) =
      [List.replicate a (X ++ Y)] := by
  subst h
  rw [euclidDistributeZeros, distributeLoop_replicate, if_pos (le_refl a), if_pos (le_refl a),
    Nat.min_self]
  rfl

theorem distribute_gt (h : b < a) :
    euclidDistributeZeros (List.replicate a X) (List.replicate b Y) =
      [List.replicate b (X ++ Y), List.replicate (a - b) X] := by
  rw [euclidDistributeZeros, distributeLoop_replicate, if_neg (not_le.mpr h), if_pos h.le,
    Nat.min_eq_right h.le]
  rfl

theorem distribute_lt (h : a < b) :
    euclidDistributeZeros (List.replicate a X) (List.replicate b Y) =
      [List.replicate a (X ++ Y), List.replicate (b - a) Y] := by
  rw [euclidDistributeZeros, distributeLoop_replicate, if_pos h.le, if_neg (not_le.mpr h),
    Nat.min_eq_left h.le]
  rfl

theorem euclidLoop_two (fuel : ℕ) (dst undst : List Group) :
    euclidLoop (fuel + 1) [dst, undst] = euclidLoop fuel (euclidDistributeZeros dst undst) := by
  rw [euclidLoop, if_neg]
  intro hmem
  cases List.mem_singleton.mp hmem

/-! ## The two kinds of groups -/

/-- A word of ones with gaps of `q` or `q + 1` zeros. -/
def EvenWord (q : ℕ) (X : Group) : Prop :=
  ∃ gaps, X = word one zero gaps ∧ gaps ≠ [] ∧ ∀ g ∈ gaps, q ≤ g ∧ g ≤ q + 1

/-- The groups of both lists: at first the zeros are left over, and then whole words are. -/
inductive Regular : Group → Group → Prop where
  | zeros (q : ℕ) : Regular (word one zero [q]) [zero]
  | words {q : ℕ} {X Y : Group} (hX : EvenWord q X) (hY : EvenWord q Y) : Regular X Y

theorem EvenWord.append {q : ℕ} (hX : EvenWord q X) (hY : EvenWord q Y) : EvenWord q (X ++ Y) := by
  rcases hX with ⟨gaps, rfl, hne, hgaps⟩
  rcases hY with ⟨gaps', rfl, -, hgaps'⟩
  refine ⟨gaps ++ gaps', (word_append gaps gaps').symm, List.append_ne_nil_of_left_ne_nil hne _, ?_⟩
  intro g hg
  rcases List.mem_append.mp hg with hg | hg
  · exact hgaps g hg
  · exact hgaps' g hg

theorem evenWord_single (q g : ℕ) (hg : q ≤ g ∧ g ≤ q + 1) : EvenWord q (word one zero [g]) :=
  ⟨[g], rfl, List.cons_ne_nil _ _, fun _ hmem => List.mem_singleton.mp hmem ▸ hg⟩

theorem word_snoc_zero (q : ℕ) : word one zero [q] ++ [zero] = word one zero [q + 1] := by
  rw [word, word, word, word, List.append_nil, List.append_nil, List.replicate_succ',
    List.cons_append]

theorem Regular.left (h : Regular X Y) : Regular (X ++ Y) X := by
  cases h with
  | zeros q =>
    rw [word_snoc_zero]
    exact .words (evenWord_single q (q + 1) (by omega)) (evenWord_single q q (by omega))
  | words hX hY => exact .words (hX.append hY) hX

theorem Regular.right (h : Regular X Y) : Regular (X ++ Y) Y := by
  cases h with
  | zeros q =>
    rw [word_snoc_zero]
    exact .zeros (q + 1)
  | words hX hY => exact .words (hX.append hY) hY

theorem Regular.evenWord (h : Regular X Y) : ∃ q, EvenWord q (X ++ Y) := by
  cases h with
  | zeros q =>
    rw [word_snoc_zero]
    exact ⟨q, evenWord_single q (q + 1) (by omega)⟩
  | words hX hY => exact ⟨_, hX.append hY⟩

theorem evenWord_replicate {q : ℕ} (hX : EvenWord q X) (ha : 0 < a) :
    EvenWord q (List.replicate a X).flatten := by
  induction a with
  | zero => cases ha
  | succ a ih =>
    rw [List.replicate_succ, List.flatten_cons]
    cases a with
    | zero =>
      rw [List.replicate_zero, List.flatten_nil, List.append_nil]
      exact hX
    | succ a => exact hX.append (ih (Nat.succ_pos a))

/-- The run of the loop, by induction on the number of groups: it ends with an even word, which
has all values of the groups. -/
theorem euclidLoop_run (h : Regular X Y) (ha : 0 < a) (hb : 0 < b) :
    ∃ fuel l q, euclidLoop fuel (euclidDistributeZeros (List.replicate a X) (List.replicate b Y)) =
      some l ∧ EvenWord q l ∧ l.length = a * X.length + b * Y.length ∧
        l.count one = a * X.count one + b * Y.count one := by
  induction hn : a + b using Nat.strong_induction_on generalizing a b X Y with
  | _ n ih =>
    rcases Nat.lt_trichotomy a b with hlt | heq | hgt
    · rcases ih (a + (b - a)) (by omega) h.right ha (by omega) rfl with
        ⟨fuel, l, q, hrun, heven, hlength, hcount⟩
      refine ⟨fuel + 1, l, q, ?_, heven, ?_, ?_⟩
      · rw [distribute_lt hlt, euclidLoop_two, hrun]
      · rw [hlength, List.length_append]
        obtain ⟨c, rfl⟩ := Nat.exists_eq_add_of_lt hlt
        rw [Nat.add_assoc, Nat.add_sub_cancel_left]
        ring
      · rw [hcount, List.count_append]
        obtain ⟨c, rfl⟩ := Nat.exists_eq_add_of_lt hlt
        rw [Nat.add_assoc, Nat.add_sub_cancel_left]
        ring
    · rcases h.evenWord with ⟨q, hword⟩
      refine ⟨1, _, q, ?_, evenWord_replicate hword ha, ?_, ?_⟩
      · rw [distribute_eq heq]
        rfl
      · rw [List.length_flatten, List.map_replicate, List.sum_replicate_nat, List.length_append, heq]
        ring
      · rw [List.count_flatten, List.map_replicate, List.sum_replicate_nat, List.count_append, heq]
        ring
    · rcases ih (b + (a - b)) (by omega) h.left hb (by omega) rfl with
        ⟨fuel, l, q, hrun, heven, hlength, hcount⟩
      refine ⟨fuel + 1, l, q, ?_, heven, ?_, ?_⟩
      · rw [distribute_gt hgt, euclidLoop_two, hrun]
      · rw [hlength, List.length_append]
        obtain ⟨c, rfl⟩ := Nat.exists_eq_add_of_lt hgt
        rw [Nat.add_assoc, Nat.add_sub_cancel_left]
        ring
      · rw [hcount, List.count_append]
        obtain ⟨c, rfl⟩ := Nat.exists_eq_add_of_lt hgt
        rw [Nat.add_assoc, Nat.add_sub_cancel_left]
        ring

/-! ## Rhythms -/

/-- An even word is a maximally even rhythm. -/
theorem EvenWord.maximallyEven {q : ℕ} (h : EvenWord q l) (hlength : (l.length : ℤ) = n)
    (hcount : (l.count one : ℤ) = k) (hkn : k ≤ n) : MaximallyEven k n l := by
  rcases h with ⟨gaps, rfl, hne, hgaps⟩
  have hk : (gaps.length : ℤ) = k := by
    rw [← hcount, count_word (by decide)]
  refine ⟨hlength, ?_, fun _ => ?_, fun _ _ i hi => ?_⟩
  · rw [hcount]
    omega
  · rw [List.head?_eq_getElem?]
    exact getElem?_zero_word hne
  · rcases exists_split (by decide) hi with ⟨before, g, behind, rfl, rfl⟩
    refine ⟨g + 1, nextMark_word (by decide) before behind g, ?_⟩
    have hmem : g ∈ before ++ g :: behind := List.mem_append_right _ List.mem_cons_self
    have heven := floor_or_ceil hgaps hmem
    rw [← @length_word _ one zero] at heven
    rw [← hlength, ← hk]
    exact heven

theorem maximallyEven_zeros (hk : k ≤ 0) (hn : 1 ≤ n) :
    MaximallyEven k n (List.replicate n.toNat zero) := by
  refine ⟨?_, ?_, fun hpos => absurd hpos (not_lt.mpr hk), fun hpos => absurd hpos (not_lt.mpr hk)⟩
  · rw [List.length_replicate]
    omega
  · rw [List.count_replicate, if_neg (by decide)]
    omega

theorem word_replicate_zero (m : ℕ) :
    word one zero (List.replicate m 0) = List.replicate m one := by
  induction m with
  | zero => rfl
  | succ m ih =>
    rw [List.replicate_succ, word, ih, List.replicate_succ]
    rfl

theorem maximallyEven_ones (hk : n ≤ k) (hn : 1 ≤ n) :
    MaximallyEven k n (List.replicate n.toNat one) := by
  have heven : EvenWord 0 (List.replicate n.toNat one) := by
    refine ⟨List.replicate n.toNat 0, (word_replicate_zero _).symm, ?_, fun g hg => ?_⟩
    · rw [ne_eq, List.replicate_eq_nil_iff]
      omega
    · rw [List.eq_of_mem_replicate hg]
      omega
  have hlength : ((List.replicate n.toNat one).length : ℤ) = n := by
    rw [List.length_replicate]
    omega
  have hcount : ((List.replicate n.toNat one).count one : ℤ) = n := by
    rw [List.count_replicate_self]
    omega
  have hall := heven.maximallyEven hlength hcount (le_refl n)
  refine ⟨hlength, ?_, fun _ => hall.first (by omega), fun hpos hle => ?_⟩
  · rw [hcount]
    omega
  · rw [le_antisymm hle hk]
    exact hall.even (by omega) (le_refl n)

/-- Euclidean rhythms are maximally even. -/
theorem euclid_maximallyEven (k n : ℤ) (hn : 1 ≤ n) :
    ∃ fuel l, euclid fuel k n = some l ∧ MaximallyEven k n l := by
  by_cases hzero : k ≤ 0
  · refine ⟨0, _, if_pos hzero, ?_⟩
    rw [repeatVal_eq]
    exact maximallyEven_zeros hzero hn
  · by_cases hfull : k ≥ n
    · refine ⟨0, List.replicate n.toNat one, ?_, maximallyEven_ones hfull hn⟩
      rw [euclid, if_neg hzero, if_pos hfull, repeatVal_eq]
    · have hstart : Regular [one] [zero] := .zeros 0
      rcases euclidLoop_run hstart (a := k.toNat) (b := (n - k).toNat) (by omega) (by omega) with
        ⟨fuel, l, q, hrun, heven, hlength, hcount⟩
      refine ⟨fuel, l, ?_, heven.maximallyEven ?_ ?_ (by omega)⟩
      · rw [euclid, if_neg hzero, if_neg hfull, repeatVal_eq, repeatVal_eq]
        exact hrun
      · rw [hlength, List.length_singleton, List.length_singleton]
        omega
      · rw [hcount, List.count_singleton_self, List.count_singleton]
        simp
        omega

theorem euclid_three_eight : ∃ fuel l, euclid fuel 3 8 = some l ∧ MaximallyEven 3 8 l :=
  euclid_maximallyEven 3 8 (by decide)

example : euclid 4 3 8 = some [one, zero, zero, one, zero, one, zero, zero] := by decide

end Extempore.EuclideanRhythms
