import Extempore.EditDistances

/-!
# The distance of two texts

`levenshtein` keeps two rows of the table of distances between the beginnings of the texts. The
rows are allocated for the length of the first text but run over the second one, so that the
accesses stay inside only for texts of one length, or when the second text is empty.
-/

namespace Extempore.TextDistances

open EditDistances

section Loops

variable {σ : Type}

/-- `dotimes` from the index `i` on, for `n` times; `none` is an access outside of a buffer. -/
def dotimesFrom (body : ℕ → σ → Option σ) : ℕ → ℕ → σ → Option σ
  | 0, _, s => some s
  | n + 1, i, s => (body i s).bind (dotimesFrom body n (i + 1))

def dotimes (n : ℕ) (body : ℕ → σ → Option σ) (s : σ) : Option σ :=
  dotimesFrom body n 0 s

theorem dotimesFrom_some {body : ℕ → σ → Option σ} (I : ℕ → σ → Prop) {n i : ℕ} {s : σ}
    (hs : I i s)
    (hstep : ∀ j t, i ≤ j → j < i + n → I j t → ∃ t', body j t = some t' ∧ I (j + 1) t') :
    ∃ s', dotimesFrom body n i s = some s' ∧ I (i + n) s' := by
  induction n generalizing i s with
  | zero => exact ⟨s, rfl, hs⟩
  | succ n ih =>
    obtain ⟨t, ht, hI⟩ := hstep i s (Nat.le_refl i) (by omega) hs
    obtain ⟨s', hs', hI'⟩ := @ih (i + 1) t hI fun j u hj hlt => hstep j u (by omega) (by omega)
    refine ⟨s', ?_, ?_⟩
    · rw [dotimesFrom, ht]
      exact hs'
    · rw [show i + (n + 1) = i + 1 + n by omega]
      exact hI'

/-- A loop whose body keeps an invariant ends with it. -/
theorem dotimes_some {body : ℕ → σ → Option σ} (I : ℕ → σ → Prop) {n : ℕ} {s : σ} (hs : I 0 s)
    (hstep : ∀ i t, i < n → I i t → ∃ t', body i t = some t' ∧ I (i + 1) t') :
    ∃ s', dotimes n body s = some s' ∧ I n s' := by
  obtain ⟨s', hs', hI⟩ := @dotimesFrom_some σ body I n 0 s hs fun j t _ hlt => hstep j t (by omega)
  exact ⟨s', hs', by rwa [Nat.zero_add] at hI⟩

/-- A loop fails when its body fails at an index that it comes to. -/
theorem dotimesFrom_none {body : ℕ → σ → Option σ} (I : σ → Prop)
    (hstep : ∀ i t t', I t → body i t = some t' → I t') {k : ℕ}
    (hfail : ∀ t, I t → body k t = none) {n i : ℕ} {s : σ} (hs : I s) (hik : i ≤ k)
    (hk : k < i + n) : dotimesFrom body n i s = none := by
  induction n generalizing i s with
  | zero => omega
  | succ n ih =>
    rw [dotimesFrom]
    rcases hik.eq_or_lt with rfl | hlt
    · rw [hfail s hs]
      rfl
    · cases ht : body i s with
      | none => rfl
      | some t => exact ih (hstep i s t hs ht) hlt (by omega)

end Loops

variable {α : Type} [DecidableEq α]

/-- `pset!` of a buffer. -/
def pset (buf : List ℤ) (i : ℕ) (v : ℤ) : Option (List ℤ) :=
  if i < buf.length then some (buf.set i v) else none

def min3 (a b c : ℤ) : ℤ :=
  if a < b then if a < c then a else c else if b < c then b else c

/-- The body of the inner loop, which computes the cell behind the column `j`. -/
def cellStep (s1 s2 : List α) (i : ℕ) (prevRow : List ℤ) (j : ℕ) (row : List ℤ) :
    Option (List ℤ) := do
  let left ← row[j]?
  let above ← prevRow[j + 1]?
  let before ← prevRow[j]?
  let c ← s1[j]?
  let d ← s2[i]?
  pset row (j + 1) (min3 (left + 1) (1 + above) (before + if c = d then 0 else 1))

/-- The body of the outer loop, which computes a row and swaps the buffers `row` and
`prev_row`. -/
def rowStep (s1 s2 : List α) (i : ℕ) (rows : List ℤ × List ℤ) : Option (List ℤ × List ℤ) := do
  let (row, prevRow) := rows
  let row ← pset row 0 (i + 1)
  let row ← dotimes s2.length (cellStep s1 s2 i prevRow) row
  return (prevRow, row)

/-- `levenshtein`, with the buffers `row` and `prev_row` as they are allocated. -/
def levenshtein (row prevRow : List ℤ) (s1 s2 : List α) : Option ℤ := do
  let prevRow ← dotimes (s2.length + 1) (fun i buf => pset buf i i) prevRow
  let rows ← dotimes s1.length (rowStep s1 s2) (row, prevRow)
  rows.2[s2.length]?

/-- Two buffers of `s1len + 1` entries. -/
def Allocated (s1 : List α) (row prevRow : List ℤ) : Prop :=
  row.length = s1.length + 1 ∧ prevRow.length = s1.length + 1

theorem min3_eq (a b c : ℤ) : min3 a b c = min (min b a) c := by
  unfold min3
  omega

theorem pset_some {buf : List ℤ} {i : ℕ} (h : i < buf.length) (v : ℤ) :
    pset buf i v = some (buf.set i v) :=
  if_pos h

theorem length_of_pset {buf buf' : List ℤ} {i : ℕ} {v : ℤ} (h : pset buf i v = some buf') :
    buf'.length = buf.length := by
  unfold pset at h
  split at h
  · cases h
    exact List.length_set
  · cases h

/-- The entry of the table: the distance of the first `i` letters of `s2` and the first `j` of
`s1`. -/
def entry (s1 s2 : List α) (i j : ℕ) : ℕ :=
  distance (s2.take i).reverse (s1.take j).reverse

theorem entry_zero_left (s1 s2 : List α) {j : ℕ} (hj : j ≤ s1.length) : entry s1 s2 0 j = j := by
  rw [entry, List.take_zero, List.reverse_nil, distance_nil_left, List.length_reverse,
    List.length_take_of_le hj]

theorem entry_zero_right (s1 s2 : List α) {i : ℕ} (hi : i ≤ s2.length) : entry s1 s2 i 0 = i := by
  rw [entry, List.take_zero, List.reverse_nil, distance_nil_right, List.length_reverse,
    List.length_take_of_le hi]

omit [DecidableEq α] in
theorem reverse_take_succ {s : List α} {i : ℕ} {c : α} (h : s[i]? = some c) :
    (s.take (i + 1)).reverse = c :: (s.take i).reverse := by
  rw [List.take_add_one, h, Option.toList_some, List.reverse_append, List.reverse_singleton,
    List.singleton_append]

theorem entry_succ {s1 s2 : List α} {i j : ℕ} {c d : α} (hc : s1[j]? = some c)
    (hd : s2[i]? = some d) :
    entry s1 s2 (i + 1) (j + 1) =
      min (min (entry s1 s2 i (j + 1) + 1) (entry s1 s2 (i + 1) j + 1))
        (entry s1 s2 i j + if c = d then 0 else 1) := by
  simp only [entry, reverse_take_succ hc, reverse_take_succ hd]
  rw [distance]
  simp only [eq_comm]

theorem entry_full (s1 s2 : List α) : entry s1 s2 s2.length s1.length = distance s1 s2 := by
  rw [entry, List.take_length, List.take_length, distance_reverse, distance_symm]

section Rows

variable {s1 s2 : List α} {row prevRow : List ℤ}

/-- A buffer holds the row `i` of the table up to the column `n`. -/
structure Holds (s1 s2 : List α) (i n : ℕ) (buf : List ℤ) : Prop where
  length : buf.length = s1.length + 1
  get : ∀ j ≤ n, buf[j]? = some (entry s1 s2 i j : ℤ)

theorem Holds.pset {i n : ℕ} {buf : List ℤ} (h : Holds s1 s2 i n buf) (hn : n < s1.length) :
    ∃ buf', pset buf (n + 1) (entry s1 s2 i (n + 1)) = some buf' ∧
      Holds s1 s2 i (n + 1) buf' := by
  have hlt : n + 1 < buf.length := by
    rw [h.length]
    omega
  refine ⟨_, pset_some hlt _, ?_, fun j hj => ?_⟩
  · rw [List.length_set, h.length]
  · rcases hj.eq_or_lt with rfl | hj
    · rw [List.getElem?_set_self hlt]
    · rw [List.getElem?_set_ne (by omega), h.get j (by omega)]

theorem cellStep_spec {i j : ℕ} (hi : i < s2.length) (hj : j < s1.length)
    (hprev : Holds s1 s2 i s1.length prevRow) (h : Holds s1 s2 (i + 1) j row) :
    ∃ row', cellStep s1 s2 i prevRow j row = some row' ∧ Holds s1 s2 (i + 1) (j + 1) row' := by
  have hc : s1[j]? = some s1[j] := List.getElem?_eq_getElem hj
  have hd : s2[i]? = some s2[i] := List.getElem?_eq_getElem hi
  obtain ⟨row', hset, hrow'⟩ := h.pset hj
  refine ⟨row', ?_, hrow'⟩
  rw [← hset, cellStep, h.get j (Nat.le_refl j), hprev.get (j + 1) hj, hprev.get j hj.le, hc, hd]
  simp only [Option.bind_eq_bind, Option.bind_some, min3_eq, entry_succ hc hd]
  push_cast
  rw [Int.add_comm 1]

/-- One round of the outer loop computes the next row from the previous one. -/
theorem rowStep_spec {i : ℕ} (heq : s1.length = s2.length) (hi : i < s2.length)
    (hlength : row.length = s1.length + 1) (hprev : Holds s1 s2 i s1.length prevRow) :
    ∃ rows, rowStep s1 s2 i (row, prevRow) = some rows ∧ rows.1.length = s1.length + 1 ∧
      Holds s1 s2 (i + 1) s1.length rows.2 := by
  have hfirst : Holds s1 s2 (i + 1) 0 (row.set 0 (i + 1)) := by
    refine ⟨by rw [List.length_set, hlength], fun j hj => ?_⟩
    obtain rfl : j = 0 := Nat.le_zero.mp hj
    rw [List.getElem?_set_self (by omega), entry_zero_right s1 s2 hi]
    rfl
  obtain ⟨row', hrun, hrow'⟩ := @dotimes_some _ (cellStep s1 s2 i prevRow) (Holds s1 s2 (i + 1))
    s2.length _ hfirst fun j t hj ht => cellStep_spec hi (heq ▸ hj) hprev ht
  refine ⟨(prevRow, row'), ?_, hprev.length, heq ▸ hrow'⟩
  rw [rowStep]
  simp only [pset_some (show 0 < row.length by omega), Option.bind_eq_bind, Option.bind_some]
  rw [hrun]
  rfl

/-- The first row holds the column numbers. -/
theorem firstRow_spec (hle : s2.length ≤ s1.length) (hlength : prevRow.length = s1.length + 1) :
    ∃ buf, dotimes (s2.length + 1) (fun i buf => pset buf i i) prevRow = some buf ∧
      Holds s1 s2 0 s2.length buf := by
  obtain ⟨buf, hrun, hbuf, hget⟩ := @dotimes_some _ (fun i buf => pset buf i i)
    (fun n buf => buf.length = s1.length + 1 ∧ ∀ j < n, buf[j]? = some (j : ℤ))
    (s2.length + 1) prevRow ⟨hlength, by omega⟩ (by
      intro i buf hi ⟨hbuf, hget⟩
      refine ⟨_, pset_some (by omega) _, by rw [List.length_set, hbuf], fun j hj => ?_⟩
      rcases Nat.lt_succ_iff_lt_or_eq.mp hj with hj | rfl
      · rw [List.getElem?_set_ne (by omega), hget j hj]
      · rw [List.getElem?_set_self (by omega)])
  refine ⟨buf, hrun, hbuf, fun j hj => ?_⟩
  rw [hget j (by omega), entry_zero_left s1 s2 (hj.trans hle)]

/-- For texts of one length the last row ends with their distance. -/
theorem levenshtein_same_length (heq : s1.length = s2.length) (h : Allocated s1 row prevRow) :
    levenshtein row prevRow s1 s2 = some (distance s1 s2 : ℤ) := by
  obtain ⟨first, hfirst, hholds⟩ := firstRow_spec heq.ge h.2
  obtain ⟨rows, hrows, -, hlast⟩ := @dotimes_some _ (rowStep s1 s2)
    (fun i rows => rows.1.length = s1.length + 1 ∧ Holds s1 s2 i s1.length rows.2)
    s1.length (row, first) ⟨h.1, heq ▸ hholds⟩
    fun i rows hi hrows => rowStep_spec heq (heq ▸ hi) hrows.1 hrows.2
  rw [levenshtein, hfirst]
  simp only [Option.bind_eq_bind, Option.bind_some]
  rw [hrows, Option.bind_some, ← heq, hlast.get s1.length (Nat.le_refl _)]
  have hentry := entry_full s1 s2
  rw [← heq] at hentry
  rw [hentry]

/-- With an empty second text only the first cells are used, and they count the letters. -/
theorem levenshtein_nil (h : Allocated s1 row prevRow) :
    levenshtein row prevRow s1 [] = some (distance s1 [] : ℤ) := by
  have hfirst : dotimes 1 (fun i buf => pset buf i i) prevRow = some (prevRow.set 0 0) := by
    simp [dotimes, dotimesFrom, pset, h.2]
  obtain ⟨rows, hrows, -, -, hlast⟩ := @dotimes_some _ (rowStep s1 [])
    (fun i rows => rows.1.length = s1.length + 1 ∧ rows.2.length = s1.length + 1 ∧
      rows.2[0]? = some (i : ℤ))
    s1.length (row, prevRow.set 0 0) ⟨h.1, by simp [h.2], by simp [h.2]⟩ (by
      intro i rows hi ⟨hlength, hprev, hget⟩
      refine ⟨(rows.2, rows.1.set 0 (i + 1)), ?_, hprev, by simp [hlength], by simp [hlength]⟩
      rw [rowStep]
      simp only [pset_some (show 0 < rows.1.length by omega), Option.bind_eq_bind,
        Option.bind_some]
      rfl)
  rw [levenshtein, List.length_nil, Nat.zero_add, hfirst]
  simp only [Option.bind_eq_bind, Option.bind_some]
  rw [hrows, Option.bind_some, hlast, distance_nil_right]

/-- A longer second text overruns the first row. -/
theorem levenshtein_longer (hlt : s1.length < s2.length) (h : Allocated s1 row prevRow) :
    levenshtein row prevRow s1 s2 = none := by
  have hfirst : dotimes (s2.length + 1) (fun i buf => pset buf i i) prevRow = none := by
    apply dotimesFrom_none (fun buf => buf.length = s1.length + 1)
    · intro i buf buf' hbuf hset
      rw [length_of_pset hset, hbuf]
    · intro buf hbuf
      exact if_neg (show ¬s1.length + 1 < buf.length by omega)
    · exact h.2
    · omega
    · omega
  rw [levenshtein, hfirst]
  rfl

/-- A shorter second text that is not empty is read behind its end. -/
theorem levenshtein_shorter (hlt : s2.length < s1.length) (hne : s2 ≠ []) :
    levenshtein row prevRow s1 s2 = none := by
  have hpos := List.length_pos_iff.mpr hne
  have hcell : ∀ prevRow row, cellStep s1 s2 s2.length prevRow 0 row = none := by
    intro prevRow row
    rw [cellStep, List.getElem?_eq_none (Nat.le_refl s2.length)]
    simp
  have hrows : ∀ rows, dotimes s1.length (rowStep s1 s2) rows = none := by
    intro rows
    apply @dotimesFrom_none _ _ (fun _ => True) (fun _ _ _ _ _ => trivial) s2.length
    · intro rows _
      have hinner : ∀ row, dotimes s2.length (cellStep s1 s2 s2.length rows.2) row = none :=
        fun row => dotimesFrom_none (fun _ => True) (fun _ _ _ _ _ => trivial)
          (fun row _ => hcell rows.2 row) trivial (Nat.le_refl 0) (by omega)
      rw [rowStep]
      simp only [hinner, Option.bind_eq_bind, Option.bind_none, Option.bind_fun_none]
    · trivial
    · omega
    · omega
  rw [levenshtein]
  simp only [hrows, Option.bind_eq_bind, Option.bind_none, Option.bind_fun_none]

theorem levenshtein_eq_some_iff (h : Allocated s1 row prevRow) {d : ℤ} :
    levenshtein row prevRow s1 s2 = some d ↔
      (s1.length = s2.length ∨ s2 = []) ∧ d = distance s1 s2 := by
  rcases lt_trichotomy s1.length s2.length with hlt | heq | hgt
  · have hne : s2 ≠ [] := List.ne_nil_of_length_pos (by omega)
    simp [levenshtein_longer hlt h, hlt.ne, hne]
  · simp [levenshtein_same_length heq h, heq, eq_comm]
  · by_cases hne : s2 = []
    · subst hne
      simp [levenshtein_nil h, eq_comm]
    · simp [levenshtein_shorter hgt hne, hgt.ne', hne]

end Rows

/-- The accesses stay inside and the result is the least number of edits exactly for texts of one
length and for an empty second text; the texts can be swapped exactly for texts of one length. -/
theorem levenshtein_iff (s1 s2 : List α) (row prevRow row' prevRow' : List ℤ)
    (h : Allocated s1 row prevRow) (h' : Allocated s2 row' prevRow') :
    ((∃ d : ℕ, levenshtein row prevRow s1 s2 = some (d : ℤ) ∧ IsDistance s1 s2 d ∧
        (d = 0 ↔ s1 = s2)) ↔ s1.length = s2.length ∨ s2 = []) ∧
    ((∃ d : ℤ, levenshtein row prevRow s1 s2 = some d ∧
        levenshtein row' prevRow' s2 s1 = some d) ↔ s1.length = s2.length) := by
  simp only [levenshtein_eq_some_iff h, levenshtein_eq_some_iff h']
  constructor
  · constructor
    · intro hex
      rcases hex with ⟨d, ⟨hlength, -⟩, -⟩
      exact hlength
    · intro hlength
      exact ⟨distance s1 s2, ⟨hlength, rfl⟩, isDistance s1 s2, distance_eq_zero s1 s2⟩
  · constructor
    · intro hex
      rcases hex with ⟨d, ⟨hlength, -⟩, hlength', -⟩
      rcases hlength with heq | rfl
      · exact heq
      · rcases hlength' with heq | rfl
        · exact heq.symm
        · rfl
    · intro heq
      exact ⟨distance s1 s2, ⟨.inl heq, rfl⟩, .inl heq.symm, by rw [distance_symm]⟩

/-- Two texts of three letters. -/
theorem levenshtein_three :
    Allocated ['c', 'a', 't'] [0, 0, 0, 0] [0, 0, 0, 0] ∧
      ∃ d : ℕ, levenshtein [0, 0, 0, 0] [0, 0, 0, 0] ['c', 'a', 't'] ['c', 'u', 't'] =
        some (d : ℤ) := by
  have h : Allocated ['c', 'a', 't'] [0, 0, 0, 0] [0, 0, 0, 0] := ⟨rfl, rfl⟩
  obtain ⟨d, hd, -⟩ := (levenshtein_iff ['c', 'a', 't'] ['c', 'u', 't'] [0, 0, 0, 0] [0, 0, 0, 0]
    [0, 0, 0, 0] [0, 0, 0, 0] h ⟨rfl, rfl⟩).1.mpr (.inl rfl)
  exact ⟨h, d, hd⟩

/-- The second text is longer. -/
theorem not_levenshtein_longer :
    ¬∀ (s1 s2 : List Char) (row prevRow : List ℤ), Allocated s1 row prevRow →
      ∃ d : ℕ, levenshtein row prevRow s1 s2 = some (d : ℤ) ∧ IsDistance s1 s2 d := by
  intro h
  obtain ⟨d, hd, -⟩ := h ['a'] ['a', 'b'] [0, 0] [0, 0] ⟨rfl, rfl⟩
  have hrun : levenshtein [0, 0] [0, 0] ['a'] ['a', 'b'] = none := by decide
  rw [hrun] at hd
  cases hd

end Extempore.TextDistances
