import Extempore.PatternLanguage

/-!
# Hold marks

A `|` behind a number of a pattern lengthens it by a slot. `rmap_helper` counts the marks in the
list at the index of the grid point, which goes on behind the end of the list where the window of a
call reaches over the end of the pattern. No marks are found there.
-/

namespace Extempore.HoldMarks

open PatternLanguage SchemeNumbers Number Element

variable {V : Type}

/-- An element of a flat pattern. -/
def Flat : Element V → Prop
  | list _ => False
  | _ => True

/-- The number of the `|` directly behind the index `i`. -/
def held (es : List (Element V)) (i : ℕ) : ℕ :=
  ((es.drop (i + 1)).takeWhile isBar).length

/-- The beat, the argument and the duration. -/
def scheduled (c : Callback V) : ℚ × V × ℚ :=
  (c.beat.value, c.arg, c.dur.value)

/-- The number at the `k`-th grid point. -/
def numberAt (es : List (Element V)) (k : ℕ) : Option V :=
  match es[k % es.length]? with
  | some (number v) => some v
  | _ => none

/-- What is to be scheduled for the grid points of a window, when a number with `h` marks is held
for `h` slots more. -/
def due (es : List (Element V)) (hold : ℕ → ℕ) (beat pos len : ℚ) (window : List ℕ) :
    List (ℚ × V × ℚ) :=
  window.flatMap fun k : ℕ => ((numberAt es k).map fun v =>
    (beat + (k * len - pos), v, len * (1 + hold k))).toList

section Call

variable {metro : ℚ → ℚ} {fuel loopcnt : ℕ} {beats offset : Number} {es : List (Element V)}

theorem Flat.proper {e : Element V} (h : Flat e) : Proper e := by
  cases e with
  | number v => exact .number v
  | rest => exact .rest
  | bar => exact .bar
  | list es => exact h.elim

theorem map_spliced (hflat : ∀ e ∈ es, Flat e) : es.map spliced = es := by
  conv_rhs => rw [← List.map_id es]
  apply List.map_congr_left
  intro e he
  cases e with
  | list es => exact (hflat _ he).elim
  | _ => rfl

theorem mapM_some {α β : Type} {l : List α} {g : α → Option β} {h : α → β}
    (hg : ∀ t ∈ l, g t = some (h t)) : l.mapM g = some (l.map h) := by
  induction l with
  | nil => rfl
  | cons t l ih =>
    rw [List.mapM_cons, hg t List.mem_cons_self, ih fun t ht => hg t (List.mem_cons_of_mem _ ht)]
    rfl

/-- The marks that a call counts for a grid point. -/
def counted (es : List (Element V)) (k : ℕ) : ℕ :=
  ((es.drop (min (k + 1) es.length)).takeWhile isBar).length

theorem listRef_succ (hne : es ≠ []) (i : ℕ) : listRef es (i + 1) = es[i % es.length]? := by
  have hpos := List.length_pos_of_ne_nil hne
  rw [listRef, Nat.add_sub_cancel]
  split
  next => rfl
  next hle => rw [Nat.mod_eq_of_lt (by omega)]

/-- The callbacks of a call on a flat pattern, in their order. -/
theorem rmapHelper_flat (beat dur looppos : Number) (hne : es ≠ []) (hflat : ∀ e ∈ es, Flat e) :
    ∃ cs, rmapHelper metro (fuel + 1) beats offset beat dur loopcnt looppos es = some cs ∧
      cs.map scheduled = due es (counted es) beat.value (numMod (looppos - offset) beats).value
        (beats.value / es.length)
        (inWindow beats.value (beats.value / es.length) (numMod (looppos - offset) beats).value
          dur.value).reverse := by
  rw [rmapHelper, symTransform_eq hne fun e he => (hflat e he).proper, map_spliced hflat]
  simp only []
  rw [newlst_eq]
  generalize numMod (looppos - offset) beats = pos
  have hone : (beats / integer es.length).value = beats.value / es.length := by
    rw [value_div, value_integer, Int.cast_natCast]
  rw [← List.map_reverse, hone]
  generalize (inWindow beats.value (beats.value / es.length) pos.value dur.value).reverse = window
  rw [@mapM_some _ _ _ _ fun t : Number × ℕ => ((numberAt es (t.2 - 1)).map fun v =>
    Callback.mk (metro (beat + (t.1 - pos)).value - callbackOffset) (beat + (t.1 - pos))
      (beats / integer es.length * (1 + integer (counted es (t.2 - 1)))) loopcnt v).toList]
  · refine ⟨_, rfl, ?_⟩
    rw [due, List.map_map, List.map_flatten, List.map_map, List.flatMap_def]
    congr 1
    apply List.map_congr_left
    intro k _
    simp only [Function.comp, Nat.add_sub_cancel]
    cases numberAt es k with
    | none => rfl
    | some v => simp [scheduled, hone]
  · intro t ht
    obtain ⟨k, -, rfl⟩ := List.mem_map.mp ht
    simp only [listRef_succ hne, Nat.add_sub_cancel]
    have hlt := Nat.mod_lt k (List.length_pos_of_ne_nil hne)
    have hget := List.getElem?_eq_getElem hlt
    have hflat' := hflat _ (List.getElem_mem hlt)
    generalize es[k % es.length] = e at hget hflat'
    rw [numberAt, hget]
    cases e with
    | number v => rfl
    | rest => rfl
    | bar => rfl
    | list es => exact hflat'.elim

/-- A call on the empty pattern schedules nothing. -/
theorem rmapHelper_nil (beat dur looppos : Number) :
    rmapHelper metro (fuel + 1) beats offset beat dur loopcnt looppos ([] : List (Element V)) =
      some [] := by
  have hsym : symTransform ([] : List (Element V)) = [rest] := rfl
  rw [rmapHelper, hsym]
  simp only []
  rw [newlst_eq, ← List.map_reverse, @mapM_some _ _ _ _ fun _ => []]
  · simp
  · intro t ht
    obtain ⟨k, -, rfl⟩ := List.mem_map.mp ht
    have hget : listRef ([rest] : List (Element V)) (k + 1) = some rest := by
      rw [listRef_succ (List.cons_ne_nil _ _), List.length_singleton, Nat.mod_one]
      rfl
    simp only [hget]

end Call

section Due

variable {es : List (Element V)}

theorem counted_of_lt {k : ℕ} (h : k < es.length) : counted es k = held es (k % es.length) := by
  rw [counted, held, Nat.mod_eq_of_lt h, min_eq_left h]

/-- Behind the end of the list no marks are counted. -/
theorem counted_of_le {k : ℕ} (h : es.length ≤ k) : counted es k = 0 := by
  rw [counted, min_eq_right (by omega), List.drop_length]
  rfl

/-- The same is due exactly when the numbers of the window are held as long. -/
theorem due_eq_iff {hold hold' : ℕ → ℕ} {beat pos len : ℚ} (hlen : len ≠ 0)
    {window : List ℕ} :
    due es hold beat pos len window = due es hold' beat pos len window ↔
      ∀ k ∈ window, numberAt es k ≠ none → hold k = hold' k := by
  induction window with
  | nil => simp [due]
  | cons k window ih =>
    rw [due, due] at ih ⊢
    rw [List.flatMap_cons, List.flatMap_cons, List.forall_mem_cons, ← ih]
    cases numberAt es k with
    | none => simp
    | some v => simp [hlen]

end Due

/-- A call passes the duration of a slot and of the marks directly behind it for every number. -/
def Holds (metro : ℚ → ℚ) (fuel : ℕ) (beats offset beat dur : Number) (loopcnt : ℕ)
    (looppos : Number) (es : List (Element V)) : Prop :=
  let pos := (numMod (looppos - offset) beats).value
  let len := beats.value / es.length
  ∃ cs, rmapHelper metro (fuel + 1) beats offset beat dur loopcnt looppos es = some cs ∧
    cs.map scheduled = due es (fun k => held es (k % es.length)) beat.value pos len
      (inWindow beats.value len pos dur.value).reverse

/-- No grid point of the window behind the end of the pattern has a number with a mark. -/
def Unmarked (beats offset dur looppos : Number) (es : List (Element V)) : Prop :=
  ∀ k ∈ inWindow beats.value (beats.value / es.length) (numMod (looppos - offset) beats).value
    dur.value, es.length ≤ k → numberAt es k ≠ none → held es (k % es.length) = 0

theorem holds_iff {metro : ℚ → ℚ} {fuel : ℕ} {beats offset beat dur looppos : Number}
    {loopcnt : ℕ} {es : List (Element V)} (hflat : ∀ e ∈ es, Flat e) (hbeats : 0 < beats.value) :
    Holds metro fuel beats offset beat dur loopcnt looppos es ↔
      Unmarked beats offset dur looppos es := by
  by_cases hne : es = []
  · subst hne
    constructor
    · intro _ k _ _ hnumber
      exact absurd rfl hnumber
    · intro _
      refine ⟨[], rmapHelper_nil _ _ _, ?_⟩
      simp [due, numberAt]
  · have hlen : beats.value / es.length ≠ 0 :=
      (div_pos hbeats (Nat.cast_pos.mpr (List.length_pos_of_ne_nil hne))).ne'
    obtain ⟨cs, hcs, hscheduled⟩ := @rmapHelper_flat V metro fuel loopcnt beats offset es beat
      dur looppos hne hflat
    have hiff := @due_eq_iff V es (counted es) (fun k => held es (k % es.length)) beat.value
      (numMod (looppos - offset) beats).value _ hlen
      (inWindow beats.value (beats.value / es.length) (numMod (looppos - offset) beats).value
        dur.value).reverse
    constructor
    · intro ⟨cs', hcs', hheld⟩ k hk hle hnumber
      rw [hcs] at hcs'
      cases hcs'
      rw [← hiff.mp (hscheduled.symm.trans hheld) k (List.mem_reverse.mpr hk) hnumber,
        counted_of_le hle]
    · intro h
      refine ⟨cs, hcs, hscheduled.trans (hiff.mpr fun k hk hnumber => ?_)⟩
      rcases lt_or_ge k es.length with hlt | hle
      · exact counted_of_lt hlt
      · rw [counted_of_le hle, h k (List.mem_reverse.mp hk) hle hnumber]

/-- In the `n`-th call of a looper every number of a flat pattern has its duration, with the
marks directly behind it, exactly when the window of the call has no number with a mark behind
the end of the pattern. -/
theorem looper_holds_iff (metro : ℚ → ℚ) (fuel : ℕ) (beats offset start : Number) (n : ℕ)
    (es : List (Element V)) (hflat : ∀ e ∈ es, Flat e) (hbeats : 0 < beats.value) :
    let s := Looper.after ⟨start, 0, 0⟩ beats n
    Holds metro fuel beats offset s.beat (stepDur beats) s.loopcnt s.totaldur es ↔
      Unmarked beats offset (stepDur beats) s.totaldur es :=
  holds_iff hflat hbeats

/-- The first call for a number with a mark, from the start of the pattern. -/
theorem looper_holds_first :
    ((∀ e ∈ [number 7, bar], Flat (V := ℕ) e) ∧ 0 < (integer 1).value) ∧
      Holds id 0 (integer 1) (integer 0) (integer 0) (stepDur (integer 1)) 0 0
        [number 7, bar] := by
  have hflat : ∀ e ∈ [number 7, bar], Flat (V := ℕ) e := by simp [Flat]
  refine ⟨⟨hflat, by simp⟩, ?_⟩
  have h := looper_holds_iff id 0 (integer 1) (integer 0) (integer 0) 0 [number 7, bar] hflat
    (by simp)
  refine h.mpr fun k hk hle _ => ?_
  have hzero := (List.mem_filter.mp hk).2
  have hpos : (numMod ((Looper.after ⟨integer 0, 0, 0⟩ (integer 1) 0).totaldur - integer 0)
      (integer 1)).value = 0 := rfl
  simp only [decide_eq_true_eq, hpos, stepDur, value_integer] at hzero
  norm_num [value_div, value_integer] at hzero
  rw [hzero] at hle
  exact absurd hle (by simp)

/-- From an offset of three quarters of the pattern before its start, the second half of the first
window lies behind the end of the pattern. -/
theorem not_looper_holds :
    ¬∀ (beats offset start : Number) (n : ℕ) (es : List (Element ℕ)), (∀ e ∈ es, Flat e) →
      0 < beats.value →
      let s := Looper.after ⟨start, 0, 0⟩ beats n
      Holds id 0 beats offset s.beat (stepDur beats) s.loopcnt s.totaldur es := by
  intro h
  have hflat : ∀ e ∈ [number 7, bar], Flat (V := ℕ) e := by simp [Flat]
  have hholds := (holds_iff hflat (by simp)).mp
    (h (integer 1) (fraction (-3 / 4)) (integer 0) 0 [number 7, bar] hflat (by simp))
  have hpos : (numMod ((Looper.after ⟨integer 0, 0, 0⟩ (integer 1) 0).totaldur -
      fraction (-3 / 4)) (integer 1)).value = 3 / 4 := by decide +kernel
  have hin : 2 ∈ inWindow (integer 1).value ((integer 1).value / [number 7, (bar : Element ℕ)].length)
      (3 / 4) (stepDur (integer 1)).value := by decide +kernel
  rw [← hpos] at hin
  have hmark : (1 : ℕ) = 0 := hholds 2 hin (by simp) (by simp [numberAt])
  omega

end Extempore.HoldMarks
