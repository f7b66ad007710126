import Mathlib.Algebra.BigOperators.Group.Finset.Basic
import Mathlib.Data.Int.ConditionallyCompleteOrder
import Mathlib.Data.Int.Interval
import Mathlib.Data.Multiset.Bind
import Mathlib.Algebra.Order.BigOperators.Group.Finset
import Mathlib.Algebra.Order.Group.Multiset
import Mathlib.Order.Interval.Multiset
import Mathlib.Tactic.NormNum
import Extempore.SchemeNumbers

/-!
# The pattern looper

A looper calls `rmap_helper` again and again for a short stretch of a pattern. The position in the
pattern is counted from its start, modulo its length; the numbers of the pattern whose positions
are in the stretch are scheduled, and a nested list is spread over its own slot.
-/

namespace Extempore.PatternLanguage
open SchemeNumbers Number

/-- An element of a pattern: a number, one of the symbols `_` and `|`, or a list. -/
inductive Element (V : Type) where
  | number (v : V)
  | rest
  | bar
  | list (es : List (Element V))

open Element

variable {V : Type}

/-- A scheduled callback without the function `func`. -/
structure Callback (V : Type) where
  time : ℚ
  beat : Number
  dur : Number
  loopcnt : ℕ
  arg : V

def callbackOffset : ℚ := 2048

/-- A list of one element is that element. -/
def splice : Element V → List (Element V)
  | list [e] => [e]
  | e => [e]

/-- `rmap_helper_lst_sym_transform`; the empty list is an atom. -/
def symTransform (lst : List (Element V)) : List (Element V) :=
  let lst := match lst with
    | [] => [list []]
    | lst => lst
  let lst := match lst with
    | [list []] => [rest]
    | lst => lst
  lst.flatMap splice

/-- `make-list-with-proc`, whose counter runs through the naturals below `lth`. -/
def makeListWithProc (lth : Number) (func : ℕ → Number) : List Number :=
  if lth.value < 1 then [] else (List.range ⌈lth.value⌉₊).map func

/-- `range` with three arguments. -/
def range (a b step : Number) : List Number :=
  makeListWithProc ((b - a) / step) fun i => a + integer i * step

/-- The closure `f`, which counts the positions that it sees in `idx`. -/
def choose (pos nextpos : Number) (old : List (Number × ℕ) × ℕ) (new : Number) :
    List (Number × ℕ) × ℕ :=
  let idx := old.2 + 1
  if pos.value ≤ new.value ∧ new.value < nextpos.value then ((new, idx) :: old.1, idx)
  else (old.1, idx)

/-- The element for the position `t`. -/
def listRef (l : List (Element V)) (t : ℕ) : Option (Element V) :=
  if l.length < t then l[(t - 1) % l.length]? else l[t - 1]?

def Element.isBar : Element V → Bool
  | bar => true
  | _ => false

/-- `rmap_helper` with one list as `args`; `fuel` bounds the nesting of the calls. -/
def rmapHelper (metro : ℚ → ℚ) : ℕ → Number → Number → Number → Number → ℕ → Number →
    List (Element V) → Option (List (Callback V))
  | 0, _, _, _, _, _, _, _ => none
  | fuel + 1, beats, offset, beat, dur, loopcnt, looppos, args => do
    let lst := symTransform args
    let pos := numMod (looppos - offset) beats
    let oneBeat := beats / integer lst.length
    let lstPositions := range 0 (pos + beats) oneBeat
    let nextpos := pos + dur
    let newlst := (lstPositions.foldl (choose pos nextpos) ([], 0)).1
    let scheduled ← newlst.mapM fun t =>
      match listRef (symTransform args) t.2 with
      | none => none
      | some (list es) =>
        rmapHelper metro fuel oneBeat offset (beat + (t.1 - pos)) oneBeat loopcnt
          (looppos + (t.1 - pos)) es
      | some rest => some []
      | some bar => some []
      | some (number v) =>
        let noteDur := oneBeat *
          (1 + integer ((args.drop (min t.2 args.length)).takeWhile isBar).length)
        some [⟨metro (beat + (t.1 - pos)).value - callbackOffset, beat + (t.1 - pos), noteDur,
          loopcnt, v⟩]
    some scheduled.flatten

/-- The arguments with which the looper calls itself, without `dur`, which does not change. -/
structure Looper where
  beat : Number
  totaldur : Number
  loopcnt : ℕ

/-- `,(if (> beats 1) 1/2 (/ beats 2))` -/
def stepDur (beats : Number) : Number := if 1 < beats.value then fraction (1 / 2) else beats / 2

namespace Looper

/-- The next arguments. -/
def next (s : Looper) (beats : Number) : Looper where
  beat := s.beat + stepDur beats
  totaldur :=
    if (s.totaldur + stepDur beats).value = beats.value then 0 else s.totaldur + stepDur beats
  loopcnt :=
    if (s.totaldur + stepDur beats).value = beats.value then s.loopcnt + 1 else s.loopcnt

/-- The looper that `rmap-loop-runner` defines, called `n` times. -/
def invoke (metro : ℚ → ℚ) (fuel : ℕ) (beats offset : Number) (lst : List (Element V)) :
    ℕ → Looper → Option (List (Callback V))
  | 0, _ => some []
  | n + 1, s => do
    let first ← rmapHelper metro fuel beats offset s.beat (stepDur beats) s.loopcnt s.totaldur lst
    let others ← invoke metro fuel beats offset lst n (s.next beats)
    some (first ++ others)

end Looper

mutual

/-- The notes of an element in a slot. -/
def notes (start len : ℚ) : Element V → List (ℚ × V)
  | number v => [(start, v)]
  | rest => []
  | bar => []
  | list es => notesFrom start (len / es.length) es

/-- The notes of elements in slots of one length. -/
def notesFrom (start len : ℚ) : List (Element V) → List (ℚ × V)
  | [] => []
  | e :: es => notes start len e ++ notesFrom (start + len) len es

end

mutual

def depth : Element V → ℕ
  | list es => depthList es + 1
  | _ => 0

def depthList : List (Element V) → ℕ
  | [] => 0
  | e :: es => max (depth e) (depthList es)

end

/-- No list inside the element is empty. -/
inductive Proper : Element V → Prop where
  | number (v : V) : Proper (number v)
  | rest : Proper rest
  | bar : Proper bar
  | list {es : List (Element V)} (hne : es ≠ []) (h : ∀ e ∈ es, Proper e) : Proper (list es)

mutual

/-- There is a number in the element. -/
def sounds : Element V → Bool
  | number _ => true
  | rest => false
  | bar => false
  | list es => soundsAny es

def soundsAny : List (Element V) → Bool
  | [] => false
  | e :: es => sounds e || soundsAny es

end

/-- The notes of the `k`-th slot, where the elements come again and again. -/
def notesAt (start len : ℚ) (es : List (Element V)) (k : ℤ) : List (ℚ × V) :=
  match es[(k % es.length).toNat]? with
  | some e => notes start len e
  | none => []

/-- The `k`-th element has a number in it. -/
def soundsAt (es : List (Element V)) (k : ℤ) : Bool :=
  match es[(k % es.length).toNat]? with
  | some e => sounds e
  | none => false

/-- The beat and the argument. -/
def Callback.key (c : Callback V) : ℚ × V := (c.beat.value, c.arg)

/-- The numbers of the grid points from `lo` to `hi`. -/
def gridPoints (offset len lo hi : ℚ) : Finset ℤ :=
  @Finset.Ico ℤ instLatticeInt.toSemilatticeInf.toPreorder Int.instLocallyFiniteOrder
    ⌈(lo - offset) / len⌉ ⌈(hi - offset) / len⌉

/-- The arguments of the `n`-th call. -/
def Looper.after (s : Looper) (beats : Number) (n : ℕ) : Looper := (fun s => s.next beats)^[n] s

/-- The callbacks of `n` calls are the notes of all grid points in the beats that the calls cover,
each of them once. -/
def FiresOnce (metro : ℚ → ℚ) (fuel : ℕ) (beats offset start : Number) (lst : List (Element V))
    (n : ℕ) : Prop :=
  let len := beats.value / lst.length
  ∃ cs, Looper.invoke metro fuel beats offset lst n ⟨start, 0, 0⟩ = some cs ∧
    (cs.map Callback.key : Multiset (ℚ × V)) =
      (gridPoints offset.value len 0 (n * (stepDur beats).value)).val.bind fun k =>
        notesAt (start.value + (offset.value + k * len)) len lst k

/-- The beats from a call with the loop position `totaldur` to the next repetition of the pattern,
as far as the offset puts it behind that position. -/
def late (beats offset totaldur : Number) : ℚ :=
  beats.value * Int.fract ((offset.value - totaldur.value) / beats.value)

/-- A call with the loop position `totaldur` sees the grid point at the distance `g` behind its
beat. Before the offset the position is taken modulo the length of the pattern to a negative
number, unless all numbers are integers: the call then sees nothing before the next repetition of
the pattern, and nothing at all if that is nearly a whole repetition away. -/
def InReach (beats offset totaldur : Number) (len g : ℚ) : Prop :=
  offset.value ≤ totaldur.value ∨ (totaldur.Integral ∧ offset.Integral ∧ beats.Integral) ∨
    (late beats offset totaldur ≤ g ∧ len ≤ beats.value - late beats offset totaldur)

instance (beats offset totaldur : Number) (len g : ℚ) :
    Decidable (InReach beats offset totaldur len g) :=
  inferInstanceAs (Decidable (_ ∨ (_ ∧ _ ∧ _) ∨ (_ ∧ _)))

/-- The `n`-th call sees the `k`-th grid point. -/
def Seen (beats offset : Number) (len : ℚ) (n : ℕ) (k : ℤ) : Prop :=
  InReach beats offset (Looper.after ⟨0, 0, 0⟩ beats n).totaldur len
    (offset.value + k * len - n * (stepDur beats).value)

instance (beats offset : Number) (len : ℚ) (n : ℕ) : DecidablePred (Seen beats offset len n) :=
  fun _ => inferInstanceAs (Decidable (InReach ..))

/-! ## Lists of one element -/

variable {e : Element V} {es : List (Element V)} {start len : ℚ}

/-- The only element of `splice e`. -/
def spliced : Element V → Element V
  | list [e] => e
  | e => e

theorem splice_eq (e : Element V) : splice e = [spliced e] := by
  cases e with
  | list es =>
    cases es with
    | nil => rfl
    | cons e es => cases es <;> rfl
  | _ => rfl

theorem symTransform_eq (hne : es ≠ []) (hproper : ∀ e ∈ es, Proper e) :
    symTransform es = es.map spliced := by
  have hflat : es.flatMap splice = es.map spliced := by
    rw [funext (splice_eq (V := V))]
    exact List.map_eq_flatMap.symm
  cases es with
  | nil => exact absurd rfl hne
  | cons e es =>
    cases e with
    | list es' =>
      cases es' with
      | nil =>
        cases hproper _ List.mem_cons_self with
        | list hne => exact absurd rfl hne
      | cons => exact hflat
    | _ => exact hflat

theorem Proper.spliced (h : Proper e) : Proper (spliced e) := by
  cases h with
  | list hne h =>
    rename_i es
    cases es with
    | nil => exact absurd rfl hne
    | cons e es =>
      cases es with
      | nil => exact h e List.mem_cons_self
      | cons => exact .list hne h
  | number v => exact .number v
  | rest => exact .rest
  | bar => exact .bar

theorem notes_spliced (start len : ℚ) (e : Element V) :
    notes start len (spliced e) = notes start len e := by
  cases e with
  | list es =>
    cases es with
    | nil => rfl
    | cons e es =>
      cases es with
      | nil => simp [spliced, notes, notesFrom]
      | cons => rfl
  | _ => rfl

theorem depth_le_depthList (h : e ∈ es) : depth e ≤ depthList es := by
  induction es with
  | nil => cases h
  | cons e' es ih =>
    rw [depthList]
    cases h with
    | head => exact le_max_left ..
    | tail _ h => exact (ih h).trans (le_max_right ..)

theorem depth_spliced_le (e : Element V) : depth (spliced e) ≤ depth e := by
  cases e with
  | list es =>
    cases es with
    | nil => exact le_rfl
    | cons e es =>
      cases es with
      | nil => simp [spliced, depth, depthList]
      | cons => exact le_rfl
  | _ => exact le_rfl

theorem listRef_eq (hne : es ≠ []) (i : ℕ) :
    ∃ e ∈ es, listRef (es.map spliced) (i + 1) = some (spliced e) ∧
      ∀ start len, notesAt start len es i = notes start len e := by
  have hpos : 0 < es.length := List.length_pos_of_ne_nil hne
  have hlt : i % es.length < es.length := Nat.mod_lt i hpos
  refine ⟨es[i % es.length], List.getElem_mem hlt, ?_, ?_⟩
  · rw [listRef, List.length_map, Nat.add_sub_cancel]
    have hget : (es.map spliced)[i % es.length]? = some (spliced es[i % es.length]) := by
      rw [List.getElem?_map, List.getElem?_eq_getElem hlt]
      rfl
    split
    · exact hget
    · rename_i hle
      have hi : i % es.length = i := Nat.mod_eq_of_lt (by omega)
      simp only [hi] at hget ⊢
      exact hget
  · intro start len
    rw [notesAt, ← Int.natCast_mod, Int.toNat_natCast, List.getElem?_eq_getElem hlt]

theorem notesAt_cons_zero (start len : ℚ) : notesAt start len (e :: es) 0 = notes start len e := by
  rw [notesAt, Int.zero_emod]
  rfl

theorem notesAt_cons_succ {i : ℕ} (hi : i < es.length) (start len : ℚ) :
    notesAt start len (e :: es) (i + 1 : ℕ) = notesAt start len es i := by
  rw [notesAt, notesAt, ← Int.natCast_mod, ← Int.natCast_mod, Int.toNat_natCast, Int.toNat_natCast,
    Nat.mod_eq_of_lt (by rw [List.length_cons]; omega), Nat.mod_eq_of_lt hi,
    List.getElem?_cons_succ]

theorem notesFrom_eq (start len : ℚ) (es : List (Element V)) :
    notesFrom start len es =
      (List.range es.length).flatMap fun i : ℕ => notesAt (start + i * len) len es i := by
  induction es generalizing start with
  | nil => rfl
  | cons e es ih =>
    rw [notesFrom, ih, List.length_cons, List.range_succ_eq_map, List.flatMap_cons,
      List.flatMap_map]
    congr 1
    · rw [Nat.cast_zero, zero_mul, add_zero]
      exact (notesAt_cons_zero start len).symm
    · apply List.flatMap_congr
      intro i hi
      rw [notesAt_cons_succ (List.mem_range.mp hi)]
      congr 1
      push_cast
      ring

/-! ## One call -/

/-- The positions of a call. -/
def inWindow (beats len pos dur : ℚ) : List ℕ :=
  (if (pos + beats) / len < 1 then [] else List.range ⌈(pos + beats) / len⌉₊).filter fun i : ℕ =>
    pos ≤ i * len ∧ i * len < pos + dur

/-- The loop over the positions finds those of the window, in the opposite order. -/
theorem foldl_choose (pos nextpos : Number) (f : ℕ → Number) (n : ℕ) :
    ((List.range n).map f).foldl (choose pos nextpos) ([], 0) =
      ((((List.range n).filter fun i => pos.value ≤ (f i).value ∧
        (f i).value < nextpos.value).map fun i => (f i, i + 1)).reverse, n) := by
  induction n with
  | zero => rfl
  | succ n ih =>
    rw [List.range_succ, List.map_append, List.foldl_append, ih, List.filter_append]
    simp only [List.map_cons, List.map_nil, List.foldl_cons, List.foldl_nil, choose]
    split
    · rename_i h
      simp [h]
    · rename_i h
      simp [h]

theorem newlst_eq (pos beats oneBeat dur : Number) :
    ((range 0 (pos + beats) oneBeat).foldl (choose pos (pos + dur)) ([], 0)).1 =
      ((inWindow beats.value oneBeat.value pos.value dur.value).map fun i : ℕ =>
        (0 + integer i * oneBeat, i + 1)).reverse := by
  rw [range, makeListWithProc, inWindow]
  simp only [value_div, value_sub, value_add, value_zero, sub_zero]
  split
  · rfl
  · rw [foldl_choose]
    simp

/-- A call for a whole slot. -/
theorem inWindow_whole {len : ℚ} (hlen : 0 < len) {n : ℕ} (hn : 0 < n) :
    inWindow len (len / n) 0 len = List.range n := by
  have hn' : (0 : ℚ) < n := Nat.cast_pos.mpr hn
  have hcount : (0 + len) / (len / n) = n := by
    field_simp
    ring
  have hone : (1 : ℚ) ≤ n := Nat.one_le_cast.mpr hn
  rw [inWindow, hcount, if_neg (not_lt.mpr hone), Nat.ceil_natCast]
  apply List.filter_eq_self.mpr
  intro i hi
  have hi' : (i : ℚ) < n := Nat.cast_lt.mpr (List.mem_range.mp hi)
  have hstep : (0 : ℚ) < len / n := div_pos hlen hn'
  simp only [decide_eq_true_eq, zero_add]
  refine ⟨mul_nonneg (Nat.cast_nonneg i) hstep.le, ?_⟩
  rw [mul_div_assoc', div_lt_iff₀ hn', mul_comm len]
  exact mul_lt_mul_of_pos_right hi' hlen

theorem mapM_key {α : Type} {l : List α} {g : α → Option (List (Callback V))}
    {h : α → List (ℚ × V)} {target : List (ℚ × V)} (hperm : (l.flatMap h).Perm target)
    (hg : ∀ t ∈ l, ∃ cs, g t = some cs ∧ (cs.map Callback.key).Perm (h t)) :
    ∃ cs, (do let scheduled ← l.mapM g; some scheduled.flatten) = some cs ∧
      (cs.map Callback.key).Perm target := by
  suffices hall : ∃ css, l.mapM g = some css ∧
      (css.flatten.map Callback.key).Perm (l.flatMap h) by
    obtain ⟨css, hcss, hflat⟩ := hall
    refine ⟨css.flatten, ?_, hflat.trans hperm⟩
    rw [hcss]
    rfl
  clear hperm
  induction l with
  | nil => exact ⟨[], rfl, .nil⟩
  | cons t l ih =>
    obtain ⟨cs, hcs, hperm⟩ := hg t List.mem_cons_self
    obtain ⟨css, hcss, hperms⟩ := ih fun t' ht => hg t' (List.mem_cons_of_mem t ht)
    refine ⟨cs :: css, ?_, ?_⟩
    · rw [List.mapM_cons, hcs, hcss]
      rfl
    · rw [List.flatten_cons, List.map_append, List.flatMap_cons]
      exact hperm.append hperms

variable {metro : ℚ → ℚ} {fuel loopcnt : ℕ} {beats offset : Number}

variable (metro loopcnt offset) in
/-- The callbacks of a call are the notes at the positions of its window. -/
theorem rmapHelper_notes (beat dur looppos : Number) (hne : es ≠ []) (hproper : ∀ e ∈ es, Proper e)
    (hdepth : depthList es < fuel) (hbeats : 0 < beats.value) :
    ∃ cs, rmapHelper metro fuel beats offset beat dur loopcnt looppos es = some cs ∧
      (cs.map Callback.key).Perm
        ((inWindow beats.value (beats.value / es.length) (numMod (looppos - offset) beats).value
          dur.value).flatMap fun i : ℕ =>
            notesAt (beat.value + (i * (beats.value / es.length) -
              (numMod (looppos - offset) beats).value)) (beats.value / es.length) es i) := by
  induction fuel generalizing es beats beat dur looppos with
  | zero => cases hdepth
  | succ fuel ih =>
    rw [rmapHelper, symTransform_eq hne hproper]
    simp only [List.length_map]
    rw [newlst_eq]
    obtain ⟨m, hm⟩ := exists_numMod (looppos - offset) hbeats
    generalize numMod (looppos - offset) beats = pos at hm ⊢
    have hlength : (0 : ℚ) < es.length := Nat.cast_pos.mpr (List.length_pos_of_ne_nil hne)
    have hone : (beats / integer es.length).value = beats.value / es.length := by
      rw [value_div, value_integer, Int.cast_natCast]
    have hlen : 0 < beats.value / es.length := div_pos hbeats hlength
    refine mapM_key (h := fun t => notesAt (beat.value + (t.1.value - pos.value))
      (beats.value / es.length) es (t.2 - 1 : ℕ)) ?_ ?_
    · apply (List.Perm.flatMap_right _ (List.reverse_perm _)).trans
      rw [List.flatMap_map, hone]
      apply List.Perm.of_eq
      apply List.flatMap_congr
      intro i _
      simp
    · intro t ht
      obtain ⟨i, -, rfl⟩ := List.mem_map.mp (List.mem_reverse.mp ht)
      obtain ⟨e, he, href, hnotes⟩ := listRef_eq hne i
      simp only [href, Nat.add_sub_cancel]
      rw [hnotes, ← notes_spliced]
      have hdepth' : depth (spliced e) ≤ fuel :=
        (depth_spliced_le e).trans ((depth_le_depthList he).trans (Nat.lt_succ_iff.mp hdepth))
      have hproper' := (hproper e he).spliced
      generalize spliced e = e' at hdepth' hproper' ⊢
      cases hproper' with
      | number v =>
        refine ⟨_, rfl, List.Perm.of_eq ?_⟩
        simp [Callback.key, notes]
      | rest => exact ⟨[], rfl, .nil⟩
      | bar => exact ⟨[], rfl, .nil⟩
      | list hne' h' =>
        rename_i es'
        have hstart : (looppos + (0 + integer i * (beats / integer es.length) - pos) - offset).value =
            (m * es.length + i : ℤ) * (beats / integer es.length).value := by
          simp only [value_sub] at hm
          rw [hone]
          simp only [value_sub, value_add, value_zero, value_mul, value_integer, hone, hm]
          push_cast
          field_simp
          ring
        have hshallow : depthList es' < fuel := by
          rw [depth] at hdepth'
          exact hdepth'
        obtain ⟨cs, hcs, hperm⟩ := ih (beat + (0 + integer i * (beats / integer es.length) - pos))
          (beats / integer es.length)
          (looppos + (0 + integer i * (beats / integer es.length) - pos)) hne' h' hshallow
          (hone ▸ hlen)
        refine ⟨cs, hcs, hperm.trans (List.Perm.of_eq ?_)⟩
        rw [numMod_of_multiple (hone ▸ hlen) hstart, hone,
          inWindow_whole hlen (List.length_pos_of_ne_nil hne'), notes, notesFrom_eq]
        simp only [sub_zero, value_add, value_sub, value_zero, value_mul, hone]

/-! ## The calls of a looper -/

theorem mem_gridPoints {offset len lo hi : ℚ} (hlen : 0 < len) {k : ℤ} :
    k ∈ gridPoints offset len lo hi ↔ lo ≤ offset + k * len ∧ offset + k * len < hi := by
  rw [gridPoints, Finset.mem_Ico, Int.ceil_le, Int.lt_ceil, div_le_iff₀ hlen, lt_div_iff₀ hlen]
  exact and_congr (by rw [sub_le_iff_le_add']) (by rw [lt_sub_iff_add_lt'])

mutual

theorem notes_eq_nil_iff (start len : ℚ) (e : Element V) : notes start len e = [] ↔ sounds e = false := by
  cases e with
  | number v => simp [notes, sounds]
  | rest => simp [notes, sounds]
  | bar => simp [notes, sounds]
  | list es =>
    rw [notes, sounds]
    exact notesFrom_eq_nil_iff ..

theorem notesFrom_eq_nil_iff (start len : ℚ) (es : List (Element V)) :
    notesFrom start len es = [] ↔ soundsAny es = false := by
  cases es with
  | nil => simp [notesFrom, soundsAny]
  | cons e es =>
    rw [notesFrom, soundsAny, List.append_eq_nil_iff, Bool.or_eq_false_iff, notes_eq_nil_iff,
      notesFrom_eq_nil_iff]

end

theorem notesAt_eq_nil_iff (start len : ℚ) (es : List (Element V)) (k : ℤ) :
    notesAt start len es k = [] ↔ soundsAt es k = false := by
  rw [notesAt, soundsAt]
  cases es[(k % es.length).toNat]? with
  | none => simp
  | some e => exact notes_eq_nil_iff start len e

theorem notesAt_add_mul (start len : ℚ) (es : List (Element V)) (k m : ℤ) :
    notesAt start len es (k + m * es.length) = notesAt start len es k := by
  rw [notesAt, notesAt, Int.add_mul_emod_self_right]

theorem stepDur_pos (hbeats : 0 < beats.value) : 0 < (stepDur beats).value := by
  rw [stepDur]
  split
  · norm_num
  · rw [value_div]
    exact div_pos hbeats (by norm_num)

theorem stepDur_le (hbeats : 0 < beats.value) : (stepDur beats).value ≤ beats.value := by
  rw [stepDur]
  split
  · rename_i h
    rw [value_fraction]
    linarith
  · rw [value_div]
    exact (half_lt_self hbeats).le

/-- The position in the pattern is the number of beats so far up to repetitions of the pattern. -/
theorem after_spec (start beats : Number) (n : ℕ) :
    ((Looper.after ⟨start, 0, 0⟩ beats n).beat.value = start.value + n * (stepDur beats).value) ∧
      ∃ r : ℤ, (Looper.after ⟨start, 0, 0⟩ beats n).totaldur.value =
        n * (stepDur beats).value - r * beats.value := by
  induction n with
  | zero => exact ⟨by simp [Looper.after], 0, by simp [Looper.after]⟩
  | succ n ih =>
    obtain ⟨hbeat, r, htotal⟩ := ih
    rw [Looper.after, Function.iterate_succ_apply', ← Looper.after]
    constructor
    · rw [Looper.next]
      simp only [value_add, hbeat]
      push_cast
      ring
    · rw [Looper.next]
      split
      · rename_i hreset
        rw [value_add, htotal] at hreset
        refine ⟨r + 1, ?_⟩
        rw [value_zero]
        push_cast
        linarith
      · refine ⟨r, ?_⟩
        rw [value_add, htotal]
        push_cast
        ring

/-- What a call sees in terms of its position. -/
theorem inReach_iff {totaldur : Number} {len g : ℚ} (hbeats : 0 < beats.value) (hg : 0 ≤ g)
    (hlen : len ≤ beats.value) :
    InReach beats offset totaldur len g ↔
      0 ≤ (numMod (totaldur - offset) beats).value + g ∧
        len ≤ (numMod (totaldur - offset) beats).value + beats.value := by
  have hwhole {q : ℚ} (hq : q = beats.value * Int.fract ((totaldur - offset).value / beats.value)) :
      0 ≤ q + g ∧ len ≤ q + beats.value := by
    have hnonneg : 0 ≤ q := by
      rw [hq]
      exact mul_nonneg hbeats.le (Int.fract_nonneg _)
    exact ⟨add_nonneg hnonneg hg, hlen.trans (le_add_of_nonneg_left hnonneg)⟩
  rw [InReach, late]
  by_cases hle : offset.value ≤ totaldur.value
  · apply iff_of_true (Or.inl hle)
    exact hwhole (numMod_of_nonneg hbeats (by rw [value_sub]; linarith))
  · have hlt := not_le.mp hle
    rw [or_iff_right hle]
    by_cases hint : (totaldur - offset).Integral ∧ beats.Integral
    · have hall := (integral_sub_iff hlt.ne).mp hint.1
      apply iff_of_true (Or.inl ⟨hall.1, hall.2, hint.2⟩)
      exact hwhole (numMod_of_integral hint.1 hint.2 hbeats)
    · rw [numMod_of_nonpos hint hbeats (by rw [value_sub]; linarith), value_sub, neg_sub,
        neg_add_eq_sub, neg_add_eq_sub, sub_nonneg]
      apply or_iff_right
      intro hall
      exact hint ⟨(integral_sub_iff hlt.ne).mpr ⟨hall.1, hall.2.1⟩, hall.2.2⟩

theorem after_totaldur (start beats : Number) (n : ℕ) :
    (Looper.after ⟨start, 0, 0⟩ beats n).totaldur = (Looper.after ⟨0, 0, 0⟩ beats n).totaldur := by
  induction n with
  | zero => rfl
  | succ n ih =>
    rw [Looper.after, Looper.after, Function.iterate_succ_apply', Function.iterate_succ_apply',
      ← Looper.after, ← Looper.after, Looper.next, Looper.next]
    simp only [ih]

/-- The notes of the slot at the `k`-th grid point. -/
def slotNotes (beats offset start : Number) (es : List (Element V)) (k : ℤ) : Multiset (ℚ × V) :=
  notesAt (start.value + (offset.value + k * (beats.value / es.length)))
    (beats.value / es.length) es k

/-- The grid points in the window of the `n`-th call. -/
def callWindow (beats offset : Number) (es : List (Element V)) (n : ℕ) : Finset ℤ :=
  gridPoints offset.value (beats.value / es.length) (n * (stepDur beats).value)
    ((n + 1 : ℕ) * (stepDur beats).value)

theorem mem_inWindow {len pos dur : ℚ} (hlen : 0 < len) (hdur : dur ≤ beats.value) {i : ℕ} :
    i ∈ inWindow beats.value len pos dur ↔
      len ≤ pos + beats.value ∧ pos ≤ i * len ∧ i * len < pos + dur := by
  rw [inWindow, List.mem_filter, decide_eq_true_iff]
  split
  · rename_i hshort
    simp [(div_lt_one hlen).mp hshort]
  · rename_i hlong
    rw [div_lt_one hlen] at hlong
    rw [List.mem_range, Nat.lt_ceil, lt_div_iff₀ hlen]
    constructor
    · exact fun h => ⟨not_lt.mp hlong, h.2⟩
    · exact fun h => ⟨by linarith [h.2.2], h.2⟩

/-- The positions of a call are the grid points that it sees. -/
theorem map_inWindow {len pos : ℚ} {n : ℕ} {c : ℤ} (hlen : 0 < len) (hle : len ≤ beats.value)
    (hbeats : 0 < beats.value)
    (hpos : pos = (numMod ((Looper.after ⟨0, 0, 0⟩ beats n).totaldur - offset) beats).value)
    (hshift : c * len = n * (stepDur beats).value - offset.value - pos) :
    ((inWindow beats.value len pos (stepDur beats).value).map fun i : ℕ => (i : ℤ) + c :
      Multiset ℤ) =
      ((gridPoints offset.value len (n * (stepDur beats).value)
        ((n + 1 : ℕ) * (stepDur beats).value)).filter (Seen beats offset len n)).val := by
  have hnodup : (inWindow beats.value len pos (stepDur beats).value).Nodup := by
    rw [inWindow]
    apply List.Nodup.filter
    split
    · exact List.nodup_nil
    · exact List.nodup_range
  have hinj : Function.Injective fun i : ℕ => (i : ℤ) + c := fun i j h => by simpa using h
  apply (Multiset.Nodup.ext (Multiset.coe_nodup.mpr (hnodup.map hinj)) (Finset.nodup _)).mpr
  intro k
  have hplace (i : ℚ) : i * len = offset.value + (i + c) * len - n * (stepDur beats).value + pos := by
    rw [add_mul, hshift]
    ring
  rw [Multiset.mem_coe, List.mem_map, Finset.mem_val, Finset.mem_filter, mem_gridPoints hlen]
  constructor
  · intro h
    obtain ⟨i, hi, rfl⟩ := h
    obtain ⟨hreach, hlow, hhigh⟩ := (mem_inWindow hlen (stepDur_le hbeats)).mp hi
    have hi' := hplace i
    have hwindow : n * (stepDur beats).value ≤ offset.value + (i + c : ℤ) * len ∧
        offset.value + (i + c : ℤ) * len < (n + 1 : ℕ) * (stepDur beats).value := by
      push_cast
      constructor <;> linarith
    refine ⟨hwindow, (inReach_iff hbeats (sub_nonneg.mpr hwindow.1) hle).mpr ⟨?_, ?_⟩⟩
    · rw [← hpos]
      have hnonneg : 0 ≤ i * len := mul_nonneg (Nat.cast_nonneg i) hlen.le
      push_cast
      linarith
    · rw [← hpos]
      exact hreach
  · intro h
    obtain ⟨hwindow, hseen⟩ := h
    obtain ⟨hnonneg, hreach⟩ := (inReach_iff hbeats (sub_nonneg.mpr hwindow.1) hle).mp hseen
    rw [← hpos] at hnonneg hreach
    have hk := hplace (k - c)
    rw [sub_add_cancel] at hk
    have hkc : (0 : ℚ) ≤ (k - c : ℤ) := by
      push_cast
      apply nonneg_of_mul_nonneg_left _ hlen
      linarith
    obtain ⟨i, hi⟩ := Int.eq_ofNat_of_zero_le (Int.cast_nonneg_iff.mp hkc)
    have hi' : (i : ℚ) = k - c := by
      rw [← Int.cast_sub, hi, Int.cast_natCast]
    refine ⟨i, (mem_inWindow hlen (stepDur_le hbeats)).mpr ⟨hreach, ?_, ?_⟩, by omega⟩
    · rw [hi']
      linarith
    · have hhigh := hwindow.2
      push_cast at hhigh
      rw [hi']
      linarith

variable (metro offset) in
/-- The callbacks of one call are the notes of the grid points that it sees in its window. -/
theorem rmapHelper_seen (start : Number) (n : ℕ) (hne : es ≠ []) (hproper : ∀ e ∈ es, Proper e)
    (hdepth : depthList es < fuel) (hbeats : 0 < beats.value) :
    ∃ cs, rmapHelper metro fuel beats offset (Looper.after ⟨start, 0, 0⟩ beats n).beat (stepDur beats)
        (Looper.after ⟨start, 0, 0⟩ beats n).loopcnt (Looper.after ⟨start, 0, 0⟩ beats n).totaldur
        es = some cs ∧
      (cs.map Callback.key : Multiset (ℚ × V)) =
        ((callWindow beats offset es n).filter (Seen beats offset (beats.value / es.length) n)).val.bind
          (slotNotes beats offset start es) := by
  obtain ⟨cs, hcs, hperm⟩ := rmapHelper_notes metro
    (Looper.after ⟨start, 0, 0⟩ beats n).loopcnt offset (Looper.after ⟨start, 0, 0⟩ beats n).beat (stepDur beats)
    (Looper.after ⟨start, 0, 0⟩ beats n).totaldur hne hproper hdepth hbeats
  refine ⟨cs, hcs, ?_⟩
  rw [Multiset.coe_eq_coe.mpr hperm, ← Multiset.coe_bind]
  obtain ⟨hbeat, r, htotal⟩ := after_spec start beats n
  obtain ⟨m, hm⟩ := exists_numMod ((Looper.after ⟨start, 0, 0⟩ beats n).totaldur - offset) hbeats
  rw [value_sub, htotal] at hm
  have hlength : (1 : ℚ) ≤ es.length := Nat.one_le_cast.mpr (List.length_pos_of_ne_nil hne)
  have hlen : 0 < beats.value / es.length := div_pos hbeats (by linarith)
  have hshift : ((r + m) * es.length : ℤ) * (beats.value / es.length) =
      n * (stepDur beats).value - offset.value -
        (numMod ((Looper.after ⟨start, 0, 0⟩ beats n).totaldur - offset) beats).value := by
    rw [hm]
    push_cast
    field_simp
    ring
  rw [callWindow, ← map_inWindow hlen (div_le_self hbeats.le hlength) hbeats
    (by rw [← after_totaldur start]) hshift, ← Multiset.map_coe, Multiset.bind_map]
  apply Multiset.bind_congr
  intro i _
  rw [slotNotes, notesAt_add_mul]
  congr 2
  rw [hbeat, Int.cast_add, add_mul, hshift]
  push_cast
  ring

variable (metro offset) in
/-- The callbacks of several calls. -/
theorem invoke_seen (start : Number) (n count : ℕ) (hne : es ≠ []) (hproper : ∀ e ∈ es, Proper e)
    (hdepth : depthList es < fuel) (hbeats : 0 < beats.value) :
    ∃ cs, Looper.invoke metro fuel beats offset es count (Looper.after ⟨start, 0, 0⟩ beats n) = some cs ∧
      (cs.map Callback.key : Multiset (ℚ × V)) = ∑ i ∈ Finset.range count,
        ((callWindow beats offset es (n + i)).filter
          (Seen beats offset (beats.value / es.length) (n + i))).val.bind
            (slotNotes beats offset start es) := by
  induction count generalizing n with
  | zero => exact ⟨[], rfl, rfl⟩
  | succ count ih =>
    obtain ⟨cs, hcs, hseen⟩ := rmapHelper_seen metro offset start n hne hproper hdepth
      hbeats
    obtain ⟨others, hothers, hrest⟩ := ih (n + 1)
    refine ⟨cs ++ others, ?_, ?_⟩
    · rw [Looper.invoke, hcs]
      have hnext : (Looper.after ⟨start, 0, 0⟩ beats n).next beats =
          Looper.after ⟨start, 0, 0⟩ beats (n + 1) :=
        (Function.iterate_succ_apply' (fun s : Looper => s.next beats) n _).symm
      rw [hnext, hothers]
      rfl
    · rw [List.map_append, ← Multiset.coe_add, hseen, hrest, Finset.sum_range_succ']
      simp only [Nat.add_zero, Nat.add_left_comm, add_comm]

/-- The windows of the calls make up the beats that they cover. -/
theorem bind_gridPoints {len : ℚ} (hlen : 0 < len) {dur : ℚ} (hdur : 0 ≤ dur) (offset : ℚ) (n : ℕ)
    (f : ℤ → Multiset (ℚ × V)) :
    (gridPoints offset len 0 (n * dur)).val.bind f =
      ∑ i ∈ Finset.range n, (gridPoints offset len (i * dur) ((i + 1 : ℕ) * dur)).val.bind f := by
  induction n with
  | zero => simp [gridPoints]
  | succ n ih =>
    rw [Finset.sum_range_succ, ← ih, ← Multiset.add_bind]
    congr 1
    have hmono {p q : ℚ} (h : p ≤ q) : ⌈(p - offset) / len⌉ ≤ ⌈(q - offset) / len⌉ :=
      Int.ceil_le_ceil ((div_le_div_iff_of_pos_right hlen).mpr (sub_le_sub_right h offset))
    refine (Multiset.Ico_add_Ico_eq_Ico (hmono ?_) (hmono ?_)).symm
    · exact mul_nonneg (Nat.cast_nonneg n) hdur
    · push_cast
      linarith

/-- A sum of parts is the whole only if the other parts are empty. -/
theorem sum_filter_eq_iff {n : ℕ} (s : ℕ → Finset ℤ) (p : ℕ → ℤ → Prop) [∀ i, DecidablePred (p i)]
    (f : ℤ → Multiset (ℚ × V)) :
    ∑ i ∈ Finset.range n, ((s i).filter (p i)).val.bind f = ∑ i ∈ Finset.range n, (s i).val.bind f ↔
      ∀ i < n, ∀ k ∈ s i, f k ≠ 0 → p i k := by
  have hsplit (i : ℕ) : (s i).val.bind f =
      ((s i).filter (p i)).val.bind f + ((s i).filter fun k => ¬ p i k).val.bind f := by
    rw [← Multiset.add_bind, Finset.filter_val, Finset.filter_val, Multiset.filter_add_not]
  rw [Finset.sum_congr rfl fun i _ => hsplit i, Finset.sum_add_distrib, left_eq_add,
    Finset.sum_eq_zero_iff]
  constructor
  · intro h i hi k hk hne
    by_contra hnot
    have hempty := h i (Finset.mem_range.mpr hi)
    obtain ⟨x, hx⟩ := Multiset.exists_mem_of_ne_zero hne
    have hmem : x ∈ ((s i).filter fun k => ¬ p i k).val.bind f :=
      Multiset.mem_bind.mpr ⟨k, Finset.mem_filter.mpr ⟨hk, hnot⟩, hx⟩
    rw [hempty] at hmem
    cases hmem
  · intro h i hi
    apply Multiset.eq_zero_of_forall_notMem
    intro x hx
    obtain ⟨k, hk, hxk⟩ := Multiset.mem_bind.mp hx
    obtain ⟨hks, hnot⟩ := Finset.mem_filter.mp hk
    apply hnot
    apply h i (Finset.mem_range.mp hi) k hks
    intro hzero
    rw [hzero] at hxk
    cases hxk

/-- The calls of a looper fire every note once just when each call sees the notes of its window. -/
theorem firesOnce_iff (metro : ℚ → ℚ) (fuel : ℕ) (beats offset start : Number)
    (lst : List (Element V)) (n : ℕ) (hbeats : 0 < beats.value) (hne : lst ≠ [])
    (hproper : ∀ e ∈ lst, Proper e) (hfuel : depthList lst < fuel) :
    FiresOnce metro fuel beats offset start lst n ↔
      ∀ i < n, ∀ k ∈ callWindow beats offset lst i, soundsAt lst k = true →
        Seen beats offset (beats.value / lst.length) i k := by
  have hlength : (0 : ℚ) < lst.length := Nat.cast_pos.mpr (List.length_pos_of_ne_nil hne)
  have hlen : 0 < beats.value / lst.length := div_pos hbeats hlength
  obtain ⟨cs, hcs, hseen⟩ := invoke_seen metro offset start 0 n hne hproper hfuel hbeats
  have hall := bind_gridPoints hlen (stepDur_pos hbeats).le offset.value n
    (slotNotes beats offset start lst)
  have hsounds (k : ℤ) : slotNotes beats offset start lst k ≠ 0 ↔ soundsAt lst k = true := by
    rw [slotNotes, Ne, Multiset.coe_eq_zero, notesAt_eq_nil_iff, Bool.not_eq_false]
  have hiff := sum_filter_eq_iff (n := n) (callWindow beats offset lst)
    (Seen beats offset (beats.value / lst.length)) (slotNotes beats offset start lst)
  simp only [hsounds] at hiff
  rw [← hiff]
  simp only [Nat.zero_add] at hseen
  constructor
  · intro h
    obtain ⟨cs', hcs', heq⟩ := h
    obtain rfl : cs = cs' := Option.some.inj (hcs.symm.trans hcs')
    exact hseen.symm.trans (heq.trans hall)
  · intro h
    exact ⟨cs, hcs, hseen.trans (h.trans hall.symm)⟩

/-- Four beats from beat 1 on, with a nested list. -/
theorem firesOnce_iff_nested :
    let lst := [number 60, .rest, .list [number 62, number 64, .bar]]
    FiresOnce (fun beat => beat) 2 4 1 0 lst 5 ↔
      ∀ i < 5, ∀ k ∈ callWindow 4 1 lst i, soundsAt lst k = true →
        Seen 4 1 ((4 : Number).value / lst.length) i k := by
  intro lst
  apply firesOnce_iff (fun beat => beat) 2 4 1 0 lst 5
  · exact four_pos
  · exact List.cons_ne_nil _ _
  · intro e he
    simp only [lst, List.mem_cons, List.not_mem_nil, or_false] at he
    obtain rfl|rfl|rfl := he
    · exact .number 60
    · exact .rest
    · refine .list (List.cons_ne_nil _ _) ?_
      intro e he
      simp only [List.mem_cons, List.not_mem_nil, or_false] at he
      obtain rfl|rfl|rfl := he
      · exact .number 62
      · exact .number 64
      · exact .bar
  · decide

/-- Eight notes in four beats from beat 1 on: the second call finds its position before the start
of the pattern and leaves out the last note. -/
theorem not_firesOnce_offset :
    ¬ FiresOnce (fun beat => beat) 1 4 1 0 ((List.range 8).map number) 2 := by
  intro h
  obtain ⟨cs, hcs, heq⟩ := h
  have hrun : (Looper.invoke (fun beat => beat) 1 4 1 ((List.range 8).map number) 2
      ⟨0, 0, 0⟩).map (List.map Callback.key) = some [(0, 6)] := by
    decide +kernel
  rw [hcs] at hrun
  rw [Option.some.inj hrun] at heq
  have hmem : ((1 / 2 : ℚ), 7) ∈ ([((0 : ℚ), 6)] : Multiset (ℚ × ℕ)) := by
    rw [heq]
    apply Multiset.mem_bind.mpr
    refine ⟨-1, ?_, ?_⟩
    · decide +kernel
    · decide +kernel
  have hkey := List.mem_singleton.mp (Multiset.mem_coe.mp hmem)
  cases congrArg Prod.snd hkey

end Extempore.PatternLanguage
