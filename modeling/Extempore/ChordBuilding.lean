import Extempore.ListSorting
import Extempore.PitchClasses

/-!
# Building chords

`pc:make-chord` divides a range into parts and takes one pitch from each, of a class that was not
taken yet. The parts are bounded by reals, as `round` returns one, and `modulo` on a negative
real is not positive; the whole range, which is tried next, is bounded by integers.
-/

namespace Extempore.ChordBuilding

open ListSorting PitchClasses

/-- A number: an integer, or a real without a fraction. -/
inductive Number where
  | integer (n : ℤ)
  | real (n : ℤ)
  deriving DecidableEq, Repr

namespace Number

def value : Number → ℤ
  | integer n => n
  | real n => n

/-- `(modulo x 12)`, on a real the C function `fmod`. -/
def modulo : Number → ℤ
  | integer n => n % 12
  | real n => n.tmod 12

end Number

/-- `range` of two bounds of one kind. -/
def range (kind : ℤ → Number) (lower upper : ℤ) : List Number :=
  (List.range (upper - lower).toNat).map fun i : ℕ => kind (lower + i)

/-- The pitches among which `pc:random` chooses. -/
def choices (kind : ℤ → Number) (lower upper : ℤ) (pc : List ℤ) : List Number :=
  (range kind lower upper).filter fun x => decide (x.modulo ∈ pc)

/-- `pc:random`, with the number that its call of `random` draws; `none` is `#f`. -/
def pcRandom (kind : ℤ → Number) (lower upper : ℤ) (pc : List ℤ) (draw : ℕ) : Option Number :=
  if pc = [] then none
  else (choices kind lower upper pc)[draw % (choices kind lower upper pc).length]?

/-- `(round (/ range n))`: the nearest integer, the even one of two. -/
def roundedGap (range n : ℤ) : ℤ :=
  if 2 * (range % n) < n then range / n
  else if n < 2 * (range % n) then range / n + 1
  else if (range / n) % 2 = 0 then range / n else range / n + 1

/-- `real->integer`. The cell of `#f` has no number type, which reads as 0. -/
def realToInteger : Option Number → ℤ
  | some x => x.value
  | none => 0

/-- `(cl:sort lst <)`. In a list of two or more every element is compared, and `<` refuses `#f`. -/
def sortNumbers (lst : List (Option Number)) : Option (List (Option Number)) :=
  if 2 ≤ lst.length ∧ none ∈ lst then none
  else some (clSort lst fun a b => decide (realToInteger a < realToInteger b))

/-- What the loop returns at the end. -/
def finish (chord : List (Option Number)) : Option (List ℤ) := do
  let sorted ← sortNumbers (chord.filter fun x => decide (x.map Number.value ≠ some (-1)))
  return sorted.map realToInteger

/-- The new pitch: from the part of the range between `l` and `m`, else from the whole range. -/
def newPitch (lower upper l m : ℤ) (p : List ℤ) (draw : ℕ) : Option Number :=
  match pcRandom .real l m p draw with
  | some pitch => some pitch
  | none => pcRandom .integer lower upper p draw

/-- `cl:remove`. -/
def remove (c : ℤ) (p : List ℤ) : List ℤ :=
  p.filter fun d => decide (c ≠ d)

/-- The loop of `pc:make-chord`, with `n` pitches to go; `modulo` refuses `#f`. -/
def makeLoop (lower upper : ℤ) (pc : List ℤ) :
    ℕ → (ℕ → ℕ) → ℤ → List ℤ → List (Option Number) → Option (List ℤ)
  | 0, _, _, _, chord => finish chord
  | n + 1, draws, l, p, chord =>
    let gap := roundedGap (upper - l) (n + 1)
    let pitch := newPitch lower upper l (l + gap) p (draws 0)
    let rest : Option (List ℤ) :=
      if p.length > 1 then pitch.map fun x => remove x.modulo p else some pc
    rest.bind fun p =>
      makeLoop lower upper pc n (fun k => draws (k + 1)) (l + gap) p (pitch :: chord)

/-- `pc:make-chord`; `none` is an error. -/
def makeChord (lower upper : ℤ) (number : ℕ) (pc : List ℤ) (draws : ℕ → ℕ) : Option (List ℤ) :=
  makeLoop lower upper pc number draws lower pc []

/-- The class `c` has a pitch between the bounds. -/
def occurs (kind : ℤ → Number) (lower upper c : ℤ) : Bool :=
  (range kind lower upper).any fun x => decide (x.modulo = c)

/-- The classes that are left after one of them was taken. -/
def after (pc : List ℤ) (p : List ℤ) (c : ℤ) : List ℤ :=
  if p.length > 1 then remove c p else pc

/-- The classes left that occur in a part of the range. -/
def here (l m : ℤ) (p : List ℤ) : List ℤ :=
  p.filter fun c => occurs .real l m c

/-- Some order of taking the classes comes to a part of the range without a class that is left,
while 11 is left. -/
def strands (upper : ℤ) (pc : List ℤ) : ℕ → ℤ → List ℤ → Bool
  | 0, _, _ => false
  | n + 1, l, p =>
    let m := l + roundedGap (upper - l) (n + 1)
    (here l m p = [] && decide (11 ∈ p)) ||
      (if here l m p = [] then p else here l m p).any fun c =>
        strands upper pc n m (after pc p c)

/-- The result is a chord as promised: ascending, not too long, in the range and in the set, and
complete when every class occurs in the range. -/
def Promised (lower upper : ℤ) (number : ℕ) (pc : List ℤ) (result : Option (List ℤ)) : Prop :=
  ∃ chord, result = some chord ∧ chord.Pairwise (· ≤ ·) ∧ chord.length ≤ number ∧
    (∀ p ∈ chord, lower ≤ p ∧ p < upper ∧ inPc p pc = true) ∧
    ((∀ c ∈ pc, occurs .integer lower upper c = true) → chord.length = number)

section Choices

variable {kind : ℤ → Number} {l m : ℤ} {p : List ℤ}

theorem mem_range {x : Number} : x ∈ range kind l m ↔ ∃ v, l ≤ v ∧ v < m ∧ x = kind v := by
  simp only [range, List.mem_map, List.mem_range]
  constructor
  · rintro ⟨i, hi, rfl⟩
    exact ⟨l + i, by omega, by omega, rfl⟩
  · rintro ⟨v, hl, hm, rfl⟩
    exact ⟨(v - l).toNat, by omega, congrArg kind (by omega)⟩

theorem mem_choices {x : Number} :
    x ∈ choices kind l m p ↔ ∃ v, l ≤ v ∧ v < m ∧ x = kind v ∧ (kind v).modulo ∈ p := by
  simp only [choices, List.mem_filter, mem_range, decide_eq_true_eq]
  constructor
  · rintro ⟨⟨v, hl, hm, rfl⟩, hp⟩
    exact ⟨v, hl, hm, rfl, hp⟩
  · rintro ⟨v, hl, hm, rfl, hp⟩
    exact ⟨⟨v, hl, hm, rfl⟩, hp⟩

theorem occurs_iff {c : ℤ} :
    occurs kind l m c = true ↔ ∃ v, l ≤ v ∧ v < m ∧ (kind v).modulo = c := by
  simp only [occurs, List.any_eq_true, mem_range, decide_eq_true_eq]
  constructor
  · rintro ⟨x, ⟨v, hl, hm, rfl⟩, hc⟩
    exact ⟨v, hl, hm, hc⟩
  · rintro ⟨v, hl, hm, hc⟩
    exact ⟨kind v, ⟨v, hl, hm, rfl⟩, hc⟩

theorem choices_eq_nil_iff :
    choices kind l m p = [] ↔ ∀ c ∈ p, occurs kind l m c = false := by
  rw [List.eq_nil_iff_forall_not_mem]
  constructor
  · intro h c hc
    rw [← Bool.not_eq_true, occurs_iff]
    rintro ⟨v, hl, hm, rfl⟩
    exact h (kind v) (mem_choices.mpr ⟨v, hl, hm, rfl, hc⟩)
  · intro h x hx
    obtain ⟨v, hl, hm, -, hp⟩ := mem_choices.mp hx
    have hoccurs : occurs kind l m (kind v).modulo = true := occurs_iff.mpr ⟨v, hl, hm, rfl⟩
    rw [h _ hp] at hoccurs
    exact Bool.noConfusion hoccurs

theorem pcRandom_some {draw : ℕ} {x : Number} (h : pcRandom kind l m p draw = some x) :
    x ∈ choices kind l m p := by
  unfold pcRandom at h
  split at h
  · cases h
  · exact List.mem_of_getElem? h

theorem pcRandom_none_iff {draw : ℕ} :
    pcRandom kind l m p draw = none ↔ choices kind l m p = [] := by
  unfold pcRandom
  split
  next h =>
    subst h
    simp [choices]
  next h =>
    rw [List.getElem?_eq_none_iff]
    constructor
    · intro hle
      by_contra hne
      have := Nat.mod_lt draw (List.length_pos_iff.mpr hne)
      omega
    · intro hnil
      simp [hnil]

/-- Every choice is drawn in some outcome. -/
theorem exists_draw {x : Number} (h : x ∈ choices kind l m p) :
    ∃ draw, pcRandom kind l m p draw = some x := by
  obtain ⟨i, hi, hx⟩ := List.mem_iff_getElem.mp h
  have hp : p ≠ [] := by
    rintro rfl
    simp [choices] at h
  refine ⟨i, ?_⟩
  rw [pcRandom, if_neg hp, Nat.mod_eq_of_lt hi, List.getElem?_eq_getElem hi, hx]

end Choices

theorem roundedGap_bounds {a n : ℤ} (ha : 0 ≤ a) (hn : 0 < n) :
    0 ≤ roundedGap a n ∧ roundedGap a n ≤ a := by
  have hq : 0 ≤ a / n := Int.ediv_nonneg ha hn.le
  have hr := Int.emod_nonneg a hn.ne'
  have hsum := Int.mul_ediv_add_emod a n
  have hle : a / n ≤ n * (a / n) := by nlinarith
  unfold roundedGap
  split
  · exact ⟨hq, by omega⟩
  · split
    · exact ⟨by omega, by omega⟩
    · split
      · exact ⟨hq, by omega⟩
      · exact ⟨by omega, by omega⟩

section NewPitch

variable {lower upper l m : ℤ} {p : List ℤ}

/-- A real that is in a class by `fmod` is in it by the floored remainder, too. -/
theorem emod_of_tmod {v c : ℤ} (hc : 0 ≤ c) (h : v.tmod 12 = c) : v % 12 = c := by
  rw [Int.tmod_eq_emod] at h
  split at h
  · omega
  · omega

/-- The classes left are classes. -/
def InRange (p : List ℤ) : Prop :=
  ∀ c ∈ p, 0 ≤ c ∧ c ≤ 11

theorem newPitch_some (hp : InRange p) (hl : lower ≤ l) (hm : m ≤ upper) {draw : ℕ} {x : Number}
    (h : newPitch lower upper l m p draw = some x) :
    lower ≤ x.value ∧ x.value < upper ∧ x.value % 12 = x.modulo ∧ x.modulo ∈ p := by
  unfold newPitch at h
  split at h
  next pitch hpart =>
    cases h
    obtain ⟨v, hlv, hvm, rfl, hmem⟩ := mem_choices.mp (pcRandom_some hpart)
    exact ⟨hl.trans hlv, hvm.trans_le hm, emod_of_tmod (hp _ hmem).1 rfl, hmem⟩
  next hpart =>
    obtain ⟨v, hlv, hvm, rfl, hmem⟩ := mem_choices.mp (pcRandom_some h)
    exact ⟨hlv, hvm, rfl, hmem⟩

theorem newPitch_none_iff (hp : InRange p) (hl : lower ≤ l) (hm : m ≤ upper) {draw : ℕ} :
    newPitch lower upper l m p draw = none ↔
      ∀ c ∈ p, occurs .integer lower upper c = false := by
  unfold newPitch
  split
  next pitch hpart =>
    obtain ⟨v, hlv, hvm, rfl, hmem⟩ := mem_choices.mp (pcRandom_some hpart)
    have hoccurs : occurs .integer lower upper (Number.real v).modulo = true :=
      occurs_iff.mpr ⟨v, hl.trans hlv, hvm.trans_le hm, emod_of_tmod (hp _ hmem).1 rfl⟩
    constructor
    · intro h
      cases h
    · intro h
      rw [h _ hmem] at hoccurs
      cases hoccurs
  next hpart => rw [pcRandom_none_iff, choices_eq_nil_iff]

theorem here_eq_nil_iff : here l m p = [] ↔ choices .real l m p = [] := by
  rw [here, List.filter_eq_nil_iff, choices_eq_nil_iff]
  simp

/-- A pitch -1 comes from the whole range, and only when the part offers nothing. -/
theorem newPitch_minus_one (hp : InRange p) {draw : ℕ} {x : Number}
    (h : newPitch lower upper l m p draw = some x) (hx : x.value = -1) :
    here l m p = [] ∧ 11 ∈ p := by
  unfold newPitch at h
  split at h
  next pitch hpart =>
    cases h
    obtain ⟨v, hlv, hvm, rfl, hmem⟩ := mem_choices.mp (pcRandom_some hpart)
    obtain rfl : v = -1 := hx
    exact absurd (hp _ hmem).1 (by decide)
  next hpart =>
    obtain ⟨v, hlv, hvm, rfl, hmem⟩ := mem_choices.mp (pcRandom_some h)
    obtain rfl : v = -1 := hx
    exact ⟨here_eq_nil_iff.mpr (pcRandom_none_iff.mp hpart), hmem⟩

theorem newPitch_class {draw : ℕ} {x : Number}
    (h : newPitch lower upper l m p draw = some x) :
    x.modulo ∈ if here l m p = [] then p else here l m p := by
  unfold newPitch at h
  split at h
  next pitch hpart =>
    cases h
    obtain ⟨v, hlv, hvm, rfl, hmem⟩ := mem_choices.mp (pcRandom_some hpart)
    have hin : (Number.real v).modulo ∈ here l m p :=
      List.mem_filter.mpr ⟨hmem, occurs_iff.mpr ⟨v, hlv, hvm, rfl⟩⟩
    rw [if_neg (List.ne_nil_of_mem hin)]
    exact hin
  next hpart =>
    obtain ⟨v, hlv, hvm, rfl, hmem⟩ := mem_choices.mp (pcRandom_some h)
    rw [if_pos (here_eq_nil_iff.mpr (pcRandom_none_iff.mp hpart))]
    exact hmem

/-- Every class that may be taken is taken in some outcome. -/
theorem exists_newPitch (hall : ∀ c ∈ p, occurs .integer lower upper c = true) {c : ℤ}
    (hc : c ∈ if here l m p = [] then p else here l m p) :
    ∃ draw x, newPitch lower upper l m p draw = some x ∧ x.modulo = c := by
  split at hc
  next hnil =>
    obtain ⟨v, hlv, hvm, hv⟩ := occurs_iff.mp (hall c hc)
    have hmem : Number.integer v ∈ choices .integer lower upper p :=
      mem_choices.mpr ⟨v, hlv, hvm, rfl, hv ▸ hc⟩
    obtain ⟨draw, hdraw⟩ := exists_draw hmem
    refine ⟨draw, .integer v, ?_, hv⟩
    rw [newPitch, pcRandom_none_iff.mpr (here_eq_nil_iff.mp hnil)]
    exact hdraw
  next hne =>
    obtain ⟨hcp, hoccurs⟩ := List.mem_filter.mp hc
    obtain ⟨v, hlv, hvm, hv⟩ := occurs_iff.mp hoccurs
    have hmem : Number.real v ∈ choices .real l m p :=
      mem_choices.mpr ⟨v, hlv, hvm, rfl, hv ▸ hcp⟩
    obtain ⟨draw, hdraw⟩ := exists_draw hmem
    refine ⟨draw, .real v, ?_, hv⟩
    rw [newPitch, hdraw]

theorem exists_newPitch_minus_one (hlower : lower ≤ -1) (hupper : -1 < upper)
    (hnil : here l m p = []) (h11 : 11 ∈ p) :
    ∃ draw, newPitch lower upper l m p draw = some (.integer (-1)) := by
  have hmem : Number.integer (-1) ∈ choices .integer lower upper p :=
    mem_choices.mpr ⟨-1, hlower, hupper, rfl, h11⟩
  obtain ⟨draw, hdraw⟩ := exists_draw hmem
  refine ⟨draw, ?_⟩
  rw [newPitch, pcRandom_none_iff.mpr (here_eq_nil_iff.mp hnil)]
  exact hdraw

end NewPitch

section Finish

/-- The chord without its pitches -1. -/
def kept (chord : List (Option Number)) : List (Option Number) :=
  chord.filter fun x => decide (x.map Number.value ≠ some (-1))

theorem mem_kept {chord : List (Option Number)} {x : Option Number} :
    x ∈ kept chord ↔ x ∈ chord ∧ x.map Number.value ≠ some (-1) := by
  simp [kept]

/-- With all its pitches found, a chord is sorted. -/
theorem finish_found {chord : List (Option Number)} (h : none ∉ chord) :
    ∃ result, finish chord = some result ∧ result.Pairwise (· ≤ ·) ∧
      result.Perm ((kept chord).map realToInteger) := by
  have hless := weakOrder_key realToInteger
  refine ⟨(clSort (kept chord) fun a b => decide (realToInteger a < realToInteger b)).map
    realToInteger, ?_, ?_, (clSort_perm hless _).map _⟩
  · rw [finish, sortNumbers, if_neg]
    · rfl
    · intro hnone
      exact h (mem_kept.mp hnone.2).1
  · rw [List.pairwise_map]
    apply (clSort_ordered hless _).imp
    intro x y hxy
    simpa [notLess] using hxy

/-- With a `#f` and another pitch, sorting fails. -/
theorem finish_failed {chord : List (Option Number)} (h : none ∈ chord) {x : Number}
    (hx : some x ∈ chord) (hne : x.value ≠ -1) : finish chord = none := by
  have hnone : none ∈ kept chord := mem_kept.mpr ⟨h, by simp⟩
  have hsome : some x ∈ kept chord := mem_kept.mpr ⟨hx, by simpa using hne⟩
  have hlength : 2 ≤ (kept chord).length := by
    by_contra hlt
    cases hk : kept chord with
    | nil =>
      rw [hk] at hnone
      cases hnone
    | cons y ys =>
      have hys : ys = [] := by
        rw [hk, List.length_cons] at hlt
        exact List.length_eq_zero_iff.mp (by omega)
      rw [hk, hys, List.mem_singleton] at hnone hsome
      rw [← hnone] at hsome
      cases hsome
  rw [finish, sortNumbers, if_pos ⟨hlength, hnone⟩]
  rfl

/-- With a `#f`, a chord that is returned has a pitch 0. -/
theorem zero_mem_finish {chord : List (Option Number)} (h : none ∈ chord) {result : List ℤ}
    (hresult : finish chord = some result) : (0 : ℤ) ∈ result := by
  have hnone : none ∈ kept chord := mem_kept.mpr ⟨h, by simp⟩
  unfold finish at hresult
  change (sortNumbers (kept chord)).bind (fun sorted => some (sorted.map realToInteger)) =
    some result at hresult
  obtain ⟨sorted, hsorted, hmap⟩ := Option.bind_eq_some_iff.mp hresult
  unfold sortNumbers at hsorted
  split at hsorted
  · cases hsorted
  · cases hsorted
    cases hmap
    have hmem := (clSort_perm (weakOrder_key realToInteger) (kept chord)).mem_iff.mpr hnone
    exact List.mem_map_of_mem hmem

end Finish

/-- The pitches that the loop takes in some outcome. -/
inductive Taken (lower upper : ℤ) (pc : List ℤ) : ℕ → ℤ → List ℤ → List Number → Prop
  | done {l : ℤ} {p : List ℤ} : Taken lower upper pc 0 l p []
  | step {n : ℕ} {l : ℤ} {p : List ℤ} {x : Number} {xs : List Number} {draw : ℕ}
      (pick : newPitch lower upper l (l + roundedGap (upper - l) (n + 1)) p draw = some x)
      (rest : Taken lower upper pc n (l + roundedGap (upper - l) (n + 1))
        (after pc p x.modulo) xs) :
      Taken lower upper pc (n + 1) l p (x :: xs)

section Taken

variable {lower upper : ℤ} {pc : List ℤ}

theorem makeLoop_found {n : ℕ} {draws : ℕ → ℕ} {l : ℤ} {p : List ℤ}
    {chord : List (Option Number)} {x : Number}
    (h : newPitch lower upper l (l + roundedGap (upper - l) (n + 1)) p (draws 0) = some x) :
    makeLoop lower upper pc (n + 1) draws l p chord =
      makeLoop lower upper pc n (fun k => draws (k + 1)) (l + roundedGap (upper - l) (n + 1))
        (after pc p x.modulo) (some x :: chord) := by
  simp only [makeLoop, h, Option.map_some, after]
  split
  · rfl
  · rfl

theorem Taken.exists_draws {n : ℕ} {l : ℤ} {p : List ℤ} {xs : List Number}
    (h : Taken lower upper pc n l p xs) (chord : List (Option Number)) :
    ∃ draws, makeLoop lower upper pc n draws l p chord =
      finish (xs.reverse.map some ++ chord) := by
  induction h generalizing chord with
  | done => exact ⟨fun _ => 0, rfl⟩
  | @step n l p x xs draw pick rest ih =>
    obtain ⟨draws, hdraws⟩ := ih (some x :: chord)
    refine ⟨fun k => k.casesOn draw draws, ?_⟩
    rw [makeLoop_found pick, hdraws]
    simp

theorem Taken.length {n : ℕ} {l : ℤ} {p : List ℤ} {xs : List Number}
    (h : Taken lower upper pc n l p xs) : xs.length = n := by
  induction h with
  | done => rfl
  | step pick rest ih => rw [List.length_cons, ih]

end Taken

section Left

variable {pc p : List ℤ}

/-- What is left of a set while its classes are taken. -/
structure Left (pc p : List ℤ) : Prop where
  subset : p ⊆ pc
  nodup : p.Nodup
  nonempty : p ≠ []

theorem remove_perm (hp : p.Nodup) {c : ℤ} (hc : c ∈ p) : (c :: remove c p).Perm p := by
  have he : remove c p = p.erase c := by
    rw [hp.erase_eq_filter, remove]
    apply List.filter_congr
    intro d _
    by_cases hd : c = d
    · simp [hd]
    · simp [hd, Ne.symm hd]
  rw [he]
  exact (List.perm_cons_erase hc).symm

theorem Left.after (hpc : Left pc pc) (h : Left pc p) {c : ℤ} (hc : c ∈ p) :
    Left pc (after pc p c) := by
  unfold ChordBuilding.after
  split
  next hlength =>
    have hle := (remove_perm h.nodup hc).length_eq
    rw [List.length_cons] at hle
    refine ⟨fun d hd => h.subset (List.mem_of_mem_filter hd), h.nodup.filter _, ?_⟩
    apply List.ne_nil_of_length_pos
    omega
  next => exact hpc

/-- The number of the classes that occur in the whole range. -/
def occurring (lower upper : ℤ) (p : List ℤ) : ℕ :=
  p.countP fun c => occurs .integer lower upper c

theorem occurring_remove {lower upper : ℤ} (hp : p.Nodup) {c : ℤ} (hc : c ∈ p)
    (hoccurs : occurs .integer lower upper c = true) :
    occurring lower upper (remove c p) + 1 = occurring lower upper p := by
  have hperm := remove_perm hp hc
  rw [occurring, occurring, ← hperm.countP_eq, List.countP_cons_of_pos hoccurs]

theorem occurring_le {lower upper : ℤ} : occurring lower upper p ≤ p.length :=
  List.countP_le_length

theorem exists_occurring {lower upper : ℤ} (h : 0 < occurring lower upper p) :
    ∃ c ∈ p, occurs .integer lower upper c = true :=
  List.countP_pos_iff.mp h

theorem occurring_eq_length {lower upper : ℤ} :
    occurring lower upper p = p.length ↔ ∀ c ∈ p, occurs .integer lower upper c = true :=
  List.countP_eq_length

end Left

section Runs

variable {lower upper : ℤ} {pc : List ℤ}

/-- A pitch is a pitch of the range, of a class of the set. -/
def Fits (lower upper : ℤ) (pc : List ℤ) (v : ℤ) : Prop :=
  lower ≤ v ∧ v < upper ∧ v % 12 ∈ pc

/-- The next part of the range is in the range. -/
theorem next_bounds {l : ℤ} (hl : lower ≤ l) (hu : l ≤ upper) (n : ℕ) :
    lower ≤ l + roundedGap (upper - l) (n + 1) ∧ l + roundedGap (upper - l) (n + 1) ≤ upper := by
  obtain ⟨h0, hle⟩ := @roundedGap_bounds (upper - l) (n + 1) (by omega) (by omega)
  exact ⟨by omega, by omega⟩

/-- Enough classes occur for the pitches to go. -/
def Enough (lower upper : ℤ) (pc : List ℤ) (n : ℕ) (p : List ℤ) : Prop :=
  (∀ c ∈ pc, occurs .integer lower upper c = true) ∨ n ≤ occurring lower upper p

theorem Enough.exists_occurs {n : ℕ} {p : List ℤ} (h : Enough lower upper pc (n + 1) p)
    (hp : Left pc p) : ∃ c ∈ p, occurs .integer lower upper c = true := by
  cases h with
  | inl hall =>
    obtain ⟨c, hc⟩ := List.exists_mem_of_ne_nil p hp.nonempty
    exact ⟨c, hc, hall c (hp.subset hc)⟩
  | inr hle => exact exists_occurring (by omega)

theorem Enough.after {n : ℕ} {p : List ℤ} (h : Enough lower upper pc (n + 1) p) (hp : Left pc p)
    {c : ℤ} (hc : c ∈ p) (hoccurs : occurs .integer lower upper c = true) :
    Enough lower upper pc n (after pc p c) := by
  cases h with
  | inl hall => exact .inl hall
  | inr hle =>
    right
    unfold ChordBuilding.after
    split
    next =>
      have := occurring_remove hp.nodup hc hoccurs
      omega
    next hlength =>
      have := @occurring_le p lower upper
      omega

theorem occurs_of_fits {x : Number} (hl : lower ≤ x.value) (hu : x.value < upper)
    (hclass : x.value % 12 = x.modulo) : occurs .integer lower upper x.modulo = true :=
  occurs_iff.mpr ⟨x.value, hl, hu, hclass⟩

/-- With enough classes, every outcome finds all the pitches. -/
theorem exists_taken (hr : InRange pc) (hpc : Left pc pc) {n : ℕ} {draws : ℕ → ℕ} {l : ℤ}
    {p : List ℤ} {chord : List (Option Number)} (hl : lower ≤ l) (hu : l ≤ upper)
    (hp : Left pc p) (h : Enough lower upper pc n p) :
    ∃ xs, Taken lower upper pc n l p xs ∧
      makeLoop lower upper pc n draws l p chord = finish (xs.reverse.map some ++ chord) := by
  induction n generalizing draws l p chord with
  | zero => exact ⟨[], .done, rfl⟩
  | succ n ih =>
    obtain ⟨hl', hu'⟩ := next_bounds hl hu n
    have hrp : InRange p := fun c hc => hr c (hp.subset hc)
    cases hpick : newPitch lower upper l (l + roundedGap (upper - l) (n + 1)) p (draws 0) with
    | none =>
      obtain ⟨c, hc, hoccurs⟩ := h.exists_occurs hp
      rw [(newPitch_none_iff hrp hl hu').mp hpick c hc] at hoccurs
      cases hoccurs
    | some x =>
      obtain ⟨hxl, hxu, hclass, hmem⟩ := newPitch_some hrp hl hu' hpick
      obtain ⟨xs, htaken, hrun⟩ := @ih (fun k => draws (k + 1)) _ (after pc p x.modulo)
        (some x :: chord) hl' hu' (hpc.after hp hmem)
        (h.after hp hmem (occurs_of_fits hxl hxu hclass))
      refine ⟨x :: xs, .step hpick htaken, ?_⟩
      rw [makeLoop_found hpick, hrun]
      simp

theorem Taken.fits (hr : InRange pc) (hpc : Left pc pc) {n : ℕ} {l : ℤ} {p : List ℤ}
    {xs : List Number} (h : Taken lower upper pc n l p xs) (hl : lower ≤ l) (hu : l ≤ upper)
    (hp : Left pc p) : ∀ x ∈ xs, Fits lower upper pc x.value := by
  induction h with
  | done => simp
  | @step n l p x xs draw pick rest ih =>
    obtain ⟨hl', hu'⟩ := next_bounds hl hu n
    obtain ⟨hxl, hxu, hclass, hmem⟩ :=
      newPitch_some (fun c hc => hr c (hp.subset hc)) hl hu' pick
    intro y hy
    cases hy with
    | head => exact ⟨hxl, hxu, hclass ▸ hp.subset hmem⟩
    | tail _ hy => exact ih hl' hu' (hpc.after hp hmem) y hy

/-- A pitch -1 is taken only where an order of the classes strands. -/
theorem Taken.strands (hr : InRange pc) (hpc : Left pc pc) {n : ℕ} {l : ℤ} {p : List ℤ}
    {xs : List Number} (h : Taken lower upper pc n l p xs) (hl : lower ≤ l) (hu : l ≤ upper)
    (hp : Left pc p) {x : Number} (hx : x ∈ xs) (hvalue : x.value = -1) :
    strands upper pc n l p = true := by
  induction h with
  | done => cases hx
  | @step n l p y xs draw pick rest ih =>
    obtain ⟨hl', hu'⟩ := next_bounds hl hu n
    have hrp : InRange p := fun c hc => hr c (hp.subset hc)
    rw [ChordBuilding.strands, Bool.or_eq_true]
    cases hx with
    | head =>
      obtain ⟨hnil, h11⟩ := newPitch_minus_one hrp pick hvalue
      left
      simp [hnil, h11]
    | tail _ hx =>
      right
      obtain ⟨-, -, -, hmem⟩ := newPitch_some hrp hl hu' pick
      exact List.any_eq_true.mpr
        ⟨y.modulo, newPitch_class pick, ih hl' hu' (hpc.after hp hmem) hx⟩

/-- Where an order of the classes strands, some outcome takes a pitch -1. -/
theorem exists_taken_minus_one (hr : InRange pc) (hpc : Left pc pc)
    (hall : ∀ c ∈ pc, occurs .integer lower upper c = true) (hlower : lower ≤ -1)
    (hupper : -1 < upper) {n : ℕ} {l : ℤ} {p : List ℤ} (hl : lower ≤ l) (hu : l ≤ upper)
    (hp : Left pc p) (h : strands upper pc n l p = true) :
    ∃ xs, Taken lower upper pc n l p xs ∧ ∃ x ∈ xs, x.value = -1 := by
  induction n generalizing l p with
  | zero => cases h
  | succ n ih =>
    obtain ⟨hl', hu'⟩ := next_bounds hl hu n
    rw [strands, Bool.or_eq_true] at h
    cases h with
    | inl hstuck =>
      simp only [Bool.and_eq_true, decide_eq_true_eq] at hstuck
      obtain ⟨hnil, h11⟩ := hstuck
      obtain ⟨draw, hpick⟩ := exists_newPitch_minus_one hlower hupper hnil h11
      obtain ⟨xs, htaken, -⟩ := @exists_taken lower upper pc hr hpc n (fun _ => 0) _
        (after pc p 11) [] hl' hu' (hpc.after hp h11) (.inl hall)
      exact ⟨.integer (-1) :: xs, .step hpick htaken, .integer (-1), List.mem_cons_self, rfl⟩
    | inr hnext =>
      obtain ⟨c, hc, hstrands⟩ := List.any_eq_true.mp hnext
      obtain ⟨draw, x, hpick, rfl⟩ := exists_newPitch (fun c hc => hall c (hp.subset hc)) hc
      have hmem := (newPitch_some (fun c hc => hr c (hp.subset hc)) hl hu' hpick).2.2.2
      obtain ⟨xs, htaken, y, hy, hvalue⟩ := ih hl' hu' (hpc.after hp hmem) hstrands
      exact ⟨x :: xs, .step hpick htaken, y, List.mem_cons_of_mem x hy, hvalue⟩

/-- After a `#f` the loop fails, or ends with a chord that has it. -/
theorem makeLoop_extends {n : ℕ} {draws : ℕ → ℕ} {l : ℤ} {p : List ℤ}
    {chord : List (Option Number)} :
    makeLoop lower upper pc n draws l p chord = none ∨
      ∃ more, makeLoop lower upper pc n draws l p chord = finish (more ++ chord) := by
  induction n generalizing draws l p chord with
  | zero => exact .inr ⟨[], rfl⟩
  | succ n ih =>
    simp only [makeLoop]
    generalize newPitch lower upper l (l + roundedGap (upper - l) (n + 1)) p (draws 0) = pitch
    generalize (if p.length > 1 then pitch.map fun x => remove x.modulo p else some pc) = rest
    cases rest with
    | none => exact .inl rfl
    | some p' =>
      rcases @ih (fun k => draws (k + 1)) (l + roundedGap (upper - l) (n + 1)) p'
        (pitch :: chord) with hnone | ⟨more, hmore⟩
      · exact .inl hnone
      · exact .inr ⟨more ++ [pitch], by simpa using hmore⟩

/-- With more pitches to go than classes that occur, and a class that does not, the loop fails or
ends with a `#f`; a class 0 that occurs is then in the chord already. -/
theorem makeLoop_short (hr : InRange pc) {n : ℕ} {draws : ℕ → ℕ} {l : ℤ} {p : List ℤ}
    {chord : List (Option Number)} (hl : lower ≤ l) (hu : l ≤ upper) (hp : Left pc p)
    (hn : occurring lower upper p < n) (hlength : occurring lower upper p < p.length)
    (hzero : 0 ∈ pc → 0 ∈ p ∨ ∃ x, some x ∈ chord ∧ x.value % 12 = 0) :
    makeLoop lower upper pc n draws l p chord = none ∨
      ∃ chord', makeLoop lower upper pc n draws l p chord = finish chord' ∧ none ∈ chord' ∧
        (0 ∈ pc → occurs .integer lower upper 0 = true →
          ∃ x, some x ∈ chord' ∧ x.value % 12 = 0) := by
  induction n generalizing draws l p chord with
  | zero => omega
  | succ n ih =>
    obtain ⟨hl', hu'⟩ := next_bounds hl hu n
    have hrp : InRange p := fun c hc => hr c (hp.subset hc)
    cases hpick : newPitch lower upper l (l + roundedGap (upper - l) (n + 1)) p (draws 0) with
    | none =>
      simp only [makeLoop, hpick, Option.map_none]
      split
      next => exact .inl rfl
      next =>
        rcases @makeLoop_extends lower upper pc n (fun k => draws (k + 1))
          (l + roundedGap (upper - l) (n + 1)) pc (none :: chord) with hnone | ⟨more, hmore⟩
        · exact .inl hnone
        · refine .inr ⟨more ++ none :: chord, hmore, by simp, fun hpc hoccurs => ?_⟩
          rcases hzero hpc with hmem | ⟨x, hx, hvalue⟩
          · rw [(newPitch_none_iff hrp hl hu').mp hpick 0 hmem] at hoccurs
            cases hoccurs
          · exact ⟨x, by simp [hx], hvalue⟩
    | some x =>
      obtain ⟨hxl, hxu, hclass, hmem⟩ := newPitch_some hrp hl hu' hpick
      have hremoved := occurring_remove hp.nodup hmem (occurs_of_fits hxl hxu hclass)
      have hle := (remove_perm hp.nodup hmem).length_eq
      rw [List.length_cons] at hle
      have hafter : after pc p x.modulo = remove x.modulo p := if_pos (by omega)
      rw [makeLoop_found hpick, hafter]
      apply ih hl' hu'
      · exact ⟨fun d hd => hp.subset (List.mem_of_mem_filter hd), hp.nodup.filter _,
          List.ne_nil_of_length_pos (by omega)⟩
      · omega
      · omega
      · intro hpc
        rcases hzero hpc with hmem0 | ⟨y, hy, hvalue⟩
        · by_cases h0 : x.modulo = 0
          · exact .inr ⟨x, List.mem_cons_self, hclass.trans h0⟩
          · exact .inl (List.mem_filter.mpr ⟨hmem0, by simpa using h0⟩)
        · exact .inr ⟨y, List.mem_cons_of_mem _ hy, hvalue⟩

end Runs

/-- Whenever the pitches are all found, the chord keeps the promise if no pitch -1 was due. -/
theorem promised_iff_of_taken {lower upper : ℤ} {pc : List ℤ} {number : ℕ} {xs : List Number}
    (hlength : xs.length = number) (hfits : ∀ x ∈ xs, Fits lower upper pc x.value) :
    Promised lower upper number pc (finish (xs.reverse.map some ++ [])) ↔
      ((∀ c ∈ pc, occurs .integer lower upper c = true) → ∀ x ∈ xs, x.value ≠ -1) := by
  rw [List.append_nil]
  obtain ⟨result, hresult, hsorted, hperm⟩ :=
    @finish_found (xs.reverse.map some) (by simp)
  have hkept : (kept (xs.reverse.map some)).length =
      (xs.filter fun x => decide (x.value ≠ -1)).length := by
    rw [kept, List.filter_map, List.length_map, List.filter_reverse, List.length_reverse]
    simp [Function.comp_def]
  have hresultLength : result.length = (xs.filter fun x => decide (x.value ≠ -1)).length := by
    rw [hperm.length_eq, List.length_map, hkept]
  have hcomplete : result.length = number ↔ ∀ x ∈ xs, x.value ≠ -1 := by
    rw [hresultLength, ← hlength, List.length_filter_eq_length_iff]
    simp
  constructor
  · intro ⟨chord, hchord, _, _, _, hall⟩ hoccur
    rw [hresult] at hchord
    cases hchord
    exact hcomplete.mp (hall hoccur)
  · intro h
    refine ⟨result, hresult, hsorted, ?_, ?_, fun hoccur => hcomplete.mpr (h hoccur)⟩
    · rw [hresultLength, ← hlength]
      exact List.length_filter_le _ _
    · intro v hv
      obtain ⟨y, hy, rfl⟩ := List.mem_map.mp (hperm.mem_iff.mp hv)
      obtain ⟨x, hx, rfl⟩ := List.mem_map.mp (mem_kept.mp hy).1
      obtain ⟨hl, hu, hclass⟩ := hfits x (List.mem_reverse.mp hx)
      exact ⟨hl, hu, inPc_iff.mpr hclass⟩

/-- In every outcome the chord is as promised, exactly when there are not more pitches than
classes that occur in the range, or every class occurs, and in the latter case no order of the
classes leads to the pitch -1. -/
theorem makeChord_promised_iff (lower upper : ℤ) (hlt : lower < upper) (number : ℕ)
    (pc : List ℤ) (hpc : PitchClassSet pc) (hnodup : pc.Nodup) :
    (∀ draws, Promised lower upper number pc (makeChord lower upper number pc draws)) ↔
      (number ≤ occurring lower upper pc ∨ occurring lower upper pc = pc.length) ∧
      (occurring lower upper pc = pc.length →
        ¬(lower ≤ -1 ∧ -1 < upper ∧ strands upper pc number lower pc = true)) := by
  have hr : InRange pc := hpc.range
  have hleft : Left pc pc := ⟨fun _ hc => hc, hnodup, hpc.nonempty⟩
  rw [occurring_eq_length]
  constructor
  · intro h
    constructor
    · by_contra hshort
      obtain ⟨hn, hall⟩ := not_or.mp hshort
      have hlength : occurring lower upper pc < pc.length :=
        lt_of_le_of_ne occurring_le fun he => hall (occurring_eq_length.mp he)
      obtain ⟨chord, hchord, -, -, hfits, -⟩ := h fun _ => 0
      rcases @makeLoop_short lower upper pc hr number (fun _ => 0) lower pc [] le_rfl hlt.le hleft
        (not_le.mp hn) hlength .inl with hnone | ⟨chord', hfinish, hmem, hzero⟩
      · rw [makeChord, hnone] at hchord
        cases hchord
      · rw [makeChord, hfinish] at hchord
        obtain ⟨hl, hu, hin⟩ := hfits 0 (zero_mem_finish hmem hchord)
        obtain ⟨x, hx, hvalue⟩ := hzero (inPc_iff.mp hin) (occurs_iff.mpr ⟨0, hl, hu, rfl⟩)
        rw [finish_failed hmem hx (by omega)] at hchord
        cases hchord
    · intro hall ⟨hlower, hupper, hstrands⟩
      obtain ⟨xs, htaken, x, hx, hvalue⟩ :=
        exists_taken_minus_one hr hleft hall hlower hupper le_rfl hlt.le hleft hstrands
      obtain ⟨draws, hdraws⟩ := htaken.exists_draws []
      have hpromised := h draws
      rw [makeChord, hdraws, promised_iff_of_taken htaken.length
        (htaken.fits hr hleft le_rfl hlt.le hleft)] at hpromised
      exact hpromised hall x hx hvalue
  · intro ⟨henough, hsafe⟩ draws
    obtain ⟨xs, htaken, hrun⟩ := @exists_taken lower upper pc hr hleft number draws lower pc []
      le_rfl hlt.le hleft henough.symm
    have hfits := htaken.fits hr hleft le_rfl hlt.le hleft
    rw [makeChord, hrun, promised_iff_of_taken htaken.length hfits]
    intro hall x hx hvalue
    obtain ⟨hl, hu, -⟩ := hfits x hx
    exact hsafe hall ⟨by omega, by omega,
      htaken.strands hr hleft le_rfl hlt.le hleft hx hvalue⟩

/-- Two pitches from an octave that has all four classes. -/
theorem makeChord_promised_octave :
    (60 : ℤ) < 72 ∧ PitchClassSet [0, 4, 7, 10] ∧ [(0 : ℤ), 4, 7, 10].Nodup ∧
      ∀ draws, Promised 60 72 2 [0, 4, 7, 10] (makeChord 60 72 2 [0, 4, 7, 10] draws) := by
  have hpc : PitchClassSet [0, 4, 7, 10] := ⟨by simp, by simp⟩
  have hnodup : [(0 : ℤ), 4, 7, 10].Nodup := by simp
  refine ⟨by omega, hpc, hnodup, ?_⟩
  rw [makeChord_promised_iff 60 72 (by omega) 2 [0, 4, 7, 10] hpc hnodup]
  exact ⟨.inl (by decide), fun _ h => absurd h.1 (by omega)⟩

/-- The range has a pitch of one of the two classes only. -/
theorem not_promised_narrow :
    ¬∀ (lower upper : ℤ) (number : ℕ) (pc : List ℤ) (draws : ℕ → ℕ), lower < upper →
      PitchClassSet pc → pc.Nodup →
      Promised lower upper number pc (makeChord lower upper number pc draws) := by
  intro h
  obtain ⟨chord, hchord, -⟩ := h 60 62 2 [0, 4] (fun _ => 0) (by omega) ⟨by simp, by simp⟩
    (by simp)
  have hrun : makeChord 60 62 2 [0, 4] (fun _ => 0) = none := by decide
  rw [hrun] at hchord
  cases hchord

end Extempore.ChordBuilding
