import Extempore.IntegerCounting

/-!
# Pitch class sets

A pitch class set is a list of residues modulo 12. `pc:quantize` looks for the nearest pitch of
the set around a pitch, `pc:relative` steps along the pitches of the set. Both are searches on the
integers; the pitches of the set are numbered there, and `pc:relative` adds to the number.
-/

namespace Extempore.PitchClasses

open IntegerCounting

/-- `pc:?`. -/
def inPc (pitch : ℤ) (pc : List ℤ) : Bool :=
  decide (pitch % 12 ∈ pc)

/-- The loop of `pc:quantize` and `pc:quantize-low`, which try the two sides in a different
order. -/
def quantizeLoop (first second : ℤ → ℤ → ℤ) (pitch : ℤ) (pc : List ℤ) (offset : ℕ) : Option ℤ :=
  if inPc (first pitch offset) pc then some (first pitch offset)
  else if inPc (second pitch offset) pc then some (second pitch offset)
  else if offset < 7 then quantizeLoop first second pitch pc (offset + 1)
  else none
termination_by 7 - offset

def quantize (pitch : ℤ) (pc : List ℤ) : Option ℤ :=
  quantizeLoop (· + ·) (· - ·) pitch pc 0

def quantizeLow (pitch : ℤ) (pc : List ℤ) : Option ℤ :=
  quantizeLoop (· - ·) (· + ·) pitch pc 0

/-- The loop of `pc:relative`. -/
def relativeLoop (cntOp : ℤ → ℤ → ℤ) (i : ℤ) (pc : List ℤ) : ℕ → ℤ → ℤ → Option ℤ
  | 0, _, _ => none
  | fuel + 1, p, cnt =>
    let cnt := if inPc p pc then cntOp cnt 1 else cnt
    if cnt = i then some p else relativeLoop cntOp i pc fuel (cntOp p 1) cnt

def relative (fuel : ℕ) (pitch i : ℤ) (pc : List ℤ) : Option ℤ :=
  if i = 0 then some pitch
  else
    let cntOp : ℤ → ℤ → ℤ := if i < 0 then (· - ·) else (· + ·)
    relativeLoop cntOp i pc fuel (cntOp pitch 1) 0

/-- A pitch class set: not empty, all classes between 0 and 11. -/
structure PitchClassSet (pc : List ℤ) : Prop where
  nonempty : pc ≠ []
  range : ∀ c ∈ pc, 0 ≤ c ∧ c ≤ 11

theorem inPc_iff {pitch : ℤ} {pc : List ℤ} : inPc pitch pc = true ↔ pitch % 12 ∈ pc := by
  simp [inPc]

section Counting

/-- The pitches of a set up to `q`, counted from a fixed place on. -/
def classCount (pc : List ℤ) (q : ℤ) : ℤ :=
  (pc.dedup.map fun c => (q - c) / 12).sum

private theorem sum_step {cs : List ℤ} (hnodup : cs.Nodup) (hr : ∀ c ∈ cs, 0 ≤ c ∧ c ≤ 11)
    (q : ℤ) :
    (cs.map fun c => (q - c) / 12).sum =
      (cs.map fun c => (q - 1 - c) / 12).sum + if q % 12 ∈ cs then 1 else 0 := by
  induction cs with
  | nil => simp
  | cons c cs ih =>
    have hc := hr c List.mem_cons_self
    have ih := ih hnodup.of_cons fun d hd => hr d (List.mem_cons_of_mem c hd)
    simp only [List.map_cons, List.sum_cons, List.mem_cons]
    by_cases he : q % 12 = c
    · have hnot : q % 12 ∉ cs := by
        rw [he]
        exact (List.nodup_cons.mp hnodup).1
      have hstep : (q - c) / 12 = (q - 1 - c) / 12 + 1 := by omega
      simp only [hnot, if_false] at ih
      simp only [he, true_or, if_true]
      omega
    · have hstep : (q - c) / 12 = (q - 1 - c) / 12 := by omega
      simp only [he, false_or]
      omega

private theorem sum_octave {cs : List ℤ} (hr : ∀ c ∈ cs, 0 ≤ c ∧ c ≤ 11) (k : ℤ) :
    (cs.map fun c => (12 * k + 11 - c) / 12).sum = k * cs.length := by
  induction cs with
  | nil => simp
  | cons c cs ih =>
    have hc := hr c List.mem_cons_self
    have hk : (12 * k + 11 - c) / 12 = k := by omega
    rw [List.map_cons, List.sum_cons, ih fun d hd => hr d (List.mem_cons_of_mem c hd), hk,
      List.length_cons]
    push_cast
    ring

theorem counts {pc : List ℤ} (h : PitchClassSet pc) :
    Counts (fun q => inPc q pc = true) (classCount pc) := by
  have hr : ∀ c ∈ pc.dedup, 0 ≤ c ∧ c ≤ 11 := fun c hc => h.range c (List.mem_dedup.mp hc)
  have hlength : 1 ≤ (pc.dedup.length : ℤ) := by
    obtain ⟨c, cs, rfl⟩ := List.exists_cons_of_ne_nil h.nonempty
    have : 0 < (c :: cs).dedup.length :=
      List.length_pos_of_mem (List.mem_dedup.mpr List.mem_cons_self)
    omega
  constructor
  · intro q hq
    have hmem := List.mem_dedup.mpr (inPc_iff.mp hq)
    rw [classCount, sum_step pc.nodup_dedup hr, if_pos hmem, classCount]
  · intro q hq
    have hmem : q % 12 ∉ pc.dedup := fun hmem => hq (inPc_iff.mpr (List.mem_dedup.mp hmem))
    rw [classCount, sum_step pc.nodup_dedup hr, if_neg hmem, add_zero, classCount]
  · intro i
    rcases le_or_gt 0 i with hi | hi
    · refine ⟨12 * i + 11, ?_⟩
      rw [classCount, sum_octave hr]
      nlinarith
    · refine ⟨12 * 0 + 11, ?_⟩
      rw [classCount, sum_octave hr]
      omega
  · intro i
    rcases le_or_gt 0 i with hi | hi
    · refine ⟨12 * (-1) + 11, ?_⟩
      rw [classCount, sum_octave hr]
      omega
    · refine ⟨12 * (i - 1) + 11, ?_⟩
      rw [classCount, sum_octave hr]
      nlinarith

end Counting

section Relative

/-- Upwards, the loop stops at the member whose number it has counted up to. -/
theorem relativeLoop_up {pc : List ℤ} {F : ℤ → ℤ} (h : Counts (fun q => inPc q pc = true) F)
    {i p cnt t : ℤ} (ht : inPc t pc = true) (hp : p ≤ t) (hcnt : F t - i = F (p - 1) - cnt)
    {fuel : ℕ} (hfuel : t - p < fuel) :
    relativeLoop (· + ·) i pc fuel p cnt = some t := by
  induction fuel generalizing p cnt with
  | zero => omega
  | succ fuel ih =>
    have hstep : F t - i = F p - if inPc p pc then cnt + 1 else cnt := by
      split
      next hm =>
        have := h.member p hm
        omega
      next hm =>
        have := h.other p hm
        omega
    rw [relativeLoop]
    rcases hp.eq_or_lt with rfl | hlt
    · rw [if_pos (by omega)]
    · have hbelow := h.lt_of_member ht hlt
      rw [if_neg (by omega)]
      apply ih
      · omega
      · simpa using hstep
      · push_cast at hfuel
        omega

/-- Downwards, the loop counts from the place above. -/
theorem relativeLoop_down {pc : List ℤ} {F : ℤ → ℤ} (h : Counts (fun q => inPc q pc = true) F)
    {i p cnt t : ℤ} (ht : inPc t pc = true) (hp : t ≤ p) (hcnt : F (t - 1) - i = F p - cnt)
    {fuel : ℕ} (hfuel : p - t < fuel) :
    relativeLoop (· - ·) i pc fuel p cnt = some t := by
  induction fuel generalizing p cnt with
  | zero => omega
  | succ fuel ih =>
    have hstep : F (t - 1) - i = F (p - 1) - if inPc p pc then cnt - 1 else cnt := by
      split
      next hm =>
        have := h.member p hm
        omega
      next hm =>
        have := h.other p hm
        omega
    rw [relativeLoop]
    rcases hp.eq_or_lt with rfl | hlt
    · rw [if_pos (by omega)]
    · have hbelow := h.lt_of_member ht (show t - 1 < t by omega)
      have hmono := h.mono (show t ≤ p - 1 by omega)
      rw [if_neg (by omega)]
      apply ih
      · omega
      · exact hstep
      · push_cast at hfuel
        omega

variable {pc : List ℤ} (h : PitchClassSet pc)

/-- The pitch `i` steps from `p`. -/
noncomputable def stepped (h : PitchClassSet pc) (p i : ℤ) : ℤ :=
  if i = 0 then p
  else if i < 0 then (counts h).nth (classCount pc (p - 1) + 1 + i)
  else (counts h).nth (classCount pc p + i)

theorem relative_eq (p i : ℤ) : ∃ n, ∀ fuel ≥ n, relative fuel p i pc = some (stepped h p i) := by
  rcases lt_trichotomy i 0 with hi | rfl | hi
  · set t := (counts h).nth (classCount pc (p - 1) + 1 + i) with ht
    have hmem : inPc t pc = true := (counts h).nth_member _
    have hcount : classCount pc t = classCount pc (p - 1) + 1 + i := (counts h).count_nth _
    have hbefore := (counts h).member t hmem
    have hle : t ≤ p - 1 := by
      by_contra hlt
      have := (counts h).lt_of_member hmem (not_le.mp hlt)
      omega
    refine ⟨(p - t).toNat, fun fuel hfuel => ?_⟩
    simp only [relative, stepped, hi.ne, hi, if_true, if_false]
    exact relativeLoop_down (counts h) hmem hle (by omega) (by omega)
  · exact ⟨0, fun fuel _ => by simp [relative, stepped]⟩
  · set t := (counts h).nth (classCount pc p + i) with ht
    have hmem : inPc t pc = true := (counts h).nth_member _
    have hcount : classCount pc t = classCount pc p + i := (counts h).count_nth _
    have hlt : p < t := (counts h).lt_nth_iff.mpr (by omega)
    refine ⟨(t - p).toNat, fun fuel hfuel => ?_⟩
    simp only [relative, stepped, hi.ne', not_lt.mpr hi.le, if_false]
    apply relativeLoop_up (counts h) hmem (by omega)
    · rw [add_sub_cancel_right]
      omega
    · omega

theorem stepped_member {p : ℤ} (hp : inPc p pc = true) (i : ℤ) :
    stepped h p i = (counts h).nth (classCount pc p + i) := by
  have hbefore := (counts h).member p hp
  rcases lt_trichotomy i 0 with hi | rfl | hi
  · simp only [stepped, hi.ne, hi, if_true, if_false]
    rw [hbefore]
  · rw [add_zero, (counts h).nth_count hp]
    rfl
  · simp only [stepped, hi.ne', not_lt.mpr hi.le, if_false]

theorem lt_stepped {p i : ℤ} (hi : 0 < i) : p < stepped h p i := by
  simp only [stepped, hi.ne', not_lt.mpr hi.le, if_false]
  exact (counts h).lt_nth_iff.mpr (by omega)

theorem stepped_lt {p i : ℤ} (hi : i < 0) : stepped h p i < p := by
  simp only [stepped, hi.ne, hi, if_true, if_false]
  by_contra hle
  have hlt : p - 1 < (counts h).nth (classCount pc (p - 1) + 1 + i) := by omega
  have hcount := (counts h).lt_nth_iff.mp hlt
  omega

theorem stepped_strictMono (p : ℤ) : StrictMono (stepped h p) := by
  intro i j hij
  rcases lt_or_ge i 0 with hi | hi
  · rcases lt_or_ge j 0 with hj | hj
    · simp only [stepped, hi.ne, hi, hj.ne, hj, if_true, if_false]
      exact (counts h).nth_strictMono (by omega)
    · rcases hj.eq_or_lt with rfl | hj
      · exact stepped_lt h hi
      · exact (stepped_lt h hi).trans (lt_stepped h hj)
  · have hj : 0 < j := by omega
    rcases hi.eq_or_lt with rfl | hi
    · exact lt_stepped h hj
    · simp only [stepped, hi.ne', not_lt.mpr hi.le, hj.ne', not_lt.mpr hj.le, if_false]
      exact (counts h).nth_strictMono (by omega)

/-- Every pitch of the set is some number of steps away. -/
theorem stepped_surjective (p : ℤ) {q : ℤ} (hq : inPc q pc = true) : ∃ i, stepped h p i = q := by
  rcases lt_trichotomy q p with hlt | rfl | hgt
  · have hmono := (counts h).mono (show q ≤ p - 1 by omega)
    have hi : classCount pc q - classCount pc (p - 1) - 1 < 0 := by omega
    refine ⟨classCount pc q - classCount pc (p - 1) - 1, ?_⟩
    simp only [stepped, hi.ne, hi, if_true, if_false]
    rw [show classCount pc (p - 1) + 1 + (classCount pc q - classCount pc (p - 1) - 1) =
      classCount pc q by omega]
    exact (counts h).nth_count hq
  · exact ⟨0, rfl⟩
  · have hi : 0 < classCount pc q - classCount pc p := by
      have := (counts h).lt_of_member hq hgt
      omega
    refine ⟨classCount pc q - classCount pc p, ?_⟩
    simp only [stepped, hi.ne', not_lt.mpr hi.le, if_false]
    rw [add_sub_cancel]
    exact (counts h).nth_count hq

/-- Steps of any sign add up. -/
theorem stepped_add {p : ℤ} (hp : inPc p pc = true) (i j : ℤ) :
    stepped h (stepped h p i) j = stepped h p (i + j) := by
  have hmem : inPc (stepped h p i) pc = true := by
    rw [stepped_member h hp]
    exact (counts h).nth_member _
  rw [stepped_member h hmem, stepped_member h hp, stepped_member h hp, (counts h).count_nth,
    add_assoc]

end Relative

section Quantize

/-- The loop finds the first offset at which one of the two sides is in the set. -/
theorem quantizeLoop_spec {first second : ℤ → ℤ → ℤ} {pitch : ℤ} {pc : List ℤ} {offset : ℕ}
    {k : ℕ} (hk : inPc (first pitch k) pc = true ∨ inPc (second pitch k) pc = true) (h7 : k ≤ 7)
    (hoffset : offset ≤ k) :
    ∃ n : ℕ, offset ≤ n ∧
      (∀ m : ℕ, offset ≤ m → m < n →
        inPc (first pitch m) pc = false ∧ inPc (second pitch m) pc = false) ∧
      (quantizeLoop first second pitch pc offset = some (first pitch n) ∧
          inPc (first pitch n) pc = true ∨
        quantizeLoop first second pitch pc offset = some (second pitch n) ∧
          inPc (second pitch n) pc = true ∧ inPc (first pitch n) pc = false) := by
  fun_induction quantizeLoop first second pitch pc offset with
  | case1 offset hfirst =>
    exact ⟨offset, le_rfl, fun m hm hlt => absurd hm (not_le.mpr hlt), .inl ⟨rfl, hfirst⟩⟩
  | case2 offset hfirst hsecond =>
    exact ⟨offset, le_rfl, fun m hm hlt => absurd hm (not_le.mpr hlt),
      .inr ⟨rfl, hsecond, by simpa using hfirst⟩⟩
  | case3 offset hfirst hsecond hlt ih =>
    have hne : offset ≠ k := by
      intro he
      subst he
      simp [hfirst, hsecond] at hk
    obtain ⟨n, hn, hnone, hfound⟩ := ih (by omega)
    refine ⟨n, by omega, fun m hm hmn => ?_, hfound⟩
    rcases hm.eq_or_lt with rfl | hm
    · exact ⟨by simpa using hfirst, by simpa using hsecond⟩
    · exact hnone m hm hmn
  | case4 offset hfirst hsecond hge =>
    have he : offset = k := by omega
    subst he
    simp [hfirst, hsecond] at hk

/-- No pitch is further than 6 from a pitch of the set. -/
theorem exists_near {pc : List ℤ} (h : PitchClassSet pc) (pitch : ℤ) :
    ∃ k : ℕ, k ≤ 6 ∧ (inPc (pitch + k) pc = true ∨ inPc (pitch - k) pc = true) := by
  obtain ⟨c, cs, rfl⟩ := List.exists_cons_of_ne_nil h.nonempty
  have hc := h.range c List.mem_cons_self
  simp only [inPc_iff]
  rcases le_or_gt ((c - pitch) % 12) 6 with hle | hgt
  · refine ⟨((c - pitch) % 12).toNat, by omega, .inl ?_⟩
    rw [show (pitch + ((c - pitch) % 12).toNat) % 12 = c by omega]
    exact List.mem_cons_self
  · refine ⟨(12 - (c - pitch) % 12).toNat, by omega, .inr ?_⟩
    rw [show (pitch - (12 - (c - pitch) % 12).toNat) % 12 = c by omega]
    exact List.mem_cons_self

/-- `q` is a pitch of the set at the least distance from `pitch`. -/
def Nearest (pc : List ℤ) (pitch q : ℤ) : Prop :=
  inPc q pc = true ∧ ∀ r, inPc r pc = true → (q - pitch).natAbs ≤ (r - pitch).natAbs

/-- With nothing in the set closer than `n`, a pitch at the distance `n` is a nearest one. -/
theorem nearest_of_none {pc : List ℤ} {pitch q : ℤ} {n : ℕ}
    (hnone : ∀ m : ℕ, m < n → inPc (pitch + m) pc = false ∧ inPc (pitch - m) pc = false)
    (hq : inPc q pc = true) (hn : (q - pitch).natAbs = n) : Nearest pc pitch q := by
  refine ⟨hq, fun r hr => ?_⟩
  rw [hn]
  by_contra hlt
  obtain ⟨hup, hdown⟩ := hnone (r - pitch).natAbs (by omega)
  rcases le_total pitch r with hle | hle
  · rw [show pitch + ((r - pitch).natAbs : ℤ) = r by omega, hr] at hup
    exact Bool.noConfusion hup
  · rw [show pitch - ((r - pitch).natAbs : ℤ) = r by omega, hr] at hdown
    exact Bool.noConfusion hdown

/-- The higher one of two nearest pitches. -/
theorem quantize_spec {pc : List ℤ} (h : PitchClassSet pc) (pitch : ℤ) :
    ∃ q, quantize pitch pc = some q ∧ Nearest pc pitch q ∧
      ∀ r, Nearest pc pitch r → r ≤ q := by
  obtain ⟨k, hk, hmem⟩ := exists_near h pitch
  obtain ⟨n, -, hnone, hfound⟩ := @quantizeLoop_spec (· + ·) (· - ·) _ _ _ _ hmem (by omega)
    (Nat.zero_le k)
  have hnone := fun m hm => hnone m (Nat.zero_le m) hm
  rcases hfound with ⟨heq, hup⟩ | ⟨heq, hdown, hup⟩
  · refine ⟨pitch + n, heq, nearest_of_none hnone hup (by omega), fun r hr => ?_⟩
    have := hr.2 _ hup
    omega
  · have hq : Nearest pc pitch (pitch - n) := nearest_of_none hnone hdown (by omega)
    refine ⟨pitch - n, heq, hq, fun r hr => ?_⟩
    have hle := hr.2 _ hdown
    have hge := hq.2 r hr.1
    have hne : r ≠ pitch + n := by
      intro he
      rw [he] at hr
      exact Bool.noConfusion (hup.symm.trans hr.1)
    omega

/-- The lower one of two nearest pitches. -/
theorem quantizeLow_spec {pc : List ℤ} (h : PitchClassSet pc) (pitch : ℤ) :
    ∃ q, quantizeLow pitch pc = some q ∧ Nearest pc pitch q ∧
      ∀ r, Nearest pc pitch r → q ≤ r := by
  obtain ⟨k, hk, hmem⟩ := exists_near h pitch
  obtain ⟨n, -, hnone, hfound⟩ := @quantizeLoop_spec (· - ·) (· + ·) _ _ _ _ hmem.symm (by omega)
    (Nat.zero_le k)
  have hnone := fun m hm => (hnone m (Nat.zero_le m) hm).symm
  rcases hfound with ⟨heq, hdown⟩ | ⟨heq, hup, hdown⟩
  · refine ⟨pitch - n, heq, nearest_of_none hnone hdown (by omega), fun r hr => ?_⟩
    have := hr.2 _ hdown
    omega
  · have hq : Nearest pc pitch (pitch + n) := nearest_of_none hnone hup (by omega)
    refine ⟨pitch + n, heq, hq, fun r hr => ?_⟩
    have hle := hr.2 _ hup
    have hge := hq.2 r hr.1
    have hne : r ≠ pitch - n := by
      intro he
      rw [he] at hr
      exact Bool.noConfusion (hdown.symm.trans hr.1)
    omega

end Quantize

/-- Within a set, `pc:relative` always returns; the pitches it returns rise strictly with the
step, are all the pitches of the set, and steps of any sign add up. `pc:quantize` returns the
higher nearest pitch of the set, `pc:quantize-low` the lower one. -/
theorem pitchClasses_consistent (pc : List ℤ) (h : PitchClassSet pc) :
    (∃ rel : ℤ → ℤ → ℤ,
      (∀ p i, ∃ n, ∀ fuel ≥ n, relative fuel p i pc = some (rel p i)) ∧
      (∀ p, StrictMono (rel p)) ∧
      (∀ p q, inPc q pc = true → ∃ i, rel p i = q) ∧
      ∀ p, inPc p pc = true → ∀ i j, rel (rel p i) j = rel p (i + j)) ∧
    ∀ p,
      (∃ q, quantize p pc = some q ∧ Nearest pc p q ∧ ∀ r, Nearest pc p r → r ≤ q) ∧
      ∃ q, quantizeLow p pc = some q ∧ Nearest pc p q ∧ ∀ r, Nearest pc p r → q ≤ r :=
  ⟨⟨stepped h, relative_eq h, stepped_strictMono h, fun p _ hq => stepped_surjective h p hq,
      fun _ hp => stepped_add h hp⟩,
    fun p => ⟨quantize_spec h p, quantizeLow_spec h p⟩⟩

/-- A chord of three classes, not in their order. -/
theorem pitchClasses_triad :
    PitchClassSet [7, 0, 4] ∧ ∀ p, ∃ q, quantize p [7, 0, 4] = some q := by
  have h : PitchClassSet [7, 0, 4] := ⟨by simp, by simp⟩
  refine ⟨h, fun p => ?_⟩
  obtain ⟨q, hq, -⟩ := ((pitchClasses_consistent [7, 0, 4] h).2 p).1
  exact ⟨q, hq⟩

end Extempore.PitchClasses
