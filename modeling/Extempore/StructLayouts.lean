import Mathlib.Data.Nat.ModEq
import Mathlib.Algebra.BigOperators.Group.List.Basic

/-!
# Layout of structures

The fields of a structure stand one behind the other, each at the next multiple of its alignment,
and the size is rounded up to the greatest alignment. `gaps` and `structPadding` count the bytes
that belong to no field.
-/

namespace Extempore.StructLayouts

/-- Size and alignment of a type. -/
@[ext]
structure Field where
  size : ℕ
  align : ℕ
  deriving DecidableEq, Repr

/-- What is missing to the next multiple. -/
def padding (align n : ℕ) : ℕ := if n % align = 0 then 0 else align - n % align

/-- Where the last field ends, if the first one begins at `off` or later. -/
def endOf (off : ℕ) : List Field → ℕ
  | [] => off
  | f :: fs => endOf (off + f.size + padding f.align off) fs

def maxAlign : List Field → ℕ
  | [] => 0
  | f :: fs => max f.align (maxAlign fs)

/-- The structure as a field of another one. -/
def structOf (fields : List Field) : Field where
  size := endOf 0 fields + padding (maxAlign fields) (endOf 0 fields)
  align := maxAlign fields

def sizes (fields : List Field) : ℕ := (fields.map Field.size).sum

/-- The bytes in front of the fields. -/
def gaps (off : ℕ) : List Field → ℕ
  | [] => 0
  | f :: fs => padding f.align off + gaps (off + f.size + padding f.align off) fs

/-- The bytes of a structure that belong to no field. -/
def structPadding (fields : List Field) : ℕ :=
  gaps 0 fields + padding (maxAlign fields) (endOf 0 fields)

/-- Directly one behind the other, every field begins at a multiple of its alignment. -/
def Packed (off : ℕ) : List Field → Prop
  | [] => True
  | f :: fs => f.align ∣ off ∧ Packed (off + f.size) fs

variable {align n off : ℕ} {f : Field} {fields : List Field}

theorem padding_eq_zero (h : 0 < align) : padding align n = 0 ↔ align ∣ n := by
  have hlt := Nat.mod_lt n h
  rw [padding, Nat.dvd_iff_mod_eq_zero]
  split
  · next hzero => exact iff_of_true rfl hzero
  · next hzero => exact iff_of_false (by omega) hzero

theorem endOf_eq (off : ℕ) (fields : List Field) :
    endOf off fields = off + sizes fields + gaps off fields := by
  induction fields generalizing off with
  | nil => rfl
  | cons f fs ih =>
    have hsizes : sizes (f :: fs) = f.size + sizes fs := List.sum_cons
    rw [endOf, ih, hsizes, gaps]
    omega

/-- A structure is made of its fields and the padding. -/
theorem structOf_size (fields : List Field) :
    (structOf fields).size = sizes fields + structPadding fields := by
  have hend := endOf_eq 0 fields
  rw [structOf, structPadding]
  dsimp only
  omega

theorem gaps_eq_zero (h : ∀ f ∈ fields, 0 < f.align) : gaps off fields = 0 ↔ Packed off fields := by
  induction fields generalizing off with
  | nil => exact iff_of_true rfl trivial
  | cons f fs ih =>
    have hf := padding_eq_zero (n := off) (h f List.mem_cons_self)
    have hrest := @ih (off + f.size) fun g hg => h g (List.mem_cons_of_mem f hg)
    rw [gaps, Packed, Nat.add_eq_zero_iff, hf]
    constructor
    · intro hzero
      refine ⟨hzero.1, hrest.mp ?_⟩
      rw [← hzero.2, hf.mpr hzero.1]
      rfl
    · intro hpacked
      refine ⟨hpacked.1, ?_⟩
      rw [hf.mpr hpacked.1]
      exact hrest.mpr hpacked.2

theorem le_maxAlign (h : f ∈ fields) : f.align ≤ maxAlign fields := by
  induction fields with
  | nil => cases h
  | cons g gs ih =>
    rcases List.mem_cons.mp h with rfl | h
    · exact Nat.le_max_left _ _
    · exact (ih h).trans (Nat.le_max_right _ _)

theorem exists_maxAlign (hne : fields ≠ []) : ∃ f ∈ fields, f.align = maxAlign fields := by
  induction fields with
  | nil => exact absurd rfl hne
  | cons g gs ih =>
    cases gs with
    | nil => exact ⟨g, List.mem_cons_self, (Nat.max_zero _).symm⟩
    | cons g' gs =>
      rcases ih (List.cons_ne_nil g' gs) with ⟨f, hf, heq⟩
      rw [maxAlign, ← heq]
      rcases Nat.le_total f.align g.align with hle | hle
      · exact ⟨g, List.mem_cons_self, (Nat.max_eq_left hle).symm⟩
      · exact ⟨f, List.mem_cons_of_mem g hf, (Nat.max_eq_right hle).symm⟩

theorem maxAlign_pos (hne : fields ≠ []) (h : ∀ f ∈ fields, 0 < f.align) :
    0 < maxAlign fields := by
  cases fields with
  | nil => exact absurd rfl hne
  | cons f fs => exact lt_of_lt_of_le (h f List.mem_cons_self) (Nat.le_max_left _ _)

/-- There is no padding just if the fields are packed up to a multiple of the greatest alignment. -/
theorem structPadding_eq_zero (h : ∀ f ∈ fields, 0 < f.align) :
    structPadding fields = 0 ↔ Packed 0 fields ∧ maxAlign fields ∣ sizes fields := by
  cases fields with
  | nil => exact iff_of_true rfl ⟨trivial, dvd_refl 0⟩
  | cons f fs =>
    have hend := endOf_eq 0 (f :: fs)
    rw [structPadding, Nat.add_eq_zero_iff, gaps_eq_zero h,
      padding_eq_zero (maxAlign_pos (List.cons_ne_nil f fs) h)]
    constructor
    · intro hzero
      rw [(gaps_eq_zero h).mpr hzero.1, Nat.zero_add, Nat.add_zero] at hend
      rwa [hend] at hzero
    · intro hpacked
      rw [(gaps_eq_zero h).mpr hpacked.1, Nat.zero_add, Nat.add_zero] at hend
      rwa [hend]

/-! ## Where the fields lie -/

/-- The fields with their offsets. -/
def placed (off : ℕ) : List Field → List (ℕ × Field)
  | [] => []
  | f :: fs => (off + padding f.align off, f) :: placed (off + f.size + padding f.align off) fs

theorem dvd_add_padding (h : 0 < align) (n : ℕ) : align ∣ n + padding align n := by
  have hlt := Nat.mod_lt n h
  have hdiv := Nat.div_add_mod n align
  rw [padding]
  split
  · next hzero => exact Nat.dvd_of_mod_eq_zero hzero
  · exact ⟨n / align + 1, by rw [Nat.mul_add, Nat.mul_one]; omega⟩

theorem le_endOf (off : ℕ) (fields : List Field) : off ≤ endOf off fields := by
  rw [endOf_eq]
  omega

theorem placed_end {o : ℕ} (h : (o, f) ∈ placed off fields) : o + f.size ≤ endOf off fields := by
  induction fields generalizing off with
  | nil => cases h
  | cons g gs ih =>
    rw [endOf]
    rcases List.mem_cons.mp h with heq | h
    · have hle := le_endOf (off + g.size + padding g.align off) gs
      rw [(Prod.mk.inj heq).1, (Prod.mk.inj heq).2]
      omega
    · exact ih h

/-- A field begins at a multiple of its alignment. -/
theorem placed_dvd {o : ℕ} (h : (o, f) ∈ placed off fields) (hpos : 0 < f.align) : f.align ∣ o := by
  induction fields generalizing off with
  | nil => cases h
  | cons g gs ih =>
    rcases List.mem_cons.mp h with heq | h
    · rw [(Prod.mk.inj heq).1, ← (Prod.mk.inj heq).2]
      exact dvd_add_padding hpos off
    · exact ih h

theorem mem_of_placed {o : ℕ} (h : (o, f) ∈ placed off fields) : f ∈ fields := by
  induction fields generalizing off with
  | nil => cases h
  | cons g gs ih =>
    rcases List.mem_cons.mp h with heq | h
    · rw [(Prod.mk.inj heq).2]
      exact List.mem_cons_self
    · exact List.mem_cons_of_mem g (ih h)

/-- A field ends inside the structure. -/
theorem placed_inside {o : ℕ} (h : (o, f) ∈ placed 0 fields) :
    o + f.size ≤ (structOf fields).size :=
  (placed_end h).trans (Nat.le_add_right _ _)

end Extempore.StructLayouts
