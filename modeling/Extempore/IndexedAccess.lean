import Mathlib.Algebra.GroupWithZero.Nat
import Mathlib.Algebra.Ring.Int.Defs
import Mathlib.Data.Int.Notation

/-!
# Access by index

The number that the dispatch table tests has 64 bits. The index that is compared with the length,
and used, is an `int`, and for vectors the comparison is one of unsigned numbers.
-/

namespace Extempore.IndexedAccess

/-- A string, of which `_length` is an `int`. -/
structure Text where
  chars : List UInt8
  immutable : Bool
  length_lt : chars.length < 2 ^ 31

/-- A vector, made for a length that is an `int`. -/
structure Vec (α : Type*) where
  elems : List α
  immutable : Bool
  length_lt : elems.length < 2 ^ 31

/-- An integer that passes `is_nonneg`. -/
structure Natural where
  val : ℤ
  nonneg : 0 ≤ val
  lt : val < 2 ^ 63

/-- `int index = ivalue(..)`. -/
def Natural.index (k : Natural) : ℤ := Int.bmod k.val (2 ^ 32)

/-- What is in the string or vector after the call, and the value, or the error with its text and
the number in it, where `none` is the string or vector itself; `outside` is an access before the
first element. -/
inductive Outcome (α β : Type*) where
  | done (contents : List α) (value : β)
  | error (contents : List α) (text : String) (irritant : Option ℤ)
  | outside (index : ℤ)

variable {α β : Type*}

def read (xs : List α) (index : ℤ) : Outcome α α :=
  if index < 0 then .outside index
  else match xs[index.toNat]? with
    | some x => .done xs x
    | none => .outside index

def write (xs : List α) (index : ℤ) (x : α) : Outcome α Unit :=
  if index < 0 then .outside index else .done (xs.set index.toNat x) ()

/-- `memcpy` of `len` bytes. -/
def copy (xs : List α) (index : ℤ) (len : ℤ) : Outcome α (List α) :=
  if index < 0 ∧ len ≠ 0 then .outside index
  else .done xs ((xs.drop index.toNat).take len.toNat)

def strRef (s : Text) (k : Natural) : Outcome UInt8 UInt8 :=
  if s.chars.length ≤ k.index then .error s.chars "string-ref: out of bounds:" (some k.val)
  else read s.chars k.index

/-- The character `c` is cast to `char`. -/
def strSet (s : Text) (k : Natural) (c : ℤ) : Outcome UInt8 Unit :=
  if s.immutable then .error s.chars "string-set!: unable to alter immutable string:" none
  else if s.chars.length ≤ k.index then
    .error s.chars "string-set!: out of bounds:" (some k.val)
  else write s.chars k.index (UInt8.ofInt c)

def substr (s : Text) (k₀ : Natural) (k₁ : Option Natural) : Outcome UInt8 (List UInt8) :=
  if s.chars.length < k₀.index then
    .error s.chars "substring: start out of bounds:" (some k₀.val)
  else match k₁ with
    | some k₁ =>
      if s.chars.length < k₁.index ∨ k₁.index < k₀.index then
        .error s.chars "substring: end out of bounds:" (some k₁.val)
      else copy s.chars k₀.index (k₁.index - k₀.index)
    | none => copy s.chars k₀.index (s.chars.length - k₀.index)

/-- `_size` is unsigned, and the index is made so for the comparison. -/
def vecRef (v : Vec α) (k : Natural) : Outcome α α :=
  if v.elems.length ≤ k.index % 2 ^ 32 then
    .error v.elems "vector-ref: out of bounds:" (some k.val)
  else read v.elems k.index

def vecSet (v : Vec α) (k : Natural) (x : α) : Outcome α Unit :=
  if v.immutable then .error v.elems "vector-set!: unable to alter immutable vector:" none
  else if v.elems.length ≤ k.index % 2 ^ 32 then
    .error v.elems "vector-set!: out of bounds:" (some k.val)
  else write v.elems k.index x

/-! ## What the numbers denote -/

/-- The call does what is expected, or it is an error that leaves the contents as they were. -/
def Meets (contents : List α) (expected : Option (List α × β)) (outcome : Outcome α β) : Prop :=
  match expected with
  | some (after, value) => outcome = .done after value
  | none => ∃ text irritant, outcome = .error contents text irritant

def expectedRef (xs : List α) (k : ℤ) : Option (List α × α) := xs[k.toNat]?.map (xs, ·)

def expectedSet (xs : List α) (immutable : Bool) (k : ℤ) (x : α) : Option (List α × Unit) :=
  if immutable = false ∧ k < xs.length then some (xs.set k.toNat x, ()) else none

/-- Without an end, the range is the rest. -/
def expectedSubstr (xs : List α) (k₀ : ℤ) (k₁ : Option ℤ) : Option (List α × List α) :=
  if k₀ ≤ k₁.getD xs.length ∧ k₁.getD xs.length ≤ xs.length then
    some (xs, (xs.drop k₀.toNat).take (k₁.getD xs.length - k₀).toNat)
  else none

variable {xs : List α} {k : Natural}

theorem Natural.index_eq (h : k.val < 2 ^ 31) : k.index = k.val := by
  have := k.nonneg
  rw [index, Int.bmod_eq_emod_of_lt] <;> omega

theorem Natural.index_emod (k : Natural) : k.index % 2 ^ 32 = k.val % 2 ^ 32 := by
  rw [index]
  exact Int.bmod_emod

theorem Natural.index_bounds (k : Natural) : -(2 ^ 31) ≤ k.index ∧ k.index < 2 ^ 31 := by
  rw [index, Int.bmod_def]
  omega

theorem meets_error {expected : Option (List α × β)} {text : String} {irritant : Option ℤ} :
    Meets xs expected (.error xs text irritant) ↔ expected = none := by
  cases expected with
  | none => exact ⟨fun _ => rfl, fun _ => ⟨text, irritant, rfl⟩⟩
  | some e =>
    constructor
    · intro h
      cases h
    · intro h
      cases h

theorem not_meets_read {index : ℤ} : ¬ Meets xs none (read xs index) := by
  intro h
  obtain ⟨text, irritant, h⟩ := h
  rw [read] at h
  split at h
  · cases h
  · split at h <;> cases h

theorem not_meets_write {index : ℤ} {x : α} : ¬ Meets xs none (write xs index x) := by
  intro h
  obtain ⟨text, irritant, h⟩ := h
  rw [write] at h
  split at h <;> cases h

theorem not_meets_copy {index len : ℤ} : ¬ Meets xs none (copy xs index len) := by
  intro h
  obtain ⟨text, irritant, h⟩ := h
  rw [copy] at h
  split at h <;> cases h

theorem expectedRef_eq_none {k : ℤ} (h : 0 ≤ k) : expectedRef xs k = none ↔ xs.length ≤ k := by
  rw [expectedRef, Option.map_eq_none_iff, List.getElem?_eq_none_iff]
  omega

theorem meets_read {k : ℤ} (h : 0 ≤ k) (hk : k < xs.length) :
    Meets xs (expectedRef xs k) (read xs k) := by
  have hlt : k.toNat < xs.length := by omega
  rw [read, if_neg (by omega), expectedRef, List.getElem?_eq_getElem hlt]
  rfl

theorem meets_write {k : ℤ} {x : α} (h : 0 ≤ k) (hk : k < xs.length) :
    Meets xs (expectedSet xs false k x) (write xs k x) := by
  rw [write, if_neg (by omega), expectedSet, if_pos ⟨rfl, hk⟩]
  rfl

theorem expectedSet_eq_none {immutable : Bool} {k : ℤ} {x : α} :
    expectedSet xs immutable k x = none ↔ immutable = true ∨ xs.length ≤ k := by
  rw [expectedSet]
  split
  · rename_i h
    simp only [reduceCtorEq, h.1, Bool.false_eq_true, false_or, false_iff]
    omega
  · rename_i h
    simp only [true_iff]
    cases immutable with
    | true => exact Or.inl rfl
    | false =>
      exact Or.inr (Int.not_lt.mp fun hlt => h ⟨rfl, hlt⟩)

/-- A reading access that tests `t` against the length: where it is `ok` the number tested is
the one given, elsewhere that one is too great. -/
theorem meets_ref_iff {t : ℤ} {ok : Prop} {text : String} {irritant : Option ℤ}
    (htest : ok → t = k.val) (hindex : ok → t < xs.length → k.index = k.val)
    (hout : ¬ ok → xs.length ≤ k.val) :
    Meets xs (expectedRef xs k.val)
        (if xs.length ≤ t then .error xs text irritant else read xs k.index) ↔
      ok ∨ xs.length ≤ t := by
  split
  · rename_i herror
    rw [meets_error, expectedRef_eq_none k.nonneg]
    refine iff_of_true ?_ (Or.inr herror)
    by_cases hok : ok
    · rw [← htest hok]
      exact herror
    · exact hout hok
  · rename_i hin
    by_cases hok : ok
    · have ht := htest hok
      rw [hindex hok (Int.not_le.mp hin)]
      exact iff_of_true (meets_read k.nonneg (by omega)) (Or.inl hok)
    · rw [(expectedRef_eq_none k.nonneg).mpr (hout hok)]
      exact iff_of_false not_meets_read (not_or.mpr ⟨hok, hin⟩)

/-- A writing access, which also tests whether the contents may be changed. -/
theorem meets_set_iff {t : ℤ} {ok : Prop} {immutable : Bool} {x : α} {text text' : String}
    {irritant irritant' : Option ℤ} (htest : ok → t = k.val)
    (hindex : ok → t < xs.length → k.index = k.val) (hout : ¬ ok → xs.length ≤ k.val) :
    Meets xs (expectedSet xs immutable k.val x)
        (if immutable then .error xs text irritant
          else if xs.length ≤ t then .error xs text' irritant' else write xs k.index x) ↔
      immutable = true ∨ ok ∨ xs.length ≤ t := by
  cases immutable with
  | true =>
    rw [if_pos rfl, meets_error, expectedSet_eq_none]
    exact iff_of_true (Or.inl rfl) (Or.inl rfl)
  | false =>
    rw [if_neg Bool.false_ne_true]
    split
    · rename_i herror
      rw [meets_error, expectedSet_eq_none]
      refine iff_of_true (Or.inr ?_) (Or.inr (Or.inr herror))
      by_cases hok : ok
      · rw [← htest hok]
        exact herror
      · exact hout hok
    · rename_i hin
      by_cases hok : ok
      · have ht := htest hok
        rw [hindex hok (Int.not_le.mp hin)]
        exact iff_of_true (meets_write k.nonneg (by omega)) (Or.inr (Or.inl hok))
      · rw [expectedSet_eq_none.mpr (Or.inr (hout hok))]
        apply iff_of_false not_meets_write
        simp only [Bool.false_eq_true, false_or]
        exact not_or.mpr ⟨hok, hin⟩

/-! ## Strings -/

theorem strRef_iff (s : Text) (k : Natural) :
    Meets s.chars (expectedRef s.chars k.val) (strRef s k) ↔
      k.val < 2 ^ 31 ∨ s.chars.length ≤ k.index := by
  have hlen := s.length_lt
  apply meets_ref_iff Natural.index_eq
  · exact fun hk _ => Natural.index_eq hk
  · omega

theorem strSet_iff (s : Text) (k : Natural) (c : ℤ) :
    Meets s.chars (expectedSet s.chars s.immutable k.val (UInt8.ofInt c)) (strSet s k c) ↔
      s.immutable = true ∨ k.val < 2 ^ 31 ∨ s.chars.length ≤ k.index := by
  have hlen := s.length_lt
  apply meets_set_iff Natural.index_eq
  · exact fun hk _ => Natural.index_eq hk
  · omega

theorem meets_copy {k₀ k₁ : ℤ} {e : Option ℤ} (h₀ : 0 ≤ k₀) (he : e.getD xs.length = k₁)
    (hle : k₀ ≤ k₁ ∧ k₁ ≤ xs.length) :
    Meets xs (expectedSubstr xs k₀ e) (copy xs k₀ (k₁ - k₀)) := by
  rw [copy, if_neg (by omega), expectedSubstr, he, if_pos hle]
  rfl

theorem expectedSubstr_eq_none {k₀ : ℤ} {k₁ : Option ℤ} :
    expectedSubstr xs k₀ k₁ = none ↔
      k₁.getD xs.length < k₀ ∨ xs.length < k₁.getD xs.length := by
  rw [expectedSubstr]
  split
  · rename_i h
    simp only [reduceCtorEq, false_iff]
    omega
  · rename_i h
    simp only [true_iff]
    omega

theorem substr_iff (s : Text) (k₀ : Natural) (k₁ : Option Natural) :
    Meets s.chars (expectedSubstr s.chars k₀.val (k₁.map Natural.val)) (substr s k₀ k₁) ↔
      (k₀.val < 2 ^ 31 ∧ ∀ k ∈ k₁, k.val < 2 ^ 31) ∨ s.chars.length < k₀.index ∨
        ∃ k ∈ k₁, s.chars.length < k.index ∨ k.index < k₀.index := by
  have hlen := s.length_lt
  have h₀ := k₀.nonneg
  have hindex₀ : k₀.val < 2 ^ 31 → k₀.index = k₀.val := Natural.index_eq
  unfold substr
  cases k₁ with
  | none =>
    simp only [Option.map_none, Option.not_mem_none, false_imp_iff, implies_true, and_true,
      false_and, exists_false, or_false]
    split
    · rename_i hout
      rw [meets_error, expectedSubstr_eq_none]
      refine iff_of_true (Or.inl ?_) (Or.inr hout)
      show (s.chars.length : ℤ) < k₀.val
      omega
    · rename_i hin
      by_cases hk : k₀.val < 2 ^ 31
      · rw [hindex₀ hk] at hin ⊢
        refine iff_of_true (meets_copy h₀ rfl ⟨?_, ?_⟩) (Or.inl hk)
        · show k₀.val ≤ s.chars.length
          omega
        · exact Int.le_refl _
      · have hexpected : expectedSubstr s.chars k₀.val none = none := by
          apply expectedSubstr_eq_none.mpr
          left
          show (s.chars.length : ℤ) < k₀.val
          omega
        rw [hexpected]
        exact iff_of_false not_meets_copy (by omega)
  | some k₁ =>
    have h₁ := k₁.nonneg
    have hindex₁ : k₁.val < 2 ^ 31 → k₁.index = k₁.val := Natural.index_eq
    simp only [Option.map_some, Option.mem_some_iff, forall_eq', exists_eq_left']
    have hnone : expectedSubstr s.chars k₀.val (some k₁.val) = none ↔
        k₁.val < k₀.val ∨ s.chars.length < k₁.val := expectedSubstr_eq_none
    split
    · rename_i hout
      rw [meets_error, hnone]
      refine iff_of_true ?_ (Or.inr (Or.inl hout))
      omega
    · rename_i hin
      split
      · rename_i hout
        rw [meets_error, hnone]
        refine iff_of_true ?_ (Or.inr (Or.inr hout))
        omega
      · rename_i hin'
        by_cases hk : k₀.val < 2 ^ 31 ∧ k₁.val < 2 ^ 31
        · rw [hindex₀ hk.1, hindex₁ hk.2] at *
          refine iff_of_true (meets_copy h₀ rfl ⟨?_, ?_⟩) (Or.inl hk)
          · show k₀.val ≤ k₁.val
            omega
          · show k₁.val ≤ s.chars.length
            omega
        · rw [hnone.mpr (by omega)]
          exact iff_of_false not_meets_copy (by omega)

/-! ## Vectors -/

theorem vecRef_iff (v : Vec α) (k : Natural) :
    Meets v.elems (expectedRef v.elems k.val) (vecRef v k) ↔
      k.val < 2 ^ 32 ∨ v.elems.length ≤ k.val % 2 ^ 32 := by
  have hlen := v.length_lt
  have hk := k.nonneg
  rw [vecRef, k.index_emod]
  apply meets_ref_iff
  · omega
  · exact fun _ _ => Natural.index_eq (by omega)
  · omega

example :
    vecRef (⟨[1], false, by decide⟩ : Vec ℕ) ⟨2 ^ 32, by decide, by decide⟩ = .done [1] 1 := rfl

theorem vecSet_iff (v : Vec α) (k : Natural) (x : α) :
    Meets v.elems (expectedSet v.elems v.immutable k.val x) (vecSet v k x) ↔
      v.immutable = true ∨ k.val < 2 ^ 32 ∨ v.elems.length ≤ k.val % 2 ^ 32 := by
  have hlen := v.length_lt
  have hk := k.nonneg
  rw [vecSet, k.index_emod]
  apply meets_set_iff
  · omega
  · exact fun _ _ => Natural.index_eq (by omega)
  · omega

/-- The calls of the five procedures that access what their numbers denote. -/
theorem access_iff :
    (∀ (s : Text) (k : Natural), Meets s.chars (expectedRef s.chars k.val) (strRef s k) ↔
      k.val < 2 ^ 31 ∨ s.chars.length ≤ k.index) ∧
    (∀ (s : Text) (k : Natural) (c : ℤ),
      Meets s.chars (expectedSet s.chars s.immutable k.val (UInt8.ofInt c)) (strSet s k c) ↔
        s.immutable = true ∨ k.val < 2 ^ 31 ∨ s.chars.length ≤ k.index) ∧
    (∀ (s : Text) (k₀ : Natural) (k₁ : Option Natural),
      Meets s.chars (expectedSubstr s.chars k₀.val (k₁.map Natural.val)) (substr s k₀ k₁) ↔
        (k₀.val < 2 ^ 31 ∧ ∀ k ∈ k₁, k.val < 2 ^ 31) ∨ s.chars.length < k₀.index ∨
          ∃ k ∈ k₁, s.chars.length < k.index ∨ k.index < k₀.index) ∧
    (∀ (v : Vec α) (k : Natural), Meets v.elems (expectedRef v.elems k.val) (vecRef v k) ↔
      k.val < 2 ^ 32 ∨ v.elems.length ≤ k.val % 2 ^ 32) ∧
    ∀ (v : Vec α) (k : Natural) (x : α),
      Meets v.elems (expectedSet v.elems v.immutable k.val x) (vecSet v k x) ↔
        v.immutable = true ∨ k.val < 2 ^ 32 ∨ v.elems.length ≤ k.val % 2 ^ 32 :=
  ⟨strRef_iff, strSet_iff, substr_iff, vecRef_iff, vecSet_iff⟩

/-- `(string-ref "" 2147483648)` reads before the string. -/
theorem not_meets_strRef :
    ¬ ∀ (s : Text) (k : Natural), Meets s.chars (expectedRef s.chars k.val) (strRef s k) := by
  intro h
  have hone := h ⟨[], false, by decide⟩ ⟨2 ^ 31, by decide, by decide⟩
  obtain ⟨text, irritant, hone⟩ := hone
  cases hone

end Extempore.IndexedAccess
