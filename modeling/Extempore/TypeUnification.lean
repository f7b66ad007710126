import Mathlib.Data.Int.Notation
import Extempore.FirstOccurrences

/-!
# Type unification on ground candidates

Types are Scheme values: numbers for the base types, lists whose first element tells the
constructor for the complex ones, and lists of numbers for a choice. There are no symbols, no
strings and no type variables here, so the branches for them are left out.
-/

namespace Extempore.TypeUnification
open FirstOccurrences

/-- A number or a list. -/
inductive Value where
  | num (n : ℤ)
  | list (vs : List Value)
  deriving Repr

mutual

def Value.decEq : (v w : Value) → Decidable (v = w)
  | .num n, .num m => decidable_of_iff (n = m) (by simp)
  | .list vs, .list ws => @decidable_of_iff _ (vs = ws) (by simp) (Value.decEqList vs ws)
  | .num _, .list _ => isFalse (by simp)
  | .list _, .num _ => isFalse (by simp)

def Value.decEqList : (vs ws : List Value) → Decidable (vs = ws)
  | [], [] => isTrue rfl
  | v :: vs, w :: ws =>
      @decidable_of_iff _ (v = w ∧ vs = ws) (by simp)
        (@instDecidableAnd _ _ (Value.decEq v w) (Value.decEqList vs ws))
  | [], _ :: _ => isFalse (by simp)
  | _ :: _, [] => isFalse (by simp)

end

instance : DecidableEq Value := Value.decEq

/-! ## Predicates on types -/

def closureCode : ℤ := 13
def tupleCode : ℤ := 14
def arrayCode : ℤ := 15
def vectorCode : ℤ := 16

/-- `impc:ir:closure?`, `impc:ir:tuple?` and so on, by the code of the constructor, which is
taken modulo `*impc:ir:pointer*`. -/
def hasCode (code : ℤ) : Value → Bool
  | .num n => n % 100 == code
  | .list (v :: _ :: _) => hasCode code v
  | .list _ => false

/-- `atom?`; the empty list is one. -/
def isAtom : Value → Bool
  | .num _ | .list [] => true
  | .list (_ :: _) => false

def isNumber : Value → Bool
  | .num _ => true
  | .list _ => false

def isList (v : Value) : Bool := !isNumber v

mutual

/-- `impc:ir:type?`. -/
def isType : Value → Bool
  | .num n => n < 1001
  | .list vs => match vs with
    | [] => false
    | c :: rest =>
        isNumber c && (hasCode closureCode (.list vs) || hasCode tupleCode (.list vs)) &&
            isTypes rest ||
          isNumber c && (hasCode arrayCode (.list vs) || hasCode vectorCode (.list vs)) &&
            isSecondType rest

def isTypes : List Value → Bool
  | [] => true
  | v :: vs => isType v && isTypes vs

/-- The `caddr` of the type, where it has one. -/
def isSecondType : List Value → Bool
  | _ :: v :: _ => isType v
  | _ => false

end

/-- `impc:ti:complex-type?`. -/
def isComplexType : Value → Bool
  | .list (.num n :: _) => n != -1 &&
      (n % 100 == tupleCode || n % 100 == arrayCode || n % 100 == vectorCode ||
        n % 100 == closureCode)
  | _ => false

/-! ## Type unification -/

mutual

/-- `impc:ti:type-normalize`; without named types nothing is replaced. -/
def typeNormalize : Value → Value
  | .num n => .num n
  | .list vs => .list (normalizeFrom vs)

def normalizeFrom : List Value → List Value
  | [] => []
  | v :: vs =>
      if !isType v && isNumber v && hasCode tupleCode v then typeNormalize v :: normalizeAll vs
      else typeNormalize v :: normalizeFrom vs

def normalizeAll : List Value → List Value
  | [] => []
  | v :: vs => typeNormalize v :: normalizeAll vs

end

mutual

/-- `impc:ti:type-clean`. -/
def typeClean : Value → Value
  | .num n => .num n
  | .list vs => if vs.isEmpty || isType (.list vs) then .list vs else .list (cleanAll vs)

def cleanAll : List Value → List Value
  | [] => []
  | .num n :: vs => .num n :: cleanAll vs
  | .list [v] :: vs => typeClean v :: cleanAll vs
  | .list ws :: vs => typeClean (.list ws) :: cleanAll vs

end

mutual

/-- The atoms of a value; the empty list has none. -/
def atoms : Value → List Value
  | .num n => [.num n]
  | .list vs => flatten vs

def flatten : List Value → List Value
  | [] => []
  | v :: vs => atoms v ++ flatten vs

end

/-- `flatten-1`. -/
def flattenOnce : List Value → List Value
  | [] => []
  | .list (.list ws :: vs) :: rest => flattenOnce (.list ws :: vs) ++ flattenOnce rest
  | v :: rest => v :: flattenOnce rest

def size : Value → ℕ
  | .num _ => 0
  | .list vs => vs.length

/-- `impc:ti:type-unify-closure`, whose unified columns are computed and thrown away. -/
def typeUnifyClosure (t : List Value) : List Value :=
  match t with
  | .list _ :: _ => match flattenOnce t with
    | v :: vs => (v :: vs).filter fun w => !(isAtom w || size w != size v)
    | [] => []
  | _ => t

/-- Numbers against choices. -/
def crunch (result : List Value) : Value :=
  if result.any isList && !result.any isComplexType then
    let nonChoices := (result.filter (!isList ·)).eraseDups
    let choices := (flatten (result.filter (!isAtom ·))).eraseDups
    match nonChoices with
    | [n] => if n ∈ choices then n else .list (flatten result).eraseDups
    | _ => .list (flatten result).eraseDups
  else .list result

/-- Resolved types are preferred. -/
def preferResolved (result : List Value) : List Value :=
  let resolved := (result.filter fun v => isType v && isComplexType v).eraseDups
  if resolved.isEmpty then result else resolved

/-- The last case analysis, on a list. -/
def finish : List Value → Value
  | [] => .list []
  | v :: vs =>
      if !isType (.list (v :: vs)) && hasCode tupleCode v then
        let r := (v :: vs).filter isType
        match r.eraseDups with
        | [w] => w
        | _ => .list r
      else if vs.isEmpty then v
      else if hasCode closureCode v then .list (typeUnifyClosure (v :: vs))
      else if isType (.list (v :: vs)) || (v :: vs).all isNumber then .list (v :: vs)
      else .list []

/-- The steps behind the first one, which returns a single type at once. -/
def narrow (result : List Value) : Value :=
  match crunch result with
  | .num n => .num n
  | .list vs => finish (preferResolved vs)

/-- What `impc:ti:type-unify` does with the unified candidates. -/
def settle (ts : List Value) : Value :=
  match ts.eraseDups with
  | [v] => if isType v then v else narrow [v]
  | result => narrow result

mutual

/-- `impc:ti:type-unify`, without type variables. -/
def typeUnify : Value → Value
  | .num n => .num n
  | .list vs =>
      let us := unifyAll vs
      if vs.isEmpty then .list []
      else if isComplexType (.list vs) then .list us
      else match us with
        | [u] => u
        | us => settle (normalizeFrom (us.map typeClean))

def unifyAll : List Value → List Value
  | [] => []
  | v :: vs => typeUnify v :: unifyAll vs

end

/-! ## Ground candidates -/

/-- The number of a base type, possibly of a pointer to one. -/
def IsBase (n : ℤ) : Prop :=
  n < 1001 ∧ n % 100 ≠ closureCode ∧ n % 100 ≠ tupleCode ∧ n % 100 ≠ arrayCode ∧
    n % 100 ≠ vectorCode

instance (n : ℤ) : Decidable (IsBase n) :=
  inferInstanceAs (Decidable (_ ∧ _ ∧ _ ∧ _ ∧ _))

mutual

/-- A fully formed type without named parts. -/
def IsFull : Value → Prop
  | .num n => IsBase n
  | .list vs => IsFullList vs

/-- The parts of a complex type: the code of the constructor first. -/
def IsFullList : List Value → Prop
  | [] => False
  | .list _ :: _ => False
  | .num c :: parts => (c % 100 = closureCode ∨ c % 100 = tupleCode) ∧ parts ≠ [] ∧ AreFull parts ∨
      (c % 100 = arrayCode ∨ c % 100 = vectorCode) ∧ IsSized parts

def AreFull : List Value → Prop
  | [] => True
  | v :: vs => IsFull v ∧ AreFull vs

/-- A number of elements and their type. -/
def IsSized : List Value → Prop
  | [.num _, v] => IsFull v
  | _ => False

end

/-- A base type, a choice of base types, or a complex type. -/
inductive Candidate where
  | base (n : ℤ) (h : IsBase n)
  | choice (ns : List ℤ) (h : ∀ n ∈ ns, IsBase n)
  | complex (vs : List Value) (h : IsFull (.list vs))

def Candidate.toValue : Candidate → Value
  | .base n _ => .num n
  | .choice ns _ => .list (ns.map .num)
  | .complex vs _ => .list vs

/-- `impc:ti:type-unify` of a list of candidates. -/
def unify (t : List Candidate) : Value := typeUnify (.list (t.map Candidate.toValue))

/-- The candidate is the type or a choice list that contains it. -/
def Candidate.Allows (T : Value) : Candidate → Prop
  | .base n _ => T = .num n
  | .choice ns _ => ∃ n ∈ ns, T = .num n
  | .complex vs _ => T = .list vs

/-- What unification promises: a fully formed result is allowed by every candidate, different
complex types give the empty list, and reordering and duplicating candidates changes nothing. -/
structure Sound (t : List Candidate) : Prop where
  allowed : isType (unify t) → ∀ c ∈ t, c.Allows (unify t)
  conflict : ∀ vs ws h h', Candidate.complex vs h ∈ t → Candidate.complex ws h' ∈ t → vs ≠ ws →
    unify t = .list []
  stable : ∀ t', (∀ c, c ∈ t' ↔ c ∈ t) → unify t' = unify t

/-! ## Numbers and complex types -/

theorem isType_base {n : ℤ} (h : IsBase n) : isType (.num n) = true := by
  simp [isType, h.1]

theorem hasCode_base {n : ℤ} (h : IsBase n) :
    hasCode closureCode (.num n) = false ∧ hasCode tupleCode (.num n) = false ∧
      hasCode arrayCode (.num n) = false ∧ hasCode vectorCode (.num n) = false := by
  obtain ⟨-, h1, h2, h3, h4⟩ := h
  simp [hasCode, h1, h2, h3, h4]

theorem isComplexType_base {n : ℤ} (h : IsBase n) (vs : List Value) :
    isComplexType (.list (.num n :: vs)) = false := by
  obtain ⟨-, h1, h2, h3, h4⟩ := h
  simp [isComplexType, h1, h2, h3, h4]

/-- A list that begins with a base type is a type of no kind. -/
theorem isType_base_cons {n : ℤ} (h : IsBase n) (vs : List Value) :
    isType (.list (.num n :: vs)) = false := by
  have hcode (code : ℤ) (hc : hasCode code (.num n) = false) :
      hasCode code (.list (.num n :: vs)) = false := by
    cases vs with
    | nil => rfl
    | cons v vs => exact hc
  obtain ⟨h1, h2, h3, h4⟩ := hasCode_base h
  simp [isType, hcode _ h1, hcode _ h2, hcode _ h3, hcode _ h4]

/-- A list of lists is no type. -/
theorem isType_list_cons (ws vs : List Value) : isType (.list (.list ws :: vs)) = false := by
  simp [isType, isNumber]

mutual

theorem typeNormalize_eq : ∀ v : Value, typeNormalize v = v
  | .num _ => rfl
  | .list vs => congrArg Value.list (normalizeFrom_eq vs)

theorem normalizeFrom_eq : ∀ vs : List Value, normalizeFrom vs = vs
  | [] => rfl
  | v :: vs => by
      rw [normalizeFrom, typeNormalize_eq v, normalizeFrom_eq vs, normalizeAll_eq vs, ite_self]

theorem normalizeAll_eq : ∀ vs : List Value, normalizeAll vs = vs
  | [] => rfl
  | v :: vs => by rw [normalizeAll, typeNormalize_eq v, normalizeAll_eq vs]

end

/-- The constructor of a complex type. -/
theorem full_cases {vs : List Value} (h : IsFull (.list vs)) :
    ∃ c v parts, vs = .num c :: v :: parts ∧
      ((c % 100 = closureCode ∨ c % 100 = tupleCode) ∧ AreFull (v :: parts) ∨
        (c % 100 = arrayCode ∨ c % 100 = vectorCode) ∧ IsSized (v :: parts)) := by
  cases vs with
  | nil => exact h.elim
  | cons c vs =>
    cases c with
    | list ws => exact h.elim
    | num c =>
      cases vs with
      | nil =>
        cases h with
        | inl h => exact absurd rfl h.2.1
        | inr h => exact h.2.elim
      | cons v parts => exact ⟨c, v, parts, rfl, h.imp_left fun h => ⟨h.1, h.2.2⟩⟩

theorem isComplexType_full {vs : List Value} (h : IsFull (.list vs)) :
    isComplexType (.list vs) = true := by
  obtain ⟨c, v, parts, rfl, hor⟩ := full_cases h
  have hvoid : c ≠ -1 := by
    intro hc
    subst hc
    simp [closureCode, tupleCode, arrayCode, vectorCode] at hor
  cases hor with
  | inl hor => cases hor.1 with
    | inl hc => simp [isComplexType, hvoid, hc]
    | inr hc => simp [isComplexType, hvoid, hc]
  | inr hor => cases hor.1 with
    | inl hc => simp [isComplexType, hvoid, hc]
    | inr hc => simp [isComplexType, hvoid, hc]

mutual

theorem isType_full : ∀ v : Value, IsFull v → isType v = true
  | .num n, h => isType_base h
  | .list [], h => h.elim
  | .list (.list _ :: _), h => h.elim
  | .list (.num c :: parts), h => by
      cases h with
      | inl h =>
        obtain ⟨hc, hne, hparts⟩ := h
        have htypes := isTypes_full parts hparts
        cases parts with
        | nil => exact absurd rfl hne
        | cons v parts => cases hc with
          | inl hc => simp [isType, isNumber, hasCode, hc, htypes]
          | inr hc => simp [isType, isNumber, hasCode, hc, htypes]
      | inr h =>
        obtain ⟨hc, hparts⟩ := h
        have htype := isSecondType_full parts hparts
        cases parts with
        | nil => exact hparts.elim
        | cons v parts => cases hc with
          | inl hc => simp [isType, isNumber, hasCode, hc, htype]
          | inr hc => simp [isType, isNumber, hasCode, hc, htype]

theorem isTypes_full : ∀ vs : List Value, AreFull vs → isTypes vs = true
  | [], _ => rfl
  | v :: vs, h => by rw [isTypes, isType_full v h.1, isTypes_full vs h.2, Bool.and_true]

theorem isSecondType_full : ∀ vs : List Value, IsSized vs → isSecondType vs = true
  | [], h => h.elim
  | [.num _], h => h.elim
  | [.list _], h => h.elim
  | [.num _, v], h => isType_full v h
  | [.list _, _], h => h.elim
  | .num _ :: _ :: _ :: _, h => h.elim
  | .list _ :: _ :: _ :: _, h => h.elim

end

mutual

/-- Fully formed types are unified with themselves. -/
theorem typeUnify_full : ∀ v : Value, IsFull v → typeUnify v = v
  | .num _, _ => rfl
  | .list [], h => h.elim
  | .list (.list _ :: _), h => h.elim
  | .list (.num c :: parts), h => by
      have hcomplex := isComplexType_full h
      have hparts : unifyAll parts = parts := by
        cases h with
        | inl h => exact unifyAll_full parts h.2.2
        | inr h => exact unifyAll_sized parts h.2
      rw [typeUnify, if_neg (by simp), if_pos hcomplex, unifyAll, hparts]
      rfl

theorem unifyAll_full : ∀ vs : List Value, AreFull vs → unifyAll vs = vs
  | [], _ => rfl
  | v :: vs, h => by rw [unifyAll, typeUnify_full v h.1, unifyAll_full vs h.2]

theorem unifyAll_sized : ∀ vs : List Value, IsSized vs → unifyAll vs = vs
  | [], h => h.elim
  | [.num _], h => h.elim
  | [.list _], h => h.elim
  | [.num _, v], h => by rw [unifyAll, unifyAll, unifyAll, typeUnify_full v h, typeUnify]
  | [.list _, _], h => h.elim
  | .num _ :: _ :: _ :: _, h => h.elim
  | .list _ :: _ :: _ :: _, h => h.elim

end

/-! ## Lists of numbers -/

/-- A single number, or a list of several or none. -/
def ofNumbers : List ℤ → Value
  | [n] => .num n
  | ns => .list (ns.map .num)

theorem num_injective : Function.Injective Value.num := by
  intro n m h
  cases h
  rfl

theorem ofNumbers_eq_list {ns : List ℤ} (h : ns.length ≠ 1) :
    ofNumbers ns = .list (ns.map .num) := by
  match ns with
  | [] => rfl
  | [n] => exact absurd rfl h
  | _ :: _ :: _ => rfl

theorem ofNumbers_injective : Function.Injective ofNumbers := by
  intro ns ms h
  by_cases hn : ns.length = 1
  · obtain ⟨n, rfl⟩ := List.length_eq_one_iff.mp hn
    by_cases hm : ms.length = 1
    · obtain ⟨m, rfl⟩ := List.length_eq_one_iff.mp hm
      cases h
      rfl
    · rw [ofNumbers_eq_list hm] at h
      cases h
  · rw [ofNumbers_eq_list hn] at h
    by_cases hm : ms.length = 1
    · obtain ⟨m, rfl⟩ := List.length_eq_one_iff.mp hm
      cases h
    · rw [ofNumbers_eq_list hm] at h
      injection h with h
      exact List.map_injective_iff.mpr num_injective h

/-- A list of base types in the last case analysis. -/
theorem finish_numbers {ns : List ℤ} (h : ∀ n ∈ ns, IsBase n) :
    finish (ns.map .num) = ofNumbers ns := by
  match ns with
  | [] => rfl
  | [n] =>
    have hn := h n List.mem_cons_self
    simp [finish, (hasCode_base hn).2.1, ofNumbers]
  | n :: m :: ns =>
    have hn := h n List.mem_cons_self
    have hall : (Value.num n :: Value.num m :: ns.map Value.num).all isNumber = true := by
      simp [isNumber]
    simp [finish, (hasCode_base hn).1, (hasCode_base hn).2.1, ofNumbers, hall]

theorem isComplexType_ofNumbers {ns : List ℤ} (h : ∀ n ∈ ns, IsBase n) :
    isComplexType (ofNumbers ns) = false := by
  match ns with
  | [] => rfl
  | [n] => rfl
  | n :: m :: ns => exact isComplexType_base (h n List.mem_cons_self) _

theorem preferResolved_numbers (ns : List ℤ) :
    preferResolved (ns.map .num) = ns.map .num := by
  have hnone : (ns.map Value.num).filter (fun v => isType v && isComplexType v) = [] := by
    apply List.filter_eq_nil_iff.mpr
    intro v hv
    obtain ⟨n, -, rfl⟩ := List.mem_map.mp hv
    simp [isComplexType]
  simp [preferResolved, hnone]

/-! ## Settling numbers and choices -/

/-- The numbers that stand alone, and those of the other lists. -/
def singles (M : List (List ℤ)) : List ℤ := (M.filter (·.length = 1)).flatten

def several (M : List (List ℤ)) : List ℤ := (M.filter (·.length ≠ 1)).flatten

/-- The numbers that remain of different lists of numbers. -/
def remaining (M : List (List ℤ)) : List ℤ :=
  match singles M with
  | [n] => if n ∈ several M then [n] else M.flatten.eraseDups
  | _ => M.flatten.eraseDups

theorem flatten_nums (ns : List ℤ) : flatten (ns.map .num) = ns.map .num := by
  induction ns with
  | nil => rfl
  | cons n ns ih => rw [List.map_cons, flatten, atoms, ih, List.singleton_append]

theorem atoms_ofNumbers (ns : List ℤ) : atoms (ofNumbers ns) = ns.map .num := by
  match ns with
  | [] => rfl
  | [n] => rfl
  | n :: m :: ns => exact flatten_nums (n :: m :: ns)

theorem flatten_ofNumbers (M : List (List ℤ)) :
    flatten (M.map ofNumbers) = M.flatten.map .num := by
  induction M with
  | nil => rfl
  | cons ns M ih =>
    rw [List.map_cons, flatten, atoms_ofNumbers, ih, List.flatten_cons, List.map_append]

theorem isList_ofNumbers (ns : List ℤ) : isList (ofNumbers ns) = decide (ns.length ≠ 1) := by
  match ns with
  | [] => rfl
  | [n] => rfl
  | n :: m :: ns => simp [ofNumbers, isList, isNumber]

theorem filter_isNumber (M : List (List ℤ)) :
    (M.map ofNumbers).filter (!isList ·) = (singles M).map .num := by
  induction M with
  | nil => rfl
  | cons ns M ih =>
    rw [List.map_cons, List.filter_cons, isList_ofNumbers, ih, singles, singles, List.filter_cons]
    by_cases h : ns.length = 1
    · obtain ⟨n, rfl⟩ := List.length_eq_one_iff.mp h
      rfl
    · simp [h]

theorem flatten_filter_isAtom (M : List (List ℤ)) :
    flatten ((M.map ofNumbers).filter (!isAtom ·)) = (several M).map .num := by
  induction M with
  | nil => rfl
  | cons ns M ih =>
    rw [List.map_cons, List.filter_cons]
    match ns with
    | [] => exact ih
    | [n] => exact ih
    | n :: m :: ns =>
      show flatten (ofNumbers (n :: m :: ns) :: _) = _
      rw [flatten, atoms_ofNumbers, ih, ← List.map_append]
      rfl

theorem nodup_singles {M : List (List ℤ)} (h : M.Nodup) : (singles M).Nodup := by
  induction M with
  | nil => exact List.nodup_nil
  | cons ns M ih =>
    obtain ⟨hns, hM⟩ := List.nodup_cons.mp h
    rw [singles, List.filter_cons]
    by_cases hl : ns.length = 1
    · obtain ⟨n, rfl⟩ := List.length_eq_one_iff.mp hl
      rw [if_pos (by simp), List.flatten_cons, List.singleton_append, List.nodup_cons]
      refine ⟨fun hmem => ?_, ih hM⟩
      obtain ⟨ms, hms, hn⟩ := List.mem_flatten.mp hmem
      obtain ⟨hms, hone⟩ := List.mem_filter.mp hms
      obtain ⟨m, rfl⟩ := List.length_eq_one_iff.mp (by simpa using hone)
      rw [List.mem_singleton.mp hn] at hns
      exact hns hms
    · rw [if_neg (by simpa using hl)]
      exact ih hM

/-- Lists of base types. -/
def AllBase (M : List (List ℤ)) : Prop := ∀ ns ∈ M, ∀ n ∈ ns, IsBase n

theorem finish_remaining {ns : List ℤ} (h : ∀ n ∈ ns, IsBase n) :
    finish (preferResolved (ns.map .num)) = ofNumbers ns := by
  rw [preferResolved_numbers, finish_numbers h]

theorem crunch_numbers {M : List (List ℤ)} (hM : M.Nodup) (hbase : AllBase M) :
    crunch (M.map ofNumbers) =
      if M.any (·.length ≠ 1) then
        match singles M with
        | [n] => if n ∈ several M then .num n else .list (M.flatten.eraseDups.map .num)
        | _ => .list (M.flatten.eraseDups.map .num)
      else .list (M.map ofNumbers) := by
  have hcomplex : (M.map ofNumbers).any isComplexType = false := by
    apply List.any_eq_false.mpr
    intro v hv
    obtain ⟨ns, hns, rfl⟩ := List.mem_map.mp hv
    simp [isComplexType_ofNumbers (hbase ns hns)]
  have hlist : (M.map ofNumbers).any isList = M.any (·.length ≠ 1) := by
    rw [List.any_map]
    congr 1
    funext ns
    exact isList_ofNumbers ns
  have hsingles := eraseDups_of_nodup ((nodup_singles hM).map num_injective)
  have hflatten : (flatten (M.map ofNumbers)).eraseDups = M.flatten.eraseDups.map .num := by
    rw [flatten_ofNumbers, eraseDups_map num_injective]
  simp only [crunch, hlist, hcomplex, Bool.not_false, Bool.and_true, filter_isNumber, hsingles,
    flatten_filter_isAtom, hflatten]
  split
  · match singles M with
    | [] => rfl
    | [n] =>
      simp only [List.map_cons, List.map_nil]
      have hiff : Value.num n ∈ ((several M).map Value.num).eraseDups ↔ n ∈ several M := by
        rw [List.mem_eraseDups]
        exact List.mem_map_of_injective num_injective
      simp only [hiff]
    | _ :: _ :: _ => rfl
  · rfl

theorem narrow_numbers {M : List (List ℤ)} (hM : M.Nodup) (hbase : AllBase M) :
    narrow (M.map ofNumbers) = ofNumbers (remaining M) := by
  have hflat : ∀ n ∈ M.flatten.eraseDups, IsBase n := by
    intro n hn
    obtain ⟨ns, hns, hmem⟩ := List.mem_flatten.mp (List.mem_eraseDups.mp hn)
    exact hbase ns hns n hmem
  rw [narrow, crunch_numbers hM hbase]
  by_cases hany : M.any (·.length ≠ 1) = true
  · rw [if_pos hany, remaining]
    match singles M with
    | [] => exact finish_remaining hflat
    | [n] =>
      by_cases hn : n ∈ several M
      · simp only [if_pos hn]
        rfl
      · simp only [if_neg hn]
        exact finish_remaining hflat
    | _ :: _ :: _ => exact finish_remaining hflat
  · rw [if_neg hany]
    have hone : ∀ ns ∈ M, ns.length = 1 := by
      intro ns hns
      by_contra hne
      exact hany (List.any_eq_true.mpr ⟨ns, hns, by simpa using hne⟩)
    have hall : M.filter (·.length = 1) = M := by
      apply List.filter_eq_self.mpr
      intro ns hns
      simp [hone ns hns]
    have hnone : several M = [] := by
      have hfilter : M.filter (·.length ≠ 1) = [] := by
        apply List.filter_eq_nil_iff.mpr
        intro ns hns
        simp [hone ns hns]
      rw [several, hfilter, List.flatten_nil]
    have hsingles : singles M = M.flatten := by rw [singles, hall]
    have hnodup : M.flatten.eraseDups = M.flatten := by
      apply eraseDups_of_nodup
      rw [← hsingles]
      exact nodup_singles hM
    have hmap : M.map ofNumbers = M.flatten.map .num := by
      clear hbase hflat hany hall hnone hsingles hnodup hM
      induction M with
      | nil => rfl
      | cons ns M ih =>
        obtain ⟨n, rfl⟩ := List.length_eq_one_iff.mp (hone ns List.mem_cons_self)
        rw [List.map_cons, ih fun ms hms => hone ms (List.mem_cons_of_mem _ hms)]
        rfl
    have hremaining : remaining M = M.flatten := by
      rw [remaining, hnone, hnodup]
      split <;> simp
    rw [hremaining, hmap, ← hnodup]
    exact finish_remaining hflat

theorem isType_ofNumbers {ns : List ℤ} (h : ∀ n ∈ ns, IsBase n) :
    isType (ofNumbers ns) = decide (ns.length = 1) := by
  match ns with
  | [] => rfl
  | [n] => exact isType_base (h n List.mem_cons_self)
  | n :: m :: ns =>
    rw [ofNumbers_eq_list (by simp), List.map_cons, isType_base_cons (h n List.mem_cons_self)]
    simp

theorem settle_numbers {ls : List (List ℤ)} (hbase : AllBase ls) :
    settle (ls.map ofNumbers) = ofNumbers (remaining ls.eraseDups) := by
  have hbase' : AllBase ls.eraseDups := fun ns hns => hbase ns (List.mem_eraseDups.mp hns)
  have hnarrow := narrow_numbers (nodup_eraseDups ls) hbase'
  rw [settle, eraseDups_map ofNumbers_injective]
  match hM : ls.eraseDups with
  | [] =>
    rw [hM] at hnarrow
    exact hnarrow
  | [ns] =>
    rw [hM] at hnarrow hbase'
    show (if isType (ofNumbers ns) = true then ofNumbers ns else _) = _
    rw [isType_ofNumbers (hbase' ns List.mem_cons_self)]
    by_cases hone : ns.length = 1
    · obtain ⟨n, rfl⟩ := List.length_eq_one_iff.mp hone
      rfl
    · rw [if_neg (by simpa using hone)]
      exact hnarrow
  | _ :: _ :: _ =>
    rw [hM] at hnarrow
    exact hnarrow

/-! ## Unifying candidates -/

/-- The different numbers of a candidate; a complex type has none. -/
def Candidate.numbers : Candidate → List ℤ
  | .base n _ => [n]
  | .choice ns _ => ns.eraseDups
  | .complex _ _ => []

def Candidate.IsComplex : Candidate → Prop
  | .complex _ _ => True
  | _ => False

theorem Candidate.IsComplex.exists_eq {c : Candidate} (h : c.IsComplex) :
    ∃ vs hvs, c = .complex vs hvs := by
  cases c with
  | base n hn => exact h.elim
  | choice ns hns => exact h.elim
  | complex vs hvs => exact ⟨vs, hvs, rfl⟩

/-- What one candidate is unified with. -/
def Candidate.unified : Candidate → Value
  | .complex vs _ => .list vs
  | c => ofNumbers c.numbers

theorem Candidate.numbers_base (c : Candidate) : ∀ n ∈ c.numbers, IsBase n := by
  intro n hn
  cases c with
  | base m h =>
    rw [List.mem_singleton.mp hn]
    exact h
  | choice ns h => exact h n (List.mem_eraseDups.mp hn)
  | complex vs h => cases hn

theorem Candidate.numbers_nodup (c : Candidate) : c.numbers.Nodup := by
  cases c with
  | base n h => exact List.nodup_singleton n
  | choice ns h => exact nodup_eraseDups ns
  | complex vs h => exact List.nodup_nil

theorem Candidate.unified_eq {c : Candidate} (h : ¬ c.IsComplex) :
    c.unified = ofNumbers c.numbers := by
  cases c with
  | base n hn => rfl
  | choice ns hns => rfl
  | complex vs hvs => exact absurd trivial h

theorem unifyAll_nums (ns : List ℤ) : unifyAll (ns.map .num) = ns.map .num := by
  induction ns with
  | nil => rfl
  | cons n ns ih => rw [List.map_cons, unifyAll, ih, typeUnify]

theorem cleanAll_nums (ns : List ℤ) : cleanAll (ns.map .num) = ns.map .num := by
  induction ns with
  | nil => rfl
  | cons n ns ih => rw [List.map_cons, cleanAll, ih]

theorem typeClean_nums (ns : List ℤ) : typeClean (.list (ns.map .num)) = .list (ns.map .num) := by
  rw [typeClean, cleanAll_nums, ite_self]

theorem remaining_map_singleton {ns : List ℤ} (h : ns.Nodup) :
    remaining (ns.map fun n => [n]) = ns := by
  have hsingles : singles (ns.map fun n => [n]) = ns := by
    have hall : (ns.map fun n => [n]).filter (·.length = 1) = ns.map fun n => [n] := by
      apply List.filter_eq_self.mpr
      intro l hl
      obtain ⟨n, -, rfl⟩ := List.mem_map.mp hl
      rfl
    rw [singles, hall, ← List.flatMap_def]
    exact List.flatMap_singleton' ns
  have hseveral : several (ns.map fun n => [n]) = [] := by
    have hnone : (ns.map fun n => [n]).filter (·.length ≠ 1) = [] := by
      apply List.filter_eq_nil_iff.mpr
      intro l hl
      obtain ⟨n, -, rfl⟩ := List.mem_map.mp hl
      simp
    rw [several, hnone, List.flatten_nil]
  have hflatten : (ns.map fun n => [n]).flatten.eraseDups = ns := by
    rw [← List.flatMap_def, List.flatMap_singleton' ns]
    exact eraseDups_of_nodup h
  rw [remaining, hsingles, hseveral, hflatten]
  split <;> simp

theorem settle_nums {ns : List ℤ} (h : ∀ n ∈ ns, IsBase n) :
    settle (ns.map .num) = ofNumbers ns.eraseDups := by
  have hbase : AllBase (ns.map fun n => [n]) := by
    intro l hl n hn
    obtain ⟨m, hm, rfl⟩ := List.mem_map.mp hl
    rw [List.mem_singleton.mp hn]
    exact h m hm
  have hmap : ns.map .num = (ns.map fun n => [n]).map ofNumbers := by
    rw [List.map_map]
    rfl
  have hinj : Function.Injective fun n : ℤ => [n] := fun _ _ heq => List.singleton_inj.mp heq
  rw [hmap, settle_numbers hbase, eraseDups_map hinj,
    remaining_map_singleton (nodup_eraseDups ns)]

theorem typeUnify_candidate (c : Candidate) : typeUnify c.toValue = c.unified := by
  cases c with
  | base n h => rfl
  | complex vs h => exact typeUnify_full _ h
  | choice ns h =>
    match ns with
    | [] => rfl
    | [n] =>
      have hcomplex := isComplexType_base (h n List.mem_cons_self) []
      simp [Candidate.toValue, Candidate.unified, Candidate.numbers, typeUnify, unifyAll, hcomplex,
        ofNumbers, List.eraseDups_cons]
    | n :: m :: ns =>
      have hcomplex := isComplexType_base (h n List.mem_cons_self)
        ((m :: ns).map Value.num)
      have hclean : ((n :: m :: ns).map Value.num).map typeClean = (n :: m :: ns).map .num := by
        rw [List.map_map]
        rfl
      show typeUnify (.list ((n :: m :: ns).map .num)) = ofNumbers (n :: m :: ns).eraseDups
      rw [typeUnify, if_neg (by simp), if_neg (by rw [List.map_cons, hcomplex]; simp), unifyAll_nums,
        ← settle_nums h]
      show settle (normalizeFrom (((n :: m :: ns).map Value.num).map typeClean)) = _
      rw [hclean, normalizeFrom_eq]

theorem typeClean_unified (c : Candidate) : typeClean c.unified = c.unified := by
  cases c with
  | base n h => rfl
  | complex vs h =>
    show typeClean (.list vs) = .list vs
    rw [typeClean, isType_full _ h, Bool.or_true, if_pos rfl]
  | choice ns h =>
    show typeClean (ofNumbers ns.eraseDups) = ofNumbers ns.eraseDups
    by_cases hone : ns.eraseDups.length = 1
    · obtain ⟨n, hn⟩ := List.length_eq_one_iff.mp hone
      rw [hn]
      rfl
    · rw [ofNumbers_eq_list hone]
      exact typeClean_nums _

theorem settle_unified (c : Candidate) : settle [c.unified] = c.unified := by
  by_cases hc : c.IsComplex
  · obtain ⟨vs, h, rfl⟩ := hc.exists_eq
    show (if isType (.list vs) = true then _ else _) = _
    rw [isType_full _ h, if_pos rfl]
  · rw [Candidate.unified_eq hc]
    have hbase : AllBase [c.numbers] := by
      intro ns hns
      rw [List.mem_singleton.mp hns]
      exact c.numbers_base
    have hremaining : remaining [c.numbers] = c.numbers := by
      have hnodup := eraseDups_of_nodup c.numbers_nodup
      by_cases hone : c.numbers.length = 1
      · obtain ⟨n, hn⟩ := List.length_eq_one_iff.mp hone
        rw [hn]
        rfl
      · simp [remaining, singles, hone, hnodup]
    have hsettle := settle_numbers hbase
    rw [List.eraseDups_cons] at hsettle
    exact hsettle.trans (congrArg ofNumbers hremaining)

/-- Unifying is settling what the candidates are unified with one by one. -/
theorem unify_eq (t : List Candidate) : unify t = settle (t.map Candidate.unified) := by
  have hall (t : List Candidate) :
      unifyAll (t.map Candidate.toValue) = t.map Candidate.unified := by
    induction t with
    | nil => rfl
    | cons c t ih => rw [List.map_cons, unifyAll, ih, typeUnify_candidate, List.map_cons]
  have hclean : (t.map Candidate.unified).map typeClean = t.map Candidate.unified := by
    rw [List.map_map]
    apply List.map_congr_left
    intro c _
    exact typeClean_unified c
  match t with
  | [] => rfl
  | c :: t =>
    have hcomplex : isComplexType (.list ((c :: t).map Candidate.toValue)) = false := by
      cases c with
      | base n h => exact isComplexType_base h _
      | choice ns h => rfl
      | complex vs h => rfl
    rw [unify, typeUnify, if_neg (by simp), if_neg (by rw [hcomplex]; simp), hall]
    match t with
    | [] => exact (settle_unified c).symm
    | d :: t =>
      show settle (normalizeFrom (((c :: d :: t).map Candidate.unified).map typeClean)) = _
      rw [hclean, normalizeFrom_eq]

/-! ## Candidates without complex types -/

/-- The different lists of numbers of the candidates. -/
def numberLists (t : List Candidate) : List (List ℤ) := (t.map Candidate.numbers).eraseDups

theorem mem_numberLists {t : List Candidate} {ns : List ℤ} :
    ns ∈ numberLists t ↔ ∃ c ∈ t, c.numbers = ns := by
  rw [numberLists, List.mem_eraseDups, List.mem_map]

theorem unify_numbers {t : List Candidate} (h : ∀ c ∈ t, ¬ c.IsComplex) :
    unify t = ofNumbers (remaining (numberLists t)) := by
  have hmap : t.map Candidate.unified = (t.map Candidate.numbers).map ofNumbers := by
    rw [List.map_map]
    apply List.map_congr_left
    intro c hc
    exact Candidate.unified_eq (h c hc)
  have hbase : AllBase (t.map Candidate.numbers) := by
    intro ns hns
    obtain ⟨c, -, rfl⟩ := List.mem_map.mp hns
    exact c.numbers_base
  rw [unify_eq, hmap, settle_numbers hbase]
  rfl

theorem mem_singles {M : List (List ℤ)} {n : ℤ} : n ∈ singles M ↔ [n] ∈ M := by
  simp only [singles, List.mem_flatten, List.mem_filter, decide_eq_true_eq]
  constructor
  · rintro ⟨ns, ⟨hns, hone⟩, hn⟩
    obtain ⟨m, rfl⟩ := List.length_eq_one_iff.mp hone
    rw [List.mem_singleton.mp hn]
    exact hns
  · intro h
    exact ⟨[n], ⟨h, rfl⟩, List.mem_singleton_self n⟩

theorem mem_several {M : List (List ℤ)} {n : ℤ} :
    n ∈ several M ↔ ∃ ns ∈ M, ns.length ≠ 1 ∧ n ∈ ns := by
  simp only [several, List.mem_flatten, List.mem_filter, decide_eq_true_eq, and_assoc]

/-- Either the only single number is chosen, or all numbers remain. -/
theorem remaining_cases (M : List (List ℤ)) :
    (∃ n, singles M = [n] ∧ n ∈ several M ∧ remaining M = [n]) ∨
      remaining M = M.flatten.eraseDups := by
  rw [remaining]
  split
  case h_1 n hn =>
    by_cases hs : n ∈ several M
    · exact .inl ⟨n, hn, hs, if_pos hs⟩
    · exact .inr (if_neg hs)
  case h_2 => exact .inr rfl

theorem remaining_eq_flatten {M : List (List ℤ)} (h : ∀ ns ∈ M, ns.length ≠ 1) :
    remaining M = M.flatten.eraseDups := by
  apply (remaining_cases M).resolve_left
  rintro ⟨n, hn, -, -⟩
  have hmem : n ∈ singles M := by
    rw [hn]
    exact List.mem_singleton_self n
  exact h [n] (mem_singles.mp hmem) rfl

/-- One number remains if it stands alone and no other number does, and every list without it
is empty. -/
theorem remaining_eq_singleton {M : List (List ℤ)} (hM : M.Nodup) {n : ℤ} (hn : [n] ∈ M)
    (h : ∀ ns ∈ M, n ∈ ns ∨ ns = []) : remaining M = [n] := by
  have hsingles : singles M = [n] := by
    rw [← eraseDups_of_nodup (nodup_singles hM)]
    apply eraseDups_eq_singleton
    · exact List.ne_nil_of_mem (mem_singles.mpr hn)
    · intro m hm
      cases h [m] (mem_singles.mp hm) with
      | inl h => exact (List.mem_singleton.mp h).symm
      | inr h => cases h
  rw [remaining, hsingles]
  by_cases hs : n ∈ several M
  · exact if_pos hs
  · have hall : ∀ m ∈ M.flatten, m = n := by
      intro m hm
      obtain ⟨ns, hns, hmem⟩ := List.mem_flatten.mp hm
      have hone : ns.length = 1 := by
        by_contra hne
        cases h ns hns with
        | inl h => exact hs (mem_several.mpr ⟨ns, hns, hne, h⟩)
        | inr h =>
          rw [h] at hmem
          cases hmem
      obtain ⟨k, rfl⟩ := List.length_eq_one_iff.mp hone
      cases h [k] hns with
      | inl h => rw [List.mem_singleton.mp hmem, List.mem_singleton.mp h]
      | inr h => cases h
    show (if n ∈ several M then [n] else M.flatten.eraseDups) = [n]
    rw [if_neg hs]
    apply eraseDups_eq_singleton _ hall
    exact List.ne_nil_of_mem (List.mem_flatten.mpr ⟨[n], hn, List.mem_singleton_self n⟩)

/-- The numbers of the first candidate come first. -/
theorem prefix_flatten (c : Candidate) (t : List Candidate) :
    c.numbers <+: (numberLists (c :: t)).flatten.eraseDups := by
  rw [numberLists, List.map_cons, List.eraseDups_cons, List.flatten_cons]
  exact prefix_eraseDups_append c.numbers_nodup _

theorem allows_num {c : Candidate} {n : ℤ} (h : c.Allows (.num n)) : n ∈ c.numbers := by
  cases c with
  | base m hm =>
    injection h with h
    rw [h]
    exact List.mem_singleton_self m
  | choice ns hns =>
    obtain ⟨m, hm, heq⟩ := h
    injection heq with heq
    rw [heq]
    exact List.mem_eraseDups.mpr hm
  | complex vs hvs => cases h

theorem allows_of_mem_numbers {c : Candidate} {n : ℤ} (h : n ∈ c.numbers) :
    c.Allows (.num n) := by
  cases c with
  | base m hm => exact congrArg Value.num (List.mem_singleton.mp h)
  | choice ns hns => exact ⟨n, List.mem_eraseDups.mp h, rfl⟩
  | complex vs hvs => cases h

/-- One number stands alone, and all candidates allow it. -/
def OneNumber (t : List Candidate) : Prop :=
  ∃ n, (∃ c ∈ t, c.numbers = [n]) ∧ ∀ c ∈ t, n ∈ c.numbers

/-- No number stands alone, and of any two choices one begins the other. -/
def Prefixes (t : List Candidate) : Prop :=
  (∀ c ∈ t, c.numbers.length ≠ 1) ∧
    ∀ c ∈ t, ∀ d ∈ t, c.numbers <+: d.numbers ∨ d.numbers <+: c.numbers

theorem unify_oneNumber {t : List Candidate} (h : ∀ c ∈ t, ¬ c.IsComplex) {n : ℤ}
    (hn : ∃ c ∈ t, c.numbers = [n]) (hall : ∀ c ∈ t, n ∈ c.numbers ∨ c.numbers = []) :
    unify t = .num n := by
  have hrest : remaining (numberLists t) = [n] := by
    apply remaining_eq_singleton (nodup_eraseDups _) (mem_numberLists.mpr hn)
    intro ns hns
    obtain ⟨c, hc, rfl⟩ := mem_numberLists.mp hns
    exact hall c hc
  rw [unify_numbers h, hrest]
  rfl

theorem unify_prefixes {t : List Candidate} (h : ∀ c ∈ t, ¬ c.IsComplex) (hp : Prefixes t) :
    unify t = ofNumbers (numberLists t).flatten.eraseDups ∧
      ((numberLists t).flatten.eraseDups = [] ∨
        ∃ c ∈ t, c.numbers = (numberLists t).flatten.eraseDups) ∧
      ∀ c ∈ t, c.numbers <+: (numberLists t).flatten.eraseDups := by
  have hsingle : ∀ ns ∈ numberLists t, ns.length ≠ 1 := by
    intro ns hns
    obtain ⟨c, hc, rfl⟩ := mem_numberLists.mp hns
    exact hp.1 c hc
  have hnodup : ∀ ns ∈ numberLists t, ns.Nodup := by
    intro ns hns
    obtain ⟨c, -, rfl⟩ := mem_numberLists.mp hns
    exact c.numbers_nodup
  have hcomparable : ∀ ns ∈ numberLists t, ∀ ms ∈ numberLists t, ns <+: ms ∨ ms <+: ns := by
    intro ns hns ms hms
    obtain ⟨c, hc, rfl⟩ := mem_numberLists.mp hns
    obtain ⟨d, hd, rfl⟩ := mem_numberLists.mp hms
    exact hp.2 c hc d hd
  obtain ⟨hmem, hall⟩ := eraseDups_flatten_of_prefixes hnodup hcomparable
  refine ⟨?_, hmem.imp_right mem_numberLists.mp, fun c hc => ?_⟩
  · rw [unify_numbers h, remaining_eq_flatten hsingle]
  · exact hall _ (mem_numberLists.mpr ⟨c, hc, rfl⟩)

theorem sound_of_oneNumber {t : List Candidate} (h : ∀ c ∈ t, ¬ c.IsComplex)
    (ho : OneNumber t) : Sound t := by
  obtain ⟨n, hn, hall⟩ := ho
  have hunify := unify_oneNumber h hn fun c hc => .inl (hall c hc)
  refine ⟨fun _ c hc => ?_, fun vs _ hvs _ hmem _ _ => absurd trivial (h _ hmem), fun t' ht' => ?_⟩
  · rw [hunify]
    exact allows_of_mem_numbers (hall c hc)
  · rw [hunify]
    obtain ⟨c, hc, hcn⟩ := hn
    exact unify_oneNumber (fun d hd => h d ((ht' d).mp hd)) ⟨c, (ht' c).mpr hc, hcn⟩
      fun d hd => .inl (hall d ((ht' d).mp hd))

theorem sound_of_prefixes {t : List Candidate} (h : ∀ c ∈ t, ¬ c.IsComplex)
    (hp : Prefixes t) : Sound t := by
  obtain ⟨hunify, hmem, hall⟩ := unify_prefixes h hp
  have hlong : (numberLists t).flatten.eraseDups.length ≠ 1 := by
    cases hmem with
    | inl h =>
      rw [h]
      exact Nat.zero_ne_one
    | inr h =>
      obtain ⟨c, hc, heq⟩ := h
      rw [← heq]
      exact hp.1 c hc
  have hbase : ∀ n ∈ (numberLists t).flatten.eraseDups, IsBase n := by
    intro n hn
    obtain ⟨ns, hns, hmem⟩ := List.mem_flatten.mp (List.mem_eraseDups.mp hn)
    obtain ⟨c, -, rfl⟩ := mem_numberLists.mp hns
    exact c.numbers_base n hmem
  refine ⟨fun htype => ?_, fun vs _ hvs _ hmem _ _ => absurd trivial (h _ hmem), fun t' ht' => ?_⟩
  · rw [hunify, isType_ofNumbers hbase] at htype
    exact absurd (of_decide_eq_true htype) hlong
  · have hp' : Prefixes t' := ⟨fun c hc => hp.1 c ((ht' c).mp hc), fun c hc d hd =>
      hp.2 c ((ht' c).mp hc) d ((ht' d).mp hd)⟩
    obtain ⟨hunify', hmem', hall'⟩ := unify_prefixes (fun c hc => h c ((ht' c).mp hc)) hp'
    -- each side is empty or a candidate, so it begins the other side
    have hle : (numberLists t').flatten.eraseDups <+: (numberLists t).flatten.eraseDups := by
      cases hmem' with
      | inl h =>
        rw [h]
        exact List.nil_prefix
      | inr h =>
        obtain ⟨c, hc, heq⟩ := h
        rw [← heq]
        exact hall c ((ht' c).mp hc)
    have hge : (numberLists t).flatten.eraseDups <+: (numberLists t').flatten.eraseDups := by
      cases hmem with
      | inl h =>
        rw [h]
        exact List.nil_prefix
      | inr h =>
        obtain ⟨c, hc, heq⟩ := h
        rw [← heq]
        exact hall' c ((ht' c).mpr hc)
    rw [hunify, hunify', hle.eq_of_length_le hge.length_le]

/-- Two candidates can be put in front in either order. -/
theorem same_members {t : List Candidate} {c d : Candidate} (hc : c ∈ t) (hd : d ∈ t)
    (e : Candidate) : e ∈ c :: d :: t ↔ e ∈ t := by
  simp only [List.mem_cons]
  constructor
  · rintro (rfl | rfl | h)
    · exact hc
    · exact hd
    · exact h
  · exact fun h => .inr (.inr h)

/-- If nothing is chosen, the numbers of any two candidates begin one list. -/
theorem prefix_of_sound {t : List Candidate} (h : ∀ c ∈ t, ¬ c.IsComplex) (hs : Sound t)
    {c d : Candidate} (hc : c ∈ t) (hd : d ∈ t) (hno : ∀ t', (∀ e, e ∈ t' ↔ e ∈ t) →
      remaining (numberLists t') = (numberLists t').flatten.eraseDups) :
    c.numbers <+: d.numbers ∨ d.numbers <+: c.numbers := by
  have hfront {c d : Candidate} (hc : c ∈ t) (hd : d ∈ t) :
      unify t = ofNumbers (numberLists (c :: d :: t)).flatten.eraseDups := by
    have hsame := same_members hc hd
    rw [← hs.stable _ hsame, unify_numbers fun e he => h e ((hsame e).mp he), hno _ hsame]
  have heq := ofNumbers_injective ((hfront hc hd).symm.trans (hfront hd hc))
  have h1 := prefix_flatten c (d :: t)
  have h2 := prefix_flatten d (c :: t)
  rw [heq] at h1
  exact List.prefix_or_prefix_of_prefix h1 h2

theorem sound_numbers_iff {t : List Candidate} (h : ∀ c ∈ t, ¬ c.IsComplex) :
    Sound t ↔ OneNumber t ∨ Prefixes t := by
  constructor
  · intro hs
    by_cases hsingle : ∃ c ∈ t, c.numbers.length = 1
    · obtain ⟨c, hc, hone⟩ := hsingle
      obtain ⟨n, hn⟩ := List.length_eq_one_iff.mp hone
      refine .inl ⟨n, ⟨c, hc, hn⟩, ?_⟩
      by_contra hnot
      have hunify : unify t ≠ .num n := by
        intro heq
        have htype : isType (unify t) = true := by
          rw [heq]
          exact isType_base (c.numbers_base n (by rw [hn]; exact List.mem_singleton_self n))
        refine hnot fun d hd => allows_num ?_
        rw [← heq]
        exact hs.allowed htype d hd
      have hno : ∀ t', (∀ e, e ∈ t' ↔ e ∈ t) →
          remaining (numberLists t') = (numberLists t').flatten.eraseDups := by
        intro t' ht'
        apply (remaining_cases _).resolve_left
        rintro ⟨k, hk, -, hrest⟩
        have hmem : n ∈ singles (numberLists t') :=
          mem_singles.mpr (mem_numberLists.mpr ⟨c, (ht' c).mpr hc, hn⟩)
        rw [hk, List.mem_singleton] at hmem
        subst hmem
        apply hunify
        rw [← hs.stable t' ht', unify_numbers fun e he => h e ((ht' e).mp he), hrest]
        rfl
      refine hunify (unify_oneNumber h ⟨c, hc, hn⟩ fun e he => ?_)
      have hor := prefix_of_sound h hs hc he hno
      rw [hn] at hor
      cases hor with
      | inl hpre => exact .inl (hpre.subset (List.mem_singleton_self n))
      | inr hpre =>
        cases he' : e.numbers with
        | nil => exact .inr rfl
        | cons m ms =>
          rw [he'] at hpre
          rw [(List.cons_prefix_cons.mp hpre).1]
          exact .inl List.mem_cons_self
    · refine .inr ⟨fun c hc hone => hsingle ⟨c, hc, hone⟩, fun c hc d hd => ?_⟩
      apply prefix_of_sound h hs hc hd
      intro t' ht'
      apply remaining_eq_flatten
      intro ns hns hone
      obtain ⟨e, he, rfl⟩ := mem_numberLists.mp hns
      exact hsingle ⟨e, (ht' e).mp he, hone⟩
  · intro hor
    exact hor.elim (sound_of_oneNumber h) (sound_of_prefixes h)

/-! ## Candidates with complex types -/

/-- The complex types among different values. -/
def complexes (us : List Value) : List Value := us.filter fun v => isType v && isComplexType v

theorem isComplexType_unified (c : Candidate) :
    (isType c.unified && isComplexType c.unified) = true ↔ c.IsComplex := by
  by_cases hc : c.IsComplex
  · obtain ⟨vs, h, rfl⟩ := hc.exists_eq
    refine iff_of_true ?_ hc
    show (isType (.list vs) && isComplexType (.list vs)) = true
    rw [isType_full _ h, isComplexType_full h]
    rfl
  · refine iff_of_false ?_ hc
    rw [Candidate.unified_eq hc, isComplexType_ofNumbers c.numbers_base]
    simp

theorem mem_complexes {t : List Candidate} {v : Value} :
    v ∈ complexes (t.map Candidate.unified).eraseDups ↔
      ∃ c ∈ t, c.IsComplex ∧ c.unified = v := by
  rw [complexes, List.mem_filter, List.mem_eraseDups, List.mem_map]
  constructor
  · rintro ⟨⟨c, hc, rfl⟩, hv⟩
    exact ⟨c, hc, (isComplexType_unified c).mp hv, rfl⟩
  · rintro ⟨c, hc, hcomplex, rfl⟩
    exact ⟨⟨c, hc, rfl⟩, (isComplexType_unified c).mpr hcomplex⟩

/-- With a complex type only the complex types count. -/
theorem narrow_complexes {us : List Value} (hus : us.Nodup) (h : complexes us ≠ []) :
    narrow us = finish (complexes us) := by
  have hany : us.any isComplexType = true := by
    obtain ⟨v, hv⟩ := List.exists_mem_of_ne_nil _ h
    obtain ⟨hmem, hcomplex⟩ := List.mem_filter.mp hv
    exact List.any_eq_true.mpr ⟨v, hmem, (Bool.and_eq_true_iff.mp hcomplex).2⟩
  have hcrunch : crunch us = .list us := by simp [crunch, hany]
  have hnodup : (complexes us).eraseDups = complexes us := eraseDups_of_nodup (hus.filter _)
  have hresolved : preferResolved us = complexes us := by
    rw [preferResolved]
    show (if (complexes us).eraseDups.isEmpty = true then us else (complexes us).eraseDups) = _
    rw [hnodup, if_neg (by simpa using h)]
  rw [narrow, hcrunch]
  show finish (preferResolved us) = _
  rw [hresolved]

theorem finish_single {vs : List Value} (h : IsFull (.list vs)) :
    finish [.list vs] = .list vs := by
  simp [finish, isType_full _ h, List.eraseDups_cons]

theorem unify_complexes {t : List Candidate} {c : Candidate} (hc : c ∈ t) (h : c.IsComplex) :
    unify t = finish (complexes (t.map Candidate.unified).eraseDups) := by
  have hne : complexes (t.map Candidate.unified).eraseDups ≠ [] :=
    List.ne_nil_of_mem (mem_complexes.mpr ⟨c, hc, h, rfl⟩)
  have hnarrow := narrow_complexes (nodup_eraseDups (t.map Candidate.unified)) hne
  rw [unify_eq, settle]
  match hD : (t.map Candidate.unified).eraseDups with
  | [] =>
    rw [hD] at hne
    exact absurd rfl hne
  | [v] =>
    rw [hD] at hnarrow hne
    show (if isType v = true then v else narrow [v]) = _
    by_cases hv : isType v = true ∧ isComplexType v = true
    · have hall : complexes [v] = [v] := by simp [complexes, hv]
      have hmem : v ∈ (t.map Candidate.unified).eraseDups := by
        rw [hD]
        exact List.mem_singleton_self v
      have hmem' : v ∈ complexes (t.map Candidate.unified).eraseDups := by
        rw [hD, hall]
        exact List.mem_singleton_self v
      obtain ⟨d, -, hd, rfl⟩ := mem_complexes.mp hmem'
      rw [if_pos hv.1, hall]
      obtain ⟨vs, h, rfl⟩ := hd.exists_eq
      exact (finish_single h).symm
    · exfalso
      apply hne
      apply List.filter_eq_nil_iff.mpr
      intro w hw
      rw [List.mem_singleton.mp hw]
      simpa using hv
  | _ :: _ :: _ =>
    rw [hD] at hnarrow
    exact hnarrow

/-- An array or vector type. -/
def Candidate.IsSequence : Candidate → Prop
  | .complex vs _ => hasCode arrayCode (.list vs) = true ∨ hasCode vectorCode (.list vs) = true
  | _ => False

theorem isSequence_iff {vs : List Value} (h : IsFull (.list vs)) :
    (Candidate.complex vs h).IsSequence ↔
      hasCode tupleCode (.list vs) = false ∧ hasCode closureCode (.list vs) = false := by
  obtain ⟨c, v, parts, rfl, hor⟩ := full_cases h
  simp only [Candidate.IsSequence, hasCode, beq_iff_eq, beq_eq_false_iff_ne]
  simp only [closureCode, tupleCode, arrayCode, vectorCode] at hor ⊢
  omega

/-- Several complex types give the empty list if the first one is an array or a vector, and a
list of types if it is a tuple or a closure. -/
theorem finish_many {vs : List Value} (h : IsFull (.list vs)) {w : Value} {r : List Value}
    (hnodup : (.list vs :: w :: r : List Value).Nodup)
    (htypes : ∀ v ∈ (.list vs :: w :: r : List Value), isType v = true) :
    finish (.list vs :: w :: r) = .list [] ↔ (Candidate.complex vs h).IsSequence := by
  rw [isSequence_iff h]
  have hfilter : (.list vs :: w :: r : List Value).filter isType = .list vs :: w :: r :=
    List.filter_eq_self.mpr htypes
  have hdups := eraseDups_of_nodup hnodup
  simp only [finish, isType_list_cons, hfilter, hdups]
  by_cases htuple : hasCode tupleCode (.list vs) = true
  · simp [htuple]
  · by_cases hclosure : hasCode closureCode (.list vs) = true
    · obtain ⟨c, v, parts, rfl, -⟩ := full_cases h
      have hne : typeUnifyClosure (.list (.num c :: v :: parts) :: w :: r) ≠ [] := by
        simp [typeUnifyClosure, flattenOnce, isAtom]
      simp [htuple, hclosure, hne]
    · simp [htuple, hclosure, isNumber]

/-- All complex candidates are the same, and there are no others. -/
def OneComplex (t : List Candidate) : Prop := ∃ c, c.IsComplex ∧ t ≠ [] ∧ ∀ d ∈ t, d = c

/-- There are different complex types, all of them arrays and vectors. -/
def OnlySequences (t : List Candidate) : Prop :=
  (∃ c ∈ t, ∃ d ∈ t, c.IsComplex ∧ d.IsComplex ∧ c ≠ d) ∧
    ∀ c ∈ t, c.IsComplex → c.IsSequence

theorem unified_injective {c d : Candidate} (hc : c.IsComplex) (hd : d.IsComplex)
    (h : c.unified = d.unified) : c = d := by
  obtain ⟨vs, hvs, rfl⟩ := hc.exists_eq
  obtain ⟨ws, hws, rfl⟩ := hd.exists_eq
  cases h
  rfl

/-- With different complex types the first one decides. -/
theorem unify_different {t : List Candidate} {c d : Candidate} (hd : d ∈ t)
    (hcomplex : c.IsComplex) (hcomplex' : d.IsComplex) (hne : c ≠ d) :
    unify (c :: t) = .list [] ↔ c.IsSequence := by
  obtain ⟨vs, h, rfl⟩ := hcomplex.exists_eq
  have hself := (isComplexType_unified (.complex vs h)).mpr trivial
  obtain ⟨rest, hrest⟩ : ∃ rest, complexes
      ((Candidate.complex vs h :: t).map Candidate.unified).eraseDups = .list vs :: rest := by
    rw [List.map_cons, List.eraseDups_cons, complexes, List.filter_cons, if_pos hself]
    exact ⟨_, rfl⟩
  have hmem : d.unified ∈ .list vs :: rest := by
    rw [← hrest]
    exact mem_complexes.mpr ⟨d, List.mem_cons_of_mem _ hd, hcomplex', rfl⟩
  have hnodup : (.list vs :: rest : List Value).Nodup := by
    rw [← hrest]
    exact (nodup_eraseDups _).filter _
  have htypes : ∀ v ∈ (.list vs :: rest : List Value), isType v = true := by
    intro v hv
    rw [← hrest] at hv
    exact (Bool.and_eq_true_iff.mp (List.mem_filter.mp hv).2).1
  rw [unify_complexes List.mem_cons_self hcomplex, hrest]
  cases rest with
  | nil =>
    have heq : d.unified = (Candidate.complex vs h).unified := List.mem_singleton.mp hmem
    exact absurd (unified_injective hcomplex' hcomplex heq).symm hne
  | cons w rest => exact finish_many h hnodup htypes

theorem unify_oneComplex {t : List Candidate} {vs : List Value} {h : IsFull (.list vs)}
    (hmem : .complex vs h ∈ t) (hall : ∀ c ∈ t, c.IsComplex → c = .complex vs h) :
    unify t = .list vs := by
  have hsingle : complexes (t.map Candidate.unified).eraseDups = [.list vs] := by
    have hnodup : (complexes (t.map Candidate.unified).eraseDups).Nodup :=
      (nodup_eraseDups _).filter _
    rw [← eraseDups_of_nodup hnodup]
    apply eraseDups_eq_singleton
    · exact List.ne_nil_of_mem (mem_complexes.mpr ⟨_, hmem, trivial, rfl⟩)
    · intro v hv
      obtain ⟨c, hc, hcomplex, rfl⟩ := mem_complexes.mp hv
      rw [hall c hc hcomplex]
      rfl
  rw [unify_complexes hmem trivial, hsingle, finish_single h]

/-- The candidates agree: on one complex type, or in their only containing arrays and vectors, or
on one number, or as choices that begin one another. -/
def Agreed (t : List Candidate) : Prop :=
  OneComplex t ∨ OnlySequences t ∨ (∀ c ∈ t, ¬ c.IsComplex) ∧ (OneNumber t ∨ Prefixes t)

theorem sound_of_oneComplex {t : List Candidate} (h : OneComplex t) : Sound t := by
  obtain ⟨c, hc, hne, hall⟩ := h
  obtain ⟨vs, hvs, rfl⟩ := hc.exists_eq
  obtain ⟨d, hd⟩ := List.exists_mem_of_ne_nil t hne
  rw [hall d hd] at hd
  have hunify := unify_oneComplex hd fun c hc _ => hall c hc
  refine ⟨fun _ c hc => ?_, fun ws us hws hus hmem hmem' hdiff => ?_, fun t' ht' => ?_⟩
  · rw [hall c hc, hunify]
    rfl
  · have h1 := hall _ hmem
    have h2 := hall _ hmem'
    injection h1 with h1
    injection h2 with h2
    exact absurd (h1.trans h2.symm) hdiff
  · rw [hunify]
    exact unify_oneComplex ((ht' _).mpr hd) fun c hc _ => hall c ((ht' c).mp hc)

/-- Another complex type beside the given one. -/
theorem OnlySequences.other {t : List Candidate} (h : OnlySequences t) (c : Candidate) :
    ∃ d ∈ t, d.IsComplex ∧ c ≠ d := by
  obtain ⟨⟨d, hd, e, he, hcd, hce, hne⟩, -⟩ := h
  by_cases hc : c = d
  · exact ⟨e, he, hce, fun h => hne (hc.symm.trans h)⟩
  · exact ⟨d, hd, hcd, hc⟩

theorem unify_cons_of_mem {t : List Candidate} {c : Candidate} (hc : c ∈ t) (hs : Sound t) :
    unify (c :: t) = unify t := by
  apply hs.stable
  intro e
  rw [List.mem_cons]
  exact or_iff_right_of_imp fun h => h ▸ hc

/-- Sequences give the empty list whichever complex type comes first. -/
theorem unify_onlySequences {t : List Candidate} (h : OnlySequences t) : unify t = .list [] := by
  obtain ⟨⟨c, hc, -, -, hcomplex, -, -⟩, hall⟩ := id h
  have hne : complexes (t.map Candidate.unified).eraseDups ≠ [] :=
    List.ne_nil_of_mem (mem_complexes.mpr ⟨c, hc, hcomplex, rfl⟩)
  cases hcs : complexes (t.map Candidate.unified).eraseDups with
  | nil => exact absurd hcs hne
  | cons v rest =>
    have hv : v ∈ complexes (t.map Candidate.unified).eraseDups := by
      rw [hcs]
      exact List.mem_cons_self
    obtain ⟨d, hd, hdc, rfl⟩ := mem_complexes.mp hv
    have hnodup : (d.unified :: rest).Nodup := by
      rw [← hcs]
      exact (nodup_eraseDups _).filter _
    have htypes : ∀ v ∈ d.unified :: rest, isType v = true := by
      intro v hv
      rw [← hcs] at hv
      exact (Bool.and_eq_true_iff.mp (List.mem_filter.mp hv).2).1
    obtain ⟨e, he, hec, hde⟩ := h.other d
    have hmem : e.unified ∈ d.unified :: rest := by
      rw [← hcs]
      exact mem_complexes.mpr ⟨e, he, hec, rfl⟩
    rw [unify_complexes hc hcomplex, hcs]
    cases rest with
    | nil => exact absurd (unified_injective hec hdc (List.mem_singleton.mp hmem)).symm hde
    | cons w rest =>
      obtain ⟨vs, hvs, rfl⟩ := hdc.exists_eq
      exact (finish_many hvs hnodup htypes).mpr (hall _ hd trivial)

theorem sound_of_onlySequences {t : List Candidate} (h : OnlySequences t) : Sound t := by
  have hunify := unify_onlySequences h
  refine ⟨fun htype => ?_, fun _ _ _ _ _ _ _ => hunify, fun t' ht' => ?_⟩
  · rw [hunify] at htype
    cases htype
  · rw [hunify]
    obtain ⟨⟨c, hc, d, hd, hcomplex⟩, hall⟩ := h
    apply unify_onlySequences
    exact ⟨⟨c, (ht' c).mpr hc, d, (ht' d).mpr hd, hcomplex⟩, fun e he => hall e ((ht' e).mp he)⟩

/-- Unification keeps what it promises just when the candidates agree. -/
theorem sound_iff (t : List Candidate) : Sound t ↔ Agreed t := by
  constructor
  · intro hs
    by_cases hcomplex : ∃ c ∈ t, c.IsComplex
    · obtain ⟨c, hc, hcc⟩ := hcomplex
      by_cases hother : ∃ d ∈ t, d.IsComplex ∧ c ≠ d
      · obtain ⟨d, hd, hdc, hne⟩ := hother
        have hdiff : ∃ c ∈ t, ∃ d ∈ t, c.IsComplex ∧ d.IsComplex ∧ c ≠ d :=
          ⟨c, hc, d, hd, hcc, hdc, hne⟩
        have hempty : unify t = .list [] := by
          obtain ⟨vs, h, rfl⟩ := hcc.exists_eq
          obtain ⟨ws, h', rfl⟩ := hdc.exists_eq
          refine hs.conflict vs ws h h' hc hd fun heq => ?_
          subst heq
          exact hne rfl
        refine .inr (.inl ⟨hdiff, fun e he hec => ?_⟩)
        -- put the type in question in front
        have hfront := (unify_cons_of_mem he hs).trans hempty
        by_cases hce : e = c
        · subst hce
          exact (unify_different hd hec hdc hne).mp hfront
        · exact (unify_different hc hec hcc hce).mp hfront
      · have hall : ∀ d ∈ t, d.IsComplex → d = c := by
          intro d hd hdc
          by_contra hdne
          exact hother ⟨d, hd, hdc, fun h => hdne h.symm⟩
        obtain ⟨vs, h, rfl⟩ := hcc.exists_eq
        have hunify := unify_oneComplex hc hall
        refine .inl ⟨.complex vs h, trivial, List.ne_nil_of_mem hc, fun d hd => ?_⟩
        have htype : isType (unify t) = true := by
          rw [hunify]
          exact isType_full _ h
        have hallows := hs.allowed htype d hd
        rw [hunify] at hallows
        cases d with
        | base n hn => cases hallows
        | choice ns hns =>
          obtain ⟨n, -, heq⟩ := hallows
          cases heq
        | complex ws hws => exact hall _ hd trivial
    · have hnone : ∀ c ∈ t, ¬ c.IsComplex := fun c hc hcc => hcomplex ⟨c, hc, hcc⟩
      exact .inr (.inr ⟨hnone, (sound_numbers_iff hnone).mp hs⟩)
  · rintro (h | h | h)
    · exact sound_of_oneComplex h
    · exact sound_of_onlySequences h
    · exact (sound_numbers_iff h.1).mpr h.2

/-- `((0 1) (2 3) 0)` is unified to 0, which `(2 3)` does not allow. -/
theorem not_sound_choices : ¬ ∀ t, Sound t := by
  intro hall
  have hs := hall [.choice [0, 1] (by decide), .choice [2, 3] (by decide), .base 0 (by decide)]
  have hunify : unify [.choice [0, 1] (by decide), .choice [2, 3] (by decide),
      .base 0 (by decide)] = .num 0 := by decide
  have hallows := hs.allowed (by rw [hunify]; rfl) _ (List.mem_cons_of_mem _ List.mem_cons_self)
  rw [hunify] at hallows
  obtain ⟨n, hn, heq⟩ := hallows
  injection heq with heq
  subst heq
  exact absurd hn (by decide)

end Extempore.TypeUnification
