import Extempore.TypeSizes
import Mathlib.Data.Nat.Log

/-!
# Layouts of types

LLVM gives every type a size and an alignment. `impc:ir:get-type-size` computes another layout, in
which an array is aligned to the size of its elements and the size of a vector is not rounded up to
a power of two.
-/

namespace Extempore.TypeLayouts
open Atoms (byte)
open TypeStrings TypeParsing TypeTokens StructLayouts TypeSizes

/-- What two layouts may differ in: the alignment of an array of such elements, and a vector with so
many bits in so many bytes. -/
structure Rule where
  arrayAlign : Field → ℕ
  vector : ℕ → ℕ → Field

/-- The default layout of LLVM. -/
def llvm : Rule where
  arrayAlign := Field.align
  vector bits _ := ⟨2 ^ Nat.clog 2 ((bits + 7) / 8), 2 ^ Nat.clog 2 ((bits + 7) / 8)⟩

/-- The layout that `impc:ir:get-type-size` computes. -/
def computed : Rule where
  arrayAlign := Field.size
  vector _ bytes := ⟨bytes, bytes⟩

/-- Numbers. An `i64` is aligned to 4 bytes. -/
def baseField (base : ℤ) : Field :=
  if base = 0 then ⟨8, 8⟩
  else if base = 2 ∨ base = 3 then ⟨8, 4⟩
  else if base = 1 ∨ base = 4 ∨ base = 5 then ⟨4, 4⟩
  else if base = 6 ∨ base = 7 then ⟨2, 2⟩
  else ⟨1, 1⟩

def pointerField : Field := ⟨8, 8⟩

/-- The bits of an element of a vector. -/
def bitsOf (type : XType) (f : Field) : ℕ :=
  match type with
  | .atom n => if n = 10 then 1 else 8 * f.size
  | _ => 8 * f.size

mutual

/-- The layout of a type that has one: a named type or a function is behind a pointer. -/
def layoutOf (rule : Rule) : XType → Field
  | .atom n => if 100 ≤ n then pointerField else baseField n
  | .named _ => pointerField
  | .closure _ _ => pointerField
  | .tuple ptr types => if ptr = 0 then structOf (layoutsOf rule types) else pointerField
  | .array ptr size type =>
    if ptr = 0 then ⟨size * (layoutOf rule type).size, rule.arrayAlign (layoutOf rule type)⟩
    else pointerField
  | .vector ptr size type =>
    if ptr = 0 then
      rule.vector (size * bitsOf type (layoutOf rule type)) (size * (layoutOf rule type).size)
    else pointerField

def layoutsOf (rule : Rule) : List XType → List Field
  | [] => []
  | type :: types => layoutOf rule type :: layoutsOf rule types

end

/-- The depth of pointers. -/
def pointers : XType → ℕ
  | .atom n => (n / 100).toNat
  | .named text => getPtrDepth text
  | .closure ptr _ => ptr
  | .tuple ptr _ => ptr
  | .array ptr _ _ => ptr
  | .vector ptr _ _ => ptr

/-- The types of values: numbers, pointers up to the limit of their encoding, tuples, arrays and
vectors of such types. -/
inductive Sized : XType → Prop
  | number {base : ℤ} (h : 0 ≤ base ∧ base ≤ 11) : Sized (.atom base)
  | pointer {type : XType} (h : WellFormed type) (hptr : 1 ≤ pointers type ∧ pointers type ≤ 9) :
      Sized type
  | tuple {types : List XType} (hne : types ≠ []) (h : ∀ t ∈ types, Sized t) :
      Sized (.tuple 0 types)
  | array (size : ℕ) {type : XType} (h : Sized type) : Sized (.array 0 size type)
  | vector (size : ℕ) {type : XType} (h : Sized type) : Sized (.vector 0 size type)

/-- The element of an array that stands in a tuple is as large as its alignment. -/
def arrayFits : XType → Bool
  | .array ptr _ type => ptr ≠ 0 ∨ (layoutOf llvm type).size = (layoutOf llvm type).align
  | _ => true

mutual

/-- The computed layout is that of LLVM: the bytes of a vector are a power of two and no bits, and
arrays in tuples have elements as large as their alignment. -/
def alike : XType → Bool
  | .atom _ => true
  | .named _ => true
  | .closure _ _ => true
  | .tuple ptr types => ptr ≠ 0 ∨ alikes types
  | .array ptr _ type => ptr ≠ 0 ∨ alike type
  | .vector ptr size type => ptr ≠ 0 ∨ (alike type ∧
    size * (layoutOf llvm type).size =
      2 ^ Nat.clog 2 ((size * bitsOf type (layoutOf llvm type) + 7) / 8))

def alikes : List XType → Bool
  | [] => true
  | type :: types => alike type && arrayFits type && alikes types

end

variable {named : NamedTypes} {rule : Rule} {type type' : XType} {types types' : List XType}
  {s text : List UInt8} {fuel n p : ℕ}

theorem layoutsOf_eq (rule : Rule) (types : List XType) :
    layoutsOf rule types = types.map (layoutOf rule) := by
  induction types with
  | nil => rfl
  | cons type types ih => rw [layoutsOf, ih, List.map_cons]

theorem pointers_named {name : List UInt8} (hname : ∀ a ∈ name, wordByte a = true ∧ a ≠ byte '#')
    (p : ℕ) : getPtrDepth (byte '%' :: name ++ stars p) = p := by
  apply getPtrDepth_eq (body_word (List.cons_ne_nil _ _) _)
  intro a ha
  rcases List.mem_cons.mp ha with rfl | ha
  · decide
  · exact hname a ha

theorem layoutOf_pointer (h : WellFormed type) (hptr : 1 ≤ pointers type) :
    layoutOf rule type = pointerField := by
  cases h with
  | void => exact absurd hptr (by decide)
  | base p base h =>
    rw [pointers] at hptr
    rw [layoutOf, if_pos (by omega)]
  | named p name _ => rfl
  | closure ptr _ _ => rfl
  | tuple ptr _ _ => rw [layoutOf, if_neg (by rw [pointers] at hptr; omega)]
  | array ptr size _ => rw [layoutOf, if_neg (by rw [pointers] at hptr; omega)]
  | vector ptr size _ => rw [layoutOf, if_neg (by rw [pointers] at hptr; omega)]

theorem Sized.wellFormed (h : Sized type) : WellFormed type := by
  induction h with
  | @number base h =>
    have hbase := WellFormed.base 0 base h
    rwa [Nat.cast_zero, mul_zero, zero_add] at hbase
  | pointer h _ => exact h
  | tuple hne _ ih => exact .tuple 0 hne ih
  | array size _ ih => exact .array 0 size ih
  | vector size _ ih => exact .vector 0 size ih

/-! ## Reading back keeps the layout -/

theorem pointers_reread (h : WellFormed type) (hr : reread type = some type') :
    pointers type' = pointers type := by
  cases h with
  | void =>
    rw [reread] at hr
    rw [← Option.some.inj hr]
    rfl
  | base p base h =>
    have hrange := (eraseBase_range h).1
    rw [reread, eraseAtom_eq p h] at hr
    rw [← Option.some.inj hr, pointers, pointers]
    omega
  | named p name _ =>
    rw [reread] at hr
    rw [← Option.some.inj hr]
  | closure ptr _ _ =>
    rw [reread] at hr
    rcases Option.map_eq_some_iff.mp hr with ⟨_, -, rfl⟩
    rfl
  | tuple ptr _ _ =>
    rw [reread] at hr
    rcases Option.map_eq_some_iff.mp hr with ⟨_, -, rfl⟩
    rfl
  | array ptr size _ =>
    rw [reread] at hr
    rcases Option.map_eq_some_iff.mp hr with ⟨_, -, rfl⟩
    rfl
  | @vector ptr size type _ =>
    rw [reread] at hr
    split at hr
    · cases hr
    · rcases Option.map_eq_some_iff.mp hr with ⟨_, -, rfl⟩
      rfl

/-- What is read of a type with a layout has the same layout. -/
structure SameLayout (type type' : XType) : Prop where
  sized : Sized type'
  layout : ∀ rule, layoutOf rule type' = layoutOf rule type
  bits : ∀ f, bitsOf type' f = bitsOf type f

theorem baseField_eraseBase {base : ℤ} (h : 0 ≤ base ∧ base ≤ 11) :
    baseField (eraseBase base) = baseField base ∧ (eraseBase base = 10 ↔ base = 10) := by
  have hall : ∀ i < 12, baseField (eraseBase (i : ℕ)) = baseField (i : ℕ) ∧
      (eraseBase (i : ℕ) = 10 ↔ (i : ℤ) = 10) := by decide
  rcases Int.eq_ofNat_of_zero_le h.1 with ⟨i, rfl⟩
  exact hall i (by omega)

theorem sameLayout_pointer (h : WellFormed type) (hptr : 1 ≤ pointers type ∧ pointers type ≤ 9)
    (hr : reread type = some type') : SameLayout type type' := by
  have hwf := (reread_spec h hr).wellFormed
  have hptr' : 1 ≤ pointers type' ∧ pointers type' ≤ 9 := by rwa [pointers_reread h hr]
  refine ⟨.pointer hwf hptr', fun rule => ?_, fun f => ?_⟩
  · rw [layoutOf_pointer hwf hptr'.1, layoutOf_pointer h hptr.1]
  · have hbits (t : XType) (ht : 1 ≤ pointers t) : bitsOf t f = 8 * f.size := by
      cases t with
      | atom n =>
        rw [pointers] at ht
        rw [bitsOf, if_neg (by omega)]
      | _ => rfl
    rw [hbits type' hptr'.1, hbits type hptr.1]

theorem sameLayouts (h : List.Forall₂ (fun t t' => reread t = some t') types types')
    (hread : ∀ t ∈ types, ∀ t', reread t = some t' → SameLayout t t') :
    (∀ t ∈ types', Sized t) ∧ ∀ rule, layoutsOf rule types' = layoutsOf rule types := by
  induction h with
  | nil => exact ⟨fun _ ht => absurd ht List.not_mem_nil, fun _ => rfl⟩
  | @cons type type' types types' hr _ ih =>
    have hhead := hread type List.mem_cons_self type' hr
    rcases ih fun t ht => hread t (List.mem_cons_of_mem type ht) with ⟨hsized, hlayouts⟩
    refine ⟨List.forall_mem_cons.mpr ⟨hhead.sized, hsized⟩, fun rule => ?_⟩
    rw [layoutsOf, layoutsOf, hhead.layout, hlayouts]

theorem sameLayout (h : Sized type) (hr : reread type = some type') : SameLayout type type' := by
  induction h generalizing type' with
  | @number base h =>
    rcases eraseBase_range h with ⟨hrange, -⟩
    rcases baseField_eraseBase h with ⟨hfield, hbit⟩
    have hatom := eraseAtom_eq 0 h
    simp only [Nat.cast_zero, mul_zero, zero_add, add_zero] at hatom
    rw [reread, hatom] at hr
    rw [← Option.some.inj hr]
    refine ⟨.number hrange, fun rule => ?_, fun f => ?_⟩
    · rw [layoutOf, layoutOf, if_neg (by omega), if_neg (by omega), hfield]
    · simp only [bitsOf, hbit]
  | pointer h hptr => exact sameLayout_pointer h hptr hr
  | @tuple types hne _ ih =>
    rw [reread] at hr
    rcases Option.map_eq_some_iff.mp hr with ⟨types', htypes, rfl⟩
    have hall := rereads_eq_some.mp htypes
    rcases sameLayouts hall fun t ht t' hr => ih t ht hr with ⟨hsized, hlayouts⟩
    refine ⟨.tuple ?_ hsized, fun rule => ?_, fun f => rfl⟩
    · intro hnil
      rw [hnil] at hall
      exact hne (List.forall₂_nil_right_iff.mp hall)
    · rw [layoutOf, layoutOf, hlayouts]
  | @array size type _ ih =>
    rw [reread] at hr
    rcases Option.map_eq_some_iff.mp hr with ⟨type', htype, rfl⟩
    have helement := ih htype
    refine ⟨.array size helement.sized, fun rule => ?_, fun f => rfl⟩
    rw [layoutOf, layoutOf, helement.layout]
  | @vector size type _ ih =>
    rw [reread] at hr
    split at hr
    · cases hr
    · rcases Option.map_eq_some_iff.mp hr with ⟨type', htype, rfl⟩
      have helement := ih htype
      refine ⟨.vector size helement.sized, fun rule => ?_, fun f => rfl⟩
      rw [layoutOf, layoutOf, helement.layout, helement.bits]

/-! ## What the compiler computes -/

/-- Whatever is returned as size or alignment is that of the layout. -/
structure Computes (named : NamedTypes) (type : XType) : Prop where
  size : ∀ fuel n, getTypeSize named fuel type = some n → n = (layoutOf computed type).size
  align : ∀ fuel n, getAlignment named fuel type = some n → n = (layoutOf computed type).align

theorem orPointer_pointer {m : ℤ} (h : 100 ≤ m ∧ m < 1000) (other : Option ℕ) :
    orPointer m other = some 8 := by
  rw [orPointer, if_pos]
  rw [isPointer, Bool.and_eq_true, decide_eq_true_iff, decide_eq_true_iff]
  exact h

theorem orPointer_value {m : ℤ} (h : m < 100) (other : Option ℕ) : orPointer m other = other := by
  rw [orPointer, if_neg]
  rw [isPointer, Bool.and_eq_true, decide_eq_true_iff]
  omega

theorem getAlignment_eq (h : ∀ text, type ≠ .named text) :
    getAlignment named (fuel + 1) type = getAlignmentOf named fuel type := by
  cases type with
  | named text => exact absurd rfl (h text)
  | _ => rfl

/-- A size is returned only with a call left. -/
theorem succ_of_size (h : getTypeSize named fuel type = some n) : ∃ m, fuel = m + 1 := by
  cases fuel with
  | zero => cases h
  | succ m => exact ⟨m, rfl⟩

/-- An alignment is returned only with two calls left. -/
theorem succ_of_alignment (hname : ∀ text, type ≠ .named text)
    (h : getAlignment named fuel type = some n) : ∃ m, fuel = m + 2 := by
  cases fuel with
  | zero => cases h
  | succ m =>
    rw [getAlignment_eq hname] at h
    cases m with
    | zero => cases h
    | succ m => exact ⟨m, rfl⟩

/-- The size of an array or a vector that is no pointer. -/
theorem getTypeSize_element (size fuel : ℕ) (type : XType) :
    getTypeSize named (fuel + 1) (.array 0 size type) =
        (getTypeSize named fuel type).map (· * size) ∧
      getTypeSize named (fuel + 1) (.vector 0 size type) =
        (getTypeSize named fuel type).map (· * size) := by
  refine ⟨?_, ?_⟩
  · rw [getTypeSize, orPointer_value (by decide), if_pos rfl]
  · rw [getTypeSize, orPointer_value (by decide), if_pos rfl]

/-- An array is aligned to the size of its elements, a vector to its own. -/
theorem getAlignment_element (size fuel : ℕ) (type : XType) :
    getAlignment named (fuel + 2) (.array 0 size type) = getTypeSize named fuel type ∧
      getAlignment named (fuel + 2) (.vector 0 size type) =
        getTypeSize named fuel (.vector 0 size type) := by
  refine ⟨?_, ?_⟩
  · rw [getAlignment_eq (by simp), getAlignmentOf, orPointer_value (by decide)]
  · rw [getAlignment_eq (by simp), getAlignmentOf, orPointer_value (by decide)]

/-- A tuple is aligned to the greatest alignment of its elements. -/
theorem getAlignment_tuple (fuel : ℕ) (types : List XType) :
    getAlignment named (fuel + 2) (.tuple 0 types) =
      (types.mapM (getAlignment named fuel)).bind List.max? := by
  rw [getAlignment_eq (by simp), getAlignmentOf, orPointer_value (by decide)]

/-- The computed layout of an array and of a vector. -/
theorem computed_element (size : ℕ) (type : XType) :
    layoutOf computed (.array 0 size type) =
        ⟨size * (layoutOf computed type).size, (layoutOf computed type).size⟩ ∧
      layoutOf computed (.vector 0 size type) =
        ⟨size * (layoutOf computed type).size, size * (layoutOf computed type).size⟩ := by
  refine ⟨?_, ?_⟩
  · rw [layoutOf, if_pos rfl]
    rfl
  · rw [layoutOf, if_pos rfl]
    rfl

/-- A pointer to something that has no name. -/
theorem pointer_eq (h : WellFormed type) (hptr : 1 ≤ pointers type ∧ pointers type ≤ 9)
    (hname : ∀ text, type ≠ .named text) (fuel : ℕ) :
    getTypeSize named (fuel + 1) type = some 8 ∧
      getAlignment named (fuel + 2) type = some 8 := by
  rw [getAlignment_eq hname]
  cases h with
  | void => exact absurd hptr.1 (by decide)
  | base p base h =>
    rw [pointers] at hptr
    have hnumber : 100 ≤ 100 * (p : ℤ) + base ∧ 100 * (p : ℤ) + base < 1000 := by omega
    rw [getTypeSize, getAlignmentOf]
    exact ⟨orPointer_pointer hnumber _, orPointer_pointer hnumber _⟩
  | named p name _ => exact absurd rfl (hname _)
  | closure ptr _ _ =>
    rw [pointers] at hptr
    rw [getTypeSize, getAlignmentOf]
    exact ⟨orPointer_pointer (by omega) _, orPointer_pointer (by omega) _⟩
  | tuple ptr _ _ =>
    rw [pointers] at hptr
    rw [getTypeSize, getAlignmentOf]
    exact ⟨orPointer_pointer (by omega) _, orPointer_pointer (by omega) _⟩
  | array ptr size _ =>
    rw [pointers] at hptr
    rw [getTypeSize, getAlignmentOf]
    exact ⟨orPointer_pointer (by omega) _, orPointer_pointer (by omega) _⟩
  | vector ptr size _ =>
    rw [pointers] at hptr
    rw [getTypeSize, getAlignmentOf]
    exact ⟨orPointer_pointer (by omega) _, orPointer_pointer (by omega) _⟩

/-- A pointer to a named type has the size of a pointer, or there is no such type. -/
theorem getTypeSize_named {name : List UInt8}
    (hname : ∀ a ∈ name, wordByte a = true ∧ a ≠ byte '#') (hp : 1 ≤ p)
    (h : getTypeSize named fuel (.named (byte '%' :: name ++ stars p)) = some n) : n = 8 := by
  induction fuel with
  | zero => cases h
  | succ fuel ih =>
    rw [getTypeSize] at h
    split at h
    · rw [pointers_named hname, if_pos (by omega)] at h
      exact (Option.some.inj h).symm
    · rw [getTypeFromStr_named hname, Option.bind_some] at h
      exact ih h

theorem getAlignment_named {name : List UInt8}
    (hname : ∀ a ∈ name, wordByte a = true ∧ a ≠ byte '#') (hp : 1 ≤ p ∧ p ≤ 9)
    (h : getAlignment named fuel (.named (byte '%' :: name ++ stars p)) = some n) : n = 8 := by
  cases fuel with
  | zero => cases h
  | succ fuel =>
    rw [getAlignment, NamedTypes.getNamedtypeType, pointers_named hname] at h
    rcases Option.bind_eq_some_iff.mp h with ⟨type, htype, halign⟩
    rcases Option.map_eq_some_iff.mp htype with ⟨types, -, rfl⟩
    cases fuel with
    | zero => cases halign
    | succ fuel =>
      rw [getAlignmentOf, orPointer_pointer (by omega)] at halign
      exact (Option.some.inj halign).symm

theorem computes_pointer (h : WellFormed type) (hptr : 1 ≤ pointers type ∧ pointers type ≤ 9) :
    Computes named type := by
  have hlayout : layoutOf computed type = pointerField := layoutOf_pointer h hptr.1
  by_cases hname : ∃ text, type = .named text
  · rcases hname with ⟨text, rfl⟩
    cases h with
    | named p name hword =>
      rw [pointers, pointers_named hword] at hptr
      exact ⟨fun fuel n hn => getTypeSize_named hword hptr.1 hn,
        fun fuel n hn => getAlignment_named hword hptr hn⟩
  · have hname' : ∀ text, type ≠ .named text := fun text heq => hname ⟨text, heq⟩
    refine ⟨fun fuel n hn => ?_, fun fuel n hn => ?_⟩
    · rcases succ_of_size hn with ⟨m, rfl⟩
      rw [(pointer_eq h hptr hname' m).1] at hn
      rw [hlayout]
      exact (Option.some.inj hn).symm
    · rcases succ_of_alignment hname' hn with ⟨m, rfl⟩
      rw [(pointer_eq h hptr hname' m).2] at hn
      rw [hlayout]
      exact (Option.some.inj hn).symm

/-- The numbers that are read have the size of their layout, and the alignment is either 4 or the
size. -/
theorem number_eq {base : ℤ} (h : 0 ≤ base ∧ base ≤ 11)
    (hr : reread (.atom base) = some (.atom base)) : baseSize base = some (baseField base).size ∧
      (baseField base).align = if base = 2 then 4 else (baseField base).size := by
  have hall : ∀ i < 12, eraseBase (i : ℕ) = (i : ℕ) →
      baseSize (i : ℕ) = some (baseField (i : ℕ)).size ∧
      (baseField (i : ℕ)).align = if (i : ℤ) = 2 then 4 else (baseField (i : ℕ)).size := by
    decide
  have herase : eraseBase base = base := by
    have hatom := eraseAtom_eq 0 h
    simp only [Nat.cast_zero, mul_zero, zero_add, add_zero] at hatom
    rw [reread, hatom] at hr
    exact XType.atom.inj (Option.some.inj hr)
  rcases Int.eq_ofNat_of_zero_le h.1 with ⟨i, rfl⟩
  exact hall i (by omega) herase

theorem getAlignment_number {base : ℤ} (h : 0 ≤ base ∧ base ≤ 11) (fuel : ℕ) :
    getAlignment named (fuel + 2) (.atom base) =
      if base = 2 then some 4 else getTypeSize named fuel (.atom base) := by
  rw [getAlignment_eq (by simp), getAlignmentOf, orPointer_value (by omega), if_neg (by omega)]

theorem computes_number {base : ℤ} (h : 0 ≤ base ∧ base ≤ 11)
    (hr : reread (.atom base) = some (.atom base)) : Computes named (.atom base) := by
  have hlayout : layoutOf computed (.atom base) = baseField base := by
    rw [layoutOf, if_neg (by omega)]
  rcases number_eq h hr with ⟨hbase, halign⟩
  have hsize (fuel n : ℕ) (hn : getTypeSize named fuel (.atom base) = some n) :
      n = (baseField base).size := by
    rcases succ_of_size hn with ⟨m, rfl⟩
    rw [getTypeSize, orPointer_value (by omega), hbase] at hn
    exact (Option.some.inj hn).symm
  refine ⟨fun fuel n hn => ?_, fun fuel n hn => ?_⟩
  · rw [hlayout]
    exact hsize fuel n hn
  · rcases succ_of_alignment (by simp) hn with ⟨m, rfl⟩
    rw [getAlignment_number h] at hn
    rw [hlayout, halign]
    split at hn
    · next htwo =>
      rw [if_pos htwo]
      exact (Option.some.inj hn).symm
    · next htwo =>
      rw [if_neg htwo]
      exact hsize m n hn

/-- The loop over the elements follows their layouts. -/
theorem sizeLoop_eq {size largest size' largest' : ℕ}
    (h : ∀ t ∈ types, Computes named t)
    (hloop : sizeLoop (getTypeSize named fuel) (getAlignment named fuel) types size largest =
      some (size', largest')) :
    size' = endOf size (layoutsOf computed types) ∧
      largest' = max largest (maxAlign (layoutsOf computed types)) := by
  induction types generalizing size largest with
  | nil =>
    rw [sizeLoop] at hloop
    cases hloop
    exact ⟨rfl, (Nat.max_zero _).symm⟩
  | cons type types ih =>
    have htype := h type List.mem_cons_self
    rw [sizeLoop] at hloop
    rcases Option.bind_eq_some_iff.mp hloop with ⟨thisSize, hsize, hloop⟩
    rcases Option.bind_eq_some_iff.mp hloop with ⟨align, halign, hloop⟩
    split at hloop
    · cases hloop
    · rcases ih (fun t ht => h t (List.mem_cons_of_mem type ht)) hloop with ⟨rfl, rfl⟩
      rw [htype.size fuel thisSize hsize, htype.align fuel align halign, layoutsOf]
      refine ⟨rfl, ?_⟩
      rw [maxAlign, ← Nat.max_assoc, Nat.max_comm largest]

/-- The elements that are found in the text of a tuple. -/
theorem getTupleTypeSize_bind (sizeOf alignOf : XType → Option ℕ)
    (h : WellFormed (.tuple p types)) :
    getTupleTypeSize sizeOf alignOf (.tuple p types) =
      (rereads types).bind fun types => (sizeLoop sizeOf alignOf types 0 0).bind fun loop =>
        if loop.2 = 0 then none else some (loop.1 + padding loop.2 loop.1) := by
  cases h with
  | tuple p hne hwf =>
    rcases exists_texts fun t ht => exists_printed (hwf t ht) with ⟨texts, htexts⟩
    have hp := printed_tuple p htexts
    have hparse := getTupleTypeFromStr_printed htexts hne hwf p
    rw [getTupleTypeSize, hp.eq, Option.bind_eq_bind, Option.bind_some, hparse]
    rfl

theorem getTupleTypeSize_eq (sizeOf alignOf : XType → Option ℕ)
    (h : WellFormed (.tuple p types)) (hr : rereads types = some types) :
    getTupleTypeSize sizeOf alignOf (.tuple p types) =
      (sizeLoop sizeOf alignOf types 0 0).bind fun loop =>
        if loop.2 = 0 then none else some (loop.1 + padding loop.2 loop.1) := by
  rw [getTupleTypeSize_bind _ _ h, hr, Option.bind_some]

theorem aligns_eq {aligns : List ℕ} (h : ∀ t ∈ types, Computes named t)
    (hmap : types.mapM (getAlignment named fuel) = some aligns) :
    aligns = (layoutsOf computed types).map Field.align := by
  induction types generalizing aligns with
  | nil => exact (Option.some.inj hmap).symm
  | cons type types ih =>
    rw [List.mapM_cons] at hmap
    rcases Option.bind_eq_some_iff.mp hmap with ⟨align, halign, hmap⟩
    rcases Option.bind_eq_some_iff.mp hmap with ⟨rest, hrest, hmap⟩
    rw [← Option.some.inj hmap, layoutsOf, List.map_cons,
      ih (fun t ht => h t (List.mem_cons_of_mem type ht)) hrest,
      (h type List.mem_cons_self).align fuel align halign]

/-- `apply max` over the alignments of the fields. -/
theorem max?_aligns {fields : List Field} (hmax : (fields.map Field.align).max? = some n) :
    n = maxAlign fields := by
  rcases List.max?_eq_some_iff.mp hmax with ⟨hmem, hle⟩
  rcases List.mem_map.mp hmem with ⟨f, hf, rfl⟩
  apply le_antisymm (le_maxAlign hf)
  rcases exists_maxAlign (List.ne_nil_of_mem hf) with ⟨g, hg, hmaxAlign⟩
  rw [← hmaxAlign]
  exact hle _ (List.mem_map_of_mem hg)

/-- Sizes and alignments of types without signs are those of the computed layout. -/
theorem computes (h : Sized type) (hr : reread type = some type) : Computes named type := by
  induction h with
  | number h => exact computes_number h hr
  | pointer h hptr => exact computes_pointer h hptr
  | @tuple types hne hsized ih =>
    rw [reread] at hr
    rcases Option.map_eq_some_iff.mp hr with ⟨types', htypes, heq⟩
    rw [(XType.tuple.inj heq).2] at htypes
    have helements : ∀ t ∈ types, Computes named t := by
      intro t ht
      exact ih t ht (rereads_mem htypes t ht)
    have hwf : WellFormed (.tuple 0 types) := .tuple 0 hne fun t ht => (hsized t ht).wellFormed
    have hlayout : layoutOf computed (.tuple 0 types) = structOf (layoutsOf computed types) := by
      rw [layoutOf, if_pos rfl]
    refine ⟨fun fuel n hn => ?_, fun fuel n hn => ?_⟩
    · rcases succ_of_size hn with ⟨m, rfl⟩
      rw [getTypeSize, orPointer_value (by decide), if_pos rfl,
        getTupleTypeSize_eq _ _ hwf htypes] at hn
      rcases Option.bind_eq_some_iff.mp hn with ⟨⟨size, largest⟩, hloop, hn⟩
      rcases sizeLoop_eq helements hloop with ⟨rfl, rfl⟩
      split at hn
      · cases hn
      · rw [hlayout, ← Option.some.inj hn, Nat.zero_max]
        rfl
    · rcases succ_of_alignment (by simp) hn with ⟨m, rfl⟩
      rw [getAlignment_tuple] at hn
      rcases Option.bind_eq_some_iff.mp hn with ⟨aligns, haligns, hmax⟩
      rw [aligns_eq helements haligns] at hmax
      rw [hlayout]
      exact max?_aligns hmax
  | @array size type _ ih =>
    rw [reread] at hr
    rcases Option.map_eq_some_iff.mp hr with ⟨type', htype, heq⟩
    rw [(XType.array.inj heq).2.2] at htype
    have helement := ih htype
    refine ⟨fun fuel n hn => ?_, fun fuel n hn => ?_⟩
    · rcases succ_of_size hn with ⟨m, rfl⟩
      rw [(getTypeSize_element size m type).1] at hn
      rcases Option.map_eq_some_iff.mp hn with ⟨k, hk, rfl⟩
      rw [(computed_element size type).1, helement.size m k hk, Nat.mul_comm]
    · rcases succ_of_alignment (by simp) hn with ⟨m, rfl⟩
      rw [(getAlignment_element size m type).1] at hn
      rw [(computed_element size type).1]
      exact helement.size m n hn
  | @vector size type _ ih =>
    rw [reread] at hr
    split at hr
    · cases hr
    rcases Option.map_eq_some_iff.mp hr with ⟨type', htype, heq⟩
    rw [(XType.vector.inj heq).2.2] at htype
    have helement := ih htype
    have hsize (fuel n : ℕ) (hn : getTypeSize named fuel (.vector 0 size type) = some n) :
        n = size * (layoutOf computed type).size := by
      rcases succ_of_size hn with ⟨m, rfl⟩
      rw [(getTypeSize_element size m type).2] at hn
      rcases Option.map_eq_some_iff.mp hn with ⟨k, hk, rfl⟩
      rw [helement.size m k hk, Nat.mul_comm]
    refine ⟨fun fuel n hn => ?_, fun fuel n hn => ?_⟩
    · rw [(computed_element size type).2]
      exact hsize fuel n hn
    · rcases succ_of_alignment (by simp) hn with ⟨m, rfl⟩
      rw [(getAlignment_element size m type).2] at hn
      rw [(computed_element size type).2]
      exact hsize m n hn

/-! ## Types given as texts -/

theorem head_stars_append {b : UInt8} {bs : List UInt8} (p : ℕ) :
    (b :: bs ++ stars p).head? = some b := rfl

/-- What is in the table under the name of this text. -/
theorem find_cleanNamedType (named : NamedTypes) {b : UInt8} {bs : List UInt8} (p : ℕ)
    (hbody : Body (b :: bs)) (hb : b ≠ byte '%')
    (hname : wordByte b = false ∨ baseNumber (b :: bs) ≠ none) :
    named.getNamedtypeType (b :: bs ++ stars p) = none := by
  have hclean : cleanNamedType (b :: bs ++ stars p) = b :: bs := by
    rw [cleanNamedType, if_neg (by rw [head_stars_append]; exact fun h => hb (Option.some.inj h)),
      getBaseType_eq hbody]
  rw [NamedTypes.getNamedtypeType, Option.map_eq_none_iff, hclean]
  cases hfind : named.find (b :: bs) with
  | none => rfl
  | some types =>
    rcases named.name _ _ hfind with ⟨hnumber, hword⟩
    rcases hname with hname | hname
    · rw [hword b List.mem_cons_self] at hname
      cases hname
    · exact absurd hnumber hname

theorem find_bracket (named : NamedTypes) {a c : UInt8}
    (hp : Printed type (a :: (s ++ c :: stars p))) (hc : c ≠ byte '*') (ha : wordByte a = false) :
    named.getNamedtypeType (a :: (s ++ c :: stars p)) = none := by
  have hbody := body_wrapped hp.piece hp.sharp hc
  rw [text_wrapped]
  apply find_cleanNamedType named p hbody _ (.inl ha)
  intro heq
  rw [heq] at ha
  cases ha

/-- Only names are looked up. -/
theorem getNamedtypeType_printed (named : NamedTypes) (h : WellFormed type) (hs : Printed type s)
    (hvoid : type ≠ .atom (-1)) (hname : ∀ text, type ≠ .named text) :
    named.getNamedtypeType s = none := by
  cases h with
  | void => exact absurd rfl hvoid
  | base p base h =>
    rcases exists_baseStr h with ⟨name, heq, hne, hword⟩
    have hprint : s = name ++ stars p := by
      have hs' := hs.eq
      rw [getTypeStr, atomStr_base p h, heq] at hs'
      exact (Option.some.inj hs').symm
    have hlast := lastBranch h heq
    cases name with
    | nil => exact absurd rfl hne
    | cons b bs =>
      rw [hprint]
      apply find_cleanNamedType named p (body_word hne hword) (hlast.heads b rfl).2
      right
      rw [hlast.number]
      exact Option.some_ne_none _
  | named p name _ => exact absurd rfl (hname _)
  | closure ptr hne hwf =>
    rcases exists_texts fun t ht => exists_printed (hwf t ht) with ⟨texts, htexts⟩
    rcases printed_closure ptr hne htexts with ⟨ret, args, -, hp⟩
    rw [hs.unique hp]
    exact find_bracket named hp (by decide) rfl
  | tuple ptr hne hwf =>
    rcases exists_texts fun t ht => exists_printed (hwf t ht) with ⟨texts, htexts⟩
    have hp := printed_tuple ptr htexts
    rw [hs.unique hp]
    exact find_bracket named hp (by decide) rfl
  | array ptr size hwf =>
    rcases exists_printed hwf with ⟨text, htext⟩
    have hp := printed_array ptr size htext
    rw [hs.unique hp]
    exact find_bracket named hp (by decide) rfl
  | vector ptr size hwf =>
    rcases exists_printed hwf with ⟨text, htext⟩
    have hp := printed_vector ptr size htext
    rw [hs.unique hp]
    exact find_bracket named hp (by decide) rfl

theorem Sized.ne_void (h : Sized type) : type ≠ .atom (-1) := by
  rintro rfl
  cases h with
  | number h => exact absurd h.1 (by decide)
  | pointer _ hptr => exact absurd hptr.1 (by decide)

/-- A text is read and the size is that of what is read. -/
theorem getTypeSize_text (h : WellFormed type) (hs : Printed type s) (hvoid : type ≠ .atom (-1))
    (hname : ∀ text, type ≠ .named text) :
    getTypeSize named (fuel + 1) (.named s) = (reread type).bind (getTypeSize named fuel) := by
  rw [getTypeSize, getNamedtypeType_printed named h hs hvoid hname]
  dsimp only
  rw [getTypeFromStr_eq h hs (Nat.lt_succ_self _)]

/-- The size that is returned for the text of a type. -/
theorem text_size (h : Sized type) (hs : Printed type s)
    (hn : getTypeSize named fuel (.named s) = some n) :
    n = (layoutOf computed type).size := by
  by_cases hname : ∃ text, type = .named text
  · rcases hname with ⟨text, rfl⟩
    have htext : text = s := Option.some.inj (rfl.trans hs.eq)
    rw [← htext] at hn
    cases h with
    | pointer h hptr => exact (computes_pointer h hptr).size fuel n hn
  · have hname' : ∀ text, type ≠ .named text := fun text heq => hname ⟨text, heq⟩
    rcases succ_of_size hn with ⟨m, rfl⟩
    rw [getTypeSize_text h.wellFormed hs h.ne_void hname'] at hn
    rcases Option.bind_eq_some_iff.mp hn with ⟨type', hr, hn⟩
    have hsame := sameLayout h hr
    rw [← hsame.layout computed]
    exact (computes hsame.sized (reread_spec h.wellFormed hr).again).size m n hn

/-! ## Where both layouts agree -/

theorem alikes_iff : alikes types = true ↔
    ∀ t ∈ types, alike t = true ∧ arrayFits t = true := by
  induction types with
  | nil => exact iff_of_true rfl (List.forall_mem_nil _)
  | cons type types ih =>
    rw [alikes, Bool.and_eq_true, Bool.and_eq_true, ih, List.forall_mem_cons]

theorem layoutsOf_congr {rule' : Rule} (h : ∀ t ∈ types, layoutOf rule t = layoutOf rule' t) :
    layoutsOf rule types = layoutsOf rule' types := by
  rw [layoutsOf_eq, layoutsOf_eq]
  exact List.map_congr_left h

/-- The sizes are equal, and the alignments except for an array outside of a tuple. -/
structure SameAsLlvm (type : XType) : Prop where
  size : (layoutOf computed type).size = (layoutOf llvm type).size
  align : arrayFits type = true → (layoutOf computed type).align = (layoutOf llvm type).align

theorem sameAsLlvm (h : Sized type) (halike : alike type = true) : SameAsLlvm type := by
  induction h with
  | number h =>
    refine ⟨?_, fun _ => ?_⟩
    · rw [layoutOf, layoutOf]
    · rw [layoutOf, layoutOf]
  | pointer h hptr =>
    refine ⟨?_, fun _ => ?_⟩
    · rw [layoutOf_pointer h hptr.1, layoutOf_pointer h hptr.1]
    · rw [layoutOf_pointer h hptr.1, layoutOf_pointer h hptr.1]
  | @tuple types _ _ ih =>
    rw [alike, decide_eq_true_iff] at halike
    have hall := alikes_iff.mp (halike.resolve_left fun hne => hne rfl)
    have hlayouts : layoutsOf computed types = layoutsOf llvm types := by
      apply layoutsOf_congr
      intro t ht
      have hsame := ih t ht (hall t ht).1
      exact StructLayouts.Field.ext hsame.size (hsame.align (hall t ht).2)
    have hlayout (rule : Rule) : layoutOf rule (.tuple 0 types) =
        structOf (layoutsOf rule types) := by rw [layoutOf, if_pos rfl]
    refine ⟨?_, fun _ => ?_⟩
    · rw [hlayout, hlayout, hlayouts]
    · rw [hlayout, hlayout, hlayouts]
  | @array size type _ ih =>
    rw [alike, decide_eq_true_iff] at halike
    have helement := ih (halike.resolve_left fun hne => hne rfl)
    have hlayout (rule : Rule) : layoutOf rule (.array 0 size type) =
        ⟨size * (layoutOf rule type).size, rule.arrayAlign (layoutOf rule type)⟩ := by
      rw [layoutOf, if_pos rfl]
    refine ⟨?_, fun hfits => ?_⟩
    · rw [hlayout, hlayout, helement.size]
    · rw [arrayFits, decide_eq_true_iff] at hfits
      rw [hlayout, hlayout]
      exact helement.size.trans (hfits.resolve_left fun hne => hne rfl)
  | @vector size type _ ih =>
    rw [alike, decide_eq_true_iff] at halike
    rcases halike.resolve_left fun hne => hne rfl with ⟨hel, hpower⟩
    have helement := ih hel
    have hcomputed : layoutOf computed (.vector 0 size type) =
        ⟨size * (layoutOf llvm type).size, size * (layoutOf llvm type).size⟩ := by
      rw [layoutOf, if_pos rfl, ← helement.size]
      rfl
    have hllvm : layoutOf llvm (.vector 0 size type) =
        ⟨size * (layoutOf llvm type).size, size * (layoutOf llvm type).size⟩ := by
      rw [layoutOf, if_pos rfl, hpower]
      rfl
    exact ⟨by rw [hcomputed, hllvm], fun _ => by rw [hcomputed, hllvm]⟩

theorem llvm_align_pos (h : Sized type) : 0 < (layoutOf llvm type).align := by
  induction h with
  | @number base h =>
    rw [layoutOf, if_neg (by omega), baseField]
    split_ifs
    all_goals decide
  | pointer h hptr =>
    rw [layoutOf_pointer h hptr.1]
    decide
  | @tuple types hne _ ih =>
    rw [layoutOf, if_pos rfl]
    apply maxAlign_pos
    · rw [layoutsOf_eq]
      exact fun hnil => hne (List.map_eq_nil_iff.mp hnil)
    · intro f hf
      rw [layoutsOf_eq] at hf
      rcases List.mem_map.mp hf with ⟨t, ht, rfl⟩
      exact ih t ht
  | array size _ ih =>
    rw [layoutOf, if_pos rfl]
    exact ih
  | vector size _ _ =>
    rw [layoutOf, if_pos rfl]
    exact Nat.two_pow_pos _

end Extempore.TypeLayouts
