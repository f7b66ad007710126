import Extempore.TypeLayouts

/-!
# Arguments of callbacks

`impc:ir:compiler:callback` stores the arguments of a scheduled call in a structure. For the block
it asks `malloc` for the sum of the sizes of their types, while the stores go to the fields of an
LLVM structure, which has padding.
-/

namespace Extempore.CallbackArguments
open Atoms (byte)
open SchemeReader (ascii)
open TypeStrings TypeTokens TypeParsing StructLayouts TypeSizes TypeLayouts

/-- What is emitted for the arguments: the bytes of their block, if there are arguments, and the
stores, each with field and type. -/
structure Emitted where
  block : Option ℕ
  stores : List (ℕ × List UInt8)
  deriving DecidableEq, Repr

def totalSize2 (named : NamedTypes) (fuel : ℕ) (args : List (List UInt8)) : Option ℕ :=
  (args.mapM fun text => getTypeSize named fuel (.named text)).map List.sum

/-- `impc:ir:compiler:callback`, for the types of the compiled arguments and those of the closure. -/
def compilerCallback (named : NamedTypes) (fuel : ℕ) (ftypes args : List (List UInt8)) :
    Option Emitted := do
  let totalSize2 ← totalSize2 named fuel args
  if args.length ≠ ftypes.length then none
  else some ⟨if args = [] then none else some totalSize2, (List.range args.length).zip args⟩

variable {named : NamedTypes} {fuel n : ℕ} {ftypes texts : List (List UInt8)} {e : Emitted}
  {types : List XType}

/-- The fields of the structure of the arguments. -/
def fields (types : List XType) : List Field := layoutsOf llvm types

/-- The block is at least as large as the structure. -/
def HasRoom (types : List XType) (e : Emitted) : Prop :=
  ∀ n ∈ e.block, (structOf (fields types)).size ≤ n

/-- The bytes that are counted too much for a type. -/
def surplus (type : XType) : ℤ :=
  (layoutOf computed type).size - (layoutOf llvm type).size

/-- The sum of the sizes that are computed. -/
theorem totalSize2_eq (hsized : ∀ t ∈ types, Sized t) (htexts : List.Forall₂ Printed types texts)
    (h : totalSize2 named fuel texts = some n) :
    (n : ℤ) = sizes (fields types) + (types.map surplus).sum := by
  induction htexts generalizing n with
  | nil =>
    cases h
    rfl
  | @cons type text types texts hp _ ih =>
    rcases Option.map_eq_some_iff.mp h with ⟨all, hall, rfl⟩
    rw [List.mapM_cons] at hall
    rcases Option.bind_eq_some_iff.mp hall with ⟨size, hsize, hall⟩
    rcases Option.bind_eq_some_iff.mp hall with ⟨rest, hrest, hall⟩
    have hrest' : totalSize2 named fuel texts = some rest.sum := by rw [totalSize2, hrest]; rfl
    have htail := ih (fun t ht => hsized t (List.mem_cons_of_mem type ht)) hrest'
    have hhead := text_size (hsized type List.mem_cons_self) hp hsize
    rw [← Option.some.inj hall, List.sum_cons, Nat.cast_add, htail, hhead, List.map_cons,
      List.sum_cons, surplus]
    have hsizes : sizes (fields (type :: types)) =
        (layoutOf llvm type).size + sizes (fields types) := List.sum_cons
    rw [hsizes, Nat.cast_add]
    ring

theorem fields_align_pos (hsized : ∀ t ∈ types, Sized t) : ∀ f ∈ fields types, 0 < f.align := by
  intro f hf
  rw [fields, layoutsOf_eq] at hf
  rcases List.mem_map.mp hf with ⟨t, ht, rfl⟩
  exact llvm_align_pos (hsized t ht)

/-- There is room just if the padding of the structure is not more than what is counted too much. -/
theorem hasRoom_iff_padding (hsized : ∀ t ∈ types, Sized t)
    (htexts : List.Forall₂ Printed types texts)
    (h : compilerCallback named fuel ftypes texts = some e) :
    HasRoom types e ↔ (structPadding (fields types) : ℤ) ≤ (types.map surplus).sum := by
  rcases Option.bind_eq_some_iff.mp h with ⟨total, htotal, h⟩
  have hsum := totalSize2_eq hsized htexts htotal
  have hstruct := structOf_size (fields types)
  split at h
  · cases h
  · rw [← Option.some.inj h, HasRoom]
    cases htexts with
    | nil => exact iff_of_true (fun n hn => absurd hn (by simp)) le_rfl
    | cons _ _ =>
      rw [if_neg (List.cons_ne_nil _ _)]
      simp only [Option.mem_def, Option.some.injEq, forall_eq']
      omega

theorem sum_surplus_eq_zero (hsized : ∀ t ∈ types, Sized t)
    (halike : ∀ t ∈ types, alike t = true) : (types.map surplus).sum = 0 := by
  apply List.sum_eq_zero
  intro x hx
  rcases List.mem_map.mp hx with ⟨t, ht, rfl⟩
  rw [surplus, (sameAsLlvm (hsized t ht) (halike t ht)).size, sub_self]

/-- Scheduled callbacks have room for their arguments just if the padding of the structure is not
more than what is counted too much; where both layouts agree, just if there is no padding. -/
theorem hasRoom_iff (hsized : ∀ t ∈ types, Sized t) (htexts : List.Forall₂ Printed types texts)
    (h : compilerCallback named fuel ftypes texts = some e) :
    (HasRoom types e ↔ (structPadding (fields types) : ℤ) ≤ (types.map surplus).sum) ∧
      ((∀ t ∈ types, alike t = true) → (HasRoom types e ↔
        Packed 0 (fields types) ∧ maxAlign (fields types) ∣ sizes (fields types))) := by
  have hiff := hasRoom_iff_padding hsized htexts h
  refine ⟨hiff, fun halike => ?_⟩
  rw [hiff, sum_surplus_eq_zero hsized halike,
    ← structPadding_eq_zero (fields_align_pos hsized)]
  omega

/-- A table without names. -/
def noNames : NamedTypes where
  find _ := none
  name _ _ h := absurd h.symm (Option.some_ne_none _)

theorem printed_i32 : Printed (.atom 4) (ascii "i32") := by
  have hprinted : Printed (.atom 4) (ascii "i32" ++ stars 0) :=
    printed_word rfl (by decide) (by decide) rfl
  exact hprinted

theorem printed_double : Printed (.atom 0) (ascii "double") := by
  have hprinted : Printed (.atom 0) (ascii "double" ++ stars 0) :=
    printed_word rfl (by decide) (by decide) rfl
  exact hprinted

/-- The size of a number by its text. -/
theorem size_number {base : ℤ} {text : List UInt8} (h : 0 ≤ base ∧ base ≤ 11)
    (hs : Printed (.atom base) text) (hr : reread (.atom base) = some (.atom base)) (fuel : ℕ) :
    getTypeSize noNames (fuel + 2) (.named text) = some (baseField base).size := by
  have hsized := Sized.number h
  rw [getTypeSize_text hsized.wellFormed hs hsized.ne_void (by simp), hr,
    Option.bind_some, getTypeSize, orPointer_value (by omega)]
  exact (number_eq h hr).1

/-- A tuple of two numbers of four bytes. -/
def pair : XType := .tuple 0 [.atom 4, .atom 4]

theorem sized_pair : Sized pair := by
  refine .tuple (List.cons_ne_nil _ _) fun t ht => ?_
  rcases List.mem_cons.mp ht with rfl | ht
  · exact .number (by decide)
  · rw [List.mem_singleton.mp ht]
    exact .number (by decide)

theorem printed_pair : Printed pair (ascii "\x7bi32,i32\x7d") :=
  printed_tuple 0 (.cons printed_i32 (.cons printed_i32 .nil))

theorem size_pair : getTypeSize noNames 6 (.named (ascii "\x7bi32,i32\x7d")) = some 8 := by
  rw [getTypeSize_text sized_pair.wellFormed printed_pair sized_pair.ne_void (by simp [pair])]
  have hr : reread pair = some pair := rfl
  rw [hr, Option.bind_some, pair, getTypeSize, orPointer_value (by decide), if_pos rfl,
    getTupleTypeSize_eq _ _ sized_pair.wellFormed rfl]
  rfl

/-- The pair by value and a number of eight bytes. -/
theorem hasRoom_pair :
    HasRoom [pair, .atom 0] ⟨some 16, [(0, ascii "\x7bi32,i32\x7d"), (1, ascii "double")]⟩ := by
  have hsized : ∀ t ∈ [pair, .atom 0], Sized t := by
    intro t ht
    rcases List.mem_cons.mp ht with rfl | ht
    · exact sized_pair
    · rw [List.mem_singleton.mp ht]
      exact .number (by decide)
  have htotal : totalSize2 noNames 6 [ascii "\x7bi32,i32\x7d", ascii "double"] = some 16 := by
    rw [totalSize2, List.mapM_cons, size_pair, List.mapM_cons,
      size_number (by decide) printed_double rfl]
    rfl
  have hcompile : compilerCallback noNames 6 [ascii "\x7bi32,i32\x7d", ascii "double"]
      [ascii "\x7bi32,i32\x7d", ascii "double"] =
        some ⟨some 16, [(0, ascii "\x7bi32,i32\x7d"), (1, ascii "double")]⟩ := by
    rw [compilerCallback, htotal]
    rfl
  exact ((hasRoom_iff hsized (.cons printed_pair (.cons printed_double .nil)) hcompile).2
    (by decide)).mpr ⟨⟨by decide, by decide, trivial⟩, by decide⟩

/-- For an `i32` and a `double` 12 bytes are requested, and the structure has 16. -/
theorem not_hasRoom_double : compilerCallback noNames 6 [ascii "i32", ascii "double"]
      [ascii "i32", ascii "double"] = some ⟨some 12, [(0, ascii "i32"), (1, ascii "double")]⟩ ∧
    ¬ HasRoom [.atom 4, .atom 0] ⟨some 12, [(0, ascii "i32"), (1, ascii "double")]⟩ := by
  have htotal : totalSize2 noNames 6 [ascii "i32", ascii "double"] = some 12 := by
    rw [totalSize2, List.mapM_cons, size_number (by decide) printed_i32 rfl, List.mapM_cons,
      size_number (by decide) printed_double rfl]
    rfl
  refine ⟨?_, fun h => ?_⟩
  · rw [compilerCallback, htotal]
    rfl
  · have hroom := h 12 rfl
    exact absurd hroom (by decide)

/-- Where there is room, the stores begin at multiples of the alignment and end in the block. -/
theorem stores_inside (hsized : ∀ t ∈ types, Sized t) (h : HasRoom types e) {o : ℕ} {f : Field}
    (hblock : e.block = some n) (hf : (o, f) ∈ placed 0 (fields types)) :
    f.align ∣ o ∧ o + f.size ≤ n := by
  have hmem : f ∈ fields types := mem_of_placed hf
  exact ⟨placed_dvd hf (fields_align_pos hsized f hmem), (placed_inside hf).trans (h n hblock)⟩

end Extempore.CallbackArguments
