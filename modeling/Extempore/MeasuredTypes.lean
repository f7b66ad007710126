import Extempore.CallbackArguments

/-!
# Computed sizes and the sizes of LLVM

`impc:ir:get-type-size` returns the size of the computed layout, if the elements of every tuple can
be read from its text and no element of a tuple has the alignment 0. So it returns the size that LLVM
allocates exactly where both layouts have the same size.
-/

namespace Extempore.MeasuredTypes
open TypeStrings TypeParsing StructLayouts TypeSizes TypeLayouts
open CallbackArguments (noNames)

/-- Numbers, pointers to other than named types up to the limit of their encoding, and tuples, arrays
and vectors of such types. -/
inductive Plain : XType → Prop
  | number {base : ℤ} (h : 0 ≤ base ∧ base ≤ 11) : Plain (.atom base)
  | pointer {type : XType} (h : WellFormed type) (hptr : 1 ≤ pointers type ∧ pointers type ≤ 9)
      (hname : ∀ text, type ≠ .named text) : Plain type
  | tuple {types : List XType} (hne : types ≠ []) (h : ∀ t ∈ types, Plain t) :
      Plain (.tuple 0 types)
  | array (size : ℕ) {type : XType} (h : Plain type) : Plain (.array 0 size type)
  | vector (size : ℕ) {type : XType} (h : Plain type) : Plain (.vector 0 size type)

/-- The elements of a tuple are read from its text: it has no vector of elements with a comma. -/
def readable : XType → Bool
  | .tuple ptr types => ptr ≠ 0 ∨ (rereads types).isSome
  | .array ptr _ type => ptr ≠ 0 ∨ readable type
  | .vector ptr _ type => ptr ≠ 0 ∨ readable type
  | _ => true

mutual

/-- No element of a tuple has the alignment 0, by which a remainder is taken. -/
def aligned : XType → Bool
  | .tuple ptr types => ptr ≠ 0 ∨ aligneds types
  | .array ptr _ type => ptr ≠ 0 ∨ aligned type
  | .vector ptr _ type => ptr ≠ 0 ∨ aligned type
  | _ => true

def aligneds : List XType → Bool
  | [] => true
  | type :: types => aligned type && 0 < (layoutOf computed type).align && aligneds types

end

variable {named : NamedTypes} {type type' : XType} {types types' : List XType} {n fuel : ℕ}

theorem Plain.sized (h : Plain type) : Sized type := by
  induction h with
  | number h => exact .number h
  | pointer h hptr _ => exact .pointer h hptr
  | tuple hne _ ih => exact .tuple hne ih
  | array size _ ih => exact .array size ih
  | vector size _ ih => exact .vector size ih

theorem aligneds_iff : aligneds types = true ↔
    ∀ t ∈ types, aligned t = true ∧ 0 < (layoutOf computed t).align := by
  induction types with
  | nil => exact iff_of_true rfl (List.forall_mem_nil _)
  | cons type types ih =>
    rw [aligneds, Bool.and_eq_true, Bool.and_eq_true, ih, List.forall_mem_cons, decide_eq_true_iff]

theorem aligned_pointer (hptr : 1 ≤ pointers type) : aligned type = true := by
  cases type with
  | atom | named | closure => rfl
  | tuple ptr _ | array ptr _ _ | vector ptr _ _ =>
    rw [aligned, decide_eq_true_iff]
    exact .inl (Nat.one_le_iff_ne_zero.mp hptr)

/-- Where the layouts are alike, alignments are positive, as those of LLVM are. -/
theorem aligned_of_alike (h : Sized type) (halike : alike type = true) : aligned type = true := by
  induction h with
  | number _ => rfl
  | pointer _ hptr => exact aligned_pointer hptr.1
  | @tuple types _ hsized ih =>
    rw [alike, decide_eq_true_iff] at halike
    have hall := alikes_iff.mp (halike.resolve_left fun hne => hne rfl)
    rw [aligned, decide_eq_true_iff, aligneds_iff]
    refine .inr fun t ht => ⟨ih t ht (hall t ht).1, ?_⟩
    rw [(sameAsLlvm (hsized t ht) (hall t ht).1).align (hall t ht).2]
    exact llvm_align_pos (hsized t ht)
  | array _ _ ih =>
    rw [alike, decide_eq_true_iff] at halike
    rw [aligned, decide_eq_true_iff]
    exact .inr (ih (halike.resolve_left fun hne => hne rfl))
  | vector _ _ ih =>
    rw [alike, decide_eq_true_iff] at halike
    rw [aligned, decide_eq_true_iff]
    exact .inr (ih (halike.resolve_left fun hne => hne rfl).1)

/-! ## Types as they are read back -/

theorem not_named_of_reread (hname : ∀ text, type ≠ .named text) (hr : reread type = some type') :
    ∀ text, type' ≠ .named text := by
  intro text heq
  rw [heq] at hr
  cases type with
  | named name => exact hname name rfl
  | atom => cases hr
  | closure | tuple | array =>
    rw [reread] at hr
    rcases Option.map_eq_some_iff.mp hr with ⟨_, -, habsurd⟩
    cases habsurd
  | vector =>
    rw [reread] at hr
    split at hr
    · cases hr
    · rcases Option.map_eq_some_iff.mp hr with ⟨_, -, habsurd⟩
      cases habsurd

/-- What is read of a type is aligned where the type is. -/
structure ReadAligned (type type' : XType) : Prop where
  plain : Plain type'
  aligned : aligned type' = aligned type

theorem readAligned_all (h : List.Forall₂ (fun t t' => reread t = some t') types types')
    (hsized : ∀ t ∈ types, Sized t)
    (hread : ∀ t ∈ types, ∀ t', reread t = some t' → ReadAligned t t') :
    (∀ t ∈ types', Plain t) ∧ aligneds types' = aligneds types := by
  induction h with
  | nil => exact ⟨fun _ ht => absurd ht List.not_mem_nil, rfl⟩
  | @cons type type' types types' hr _ ih =>
    have hhead := hread type List.mem_cons_self type' hr
    have hlayout := (sameLayout (hsized type List.mem_cons_self) hr).layout computed
    rcases ih (fun t ht => hsized t (List.mem_cons_of_mem type ht))
      fun t ht => hread t (List.mem_cons_of_mem type ht) with ⟨hplain, haligneds⟩
    refine ⟨List.forall_mem_cons.mpr ⟨hhead.plain, hplain⟩, ?_⟩
    rw [aligneds, aligneds, hhead.aligned, hlayout, haligneds]

theorem readAligned (h : Plain type) (hr : reread type = some type') : ReadAligned type type' := by
  induction h generalizing type' with
  | @number base h =>
    have hatom := eraseAtom_eq 0 h
    simp only [Nat.cast_zero, mul_zero, zero_add, add_zero] at hatom
    rw [reread, hatom] at hr
    rw [← Option.some.inj hr]
    exact ⟨.number (eraseBase_range h).1, rfl⟩
  | @pointer type h hptr hname =>
    have hptr' : 1 ≤ pointers type' ∧ pointers type' ≤ 9 := by rwa [pointers_reread h hr]
    refine ⟨.pointer (reread_spec h hr).wellFormed hptr' (not_named_of_reread hname hr), ?_⟩
    rw [aligned_pointer hptr.1, aligned_pointer hptr'.1]
  | @tuple types hne hplain ih =>
    rw [reread] at hr
    rcases Option.map_eq_some_iff.mp hr with ⟨types', htypes, rfl⟩
    have hall := rereads_eq_some.mp htypes
    rcases readAligned_all hall (fun t ht => (hplain t ht).sized) fun t ht t' hr => ih t ht hr
      with ⟨hplain', haligneds⟩
    refine ⟨.tuple ?_ hplain', ?_⟩
    · intro hnil
      rw [hnil] at hall
      exact hne (List.forall₂_nil_right_iff.mp hall)
    · rw [aligned, aligned, haligneds]
  | @array size type _ ih =>
    rw [reread] at hr
    rcases Option.map_eq_some_iff.mp hr with ⟨type', htype, rfl⟩
    have helement := ih htype
    exact ⟨.array size helement.plain, by rw [aligned, aligned, helement.aligned]⟩
  | @vector size type _ ih =>
    rw [reread] at hr
    split at hr
    · cases hr
    · rcases Option.map_eq_some_iff.mp hr with ⟨type', htype, rfl⟩
      have helement := ih htype
      exact ⟨.vector size helement.plain, by rw [aligned, aligned, helement.aligned]⟩

/-! ## Size and alignment are returned -/

/-- With enough calls, size and alignment are those of the computed layout. -/
structure Yields (named : NamedTypes) (n : ℕ) (type : XType) : Prop where
  size : ∀ fuel ≥ n, getTypeSize named fuel type = some (layoutOf computed type).size
  align : ∀ fuel ≥ n, getAlignment named fuel type = some (layoutOf computed type).align

theorem Yields.mono {m : ℕ} (h : Yields named n type) (hle : n ≤ m) : Yields named m type :=
  ⟨fun fuel hfuel => h.size fuel (hle.trans hfuel), fun fuel hfuel => h.align fuel (hle.trans hfuel)⟩

/-- One number of calls is enough for all elements. -/
theorem exists_yields_all (h : ∀ t ∈ types, ∃ n, Yields named n t) :
    ∃ n, ∀ t ∈ types, Yields named n t := by
  induction types with
  | nil => exact ⟨0, fun t ht => absurd ht List.not_mem_nil⟩
  | cons type types ih =>
    rcases h type List.mem_cons_self with ⟨n, hn⟩
    rcases ih fun t ht => h t (List.mem_cons_of_mem type ht) with ⟨m, hm⟩
    refine ⟨max n m, fun t ht => ?_⟩
    rcases List.mem_cons.mp ht with rfl | ht
    · exact hn.mono (Nat.le_max_left _ _)
    · exact (hm t ht).mono (Nat.le_max_right _ _)

/-- The loop over elements of which none has the alignment 0. -/
theorem sizeLoop_some {size largest : ℕ} (h : ∀ t ∈ types, Yields named n t)
    (hpos : ∀ t ∈ types, 0 < (layoutOf computed t).align) (hfuel : n ≤ fuel) :
    sizeLoop (getTypeSize named fuel) (getAlignment named fuel) types size largest =
      some (endOf size (layoutsOf computed types),
        max largest (maxAlign (layoutsOf computed types))) := by
  induction types generalizing size largest with
  | nil =>
    rw [sizeLoop, layoutsOf, endOf, maxAlign, Nat.max_zero]
  | cons type types ih =>
    have htype := h type List.mem_cons_self
    have hne : (layoutOf computed type).align ≠ 0 := (hpos type List.mem_cons_self).ne'
    rw [sizeLoop, htype.size fuel hfuel, htype.align fuel hfuel]
    simp only [Option.bind_eq_bind, Option.bind_some, if_neg hne]
    rw [ih (fun t ht => h t (List.mem_cons_of_mem type ht))
      (fun t ht => hpos t (List.mem_cons_of_mem type ht)), layoutsOf, endOf, maxAlign,
      Nat.max_comm _ largest, Nat.max_assoc]

theorem mapM_alignments (h : ∀ t ∈ types, Yields named n t) (hfuel : n ≤ fuel) :
    types.mapM (getAlignment named fuel) =
      some ((layoutsOf computed types).map Field.align) := by
  induction types with
  | nil => rfl
  | cons type types ih =>
    rw [List.mapM_cons, (h type List.mem_cons_self).align fuel hfuel,
      ih fun t ht => h t (List.mem_cons_of_mem type ht), layoutsOf, List.map_cons]
    rfl

/-- `apply max` over the alignments of the elements. -/
theorem max?_alignments (hne : types ≠ []) :
    ((layoutsOf computed types).map Field.align).max? =
      some (maxAlign (layoutsOf computed types)) := by
  cases hmax : ((layoutsOf computed types).map Field.align).max? with
  | none =>
    rw [List.max?_eq_none_iff, List.map_eq_nil_iff, layoutsOf_eq, List.map_eq_nil_iff] at hmax
    exact absurd hmax hne
  | some n => rw [max?_aligns hmax]

theorem maxAlign_ne_zero (hne : types ≠ []) (hpos : ∀ t ∈ types, 0 < (layoutOf computed t).align) :
    maxAlign (layoutsOf computed types) ≠ 0 := by
  apply Nat.ne_of_gt
  rw [layoutsOf_eq]
  apply maxAlign_pos
  · exact fun hnil => hne (List.map_eq_nil_iff.mp hnil)
  · intro f hf
    rcases List.mem_map.mp hf with ⟨t, ht, rfl⟩
    exact hpos t ht

/-- A tuple of elements that are read as they are. -/
theorem yields_tuple (hne : types ≠ []) (hwf : WellFormed (.tuple 0 types))
    (hr : rereads types = some types) (h : ∀ t ∈ types, Yields named n t)
    (hpos : ∀ t ∈ types, 0 < (layoutOf computed t).align) :
    Yields named (n + 2) (.tuple 0 types) := by
  have hlayout : layoutOf computed (.tuple 0 types) = structOf (layoutsOf computed types) := by
    rw [layoutOf, if_pos rfl]
  have hmax := maxAlign_ne_zero hne hpos
  refine ⟨fun fuel hfuel => ?_, fun fuel hfuel => ?_⟩
  · rcases Nat.exists_eq_add_of_le' hfuel with ⟨m, rfl⟩
    rw [← Nat.add_assoc m n 2, getTypeSize, orPointer_value (by decide), if_pos rfl,
      getTupleTypeSize_eq _ _ hwf hr, sizeLoop_some h hpos (by omega), Option.bind_some,
      Nat.zero_max, if_neg hmax, hlayout]
    rfl
  · rcases Nat.exists_eq_add_of_le' hfuel with ⟨m, rfl⟩
    rw [← Nat.add_assoc m n 2, getAlignment_tuple, mapM_alignments h (by omega), Option.bind_some,
      max?_alignments hne, hlayout]
    rfl

/-- Sizes and alignments of types that are read as they are. -/
theorem exists_yields (h : Plain type) (hr : reread type = some type)
    (haligned : aligned type = true) :
    ∃ n, Yields named n type := by
  induction h with
  | @number base h =>
    rcases number_eq h hr with ⟨hbase, halign⟩
    have hlayout : layoutOf computed (.atom base) = baseField base := by
      rw [layoutOf, if_neg (by omega)]
    have hsize (fuel : ℕ) : getTypeSize named (fuel + 1) (.atom base) =
        some (baseField base).size := by
      rw [getTypeSize, orPointer_value (by omega), hbase]
    refine ⟨3, fun fuel hfuel => ?_, fun fuel hfuel => ?_⟩
    · rcases Nat.exists_eq_add_of_le' hfuel with ⟨m, rfl⟩
      rw [hsize, hlayout]
    · rcases Nat.exists_eq_add_of_le' hfuel with ⟨m, rfl⟩
      rw [getAlignment_number h, hlayout, halign, hsize]
      split
      · rfl
      · rfl
  | @pointer type h hptr hname =>
    have hlayout : layoutOf computed type = pointerField := layoutOf_pointer h hptr.1
    refine ⟨2, fun fuel hfuel => ?_, fun fuel hfuel => ?_⟩
    · rcases Nat.exists_eq_add_of_le' hfuel with ⟨m, rfl⟩
      rw [(pointer_eq h hptr hname (m + 1)).1, hlayout]
      rfl
    · rcases Nat.exists_eq_add_of_le' hfuel with ⟨m, rfl⟩
      rw [(pointer_eq h hptr hname m).2, hlayout]
      rfl
  | @tuple types hne hplain ih =>
    rw [reread] at hr
    rcases Option.map_eq_some_iff.mp hr with ⟨types', htypes, heq⟩
    rw [(XType.tuple.inj heq).2] at htypes
    rw [aligned, decide_eq_true_iff] at haligned
    have hall := aligneds_iff.mp (haligned.resolve_left fun hne => hne rfl)
    rcases exists_yields_all fun t ht => ih t ht (rereads_mem htypes t ht) (hall t ht).1
      with ⟨n, hn⟩
    exact ⟨n + 2, yields_tuple hne (.tuple 0 hne fun t ht => (hplain t ht).sized.wellFormed)
      htypes hn fun t ht => (hall t ht).2⟩
  | @array size type hplain ih =>
    rw [reread] at hr
    rcases Option.map_eq_some_iff.mp hr with ⟨type', htype, heq⟩
    rw [(XType.array.inj heq).2.2] at htype
    rw [aligned, decide_eq_true_iff] at haligned
    rcases ih htype (haligned.resolve_left fun hne => hne rfl) with ⟨n, hn⟩
    refine ⟨n + 2, fun fuel hfuel => ?_, fun fuel hfuel => ?_⟩
    · rcases Nat.exists_eq_add_of_le' hfuel with ⟨m, rfl⟩
      rw [← Nat.add_assoc m n 2, (getTypeSize_element _ _ _).1, hn.size _ (by omega),
        (computed_element _ _).1, Option.map_some, Nat.mul_comm]
    · rcases Nat.exists_eq_add_of_le' hfuel with ⟨m, rfl⟩
      rw [← Nat.add_assoc m n 2, (getAlignment_element _ _ _).1, hn.size _ (by omega),
        (computed_element _ _).1]
  | @vector size type hplain ih =>
    rw [reread] at hr
    split at hr
    · cases hr
    rcases Option.map_eq_some_iff.mp hr with ⟨type', htype, heq⟩
    rw [(XType.vector.inj heq).2.2] at htype
    rw [aligned, decide_eq_true_iff] at haligned
    rcases ih htype (haligned.resolve_left fun hne => hne rfl) with ⟨n, hn⟩
    have hsize (fuel : ℕ) (hfuel : n ≤ fuel) :
        getTypeSize named (fuel + 1) (.vector 0 size type) =
          some (size * (layoutOf computed type).size) := by
      rw [(getTypeSize_element _ _ _).2, hn.size _ hfuel, Option.map_some, Nat.mul_comm]
    refine ⟨n + 3, fun fuel hfuel => ?_, fun fuel hfuel => ?_⟩
    · rcases Nat.exists_eq_add_of_le' hfuel with ⟨m, rfl⟩
      rw [← Nat.add_assoc m n 3, hsize _ (by omega), (computed_element _ _).2]
    · rcases Nat.exists_eq_add_of_le' hfuel with ⟨m, rfl⟩
      rw [← Nat.add_assoc m n 3, (getAlignment_element _ _ _).2, hsize _ (by omega),
        (computed_element _ _).2]

/-! ## Types with signs -/

theorem baseSize_eq {base : ℤ} (h : 0 ≤ base ∧ base ≤ 11) :
    baseSize base = some (baseField base).size := by
  have hall : ∀ i < 12, baseSize (i : ℕ) = some (baseField (i : ℕ)).size := by decide
  rcases Int.eq_ofNat_of_zero_le h.1 with ⟨i, rfl⟩
  exact hall i (by omega)

theorem getTypeSize_number {base : ℤ} (h : 0 ≤ base ∧ base ≤ 11) (fuel : ℕ) :
    getTypeSize named (fuel + 1) (.atom base) = some (layoutOf computed (.atom base)).size := by
  rw [getTypeSize, orPointer_value (by omega), baseSize_eq h, layoutOf, if_neg (by omega)]

theorem getTypeSize_pointer (h : WellFormed type) (hptr : 1 ≤ pointers type ∧ pointers type ≤ 9)
    (hname : ∀ text, type ≠ .named text) (fuel : ℕ) :
    getTypeSize named (fuel + 1) type = some (layoutOf computed type).size := by
  rw [(pointer_eq h hptr hname fuel).1, layoutOf_pointer h hptr.1]
  rfl

theorem readable_pointer (hptr : 1 ≤ pointers type) : readable type = true := by
  cases type with
  | atom | named | closure => rfl
  | tuple ptr _ | array ptr _ _ | vector ptr _ _ =>
    rw [readable, decide_eq_true_iff]
    exact .inl (Nat.one_le_iff_ne_zero.mp hptr)

/-- What the elements of a tuple are read as. -/
theorem read_elements (h : ∀ t ∈ types, Plain t) (hr : rereads types = some types') :
    (∀ t ∈ types', Plain t ∧ reread t = some t) ∧ aligneds types' = aligneds types ∧
      layoutsOf computed types' = layoutsOf computed types := by
  have hall := rereads_eq_some.mp hr
  rcases readAligned_all hall (fun t ht => (h t ht).sized) fun t ht t' hr => readAligned (h t ht) hr
    with ⟨hplain, haligneds⟩
  have hagain := (reread_all hall fun t ht t' hr => reread_spec (h t ht).sized.wellFormed hr).2.1
  refine ⟨fun t ht => ⟨hplain t ht, rereads_mem hagain t ht⟩, haligneds, ?_⟩
  exact (sameLayouts hall fun t ht t' hr => sameLayout (h t ht).sized hr).2 computed

/-- The size of the computed layout is returned. -/
theorem exists_size (h : Plain type) (hread : readable type = true)
    (haligned : aligned type = true) :
    ∃ n, ∀ fuel ≥ n, getTypeSize named fuel type = some (layoutOf computed type).size := by
  induction h with
  | @number base h =>
    refine ⟨1, fun fuel hfuel => ?_⟩
    rcases Nat.exists_eq_add_of_le' hfuel with ⟨m, rfl⟩
    exact getTypeSize_number h m
  | @pointer type h hptr hname =>
    refine ⟨1, fun fuel hfuel => ?_⟩
    rcases Nat.exists_eq_add_of_le' hfuel with ⟨m, rfl⟩
    exact getTypeSize_pointer h hptr hname m
  | @tuple types hne hplain _ =>
    rw [readable, decide_eq_true_iff] at hread
    rw [aligned, decide_eq_true_iff] at haligned
    rcases Option.isSome_iff_exists.mp (hread.resolve_left fun hne => hne rfl) with ⟨types', hr⟩
    rcases read_elements hplain hr with ⟨helements, haligneds, hlayouts⟩
    have hall := aligneds_iff.mp (haligneds.trans (haligned.resolve_left fun hne => hne rfl))
    rcases exists_yields_all fun t ht =>
      @exists_yields named t (helements t ht).1 (helements t ht).2 (hall t ht).1 with ⟨n, hn⟩
    have hne' : types' ≠ [] := by
      intro hnil
      rw [hnil] at hr
      exact hne (List.forall₂_nil_right_iff.mp (rereads_eq_some.mp hr))
    have hmax := maxAlign_ne_zero hne' fun t ht => (hall t ht).2
    have hwf : WellFormed (.tuple 0 types) := .tuple 0 hne fun t ht => (hplain t ht).sized.wellFormed
    refine ⟨n + 1, fun fuel hfuel => ?_⟩
    rcases Nat.exists_eq_add_of_le' hfuel with ⟨m, rfl⟩
    rw [← Nat.add_assoc m n 1, getTypeSize, orPointer_value (by decide), if_pos rfl,
      getTupleTypeSize_bind _ _ hwf, hr, Option.bind_some,
      sizeLoop_some hn (fun t ht => (hall t ht).2) (by omega), Option.bind_some, Nat.zero_max,
      if_neg hmax, hlayouts, layoutOf, if_pos rfl]
    rfl
  | @array size type _ ih =>
    rw [readable, decide_eq_true_iff] at hread
    rw [aligned, decide_eq_true_iff] at haligned
    rcases ih (hread.resolve_left fun hne => hne rfl) (haligned.resolve_left fun hne => hne rfl)
      with ⟨n, hn⟩
    refine ⟨n + 1, fun fuel hfuel => ?_⟩
    rcases Nat.exists_eq_add_of_le' hfuel with ⟨m, rfl⟩
    rw [← Nat.add_assoc m n 1, (getTypeSize_element _ _ _).1, hn _ (by omega), Option.map_some,
      (computed_element _ _).1, Nat.mul_comm]
  | @vector size type _ ih =>
    rw [readable, decide_eq_true_iff] at hread
    rw [aligned, decide_eq_true_iff] at haligned
    rcases ih (hread.resolve_left fun hne => hne rfl) (haligned.resolve_left fun hne => hne rfl)
      with ⟨n, hn⟩
    refine ⟨n + 1, fun fuel hfuel => ?_⟩
    rcases Nat.exists_eq_add_of_le' hfuel with ⟨m, rfl⟩
    rw [← Nat.add_assoc m n 1, (getTypeSize_element _ _ _).2, hn _ (by omega), Option.map_some,
      (computed_element _ _).2, Nat.mul_comm]

/-! ## Nothing else is returned -/

/-- A loop that returns has found a size and a positive alignment of every element. -/
theorem sizeLoop_mem {sizeOf alignOf : XType → Option ℕ} {size largest : ℕ} {loop : ℕ × ℕ}
    (h : sizeLoop sizeOf alignOf types size largest = some loop) :
    ∀ t ∈ types, (∃ m, sizeOf t = some m) ∧ ∃ a, alignOf t = some a ∧ 0 < a := by
  induction types generalizing size largest with
  | nil => exact fun t ht => absurd ht List.not_mem_nil
  | cons type types ih =>
    rw [sizeLoop] at h
    rcases Option.bind_eq_some_iff.mp h with ⟨thisSize, hsize, h⟩
    rcases Option.bind_eq_some_iff.mp h with ⟨align, halign, h⟩
    split at h
    · cases h
    · next hne =>
      intro t ht
      rcases List.mem_cons.mp ht with rfl | ht
      · exact ⟨⟨thisSize, hsize⟩, align, halign, Nat.pos_of_ne_zero hne⟩
      · exact ih h t ht

/-- Elements that are read as they are and of which the loop returns are aligned. -/
theorem aligneds_of_loop {size largest : ℕ} {loop : ℕ × ℕ}
    (hplain : ∀ t ∈ types, Plain t ∧ reread t = some t)
    (ih : ∀ t ∈ types, ∀ m, getTypeSize named fuel t = some m → aligned t = true)
    (h : sizeLoop (getTypeSize named fuel) (getAlignment named fuel) types size largest =
      some loop) : aligneds types = true := by
  rw [aligneds_iff]
  intro t ht
  rcases sizeLoop_mem h t ht with ⟨⟨m, hm⟩, a, ha, hpos⟩
  refine ⟨ih t ht m hm, ?_⟩
  rwa [← (computes (hplain t ht).1.sized (hplain t ht).2).align fuel a ha]

theorem aligned_of_size (h : Plain type) (hr : reread type = some type)
    (hn : getTypeSize named fuel type = some n) : aligned type = true := by
  induction h generalizing fuel n with
  | number _ => rfl
  | pointer _ hptr _ => exact aligned_pointer hptr.1
  | @tuple types hne hplain ih =>
    rw [reread] at hr
    rcases Option.map_eq_some_iff.mp hr with ⟨types', htypes, heq⟩
    rw [(XType.tuple.inj heq).2] at htypes
    have hfixed := rereads_mem htypes
    have hwf : WellFormed (.tuple 0 types) := .tuple 0 hne fun t ht => (hplain t ht).sized.wellFormed
    rcases succ_of_size hn with ⟨fuel, rfl⟩
    rw [getTypeSize, orPointer_value (by decide), if_pos rfl, getTupleTypeSize_eq _ _ hwf htypes]
      at hn
    rcases Option.bind_eq_some_iff.mp hn with ⟨loop, hloop, -⟩
    rw [aligned, decide_eq_true_iff]
    exact .inr (aligneds_of_loop (fun t ht => ⟨hplain t ht, hfixed t ht⟩)
      (fun t ht m hm => ih t ht (hfixed t ht) hm) hloop)
  | @array size type _ ih =>
    rw [reread] at hr
    rcases Option.map_eq_some_iff.mp hr with ⟨type', htype, heq⟩
    rw [(XType.array.inj heq).2.2] at htype
    rcases succ_of_size hn with ⟨fuel, rfl⟩
    rw [(getTypeSize_element _ _ _).1] at hn
    rcases Option.map_eq_some_iff.mp hn with ⟨m, hm, -⟩
    rw [aligned, decide_eq_true_iff]
    exact .inr (ih htype hm)
  | @vector size type _ ih =>
    rw [reread] at hr
    split at hr
    · cases hr
    rcases Option.map_eq_some_iff.mp hr with ⟨type', htype, heq⟩
    rw [(XType.vector.inj heq).2.2] at htype
    rcases succ_of_size hn with ⟨fuel, rfl⟩
    rw [(getTypeSize_element _ _ _).2] at hn
    rcases Option.map_eq_some_iff.mp hn with ⟨m, hm, -⟩
    rw [aligned, decide_eq_true_iff]
    exact .inr (ih htype hm)

/-- A size that is returned is that of the computed layout. -/
structure Returned (type : XType) (n : ℕ) : Prop where
  readable : readable type = true
  aligned : aligned type = true
  size : n = (layoutOf computed type).size

theorem returned_of_size (h : Plain type) (hn : getTypeSize named fuel type = some n) :
    Returned type n := by
  induction h generalizing fuel n with
  | @number base h =>
    rcases succ_of_size hn with ⟨m, rfl⟩
    rw [getTypeSize_number h] at hn
    exact ⟨rfl, rfl, (Option.some.inj hn).symm⟩
  | @pointer type h hptr hname =>
    rcases succ_of_size hn with ⟨m, rfl⟩
    rw [getTypeSize_pointer h hptr hname] at hn
    exact ⟨readable_pointer hptr.1, aligned_pointer hptr.1, (Option.some.inj hn).symm⟩
  | @tuple types hne hplain _ =>
    have hwf : WellFormed (.tuple 0 types) := .tuple 0 hne fun t ht => (hplain t ht).sized.wellFormed
    rcases succ_of_size hn with ⟨fuel, rfl⟩
    rw [getTypeSize, orPointer_value (by decide), if_pos rfl, getTupleTypeSize_bind _ _ hwf] at hn
    rcases Option.bind_eq_some_iff.mp hn with ⟨types', hr, hn⟩
    rcases Option.bind_eq_some_iff.mp hn with ⟨⟨size, largest⟩, hloop, hn⟩
    rcases read_elements hplain hr with ⟨helements, haligneds, hlayouts⟩
    have hloops := aligneds_of_loop helements
      (fun t ht m hm => aligned_of_size (helements t ht).1 (helements t ht).2 hm) hloop
    rcases sizeLoop_eq (fun t ht => computes (helements t ht).1.sized (helements t ht).2) hloop
      with ⟨rfl, rfl⟩
    refine ⟨?_, ?_, ?_⟩
    · rw [readable, hr, decide_eq_true_iff]
      exact .inr rfl
    · rw [aligned, decide_eq_true_iff, ← haligneds]
      exact .inr hloops
    · split at hn
      · cases hn
      · rw [← Option.some.inj hn, Nat.zero_max, hlayouts, layoutOf, if_pos rfl]
        rfl
  | @array size type _ ih =>
    rcases succ_of_size hn with ⟨fuel, rfl⟩
    rw [(getTypeSize_element _ _ _).1] at hn
    rcases Option.map_eq_some_iff.mp hn with ⟨m, hm, rfl⟩
    rcases ih hm with ⟨hread, haligned, rfl⟩
    refine ⟨?_, ?_, by rw [(computed_element _ _).1, Nat.mul_comm]⟩
    · rw [readable, decide_eq_true_iff]
      exact .inr hread
    · rw [aligned, decide_eq_true_iff]
      exact .inr haligned
  | @vector size type _ ih =>
    rcases succ_of_size hn with ⟨fuel, rfl⟩
    rw [(getTypeSize_element _ _ _).2] at hn
    rcases Option.map_eq_some_iff.mp hn with ⟨m, hm, rfl⟩
    rcases ih hm with ⟨hread, haligned, rfl⟩
    refine ⟨?_, ?_, by rw [(computed_element _ _).2, Nat.mul_comm]⟩
    · rw [readable, decide_eq_true_iff]
      exact .inr hread
    · rw [aligned, decide_eq_true_iff]
      exact .inr haligned

/-- `impc:ir:get-type-size` returns the size that LLVM allocates exactly if tuples can be read, no
element of a tuple has the alignment 0, and the computed layout has that size. It does where the
layouts are alike. -/
theorem getTypeSize_llvm_iff (named : NamedTypes) (type : XType) (h : Plain type) :
    ((∃ n, ∀ fuel ≥ n, getTypeSize named fuel type = some (layoutOf llvm type).size) ↔
      readable type = true ∧ aligned type = true ∧
        (layoutOf computed type).size = (layoutOf llvm type).size) ∧
    (alike type = true →
      aligned type = true ∧ (layoutOf computed type).size = (layoutOf llvm type).size) := by
  refine ⟨⟨?_, ?_⟩, ?_⟩
  · intro hex
    rcases hex with ⟨n, hn⟩
    have hreturned := returned_of_size h (hn n (Nat.le_refl n))
    exact ⟨hreturned.readable, hreturned.aligned, hreturned.size.symm⟩
  · intro hcond
    rcases hcond with ⟨hread, haligned, hsize⟩
    rw [← hsize]
    exact exists_size h hread haligned
  · intro halike
    exact ⟨aligned_of_alike h.sized halike, (sameAsLlvm h.sized halike).size⟩

/-- A character and a double are put 8 bytes apart by both. -/
theorem getTypeSize_llvm_pair :
    ∃ n, ∀ fuel ≥ n, getTypeSize noNames fuel (.tuple 0 [.atom 8, .atom 0]) =
      some (layoutOf llvm (.tuple 0 [.atom 8, .atom 0])).size := by
  have hplain : Plain (.tuple 0 [.atom 8, .atom 0]) := by
    apply Plain.tuple (List.cons_ne_nil _ _)
    intro t ht
    rcases List.mem_cons.mp ht with rfl | ht
    · exact .number (by decide)
    · rw [List.mem_singleton.mp ht]
      exact .number (by decide)
  exact (getTypeSize_llvm_iff noNames _ hplain).1.mpr ⟨by decide, by decide, by decide⟩

/-- A vector of three floats has 12 bytes for the compiler, and LLVM allocates 16. -/
theorem not_getTypeSize_llvm : ¬ ∀ (named : NamedTypes) (type : XType), Plain type →
    ∃ n, ∀ fuel ≥ n, getTypeSize named fuel type = some (layoutOf llvm type).size := by
  intro h
  have hplain : Plain (.vector 0 3 (.atom 1)) := .vector 3 (.number (by decide))
  rcases h noNames _ hplain with ⟨n, hn⟩
  have hreturned := returned_of_size hplain (hn n (Nat.le_refl n))
  exact absurd hreturned.size (by decide)

end Extempore.MeasuredTypes
