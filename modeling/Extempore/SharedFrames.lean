import Extempore.LetStar

/-!
# One frame for the frames of nested forms

A run of a `let*` and a run of the nested `let` address their frames differently: all frames
of the nested forms are one frame of the `let*`, the other frames correspond one to one. The
shared frame has for each name what the newest of the nested frames with the name has. The
stores stay related when a slot is set through corresponding environments, if no newer frame
hides the variable.
-/

namespace Extempore.SharedFrames
open SchemeData RelatedData LetStar

/-! ## Slots by their names -/

/-- The store has in the frame `a` the value `v` for the name, and else what it had. -/
structure Sets (st st₁ : Store) (a : ℕ) (x : String) (v : Val) : Prop where
  length : st₁.frames.length = st.frames.length
  valueAt : ∀ c y, valueAt st₁ c y = if c = a ∧ y = x then some v else valueAt st c y

theorem valueAt_newFrameInEnv (st : Store) (env : Env) (a : ℕ) (x : String) :
    valueAt (newFrameInEnv st env).1 a x = valueAt st a x := by
  simp only [valueAt, newFrameInEnv, List.getElem?_append]
  split
  · rfl
  · rename_i h
    rw [List.getElem?_eq_none (Nat.le_of_not_lt h)]
    cases a - st.frames.length <;> rfl

theorem valueAt_of_length_le {st : Store} {a : ℕ} (h : st.frames.length ≤ a) (x : String) :
    valueAt st a x = none := by
  simp only [valueAt, List.getElem?_eq_none h]
  rfl

/-- A change of one frame that binds the name anew. -/
theorem sets_of_modify {st : Store} {a : ℕ} {x : String} {v : Val} {f : Slots → Slots}
    (ha : a < st.frames.length)
    (hf : bindings (f st.frames[a]) = Function.update (bindings st.frames[a]) x (some v)) :
    Sets st ⟨st.frames.modify a f⟩ a x v where
  length := List.length_modify ..
  valueAt c y := by
    simp only [LetStar.valueAt, List.getElem?_modify, Option.map_eq_map]
    by_cases hc : a = c
    · subst hc
      rw [List.getElem?_eq_getElem ha]
      simp only [if_true, Option.map_some, Option.getD_some, true_and]
      rw [hf, Function.update_apply]
    · simp only [if_neg hc, if_neg fun h : c = a ∧ y = x => hc h.1.symm, Option.map_id']

theorem sets_newSlotInEnv {st : Store} {a : ℕ} (ha : a < st.frames.length) (env : Env)
    (x : String) (v : Val) : Sets st (newSlotInEnv st (a :: env) x v) a x v :=
  sets_of_modify ha (bindings_cons x v _)

/-- The innermost frame of the environment that has the name. -/
def holder (st : Store) (x : String) (env : Env) : Option ℕ :=
  env.find? fun a => (valueAt st a x).isSome

theorem isSome_valueAt {st : Store} {a : ℕ} {x : String} :
    (valueAt st a x).isSome = (((st.frames[a]?).getD []).findIdx? (·.1 == x)).isSome := by
  rw [Bool.eq_iff_iff, Option.isSome_iff_ne_none, Option.isSome_iff_ne_none, ne_eq, ne_eq,
    valueAt, bindings_eq_none_iff]

theorem map_findSlotInEnv (st : Store) (x : String) (env : Env) :
    (findSlotInEnv st x true env).map Slot.frame = holder st x env := by
  induction env with
  | nil => rfl
  | cons a env ih =>
    rw [findSlotInEnv, holder, List.find?_cons, isSome_valueAt]
    cases ((st.frames[a]?).getD []).findIdx? (·.1 == x) with
    | none => exact ih
    | some i => rfl

/-- The slot that is found is the first one of its frame with the name. -/
theorem findIdx?_of_findSlotInEnv {st : Store} {x : String} {all : Bool} {env : Env} {slot : Slot}
    (h : findSlotInEnv st x all env = some slot) :
    ((st.frames[slot.frame]?).getD []).findIdx? (·.1 == x) = some slot.index := by
  induction env with
  | nil => cases h
  | cons a env ih =>
    rw [findSlotInEnv] at h
    cases hi : ((st.frames[a]?).getD []).findIdx? (·.1 == x) with
    | some i =>
      rw [hi] at h
      obtain rfl := Option.some.inj h
      exact hi
    | none =>
      simp only [hi] at h
      cases all with
      | true => exact ih h
      | false => cases h

theorem slotValueInEnv_of_findSlotInEnv {st : Store} {x : String} {all : Bool} {env : Env}
    {slot : Slot} (h : findSlotInEnv st x all env = some slot) :
    valueAt st slot.frame x = some (slotValueInEnv st slot) := by
  have hi := findIdx?_of_findSlotInEnv h
  have hlt : slot.index < ((st.frames[slot.frame]?).getD []).length := by
    have := List.findIdx?_eq_some_iff_findIdx_eq.mp hi
    exact this.1
  rw [valueAt, bindings_of_findIdx hi, slotValueInEnv, List.getElem?_eq_getElem hlt]
  rfl

theorem sets_setSlotInEnv {st : Store} {x : String} {all : Bool} {env : Env} {slot : Slot}
    (h : findSlotInEnv st x all env = some slot) (v : Val) :
    Sets st (setSlotInEnv st slot v) slot.frame x v := by
  have hi := findIdx?_of_findSlotInEnv h
  have hlt : slot.frame < st.frames.length := by
    by_contra hge
    rw [List.getElem?_eq_none (Nat.le_of_not_lt hge)] at hi
    cases hi
  rw [List.getElem?_eq_getElem hlt, Option.getD_some] at hi
  exact sets_of_modify hlt (bindings_modify v hi)

/-- `OP_DEF1` sets the name in the innermost frame. -/
theorem sets_define {st : Store} {a : ℕ} (ha : a < st.frames.length) (env : Env) (x : String)
    (v : Val) :
    Sets st
      (match findSlotInEnv st x false (a :: env) with
        | some slot => setSlotInEnv st slot v
        | none => newSlotInEnv st (a :: env) x v) a x v := by
  cases h : findSlotInEnv st x false (a :: env) with
  | none => exact sets_newSlotInEnv ha env x v
  | some slot =>
    have hframe : slot.frame = a := by
      rw [findSlotInEnv] at h
      cases hi : ((st.frames[a]?).getD []).findIdx? (·.1 == x) with
      | none => simp [hi] at h
      | some i =>
        rw [hi] at h
        rw [← Option.some.inj h]
    rw [← hframe]
    exact sets_setSlotInEnv h v

/-! ## Corresponding environments -/

/-- How the frames of the two runs correspond: `ids` for the frames that are not of the forms,
`shared` for the frame of the `let*`, and `frames` for those of the nested forms, the newest
one first. `outer` is the environment around the forms. -/
structure World where
  ids : ℕ → ℕ → Prop
  shared : ℕ
  frames : List ℕ
  outer : Env
  left_unique : ∀ {a a' b}, ids a b → ids a' b → a = a'
  right_unique : ∀ {a b b'}, ids a b → ids a b' → b = b'
  shared_apart : frames ≠ [] → ∀ b, ¬ ids shared b
  frames_apart : ∀ {a b}, ids a b → b ∉ frames
  nodup : frames.Nodup
  outer_plain : ∀ a ∈ outer, ids a a

/-- Frames correspond one to one, but where the environment is that of the shared frame. -/
inductive EnvRel (w : World) : Env → Env → Prop
  | nil : EnvRel w [] []
  | cons {a b : ℕ} {env env' : Env} : w.ids a b → EnvRel w env env' →
      EnvRel w (a :: env) (b :: env')
  | shared {l : List ℕ} : l ≠ [] → l <:+ w.frames → EnvRel w (w.shared :: w.outer) (l ++ w.outer)

theorem envRel_refl {w : World} (env : Env) (h : ∀ a ∈ env, w.ids a a) : EnvRel w env env := by
  induction env with
  | nil => exact .nil
  | cons a env ih =>
    apply EnvRel.cons (h a List.mem_cons_self)
    exact ih fun b hb => h b (List.mem_cons_of_mem a hb)

/-- More frames correspond. -/
structure World.Le (w w' : World) : Prop where
  ids : ∀ {a b}, w.ids a b → w'.ids a b
  frames : w.frames <:+ w'.frames
  shared : w.frames ≠ [] → w.shared = w'.shared
  outer : w.outer = w'.outer

theorem World.Le.refl (w : World) : w.Le w :=
  ⟨id, List.suffix_refl w.frames, fun _ => rfl, rfl⟩

theorem World.Le.trans {w₁ w₂ w₃ : World} (h : w₁.Le w₂) (h' : w₂.Le w₃) : w₁.Le w₃ where
  ids hab := h'.ids (h.ids hab)
  frames := h.frames.trans h'.frames
  shared hne := by
    rw [h.shared hne]
    apply h'.shared
    intro hnil
    exact hne (List.eq_nil_of_suffix_nil (hnil ▸ h.frames))
  outer := h.outer.trans h'.outer

theorem EnvRel.mono {w w' : World} {env env' : Env} (h : EnvRel w env env') (hw : w.Le w') :
    EnvRel w' env env' := by
  induction h with
  | nil => exact .nil
  | cons hab _ ih => exact .cons (hw.ids hab) ih
  | shared hne hl =>
    have hframes : w.frames ≠ [] := fun hnil => hne (List.eq_nil_of_suffix_nil (hnil ▸ hl))
    rw [hw.shared hframes, hw.outer]
    exact .shared hne (hl.trans hw.frames)

/-- The same data in both runs. -/
abbrev DataRel (w : World) : Val → Val → Prop := Same (EnvRel w)

theorem dataRel_mono {w w' : World} (hw : w.Le w') {v v' : Val} (h : DataRel w v v') :
    DataRel w' v v' :=
  h.mono fun _ _ henv => henv.mono hw

/-- The first of the frames with the name says what its value is. -/
def newest (st : Store) (frames : List ℕ) (x : String) : Option Val :=
  frames.findSome? fun c => valueAt st c x

/-- Corresponding frames have the same variables with the same data, and the shared frame has
the newest variables of the nested frames. -/
structure StoreRel (w : World) (st st' : Store) : Prop where
  ids_lt : ∀ {a b}, w.ids a b → a < st.frames.length ∧ b < st'.frames.length
  shared_lt : w.frames ≠ [] → w.shared < st.frames.length
  frames_lt : ∀ c ∈ w.frames, c < st'.frames.length
  plain : ∀ {a b}, w.ids a b → ∀ x, Option.Rel (DataRel w) (valueAt st a x) (valueAt st' b x)
  shared : w.frames ≠ [] → ∀ x,
    Option.Rel (DataRel w) (valueAt st w.shared x) (newest st' w.frames x)

/-- Two frames in which a name may be set at the same time. -/
inductive Linked (w : World) (st' : Store) (x : String) : ℕ → ℕ → Prop
  | plain {a b : ℕ} : w.ids a b → Linked w st' x a b
  | shared {l r : List ℕ} {c : ℕ} : w.frames = l ++ c :: r → (∀ d ∈ l, valueAt st' d x = none) →
      Linked w st' x w.shared c

theorem rel_isSome {α β : Type*} {r : α → β → Prop} {a : Option α} {b : Option β}
    (h : Option.Rel r a b) : a.isSome = b.isSome := by
  cases h <;> rfl

theorem rel_mono {α β : Type*} {r r' : α → β → Prop} {a : Option α} {b : Option β}
    (hr : ∀ a b, r a b → r' a b) (h : Option.Rel r a b) : Option.Rel r' a b := by
  cases h with
  | some hab => exact .some (hr _ _ hab)
  | none => exact .none

variable {w : World} {st st' : Store} {x : String}

theorem newest_append (st : Store) (l r : List ℕ) (x : String) :
    newest st (l ++ r) x = (newest st l x).or (newest st r x) :=
  List.findSome?_append

theorem newest_eq_none {l : List ℕ} (h : ∀ d ∈ l, valueAt st d x = none) :
    newest st l x = none :=
  List.findSome?_eq_none_iff.mpr h

theorem newest_cons_of_isSome {c : ℕ} {r : List ℕ} (h : (valueAt st c x).isSome) :
    newest st (c :: r) x = valueAt st c x := by
  rw [newest, List.findSome?_cons]
  cases hv : valueAt st c x with
  | none => simp [hv] at h
  | some v => rfl

/-- The values of linked frames are the same data. -/
theorem Linked.valueAt (hS : StoreRel w st st') {a b : ℕ} (h : Linked w st' x a b)
    (hb : (valueAt st' b x).isSome) :
    Option.Rel (DataRel w) (valueAt st a x) (valueAt st' b x) := by
  cases h with
  | plain hab => exact hS.plain hab x
  | @shared l r _ hl hnone =>
    have hne : w.frames ≠ [] := by simp [hl]
    have hrel := hS.shared hne x
    rwa [hl, newest_append, newest_eq_none hnone, Option.none_or, newest_cons_of_isSome hb] at hrel

/-! ## Lookups -/

theorem holder_cons (st : Store) (x : String) (a : ℕ) (env : Env) :
    holder st x (a :: env) = if (valueAt st a x).isSome then some a else holder st x env := by
  rw [holder, List.find?_cons]
  cases (valueAt st a x).isSome <;> rfl

/-- In an environment around the forms a variable is found in the same frame. -/
theorem holder_rel_of_plain (hS : StoreRel w st st') (env : Env) (h : ∀ a ∈ env, w.ids a a) :
    Option.Rel (Linked w st' x) (holder st x env) (holder st' x env) := by
  induction env with
  | nil => exact .none
  | cons a env ih =>
    have ha := h a List.mem_cons_self
    rw [holder_cons, holder_cons, rel_isSome (hS.plain ha x)]
    split
    · exact .some (.plain ha)
    · exact ih fun b hb => h b (List.mem_cons_of_mem a hb)

theorem takeWhile_of_nodup {l r : List ℕ} {c : ℕ} (h : (l ++ c :: r).Nodup) :
    (l ++ c :: r).takeWhile (· ≠ c) = l := by
  have hc : ∀ d ∈ l, decide (d ≠ c) = true := by
    intro d hd
    rw [decide_eq_true_eq]
    exact List.nodup_append.mp h |>.2.2 d hd c List.mem_cons_self
  rw [List.takeWhile_append_of_pos hc, List.takeWhile_cons_of_neg (by simp), List.append_nil]

/-- What the condition says of an environment that begins with one of the frames. -/
theorem exists_of_unshadowed {c : ℕ} {r env : List ℕ} (hl : c :: r <:+ w.frames)
    (hu : Unshadowed w.frames st' x (c :: env)) :
    ∃ l, w.frames = l ++ c :: r ∧ ∀ d ∈ l, valueAt st' d x = none := by
  obtain ⟨l, hl⟩ := hl
  have hnodup := w.nodup
  have hmem : c ∈ w.frames := by simp [← hl]
  rw [Unshadowed, if_pos hmem, ← hl] at hu
  rw [← hl] at hnodup
  rw [takeWhile_of_nodup hnodup] at hu
  exact ⟨l, hl.symm, hu⟩

/-- The search in the frames of the nested forms. -/
theorem holder_append (st : Store) (x : String) (l env : List ℕ) :
    (newest st l x = none ∧ holder st x (l ++ env) = holder st x env) ∨
      ∃ l₁ d l₂, l = l₁ ++ d :: l₂ ∧ (∀ c ∈ l₁, valueAt st c x = none) ∧
        (valueAt st d x).isSome ∧ holder st x (l ++ env) = some d := by
  induction l with
  | nil => exact .inl ⟨rfl, rfl⟩
  | cons c l ih =>
    rw [List.cons_append, holder_cons]
    cases hc : valueAt st c x with
    | some v => exact .inr ⟨[], c, l, rfl, by simp, by simp [hc], rfl⟩
    | none =>
      rcases ih with ⟨hnew, hfind⟩ | ⟨l₁, d, l₂, hl, hnone, hd, hfind⟩
      · refine .inl ⟨?_, hfind⟩
        rw [newest, List.findSome?_cons, hc]
        exact hnew
      · refine .inr ⟨c :: l₁, d, l₂, by rw [hl, List.cons_append], ?_, hd, hfind⟩
        intro e he
        rcases List.mem_cons.mp he with rfl | he
        · exact hc
        · exact hnone e he

/-- Where no newer frame hides the variable, both runs find it in linked frames. -/
theorem holder_rel (hS : StoreRel w st st') {env env' : Env} (hE : EnvRel w env env')
    (hu : Unshadowed w.frames st' x env') :
    Option.Rel (Linked w st' x) (holder st x env) (holder st' x env') := by
  induction hE with
  | nil => exact .none
  | cons hab _ ih =>
    rw [Unshadowed, if_neg (w.frames_apart hab)] at hu
    rw [holder_cons, holder_cons, rel_isSome (hS.plain hab x)]
    split
    · exact .some (.plain hab)
    · rename_i hb
      exact ih (hu.resolve_left hb)
  | @shared l hne hl =>
    cases l with
    | nil => exact absurd rfl hne
    | cons c r =>
      obtain ⟨t, ht, hu⟩ := exists_of_unshadowed hl hu
      have hrel := hS.shared (by simp [ht]) x
      rw [ht, newest_append, newest_eq_none hu, Option.none_or] at hrel
      rw [holder_cons, rel_isSome hrel]
      rcases holder_append st' x (c :: r) w.outer with
        ⟨hnew, hfind⟩ | ⟨l₁, d, l₂, hl, hnone, hd, hfind⟩
      · rw [hnew, hfind]
        exact holder_rel_of_plain hS w.outer w.outer_plain
      · have hsome : (newest st' (c :: r) x).isSome := by
          rw [hl, newest_append, newest_eq_none hnone, Option.none_or, newest_cons_of_isSome hd]
          exact hd
        rw [if_pos hsome, hfind]
        apply Option.Rel.some
        refine .shared (l := t ++ l₁) (r := l₂) ?_ ?_
        · rw [ht, hl, List.append_assoc]
        · intro e he
          rcases List.mem_append.mp he with he | he
          · exact hu e he
          · exact hnone e he

/-- `find_slot_in_env` finds a slot in neither run, or slots with the same datum in linked
frames. -/
theorem findSlotInEnv_rel (hS : StoreRel w st st') {env env' : Env} (hE : EnvRel w env env')
    (hu : Unshadowed w.frames st' x env') :
    (findSlotInEnv st x true env = none ∧ findSlotInEnv st' x true env' = none) ∨
      ∃ slot slot', findSlotInEnv st x true env = some slot ∧
        findSlotInEnv st' x true env' = some slot' ∧ Linked w st' x slot.frame slot'.frame ∧
        DataRel w (slotValueInEnv st slot) (slotValueInEnv st' slot') := by
  have hrel := holder_rel hS hE hu
  rw [← map_findSlotInEnv, ← map_findSlotInEnv] at hrel
  cases h : findSlotInEnv st x true env with
  | none =>
    cases h' : findSlotInEnv st' x true env' with
    | none => exact .inl ⟨rfl, rfl⟩
    | some slot' =>
      rw [h, h'] at hrel
      cases hrel
  | some slot =>
    cases h' : findSlotInEnv st' x true env' with
    | none =>
      rw [h, h'] at hrel
      cases hrel
    | some slot' =>
      rw [h, h'] at hrel
      cases hrel with
      | some hlink =>
        have hv := slotValueInEnv_of_findSlotInEnv h
        have hv' := slotValueInEnv_of_findSlotInEnv h'
        have hval := hlink.valueAt hS (by rw [hv', Option.isSome_some])
        rw [hv, hv'] at hval
        cases hval with
        | some hval => exact .inr ⟨slot, slot', rfl, rfl, hlink, hval⟩

/-- The innermost frames of corresponding environments. -/
theorem linked_head {a b : ℕ} {env env' : Env} (hE : EnvRel w (a :: env) (b :: env'))
    (hu : Unshadowed w.frames st' x [b]) : Linked w st' x a b := by
  generalize h : b :: env' = env₂ at hE
  cases hE with
  | cons hab _ =>
    rw [(List.cons.inj h).1]
    exact .plain hab
  | @shared l hne hl =>
    cases l with
    | nil => exact absurd rfl hne
    | cons c r =>
      rw [(List.cons.inj h).1] at hu ⊢
      obtain ⟨t, ht, hu⟩ := exists_of_unshadowed hl hu
      exact .shared ht hu

theorem Linked.lt (hS : StoreRel w st st') {a b : ℕ} (h : Linked w st' x a b) :
    a < st.frames.length ∧ b < st'.frames.length := by
  cases h with
  | plain hab => exact hS.ids_lt hab
  | @shared l r _ hl =>
    have hmem : b ∈ w.frames := by simp [hl]
    exact ⟨hS.shared_lt (List.ne_nil_of_mem hmem), hS.frames_lt b hmem⟩

/-! ## Slots that are set -/

theorem Linked.eq_iff {a b c d : ℕ} (h : Linked w st' x a b) (hcd : w.ids c d) :
    c = a ↔ d = b := by
  cases h with
  | plain hab =>
    constructor
    · rintro rfl
      exact w.right_unique hcd hab
    · rintro rfl
      exact w.left_unique hcd hab
  | @shared l r e hl =>
    have hne : w.frames ≠ [] := by simp [hl]
    constructor
    · rintro rfl
      exact absurd hcd (w.shared_apart hne d)
    · rintro rfl
      exact absurd (by simp [hl]) (w.frames_apart hcd)

theorem newest_congr {st st₁ : Store} {l : List ℕ} {y : String}
    (h : ∀ c ∈ l, valueAt st₁ c y = valueAt st c y) : newest st₁ l y = newest st l y := by
  induction l with
  | nil => rfl
  | cons c l ih =>
    rw [newest, newest, List.findSome?_cons, List.findSome?_cons, h c List.mem_cons_self]
    cases valueAt st c y with
    | some v => rfl
    | none => exact ih fun d hd => h d (List.mem_cons_of_mem c hd)

/-- What is set in linked frames is seen by both runs alike. -/
theorem storeRel_sets (hS : StoreRel w st st') {a b : ℕ} (h : Linked w st' x a b) {v v' : Val}
    (hv : DataRel w v v') {st₁ st₁' : Store} (h₁ : Sets st st₁ a x v)
    (h₁' : Sets st' st₁' b x v') : StoreRel w st₁ st₁' where
  ids_lt hcd := by
    rw [h₁.length, h₁'.length]
    exact hS.ids_lt hcd
  shared_lt hne := by
    rw [h₁.length]
    exact hS.shared_lt hne
  frames_lt c hc := by
    rw [h₁'.length]
    exact hS.frames_lt c hc
  plain {c d} hcd y := by
    rw [h₁.valueAt, h₁'.valueAt, if_congr (and_congr_left' (h.eq_iff hcd)) rfl rfl]
    split
    · exact .some hv
    · exact hS.plain hcd y
  shared hne y := by
    rw [h₁.valueAt]
    cases h with
    | plain hab =>
      have hkeep : newest st₁' w.frames y = newest st' w.frames y := by
        apply newest_congr
        intro c hc
        rw [h₁'.valueAt, if_neg]
        rintro ⟨rfl, -⟩
        exact w.frames_apart hab hc
      rw [hkeep, if_neg]
      · exact hS.shared hne y
      · rintro ⟨rfl, -⟩
        exact w.shared_apart hne b hab
    | @shared l r _ hl hnone =>
      by_cases hy : y = x
      · subst hy
        have hnew : newest st₁' w.frames y = some v' := by
          have hnodup := w.nodup
          rw [hl] at hnodup
          have hb : valueAt st₁' b y = some v' := by rw [h₁'.valueAt, if_pos ⟨rfl, rfl⟩]
          rw [hl, newest_append, newest_eq_none, Option.none_or, newest_cons_of_isSome, hb]
          · rw [hb]
            rfl
          · intro d hd
            rw [h₁'.valueAt, if_neg, hnone d hd]
            rintro ⟨rfl, -⟩
            exact (List.nodup_append.mp hnodup).2.2 d hd d List.mem_cons_self rfl
        rw [if_pos ⟨rfl, rfl⟩, hnew]
        exact .some hv
      · have hkeep : newest st₁' w.frames y = newest st' w.frames y := by
          apply newest_congr
          intro c _
          rw [h₁'.valueAt, if_neg fun hc => hy hc.2]
        rw [hkeep, if_neg fun hc => hy hc.2]
        exact hS.shared hne y

/-! ## New frames -/

/-- A new frame in both runs. -/
def World.addPlain (w : World) (n n' : ℕ) (h : ∀ {a b}, w.ids a b → a ≠ n ∧ b ≠ n')
    (hs : w.frames ≠ [] → w.shared ≠ n) (hf : n' ∉ w.frames) : World where
  ids a b := w.ids a b ∨ a = n ∧ b = n'
  shared := w.shared
  frames := w.frames
  outer := w.outer
  left_unique := by
    rintro a a' b (h₁ | ⟨rfl, rfl⟩) (h₂ | ⟨rfl, h₂⟩)
    · exact w.left_unique h₁ h₂
    · exact absurd h₂ (h h₁).2
    · exact absurd rfl (h h₂).2
    · rfl
  right_unique := by
    rintro a b b' (h₁ | ⟨rfl, rfl⟩) (h₂ | ⟨h₂, rfl⟩)
    · exact w.right_unique h₁ h₂
    · exact absurd h₂ (h h₁).1
    · exact absurd rfl (h h₂).1
    · rfl
  shared_apart hne b := by
    rintro (h₁ | ⟨h₁, -⟩)
    · exact w.shared_apart hne b h₁
    · exact hs hne h₁
  frames_apart := by
    rintro a b (h₁ | ⟨-, rfl⟩)
    · exact w.frames_apart h₁
    · exact hf
  nodup := w.nodup
  outer_plain a ha := .inl (w.outer_plain a ha)

/-- A new frame of the nested forms; `s` is the frame of the `let*`. -/
def World.share (w : World) (s n' : ℕ) (hs : ∀ b, ¬ w.ids s b) (h : ∀ {a b}, w.ids a b → b ≠ n')
    (hf : n' ∉ w.frames) : World where
  ids := w.ids
  shared := s
  frames := n' :: w.frames
  outer := w.outer
  left_unique := w.left_unique
  right_unique := w.right_unique
  shared_apart _ := hs
  frames_apart hab := List.not_mem_cons_of_ne_of_not_mem (h hab) (w.frames_apart hab)
  nodup := List.nodup_cons.mpr ⟨hf, w.nodup⟩
  outer_plain := w.outer_plain

theorem length_newFrameInEnv (st : Store) (env : Env) :
    (newFrameInEnv st env).1.frames.length = st.frames.length + 1 := by
  simp [newFrameInEnv]

theorem newest_newFrameInEnv (st : Store) (env : Env) (l : List ℕ) (x : String) :
    newest (newFrameInEnv st env).1 l x = newest st l x :=
  newest_congr fun c _ => valueAt_newFrameInEnv st env c x

/-- Both runs make a frame, which has no variables yet. -/
theorem exists_addPlain (hS : StoreRel w st st') (env env' : Env) :
    ∃ w', w.Le w' ∧ w'.frames = w.frames ∧ w'.ids st.frames.length st'.frames.length ∧
      StoreRel w' (newFrameInEnv st env).1 (newFrameInEnv st' env').1 := by
  let w' := w.addPlain st.frames.length st'.frames.length
    (fun hab => ⟨Nat.ne_of_lt (hS.ids_lt hab).1, Nat.ne_of_lt (hS.ids_lt hab).2⟩)
    (fun hne => Nat.ne_of_lt (hS.shared_lt hne))
    (fun hmem => Nat.ne_of_lt (hS.frames_lt _ hmem) rfl)
  have hw : w.Le w' := ⟨Or.inl, List.suffix_refl w.frames, fun _ => rfl, rfl⟩
  refine ⟨w', hw, rfl, Or.inr ⟨rfl, rfl⟩, ?_, ?_, ?_, ?_, ?_⟩
  · intro a b hab
    rw [length_newFrameInEnv, length_newFrameInEnv]
    rcases hab with hab | ⟨rfl, rfl⟩
    · exact ⟨Nat.lt_succ_of_lt (hS.ids_lt hab).1, Nat.lt_succ_of_lt (hS.ids_lt hab).2⟩
    · exact ⟨Nat.lt_succ_self _, Nat.lt_succ_self _⟩
  · intro hne
    rw [length_newFrameInEnv]
    exact Nat.lt_succ_of_lt (hS.shared_lt hne)
  · intro c hc
    rw [length_newFrameInEnv]
    exact Nat.lt_succ_of_lt (hS.frames_lt c hc)
  · intro a b hab x
    rw [valueAt_newFrameInEnv, valueAt_newFrameInEnv]
    rcases hab with hab | ⟨rfl, rfl⟩
    · exact rel_mono (fun _ _ => dataRel_mono hw) (hS.plain hab x)
    · rw [valueAt_of_length_le (Nat.le_refl _), valueAt_of_length_le (Nat.le_refl _)]
      exact .none
  · intro hne x
    rw [valueAt_newFrameInEnv, newest_newFrameInEnv]
    exact rel_mono (fun _ _ => dataRel_mono hw) (hS.shared hne x)

/-- The first frame of the forms is made in both runs. -/
theorem exists_share_first (hS : StoreRel w st st') (hnil : w.frames = []) (env env' : Env) :
    ∃ w', w.Le w' ∧ w'.frames = [st'.frames.length] ∧ w'.shared = st.frames.length ∧
      StoreRel w' (newFrameInEnv st env).1 (newFrameInEnv st' env').1 := by
  let w' := w.share st.frames.length st'.frames.length
    (fun b hb => Nat.ne_of_lt (hS.ids_lt hb).1 rfl) (fun hab => Nat.ne_of_lt (hS.ids_lt hab).2)
    (fun hmem => Nat.ne_of_lt (hS.frames_lt _ hmem) rfl)
  have hframes : w'.frames = [st'.frames.length] := by
    change st'.frames.length :: w.frames = _
    rw [hnil]
  have hw : w.Le w' := ⟨id, List.suffix_cons _ _, fun hne => absurd hnil hne, rfl⟩
  refine ⟨w', hw, hframes, rfl, ?_, ?_, ?_, ?_, ?_⟩
  · intro a b hab
    rw [length_newFrameInEnv, length_newFrameInEnv]
    exact ⟨Nat.lt_succ_of_lt (hS.ids_lt hab).1, Nat.lt_succ_of_lt (hS.ids_lt hab).2⟩
  · intro _
    rw [length_newFrameInEnv]
    exact Nat.lt_succ_self _
  · intro c hc
    rw [hframes, List.mem_singleton] at hc
    rw [length_newFrameInEnv, hc]
    exact Nat.lt_succ_self _
  · intro a b hab x
    rw [valueAt_newFrameInEnv, valueAt_newFrameInEnv]
    exact rel_mono (fun _ _ => dataRel_mono hw) (hS.plain hab x)
  · intro _ x
    rw [hframes, newest_eq_none]
    · change Option.Rel _ (valueAt _ st.frames.length x) none
      rw [valueAt_newFrameInEnv, valueAt_of_length_le (Nat.le_refl _)]
      exact .none
    · intro d hd
      rw [List.mem_singleton.mp hd, valueAt_newFrameInEnv, valueAt_of_length_le (Nat.le_refl _)]

/-- A further frame of the nested forms is made in their run only. -/
theorem exists_share_next (hS : StoreRel w st st') (hne : w.frames ≠ []) (env' : Env) :
    ∃ w', w.Le w' ∧ w'.frames = st'.frames.length :: w.frames ∧
      StoreRel w' st (newFrameInEnv st' env').1 := by
  let w' := w.share w.shared st'.frames.length (w.shared_apart hne)
    (fun hab => Nat.ne_of_lt (hS.ids_lt hab).2) (fun hmem => Nat.ne_of_lt (hS.frames_lt _ hmem) rfl)
  have hw : w.Le w' := ⟨id, List.suffix_cons _ _, fun _ => rfl, rfl⟩
  refine ⟨w', hw, rfl, ?_, ?_, ?_, ?_, ?_⟩
  · intro a b hab
    rw [length_newFrameInEnv]
    exact ⟨(hS.ids_lt hab).1, Nat.lt_succ_of_lt (hS.ids_lt hab).2⟩
  · exact fun _ => hS.shared_lt hne
  · intro c hc
    rw [length_newFrameInEnv]
    rcases List.mem_cons.mp hc with rfl | hc
    · exact Nat.lt_succ_self _
    · exact Nat.lt_succ_of_lt (hS.frames_lt c hc)
  · intro a b hab x
    rw [valueAt_newFrameInEnv]
    exact rel_mono (fun _ _ => dataRel_mono hw) (hS.plain hab x)
  · intro _ x
    rw [newest_newFrameInEnv]
    change Option.Rel _ (valueAt st w.shared x) (newest st' (st'.frames.length :: w.frames) x)
    rw [newest, List.findSome?_cons, valueAt_of_length_le (Nat.le_refl _)]
    exact rel_mono (fun _ _ => dataRel_mono hw) (hS.shared hne x)

/-! ## Opcodes that make slots -/

/-- The innermost frames are not of the forms. -/
def HeadRel (w : World) (env env' : Env) : Prop := Option.Rel w.ids env.head? env'.head?

theorem HeadRel.mono {w w' : World} {env env' : Env} (h : HeadRel w env env') (hw : w.Le w') :
    HeadRel w' env env' :=
  rel_mono (fun _ _ => hw.ids) h

theorem storeRel_newSlotInEnv (hS : StoreRel w st st') {env env' : Env} (h : HeadRel w env env')
    (x : String) {v v' : Val} (hv : DataRel w v v') :
    StoreRel w (newSlotInEnv st env x v) (newSlotInEnv st' env' x v') := by
  cases env with
  | nil =>
    cases env' with
    | nil => exact hS
    | cons b env' => cases h
  | cons a env =>
    cases env' with
    | nil => cases h
    | cons b env' =>
      cases h with
      | some hab =>
        exact storeRel_sets hS (.plain hab) hv (sets_newSlotInEnv (hS.ids_lt hab).1 env x v)
          (sets_newSlotInEnv (hS.ids_lt hab).2 env' x v')

theorem storeRel_newSlotFor (hS : StoreRel w st st') {env env' : Env} (h : HeadRel w env env')
    {y y' v v' : Val} (hy : DataRel w y y') (hv : DataRel w v v') :
    StoreRel w (newSlotFor st env y v) (newSlotFor st' env' y' v') := by
  cases hy with
  | symbol name => exact storeRel_newSlotInEnv hS h name hv
  | _ => exact hS

theorem storeRel_bindVariables (hS : StoreRel w st st') {env env' : Env}
    (h : HeadRel w env env') {y y' vs vs' : Val} (hy : DataRel w y y') (hvs : DataRel w vs vs') :
    StoreRel w (RegisterMachine.bindVariables st env y vs)
      (RegisterMachine.bindVariables st' env' y' vs') := by
  induction hvs generalizing st st' y y' with
  | pair hv _ _ ih =>
    rw [RegisterMachine.bindVariables, RegisterMachine.bindVariables]
    have hname := hy.car.car
    revert hname
    generalize car (car y) = z
    generalize car (car y') = z'
    intro hname
    cases hname with
    | symbol name => exact ih (storeRel_newSlotInEnv hS h name hv) hy.cdr
    | _ => exact ih hS hy.cdr
  | _ => exact hS

theorem storeRel_bindParameters (hS : StoreRel w st st') {env env' : Env}
    (h : HeadRel w env env') {xs xs' vs vs' : Val} (hxs : DataRel w xs xs')
    (hvs : DataRel w vs vs') :
    Option.Rel (StoreRel w) (RegisterMachine.bindParameters st env xs vs)
      (RegisterMachine.bindParameters st' env' xs' vs') := by
  induction hxs generalizing st st' vs vs' with
  | nil => exact .some hS
  | symbol name => exact .some (storeRel_newSlotInEnv hS h name hvs)
  | pair hx _ _ ih =>
    cases hvs with
    | pair hv hvs =>
      cases hx with
      | symbol name => exact ih (storeRel_newSlotInEnv hS h name hv) hvs
      | _ => exact .none
    | _ => exact .none
  | _ => exact .none

end Extempore.SharedFrames
