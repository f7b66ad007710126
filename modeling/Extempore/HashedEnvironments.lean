import Mathlib.Algebra.GroupWithZero.Nat
import Mathlib.Data.List.Find
import Mathlib.Data.List.Nodup
import Mathlib.Logic.Function.Basic
import Extempore.GuardedRuns

/-!
# Symbols and environments

A symbol is a cell that `mk_symbol` finds in the symbol table by its name. A frame of an
environment is a vector of association lists, hashed by the name of the variable, if it is the
outermost one, and an association list otherwise. A slot is found by the identity of the symbol.
-/

namespace Extempore.HashedEnvironments
open GuardedRuns

abbrev Name := List UInt8

def strHash (str : Name) : ℕ := str.foldl (fun result c => (result * 33 + c.toNat) % 2 ^ 64) 0

def tableSize : ℕ := 65521

/-- `hash_fn`; the symbol table and the vectors of frames have the same size. -/
def hashFn (key : Name) : ℕ := strHash key % tableSize

/-- The `car` of an environment cell, with the slots by their cells. -/
inductive Frame where
  | vector (elems : ℕ → List ℕ)
  | alist (slots : List ℕ)

/-- A slot with the symbol that is its variable. -/
structure Slot (α : Type) where
  symbol : ℕ
  value : α

/-- Symbols, frames and slots are numbered in the order in which they are made. `names` has the
names of the symbols. -/
structure State (α : Type) where
  names : List Name
  oblist : ℕ → List ℕ
  frames : List Frame
  slots : List (Slot α)

/-- The frames of an environment, the innermost one first. -/
abbrev Env := List ℕ

variable {α : Type}

def start : State α := ⟨[], fun _ => [], [], []⟩

def symname (s : State α) (x : ℕ) : Name := s.names[x]?.getD []

def oblistFindByName (s : State α) (name : Name) : Option ℕ :=
  (s.oblist (hashFn name)).find? fun x => symname s x = name

def oblistAddByName (s : State α) (name : Name) : State α × ℕ :=
  let x := s.names.length
  let location := hashFn name
  ({ s with
      names := s.names ++ [name]
      oblist := Function.update s.oblist location (x :: s.oblist location) }, x)

def mkSymbol (s : State α) (name : Name) : State α × ℕ :=
  match oblistFindByName s name with
  | some x => (s, x)
  | none => oblistAddByName s name

def newFrameInEnv (s : State α) (oldEnv : Env) : State α × Env :=
  let newFrame := match oldEnv with
    | [] => Frame.vector fun _ => []
    | _ :: _ => Frame.alist []
  ({ s with frames := s.frames ++ [newFrame] }, s.frames.length :: oldEnv)

/-- A new slot at the front of its list. -/
def addSlot (location slot : ℕ) : Frame → Frame
  | .vector elems => .vector (Function.update elems location (slot :: elems location))
  | .alist slots => .alist (slot :: slots)

/-- `new_slot_spec_in_env`, for the innermost frame `a`. -/
def newSlotSpecInEnv (s : State α) (a x : ℕ) (value : α) : State α :=
  { s with
    slots := s.slots ++ [⟨x, value⟩]
    frames := s.frames.modify a (addSlot (hashFn (symname s x)) s.slots.length) }

/-- The list in which a slot is looked for. -/
def slotList (location : ℕ) : Frame → List ℕ
  | .vector elems => elems location
  | .alist slots => slots

/-- The slot of the symbol in one frame. -/
def findSlot (s : State α) (hdl : ℕ) (frame : Frame) : Option ℕ :=
  (slotList (hashFn (symname s hdl)) frame).find? fun y =>
    (s.slots[y]?.map Slot.symbol) = some hdl

def findSlotInEnv (s : State α) (hdl : ℕ) (all : Bool) : Env → Option ℕ
  | [] => none
  | a :: env =>
    match (s.frames[a]?).bind (findSlot s hdl) with
    | some y => some y
    | none => if all then findSlotInEnv s hdl all env else none

def setSlotInEnv (s : State α) (slot : ℕ) (value : α) : State α :=
  { s with slots := s.slots.modify slot fun y => { y with value } }

def slotValueInEnv (s : State α) (slot : ℕ) : Option α := s.slots[slot]?.map Slot.value

def schemeDefine (s : State α) (a : ℕ) (env : Env) (x : ℕ) (value : α) : State α :=
  match findSlotInEnv s x false (a :: env) with
  | some slot => setSlotInEnv s slot value
  | none => newSlotSpecInEnv s a x value

/-- The operations. A slot is set where it has been found. -/
inductive Op (α : Type) where
  | mkSymbol (name : Name)
  | newFrame (oldEnv : Env)
  | newSlotSpec (env : Env) (x : ℕ) (value : α)
  | define (env : Env) (x : ℕ) (value : α)
  | setSlot (env : Env) (x : ℕ) (value : α)

/-- One operation, `none` if its symbol or its frame does not exist, or no slot is found. -/
def step (s : State α) : Op α → Option (State α)
  | .mkSymbol name => some (mkSymbol s name).1
  | .newFrame oldEnv => some (newFrameInEnv s oldEnv).1
  | .newSlotSpec (a :: _) x value =>
    if a < s.frames.length ∧ x < s.names.length then some (newSlotSpecInEnv s a x value) else none
  | .define (a :: env) x value =>
    if a < s.frames.length ∧ x < s.names.length then some (schemeDefine s a env x value) else none
  | .setSlot env x value =>
    if x < s.names.length then
      (findSlotInEnv s x true env).map fun slot => setSlotInEnv s slot value
    else none
  | _ => none

/-! ## Stacks of maps -/

/-- The names known so far, and for every frame a map from names to values. -/
structure Maps (α : Type) where
  names : List Name
  frames : List (Name → Option α)

/-- The value of a name in a frame. -/
def Maps.binding (m : Maps α) (name : Name) (a : ℕ) : Option α := (m.frames[a]?).bind (· name)

/-- The value of a name in the innermost frame that binds it. -/
def Maps.lookup (m : Maps α) (name : Name) (env : Env) : Option α := env.findSome? (m.binding name)

/-- The innermost frame that binds the name. -/
def Maps.owner (m : Maps α) (name : Name) (env : Env) : Option ℕ :=
  env.find? fun a => (m.binding name a).isSome

/-- Bind a name in one frame. -/
def Maps.assign (m : Maps α) (a : ℕ) (name : Name) (value : α) : Maps α :=
  { m with frames := m.frames.modify a fun b => Function.update b name (some value) }

def mapStart : Maps α := ⟨[], []⟩

/-- What the operations mean for names and maps. -/
def mapStep (m : Maps α) : Op α → Option (Maps α)
  | .mkSymbol name => some (if name ∈ m.names then m else { m with names := m.names ++ [name] })
  | .newFrame _ => some { m with frames := m.frames ++ [fun _ => none] }
  | .newSlotSpec (a :: _) x value | .define (a :: _) x value =>
    if a < m.frames.length then (m.names[x]?).map fun name => m.assign a name value else none
  | .setSlot env x value =>
    (m.names[x]?).bind fun name => (m.owner name env).map fun a => m.assign a name value
  | _ => none

/-! ## The symbol table -/

/-- Every symbol is in the list for its name, and names are different. -/
structure Interned (s : State α) : Prop where
  names_nodup : s.names.Nodup
  mem_oblist : ∀ location x, x ∈ s.oblist location ↔
    ∃ name, s.names[x]? = some name ∧ hashFn name = location

theorem symname_eq {s : State α} {x : ℕ} {name : Name} (h : s.names[x]? = some name) :
    symname s x = name := by
  rw [symname, h, Option.getD_some]

theorem Interned.find_eq_some_iff {s : State α} (h : Interned s) (name : Name) (x : ℕ) :
    oblistFindByName s name = some x ↔ s.names[x]? = some name := by
  constructor
  · intro hfind
    have hmem := List.mem_of_find?_eq_some hfind
    have hname : symname s x = name := by simpa using List.find?_some hfind
    obtain ⟨name', hx, -⟩ := (h.mem_oblist _ _).mp hmem
    rw [symname_eq hx] at hname
    rw [hx, hname]
  · intro hx
    have hmem := (h.mem_oblist (hashFn name) x).mpr ⟨name, hx, rfl⟩
    obtain ⟨y, hy⟩ := Option.isSome_iff_exists.mp
      (List.find?_isSome (p := fun y => decide (symname s y = name)) |>.mpr
        ⟨x, hmem, by simpa using symname_eq hx⟩)
    have hyname : symname s y = name := by simpa using List.find?_some hy
    obtain ⟨name', hy', -⟩ := (h.mem_oblist _ _).mp (List.mem_of_find?_eq_some hy)
    rw [symname_eq hy'] at hyname
    subst hyname
    have hxy : x = y := by
      have hlx := (List.getElem?_eq_some_iff.mp hx).1
      exact (List.getElem?_inj hlx h.names_nodup).mp (hx.trans hy'.symm)
    rw [oblistFindByName, hy, hxy]

theorem Interned.find_eq_none_iff {s : State α} (h : Interned s) (name : Name) :
    oblistFindByName s name = none ↔ name ∉ s.names := by
  rw [Option.eq_none_iff_forall_not_mem, List.mem_iff_getElem?]
  simp only [Option.mem_def, h.find_eq_some_iff, not_exists]

/-- `mk_symbol` knows a name again and gives a new symbol to a new name. -/
theorem Interned.mkSymbol_spec {s : State α} (h : Interned s) (name : Name) :
    (∃ x, s.names[x]? = some name ∧ mkSymbol s name = (s, x)) ∨
      name ∉ s.names ∧ mkSymbol s name = oblistAddByName s name := by
  cases hfind : oblistFindByName s name with
  | some x =>
    refine Or.inl ⟨x, (h.find_eq_some_iff name x).mp hfind, ?_⟩
    rw [mkSymbol, hfind]
  | none =>
    refine Or.inr ⟨(h.find_eq_none_iff name).mp hfind, ?_⟩
    rw [mkSymbol, hfind]

theorem Interned.oblistAddByName {s : State α} (h : Interned s) {name : Name}
    (hname : name ∉ s.names) : Interned (oblistAddByName s name).1 where
  names_nodup := h.names_nodup.append (List.nodup_singleton _) (by simpa using hname)
  mem_oblist location x := by
    have hlen : s.names[s.names.length]? = none := List.getElem?_eq_none (Nat.le_refl _)
    simp only [HashedEnvironments.oblistAddByName]
    by_cases hx : x = s.names.length
    · subst hx
      have hold : s.names.length ∉ s.oblist location := by
        rw [h.mem_oblist, hlen]
        simp
      by_cases hl : location = hashFn name
      · simp [hl]
      · simp [Function.update_of_ne hl, hold, Ne.symm hl]
    · have hget : (s.names ++ [name])[x]? = s.names[x]? := by
        cases Nat.lt_or_gt_of_ne hx with
        | inl hlt => exact List.getElem?_append_left hlt
        | inr hgt =>
          rw [List.getElem?_eq_none (by simp; omega), List.getElem?_eq_none (by omega)]
      rw [hget, ← h.mem_oblist]
      by_cases hl : location = hashFn name
      · subst hl
        simp [hx]
      · rw [Function.update_of_ne hl]

/-! ## Frames as maps -/

/-- The frames have the bindings of the maps. A slot is in one frame only. -/
structure Simulates (s : State α) (m : Maps α) : Prop where
  interned : Interned s
  names_eq : m.names = s.names
  length_eq : m.frames.length = s.frames.length
  symbol_lt : ∀ y ∈ s.slots, y.symbol < s.names.length
  slot_lt : ∀ (a : ℕ) f, s.frames[a]? = some f → ∀ l, ∀ y ∈ slotList l f, y < s.slots.length
  slot_frame : ∀ (a a' : ℕ) f f' l l' y, s.frames[a]? = some f → s.frames[a']? = some f' →
    y ∈ slotList l f → y ∈ slotList l' f' → a = a'
  binding_eq : ∀ (a x : ℕ) name, s.names[x]? = some name →
    ((s.frames[a]?).bind (findSlot s x)).bind (slotValueInEnv s) = m.binding name a
  unbound : ∀ a name, name ∉ s.names → m.binding name a = none

variable {s s' : State α} {m : Maps α}

theorem simulates_start : Simulates (start : State α) mapStart where
  interned := ⟨List.nodup_nil, by simp [start]⟩
  names_eq := rfl
  length_eq := rfl
  symbol_lt := by simp [start]
  slot_lt := by simp [start]
  slot_frame := by simp [start]
  binding_eq := by simp [start]
  unbound := by simp [Maps.binding, mapStart]

theorem findSlot_eq_some {x y : ℕ} {f : Frame} (h : findSlot s x f = some y) :
    y ∈ slotList (hashFn (symname s x)) f ∧ s.slots[y]?.map Slot.symbol = some x :=
  ⟨List.mem_of_find?_eq_some h, by simpa using List.find?_some h⟩

/-- A slot that is found has a value. -/
theorem isSome_slotValue {x y : ℕ} {f : Frame} (h : findSlot s x f = some y) :
    (slotValueInEnv s y).isSome := by
  obtain ⟨slot, hslot, -⟩ := Option.map_eq_some_iff.mp (findSlot_eq_some h).2
  simp [slotValueInEnv, hslot]

/-- The search goes through the frames from the inside. -/
theorem Simulates.findSlotInEnv_eq (h : Simulates s m) {x : ℕ} {name : Name}
    (hx : s.names[x]? = some name) (env : Env) :
    (findSlotInEnv s x true env).map (slotValueInEnv s) = (m.lookup name env).map some := by
  induction env with
  | nil => rfl
  | cons a env ih =>
    have hb := h.binding_eq a x name hx
    rw [findSlotInEnv, Maps.lookup, List.findSome?_cons, ← hb]
    cases hfind : (s.frames[a]?).bind (findSlot s x) with
    | none => exact ih
    | some y =>
      obtain ⟨f, -, hy⟩ := Option.bind_eq_some_iff.mp hfind
      obtain ⟨v, hv⟩ := Option.isSome_iff_exists.mp (isSome_slotValue hy)
      simp [hv]

/-- Without `all` only the first frame is looked at. -/
theorem Simulates.findSlotInEnv_first (h : Simulates s m) {x : ℕ} {name : Name}
    (hx : s.names[x]? = some name) (env : Env) :
    (findSlotInEnv s x false env).map (slotValueInEnv s) =
      (env.head?.bind (m.binding name)).map some := by
  cases env with
  | nil => rfl
  | cons a env =>
    rw [findSlotInEnv, List.head?_cons, Option.bind_some, ← h.binding_eq a x name hx]
    cases hfind : (s.frames[a]?).bind (findSlot s x) with
    | none => rfl
    | some y =>
      obtain ⟨f, -, hy⟩ := Option.bind_eq_some_iff.mp hfind
      obtain ⟨v, hv⟩ := Option.isSome_iff_exists.mp (isSome_slotValue hy)
      simp [hv]

/-- A slot is found in the frame that binds the name. -/
theorem Simulates.findSlotInEnv_owner (h : Simulates s m) {x : ℕ} {name : Name}
    (hx : s.names[x]? = some name) (env : Env) :
    (findSlotInEnv s x true env = none ∧ m.owner name env = none) ∨
      ∃ slot a f, findSlotInEnv s x true env = some slot ∧ m.owner name env = some a ∧
        s.frames[a]? = some f ∧ findSlot s x f = some slot := by
  induction env with
  | nil => exact Or.inl ⟨rfl, rfl⟩
  | cons a env ih =>
    have hb := h.binding_eq a x name hx
    rw [findSlotInEnv, Maps.owner, List.find?_cons, ← hb]
    cases hfind : (s.frames[a]?).bind (findSlot s x) with
    | none => exact ih
    | some y =>
      obtain ⟨f, hf, hy⟩ := Option.bind_eq_some_iff.mp hfind
      refine Or.inr ⟨y, a, f, rfl, ?_, hf, hy⟩
      rw [Option.bind_some, isSome_slotValue hy]

theorem Maps.binding_assign (m : Maps α) {a : ℕ} (ha : a < m.frames.length) (name : Name)
    (value : α) (a' : ℕ) (name' : Name) :
    (m.assign a name value).binding name' a' =
      if a' = a ∧ name' = name then some value else m.binding name' a' := by
  rw [Maps.binding, Maps.assign, List.getElem?_modify, Maps.binding]
  by_cases haa : a' = a
  · subst haa
    by_cases hn : name' = name
    · subst hn
      simp [ha]
    · cases m.frames[a']? with
      | none => simp [hn]
      | some b => simp [hn]
  · simp [haa, Ne.symm haa]

/-! ## What every operation keeps -/

theorem Simulates.index_eq (h : Simulates s m) {x z : ℕ} {name : Name}
    (hx : s.names[x]? = some name) (hz : s.names[z]? = some name) : z = x :=
  (List.getElem?_inj (List.getElem?_eq_some_iff.mp hz).1 h.interned.names_nodup).mp
    (hz.trans hx.symm)

theorem symbol_modify (slots : List (Slot α)) (slot y : ℕ) (value : α) :
    (slots.modify slot fun y => { y with value })[y]?.map Slot.symbol = slots[y]?.map Slot.symbol := by
  rw [List.getElem?_modify]
  by_cases hy : slot = y
  · simp [hy, Function.comp_def]
  · simp [hy]

theorem findSlot_setSlotInEnv (slot : ℕ) (value : α) (z : ℕ) (f : Frame) :
    findSlot (setSlotInEnv s slot value) z f = findSlot s z f := by
  simp only [findSlot, setSlotInEnv, symbol_modify]
  rfl

/-- A slot that was found is set. -/
theorem Simulates.setSlot (h : Simulates s m) {a x slot : ℕ} {f : Frame} {name : Name}
    (hx : s.names[x]? = some name) (hf : s.frames[a]? = some f)
    (hslot : findSlot s x f = some slot) (value : α) :
    Simulates (setSlotInEnv s slot value) (m.assign a name value) := by
  have ha : a < m.frames.length := by
    rw [h.length_eq]
    exact (List.getElem?_eq_some_iff.mp hf).1
  obtain ⟨hmem, hsymbol⟩ := findSlot_eq_some hslot
  have hother {a' : ℕ} {name' : Name} (hne : ¬ (a' = a ∧ name' = name)) :
      (m.assign a name value).binding name' a' = m.binding name' a' := by
    rw [m.binding_assign ha, if_neg hne]
  constructor
  · exact ⟨h.interned.names_nodup, h.interned.mem_oblist⟩
  · exact h.names_eq
  · simpa [Maps.assign, setSlotInEnv] using h.length_eq
  · intro y hy
    obtain ⟨i, hi⟩ := List.mem_iff_getElem?.mp hy
    have hi' := congrArg (Option.map Slot.symbol) hi
    rw [setSlotInEnv, symbol_modify] at hi'
    obtain ⟨z, hz, hzy⟩ := Option.map_eq_some_iff.mp hi'
    rw [← hzy]
    exact h.symbol_lt z (List.mem_of_getElem? hz)
  · intro a' f' hf' l y hy
    simpa [setSlotInEnv] using h.slot_lt a' f' hf' l y hy
  · exact h.slot_frame
  · intro a' z name' hz
    have hbinding := h.binding_eq a' z name' hz
    by_cases heq : a' = a ∧ name' = name
    · obtain ⟨rfl, rfl⟩ := heq
      obtain rfl := h.index_eq hx hz
      obtain ⟨y, hy, -⟩ := Option.map_eq_some_iff.mp hsymbol
      have hlt := (List.getElem?_eq_some_iff.mp hy).1
      rw [m.binding_assign ha, if_pos ⟨rfl, rfl⟩]
      show ((s.frames[a']?).bind (findSlot (setSlotInEnv s slot value) z)).bind _ = _
      rw [hf, Option.bind_some, findSlot_setSlotInEnv, hslot]
      simp [slotValueInEnv, setSlotInEnv, hlt]
    · rw [hother heq, ← hbinding]
      show ((s.frames[a']?).bind (findSlot (setSlotInEnv s slot value) z)).bind _ = _
      cases hf' : s.frames[a']? with
      | none => rfl
      | some f' =>
        rw [Option.bind_some, Option.bind_some, findSlot_setSlotInEnv]
        cases hy : findSlot s z f' with
        | none => rfl
        | some y =>
          have hne : slot ≠ y := by
            rintro rfl
            apply heq
            obtain ⟨hmem', hsymbol'⟩ := findSlot_eq_some hy
            obtain rfl : x = z := Option.some.inj (hsymbol.symm.trans hsymbol')
            exact ⟨h.slot_frame _ _ _ _ _ _ _ hf' hf hmem' hmem,
              Option.some.inj (hz.symm.trans hx)⟩
          simp [slotValueInEnv, setSlotInEnv, hne]
  · intro a' name' hname'
    have hne : ¬ (a' = a ∧ name' = name) := by
      rintro ⟨rfl, rfl⟩
      exact hname' (List.mem_of_getElem? hx)
    rw [hother hne]
    exact h.unbound a' name' hname'

/-- A list of slots gets the new slot at the front, or belongs to another hash. -/
theorem slotList_addSlot (l location slot : ℕ) (f : Frame) :
    slotList l (addSlot location slot f) = slot :: slotList l f ∨
      slotList l (addSlot location slot f) = slotList l f ∧ l ≠ location := by
  cases f with
  | vector elems =>
    by_cases hl : l = location
    · exact Or.inl (by simp [slotList, addSlot, hl])
    · exact Or.inr ⟨by simp [slotList, addSlot, Function.update_of_ne hl], hl⟩
  | alist slots => exact Or.inl rfl

/-- What a new slot leaves as it is. -/
theorem findSlot_append {z : ℕ} {f : Frame} (slot : Slot α)
    (hlt : ∀ y ∈ slotList (hashFn (symname s z)) f, y < s.slots.length) :
    findSlot { s with slots := s.slots ++ [slot] } z f = findSlot s z f := by
  apply List.find?_congr
  intro y hy
  rw [List.getElem?_append_left (hlt y hy)]

theorem slotValue_append {y : ℕ} (slot : Slot α) (hlt : y < s.slots.length) :
    slotValueInEnv { s with slots := s.slots ++ [slot] } y = slotValueInEnv s y := by
  rw [slotValueInEnv, List.getElem?_append_left hlt, slotValueInEnv]

theorem getElem?_newSlotSpecInEnv {a : ℕ} (x : ℕ) (value : α) {a' : ℕ} (hne : a' ≠ a) :
    (newSlotSpecInEnv s a x value).frames[a']? = s.frames[a']? := by
  rw [newSlotSpecInEnv, List.getElem?_modify]
  simp [Ne.symm hne]

/-- A slot of the new state is an old slot of the same frame, or the new one. -/
theorem mem_slotList_newSlotSpecInEnv {a x : ℕ} {value : α} {a' l y : ℕ} {f' : Frame}
    (hf' : (newSlotSpecInEnv s a x value).frames[a']? = some f') (hy : y ∈ slotList l f') :
    (a' = a ∧ y = s.slots.length) ∨ ∃ f, s.frames[a']? = some f ∧ y ∈ slotList l f := by
  by_cases haa : a' = a
  · subst haa
    rw [newSlotSpecInEnv, List.getElem?_modify] at hf'
    obtain ⟨f, hf, hadd⟩ := Option.map_eq_some_iff.mp hf'
    rw [if_pos rfl] at hadd
    subst hadd
    cases slotList_addSlot l (hashFn (symname s x)) s.slots.length f with
    | inl hcons =>
      rw [hcons] at hy
      cases hy with
      | head => exact Or.inl ⟨rfl, rfl⟩
      | tail _ hy => exact Or.inr ⟨f, hf, hy⟩
    | inr hsame => exact Or.inr ⟨f, hf, hsame.1 ▸ hy⟩
  · rw [getElem?_newSlotSpecInEnv x value haa] at hf'
    exact Or.inr ⟨f', hf', hy⟩

/-- In the frame of the new slot its symbol finds it, and other symbols find what they did. -/
theorem findSlot_addSlot (h : Simulates s m) {a x z : ℕ} {f : Frame} {name name' : Name}
    (hx : s.names[x]? = some name) (hz : s.names[z]? = some name') (hf : s.frames[a]? = some f)
    (value : α) :
    findSlot (newSlotSpecInEnv s a x value) z
        (addSlot (hashFn (symname s x)) s.slots.length f) =
      if name' = name then some s.slots.length else findSlot s z f := by
  have hlast : (s.slots ++ [⟨x, value⟩])[s.slots.length]? = some ⟨x, value⟩ := by simp
  have happend := findSlot_append (z := z) (f := f) ⟨x, value⟩ (h.slot_lt a f hf _)
  have hsym (y : ℕ) : symname (newSlotSpecInEnv s a x value) y = symname s y := rfl
  have hnames : name' = name ↔ z = x := by
    constructor
    · rintro rfl
      exact h.index_eq hx hz
    · rintro rfl
      exact Option.some.inj (hz.symm.trans hx)
  rw [findSlot, hsym]
  cases slotList_addSlot (hashFn (symname s z)) (hashFn (symname s x)) s.slots.length f with
  | inl hcons =>
    rw [hcons, List.find?_cons]
    simp only [newSlotSpecInEnv, hlast, Option.map_some, Option.some.injEq]
    by_cases hzx : z = x
    · simp [hnames, hzx]
    · have hxz : ¬ x = z := fun hxz => hzx hxz.symm
      simp only [hxz, decide_false, hnames, hzx, if_false]
      exact happend
  | inr hsame =>
    have hzx : ¬ z = x := fun hzx => hsame.2 (by rw [hzx])
    rw [hsame.1, if_neg (hnames.not.mpr hzx)]
    exact happend

/-- A new slot binds its name anew. -/
theorem Simulates.newSlotSpec (h : Simulates s m) {a x : ℕ} {name : Name}
    (ha : a < s.frames.length) (hx : s.names[x]? = some name) (value : α) :
    Simulates (newSlotSpecInEnv s a x value) (m.assign a name value) := by
  obtain ⟨f, hf⟩ : ∃ f, s.frames[a]? = some f := ⟨_, List.getElem?_eq_getElem ha⟩
  have hfa : (newSlotSpecInEnv s a x value).frames[a]? =
      some (addSlot (hashFn (symname s x)) s.slots.length f) := by
    rw [newSlotSpecInEnv, List.getElem?_modify, hf]
    simp
  have ham : a < m.frames.length := h.length_eq ▸ ha
  constructor
  · exact ⟨h.interned.names_nodup, h.interned.mem_oblist⟩
  · exact h.names_eq
  · simpa [Maps.assign, newSlotSpecInEnv] using h.length_eq
  · intro y hy
    rcases List.mem_append.mp hy with hy|hy
    · exact h.symbol_lt y hy
    · obtain rfl := List.mem_singleton.mp hy
      exact (List.getElem?_eq_some_iff.mp hx).1
  · intro a' f' hf' l y hy
    have hlen : (newSlotSpecInEnv s a x value).slots.length = s.slots.length + 1 := by
      simp [newSlotSpecInEnv]
    rw [hlen]
    cases mem_slotList_newSlotSpecInEnv hf' hy with
    | inl hnew => omega
    | inr hold =>
      obtain ⟨g, hg, hyg⟩ := hold
      have := h.slot_lt a' g hg l y hyg
      omega
  · intro a₁ a₂ f₁ f₂ l₁ l₂ y hf₁ hf₂ hy₁ hy₂
    cases mem_slotList_newSlotSpecInEnv hf₁ hy₁ with
    | inl hnew₁ =>
      cases mem_slotList_newSlotSpecInEnv hf₂ hy₂ with
      | inl hnew₂ => rw [hnew₁.1, hnew₂.1]
      | inr hold₂ =>
        obtain ⟨g, hg, hyg⟩ := hold₂
        have := h.slot_lt a₂ g hg l₂ y hyg
        omega
    | inr hold₁ =>
      obtain ⟨g₁, hg₁, hyg₁⟩ := hold₁
      cases mem_slotList_newSlotSpecInEnv hf₂ hy₂ with
      | inl hnew₂ =>
        have := h.slot_lt a₁ g₁ hg₁ l₁ y hyg₁
        omega
      | inr hold₂ =>
        obtain ⟨g₂, hg₂, hyg₂⟩ := hold₂
        exact h.slot_frame a₁ a₂ g₁ g₂ l₁ l₂ y hg₁ hg₂ hyg₁ hyg₂
  · intro a' z name' hz
    have hbinding := h.binding_eq a' z name' hz
    have hold {g : Frame} (hg : s.frames[a']? = some g) :
        (findSlot s z g).bind (slotValueInEnv (newSlotSpecInEnv s a x value)) =
          (findSlot s z g).bind (slotValueInEnv s) := by
      cases hy : findSlot s z g with
      | none => rfl
      | some y => exact slotValue_append _ (h.slot_lt a' g hg _ y (findSlot_eq_some hy).1)
    rw [m.binding_assign ham]
    by_cases haa : a' = a
    · subst haa
      rw [hfa, Option.bind_some, findSlot_addSlot h hx hz hf]
      by_cases hn : name' = name
      · simp [hn, slotValueInEnv, newSlotSpecInEnv]
      · rw [if_neg hn, if_neg fun hboth => hn hboth.2, hold hf, ← hbinding, hf]
        rfl
    · rw [getElem?_newSlotSpecInEnv x value haa, if_neg fun hboth => haa hboth.1, ← hbinding]
      cases hg : s.frames[a']? with
      | none => rfl
      | some g =>
        rw [Option.bind_some, Option.bind_some, ← hold hg]
        congr 1
        exact findSlot_append _ (h.slot_lt a' g hg _)
  · intro a' name' hname'
    have hne : ¬ (a' = a ∧ name' = name) := by
      rintro ⟨rfl, rfl⟩
      exact hname' (List.mem_of_getElem? hx)
    rw [m.binding_assign ham, if_neg hne]
    exact h.unbound a' name' hname'

/-- A new frame binds nothing. -/
theorem Simulates.newFrame (h : Simulates s m) (oldEnv : Env) :
    Simulates (newFrameInEnv s oldEnv).1 { m with frames := m.frames ++ [fun _ => none] } := by
  obtain ⟨frame, hframe, hempty⟩ : ∃ frame, (newFrameInEnv s oldEnv).1.frames = s.frames ++ [frame] ∧
      ∀ l, slotList l frame = [] := by
    cases oldEnv with
    | nil => exact ⟨_, rfl, fun _ => rfl⟩
    | cons a env => exact ⟨_, rfl, fun _ => rfl⟩
  have hold {a l y : ℕ} {f : Frame} (hf : (newFrameInEnv s oldEnv).1.frames[a]? = some f)
      (hy : y ∈ slotList l f) : s.frames[a]? = some f := by
    rw [hframe, List.getElem?_append] at hf
    split at hf
    · exact hf
    · obtain rfl : f = frame := by
        have hmem := List.mem_of_getElem? hf
        simpa using hmem
      rw [hempty] at hy
      cases hy
  have hbinding (a : ℕ) (name : Name) :
      ({ m with frames := m.frames ++ [fun _ => none] } : Maps α).binding name a =
        m.binding name a := by
    rw [Maps.binding, Maps.binding, List.getElem?_append]
    split
    · rfl
    · rename_i hlt
      rw [List.getElem?_eq_none (l := m.frames) (by omega)]
      cases a - m.frames.length with
      | zero => rfl
      | succ i => rfl
  constructor
  · exact ⟨h.interned.names_nodup, h.interned.mem_oblist⟩
  · exact h.names_eq
  · simp [hframe, h.length_eq]
  · exact h.symbol_lt
  · intro a f hf l y hy
    exact h.slot_lt a f (hold hf hy) l y hy
  · intro a a' f f' l l' y hf hf' hy hy'
    exact h.slot_frame a a' f f' l l' y (hold hf hy) (hold hf' hy') hy hy'
  · intro a x name hx
    rw [hbinding, ← h.binding_eq a x name hx, hframe, List.getElem?_append]
    split
    · rfl
    · rename_i hlt
      rw [List.getElem?_eq_none (l := s.frames) (by omega)]
      have hnone : findSlot (newFrameInEnv s oldEnv).1 x frame = none := by
        rw [findSlot, hempty]
        rfl
      cases a - s.frames.length with
      | zero =>
        rw [List.getElem?_cons_zero, Option.bind_some, hnone]
        rfl
      | succ i => rfl
  · intro a name hname
    rw [hbinding]
    exact h.unbound a name hname

/-- A new symbol is not bound yet. -/
theorem Simulates.addSymbol (h : Simulates s m) {name : Name} (hname : name ∉ s.names) :
    Simulates (oblistAddByName s name).1 { m with names := m.names ++ [name] } := by
  constructor
  · exact h.interned.oblistAddByName hname
  · simp [oblistAddByName, h.names_eq]
  · exact h.length_eq
  · intro y hy
    have := h.symbol_lt y hy
    simp only [oblistAddByName, List.length_append, List.length_singleton]
    omega
  · exact h.slot_lt
  · exact h.slot_frame
  · intro a x name' hx
    show ((s.frames[a]?).bind (findSlot (oblistAddByName s name).1 x)).bind _ = m.binding name' a
    have hx' : (s.names ++ [name])[x]? = some name' := hx
    rw [List.getElem?_append] at hx'
    split at hx'
    · rename_i hlt
      have hsym : symname (oblistAddByName s name).1 x = symname s x := by
        rw [symname_eq hx, symname_eq hx']
      rw [← h.binding_eq a x name' hx']
      have hfind : findSlot (oblistAddByName s name).1 x = findSlot s x := by
        funext f
        rw [findSlot, hsym]
        rfl
      rw [hfind]
      rfl
    · rename_i hlt
      -- the new symbol: no slot has it, and its name is not bound
      obtain ⟨hlen, rfl⟩ : x - s.names.length = 0 ∧ name = name' := by
        cases hi : x - s.names.length with
        | zero => simpa [hi] using hx'
        | succ i => simp [hi] at hx'
      rw [h.unbound a name hname]
      cases hf : s.frames[a]? with
      | none => rfl
      | some f =>
        rw [Option.bind_some]
        cases hy : findSlot (oblistAddByName s name).1 x f with
        | none => rfl
        | some y =>
          obtain ⟨slot, hslot, hsymbol⟩ := Option.map_eq_some_iff.mp (findSlot_eq_some hy).2
          have := h.symbol_lt slot (List.mem_of_getElem? hslot)
          omega
  · intro a name' hname'
    refine h.unbound a name' fun hold => hname' ?_
    exact List.mem_append_left _ hold

/-- One operation on the cells is the same operation on the maps. -/
theorem Simulates.step {op : Op α} (h : Simulates s m) (hs : step s op = some s') :
    ∃ m', mapStep m op = some m' ∧ Simulates s' m' := by
  cases op with
  | mkSymbol name =>
    obtain rfl := Option.some.inj hs
    refine ⟨_, rfl, ?_⟩
    rw [h.names_eq]
    cases h.interned.mkSymbol_spec name with
    | inl hold =>
      obtain ⟨x, hx, hmk⟩ := hold
      rw [if_pos (List.mem_of_getElem? hx), hmk]
      exact h
    | inr hnew =>
      rw [if_neg hnew.1, hnew.2, ← h.names_eq]
      exact h.addSymbol hnew.1
  | newFrame oldEnv =>
    obtain rfl := Option.some.inj hs
    exact ⟨_, rfl, h.newFrame oldEnv⟩
  | newSlotSpec env x value =>
    cases env with
    | nil => cases hs
    | cons a env =>
      simp only [HashedEnvironments.step] at hs
      split at hs
      · rename_i hguard
        obtain rfl := Option.some.inj hs
        have hx := List.getElem?_eq_getElem hguard.2
        refine ⟨m.assign a (s.names[x]) value, ?_, h.newSlotSpec hguard.1 hx value⟩
        simp only [mapStep]
        rw [h.length_eq, if_pos hguard.1, h.names_eq, hx, Option.map_some]
      · cases hs
  | define env x value =>
    cases env with
    | nil => cases hs
    | cons a env =>
      simp only [HashedEnvironments.step] at hs
      split at hs
      · rename_i hguard
        obtain rfl := Option.some.inj hs
        have hx := List.getElem?_eq_getElem hguard.2
        refine ⟨m.assign a (s.names[x]) value, ?_, ?_⟩
        · simp only [mapStep]
          rw [h.length_eq, if_pos hguard.1, h.names_eq, hx, Option.map_some]
        · have hf := List.getElem?_eq_getElem hguard.1
          rw [schemeDefine, findSlotInEnv, hf, Option.bind_some]
          cases hfind : findSlot s x (s.frames[a]) with
          | some slot => exact h.setSlot hx hf hfind value
          | none => exact h.newSlotSpec hguard.1 hx value
      · cases hs
  | setSlot env x value =>
    simp only [HashedEnvironments.step] at hs
    split at hs
    · rename_i hguard
      have hx := List.getElem?_eq_getElem hguard
      cases h.findSlotInEnv_owner hx env with
      | inl hnone =>
        rw [hnone.1] at hs
        cases hs
      | inr hfound =>
        obtain ⟨slot, a, f, hfind, howner, hf, hslot⟩ := hfound
        rw [hfind] at hs
        obtain rfl := Option.some.inj hs
        refine ⟨m.assign a (s.names[x]) value, ?_, h.setSlot hx hf hslot value⟩
        simp only [mapStep]
        rw [h.names_eq, hx, Option.bind_some, howner, Option.map_some]
    · cases hs

theorem run_simulates {ops : List (Op α)} (h : Simulates s m) (hr : run step s ops = some s') :
    ∃ m', run mapStep m ops = some m' ∧ Simulates s' m' := by
  induction ops generalizing s m with
  | nil =>
    obtain rfl : s = s' := by simpa using hr
    exact ⟨m, rfl, h⟩
  | cons op ops ih =>
    obtain ⟨t, ht, hr⟩ := run_cons_eq_some.mp hr
    obtain ⟨n, hn, hsim⟩ := h.step ht
    obtain ⟨m', hm', hsim'⟩ := ih hsim hr
    exact ⟨m', run_cons_eq_some.mpr ⟨n, hn, hm'⟩, hsim'⟩

/-- Symbols keep their names. -/
theorem mapStep_names {n : Maps α} {op : Op α} (hs : mapStep m op = some n) {x : ℕ} {name : Name}
    (hx : m.names[x]? = some name) : n.names[x]? = some name := by
  have hlt := (List.getElem?_eq_some_iff.mp hx).1
  cases op with
  | mkSymbol name' =>
    obtain rfl := Option.some.inj hs
    split
    · exact hx
    · exact (List.getElem?_append_left hlt).trans hx
  | newFrame oldEnv =>
    obtain rfl := Option.some.inj hs
    exact hx
  | newSlotSpec env y value | define env y value =>
    cases env with
    | nil => cases hs
    | cons a env =>
      simp only [mapStep] at hs
      split at hs
      · obtain ⟨name', -, rfl⟩ := Option.map_eq_some_iff.mp hs
        exact hx
      · cases hs
  | setSlot env y value =>
    obtain ⟨name', -, hs⟩ := Option.bind_eq_some_iff.mp hs
    obtain ⟨a, -, rfl⟩ := Option.map_eq_some_iff.mp hs
    exact hx

theorem run_names {ops : List (Op α)} (h : Simulates s m) (hr : run step s ops = some s') {x : ℕ}
    {name : Name} (hx : s.names[x]? = some name) : s'.names[x]? = some name := by
  induction ops generalizing s m with
  | nil =>
    obtain rfl : s = s' := by simpa using hr
    exact hx
  | cons op ops ih =>
    obtain ⟨t, ht, hr⟩ := run_cons_eq_some.mp hr
    obtain ⟨n, hn, hsim⟩ := h.step ht
    have hxn := mapStep_names hn (h.names_eq ▸ hx)
    exact ih hsim hr (hsim.names_eq ▸ hxn)

/-- The symbol that a `mk_symbol` in a run returns still has its name at the end. -/
theorem names_mkSymbol {ops ops' : List (Op α)} {name : Name} {t : State α}
    (ht : run step start ops = some t) (hr : run step start (ops ++ .mkSymbol name :: ops') = some s) :
    s.names[(mkSymbol t name).2]? = some name := by
  obtain ⟨m, -, hsim⟩ := run_simulates simulates_start ht
  rw [run_append, ht, Option.bind_some] at hr
  obtain ⟨t', ht', hr⟩ := run_cons_eq_some.mp hr
  obtain ⟨n, -, hsim'⟩ := hsim.step ht'
  obtain rfl := Option.some.inj ht'
  apply run_names hsim' hr
  cases hsim.interned.mkSymbol_spec name with
  | inl hold =>
    obtain ⟨x, hx, hmk⟩ := hold
    rw [hmk]
    exact hx
  | inr hnew =>
    rw [hnew.2]
    exact List.getElem?_concat_length

/-- After any run of the operations the environments are a stack of maps: a slot that is found has
the value that its name has in the innermost frame that binds it, or in the first frame only; and
two calls of `mk_symbol` in the run have returned the same symbol just when the names are equal. -/
theorem environments_are_maps {ops : List (Op α)} (hr : run step start ops = some s) :
    ∃ m, run mapStep mapStart ops = some m ∧
      (∀ (x : ℕ) name env, s.names[x]? = some name →
        (findSlotInEnv s x true env).map (slotValueInEnv s) = (m.lookup name env).map some ∧
        (findSlotInEnv s x false env).map (slotValueInEnv s) =
          (env.head?.bind (m.binding name)).map some) ∧
      ∀ ops₁ ops₁' ops₂ ops₂' t₁ t₂ name₁ name₂, ops = ops₁ ++ .mkSymbol name₁ :: ops₁' →
        ops = ops₂ ++ .mkSymbol name₂ :: ops₂' → run step start ops₁ = some t₁ →
        run step start ops₂ = some t₂ →
        ((mkSymbol t₁ name₁).2 = (mkSymbol t₂ name₂).2 ↔ name₁ = name₂) := by
  obtain ⟨m, hm, hsim⟩ := run_simulates simulates_start hr
  refine ⟨m, hm, ?_, ?_⟩
  · intro x name env hx
    exact ⟨hsim.findSlotInEnv_eq hx env, hsim.findSlotInEnv_first hx env⟩
  · intro ops₁ ops₁' ops₂ ops₂' t₁ t₂ name₁ name₂ h₁ h₂ ht₁ ht₂
    have hx₁ := names_mkSymbol ht₁ (h₁ ▸ hr)
    have hx₂ := names_mkSymbol ht₂ (h₂ ▸ hr)
    constructor
    · intro heq
      rw [heq, hx₂] at hx₁
      exact (Option.some.inj hx₁).symm
    · intro heq
      subst heq
      exact hsim.index_eq hx₂ hx₁

/-- Two variables, the first of which is bound again in an inner frame and set there. -/
theorem environments_are_maps_shadowed :
    ∃ s : State ℕ, run step start [.mkSymbol [120], .mkSymbol [121], .newFrame [],
        .define [0] 0 10, .newFrame [0], .newSlotSpec [1, 0] 0 20, .setSlot [1, 0] 0 30] = some s ∧
      (findSlotInEnv s 0 true [1, 0]).map (slotValueInEnv s) = some (some 30) ∧
      (findSlotInEnv s 0 true [0]).map (slotValueInEnv s) = some (some 10) := by
  obtain ⟨s, hs⟩ : ∃ s : State ℕ, run step start [.mkSymbol [120], .mkSymbol [121], .newFrame [],
      .define [0] 0 10, .newFrame [0], .newSlotSpec [1, 0] 0 20, .setSlot [1, 0] 0 30] = some s :=
    ⟨_, rfl⟩
  obtain ⟨m, hm, hmaps, -⟩ := environments_are_maps hs
  have hx : s.names[0]? = some [120] := by
    obtain rfl := Option.some.inj hs
    rfl
  refine ⟨s, hs, (hmaps 0 [120] [1, 0] hx).1.trans ?_, (hmaps 0 [120] [0] hx).1.trans ?_⟩
  · obtain rfl := Option.some.inj hm
    rfl
  · obtain rfl := Option.some.inj hm
    rfl

end Extempore.HashedEnvironments
