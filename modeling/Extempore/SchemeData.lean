import Mathlib.Data.Int.Basic
import Mathlib.Data.List.Basic
import Mathlib.Logic.Function.Basic

/-!
# Scheme data and environments

Expressions and values are the same kind of data. An environment is a chain of frames; what
is stored in a frame can change, the chain of an environment cannot. A frame is a list of
slots, the newest one first. The frame of the global environment is split into such lists by
a hash of the names, which makes no difference for lookups.
-/

namespace Extempore.SchemeData

/-- The frames of an environment, the innermost one first. -/
abbrev Env := List ℕ

inductive ClosureKind where
  | tClosure | tMacro | tPromise
  deriving DecidableEq, Repr

/-- Data as far as the evaluator tells them apart; `other` stands for all further atoms. -/
inductive Val where
  | nil
  | bool (b : Bool)
  | symbol (name : String)
  | integer (n : ℤ)
  | character (c : ℕ)
  | string (s : List UInt8)
  | pair (car cdr : Val)
  | closure (kind : ClosureKind) (code : Val) (env : Env)
  | other (id : ℕ)
  deriving DecidableEq, Repr

/-- `car`, which on the empty list is the empty list again. Of other atoms no part is taken. -/
def car : Val → Val
  | .pair a _ => a
  | _ => .nil

def cdr : Val → Val
  | .pair _ d => d
  | _ => .nil

def isPair : Val → Bool
  | .pair _ _ => true
  | _ => false

def isTrue (v : Val) : Bool := v != .bool false

/-- A proper list. -/
def Val.list : List Val → Val
  | [] => .nil
  | v :: vs => .pair v (Val.list vs)

/-- A list that ends in `last`. -/
def Val.listStar (last : Val) : List Val → Val
  | [] => last
  | v :: vs => .pair v (Val.listStar last vs)

/-- `reverse_in_place(sc, term, list)` -/
def reverseInPlace (term : Val) : Val → Val
  | .pair a d => reverseInPlace (.pair a term) d
  | _ => term

theorem reverseInPlace_list (vs ws : List Val) :
    reverseInPlace (.list ws) (.list vs) = .list (vs.reverse ++ ws) := by
  induction vs generalizing ws with
  | nil => rfl
  | cons v vs ih =>
    rw [Val.list, reverseInPlace, show Val.pair v (.list ws) = .list (v :: ws) from rfl, ih]
    simp

@[simp] theorem car_list_cons (v : Val) (vs : List Val) : car (.list (v :: vs)) = v := rfl

@[simp] theorem cdr_list_cons (v : Val) (vs : List Val) : cdr (.list (v :: vs)) = .list vs := rfl

@[simp] theorem isPair_list (vs : List Val) : isPair (.list vs) = !vs.isEmpty := by
  cases vs <;> rfl

@[simp] theorem list_eq_nil {vs : List Val} : Val.list vs = .nil ↔ vs = [] := by
  cases vs <;> simp [Val.list]

/-! ## Frames of slots -/

abbrev Slots := List (String × Val)

/-- The frames by their addresses. -/
structure Store where
  frames : List Slots
  deriving DecidableEq, Repr

/-- A slot by the frame that it is in and its place there. -/
structure Slot where
  frame : ℕ
  index : ℕ
  deriving DecidableEq, Repr

/-- `new_frame_in_env` -/
def newFrameInEnv (st : Store) (oldEnv : Env) : Store × Env :=
  (⟨st.frames ++ [[]]⟩, st.frames.length :: oldEnv)

/-- `new_slot_in_env`, in the innermost frame. -/
def newSlotInEnv (st : Store) (env : Env) (name : String) (value : Val) : Store :=
  match env with
  | [] => st
  | a :: _ => ⟨st.frames.modify a fun slots => (name, value) :: slots⟩

/-- `find_slot_in_env`; with `all` the outer frames are searched, too. -/
def findSlotInEnv (st : Store) (hdl : String) (all : Bool) : Env → Option Slot
  | [] => none
  | a :: env =>
    match ((st.frames[a]?).getD []).findIdx? (·.1 == hdl) with
    | some i => some ⟨a, i⟩
    | none => if all then findSlotInEnv st hdl all env else none

def setSlotInEnv (st : Store) (slot : Slot) (value : Val) : Store :=
  ⟨st.frames.modify slot.frame fun slots => slots.modify slot.index fun b => (b.1, value)⟩

def slotValueInEnv (st : Store) (slot : Slot) : Val :=
  ((((st.frames[slot.frame]?).getD [])[slot.index]?).map Prod.snd).getD .nil

/-! ## Frames as maps -/

/-- A frame as a map from names to values. -/
abbrev Bindings := String → Option Val

abbrev Frames := List Bindings

/-- Bind the names one after the other. -/
def bindAll (b : Bindings) (xs : List String) (vs : List Val) : Bindings :=
  (xs.zip vs).foldl (fun b p => Function.update b p.1 (some p.2)) b

/-- The innermost frame of the environment with a binding for the name. -/
def owner (s : Frames) (x : String) : Env → Option ℕ
  | [] => none
  | a :: env => if (((s[a]?).bind fun b => b x)).isSome then some a else owner s x env

/-- The value of a variable. -/
def lookup (s : Frames) (x : String) (env : Env) : Option Val :=
  (owner s x env).bind fun a => (s[a]?).bind fun b => b x

/-- Bind a name in the frame at `a`. -/
def assign (s : Frames) (a : ℕ) (x : String) (v : Val) : Frames :=
  s.modify a fun b => Function.update b x (some v)

/-- The map that a list of slots stands for. -/
def bindings (slots : Slots) : Bindings := fun x => slots.lookup x

/-- What the store says about the variables. -/
def Store.abs (st : Store) : Frames := st.frames.map bindings

/-! ## Slots implement maps -/

theorem bindings_cons (x : String) (v : Val) (slots : Slots) :
    bindings ((x, v) :: slots) = Function.update (bindings slots) x (some v) := by
  funext y
  by_cases h : y = x
  · simp [bindings, h]
  · have hy : (y == x) = false := by simpa using h
    simp [bindings, Function.update_of_ne h, List.lookup_cons, hy]

theorem bindings_eq_none_iff {slots : Slots} {x : String} :
    bindings slots x = none ↔ slots.findIdx? (·.1 == x) = none := by
  induction slots with
  | nil => simp [bindings]
  | cons b slots ih =>
    obtain ⟨y, v⟩ := b
    rw [bindings_cons, List.findIdx?_cons]
    by_cases h : y = x
    · simp [h]
    · simpa [Function.update_of_ne (Ne.symm h), h] using ih

theorem bindings_of_findIdx {slots : Slots} {x : String} {i : ℕ}
    (h : slots.findIdx? (·.1 == x) = some i) :
    bindings slots x = slots[i]?.map Prod.snd := by
  induction slots generalizing i with
  | nil => simp at h
  | cons b slots ih =>
    obtain ⟨y, v⟩ := b
    rw [List.findIdx?_cons] at h
    rw [bindings_cons]
    by_cases hy : y = x
    · obtain rfl : 0 = i := by simpa [hy] using h
      simp [hy]
    · simp only [beq_iff_eq, hy, if_false] at h
      obtain ⟨j, hj, rfl⟩ := Option.map_eq_some_iff.mp h
      simpa [Function.update_of_ne (Ne.symm hy)] using ih hj

/-- Setting the first slot of a name binds the name anew. -/
theorem bindings_modify {slots : Slots} {x : String} {i : ℕ} (v : Val)
    (h : slots.findIdx? (·.1 == x) = some i) :
    bindings (slots.modify i fun b => (b.1, v)) = Function.update (bindings slots) x (some v) := by
  induction slots generalizing i with
  | nil => simp at h
  | cons b slots ih =>
    obtain ⟨y, w⟩ := b
    rw [List.findIdx?_cons] at h
    by_cases hy : y = x
    · obtain rfl : 0 = i := by simpa [hy] using h
      rw [List.modify_zero_cons, bindings_cons, bindings_cons, hy, Function.update_idem]
    · simp only [beq_iff_eq, hy, if_false] at h
      obtain ⟨j, hj, rfl⟩ := Option.map_eq_some_iff.mp h
      rw [List.modify_succ_cons, bindings_cons, bindings_cons, ih hj, Function.update_comm hy]

theorem map_modify {α β : Type*} (g : α → β) {f : α → α} {f' : β → β} (as : List α) (i : ℕ)
    (h : ∀ a ∈ as[i]?, g (f a) = f' (g a)) : (as.modify i f).map g = (as.map g).modify i f' := by
  induction as generalizing i with
  | nil => simp
  | cons a as ih =>
    cases i with
    | zero => simpa using h a rfl
    | succ i => simpa using ih i (by simpa using h)

@[simp] theorem abs_length (st : Store) : st.abs.length = st.frames.length := by simp [Store.abs]

theorem abs_newFrameInEnv (st : Store) (env : Env) :
    (newFrameInEnv st env).1.abs = st.abs ++ [fun _ => none] := by
  simp only [newFrameInEnv, Store.abs, List.map_append, List.map_cons, List.map_nil]
  rfl

theorem abs_newSlotInEnv (st : Store) (a : ℕ) (env : Env) (x : String) (v : Val) :
    (newSlotInEnv st (a :: env) x v).abs = assign st.abs a x v :=
  map_modify bindings st.frames a fun slots _ => bindings_cons x v slots

theorem abs_getElem? (st : Store) (a : ℕ) : st.abs[a]? = st.frames[a]?.map bindings := by
  simp [Store.abs]

/-- The slot that is found belongs to the first frame with a binding. -/
theorem findSlotInEnv_of_owner {st : Store} {x : String} {env : Env} {a : ℕ}
    (h : owner st.abs x env = some a) :
    ∃ i slots, findSlotInEnv st x true env = some ⟨a, i⟩ ∧ st.frames[a]? = some slots ∧
      slots.findIdx? (·.1 == x) = some i := by
  induction env with
  | nil => simp [owner] at h
  | cons c env ih =>
    rw [owner, abs_getElem?] at h
    rw [findSlotInEnv]
    cases hslots : st.frames[c]? with
    | none =>
      obtain ⟨i, slots, hfind, hrest⟩ := ih (by simpa [hslots] using h)
      exact ⟨i, slots, by simpa using hfind, hrest⟩
    | some slots =>
      cases hi : slots.findIdx? (·.1 == x) with
      | none =>
        have hb := bindings_eq_none_iff.mpr hi
        obtain ⟨i, slots', hfind, hrest⟩ := ih (by simpa [hslots, hb] using h)
        exact ⟨i, slots', by simpa [hi] using hfind, hrest⟩
      | some i =>
        have hb : (bindings slots x).isSome := by
          rw [Option.isSome_iff_ne_none, ne_eq, bindings_eq_none_iff, hi]
          simp
        obtain rfl : c = a := by simpa [hslots, hb] using h
        exact ⟨i, slots, by simp [hi], hslots, hi⟩

theorem slotValueInEnv_of_lookup {st : Store} {x : String} {env : Env} {v : Val}
    (h : lookup st.abs x env = some v) :
    ∃ slot, findSlotInEnv st x true env = some slot ∧ slotValueInEnv st slot = v := by
  obtain ⟨a, ha, hv⟩ := Option.bind_eq_some_iff.mp h
  obtain ⟨i, slots, hfind, hslots, hi⟩ := findSlotInEnv_of_owner ha
  refine ⟨⟨a, i⟩, hfind, ?_⟩
  rw [abs_getElem?, hslots, Option.map_some, Option.bind_some, bindings_of_findIdx hi] at hv
  simp [slotValueInEnv, hslots, hv]

/-- `set!` binds the variable anew where it is bound. -/
theorem abs_setSlotInEnv {st : Store} {x : String} {env : Env} {a : ℕ} (v : Val)
    (h : owner st.abs x env = some a) :
    ∃ slot, findSlotInEnv st x true env = some slot ∧
      (setSlotInEnv st slot v).abs = assign st.abs a x v := by
  obtain ⟨i, slots, hfind, hslots, hi⟩ := findSlotInEnv_of_owner h
  refine ⟨⟨a, i⟩, hfind, map_modify bindings st.frames a fun slots' h' => ?_⟩
  obtain rfl : slots = slots' := by simpa [hslots] using h'
  exact bindings_modify v hi

/-- `define` sets a slot of the innermost frame or makes one. -/
theorem abs_define (st : Store) (x : String) (a : ℕ) (env : Env) (v : Val) :
    (match findSlotInEnv st x false (a :: env) with
      | some slot => setSlotInEnv st slot v
      | none => newSlotInEnv st (a :: env) x v).abs = assign st.abs a x v := by
  rw [findSlotInEnv]
  cases hi : ((st.frames[a]?).getD []).findIdx? (·.1 == x) with
  | none => exact abs_newSlotInEnv st a env x v
  | some i =>
    refine map_modify bindings st.frames a fun slots h => ?_
    have hs : st.frames[a]? = some slots := h
    rw [hs, Option.getD_some] at hi
    exact bindings_modify v hi

/-- The slots of a new frame. -/
def newSlots (st : Store) (env : Env) : List String → List Val → Store
  | x :: xs, v :: vs => newSlots (newSlotInEnv st env x v) env xs vs
  | _, _ => st

theorem abs_newSlots (st : Store) (a : ℕ) (env : Env) (xs : List String) (vs : List Val) :
    (newSlots st (a :: env) xs vs).abs = st.abs.modify a fun b => bindAll b xs vs := by
  induction xs generalizing st vs with
  | nil => exact (List.modify_id _ _).symm
  | cons x xs ih =>
    cases vs with
    | nil => exact (List.modify_id _ _).symm
    | cons v vs =>
      rw [newSlots, ih, abs_newSlotInEnv, assign, List.modify_modify_eq]
      rfl

end Extempore.SchemeData
