import Extempore.Atoms
import Extempore.Sexprs
import Mathlib.Data.List.FinRange

/-!
# Scheme values and their data

What the reader returns stands for a value: `mk_atom` decides about its atoms, `mk_sharp_const`
about its constants and `OP_VECTOR` makes its vectors. Values are compared by `equal?`.
-/

namespace Extempore.SchemeValues
open ExactNumbers Atoms SchemeReader ReaderFrames Lexemes

/-- The values that have a text. -/
inductive Value where
  | nil
  | bool (b : Bool)
  | number (v : Number)
  | string (s : List UInt8)
  | symbol (name : List UInt8)
  | pair (car cdr : Value)
  | vector (size : ℕ) (elements : Fin size → Value)

namespace Value

/-- A proper list. -/
def list : List Value → Value
  | [] => nil
  | v :: vs => pair v (list vs)

/-- `set_vector_elem` for all elements of a list. -/
def ofList (vs : List Value) : Value := vector vs.length vs.get

/-- The elements of a proper list. -/
def elements? : Value → Option (List Value)
  | nil => some []
  | pair a d => (elements? d).map (a :: ·)
  | _ => none

/-- All parts that are neither pairs nor vectors have the property. -/
def AllLeaves (P : Value → Prop) : Value → Prop
  | pair a d => AllLeaves P a ∧ AllLeaves P d
  | vector _ elements => ∀ i, AllLeaves P (elements i)
  | v => P v

/-- The property of strings, for other values nothing. -/
def OnString (S : List UInt8 → Prop) : Value → Prop
  | string s => S s
  | _ => True

/-- The strings in a value, in the order in which they are written. -/
def strings : Value → List (List UInt8)
  | string s => [s]
  | pair a d => strings a ++ strings d
  | vector _ elements => (List.ofFn fun i => strings (elements i)).flatten
  | _ => []

end Value

open Value

/-- `equal?`, with `eqv?` on numbers and the identity of symbols, which is that of their names. -/
def equal : Value → Value → Bool
  | .pair a d, .pair a' d' => equal a a' && equal d d'
  | .vector n e, .vector m e' =>
    if h : n = m then (List.finRange n).all fun i => equal (e i) (e' (i.cast h)) else false
  | .string s, .string t => s == t
  | .number v, .number w =>
    match numEq wrap v w with
    | .ok b => b
    | .error _ => false
  | .symbol s, .symbol t => s == t
  | .bool b, .bool c => b == c
  | .nil, .nil => true
  | _, _ => false

/-! ## From a value to its datum -/

/-- The datum that is to be read for a value. -/
def datum : Value → Datum
  | .nil => .nil
  | .bool true => .sharpConst (ascii "t")
  | .bool false => .sharpConst (ascii "f")
  | .number v => .atom (atom2str v)
  | .string s => .string s
  | .symbol name => .atom name
  | .pair a d => .pair (datum a) (datum d)
  | .vector _ elements => .vector (.list (List.ofFn fun i => datum (elements i)))

/-! ## From a datum to its value -/

/-- The value that `mk_atom` makes. Inexact numbers are left out. -/
def ofAtom : Atom → Option Value
  | .nil => some .nil
  | .symbol name => some (.symbol name)
  | .number v => some (.number v)
  | .realNum _ => none
  | .colonHook member name =>
    (ofAtom member).map fun v =>
      .list [.symbol (ascii "*colon-hook*"), .list [.symbol (ascii "quote"), v], .symbol name]

/-- `OP_VECTOR` -/
def opVector (args : Value) : Option Value := (elements? args).map ofList

/-- The value of what was read, with `sharp` for `mk_sharp_const`. -/
def denote (sharp : List UInt8 → Option Value) : Datum → Option Value
  | .nil => some .nil
  | .atom text =>
    match mkAtom text with
    | .ok a => ofAtom a
    | .error _ => none
  | .sharpConst text => sharp text
  | .string s => some (.string s)
  | .pair a d => (denote sharp a).bind fun v => (denote sharp d).map (.pair v)
  | .vector e => (denote sharp e).bind opVector

/-- What is known of `mk_sharp_const`. -/
structure ReadsBooleans (sharp : List UInt8 → Option Value) : Prop where
  true : sharp (ascii "t") = some (.bool true)
  false : sharp (ascii "f") = some (.bool false)

/-- `mk_sharp_const` on the booleans. -/
def booleans (name : List UInt8) : Option Value :=
  if name = ascii "t" then some (.bool true)
  else if name = ascii "f" then some (.bool false)
  else none

theorem readsBooleans : ReadsBooleans booleans := ⟨if_pos rfl, rfl⟩

/-- A number as `mk_integer` and `mk_rational` make it. -/
def IsMade : Number → Prop
  | .integer i => InInt64 i
  | .rational n d => ∃ a b, InInt64 a ∧ InInt64 b ∧ mkRational a b = .ok (.rational n d)

/-- Strings do not contain the character that ends them, and the names of symbols are read as the
symbols. -/
def IsDatumLeaf : Value → Prop
  | .number v => IsMade v
  | .string s => 0 ∉ s
  | .symbol name => IsAtomText name ∧ mkAtom name = .ok (.symbol name)
  | _ => True

def IsData (v : Value) : Prop := AllLeaves IsDatumLeaf v

variable {sharp : List UInt8 → Option Value} {v w : Value} {d D : Datum} {P Q : Value → Prop}

theorem Value.AllLeaves.imp
    (h : ∀ v, (∀ a d, v ≠ .pair a d) → (∀ n e, v ≠ .vector n e) → P v → Q v)
    (hv : AllLeaves P v) : AllLeaves Q v := by
  induction v with
  | pair a d iha ihd => exact ⟨iha hv.1, ihd hv.2⟩
  | vector n elements ih => exact fun i => ih i (hv i)
  | _ => exact h _ nofun nofun hv

theorem Value.AllLeaves.and (hv : AllLeaves P v) (hv' : AllLeaves Q v) :
    AllLeaves (fun v => P v ∧ Q v) v := by
  induction v with
  | pair a d iha ihd => exact ⟨iha hv.1 hv'.1, ihd hv.2 hv'.2⟩
  | vector n elements ih => exact fun i => ih i (hv i) (hv' i)
  | _ => exact ⟨hv, hv'⟩

theorem Value.mem_strings_vector {n : ℕ} {elements : Fin n → Value} {s : List UInt8} :
    s ∈ strings (.vector n elements) ↔ ∃ i, s ∈ strings (elements i) := by
  simp [strings, List.mem_flatten, List.mem_ofFn]

/-- A property of all strings. -/
theorem Value.forall_strings_iff {S : List UInt8 → Prop} :
    (∀ s ∈ strings v, S s) ↔ AllLeaves (OnString S) v := by
  induction v with
  | pair a d iha ihd =>
    simp only [strings, List.mem_append, or_imp, forall_and, iha, ihd]
    rfl
  | vector n elements ih =>
    simp only [mem_strings_vector, forall_exists_index, forall_comm (α := List UInt8), ih]
    rfl
  | _ => simp [strings, AllLeaves, OnString]

theorem equal_self (v : Value) : equal v v = true := by
  induction v with
  | nil => rfl
  | bool b => exact beq_self_eq_true b
  | number v =>
    cases v with
    | integer i => exact beq_self_eq_true i
    | rational n d =>
      show (n == n && d == d) = true
      rw [beq_self_eq_true, beq_self_eq_true, Bool.and_self]
  | string s => exact beq_self_eq_true s
  | symbol name => exact beq_self_eq_true name
  | pair a d iha ihd => rw [equal, iha, ihd, Bool.and_self]
  | vector n elements ih =>
    rw [equal, dif_pos rfl, List.all_eq_true]
    exact fun i _ => ih i

/-! ## Lists and vectors -/

theorem elements?_list (vs : List Value) : elements? (.list vs) = some vs := by
  induction vs with
  | nil => rfl
  | cons v vs ih => rw [Value.list, elements?, ih, Option.map_some]

theorem eq_list_of_elements? {vs : List Value} (h : elements? v = some vs) : v = .list vs := by
  induction v generalizing vs with
  | nil =>
    cases h
    rfl
  | pair a d _ ih =>
    rw [elements?, Option.map_eq_some_iff] at h
    obtain ⟨ws, hws, rfl⟩ := h
    rw [ih hws, Value.list]
  | _ => cases h

theorem ofList_ofFn {n : ℕ} (elements : Fin n → Value) :
    ofList (List.ofFn elements) = .vector n elements := by
  have hof (m : ℕ) (f : Fin m → Value) (hm : m = n) (hf : ∀ i, f i = elements (i.cast hm)) :
      vector m f = vector n elements := by
    subst hm
    exact congrArg _ (funext hf)
  refine hof _ _ List.length_ofFn ?_
  intro i
  exact List.get_ofFn elements i

theorem opVector_list (vs : List Value) : opVector (.list vs) = some (ofList vs) := by
  rw [opVector, elements?_list, Option.map_some]

theorem denote_list {ds : List Datum} {vs : List Value}
    (h : List.Forall₂ (fun d v => denote sharp d = some v) ds vs) :
    denote sharp (.list ds) = some (.list vs) := by
  induction h with
  | nil => rfl
  | cons hv _ ih =>
    rw [Datum.list, denote, hv, ih]
    rfl

theorem forall₂_ofFn {α β : Type} {R : α → β → Prop} {n : ℕ} {f : Fin n → α} {g : Fin n → β}
    (h : ∀ i, R (f i) (g i)) : List.Forall₂ R (List.ofFn f) (List.ofFn g) := by
  rw [List.forall₂_iff_get]
  refine ⟨by simp, ?_⟩
  intro i h₁ h₂
  simpa using h ⟨i, by simpa using h₁⟩

theorem equal_vector {n m : ℕ} {e : Fin n → Value} {e' : Fin m → Value}
    (h : equal (.vector n e) (.vector m e')) :
    List.Forall₂ (fun v w => equal v w) (List.ofFn e) (List.ofFn e') := by
  rw [equal] at h
  split at h
  · rename_i hn
    subst hn
    rw [List.all_eq_true] at h
    exact forall₂_ofFn fun i => h i (List.mem_finRange i)
  · cases h

/-- What is denoted by a vector. -/
theorem denote_vector_eq_some {e : Datum} (h : denote sharp (.vector e) = some v) :
    ∃ vs, denote sharp e = some (.list vs) ∧ v = ofList vs := by
  obtain ⟨w, hw, hv⟩ := Option.bind_eq_some_iff.mp h
  obtain ⟨vs, hvs, rfl⟩ := Option.map_eq_some_iff.mp hv
  rw [eq_list_of_elements? hvs] at hw
  exact ⟨vs, hw, rfl⟩

theorem denote_pair_eq_some {a b : Datum} (h : denote sharp (.pair a b) = some v) :
    ∃ x y, denote sharp a = some x ∧ denote sharp b = some y ∧ v = .pair x y := by
  obtain ⟨x, hx, hv⟩ := Option.bind_eq_some_iff.mp h
  obtain ⟨y, hy, rfl⟩ := Option.map_eq_some_iff.mp hv
  exact ⟨x, y, hx, hy, rfl⟩

theorem denote_list_eq_some {ds : List Datum} (h : denote sharp (.list ds) = some v) :
    ∃ vs, v = .list vs ∧ List.Forall₂ (fun d v => denote sharp d = some v) ds vs := by
  induction ds generalizing v with
  | nil =>
    cases h
    exact ⟨[], rfl, .nil⟩
  | cons d ds ih =>
    obtain ⟨x, y, hx, hy, rfl⟩ := denote_pair_eq_some h
    obtain ⟨vs, rfl, hvs⟩ := ih hy
    exact ⟨x :: vs, rfl, .cons hx hvs⟩

/-! ## Reading what was meant -/

/-- The leaf is read as itself. -/
def ReadsItself (sharp : List UInt8 → Option Value) (v : Value) : Prop :=
  denote sharp (datum v) = some v

/-- Data that consist of such leaves are read as themselves. -/
theorem denote_datum (h : AllLeaves (ReadsItself sharp) v) : denote sharp (datum v) = some v := by
  induction v with
  | pair a d iha ihd =>
    rw [datum, denote, iha h.1, ihd h.2]
    rfl
  | vector n elements ih =>
    rw [datum, denote, denote_list (forall₂_ofFn fun i => ih i (h i)), Option.bind_some,
      opVector_list, ofList_ofFn]
  | _ => exact h

/-- The data agree in their strings as far as they have the same form, and their atoms are related
there. -/
def Agree (A : List UInt8 → List UInt8 → Prop) : Datum → Datum → Prop
  | .pair a d, .pair a' d' => Agree A a a' ∧ Agree A d d'
  | .vector e, .vector e' => Agree A e e'
  | .string s, .string t => s = t
  | .atom a, .atom b => A a b
  | _, _ => True

variable {A : List UInt8 → List UInt8 → Prop}

theorem deep_agree : Deep (Agree A) where
  pair h := h
  vector h := h

theorem agree_nil (d : Datum) : Agree A d .nil := by cases d <;> trivial

theorem agree_self (hA : ∀ text, A text text) (d : Datum) : Agree A d d := by
  induction d with
  | pair a b iha ihb => exact ⟨iha, ihb⟩
  | vector e ih => exact ih
  | string s => rfl
  | atom text => exact hA text
  | _ => trivial

theorem list_injective {ds es : List Datum} (h : Datum.list ds = Datum.list es) : ds = es := by
  induction ds generalizing es with
  | nil =>
    cases es with
    | nil => rfl
    | cons e es => cases h
  | cons d ds ih =>
    cases es with
    | nil => cases h
    | cons e es =>
      obtain ⟨rfl, hrest⟩ := Datum.pair.inj h
      rw [ih hrest]

theorem agree_append (hA : ∀ text, A text text) (hs : List Datum) {ds es : List Datum}
    (h : List.Forall₂ (Agree A) ds es) : Agree A (.list (hs ++ ds)) (.list (hs ++ es)) := by
  induction hs with
  | nil =>
    induction h with
    | nil => trivial
    | cons hd _ ih => exact ⟨hd, ih⟩
  | cons d hs ih => exact ⟨agree_self hA d, ih⟩

/-- The datum agrees with a value's if it denotes an equal value. -/
def AgreesWith (sharp : List UInt8 → Option Value) (A : List UInt8 → List UInt8 → Prop) (v : Value)
    (d : Datum) : Prop :=
  ∀ D w, denote sharp D = some w → equal w v → Agree A D d

theorem AgreesWith.pair {v w : Value} {a b : Datum} (ha : AgreesWith sharp A v a)
    (hb : AgreesWith sharp A w b) : AgreesWith sharp A (.pair v w) (.pair a b) := by
  intro D u hD hu
  cases D with
  | pair a' b' =>
    obtain ⟨x, y, hx, hy, rfl⟩ := denote_pair_eq_some hD
    rw [equal, Bool.and_eq_true] at hu
    exact ⟨ha a' x hx hu.1, hb b' y hy hu.2⟩
  | _ => trivial

/-- The elements of a list agree with the first values. -/
theorem agree_list {ds : List Datum} {us vs ws : List Value}
    (hd : denote sharp D = some (.list us)) (h : List.Forall₂ (fun u v => equal u v) us (vs ++ ws))
    (hvs : List.Forall₂ (AgreesWith sharp A) vs ds) : Agree A D (.list ds) := by
  induction hvs generalizing D us with
  | nil => exact agree_nil D
  | cons hv _ ih =>
    cases h with
    | cons hu hus =>
      cases D with
      | pair a b =>
        obtain ⟨x, y, hx, hy, heq⟩ := denote_pair_eq_some hd
        cases heq
        exact ⟨hv a _ hx hu, ih hy hus⟩
      | _ => trivial

theorem AgreesWith.vector {n : ℕ} {elements : Fin n → Value} {vs ws : List Value} {ds : List Datum}
    (hvs : List.Forall₂ (AgreesWith sharp A) vs ds) (heq : List.ofFn elements = vs ++ ws) :
    AgreesWith sharp A (.vector n elements) (.vector (.list ds)) := by
  intro D u hD hu
  cases D with
  | vector e =>
    obtain ⟨us, hus, rfl⟩ := denote_vector_eq_some hD
    have hequal := equal_vector hu
    rw [List.ofFn_get, heq] at hequal
    exact agree_list hus hequal hvs
  | _ => trivial

theorem agreesWith_string (s : List UInt8) : AgreesWith sharp A (.string s) (.string s) := by
  intro D w hD hw
  cases D with
  | string t =>
    cases hD
    exact eq_of_beq hw
  | _ => trivial

/-- What denotes an equal value has the same strings. -/
theorem agreesWith_datum (v : Value) : AgreesWith sharp (fun _ _ => True) v (datum v) := by
  induction v with
  | string s => exact agreesWith_string s
  | pair a b iha ihb => exact iha.pair ihb
  | vector n elements ih =>
    exact .vector (forall₂_ofFn ih) (List.append_nil _).symm
  | bool b =>
    intro D w _ _
    cases b <;> cases D <;> trivial
  | _ =>
    intro D w _ _
    cases D <;> trivial

/-- What is denoted by the datum of a value is equal to the value in all leaves. -/
theorem leaves_of_equal (hd : denote sharp (datum v) = some w) (h : equal w v) :
    AllLeaves (fun l => ∃ w, denote sharp (datum l) = some w ∧ equal w l) v := by
  induction v generalizing w with
  | pair a b iha ihb =>
    obtain ⟨x, y, hx, hy, rfl⟩ := denote_pair_eq_some hd
    rw [equal, Bool.and_eq_true] at h
    exact ⟨iha hx h.1, ihb hy h.2⟩
  | vector n elements ih =>
    obtain ⟨vs, hvs, rfl⟩ := denote_vector_eq_some hd
    obtain ⟨vs', heq, hall⟩ := denote_list_eq_some hvs
    have hequal := equal_vector h
    rw [List.ofFn_get] at hequal
    have hget := elements?_list vs
    rw [heq, elements?_list, Option.some_inj] at hget
    subst hget
    intro i
    rw [List.forall₂_iff_get] at hall hequal
    have hi : i < (List.ofFn fun i => datum (elements i)).length := by simp
    have hi' : i < vs'.length := hall.1 ▸ hi
    have hdenotes := hall.2 i hi hi'
    have heq := hequal.2 i hi' (by simp)
    simp only [List.get_eq_getElem, List.getElem_ofFn, Fin.eta] at hdenotes heq
    exact ih i hdenotes heq
  | _ => exact ⟨w, hd, h⟩

/-! ## Numbers -/

theorem mem_decimal {z : ℤ} {b : UInt8} (h : b ∈ decimal z) : isDigit b ∨ b = byte '-' := by
  rw [decimal] at h
  split at h
  · cases h with
    | head => exact Or.inr rfl
    | tail _ h => exact Or.inl (isDigit_of_mem_decimalNat h)
  · exact Or.inl (isDigit_of_mem_decimalNat h)

theorem mem_atom2str {v : Number} {b : UInt8} (h : b ∈ atom2str v) :
    isDigit b ∨ b = byte '-' ∨ b = byte '/' := by
  cases v with
  | integer i => exact (mem_decimal h).imp_right Or.inl
  | rational n d =>
    rcases List.mem_append.mp h with h|h
    · exact (mem_decimal h).imp_right Or.inl
    · cases h with
      | head => exact Or.inr (Or.inr rfl)
      | tail _ h => exact (mem_decimal h).imp_right Or.inl

theorem atom2str_ne_nil (v : Number) : atom2str v ≠ [] := by
  have hne (z : ℤ) : decimal z ≠ [] := by
    rw [decimal]
    split
    · simp
    · exact decimalNat_ne_nil _
  cases v with
  | integer i => exact hne i
  | rational n d => simp [atom2str]

theorem plain_atom2str (v : Number) : Plain (atom2str v) := by
  have hbyte {b : UInt8} (hb : b ∈ atom2str v) : PlainByte b ∧ b ≠ 46 := by
    cases mem_atom2str hb with
    | inl hdigit =>
      rw [isDigit, Bool.and_eq_true, decide_eq_true_eq, decide_eq_true_eq] at hdigit
      refine ⟨⟨by omega, by omega, ?_⟩, ?_⟩
      · simp only [List.mem_cons, List.not_mem_nil, or_false, not_or]
        omega
      · rintro rfl
        exact absurd hdigit (by decide)
    | inr hsign =>
      rcases hsign with rfl|rfl <;> decide
  exact ⟨atom2str_ne_nil v, fun b hb => (hbyte hb).1,
    fun h46 => (hbyte (List.mem_of_mem_head? h46)).2 rfl⟩

/-- The text of a number is read as an equal number unless it is a fraction with a negative
denominator. -/
theorem readsItself_of_isMade {v : Number} (hv : IsMade v)
    (hpos : ∀ n d, v = .rational n d → 0 < d) : ReadsItself sharp (.number v) := by
  cases v with
  | integer i =>
    rw [ReadsItself, datum, denote, atom2str, mkAtom_decimal hv]
    rfl
  | rational n d =>
    have hd := hpos n d rfl
    obtain ⟨a, b, ha, hb, hmade⟩ := hv
    have ha0 : a ≠ 0 := by
      rintro rfl
      rw [mkRational] at hmade
      split at hmade
      · cases hmade
      · cases hmade
    obtain ⟨hb0, hvalid, -, hform⟩ := mkRational_eq_ok ha0 hmade
    obtain ⟨rfl, rfl⟩ := Number.rational.inj hform
    have hn0 : a.tdiv (TruncatedEuclid.euclid a b) ≠ 0 := by
      intro h
      have hmul := Int.mul_tdiv_cancel_of_dvd (TruncatedEuclid.euclid_dvd_left a b)
      rw [h, mul_zero] at hmul
      exact ha0 hmul.symm
    rw [ReadsItself, datum, denote, atom2str, mkAtom_fraction hvalid.1 hvalid.2.1, if_pos hd.le,
      mkRational_lowest hvalid.1 hvalid.2.1 hn0 hd (TruncatedEuclid.euclid_lowest hb0)]
    rfl

/-- A leaf is read as itself unless it is a fraction with a negative denominator. -/
theorem readsItself_leaf (hsharp : ReadsBooleans sharp) (hpair : ∀ a d, v ≠ .pair a d)
    (hvector : ∀ n e, v ≠ .vector n e) (h : IsDatumLeaf v)
    (hpos : ∀ n d, v = .number (.rational n d) → 0 < d) : ReadsItself sharp v := by
  cases v with
  | nil => rfl
  | bool b =>
    cases b with
    | true => exact hsharp.true
    | false => exact hsharp.false
  | number v => exact readsItself_of_isMade h fun n d heq => hpos n d (congrArg _ heq)
  | string s => rfl
  | symbol name =>
    rw [ReadsItself, datum, denote, h.2]
    rfl
  | pair a d => exact absurd rfl (hpair a d)
  | vector n e => exact absurd rfl (hvector n e)

theorem isSharpText_t : IsSharpText (ascii "t") := ⟨by decide, by decide, [116], by decide⟩

theorem isSharpText_f : IsSharpText (ascii "f") := ⟨by decide, by decide, [102], by decide⟩

/-- A fraction with a negative denominator is read as a symbol. -/
theorem denote_fraction_of_neg {n d : ℤ} (hn : InInt64 n) (hd : InInt64 d) (hneg : d < 0) :
    denote sharp (datum (.number (.rational n d))) = some (.symbol (atom2str (.rational n d))) := by
  rw [datum, denote, atom2str, mkAtom_fraction hn hd, if_neg (by omega)]
  rfl

theorem valid_of_isMade {v : Number} (h : IsMade v) : Valid v := by
  cases v with
  | integer i => exact h
  | rational n d =>
    obtain ⟨a, b, -, -, hmade⟩ := h
    have ha : a ≠ 0 := by
      rintro rfl
      rw [mkRational] at hmade
      split at hmade <;> cases hmade
    exact (mkRational_eq_ok ha hmade).2.1

/-- A fraction is read as an equal value only if its denominator is positive. -/
theorem denominator_pos_of_equal {n d : ℤ} (hdata : IsDatumLeaf (.number (.rational n d)))
    (hd : denote sharp (datum (.number (.rational n d))) = some w)
    (hw : equal w (.number (.rational n d))) : 0 < d := by
  obtain ⟨hn, hd', hne⟩ := valid_of_isMade (v := .rational n d) hdata
  by_contra hpos
  have hneg : d < 0 := lt_of_le_of_ne (not_lt.mp hpos) hne
  rw [denote_fraction_of_neg hn hd' hneg] at hd
  cases hd
  cases hw

end Extempore.SchemeValues
