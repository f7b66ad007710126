import Mathlib.Data.Int.Notation
import Mathlib.Data.List.Basic
import Mathlib.Tactic.Common

/-!
# Data and variables of the pattern matcher

Scheme data as `match` of `libs/core/pattern.xtm` sees them, the library procedures on lists that it
uses, and its variables: a symbol that holds question marks is read as a name, a run of one to three
marks and the name of a predicate.
-/

namespace Extempore.MatchVariables

/-- Scheme data over the numbers `N`. A vector holds the list of its items, and `obj` is any other
object (a closure, a character, a port), which is equal to itself only. -/
inductive Datum (N : Type)
  | nil
  | pair (car cdr : Datum N)
  | sym (name : List Char)
  | num (n : N)
  | str (text : List Char)
  | bool (b : Bool)
  | vec (items : Datum N)
  | obj (id : ℕ)

variable {N : Type}

namespace Datum

/-- `list?` -/
def isList : Datum N → Bool
  | nil => true
  | pair _ d => d.isList
  | _ => false

def elements : Datum N → List (Datum N)
  | pair a d => a :: d.elements
  | _ => []

def ofList : List (Datum N) → Datum N
  | [] => nil
  | a :: as => pair a (ofList as)

@[simp] theorem ofList_nil : ofList ([] : List (Datum N)) = nil := rfl

@[simp] theorem ofList_cons (a : Datum N) (as : List (Datum N)) :
    ofList (a :: as) = pair a (ofList as) := rfl

@[simp] theorem isList_ofList (as : List (Datum N)) : (ofList as).isList = true := by
  induction as with
  | nil => rfl
  | cons a as ih => exact ih

@[simp] theorem elements_ofList (as : List (Datum N)) : (ofList as).elements = as := by
  induction as with
  | nil => rfl
  | cons a as ih => exact congrArg (a :: ·) ih

theorem ofList_elements {d : Datum N} (h : d.isList = true) : ofList d.elements = d := by
  induction d with
  | nil => rfl
  | pair a d _ ih => exact congrArg (pair a) (ih h)
  | sym | num | str | bool | vec | obj => cases h

theorem ofList_injective {as bs : List (Datum N)} (h : ofList as = ofList bs) : as = bs := by
  rw [← elements_ofList as, h, elements_ofList]

@[simp] theorem ofList_inj {as bs : List (Datum N)} : ofList as = ofList bs ↔ as = bs :=
  ⟨ofList_injective, congrArg ofList⟩

def isPair : Datum N → Bool
  | pair _ _ => true
  | _ => false

def isNil : Datum N → Bool
  | nil => true
  | _ => false

def isSym : Datum N → Bool
  | sym _ => true
  | _ => false

def isNum : Datum N → Bool
  | num _ => true
  | _ => false

def isStr : Datum N → Bool
  | str _ => true
  | _ => false

/-- Everything but `#f` counts as true. -/
def isTruthy : Datum N → Bool
  | bool b => b
  | _ => true

/-- `(eqv? x #t)` -/
def isTrue : Datum N → Bool
  | bool b => b
  | _ => false

theorem isTruthy_of_isTrue {d : Datum N} (h : d.isTrue = true) : d.isTruthy = true := by
  cases d with
  | bool b => exact h
  | nil | pair | sym | num | str | vec | obj => rfl

/-- The number of atoms and pairs, on which the walk over a match expression descends. -/
def size : Datum N → ℕ
  | pair a d => a.size + d.size + 1
  | _ => 1

theorem size_pos (d : Datum N) : 0 < d.size := by
  cases d <;> simp [size]

/-- `(flatten lst)`, the atoms and improper pairs of a list of lists. -/
def flatten : Datum N → List (Datum N)
  | pair a d => (if a.isList then a.flatten else [a]) ++ d.flatten
  | _ => []

/-- A list that holds no lists is flattened already. -/
theorem flatten_ofList {as : List (Datum N)} (h : ∀ a ∈ as, a.isList = false) :
    (ofList as).flatten = as := by
  induction as with
  | nil => rfl
  | cons a as ih =>
    have ha : a.isList = false := h a List.mem_cons_self
    have has := ih fun b hb => h b (List.mem_cons_of_mem a hb)
    simp [flatten, ha, has]

/-- `(list-head lst k)` -/
def listHead (lst : Datum N) (k : ℤ) : Datum N :=
  ofList (lst.elements.take k.toNat)

/-- `(list-tail lst k)` -/
def listTail : Datum N → ℕ → Datum N
  | lst, 0 => lst
  | pair _ d, k + 1 => d.listTail k
  | lst, _ + 1 => lst

theorem listTail_ofList (as : List (Datum N)) (k : ℕ) :
    (ofList as).listTail k = ofList (as.drop k) := by
  induction k generalizing as with
  | zero => cases as <;> rfl
  | succ k ih =>
    cases as with
    | nil => rfl
    | cons a as => exact ih as

end Datum

open Datum

/-- What the matcher takes from its surroundings: the equality of numbers, whether an expression is
bound, and the closures bound at the top level, by name. -/
structure Globals (N : Type) where
  numEq : N → N → Bool
  defined : Datum N → Bool
  closure : List Char → Option (Datum N → Datum N)

/-- `equal?` -/
def equal (g : Globals N) : Datum N → Datum N → Bool
  | .pair a d, .pair a' d' => equal g a a' && equal g d d'
  | .vec x, .vec y => equal g x y
  | .str s, .str t => s == t
  | .sym s, .sym t => s == t
  | .num m, .num n => g.numEq m n
  | .bool b, .bool c => b == c
  | .obj i, .obj j => i == j
  | .nil, .nil => true
  | _, _ => false

/-- `MATCH-FAILED` -/
def matchFailed : Datum N := .sym "match-failed".toList

/-- `MATCH-TRUE` -/
def matchTrue : Datum N := .nil

/-- `(tree-member MATCH-FAILED tree)` -/
def treeMember (g : Globals N) (mem : Datum N) : Datum N → Bool
  | .pair a d => treeMember g mem a || treeMember g mem d
  | .nil => false
  | d => equal g d mem

/-- The list `(full name marks predicate)` of `variable-constructor`. -/
structure Var (N : Type) where
  full : Datum N
  name : List Char
  marks : List Char
  predicate : List Char

def literalTag : List Char := "literal".toList

def isLiteral (var : Var N) : Bool := var.predicate == literalTag

/-- What `(.*)$` takes of the end of a text: no line feed, but one at the very end may follow. -/
def lineEnd (text : List Char) : Option (List Char) :=
  if '\n' ∉ text then some text
  else if text.getLast? = some '\n' ∧ '\n' ∉ text.dropLast then some text.dropLast
  else none

/-- The entry of what is no variable, with a mark of four signs. -/
def literalVar (em : Datum N) : Var N := ⟨em, [], "????".toList, literalTag⟩

/-- `^([^?]*)(\?+)(.*)$` on the text of a symbol. -/
def variableConstructor (em : Datum N) : Var N :=
  match em with
  | .sym text =>
    let name := text.takeWhile (· != '?')
    let rest := text.dropWhile (· != '?')
    let marks := rest.takeWhile (· == '?')
    match marks, lineEnd (rest.dropWhile (· == '?')) with
    | _ :: _, some predicate => ⟨.str (name ++ marks ++ predicate), name, marks, predicate⟩
    | _, _ => literalVar em
  | _ => literalVar em

theorem size_full_le (em : Datum N) : (variableConstructor em).full.size ≤ em.size := by
  cases em with
  | sym text =>
    simp only [variableConstructor]
    split <;> simp [literalVar, size]
  | nil | pair | num | str | bool | vec | obj => exact Nat.le_refl _

theorem variableConstructor_of_not_sym {em : Datum N} (h : em.isSym = false) :
    variableConstructor em = literalVar em := by
  cases em with
  | sym => cases h
  | nil | pair | num | str | bool | vec | obj => rfl

theorem takeWhile_of_not_mem {text rest : List Char} (h : '?' ∉ text)
    (hrest : ∀ c ∈ rest.head?, c = '?') :
    (text ++ rest).takeWhile (· != '?') = text ∧ (text ++ rest).dropWhile (· != '?') = rest := by
  induction text with
  | nil =>
    cases rest with
    | nil => exact ⟨rfl, rfl⟩
    | cons c rest =>
      have hc : c = '?' := hrest c rfl
      simp [hc]
  | cons c text ih =>
    have hc : c ≠ '?' := fun hc => h (hc ▸ List.mem_cons_self)
    obtain ⟨ht, hd⟩ := ih fun hm => h (List.mem_cons_of_mem c hm)
    simp [hc, ht, hd]

theorem takeWhile_marks (k : ℕ) {rest : List Char} (hrest : ∀ c ∈ rest.head?, c ≠ '?') :
    (List.replicate k '?' ++ rest).takeWhile (· == '?') = List.replicate k '?' ∧
      (List.replicate k '?' ++ rest).dropWhile (· == '?') = rest := by
  induction k with
  | zero =>
    cases rest with
    | nil => exact ⟨rfl, rfl⟩
    | cons c rest =>
      have hc : c ≠ '?' := hrest c rfl
      simp [hc]
  | succ k ih => simp [List.replicate_succ, ih.1, ih.2]

/-- A symbol without a question mark is a literal. -/
theorem variableConstructor_word {text : List Char} (h : '?' ∉ text) :
    variableConstructor (.sym text : Datum N) = literalVar (.sym text) := by
  have hd : text.dropWhile (· != '?') = [] := by
    simpa using (@takeWhile_of_not_mem text [] h (by simp)).2
  simp [variableConstructor, hd]

/-- A name, marks and a predicate are read back from the symbol that they make. -/
theorem variableConstructor_variable {name predicate : List Char} {k : ℕ} (hk : 0 < k)
    (hname : '?' ∉ name) (hmark : ∀ c ∈ predicate.head?, c ≠ '?') (hline : '\n' ∉ predicate) :
    variableConstructor (.sym (name ++ (List.replicate k '?' ++ predicate)) : Datum N) =
      ⟨.str (name ++ List.replicate k '?' ++ predicate), name, List.replicate k '?', predicate⟩ := by
  have hhead : ∀ c ∈ (List.replicate k '?' ++ predicate).head?, c = '?' := by
    cases k with
    | zero => omega
    | succ k => simp [List.replicate_succ]
  obtain ⟨htake, hdrop⟩ := takeWhile_of_not_mem hname hhead
  obtain ⟨hmarks, hrest⟩ := takeWhile_marks k hmark
  have hend : lineEnd predicate = some predicate := if_pos hline
  simp only [variableConstructor, htake, hdrop, hmarks, hrest, hend]
  cases k with
  | zero => omega
  | succ k => rfl

/-- `(match-check-variable-predicates e var)` -/
def matchCheckVariablePredicates (g : Globals N) (e : Datum N) (predicate : List Char) : Datum N :=
  if predicate = "list".toList then .bool e.isList
  else if predicate = "number".toList then .bool e.isNum
  else if predicate = "atom".toList then .bool (!e.isPair)
  else if predicate = "pair".toList then .bool e.isPair
  else if predicate = "symbol".toList then .bool e.isSym
  else if predicate = "string".toList then .bool e.isStr
  else if predicate = "defined".toList then .bool (g.defined e)
  else if predicate = [] then .bool true
  else match g.closure predicate with
    | some f => f e
    | none => .bool false

@[simp] theorem matchCheckVariablePredicates_list (g : Globals N) (e : Datum N) :
    matchCheckVariablePredicates g e "list".toList = .bool e.isList := if_pos rfl

@[simp] theorem matchCheckVariablePredicates_nil (g : Globals N) (e : Datum N) :
    matchCheckVariablePredicates g e [] = .bool true := by
  simp [matchCheckVariablePredicates]

/-- The vector of a name and what it has matched. -/
def binding (name : List Char) (e : Datum N) : Datum N := .vec (.ofList [.str name, e])

/-- `(match-check-variable e var)` -/
def matchCheckVariable (g : Globals N) (e : Datum N) (var : Var N) : Datum N :=
  if var.name = [] ∧ var.predicate = [] then matchTrue
  else if (matchCheckVariablePredicates g e var.predicate).isTruthy then
    if var.name = [] then matchTrue else binding var.name e
  else matchFailed

/-- `(length (get-true-matches lst))`, the number of values before the first that is not `#t`. -/
def getTrueMatches (lst : List (Datum N)) : ℕ := (lst.takeWhile isTrue).length

/-- `(get-matching-length expr var)` -/
def getMatchingLength (g : Globals N) (expr : Datum N) (var : Var N) : ℕ :=
  getTrueMatches (expr.elements.map fun x => matchCheckVariablePredicates g x var.predicate)

/-- `(get-var-em-size var)` -/
def getVarEmSize (var : Var N) : ℕ := if var.marks.length = 3 then 0 else 1

/-- `(get-em-length ems var)` -/
def getEmLength (ems : List (Var N)) : ℕ := ems.foldr (fun var n => getVarEmSize var + n) 0

/-- `(is-match-multi? x)` -/
def isMatchMulti (x : Var N) : Bool := x.marks.length == 2 || x.marks.length == 3

/-- The leading elements that are counted satisfy the predicate. -/
theorem matching_of_lt {g : Globals N} {es : List (Datum N)} {predicate : List Char} {k : ℕ}
    (hk : k ≤ ((es.map fun x => matchCheckVariablePredicates g x predicate).takeWhile
      isTrue).length) :
    ∀ x ∈ es.take k, (matchCheckVariablePredicates g x predicate).isTruthy = true := by
  induction es generalizing k with
  | nil => simp
  | cons e es ih =>
    cases k with
    | zero => simp
    | succ k =>
      intro x hx
      by_cases he : (matchCheckVariablePredicates g e predicate).isTrue = true
      · simp only [List.map_cons, List.takeWhile_cons, he, if_true, List.length_cons,
          Nat.add_le_add_iff_right] at hk
        rcases List.mem_cons.mp hx with rfl | hx
        · exact isTruthy_of_isTrue he
        · exact ih hk x hx
      · simp [he] at hk

end Extempore.MatchVariables
