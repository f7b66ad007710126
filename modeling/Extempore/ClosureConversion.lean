import Extempore.ReturnMarks
import Extempore.VisibleNames

/-!
# Closure conversion

`impc:ti:closure:convert` turns each `let` into a `__make-env` and each `lambda` into a
`__make-closure` with the names that it captures. Both carry a tag, which `impc:ti:allocate-var?`
computes from the lambdas inside and from which the code generators choose the storage of
variables.
-/

namespace Extempore.ClosureConversion

open XtlangForms ReturnMarks VisibleNames

/-! ## The pass -/

section RemoveDuplicates

variable {α : Type} [DecidableEq α]

def remDup : List α → List α → List α
  | [], nlst => nlst.reverse
  | x :: lst, nlst => if x ∈ nlst then remDup lst nlst else remDup lst (x :: nlst)

/-- `cl:remove-duplicates` -/
def removeDuplicates (lst : List α) : List α := remDup lst []

theorem remDup_eq (lst nlst : List α) : remDup lst nlst = nlst.reverse ++ visible nlst lst := by
  induction lst generalizing nlst with
  | nil => simp [remDup, visible]
  | cons x lst ih =>
    rw [remDup, visible]
    split
    · exact ih nlst
    · rw [ih, List.reverse_cons, List.append_assoc, List.singleton_append]

theorem removeDuplicates_eq (lst : List α) : removeDuplicates lst = visible [] lst :=
  remDup_eq lst []

end RemoveDuplicates

/-- `impc:ti:allocate-var?` -/
def allocateVar : Sexpr → ℕ
  | .cons car cdr =>
    let a := allocateVar car
    let b := allocateVar cdr
    if a > b then a else b
  | .sym s =>
    if s ∈ ["lambda", "lambdaz"] then 3
    else if s = "lambdah" then 1
    else if s = "lambdas" then 2
    else 0
  | _ => 0

/-- The elements of a proper list. -/
def elems : Sexpr → Option (List Sexpr)
  | .nil => some []
  | .cons car cdr => do
    let rest ← elems cdr
    some (car :: rest)
  | _ => none

/-- The names that a list of bindings binds. -/
def bindingNames : Sexpr → Option (List Sexpr)
  | .nil => some []
  | .cons (.cons x _) rest => do
    let names ← bindingNames rest
    some (x :: names)
  | _ => none

/-- The name of the compiled function is the last of the names in scope, and it is dropped. -/
def environment (esyms : List Sexpr) : Option (List Sexpr) :=
  match (removeDuplicates esyms).reverse with
  | [] => none
  | _ :: env => some env

def closureSymbol (car : Sexpr) : Sexpr :=
  if car = .sym "lambdah" then .sym "__make-closure-h"
  else if car = .sym "lambdas" then .sym "__make-closure-s"
  else .sym "__make-closure-z"

/-- `impc:ti:closure:convert`; `none` is an error on an ill-formed `let` or `lambda`. -/
def closureConvert (esyms : List Sexpr) : Sexpr → Option Sexpr
  | .cons car cdr =>
    if isLambdaSymbol car then
      match cdr with
      | .cons params (.cons body _) => do
        let env ← environment esyms
        let names ← elems params
        let body ← closureConvert (names ++ esyms) body
        some (.list [closureSymbol car, .int (allocateVar cdr), .list env, params, body])
      | _ => none
    else if isLetSymbol car then
      match cdr with
      | .cons bindings (.cons body _) => do
        let names ← bindingNames bindings
        let inits ← closureConvert (names ++ esyms) bindings
        let body ← closureConvert (names ++ esyms) body
        some (.list [.sym "__make-env", .int (allocateVar (.cons car cdr)), inits, body])
      | _ => none
    else do
      let car ← closureConvert esyms car
      let cdr ← closureConvert esyms cdr
      some (.cons car cdr)
  | atom => some atom

/-! ## What the pass makes of a form -/

def symbols (xs : List Name) : List Sexpr := xs.map fun x => .sym x.text

/-- The names in scope but the last of them. -/
def captured (esyms : List Name) : List Name := (visible [] esyms).dropLast.reverse

mutual

/-- The output on a form, with the names in scope. -/
def convertExpr (esyms : List Name) : Expr → Sexpr
  | .atom a => a.toSexpr
  | .if2 marked test thn =>
    .list [ifSymbol marked, convertExpr esyms test, convertExpr esyms thn]
  | .if3 marked test thn els =>
    .list [ifSymbol marked, convertExpr esyms test, convertExpr esyms thn, convertExpr esyms els]
  | .lets kind bindings body =>
    .list [.sym "__make-env", .int (allocateVar (Expr.lets kind bindings body).toSexpr),
      convertBindings (letNames bindings ++ esyms) bindings,
      .cons (.sym "begin") (convertBody (letNames bindings ++ esyms) body)]
  | .seq body => .cons (.sym "begin") (convertBody esyms body)
  | .lambda kind params body =>
    .list [closureSymbol (.sym kind.text),
      .int (allocateVar (.list [nameList params, .cons (.sym "begin") body.toSexpr])),
      nameList (captured esyms), nameList params,
      .cons (.sym "begin") (convertBody (params ++ esyms) body)]
  | .call f args => .cons (convertExpr esyms f) (convertArgs esyms args)
  | .ret name e => .list [.sym "ret->", .sym name.text, convertExpr esyms e]

def convertBody (esyms : List Name) : Body → Sexpr
  | .last e => .list [convertExpr esyms e]
  | .cons e rest => .cons (convertExpr esyms e) (convertBody esyms rest)

def convertArgs (esyms : List Name) : Args → Sexpr
  | .nil => .nil
  | .cons e rest => .cons (convertExpr esyms e) (convertArgs esyms rest)

def convertBindings (esyms : List Name) : Bindings → Sexpr
  | .nil => .nil
  | .cons x init rest =>
    .cons (.list [.sym x.text, convertExpr esyms init]) (convertBindings esyms rest)

end

section Refinement

variable {esyms : List Name} {car : Sexpr}

theorem Name.text_injective (x y : Name) (h : Sexpr.sym x.text = .sym y.text) : x = y := by
  cases x
  cases y
  cases h
  rfl

theorem mem_symbols {x : Name} : .sym x.text ∈ symbols esyms ↔ x ∈ esyms := by
  constructor
  · intro h
    obtain ⟨y, hy, hxy⟩ := List.mem_map.mp h
    rwa [← Name.text_injective y x hxy]
  · exact fun h => List.mem_map_of_mem h

theorem symbols_append (xs ys : List Name) : symbols (xs ++ ys) = symbols xs ++ symbols ys :=
  List.map_append

theorem environment_symbols (hne : esyms ≠ []) :
    environment (symbols esyms) = some (symbols (captured esyms)) := by
  have hvisible : visible (symbols []) (symbols esyms) = symbols (visible [] esyms) :=
    visible_map Name.text_injective
  rw [show symbols [] = [] from rfl] at hvisible
  have hnil : (visible [] (symbols esyms)).reverse ≠ [] := by
    rw [hvisible, Ne, List.reverse_eq_nil_iff, symbols, List.map_eq_nil_iff, visible_eq_nil]
    obtain ⟨x, hx⟩ := List.exists_mem_of_ne_nil esyms hne
    exact fun h => List.not_mem_nil (h x hx)
  rw [environment, removeDuplicates_eq]
  split
  · next h => exact absurd h hnil
  · next env h =>
    have htail : env = (visible [] (symbols esyms)).reverse.tail := by rw [h, List.tail_cons]
    rw [htail, List.tail_reverse, hvisible, captured, symbols, symbols, ← List.map_dropLast,
      ← List.map_reverse]

theorem elems_list (ss : List Sexpr) : elems (.list ss) = some ss := by
  induction ss with
  | nil => rfl
  | cons s ss ih => rw [Sexpr.list, elems, ih, Option.bind_eq_bind, Option.bind_some]

theorem bindingNames_toSexpr : ∀ bindings : Bindings,
    bindingNames bindings.toSexpr = some (symbols (letNames bindings))
  | .nil => rfl
  | .cons x init rest => by
    rw [Bindings.toSexpr, Sexpr.list, bindingNames, bindingNames_toSexpr rest,
      Option.bind_eq_bind, Option.bind_some]
    rfl

/-- Forms that start with neither a `let` nor a `lambda` are converted part by part. -/
theorem closureConvert_cons {esyms : List Sexpr} {car cdr car' cdr' : Sexpr}
    (hlambda : isLambdaSymbol car = false) (hlet : isLetSymbol car = false)
    (hcar : closureConvert esyms car = some car') (hcdr : closureConvert esyms cdr = some cdr') :
    closureConvert esyms (.cons car cdr) = some (.cons car' cdr') := by
  rw [closureConvert.eq_def]
  simp only [hlambda, hlet, Bool.false_eq_true, if_false, hcar, hcdr, Option.bind_eq_bind,
    Option.bind_some]

theorem closureConvert_toSexpr_cons {esyms : List Sexpr} {e : Expr} {cdr car' cdr' : Sexpr}
    (hcar : closureConvert esyms e.toSexpr = some car')
    (hcdr : closureConvert esyms cdr = some cdr') :
    closureConvert esyms (.cons e.toSexpr cdr) = some (.cons car' cdr') :=
  closureConvert_cons (isLambdaSymbol_toSexpr e) (isLetSymbol_toSexpr e) hcar hcdr

theorem closureConvert_sym (esyms : List Sexpr) (s : String) :
    closureConvert esyms (.sym s) = some (.sym s) := by
  rw [closureConvert]
  intro car cdr h
  cases h

theorem closureConvert_nil (esyms : List Sexpr) : closureConvert esyms .nil = some .nil := by
  rw [closureConvert]
  intro car cdr h
  cases h

theorem closureConvert_sym_cons {esyms : List Sexpr} {s : String} {cdr cdr' : Sexpr}
    (hlambda : isLambdaSymbol (.sym s) = false) (hlet : isLetSymbol (.sym s) = false)
    (hcdr : closureConvert esyms cdr = some cdr') :
    closureConvert esyms (.cons (.sym s) cdr) = some (.cons (.sym s) cdr') :=
  closureConvert_cons hlambda hlet (closureConvert_sym esyms s) hcdr

mutual

theorem closureConvert_toSexpr (esyms : List Name) (hne : esyms ≠ []) :
    ∀ e : Expr, closureConvert (symbols esyms) e.toSexpr = some (convertExpr esyms e)
  | .atom a => by
    rw [Expr.toSexpr, convertExpr]
    cases a <;> rw [Atom.toSexpr, closureConvert] <;> exact fun _ _ h => by cases h
  | .if2 marked test thn => by
    apply closureConvert_sym_cons (by cases marked <;> decide) (by cases marked <;> decide)
    apply closureConvert_toSexpr_cons (closureConvert_toSexpr esyms hne test)
    apply closureConvert_toSexpr_cons (closureConvert_toSexpr esyms hne thn)
    exact closureConvert_nil _
  | .if3 marked test thn els => by
    apply closureConvert_sym_cons (by cases marked <;> decide) (by cases marked <;> decide)
    apply closureConvert_toSexpr_cons (closureConvert_toSexpr esyms hne test)
    apply closureConvert_toSexpr_cons (closureConvert_toSexpr esyms hne thn)
    apply closureConvert_toSexpr_cons (closureConvert_toSexpr esyms hne els)
    exact closureConvert_nil _
  | .lets kind bindings body => by
    have hne' : letNames bindings ++ esyms ≠ [] := List.append_ne_nil_of_right_ne_nil _ hne
    have ih := closureConvert_bindings (letNames bindings ++ esyms) hne' bindings
    have ih' := closureConvert_begin (letNames bindings ++ esyms) hne' body
    have hlambda : isLambdaSymbol (.sym kind.text) = false := by cases kind <;> decide
    rw [symbols_append] at ih ih'
    rw [Expr.toSexpr, Sexpr.list, Sexpr.list, Sexpr.list, closureConvert.eq_def]
    simp only [hlambda, isLetSymbol_text, if_true, Bool.false_eq_true, if_false,
      bindingNames_toSexpr, ih, ih', Option.bind_eq_bind, Option.bind_some]
    rfl
  | .seq body => closureConvert_begin esyms hne body
  | .lambda kind params body => by
    have hne' : params ++ esyms ≠ [] := List.append_ne_nil_of_right_ne_nil _ hne
    have ih := closureConvert_begin (params ++ esyms) hne' body
    rw [symbols_append] at ih
    rw [Expr.toSexpr, Sexpr.list, Sexpr.list, Sexpr.list, closureConvert.eq_def, nameList]
    simp only [isLambdaSymbol_text, if_true, environment_symbols hne, elems_list,
      Option.bind_eq_bind, Option.bind_some]
    rw [← symbols, ih]
    rfl
  | .call f args =>
    closureConvert_toSexpr_cons (closureConvert_toSexpr esyms hne f)
      (closureConvert_args esyms hne args)
  | .ret name e => by
    apply closureConvert_sym_cons (by decide) (by decide)
    apply closureConvert_toSexpr_cons (e := .atom (.name name)) (closureConvert_sym _ _)
    apply closureConvert_toSexpr_cons (closureConvert_toSexpr esyms hne e)
    exact closureConvert_nil _

theorem closureConvert_begin (esyms : List Name) (hne : esyms ≠ []) :
    ∀ body : Body, closureConvert (symbols esyms) (.cons (.sym "begin") body.toSexpr) =
      some (.cons (.sym "begin") (convertBody esyms body)) :=
  fun body => closureConvert_sym_cons (by decide) (by decide)
    (closureConvert_body esyms hne body)

theorem closureConvert_body (esyms : List Name) (hne : esyms ≠ []) :
    ∀ body : Body, closureConvert (symbols esyms) body.toSexpr = some (convertBody esyms body)
  | .last e =>
    closureConvert_toSexpr_cons (closureConvert_toSexpr esyms hne e) (closureConvert_nil _)
  | .cons e rest =>
    closureConvert_toSexpr_cons (closureConvert_toSexpr esyms hne e)
      (closureConvert_body esyms hne rest)

theorem closureConvert_args (esyms : List Name) (hne : esyms ≠ []) :
    ∀ args : Args, closureConvert (symbols esyms) args.toSexpr = some (convertArgs esyms args)
  | .nil => closureConvert_nil _
  | .cons e rest =>
    closureConvert_toSexpr_cons (closureConvert_toSexpr esyms hne e)
      (closureConvert_args esyms hne rest)

theorem closureConvert_bindings (esyms : List Name) (hne : esyms ≠ []) :
    ∀ bindings : Bindings, closureConvert (symbols esyms) bindings.toSexpr =
      some (convertBindings esyms bindings)
  | .nil => closureConvert_nil _
  | .cons x init rest => by
    apply closureConvert_cons _ _ _ (closureConvert_bindings esyms hne rest)
    · simp [isLambdaSymbol, Sexpr.list]
    · simp [isLetSymbol, Sexpr.list]
    · apply closureConvert_toSexpr_cons (e := .atom (.name x)) (closureConvert_sym _ _)
      apply closureConvert_toSexpr_cons (closureConvert_toSexpr esyms hne init)
      exact closureConvert_nil _

end

end Refinement

end Extempore.ClosureConversion
