import Mathlib.Data.Int.Notation
import Mathlib.Data.List.Nodup

/-!
# Core forms of xtlang

Programs as the passes of the compiler see them, which are S-expressions, and the core forms
that `first-transform` leaves. Bodies of `let` and of `lambda` are wrapped in `begin`. The symbols
that the passes look for are no names of variables, so that an S-expression is read as a form in
one way at most.
-/

namespace Extempore.XtlangForms

/-- Scheme data as far as program texts need them. -/
inductive Sexpr
  | nil
  | cons (car cdr : Sexpr)
  | sym (name : String)
  | int (n : ℤ)
  | str (text : String)
  | bool (b : Bool)
deriving DecidableEq

def Sexpr.list : List Sexpr → Sexpr
  | [] => .nil
  | s :: ss => .cons s (list ss)

/-- `*impc:letslist*` -/
inductive LetKind
  | letPlain
  | letStar
  | letrec
deriving DecidableEq

def LetKind.text : LetKind → String
  | .letPlain => "let"
  | .letStar => "let*"
  | .letrec => "letrec"

/-- `*impc:lambdaslist*` -/
inductive LambdaKind
  | lambda
  | lambdas
  | lambdaz
  | lambdah
deriving DecidableEq

def LambdaKind.text : LambdaKind → String
  | .lambda => "lambda"
  | .lambdas => "lambdas"
  | .lambdaz => "lambdaz"
  | .lambdah => "lambdah"

def letslist : List String := ["let", "let*", "letrec"]

def lambdaslist : List String := ["lambda", "lambdas", "lambdaz", "lambdah"]

/-- The symbols that the passes after `first-transform` look for. -/
def keywords : List String :=
  letslist ++ lambdaslist ++ ["if", "ifret", "begin", "ret->", "__make-env", "__make-env-zone",
    "__make-closure", "__make-closure-s", "__make-closure-h", "__make-closure-z"]

theorem LetKind.text_mem (k : LetKind) : k.text ∈ letslist := by
  cases k <;> decide

theorem LambdaKind.text_mem (k : LambdaKind) : k.text ∈ lambdaslist := by
  cases k <;> decide

/-- The name of a variable or of a function. -/
structure Name where
  text : String
  notMem_keywords : text ∉ keywords
deriving DecidableEq

theorem f_notMem_keywords : "f" ∉ keywords := by decide

theorem g_notMem_keywords : "g" ∉ keywords := by decide

theorem y_notMem_keywords : "y" ∉ keywords := by decide

/-- What is not a pair. -/
inductive Atom
  | name (x : Name)
  | int (n : ℤ)
  | str (text : String)
  | bool (b : Bool)
deriving DecidableEq

def Atom.toSexpr : Atom → Sexpr
  | .name x => .sym x.text
  | .int n => .int n
  | .str text => .str text
  | .bool b => .bool b

mutual

/-- A core form. `marked` conditionals are those with `ifret`, and `ret` is a `ret->` form. -/
inductive Expr
  | atom (a : Atom)
  | if2 (marked : Bool) (test thn : Expr)
  | if3 (marked : Bool) (test thn els : Expr)
  | lets (kind : LetKind) (bindings : Bindings) (body : Body)
  | seq (body : Body)
  | lambda (kind : LambdaKind) (params : List Name) (body : Body)
  | call (f : Expr) (args : Args)
  | ret (name : Name) (e : Expr)

/-- The forms of a `begin`, one at least. -/
inductive Body
  | last (e : Expr)
  | cons (e : Expr) (rest : Body)

inductive Args
  | nil
  | cons (e : Expr) (rest : Args)

inductive Bindings
  | nil
  | cons (x : Name) (init : Expr) (rest : Bindings)

end

/-- The names that a `let` binds. -/
def letNames : Bindings → List Name
  | .nil => []
  | .cons x _ rest => x :: letNames rest

def nameList (xs : List Name) : Sexpr := .list (xs.map fun x => .sym x.text)

def ifSymbol (marked : Bool) : Sexpr := .sym (if marked then "ifret" else "if")

mutual

def Expr.toSexpr : Expr → Sexpr
  | .atom a => a.toSexpr
  | .if2 marked test thn => .list [ifSymbol marked, test.toSexpr, thn.toSexpr]
  | .if3 marked test thn els =>
    .list [ifSymbol marked, test.toSexpr, thn.toSexpr, els.toSexpr]
  | .lets kind bindings body =>
    .list [.sym kind.text, bindings.toSexpr, .cons (.sym "begin") body.toSexpr]
  | .seq body => .cons (.sym "begin") body.toSexpr
  | .lambda kind params body =>
    .list [.sym kind.text, nameList params, .cons (.sym "begin") body.toSexpr]
  | .call f args => .cons f.toSexpr args.toSexpr
  | .ret name e => .list [.sym "ret->", .sym name.text, e.toSexpr]

def Body.toSexpr : Body → Sexpr
  | .last e => .list [e.toSexpr]
  | .cons e rest => .cons e.toSexpr rest.toSexpr

def Args.toSexpr : Args → Sexpr
  | .nil => .nil
  | .cons e rest => .cons e.toSexpr rest.toSexpr

def Bindings.toSexpr : Bindings → Sexpr
  | .nil => .nil
  | .cons x init rest => .cons (.list [.sym x.text, init.toSexpr]) rest.toSexpr

end

/-! ## Forms are read in one way -/

theorem Atom.toSexpr_injective {a b : Atom} (h : a.toSexpr = b.toSexpr) : a = b := by
  cases a with
  | name x =>
    cases b with
    | name y =>
      cases x
      cases y
      cases Sexpr.sym.inj h
      rfl
    | int n => cases h
    | str text => cases h
    | bool b => cases h
  | int n => cases b <;> simp_all [Atom.toSexpr]
  | str text => cases b <;> simp_all [Atom.toSexpr]
  | bool c => cases b <;> simp_all [Atom.toSexpr]

/-- No form is a symbol that the passes look for. -/
theorem Expr.toSexpr_ne_sym (e : Expr) {s : String} (hs : s ∈ keywords) :
    e.toSexpr ≠ .sym s := by
  cases e with
  | atom a =>
    cases a with
    | name x =>
      intro h
      exact x.notMem_keywords ((Sexpr.sym.inj h) ▸ hs)
    | int n => exact fun h => by cases h
    | str text => exact fun h => by cases h
    | bool b => exact fun h => by cases h
  | _ => exact fun h => by cases h

/-- The keyword that an S-expression starts with. -/
def Sexpr.keyword? : Sexpr → Option String
  | .cons (.sym s) _ => if s ∈ keywords then some s else none
  | _ => none

def Expr.keyword? : Expr → Option String
  | .if2 marked _ _ | .if3 marked _ _ _ => some (if marked then "ifret" else "if")
  | .lets kind _ _ => some kind.text
  | .seq _ => some "begin"
  | .lambda kind _ _ => some kind.text
  | .ret _ _ => some "ret->"
  | _ => none

theorem Sexpr.keyword?_of_mem {s : String} (hs : s ∈ keywords) (tail : Sexpr) :
    (Sexpr.cons (.sym s) tail).keyword? = some s := if_pos hs

theorem LetKind.text_mem_keywords (k : LetKind) : k.text ∈ keywords :=
  List.mem_append_left _ (List.mem_append_left _ k.text_mem)

theorem LambdaKind.text_mem_keywords (k : LambdaKind) : k.text ∈ keywords :=
  List.mem_append_left _ (List.mem_append_right _ k.text_mem)

theorem Expr.keyword?_toSexpr (e : Expr) : e.toSexpr.keyword? = e.keyword? := by
  cases e with
  | atom a => cases a <;> rfl
  | if2 marked test thn => cases marked <;> exact Sexpr.keyword?_of_mem (by decide) _
  | if3 marked test thn els => cases marked <;> exact Sexpr.keyword?_of_mem (by decide) _
  | lets kind bindings body => exact Sexpr.keyword?_of_mem kind.text_mem_keywords _
  | seq body => exact Sexpr.keyword?_of_mem (by decide) _
  | lambda kind params body => exact Sexpr.keyword?_of_mem kind.text_mem_keywords _
  | ret name e => exact Sexpr.keyword?_of_mem (by decide) _
  | call f args =>
    rw [Expr.toSexpr]
    cases hf : f.toSexpr with
    | sym s =>
      by_cases hs : s ∈ keywords
      · exact absurd hf (f.toSexpr_ne_sym hs)
      · exact if_neg hs
    | _ => rfl

theorem nameList_injective : ∀ {xs ys : List Name}, nameList xs = nameList ys → xs = ys
  | [], [], _ => rfl
  | x :: xs, y :: ys, h => by
    obtain ⟨hx, hxs⟩ := Sexpr.cons.inj h
    cases x
    cases y
    cases Sexpr.sym.inj hx
    rw [nameList_injective hxs]

theorem LetKind.text_injective {k k' : LetKind} (h : k.text = k'.text) : k = k' := by
  cases k <;> cases k' <;> first | rfl | simp [LetKind.text] at h

theorem LambdaKind.text_injective {k k' : LambdaKind} (h : k.text = k'.text) : k = k' := by
  cases k <;> cases k' <;> first | rfl | simp [LambdaKind.text] at h

theorem ifSymbol_injective {b b' : Bool} (h : ifSymbol b = ifSymbol b') : b = b' := by
  cases b <;> cases b' <;> first | rfl | simp [ifSymbol] at h

/-- The kinds of forms that have keywords. -/
inductive Form
  | conditional
  | binding
  | sequence
  | function
  | result

def Form.ofKeyword (s : String) : Form :=
  if s ∈ letslist then .binding
  else if s ∈ lambdaslist then .function
  else if s = "begin" then .sequence
  else if s = "ret->" then .result
  else .conditional

def Expr.form : Expr → Option Form
  | .if2 .. | .if3 .. => some .conditional
  | .lets .. => some .binding
  | .seq .. => some .sequence
  | .lambda .. => some .function
  | .ret .. => some .result
  | .atom .. | .call .. => none

theorem Expr.form_eq (e : Expr) : e.form = e.keyword?.map Form.ofKeyword := by
  cases e with
  | if2 marked => cases marked <;> rfl
  | if3 marked => cases marked <;> rfl
  | lets kind => cases kind <;> rfl
  | lambda kind => cases kind <;> rfl
  | _ => rfl

/-- Forms that start with different keywords are different. -/
theorem Expr.form_of_toSexpr {e e' : Expr} (h : e.toSexpr = e'.toSexpr) : e.form = e'.form := by
  rw [e.form_eq, e'.form_eq, ← e.keyword?_toSexpr, ← e'.keyword?_toSexpr, h]

mutual

theorem Expr.toSexpr_injective : ∀ (e e' : Expr), e.toSexpr = e'.toSexpr → e = e'
  | .atom a, e', h => by
    cases e' with
    | atom b => rw [Atom.toSexpr_injective h]
    | _ => cases a <;> cases h
  | .if2 marked test thn, e', h => by
    have hform := Expr.form_of_toSexpr h
    cases e' with
    | if2 marked' test' thn' =>
      simp only [Expr.toSexpr, Sexpr.list, Sexpr.cons.injEq, and_true] at h
      rw [ifSymbol_injective h.1, Expr.toSexpr_injective _ _ h.2.1,
        Expr.toSexpr_injective _ _ h.2.2]
    | if3 => simp [Expr.toSexpr, Sexpr.list] at h
    | _ => cases hform
  | .if3 marked test thn els, e', h => by
    have hform := Expr.form_of_toSexpr h
    cases e' with
    | if3 marked' test' thn' els' =>
      simp only [Expr.toSexpr, Sexpr.list, Sexpr.cons.injEq, and_true] at h
      rw [ifSymbol_injective h.1, Expr.toSexpr_injective _ _ h.2.1,
        Expr.toSexpr_injective _ _ h.2.2.1, Expr.toSexpr_injective _ _ h.2.2.2]
    | if2 => simp [Expr.toSexpr, Sexpr.list] at h
    | _ => cases hform
  | .lets kind bindings body, e', h => by
    have hform := Expr.form_of_toSexpr h
    cases e' with
    | lets kind' bindings' body' =>
      simp only [Expr.toSexpr, Sexpr.list, Sexpr.cons.injEq, Sexpr.sym.injEq, and_true,
        true_and] at h
      rw [LetKind.text_injective h.1, Bindings.toSexpr_injective _ _ h.2.1,
        Body.toSexpr_injective _ _ h.2.2]
    | _ => cases hform
  | .seq body, e', h => by
    have hform := Expr.form_of_toSexpr h
    cases e' with
    | seq body' =>
      simp only [Expr.toSexpr, Sexpr.cons.injEq, true_and] at h
      rw [Body.toSexpr_injective _ _ h]
    | _ => cases hform
  | .lambda kind params body, e', h => by
    have hform := Expr.form_of_toSexpr h
    cases e' with
    | lambda kind' params' body' =>
      simp only [Expr.toSexpr, Sexpr.list, Sexpr.cons.injEq, Sexpr.sym.injEq, and_true,
        true_and] at h
      rw [LambdaKind.text_injective h.1, nameList_injective h.2.1,
        Body.toSexpr_injective _ _ h.2.2]
    | _ => cases hform
  | .call f args, e', h => by
    have hform := Expr.form_of_toSexpr h
    cases e' with
    | call f' args' =>
      simp only [Expr.toSexpr, Sexpr.cons.injEq] at h
      rw [Expr.toSexpr_injective _ _ h.1, Args.toSexpr_injective _ _ h.2]
    | atom a => cases a <;> cases h
    | _ => cases hform
  | .ret name e, e', h => by
    have hform := Expr.form_of_toSexpr h
    cases e' with
    | ret name' e' =>
      simp only [Expr.toSexpr, Sexpr.list, Sexpr.cons.injEq, Sexpr.sym.injEq, and_true,
        true_and] at h
      cases name
      cases name'
      cases h.1
      rw [Expr.toSexpr_injective _ _ h.2]
    | _ => cases hform

theorem Body.toSexpr_injective : ∀ (b b' : Body), b.toSexpr = b'.toSexpr → b = b'
  | .last e, .last e', h => by rw [Expr.toSexpr_injective e e' (Sexpr.cons.inj h).1]
  | .last e, .cons e' rest', h => by cases rest' <;> cases (Sexpr.cons.inj h).2
  | .cons e rest, .last e', h => by cases rest <;> cases (Sexpr.cons.inj h).2
  | .cons e rest, .cons e' rest', h => by
    rw [Expr.toSexpr_injective e e' (Sexpr.cons.inj h).1,
      Body.toSexpr_injective rest rest' (Sexpr.cons.inj h).2]

theorem Args.toSexpr_injective : ∀ (as as' : Args), as.toSexpr = as'.toSexpr → as = as'
  | .nil, .nil, _ => rfl
  | .nil, .cons _ _, h => by cases h
  | .cons _ _, .nil, h => by cases h
  | .cons e rest, .cons e' rest', h => by
    rw [Expr.toSexpr_injective e e' (Sexpr.cons.inj h).1,
      Args.toSexpr_injective rest rest' (Sexpr.cons.inj h).2]

theorem Bindings.toSexpr_injective :
    ∀ (bs bs' : Bindings), bs.toSexpr = bs'.toSexpr → bs = bs'
  | .nil, .nil, _ => rfl
  | .nil, .cons _ _ _, h => by cases h
  | .cons _ _ _, .nil, h => by cases h
  | .cons x init rest, .cons x' init' rest', h => by
    simp only [Bindings.toSexpr, Sexpr.list, Sexpr.cons.injEq, Sexpr.sym.injEq, and_true] at h
    cases x
    cases x'
    cases h.1.1
    rw [Expr.toSexpr_injective init init' h.1.2, Bindings.toSexpr_injective rest rest' h.2]

end

end Extempore.XtlangForms
