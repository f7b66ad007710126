import Extempore.CallTrees
import Extempore.FirstTransform
import Mathlib.Logic.Function.Basic

/-!
# Expressions of the surface language

What is written with variables, constants, calls, `begin`, `if`, `let`, the logical connectives,
`cond`, comparisons and arithmetic, and what it means: operands are evaluated once and from left
to right, connectives stop at the first operand that decides, and arithmetic associates to the
left. Whatever a function does is a call.
-/

namespace Extempore.SurfaceExpressions

open XtlangForms SurfaceForms FirstTransform CallTrees

/-! ## Syntax -/

/-- An operator that the pass gives two operands. -/
structure ArithOp where
  text : String
  mem : text ∈ mathbinaryaritylist
deriving DecidableEq

inductive Compare
  | gt
  | lt
  | eq
deriving DecidableEq

def Compare.text : Compare → String
  | .gt => ">"
  | .lt => "<"
  | .eq => "="

/-- The comparisons that are an `or` of a strict one and of `=`. -/
inductive OrEqual
  | gteq
  | lteq
deriving DecidableEq

def OrEqual.text : OrEqual → String
  | .gteq => ">="
  | .lteq => "<="

def OrEqual.strict : OrEqual → Compare
  | .gteq => .gt
  | .lteq => .lt

mutual

inductive Surface
  | var (x : Name)
  | int (n : ℤ)
  | str (text : String)
  | bool (b : Bool)
  | call (f : Name) (args : SArgs)
  | arith (op : ArithOp) (a b : Surface) (rest : SArgs)
  | compare (op : Compare) (a b : Surface)
  | orEqual (op : OrEqual) (a b : Surface)
  | if2 (test thn : Surface)
  | if3 (test thn els : Surface)
  | lets (kind : LetKind) (bindings : SBindings) (body : SBody)
  | seq (body : SBody)
  | and (operands : SBody)
  | or (operands : SBody)
  | not (e : Surface)
  | cond (clauses : Clauses)

inductive SArgs
  | nil
  | cons (e : Surface) (rest : SArgs)

/-- Forms, one at least. -/
inductive SBody
  | last (e : Surface)
  | cons (e : Surface) (rest : SBody)

inductive SBindings
  | nil
  | cons (x : Name) (init : Surface) (rest : SBindings)

/-- Clauses, one at least, with `else` behind them or without. -/
inductive Clauses
  | last (test : Surface) (body : SBody)
  | lastElse (test : Surface) (body els : SBody)
  | cons (test : Surface) (body : SBody) (rest : Clauses)

end

mutual

def Surface.toSexpr : Surface → Sexpr
  | .var x => .sym x.text
  | .int n => .int n
  | .str text => .str text
  | .bool b => .bool b
  | .call f args => .cons (.sym f.text) args.toSexpr
  | .arith op a b rest => .cons (.sym op.text) (.cons a.toSexpr (.cons b.toSexpr rest.toSexpr))
  | .compare op a b => symList op.text [a.toSexpr, b.toSexpr]
  | .orEqual op a b => symList op.text [a.toSexpr, b.toSexpr]
  | .if2 test thn => symList "if" [test.toSexpr, thn.toSexpr]
  | .if3 test thn els => symList "if" [test.toSexpr, thn.toSexpr, els.toSexpr]
  | .lets kind bindings body => .cons (.sym kind.text) (.cons bindings.toSexpr body.toSexpr)
  | .seq body => .cons (.sym "begin") body.toSexpr
  | .and operands => .cons (.sym "and") operands.toSexpr
  | .or operands => .cons (.sym "or") operands.toSexpr
  | .not e => symList "not" [e.toSexpr]
  | .cond clauses => .cons (.sym "cond") clauses.toSexpr

def SArgs.toSexpr : SArgs → Sexpr
  | .nil => .nil
  | .cons e rest => .cons e.toSexpr rest.toSexpr

def SBody.toSexpr : SBody → Sexpr
  | .last e => .list [e.toSexpr]
  | .cons e rest => .cons e.toSexpr rest.toSexpr

def SBindings.toSexpr : SBindings → Sexpr
  | .nil => .nil
  | .cons x init rest => .cons (.list [.sym x.text, init.toSexpr]) rest.toSexpr

def Clauses.toSexpr : Clauses → Sexpr
  | .last test body => .list [.cons test.toSexpr body.toSexpr]
  | .lastElse test body els =>
    .list [.cons test.toSexpr body.toSexpr, .cons (.sym "else") els.toSexpr]
  | .cons test body rest => .cons (.cons test.toSexpr body.toSexpr) rest.toSexpr

end

/-! ## Meaning -/

/-- Values, of which only `#f` is false. -/
structure Values (V : Type) where
  isTrue : V → Bool
  ofBool : Bool → V
  ofInt : ℤ → V
  ofStr : String → V
  arith : ArithOp → V → V → V
  compare : Compare → V → V → Bool
  /-- The value of a variable that has none yet, and of an `if` without the branch. -/
  unspecified : V
  isTrue_ofBool : ∀ b, isTrue (ofBool b) = b
  eq_of_isTrue_eq_false : ∀ v, isTrue v = false → v = ofBool false

/-- A call of a function with these arguments. -/
abbrev Call (V : Type) : Type := Name × List V

abbrev Env (V : Type) : Type := Name → V

/-- A computation that calls functions, which may return anything. -/
abbrev Effect (V A : Type) : Type := CallTree (Call V) V A

/-- A `let` binds all its names before it evaluates the first initialiser. -/
def bindNames {V : Type} (names : List Name) (v : V) (env : Env V) : Env V := fun x =>
  if x ∈ names then v else env x

def SBindings.names : SBindings → List Name
  | .nil => []
  | .cons x _ rest => x :: SBindings.names rest

section Meaning

variable {V : Type} (values : Values V)

mutual

def eval (env : Env V) : Surface → Effect V V
  | .var x => .done (env x)
  | .int n => .done (values.ofInt n)
  | .str text => .done (values.ofStr text)
  | .bool b => .done (values.ofBool b)
  | .call f args => (evalArgs env args).bind fun vs => .call (f, vs) .done
  | .arith op a b rest =>
    (eval env a).bind fun v => (eval env b).bind fun w =>
      evalOperands env op (values.arith op v w) rest
  | .compare op a b =>
    (eval env a).bind fun v => (eval env b).bind fun w =>
      .done (values.ofBool (values.compare op v w))
  | .orEqual op a b =>
    (eval env a).bind fun v => (eval env b).bind fun w =>
      .done (values.ofBool (values.compare op.strict v w || values.compare .eq v w))
  | .if2 test thn =>
    (eval env test).bind fun v =>
      if values.isTrue v then eval env thn else .done values.unspecified
  | .if3 test thn els =>
    (eval env test).bind fun v => if values.isTrue v then eval env thn else eval env els
  | .lets _ bindings body =>
    (evalBindings (bindNames bindings.names values.unspecified env) bindings).bind fun env =>
      evalBody env body
  | .seq body => evalBody env body
  | .and operands => evalAnd env operands
  | .or operands => evalOr env operands
  | .not e => (eval env e).bind fun v => .done (values.ofBool (!values.isTrue v))
  | .cond clauses => evalClauses env clauses

def evalArgs (env : Env V) : SArgs → Effect V (List V)
  | .nil => .done []
  | .cons e rest => (eval env e).bind fun v => (evalArgs env rest).bind fun vs => .done (v :: vs)

/-- The operands of an operator behind the first two, whose value is `v`. -/
def evalOperands (env : Env V) (op : ArithOp) (v : V) : SArgs → Effect V V
  | .nil => .done v
  | .cons e rest => (eval env e).bind fun w => evalOperands env op (values.arith op v w) rest

def evalBody (env : Env V) : SBody → Effect V V
  | .last e => eval env e
  | .cons e rest => (eval env e).bind fun _ => evalBody env rest

def evalAnd (env : Env V) : SBody → Effect V V
  | .last e => eval env e
  | .cons e rest => (eval env e).bind fun v => if values.isTrue v then evalAnd env rest else .done v

def evalOr (env : Env V) : SBody → Effect V V
  | .last e => eval env e
  | .cons e rest => (eval env e).bind fun v => if values.isTrue v then .done v else evalOr env rest

/-- The environment behind the initialisers. -/
def evalBindings (env : Env V) : SBindings → Effect V (Env V)
  | .nil => .done env
  | .cons x init rest =>
    (eval env init).bind fun v => evalBindings (Function.update env x v) rest

def evalClauses (env : Env V) : Clauses → Effect V V
  | .last test body =>
    (eval env test).bind fun v =>
      if values.isTrue v then evalBody env body else .done values.unspecified
  | .lastElse test body els =>
    (eval env test).bind fun v =>
      if values.isTrue v then evalBody env body else evalBody env els
  | .cons test body rest =>
    (eval env test).bind fun v =>
      if values.isTrue v then evalBody env body else evalClauses env rest

end

end Meaning

end Extempore.SurfaceExpressions
