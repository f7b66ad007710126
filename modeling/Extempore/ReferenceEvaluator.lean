import Extempore.SchemeData

/-!
# A reference evaluator

The evaluator says what an expression means, without registers and a stack: operands are
evaluated from left to right, and a variable is looked up in the frames of the environment
that the expression stands in. `define` returns the name and `set!` the value; a conditional
without a matching part has the empty list as its value. `else` is a variable, which the
initial environment binds to `#t`.
-/

namespace Extempore.ReferenceEvaluator
open SchemeData

/-! ## Syntax -/

def keywords : List String :=
  ["lambda", "quote", "define", "if", "begin", "set!", "let", "let*", "letrec", "cond", "delay",
    "and", "or", "cons-stream", "macro", "case"]

/-- The parameters of a closure: a list of names, and a name for the rest of the arguments. -/
structure Formals where
  names : List String
  rest : Option String
  deriving DecidableEq, Repr

def Formals.code (f : Formals) : Val :=
  .listStar ((f.rest.map Val.symbol).getD .nil) (f.names.map .symbol)

/-- A form that begins with a keyword. -/
def form (keyword : String) (rest : Val) : Val := .pair (.symbol keyword) rest

/-- The code of a closure. -/
def closureCode (formals : Formals) (body : List Val) : Val := .pair formals.code (.list body)

abbrev Binding := String × Val

def bindingsCode (bs : List Binding) : Val := .list (bs.map fun b => .list [.symbol b.1, b.2])

/-- A clause of `cond`: a test and what is evaluated if it is true. -/
abbrev Clause := Val × List Val

def clausesCode (cs : List Clause) : Val := .list (cs.map fun c => .pair c.1 (.list c.2))

/-- A clause of `case`: one or more data, and what is evaluated for one of them. -/
structure CaseClause where
  data : List Val
  data_ne_nil : data ≠ []
  body : List Val

def CaseClause.code (c : CaseClause) : Val := .pair (.list c.data) (.list c.body)

/-- The clauses of `case`, with those of an `else` at the end. -/
def caseCode (cs : List CaseClause) (last : List Val) : Val := .listStar (.list last) (cs.map (·.code))

def elseCode (body : List Val) : Val := .pair (.symbol "else") (.list body)

/-! ## Evaluation -/

/-- Constants evaluate to themselves. -/
def IsConstant : Val → Prop
  | .symbol _ => False
  | .pair _ _ => False
  | _ => True

/-- The frame of a call. -/
def Formals.bind (f : Formals) (vs : List Val) : Option Bindings :=
  match f.rest with
  | none => if vs.length = f.names.length then some (bindAll (fun _ => none) f.names vs) else none
  | some r =>
    if f.names.length ≤ vs.length then
      some (Function.update (bindAll (fun _ => none) f.names vs) r
        (some (.list (vs.drop f.names.length))))
    else none

/-- What is evaluated: an expression, several expressions to a list of their values, a body,
or the rest of an `and`, an `or` or a `cond`. -/
inductive Job where
  | expr (e : Val)
  | all (es : List Val)
  | body (es : List Val)
  | conj (es : List Val)
  | disj (es : List Val)
  | clauses (cs : List Clause)

/-- The places of an evaluation that a condition may be about: a definition by an expression,
and a named `let` by its name and variables. -/
inductive Point where
  | define (e : Val)
  | namedLet (name : String) (names : List String)

/-- `Eval ok eqv job env s v s'` says that the job has the value `v` in the environment and
takes the frames from `s` to `s'`, where `ok` holds at every point of the evaluation. -/
inductive Eval (ok : Point → Prop) (eqv : Val → Val → Bool) : Job → Env → Frames → Val → Frames → Prop
  | const {e : Val} {env : Env} {s : Frames} : IsConstant e → Eval ok eqv (.expr e) env s e s
  | var {x : String} {env : Env} {s : Frames} {v : Val} :
      lookup s x env = some v → Eval ok eqv (.expr (.symbol x)) env s v s
  | quote {d : Val} {env : Env} {s : Frames} :
      Eval ok eqv (.expr (form "quote" (.list [d]))) env s d s
  | lambda {formals : Formals} {body : List Val} {env : Env} {s : Frames} :
      Eval ok eqv (.expr (form "lambda" (closureCode formals body))) env s
        (.closure .tClosure (closureCode formals body) env) s
  | app {f : Val} {args vs body : List Val} {formals : Formals} {env env' : Env}
      {s s₁ s₂ s₃ : Frames} {b : Bindings} {v : Val} :
      (∀ x ∈ keywords, f ≠ .symbol x) →
      Eval ok eqv (.expr f) env s (.closure .tClosure (closureCode formals body) env') s₁ →
      Eval ok eqv (.all args) env s₁ (.list vs) s₂ → formals.bind vs = some b →
      Eval ok eqv (.body body) (s₂.length :: env') (s₂ ++ [b]) v s₃ →
      Eval ok eqv (.expr (.list (f :: args))) env s v s₃
  | define {x : String} {e v : Val} {a : ℕ} {env : Env} {s s₁ : Frames} :
      ok (.define e) → Eval ok eqv (.expr e) (a :: env) s v s₁ →
      Eval ok eqv (.expr (form "define" (.list [.symbol x, e]))) (a :: env) s (.symbol x)
        (assign s₁ a x v)
  | defineProc {x : String} {formals : Formals} {body : List Val} {a : ℕ} {env : Env} {s : Frames} :
      Eval ok eqv (.expr (form "define" (.pair (.pair (.symbol x) formals.code) (.list body))))
        (a :: env) s (.symbol x)
        (assign s a x (.closure .tClosure (closureCode formals body) (a :: env)))
  | set {x : String} {e v : Val} {a : ℕ} {env : Env} {s s₁ : Frames} :
      Eval ok eqv (.expr e) env s v s₁ → owner s₁ x env = some a →
      Eval ok eqv (.expr (form "set!" (.list [.symbol x, e]))) env s v (assign s₁ a x v)
  | begin {es : List Val} {env : Env} {s s₁ : Frames} {v : Val} :
      Eval ok eqv (.body es) env s v s₁ → Eval ok eqv (.expr (form "begin" (.list es))) env s v s₁
  | ifTrue {c t v w : Val} {e : List Val} {env : Env} {s s₁ s₂ : Frames} :
      Eval ok eqv (.expr c) env s v s₁ → isTrue v = true → Eval ok eqv (.expr t) env s₁ w s₂ →
      Eval ok eqv (.expr (form "if" (.list (c :: t :: e)))) env s w s₂
  | ifFalse {c t e v w : Val} {env : Env} {s s₁ s₂ : Frames} :
      Eval ok eqv (.expr c) env s v s₁ → isTrue v = false → Eval ok eqv (.expr e) env s₁ w s₂ →
      Eval ok eqv (.expr (form "if" (.list [c, t, e]))) env s w s₂
  | ifNone {c t v : Val} {env : Env} {s s₁ : Frames} :
      Eval ok eqv (.expr c) env s v s₁ → isTrue v = false →
      Eval ok eqv (.expr (form "if" (.list [c, t]))) env s .nil s₁
  | let_ {bs : List Binding} {vs body : List Val} {env : Env} {s s₁ s₂ : Frames} {v : Val} :
      Eval ok eqv (.all (bs.map Prod.snd)) env s (.list vs) s₁ →
      Eval ok eqv (.body body) (s₁.length :: env)
        (s₁ ++ [bindAll (fun _ => none) (bs.map Prod.fst) vs]) v s₂ →
      Eval ok eqv (.expr (form "let" (.pair (bindingsCode bs) (.list body)))) env s v s₂
  -- the variables are bound inside the scope of the name
  | namedLet {name : String} {bs : List Binding} {vs body : List Val} {env : Env}
      {s s₁ s₂ : Frames} {v : Val} :
      ok (.namedLet name (bs.map Prod.fst)) →
      Eval ok eqv (.all (bs.map Prod.snd)) env s (.list vs) s₁ →
      Eval ok eqv (.body body) (s₁.length :: env)
        (s₁ ++ [bindAll (Function.update (fun _ => none) name (some (.closure .tClosure
          (closureCode ⟨bs.map Prod.fst, none⟩ body) (s₁.length :: env)))) (bs.map Prod.fst) vs])
        v s₂ →
      Eval ok eqv (.expr (form "let" (.pair (.symbol name) (.pair (bindingsCode bs) (.list body)))))
        env s v s₂
  | letrec {bs : List Binding} {vs body : List Val} {env : Env} {s s₁ s₂ : Frames} {v : Val} :
      Eval ok eqv (.all (bs.map Prod.snd)) (s.length :: env) (s ++ [fun _ => none]) (.list vs) s₁ →
      Eval ok eqv (.body body) (s.length :: env)
        (s₁.modify s.length fun b => bindAll b (bs.map Prod.fst) vs) v s₂ →
      Eval ok eqv (.expr (form "letrec" (.pair (bindingsCode bs) (.list body)))) env s v s₂
  | andNil {env : Env} {s : Frames} : Eval ok eqv (.expr (form "and" .nil)) env s (.bool true) s
  | and {e v : Val} {es : List Val} {env : Env} {s s₁ : Frames} :
      Eval ok eqv (.conj (e :: es)) env s v s₁ →
      Eval ok eqv (.expr (form "and" (.list (e :: es)))) env s v s₁
  | orNil {env : Env} {s : Frames} : Eval ok eqv (.expr (form "or" .nil)) env s (.bool false) s
  | or {e v : Val} {es : List Val} {env : Env} {s s₁ : Frames} :
      Eval ok eqv (.disj (e :: es)) env s v s₁ →
      Eval ok eqv (.expr (form "or" (.list (e :: es)))) env s v s₁
  | cond {c : Clause} {cs : List Clause} {env : Env} {s s₁ : Frames} {v : Val} :
      Eval ok eqv (.clauses (c :: cs)) env s v s₁ →
      Eval ok eqv (.expr (form "cond" (clausesCode (c :: cs)))) env s v s₁
  | caseHit {key v w : Val} {before after : List CaseClause} {c : CaseClause} {last : List Val}
      {env : Env} {s s₁ s₂ : Frames} :
      Eval ok eqv (.expr key) env s v s₁ → (∀ b ∈ before, ∀ d ∈ b.data, eqv d v = false) →
      (∃ d ∈ c.data, eqv d v = true) → Eval ok eqv (.body c.body) env s₁ w s₂ →
      Eval ok eqv (.expr (form "case" (.pair key (caseCode (before ++ c :: after) last)))) env s w s₂
  | caseElse {key v t w : Val} {cs : List CaseClause} {body : List Val} {env : Env}
      {s s₁ s₂ s₃ : Frames} :
      Eval ok eqv (.expr key) env s v s₁ → (∀ c ∈ cs, ∀ d ∈ c.data, eqv d v = false) →
      Eval ok eqv (.expr (.symbol "else")) env s₁ t s₂ → isTrue t = true →
      Eval ok eqv (.body body) env s₂ w s₃ →
      Eval ok eqv (.expr (form "case" (.pair key (caseCode cs [elseCode body])))) env s w s₃
  | caseElseFalse {key v t : Val} {cs : List CaseClause} {body : List Val} {env : Env}
      {s s₁ s₂ : Frames} :
      Eval ok eqv (.expr key) env s v s₁ → (∀ c ∈ cs, ∀ d ∈ c.data, eqv d v = false) →
      Eval ok eqv (.expr (.symbol "else")) env s₁ t s₂ → isTrue t = false →
      Eval ok eqv (.expr (form "case" (.pair key (caseCode cs [elseCode body])))) env s .nil s₂
  | caseMiss {key v : Val} {cs : List CaseClause} {env : Env} {s s₁ : Frames} :
      Eval ok eqv (.expr key) env s v s₁ → (∀ c ∈ cs, ∀ d ∈ c.data, eqv d v = false) →
      Eval ok eqv (.expr (form "case" (.pair key (caseCode cs [])))) env s .nil s₁
  | allNil {env : Env} {s : Frames} : Eval ok eqv (.all []) env s .nil s
  | allCons {e v : Val} {es vs : List Val} {env : Env} {s s₁ s₂ : Frames} :
      Eval ok eqv (.expr e) env s v s₁ → Eval ok eqv (.all es) env s₁ (.list vs) s₂ →
      Eval ok eqv (.all (e :: es)) env s (.list (v :: vs)) s₂
  | bodyNil {env : Env} {s : Frames} : Eval ok eqv (.body []) env s .nil s
  | bodyLast {e v : Val} {env : Env} {s s₁ : Frames} :
      Eval ok eqv (.expr e) env s v s₁ → Eval ok eqv (.body [e]) env s v s₁
  | bodyCons {e e' v w : Val} {es : List Val} {env : Env} {s s₁ s₂ : Frames} :
      Eval ok eqv (.expr e) env s v s₁ → Eval ok eqv (.body (e' :: es)) env s₁ w s₂ →
      Eval ok eqv (.body (e :: e' :: es)) env s w s₂
  | conjLast {e v : Val} {env : Env} {s s₁ : Frames} :
      Eval ok eqv (.expr e) env s v s₁ → Eval ok eqv (.conj [e]) env s v s₁
  | conjFalse {e e' v : Val} {es : List Val} {env : Env} {s s₁ : Frames} :
      Eval ok eqv (.expr e) env s v s₁ → isTrue v = false →
      Eval ok eqv (.conj (e :: e' :: es)) env s v s₁
  | conjTrue {e e' v w : Val} {es : List Val} {env : Env} {s s₁ s₂ : Frames} :
      Eval ok eqv (.expr e) env s v s₁ → isTrue v = true →
      Eval ok eqv (.conj (e' :: es)) env s₁ w s₂ → Eval ok eqv (.conj (e :: e' :: es)) env s w s₂
  | disjLast {e v : Val} {env : Env} {s s₁ : Frames} :
      Eval ok eqv (.expr e) env s v s₁ → Eval ok eqv (.disj [e]) env s v s₁
  | disjTrue {e e' v : Val} {es : List Val} {env : Env} {s s₁ : Frames} :
      Eval ok eqv (.expr e) env s v s₁ → isTrue v = true →
      Eval ok eqv (.disj (e :: e' :: es)) env s v s₁
  | disjFalse {e e' v w : Val} {es : List Val} {env : Env} {s s₁ s₂ : Frames} :
      Eval ok eqv (.expr e) env s v s₁ → isTrue v = false →
      Eval ok eqv (.disj (e' :: es)) env s₁ w s₂ → Eval ok eqv (.disj (e :: e' :: es)) env s w s₂
  | clauseValue {test v : Val} {cs : List Clause} {env : Env} {s s₁ : Frames} :
      Eval ok eqv (.expr test) env s v s₁ → isTrue v = true →
      Eval ok eqv (.clauses ((test, []) :: cs)) env s v s₁
  | clauseTrue {test e v w : Val} {body : List Val} {cs : List Clause} {env : Env}
      {s s₁ s₂ : Frames} :
      Eval ok eqv (.expr test) env s v s₁ → isTrue v = true → e ≠ .symbol "=>" →
      Eval ok eqv (.body (e :: body)) env s₁ w s₂ →
      Eval ok eqv (.clauses ((test, e :: body) :: cs)) env s w s₂
  | clauseLast {test v : Val} {body : List Val} {env : Env} {s s₁ : Frames} :
      Eval ok eqv (.expr test) env s v s₁ → isTrue v = false →
      Eval ok eqv (.clauses [(test, body)]) env s .nil s₁
  | clauseFalse {test v w : Val} {body : List Val} {c : Clause} {cs : List Clause} {env : Env}
      {s s₁ s₂ : Frames} :
      Eval ok eqv (.expr test) env s v s₁ → isTrue v = false →
      Eval ok eqv (.clauses (c :: cs)) env s₁ w s₂ →
      Eval ok eqv (.clauses ((test, body) :: c :: cs)) env s w s₂

/-- The evaluator without a condition. -/
abbrev Evaluates (eqv : Val → Val → Bool) (e : Val) (env : Env) (s : Frames) (v : Val)
    (s' : Frames) : Prop :=
  Eval (fun _ => True) eqv (.expr e) env s v s'

end Extempore.ReferenceEvaluator
