import Mathlib.Data.Nat.Notation

/-!
# Let forms and their meaning

The programs are those that closure conversion hands to the code generator: a lambda is the
initialiser of a let binding and lists the variables it captures. A let form is recursive and
sequential: all its variables exist from the start, and the initialisers are evaluated in order.
-/

namespace Extempore.LetForms

abbrev Name := String

/-- The address of a variable. -/
abbrev Loc := ℕ

inductive Op where
  | add | sub | mul | less | equal
  deriving DecidableEq, Repr

def Op.apply : Op → BitVec 64 → BitVec 64 → BitVec 64
  | .add, a, b => a + b
  | .sub, a, b => a - b
  | .mul, a, b => a * b
  | .less, a, b => if a.slt b then 1 else 0
  | .equal, a, b => if a = b then 1 else 0

mutual

inductive Expr where
  | num (n : BitVec 64)
  | var (x : Name)
  | op (o : Op) (a b : Expr)
  | set (x : Name) (e : Expr)
  | begin (a b : Expr)
  | ite (c a b : Expr)
  | apply (f : Name) (args : Exprs)
  | makeEnv (bs : Bindings) (body : Expr)

inductive Exprs where
  | nil
  | cons (e : Expr) (es : Exprs)

/-- The bindings of a let form: to an expression, or to a lambda with the variables it
captures. -/
inductive Bindings where
  | nil
  | expr (x : Name) (e : Expr) (bs : Bindings)
  | closure (x : Name) (env args : List Name) (code : Expr) (bs : Bindings)

end

def Bindings.names : Bindings → List Name
  | .nil => []
  | .expr x _ bs | .closure x _ _ _ bs => x :: bs.names

/-! ## Well-formed programs -/

mutual

/-- Every name is bound, and no binder of a function shadows another one in scope there, as the
renaming of shadowing variables has it. A lambda knows its captured variables and arguments. -/
def Wf (Γ : List Name) : Expr → Prop
  | .num _ => True
  | .var x => x ∈ Γ
  | .op _ a b | .begin a b => Wf Γ a ∧ Wf Γ b
  | .set x e => x ∈ Γ ∧ Wf Γ e
  | .ite c a b => Wf Γ c ∧ Wf Γ a ∧ Wf Γ b
  | .apply f args => f ∈ Γ ∧ WfArgs Γ args
  | .makeEnv bs body => bs.names.Nodup ∧ (∀ x ∈ bs.names, x ∉ Γ) ∧
      WfBindings (bs.names ++ Γ) bs ∧ Wf (bs.names ++ Γ) body

def WfArgs (Γ : List Name) : Exprs → Prop
  | .nil => True
  | .cons e es => Wf Γ e ∧ WfArgs Γ es

def WfBindings (Γ : List Name) : Bindings → Prop
  | .nil => True
  | .expr _ e bs => Wf Γ e ∧ WfBindings Γ bs
  | .closure _ env args code bs => (∀ x ∈ env, x ∈ Γ) ∧ args.Nodup ∧ (∀ x ∈ args, x ∉ env) ∧
      Wf (args ++ env) code ∧ WfBindings Γ bs

end

/-- A closed program. -/
structure Program where
  main : Expr
  wf : Wf [] main

/-! ## Memory -/

/-- A number, or the pointer to a closure. -/
inductive Value where
  | num (n : BitVec 64)
  | closure (k : ℕ)
  deriving DecidableEq, Repr

/-- The initialiser of a variable has been evaluated. -/
structure Event where
  name : Name
  value : Value
  deriving DecidableEq, Repr

/-- The variables, the closures, and the initialisations so far. -/
structure Heap (κ : Type) where
  cells : List (Option Value)
  closures : List κ
  log : List Event

namespace Heap

variable {κ : Type}

def empty : Heap κ := ⟨[], [], []⟩

def read (h : Heap κ) (l : Loc) : Option Value := h.cells[l]?.join

def write (h : Heap κ) (l : Loc) (v : Value) : Heap κ := { h with cells := h.cells.set l (some v) }

def alloc (h : Heap κ) (vs : List (Option Value)) : Heap κ := { h with cells := h.cells ++ vs }

def newClosure (h : Heap κ) (c : κ) : Heap κ := { h with closures := h.closures ++ [c] }

def modifyClosure (h : Heap κ) (k : ℕ) (f : κ → κ) : Heap κ :=
  { h with closures := h.closures.modify k f }

def record (h : Heap κ) (x : Name) (v : Value) : Heap κ := { h with log := h.log ++ [⟨x, v⟩] }

end Heap

/-- Why a run goes no further: it was cut off, it has no meaning, or an environment slot was
needed that has not been filled. -/
inductive Stop where
  | timeout | undefined | early
  deriving DecidableEq, Repr

inductive Outcome (κ α : Type) where
  | ok (a : α) (h : Heap κ)
  | stop (r : Stop) (log : List Event)

namespace Outcome

variable {κ α β : Type}

def bind : Outcome κ α → (α → Heap κ → Outcome κ β) → Outcome κ β
  | .ok a h, f => f a h
  | .stop r log, _ => .stop r log

@[simp] theorem ok_bind (a : α) (h : Heap κ) (f : α → Heap κ → Outcome κ β) :
    (ok a h).bind f = f a h := rfl

@[simp] theorem stop_bind (r : Stop) (log : List Event) (f : α → Heap κ → Outcome κ β) :
    (stop r log).bind f = .stop r log := rfl

theorem bind_assoc {γ : Type} (x : Outcome κ α) (f : α → Heap κ → Outcome κ β)
    (g : β → Heap κ → Outcome κ γ) :
    (x.bind f).bind g = x.bind fun a h => (f a h).bind g := by
  cases x with
  | ok a h => rfl
  | stop r log => rfl

/-- What can be seen of a run: the initialisations in order, and the value or why there is none. -/
def observe : Outcome κ α → List Event × Except Stop α
  | .ok a h => (h.log, .ok a)
  | .stop r log => (log, .error r)

def isEarly : Outcome κ α → Bool
  | .stop .early _ => true
  | _ => false

end Outcome

/-! ## The meaning of a program -/

abbrev Scope := List (Name × Loc)

/-- A lambda with the scope it was evaluated in. It is complete when every initialiser of its let
form has been evaluated. -/
structure Closure where
  env : List Name
  args : List Name
  code : Expr
  scope : Scope
  complete : Bool

/-- The closures of a let form whose initialisers have all been evaluated. -/
def Heap.complete (h : Heap Closure) (ks : List ℕ) : Heap Closure :=
  ks.foldr (fun k h => h.modifyClosure k fun c => { c with complete := true }) h

/-- What calling a closure does. -/
abbrev Call (κ : Type) := ℕ → List Value → Heap κ → Outcome κ Value

def evalVar (x : Name) (ρ : Scope) (h : Heap Closure) : Outcome Closure Value :=
  match (ρ.lookup x).bind h.read with
  | some v => .ok v h
  | none => .stop .undefined h.log

def evalOp (o : Op) (a b : Value) (h : Heap Closure) : Outcome Closure Value :=
  match a, b with
  | .num m, .num n => .ok (.num (o.apply m n)) h
  | _, _ => .stop .undefined h.log

/-- Sets a variable; the value is that of the expression. -/
def assign (x : Name) (ρ : Scope) (v : Value) (h : Heap Closure) : Outcome Closure Value :=
  match ρ.lookup x with
  | some l => .ok v (h.write l v)
  | none => .stop .undefined h.log

/-- The value of the initialiser of `x` is known. -/
def initialise (x : Name) (ρ : Scope) (v : Value) (h : Heap Closure) : Outcome Closure Value :=
  assign x ρ v (h.record x v)

def applyValue (call : Call Closure) (f : Value) (vs : List Value) (h : Heap Closure) :
    Outcome Closure Value :=
  match f with
  | .closure k => call k vs h
  | .num _ => .stop .undefined h.log

mutual

def eval (call : Call Closure) : Expr → Scope → Heap Closure → Outcome Closure Value
  | .num n, _, h => .ok (.num n) h
  | .var x, ρ, h => evalVar x ρ h
  | .op o a b, ρ, h =>
      (eval call a ρ h).bind fun u h => (eval call b ρ h).bind fun v h => evalOp o u v h
  | .set x e, ρ, h => (eval call e ρ h).bind fun v h => assign x ρ v h
  | .begin a b, ρ, h => (eval call a ρ h).bind fun _ h => eval call b ρ h
  | .ite c a b, ρ, h => (eval call c ρ h).bind fun v h =>
      match v with
      | .num n => if n = 0 then eval call b ρ h else eval call a ρ h
      | .closure _ => .stop .undefined h.log
  | .apply f args, ρ, h => (evalArgs call args ρ h).bind fun vs h =>
      (evalVar f ρ h).bind fun g h => applyValue call g vs h
  | .makeEnv bs body, ρ, h =>
      (evalBindings call bs (bs.names.zipIdx h.cells.length ++ ρ)
        (h.alloc (bs.names.map fun _ => none))).bind fun ks h' =>
          eval call body (bs.names.zipIdx h.cells.length ++ ρ) (h'.complete ks)

def evalArgs (call : Call Closure) : Exprs → Scope → Heap Closure → Outcome Closure (List Value)
  | .nil, _, h => .ok [] h
  | .cons e es, ρ, h => (eval call e ρ h).bind fun v h =>
      (evalArgs call es ρ h).bind fun vs h => .ok (v :: vs) h

/-- Evaluates the initialisers in order, each once, and gives the closures made. -/
def evalBindings (call : Call Closure) :
    Bindings → Scope → Heap Closure → Outcome Closure (List ℕ)
  | .nil, _, h => .ok [] h
  | .expr x e bs, ρ, h => (eval call e ρ h).bind fun v h =>
      (initialise x ρ v h).bind fun _ h => evalBindings call bs ρ h
  | .closure x env args code bs, ρ, h =>
      (initialise x ρ (.closure h.closures.length) (h.newClosure ⟨env, args, code, ρ, false⟩)).bind
        fun _ h' => (evalBindings call bs ρ h').bind fun ks h' =>
          .ok (h.closures.length :: ks) h'

end

/-- A call of a closure, with a bound on the depth of calls. A strict call does not enter a
closure that captures variables before it is complete. -/
def callClosure (strict : Bool) : ℕ → Call Closure
  | 0, _, _, h => .stop .timeout h.log
  | n + 1, k, vs, h => match h.closures[k]? with
    | none => .stop .undefined h.log
    | some c =>
      if vs.length ≠ c.args.length then .stop .undefined h.log
      else if strict && !c.complete && !c.env.isEmpty then .stop .early h.log
      else eval (callClosure strict n) c.code (c.args.zipIdx h.cells.length ++ c.scope)
        (h.alloc (vs.map some))

/-- The meaning of a program, with calls nested to depth `n`. -/
def evaluate (p : Program) (n : ℕ) : Outcome Closure Value :=
  eval (callClosure false n) p.main [] .empty

/-- The same evaluation, stopped where a closure that captures variables is called before its let
form has evaluated all initialisers. -/
def evaluateStrict (p : Program) (n : ℕ) : Outcome Closure Value :=
  eval (callClosure true n) p.main [] .empty

/-- No closure that captures variables is called before its let form has evaluated all its
initialisers. -/
def CompleteCalls (p : Program) : Prop := ∀ n, (evaluateStrict p n).isEarly = false

/-! ## Strict evaluation -/

/-- The first run stops early, or the runs are the same. -/
def EarlyOr {κ α : Type} (x y : Outcome κ α) : Prop := x.isEarly = true ∨ x = y

theorem EarlyOr.refl {κ α : Type} (x : Outcome κ α) : EarlyOr x x := .inr rfl

theorem EarlyOr.bind {κ α β : Type} {x y : Outcome κ α} {f g : α → Heap κ → Outcome κ β}
    (hxy : EarlyOr x y) (hfg : ∀ a h, EarlyOr (f a h) (g a h)) :
    EarlyOr (x.bind f) (y.bind g) := by
  cases hxy with
  | inl hearly =>
    cases x with
    | ok a h => cases hearly
    | stop r log => cases r with
      | early => exact .inl rfl
      | timeout => cases hearly
      | undefined => cases hearly
  | inr heq =>
    subst heq
    cases x with
    | ok a h => exact hfg a h
    | stop r log => exact .refl _

section Strict

variable {call call' : Call Closure}

theorem earlyOr_apply (hcall : ∀ k vs h, EarlyOr (call k vs h) (call' k vs h)) (f : Value)
    (vs : List Value) (h : Heap Closure) :
    EarlyOr (applyValue call f vs h) (applyValue call' f vs h) := by
  cases f with
  | num n => exact .refl _
  | closure k => exact hcall k vs h

mutual

theorem earlyOr_eval (hcall : ∀ k vs h, EarlyOr (call k vs h) (call' k vs h)) :
    ∀ (e : Expr) (ρ : Scope) (h : Heap Closure), EarlyOr (eval call e ρ h) (eval call' e ρ h)
  | .num _, _, _ | .var _, _, _ => .refl _
  | .op _ a b, ρ, h => (earlyOr_eval hcall a ρ h).bind fun _ h =>
      (earlyOr_eval hcall b ρ h).bind fun _ _ => .refl _
  | .set _ e, ρ, h => (earlyOr_eval hcall e ρ h).bind fun _ _ => .refl _
  | .begin a b, ρ, h => (earlyOr_eval hcall a ρ h).bind fun _ h => earlyOr_eval hcall b ρ h
  | .ite c a b, ρ, h => (earlyOr_eval hcall c ρ h).bind fun v h => by
      cases v with
      | closure k => exact .refl _
      | num n =>
        by_cases hn : n = 0
        · simp only [if_pos hn]
          exact earlyOr_eval hcall b ρ h
        · simp only [if_neg hn]
          exact earlyOr_eval hcall a ρ h
  | .apply _ args, ρ, h => (earlyOr_evalArgs hcall args ρ h).bind fun vs _ =>
      (EarlyOr.refl _).bind fun g h => earlyOr_apply hcall g vs h
  | .makeEnv bs body, _, _ => (earlyOr_evalBindings hcall bs _ _).bind fun _ _ =>
      earlyOr_eval hcall body _ _

theorem earlyOr_evalArgs (hcall : ∀ k vs h, EarlyOr (call k vs h) (call' k vs h)) :
    ∀ (es : Exprs) (ρ : Scope) (h : Heap Closure),
      EarlyOr (evalArgs call es ρ h) (evalArgs call' es ρ h)
  | .nil, _, _ => .refl _
  | .cons e es, ρ, h => (earlyOr_eval hcall e ρ h).bind fun _ h =>
      (earlyOr_evalArgs hcall es ρ h).bind fun _ _ => .refl _

theorem earlyOr_evalBindings (hcall : ∀ k vs h, EarlyOr (call k vs h) (call' k vs h)) :
    ∀ (bs : Bindings) (ρ : Scope) (h : Heap Closure),
      EarlyOr (evalBindings call bs ρ h) (evalBindings call' bs ρ h)
  | .nil, _, _ => .refl _
  | .expr _ e bs, ρ, h => (earlyOr_eval hcall e ρ h).bind fun _ _ =>
      (EarlyOr.refl _).bind fun _ h => earlyOr_evalBindings hcall bs ρ h
  | .closure _ _ _ _ bs, ρ, _ => (EarlyOr.refl _).bind fun _ h' =>
      (earlyOr_evalBindings hcall bs ρ h').bind fun _ _ => .refl _

end

end Strict

theorem earlyOr_call : ∀ n k vs h, EarlyOr (callClosure true n k vs h) (callClosure false n k vs h)
  | 0, _, _, _ => .refl _
  | n + 1, k, vs, h => by
      rw [callClosure, callClosure]
      cases h.closures[k]? with
      | none => exact .refl _
      | some c =>
        by_cases hlength : vs.length = c.args.length
        · simp only [hlength, ne_eq, not_true_eq_false, if_false]
          by_cases hearly : (true && !c.complete && !c.env.isEmpty) = true
          · rw [if_pos hearly]
            exact .inl rfl
          · rw [if_neg hearly]
            exact earlyOr_eval (earlyOr_call n) c.code _ _
        · simp only [ne_eq, hlength, not_false_eq_true, if_true]
          exact .refl _

/-- A strict evaluation that does not stop early is the evaluation. -/
theorem evaluate_eq_strict {p : Program} {n : ℕ} (h : (evaluateStrict p n).isEarly = false) :
    evaluateStrict p n = evaluate p n := by
  cases earlyOr_eval (earlyOr_call n) p.main [] .empty with
  | inl hearly =>
    rw [evaluateStrict] at h
    rw [h] at hearly
    cases hearly
  | inr heq => exact heq

end Extempore.LetForms
