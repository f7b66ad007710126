import Extempore.XtlangForms

/-!
# Marked returns

`impc:ti:mark-returns` wraps what a function returns in `ret->` and names the function. It
unblocks the body of each `lambda`, blocks all but the last form of a `begin`, and copies the
test of a conditional and the operator of a call in tail position as they are.
-/

namespace Extempore.ReturnMarks

open XtlangForms

/-! ## The pass -/

def isLetSymbol (s : Sexpr) : Bool := letslist.any fun name => s = .sym name

def isLambdaSymbol (s : Sexpr) : Bool := lambdaslist.any fun name => s = .sym name

mutual

/-- `none` is a compiler error: a conditional with too few or too many forms, or a `begin`
without any. -/
def markReturns (name : Sexpr) (inBody lastPair blocked : Bool) : Sexpr → Option Sexpr
  | .cons car cdr =>
    if car = .sym "if" then
      match cdr with
      | .cons test (.cons thn .nil) => do
        let thn ← markReturns name inBody lastPair blocked thn
        some (.list [ifSymbol (!blocked), test, thn])
      | .cons test (.cons thn (.cons els .nil)) => do
        let thn ← markReturns name inBody lastPair blocked thn
        let els ← markReturns name inBody lastPair blocked els
        some (.list [ifSymbol (!blocked), test, thn, els])
      | _ => none
    else if isLetSymbol car then
      match cdr with
      | .cons bindings body => do
        let bindings ← markBindings bindings
        let body ← markReturns name true false blocked body
        some (.cons car (.cons bindings body))
      | _ => none
    else if isLambdaSymbol car then
      match cdr with
      | .cons params body => do
        let body ← markReturns name true false false body
        some (.cons car (.cons params body))
      | _ => none
    else if car = .sym "begin" then do
      let body ← markBegin name inBody blocked cdr
      some (.cons car body)
    else if inBody && lastPair && !blocked then do
      let args ← markReturns name inBody false true cdr
      some (.list [.sym "ret->", name, .cons car args])
    else do
      let car ← markReturns name inBody false blocked car
      let cdr ← markReturns name inBody false blocked cdr
      some (.cons car cdr)
  | atom =>
    if inBody && lastPair then
      if blocked then some atom else some (.list [.sym "ret->", name, atom])
    else some atom

/-- The initialisers of a `let`; they always block. -/
def markBindings : Sexpr → Option Sexpr
  | .cons (.cons x (.cons init _)) rest => do
    let init ← markReturns x false false true init
    let rest ← markBindings rest
    some (.cons (.list [x, init]) rest)
  | .nil => some .nil
  | _ => none

/-- The forms of a `begin`; all but the last are blocked. -/
def markBegin (name : Sexpr) (inBody blocked : Bool) : Sexpr → Option Sexpr
  | .cons last .nil => do
    let last ← markReturns name inBody (!blocked) blocked last
    some (.list [last])
  | .cons e rest => do
    let e ← markReturns name inBody false true e
    let rest ← markBegin name inBody blocked rest
    some (.cons e rest)
  | _ => none

end

/-! ## What the pass makes of a form -/

mutual

/-- No `ret->` and no `ifret`, as `first-transform` leaves a program. -/
def UnmarkedExpr : Expr → Prop
  | .atom _ => True
  | .if2 marked test thn => marked = false ∧ UnmarkedExpr test ∧ UnmarkedExpr thn
  | .if3 marked test thn els =>
    marked = false ∧ UnmarkedExpr test ∧ UnmarkedExpr thn ∧ UnmarkedExpr els
  | .lets _ bindings body => UnmarkedBindings bindings ∧ UnmarkedBody body
  | .seq body => UnmarkedBody body
  | .lambda _ _ body => UnmarkedBody body
  | .call f args => UnmarkedExpr f ∧ UnmarkedArgs args
  | .ret _ _ => False

def UnmarkedBody : Body → Prop
  | .last e => UnmarkedExpr e
  | .cons e rest => UnmarkedExpr e ∧ UnmarkedBody rest

def UnmarkedArgs : Args → Prop
  | .nil => True
  | .cons e rest => UnmarkedExpr e ∧ UnmarkedArgs rest

def UnmarkedBindings : Bindings → Prop
  | .nil => True
  | .cons _ init rest => UnmarkedExpr init ∧ UnmarkedBindings rest

end

mutual

/-- A form in tail position of the function `name` (`tail`), or blocked. -/
def markExpr (name : Name) (tail : Bool) : Expr → Expr
  | .atom a => if tail then .ret name (.atom a) else .atom a
  | .if2 _ test thn => .if2 tail test (markExpr name tail thn)
  | .if3 _ test thn els => .if3 tail test (markExpr name tail thn) (markExpr name tail els)
  | .lets kind bindings body => .lets kind (markLet bindings) (markBody name tail body)
  | .seq body => .seq (markBody name tail body)
  | .lambda kind params body => .lambda kind params (markBody name true body)
  | .call f args =>
    if tail then .ret name (.call f (markArgs name args))
    else .call (markExpr name false f) (markArgs name args)
  | .ret x e => .ret x e

def markBody (name : Name) (tail : Bool) : Body → Body
  | .last e => .last (markExpr name tail e)
  | .cons e rest => .cons (markExpr name false e) (markBody name tail rest)

def markArgs (name : Name) : Args → Args
  | .nil => .nil
  | .cons e rest => .cons (markExpr name false e) (markArgs name rest)

/-- An initialiser is marked under the name that it is bound to. -/
def markLet : Bindings → Bindings
  | .nil => .nil
  | .cons x init rest => .cons x (markExpr x false init) (markLet rest)

end

section Refinement

variable {name : Name} {inBody lastPair blocked : Bool} {cdr : Sexpr}

theorem isLetSymbol_text (k : LetKind) : isLetSymbol (.sym k.text) = true := by
  cases k <;> decide

theorem isLambdaSymbol_text (k : LambdaKind) :
    isLetSymbol (.sym k.text) = false ∧ isLambdaSymbol (.sym k.text) = true := by
  cases k <;> decide

theorem isLetSymbol_toSexpr (e : Expr) : isLetSymbol e.toSexpr = false := by
  rw [isLetSymbol, List.any_eq_false]
  intro s hs h
  exact e.toSexpr_ne_sym (List.mem_append_left _ (List.mem_append_left _ hs)) (of_decide_eq_true h)

theorem isLambdaSymbol_toSexpr (e : Expr) : isLambdaSymbol e.toSexpr = false := by
  rw [isLambdaSymbol, List.any_eq_false]
  intro s hs h
  exact e.toSexpr_ne_sym (List.mem_append_left _ (List.mem_append_right _ hs))
    (of_decide_eq_true h)

/-- A list that starts with a form has no branch of its own. -/
theorem markReturns_cons (e : Expr) (cdr : Sexpr) :
    markReturns (.sym name.text) inBody lastPair blocked (.cons e.toSexpr cdr) =
      if inBody && lastPair && !blocked then
        (markReturns (.sym name.text) inBody false true cdr).map fun args =>
          .list [.sym "ret->", .sym name.text, .cons e.toSexpr args]
      else
        (markReturns (.sym name.text) inBody false blocked e.toSexpr).bind fun car =>
          (markReturns (.sym name.text) inBody false blocked cdr).map fun cdr => .cons car cdr := by
  have hif : e.toSexpr ≠ .sym "if" := e.toSexpr_ne_sym (by decide)
  have hbegin : e.toSexpr ≠ .sym "begin" := e.toSexpr_ne_sym (by decide)
  rw [markReturns.eq_def]
  simp only [if_neg hif, isLetSymbol_toSexpr, isLambdaSymbol_toSexpr, if_neg hbegin,
    Bool.false_eq_true, if_false]
  split
  · rw [Option.map_eq_bind]
    rfl
  · cases markReturns (.sym name.text) inBody false blocked e.toSexpr with
    | none => rfl
    | some car =>
      simp only [Option.bind_some, Option.map_eq_bind]
      rfl

theorem markReturns_begin (body : Sexpr) :
    markReturns (.sym name.text) inBody lastPair blocked (.cons (.sym "begin") body) =
      (markBegin (.sym name.text) inBody blocked body).map (.cons (.sym "begin")) := by
  have hbegin : isLetSymbol (.sym "begin") = false ∧ isLambdaSymbol (.sym "begin") = false := by
    decide
  have hif : Sexpr.sym "begin" ≠ .sym "if" := by decide
  rw [markReturns.eq_def, Option.map_eq_bind]
  simp only [if_neg hif, hbegin, Bool.false_eq_true, if_false, if_true]
  rfl

/-- The body of a `let` or of a `lambda`. -/
theorem markReturns_wrapped (body : Sexpr) :
    markReturns (.sym name.text) true false blocked (.list [.cons (.sym "begin") body]) =
      (markBegin (.sym name.text) true blocked body).map fun body =>
        .list [.cons (.sym "begin") body] := by
  rw [Sexpr.list, markReturns.eq_def]
  have hne : ∀ s, Sexpr.cons (.sym "begin") body ≠ .sym s := fun s h => by cases h
  have hlet : isLetSymbol (.cons (.sym "begin") body) = false := by
    simp [isLetSymbol]
  have hlambda : isLambdaSymbol (.cons (.sym "begin") body) = false := by
    simp [isLambdaSymbol]
  simp only [if_neg (hne _), hlet, hlambda, Bool.false_eq_true, if_false, Bool.and_false,
    Bool.false_and, markReturns_begin]
  cases markBegin (.sym name.text) true blocked body <;> rfl

/-- A `let` looks at `blocked` only. -/
theorem markReturns_lets {kind : LetKind} {bindings : Bindings} {body : Body}
    (hbindings : markBindings bindings.toSexpr = some (markLet bindings).toSexpr)
    (hbody : markBegin (.sym name.text) true blocked body.toSexpr =
      some (markBody name (!blocked) body).toSexpr) :
    markReturns (.sym name.text) inBody lastPair blocked (Expr.lets kind bindings body).toSexpr =
      some (markExpr name (!blocked) (.lets kind bindings body)).toSexpr := by
  have hif : Sexpr.sym kind.text ≠ .sym "if" := by cases kind <;> decide
  rw [Expr.toSexpr, Sexpr.list, Sexpr.list, markReturns.eq_def]
  simp only [if_neg hif, isLetSymbol_text, if_true, hbindings, Option.bind_eq_bind,
    Option.bind_some, markReturns_wrapped, hbody, Option.map_some]
  rfl

mutual

/-- The pass on a form in tail position, and on a blocked one. -/
theorem markReturns_toSexpr (name : Name) (inBody tail : Bool) (h : tail = true → inBody = true) :
    ∀ e, UnmarkedExpr e → markReturns (.sym name.text) inBody tail (!tail) e.toSexpr =
      some (markExpr name tail e).toSexpr
  | .atom a, _ => by
    cases a <;> cases tail <;> simp_all [Expr.toSexpr, Atom.toSexpr, markReturns, markExpr]
  | .if2 marked test thn, hun => by
    obtain ⟨rfl, -, hthn⟩ := hun
    have ih := markReturns_toSexpr name inBody tail h thn hthn
    simp [Expr.toSexpr, Sexpr.list, ifSymbol, markReturns, markExpr, ih]
  | .if3 marked test thn els, hun => by
    obtain ⟨rfl, -, hthn, hels⟩ := hun
    have ih := markReturns_toSexpr name inBody tail h thn hthn
    have ih' := markReturns_toSexpr name inBody tail h els hels
    simp [Expr.toSexpr, Sexpr.list, ifSymbol, markReturns, markExpr, ih, ih']
  | .lets kind bindings body, hun => by
    have ih := markBegin_toSexpr name true tail (fun _ => rfl) body hun.2
    cases tail with
    | true => exact markReturns_lets (markBindings_toSexpr bindings hun.1) ih
    | false => exact markReturns_lets (markBindings_toSexpr bindings hun.1) ih
  | .seq body, hun => by
    rw [Expr.toSexpr, markReturns_begin, markBegin_toSexpr name inBody tail h body hun]
    rfl
  | .lambda kind params body, hun => by
    have ih := markBegin_toSexpr name true true (fun _ => rfl) body hun
    rw [Bool.not_true] at ih
    have hif : Sexpr.sym kind.text ≠ .sym "if" := by cases kind <;> decide
    rw [Expr.toSexpr, Sexpr.list, Sexpr.list, markReturns.eq_def]
    simp only [if_neg hif, isLambdaSymbol_text, Bool.false_eq_true, if_false, if_true,
      Option.bind_eq_bind, markReturns_wrapped, ih, Option.map_some, Option.bind_some]
    rfl
  | .call f args, hun => by
    have ih := markReturns_args name inBody args hun.2
    have ih' := markReturns_toSexpr name inBody false (fun h => by cases h) f hun.1
    rw [Bool.not_false] at ih'
    rw [Expr.toSexpr, markReturns_cons]
    cases tail with
    | true =>
      rw [h rfl] at ih ⊢
      simp only [Bool.and_self, Bool.not_true, Bool.not_false, if_true, ih, Option.map_some]
      rfl
    | false =>
      simp only [Bool.and_false, Bool.not_false, Bool.false_and, Bool.false_eq_true, if_false,
        ih, ih', Option.bind_some, Option.map_some]
      rfl

theorem markBegin_toSexpr (name : Name) (inBody tail : Bool) (h : tail = true → inBody = true) :
    ∀ body, UnmarkedBody body → markBegin (.sym name.text) inBody (!tail) body.toSexpr =
      some (markBody name tail body).toSexpr
  | .last e, hun => by
    have ih := markReturns_toSexpr name inBody tail h e hun
    simp [Body.toSexpr, Sexpr.list, markBegin, ih, markBody]
  | .cons e rest, hun => by
    have ih := markReturns_toSexpr name inBody false (fun h => by cases h) e hun.1
    have ih' := markBegin_toSexpr name inBody tail h rest hun.2
    rw [Bool.not_false] at ih
    cases rest with
    | last e' => simp_all [Body.toSexpr, Sexpr.list, markBegin, markBody]
    | cons e' rest' => simp_all [Body.toSexpr, markBegin, markBody]

theorem markReturns_args (name : Name) (inBody : Bool) :
    ∀ args, UnmarkedArgs args → markReturns (.sym name.text) inBody false true args.toSexpr =
      some (markArgs name args).toSexpr
  | .nil, _ => by simp [Args.toSexpr, markReturns, markArgs]
  | .cons e rest, hun => by
    have ih := markReturns_toSexpr name inBody false (fun h => by cases h) e hun.1
    have ih' := markReturns_args name inBody rest hun.2
    rw [Bool.not_false] at ih
    rw [Args.toSexpr, markReturns_cons, ih, ih']
    simp [markArgs, Args.toSexpr]

theorem markBindings_toSexpr : ∀ bindings, UnmarkedBindings bindings →
    markBindings bindings.toSexpr = some (markLet bindings).toSexpr
  | .nil, _ => rfl
  | .cons x init rest, hun => by
    have ih := markReturns_toSexpr x false false (fun h => by cases h) init hun.1
    have ih' := markBindings_toSexpr rest hun.2
    rw [Bool.not_false] at ih
    simp [Bindings.toSexpr, Sexpr.list, markBindings, ih, ih', markLet]

end

end Refinement

/-! ## Returning once -/

mutual

/-- Each path through `begin`, `let` and `if` ends in one `ret->` that names `name`, and there
is no `ret->` of this function elsewhere. -/
def Returns (name : Name) : Expr → Prop
  | .if3 _ test thn els => NoReturn test ∧ Returns name thn ∧ Returns name els
  | .lets _ bindings body => LetReturns bindings ∧ BodyReturns name body
  | .seq body => BodyReturns name body
  | .ret x e => x = name ∧ NoReturn e
  | _ => False

def BodyReturns (name : Name) : Body → Prop
  | .last e => Returns name e
  | .cons e rest => NoReturn e ∧ BodyReturns name rest

/-- There is no `ret->` but in the functions that are bound in the form, and these return. -/
def NoReturn : Expr → Prop
  | .atom _ => True
  | .if2 _ test thn => NoReturn test ∧ NoReturn thn
  | .if3 _ test thn els => NoReturn test ∧ NoReturn thn ∧ NoReturn els
  | .lets _ bindings body => LetReturns bindings ∧ BodyNoReturn body
  | .seq body => BodyNoReturn body
  | .call f args => NoReturn f ∧ ArgsNoReturn args
  | .lambda _ _ _ | .ret _ _ => False

def BodyNoReturn : Body → Prop
  | .last e => NoReturn e
  | .cons e rest => NoReturn e ∧ BodyNoReturn rest

def ArgsNoReturn : Args → Prop
  | .nil => True
  | .cons e rest => NoReturn e ∧ ArgsNoReturn rest

/-- A `lambda` that is bound to a name returns under it. -/
def LetReturns : Bindings → Prop
  | .nil => True
  | .cons x (.lambda _ _ body) rest => BodyReturns x body ∧ LetReturns rest
  | .cons _ init rest => NoReturn init ∧ LetReturns rest

end

mutual

/-- Every `lambda` is the initialiser of a `let` and lies neither in the test of a conditional
nor in the operator of a call in tail position; conditionals in tail position have both branches.
The form is in tail position itself (`tail`) or not. -/
def Reached (tail : Bool) : Expr → Prop
  | .atom _ => True
  | .if2 _ test thn => tail = false ∧ NoLambda test ∧ Reached tail thn
  | .if3 _ test thn els => NoLambda test ∧ Reached tail thn ∧ Reached tail els
  | .lets _ bindings body => LetReached bindings ∧ BodyReached tail body
  | .seq body => BodyReached tail body
  | .call f args => (if tail then NoLambda f else Reached false f) ∧ ArgsReached args
  | .lambda _ _ _ | .ret _ _ => False

def BodyReached (tail : Bool) : Body → Prop
  | .last e => Reached tail e
  | .cons e rest => Reached false e ∧ BodyReached tail rest

def ArgsReached : Args → Prop
  | .nil => True
  | .cons e rest => Reached false e ∧ ArgsReached rest

def LetReached : Bindings → Prop
  | .nil => True
  | .cons _ (.lambda _ _ body) rest => BodyReached true body ∧ LetReached rest
  | .cons _ init rest => Reached false init ∧ LetReached rest

/-- There is no `lambda` in the form. -/
def NoLambda : Expr → Prop
  | .atom _ => True
  | .if2 _ test thn => NoLambda test ∧ NoLambda thn
  | .if3 _ test thn els => NoLambda test ∧ NoLambda thn ∧ NoLambda els
  | .lets _ bindings body => LetNoLambda bindings ∧ BodyNoLambda body
  | .seq body => BodyNoLambda body
  | .lambda _ _ _ => False
  | .call f args => NoLambda f ∧ ArgsNoLambda args
  | .ret _ e => NoLambda e

def BodyNoLambda : Body → Prop
  | .last e => NoLambda e
  | .cons e rest => NoLambda e ∧ BodyNoLambda rest

def ArgsNoLambda : Args → Prop
  | .nil => True
  | .cons e rest => NoLambda e ∧ ArgsNoLambda rest

def LetNoLambda : Bindings → Prop
  | .nil => True
  | .cons _ init rest => NoLambda init ∧ LetNoLambda rest

end

/-! ### A form that is copied -/

mutual

theorem not_returns_of_unmarked (name : Name) : ∀ e, UnmarkedExpr e → ¬ Returns name e
  | .atom _, _, h => h
  | .if2 _ _ _, _, h => h
  | .if3 _ _ thn _, hun, h => not_returns_of_unmarked name thn hun.2.2.1 h.2.1
  | .lets _ _ body, hun, h => not_bodyReturns_of_unmarked name body hun.2 h.2
  | .seq body, hun, h => not_bodyReturns_of_unmarked name body hun h
  | .lambda _ _ _, _, h => h
  | .call _ _, _, h => h

theorem not_bodyReturns_of_unmarked (name : Name) :
    ∀ body, UnmarkedBody body → ¬ BodyReturns name body
  | .last e, hun, h => not_returns_of_unmarked name e hun h
  | .cons _ rest, hun, h => not_bodyReturns_of_unmarked name rest hun.2 h.2

end

mutual

/-- A form without marks has no function that returns. -/
theorem noReturn_iff_noLambda : ∀ e, UnmarkedExpr e → (NoReturn e ↔ NoLambda e)
  | .atom _, _ => Iff.rfl
  | .if2 _ test thn, hun =>
    and_congr (noReturn_iff_noLambda test hun.2.1) (noReturn_iff_noLambda thn hun.2.2)
  | .if3 _ test thn els, hun =>
    and_congr (noReturn_iff_noLambda test hun.2.1)
      (and_congr (noReturn_iff_noLambda thn hun.2.2.1) (noReturn_iff_noLambda els hun.2.2.2))
  | .lets _ bindings body, hun =>
    and_congr (letReturns_iff_letNoLambda bindings hun.1)
      (bodyNoReturn_iff_bodyNoLambda body hun.2)
  | .seq body, hun => bodyNoReturn_iff_bodyNoLambda body hun
  | .lambda _ _ _, _ => Iff.rfl
  | .call f args, hun =>
    and_congr (noReturn_iff_noLambda f hun.1) (argsNoReturn_iff_argsNoLambda args hun.2)

theorem bodyNoReturn_iff_bodyNoLambda :
    ∀ body, UnmarkedBody body → (BodyNoReturn body ↔ BodyNoLambda body)
  | .last e, hun => noReturn_iff_noLambda e hun
  | .cons e rest, hun =>
    and_congr (noReturn_iff_noLambda e hun.1) (bodyNoReturn_iff_bodyNoLambda rest hun.2)

theorem argsNoReturn_iff_argsNoLambda :
    ∀ args, UnmarkedArgs args → (ArgsNoReturn args ↔ ArgsNoLambda args)
  | .nil, _ => Iff.rfl
  | .cons e rest, hun =>
    and_congr (noReturn_iff_noLambda e hun.1) (argsNoReturn_iff_argsNoLambda rest hun.2)

theorem letReturns_iff_letNoLambda :
    ∀ bindings, UnmarkedBindings bindings → (LetReturns bindings ↔ LetNoLambda bindings)
  | .nil, _ => Iff.rfl
  | .cons x init rest, hun => by
    have ih := noReturn_iff_noLambda init hun.1
    have ih' := letReturns_iff_letNoLambda rest hun.2
    cases init with
    | lambda _ _ body =>
      refine and_congr (iff_of_false ?_ id) ih'
      exact not_bodyReturns_of_unmarked x body hun.1
    | _ => exact and_congr ih ih'

end

/-! ### A form that is marked -/

mutual

theorem returns_markExpr (name : Name) :
    ∀ e, UnmarkedExpr e → (Returns name (markExpr name true e) ↔ Reached true e)
  | .atom _, _ => by simp [markExpr, Returns, NoReturn, Reached]
  | .if2 _ _ _, _ => by simp [markExpr, Returns, Reached]
  | .if3 _ test thn els, hun =>
    and_congr (noReturn_iff_noLambda test hun.2.1)
      (and_congr (returns_markExpr name thn hun.2.2.1) (returns_markExpr name els hun.2.2.2))
  | .lets _ bindings body, hun =>
    and_congr (letReturns_markLet bindings hun.1) (bodyReturns_markBody name body hun.2)
  | .seq body, hun => bodyReturns_markBody name body hun
  | .lambda _ _ _, _ => Iff.rfl
  | .call f args, hun => by
    rw [markExpr, if_pos rfl, Returns, Reached, if_pos rfl, NoReturn,
      noReturn_iff_noLambda f hun.1, argsNoReturn_markArgs name args hun.2]
    simp

theorem bodyReturns_markBody (name : Name) :
    ∀ body, UnmarkedBody body →
      (BodyReturns name (markBody name true body) ↔ BodyReached true body)
  | .last e, hun => returns_markExpr name e hun
  | .cons e rest, hun =>
    and_congr (noReturn_markExpr name e hun.1) (bodyReturns_markBody name rest hun.2)

theorem noReturn_markExpr (name : Name) :
    ∀ e, UnmarkedExpr e → (NoReturn (markExpr name false e) ↔ Reached false e)
  | .atom _, _ => by simp [markExpr, NoReturn, Reached]
  | .if2 _ test thn, hun => by
    rw [markExpr, NoReturn, Reached, noReturn_iff_noLambda test hun.2.1,
      noReturn_markExpr name thn hun.2.2]
    simp
  | .if3 _ test thn els, hun =>
    and_congr (noReturn_iff_noLambda test hun.2.1)
      (and_congr (noReturn_markExpr name thn hun.2.2.1) (noReturn_markExpr name els hun.2.2.2))
  | .lets _ bindings body, hun =>
    and_congr (letReturns_markLet bindings hun.1) (bodyNoReturn_markBody name body hun.2)
  | .seq body, hun => bodyNoReturn_markBody name body hun
  | .lambda _ _ _, _ => Iff.rfl
  | .call f args, hun =>
    and_congr (noReturn_markExpr name f hun.1) (argsNoReturn_markArgs name args hun.2)

theorem bodyNoReturn_markBody (name : Name) :
    ∀ body, UnmarkedBody body →
      (BodyNoReturn (markBody name false body) ↔ BodyReached false body)
  | .last e, hun => noReturn_markExpr name e hun
  | .cons e rest, hun =>
    and_congr (noReturn_markExpr name e hun.1) (bodyNoReturn_markBody name rest hun.2)

theorem argsNoReturn_markArgs (name : Name) :
    ∀ args, UnmarkedArgs args → (ArgsNoReturn (markArgs name args) ↔ ArgsReached args)
  | .nil, _ => Iff.rfl
  | .cons e rest, hun =>
    and_congr (noReturn_markExpr name e hun.1) (argsNoReturn_markArgs name rest hun.2)

/-- The function that is bound to a name returns under it. -/
theorem letReturns_markLet :
    ∀ bindings, UnmarkedBindings bindings → (LetReturns (markLet bindings) ↔ LetReached bindings)
  | .nil, _ => Iff.rfl
  | .cons x init rest, hun => by
    have ih := noReturn_markExpr x init hun.1
    have ih' := letReturns_markLet rest hun.2
    cases init with
    | lambda _ _ body => exact and_congr (bodyReturns_markBody x body hun.1) ih'
    | _ => exact and_congr ih ih'

end

/-! ## Programs -/

/-- The output of the pass, read as a form, returns once. The program returns as the function
that makes its closure, under the name that the pass was given. -/
def ReturnsOnce (name : Name) (out : Option Sexpr) : Prop :=
  ∃ m : Expr, out = some m.toSexpr ∧ Returns name m

theorem returnsOnce_some {name : Name} {m : Expr} :
    ReturnsOnce name (some m.toSexpr) ↔ Returns name m := by
  constructor
  · rintro ⟨m', hm, hreturns⟩
    rwa [Expr.toSexpr_injective _ _ (Option.some.inj hm)]
  · exact fun hreturns => ⟨m, rfl, hreturns⟩

/-- The call of the pass from `impc:ti:run`. -/
theorem markReturns_program (name : Name) {kind : LetKind} {bindings : Bindings} {body : Body}
    (hun : UnmarkedExpr (.lets kind bindings body)) :
    markReturns (.sym name.text) false false false (Expr.lets kind bindings body).toSexpr =
      some (markExpr name true (.lets kind bindings body)).toSexpr :=
  markReturns_lets (markBindings_toSexpr bindings hun.1)
    (markBegin_toSexpr name true true (fun _ => rfl) body hun.2)

/-- Each function of a program returns once iff each of them is reached. -/
theorem returnsOnce_iff (name : Name) (kind : LetKind) (bindings : Bindings) (body : Body)
    (hun : UnmarkedExpr (.lets kind bindings body)) :
    ReturnsOnce name
        (markReturns (.sym name.text) false false false (Expr.lets kind bindings body).toSexpr) ↔
      Reached true (.lets kind bindings body) := by
  rw [markReturns_program name hun, returnsOnce_some, returns_markExpr name _ hun]

section Example

def nameF : Name := ⟨"f", f_notMem_keywords⟩

def nameX : Name := ⟨"x", by decide⟩

def nameAnon : Name := ⟨"_anon_lambda_1", by decide⟩

def var (x : Name) : Expr := .atom (.name x)

/-- `(let ((_anon_lambda_1 (lambda (x) (begin x)))) (begin _anon_lambda_1))` -/
def anonLambda : Expr :=
  .lets .letPlain (.cons nameAnon (.lambda .lambda [nameX] (.last (var nameX))) .nil)
    (.last (var nameAnon))

/-- The program of a function `f` with this body. -/
def program (body : Expr) : Expr :=
  .lets .letPlain (.cons nameF (.lambda .lambda [nameX] (.last body)) .nil) (.last (var nameF))

/-- A conditional with a function in an argument of a branch. -/
theorem returnsOnce_iff_branch :
    ReturnsOnce nameF (markReturns (.sym nameF.text) false false false
      (program (.if3 false (var nameX) (.call (var nameF) (.cons anonLambda .nil))
        (var nameX))).toSexpr) :=
  (returnsOnce_iff nameF _ _ _ (by simp [UnmarkedExpr, UnmarkedBindings, UnmarkedBody,
    UnmarkedArgs, anonLambda, var])).mpr (by
      simp [Reached, LetReached, BodyReached, ArgsReached, NoLambda, anonLambda, var])

/-- A conditional with a function in an argument of its test. -/
theorem not_returnsOnce :
    ¬ ReturnsOnce nameF (markReturns (.sym nameF.text) false false false
      (program (.if3 false (.call (var nameF) (.cons anonLambda .nil)) (var nameX)
        (var nameX))).toSexpr) := by
  have hun : UnmarkedExpr (program (.if3 false (.call (var nameF) (.cons anonLambda .nil))
      (var nameX) (var nameX))) := by
    simp [UnmarkedExpr, UnmarkedBindings, UnmarkedBody, UnmarkedArgs, program, anonLambda, var]
  rw [program] at hun ⊢
  rw [markReturns_program nameF hun, returnsOnce_some, returns_markExpr nameF _ hun]
  simp [Reached, LetReached, BodyReached, NoLambda, LetNoLambda, ArgsNoLambda, anonLambda]

end Example

end Extempore.ReturnMarks
