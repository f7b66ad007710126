import Extempore.ClosureConversion

/-!
# Captured names

The environment of each closure holds the variables in scope, and so those that the closure uses.
Afterwards `impc:ti:find-all-vars` collects the variables of the converted program. What it knows
of generic and of polymorphic functions are tables of the compiler.
-/

namespace Extempore.CapturedNames

open XtlangForms ClosureConversion VisibleNames

/-! ## Scopes of a program -/

mutual

/-- The names that are bound in a form. -/
def binders : Expr → List Name
  | .atom _ => []
  | .if2 _ test thn => binders test ++ binders thn
  | .if3 _ test thn els => binders test ++ (binders thn ++ binders els)
  | .lets _ bindings body => letNames bindings ++ (letBinders bindings ++ bodyBinders body)
  | .seq body => bodyBinders body
  | .lambda _ params body => params ++ bodyBinders body
  | .call f args => binders f ++ argsBinders args
  | .ret _ e => binders e

def bodyBinders : Body → List Name
  | .last e => binders e
  | .cons e rest => binders e ++ bodyBinders rest

def argsBinders : Args → List Name
  | .nil => []
  | .cons e rest => binders e ++ argsBinders rest

/-- The names that are bound in the initialisers. -/
def letBinders : Bindings → List Name
  | .nil => []
  | .cons _ init rest => binders init ++ letBinders rest

end

mutual

/-- A `let` binds its names in all of its initialisers. -/
def FreeIn (v : Name) : Expr → Prop
  | .atom a => a = .name v
  | .if2 _ test thn => FreeIn v test ∨ FreeIn v thn
  | .if3 _ test thn els => FreeIn v test ∨ FreeIn v thn ∨ FreeIn v els
  | .lets _ bindings body =>
    v ∉ letNames bindings ∧ (LetFreeIn v bindings ∨ BodyFreeIn v body)
  | .seq body => BodyFreeIn v body
  | .lambda _ params body => v ∉ params ∧ BodyFreeIn v body
  | .call f args => FreeIn v f ∨ ArgsFreeIn v args
  | .ret _ e => FreeIn v e

def BodyFreeIn (v : Name) : Body → Prop
  | .last e => FreeIn v e
  | .cons e rest => FreeIn v e ∨ BodyFreeIn v rest

def ArgsFreeIn (v : Name) : Args → Prop
  | .nil => False
  | .cons e rest => FreeIn v e ∨ ArgsFreeIn v rest

def LetFreeIn (v : Name) : Bindings → Prop
  | .nil => False
  | .cons _ init rest => FreeIn v init ∨ LetFreeIn v rest

end

/-! ## Environments of closures -/

mutual

/-- The form `s` is `e` with closures for its lambdas. The environment of a closure has no
repetitions, it holds the variables in scope that the `lambda` uses, and it holds nothing but
variables in scope, of which the function `f` of the program is none. -/
def Captures (f : Name) (scope : List Name) : Expr → Sexpr → Prop
  | .atom a, s => s = a.toSexpr
  | .if2 marked test thn, s =>
    ∃ test' thn', s = .list [ifSymbol marked, test', thn'] ∧ Captures f scope test test' ∧
      Captures f scope thn thn'
  | .if3 marked test thn els, s =>
    ∃ test' thn' els', s = .list [ifSymbol marked, test', thn', els'] ∧
      Captures f scope test test' ∧ Captures f scope thn thn' ∧ Captures f scope els els'
  | .lets _ bindings body, s =>
    ∃ tag inits body', s = .list [.sym "__make-env", .int tag, inits, .cons (.sym "begin") body'] ∧
      LetCaptures f (letNames bindings ++ scope) bindings inits ∧
      BodyCaptures f (letNames bindings ++ scope) body body'
  | .seq body, s => ∃ body', s = .cons (.sym "begin") body' ∧ BodyCaptures f scope body body'
  | .lambda kind params body, s =>
    ∃ tag env body', s = .list [closureSymbol (.sym kind.text), .int tag, nameList env,
        nameList params, .cons (.sym "begin") body'] ∧
      env.Nodup ∧
      (∀ v ∈ scope, v ≠ f → FreeIn v (.lambda kind params body) → v ∈ env) ∧
      (∀ v ∈ env, v ∈ scope ∧ v ≠ f) ∧
      BodyCaptures f (params ++ scope) body body'
  | .call g args, s =>
    ∃ g' args', s = .cons g' args' ∧ Captures f scope g g' ∧ ArgsCaptures f scope args args'
  | .ret name e, s =>
    ∃ e', s = .list [.sym "ret->", .sym name.text, e'] ∧ Captures f scope e e'

def BodyCaptures (f : Name) (scope : List Name) : Body → Sexpr → Prop
  | .last e, s => ∃ e', s = .list [e'] ∧ Captures f scope e e'
  | .cons e rest, s =>
    ∃ e' rest', s = .cons e' rest' ∧ Captures f scope e e' ∧ BodyCaptures f scope rest rest'

def ArgsCaptures (f : Name) (scope : List Name) : Args → Sexpr → Prop
  | .nil, s => s = .nil
  | .cons e rest, s =>
    ∃ e' rest', s = .cons e' rest' ∧ Captures f scope e e' ∧ ArgsCaptures f scope rest rest'

def LetCaptures (f : Name) (scope : List Name) : Bindings → Sexpr → Prop
  | .nil, s => s = .nil
  | .cons x init rest, s =>
    ∃ init' rest', s = .cons (.list [.sym x.text, init']) rest' ∧ Captures f scope init init' ∧
      LetCaptures f scope rest rest'

end

section Environments

variable {f : Name} {scope : List Name}

/-- The function of the program is bound under the name that the conversion starts with. -/
theorem captured_eq (hnodup : (scope ++ [f]).Nodup) :
    captured (scope ++ [f, f]) = scope.reverse := by
  have hvisible : visible [] (scope ++ [f, f]) = scope ++ [f] := by
    have happend : scope ++ [f, f] = (scope ++ [f]) ++ [f] := by simp
    rw [happend, visible_append hnodup (fun x _ => List.not_mem_nil)]
    simp [visible]
  rw [captured, hvisible, List.dropLast_concat]

theorem nodup_left {a b c : List Name} (h : (a ++ b ++ c).Nodup) : (a ++ c).Nodup := by
  rw [List.append_assoc] at h
  exact h.sublist ((List.sublist_append_right b c).append_left a)

theorem nodup_right {a b c : List Name} (h : (a ++ b ++ c).Nodup) : (b ++ c).Nodup := by
  rw [List.append_assoc] at h
  exact h.sublist (List.sublist_append_right a _)

/-- Names that are bound around a form come into its scope. -/
theorem nodup_inner {names a c : List Name} (h : (names ++ a ++ c).Nodup) :
    (a ++ (names ++ c)).Nodup := by
  rw [List.append_assoc] at h
  exact (List.perm_append_comm_assoc names a c).nodup_iff.mp h

mutual

theorem captures_convertExpr (f : Name) :
    ∀ (e : Expr) (scope : List Name), (binders e ++ (scope ++ [f])).Nodup →
      Captures f (scope ++ [f]) e (convertExpr (scope ++ [f, f]) e)
  | .atom _, _, _ => rfl
  | .if2 _ test thn, scope, h =>
    ⟨_, _, rfl, captures_convertExpr f test scope (nodup_left h),
      captures_convertExpr f thn scope (nodup_right h)⟩
  | .if3 _ test thn els, scope, h =>
    ⟨_, _, _, rfl, captures_convertExpr f test scope (nodup_left h),
      captures_convertExpr f thn scope (nodup_left (nodup_right h)),
      captures_convertExpr f els scope (nodup_right (nodup_right h))⟩
  | .lets _ bindings body, scope, h => by
    have h := nodup_inner h
    have ih := letCaptures_convertBindings f bindings (letNames bindings ++ scope)
      (by simpa using nodup_left h)
    have ih' := bodyCaptures_convertBody f body (letNames bindings ++ scope)
      (by simpa using nodup_right h)
    simp only [List.append_assoc] at ih ih'
    exact ⟨_, _, _, rfl, ih, ih'⟩
  | .seq body, scope, h => ⟨_, rfl, bodyCaptures_convertBody f body scope h⟩
  | .lambda _ params body, scope, h => by
    have ih := bodyCaptures_convertBody f body (params ++ scope) (by simpa using nodup_inner h)
    have hnodup : (scope ++ [f]).Nodup := h.sublist (List.sublist_append_right _ _)
    have hf : ∀ v ∈ scope, v ≠ f := by
      intro v hv hvf
      exact (List.nodup_append.mp hnodup).2.2 v hv f List.mem_cons_self hvf
    simp only [List.append_assoc] at ih
    refine ⟨_, captured (scope ++ [f, f]), _, rfl, ?_, ?_, ?_, ih⟩
    · rw [captured_eq hnodup]
      exact List.nodup_reverse.mpr (List.nodup_append.mp hnodup).1
    · intro v hv hvf _
      rw [captured_eq hnodup, List.mem_reverse]
      exact (List.mem_append.mp hv).resolve_right fun h => hvf (List.mem_singleton.mp h)
    · intro v hv
      rw [captured_eq hnodup, List.mem_reverse] at hv
      exact ⟨List.mem_append_left _ hv, hf v hv⟩
  | .call g args, scope, h =>
    ⟨_, _, rfl, captures_convertExpr f g scope (nodup_left h),
      argsCaptures_convertArgs f args scope (nodup_right h)⟩
  | .ret _ e, scope, h => ⟨_, rfl, captures_convertExpr f e scope h⟩

theorem bodyCaptures_convertBody (f : Name) :
    ∀ (body : Body) (scope : List Name), (bodyBinders body ++ (scope ++ [f])).Nodup →
      BodyCaptures f (scope ++ [f]) body (convertBody (scope ++ [f, f]) body)
  | .last e, scope, h => ⟨_, rfl, captures_convertExpr f e scope h⟩
  | .cons e rest, scope, h =>
    ⟨_, _, rfl, captures_convertExpr f e scope (nodup_left h),
      bodyCaptures_convertBody f rest scope (nodup_right h)⟩

theorem argsCaptures_convertArgs (f : Name) :
    ∀ (args : Args) (scope : List Name), (argsBinders args ++ (scope ++ [f])).Nodup →
      ArgsCaptures f (scope ++ [f]) args (convertArgs (scope ++ [f, f]) args)
  | .nil, _, _ => rfl
  | .cons e rest, scope, h =>
    ⟨_, _, rfl, captures_convertExpr f e scope (nodup_left h),
      argsCaptures_convertArgs f rest scope (nodup_right h)⟩

theorem letCaptures_convertBindings (f : Name) :
    ∀ (bindings : Bindings) (scope : List Name), (letBinders bindings ++ (scope ++ [f])).Nodup →
      LetCaptures f (scope ++ [f]) bindings (convertBindings (scope ++ [f, f]) bindings)
  | .nil, _, _ => rfl
  | .cons _ init rest, scope, h =>
    ⟨_, _, rfl, captures_convertExpr f init scope (nodup_left h),
      letCaptures_convertBindings f rest scope (nodup_right h)⟩

end

end Environments

/-! ## Collected variables -/

/-- What the compiler knows of generic and of polymorphic functions. -/
structure CallTables where
  /-- The names of the types of a generic function, from its name in a call and its arity. -/
  genericNames : String → ℕ → Option (List String)
  isPoly : String → Bool

/-- A name of a generic or of a polymorphic function has `##` in it. -/
def hasMark : List Char → Bool
  | '#' :: '#' :: _ => true
  | _ :: cs => hasMark cs
  | [] => false

def Sexpr.length : Sexpr → ℕ
  | .cons _ cdr => Sexpr.length cdr + 1
  | _ => 0

/-- The names that a call of a generic function adds, its own included. -/
def CallTables.generic (tables : CallTables) (car cdr : Sexpr) : Option (List Sexpr) :=
  match car with
  | .sym s =>
    if hasMark s.toList then
      (tables.genericNames s (Sexpr.length cdr)).map fun names => car :: names.map .sym
    else none
  | _ => none

def CallTables.poly (tables : CallTables) (car : Sexpr) : Bool :=
  match car with
  | .sym s => hasMark s.toList && tables.isPoly s
  | _ => false

def isClosureSymbol (s : Sexpr) : Bool :=
  ["__make-closure", "__make-closure-s", "__make-closure-h", "__make-closure-z"].any fun name =>
    s = .sym name

def isEnvSymbol (s : Sexpr) : Bool :=
  ["__make-env", "__make-env-zone"].any fun name => s = .sym name

mutual

/-- `impc:ti:find-all-vars`; `none` is the error on a name that is bound already. -/
def findAllVars (tables : CallTables) : Sexpr → List Sexpr → Option (List Sexpr)
  | .cons car cdr, syms =>
    match tables.generic car cdr with
    | some names => findAllVars tables cdr (syms ++ names)
    | none =>
      if tables.poly car then findAllVars tables cdr (car :: syms)
      else if isClosureSymbol car then
        match cdr with
        | .cons _ (.cons env (.cons params (.cons body _))) => do
          let env ← elems env
          let params ← elems params
          if params.any fun x => x ∈ syms then none
          else findAllVars tables body (removeDuplicates (env ++ params ++ syms))
        | _ => none
      else if isEnvSymbol car then
        match cdr with
        | .cons _ (.cons bindings (.cons body _)) => do
          let names ← bindingNames bindings
          if names.any fun x => x ∈ syms then none
          else do
            let syms ← findInBindings tables bindings (names ++ syms)
            findAllVars tables body syms
        | _ => none
      else do
        let syms ← findAllVars tables car syms
        findAllVars tables cdr syms
  | _, syms => some syms

/-- The initialisers of a `let`. -/
def findInBindings (tables : CallTables) : Sexpr → List Sexpr → Option (List Sexpr)
  | .cons (.cons _ (.cons init _)) rest, syms => do
    let syms ← findAllVars tables init syms
    findInBindings tables rest syms
  | .nil, syms => some syms
  | _, _ => none

end

/-- A name that is collected although the program does not bind it. -/
def CallTables.Adds (tables : CallTables) (s : Sexpr) : Prop :=
  (∃ car cdr names, tables.generic car cdr = some names ∧ s ∈ names) ∨ tables.poly s = true

section Collection

variable {tables : CallTables} {esyms a b : List Name} {syms syms' syms'' : List Sexpr}
  {s car cdr : Sexpr}

/-- The collection may start: the binders are different, new, and in no table, and what closures
may capture has been collected. -/
structure Ready (tables : CallTables) (esyms bound : List Name) (syms : List Sexpr) : Prop where
  nodup : bound.Nodup
  notAdds : ∀ x ∈ bound, ¬ tables.Adds (.sym x.text)
  fresh : ∀ x ∈ bound, .sym x.text ∉ syms
  scope : ∀ x ∈ esyms, .sym x.text ∈ syms

/-- The collection has found the binders, and nothing that could be the binder of another form. -/
structure Found (tables : CallTables) (bound : List Name) (syms syms' : List Sexpr) : Prop where
  kept : ∀ s ∈ syms, s ∈ syms'
  found : ∀ x ∈ bound, .sym x.text ∈ syms'
  only : ∀ s ∈ syms', s ∈ syms ∨ s ∈ symbols bound ∨ tables.Adds s

theorem Found.refl (tables : CallTables) (syms : List Sexpr) : Found tables [] syms syms :=
  ⟨fun _ h => h, fun _ h => absurd h List.not_mem_nil, fun _ h => .inl h⟩

theorem Found.append (h : Found tables a syms syms') (h' : Found tables b syms' syms'') :
    Found tables (a ++ b) syms syms'' := by
  constructor
  · exact fun s hs => h'.kept s (h.kept s hs)
  · intro x hx
    cases List.mem_append.mp hx with
    | inl hx => exact h'.kept _ (h.found x hx)
    | inr hx => exact h'.found x hx
  · intro s hs
    rw [symbols_append, List.mem_append]
    cases h'.only s hs with
    | inl hs =>
      cases h.only s hs with
      | inl hs => exact .inl hs
      | inr hs => exact .inr (hs.imp_left .inl)
    | inr hs => exact .inr (hs.imp_left .inr)

theorem Ready.left (h : Ready tables esyms (a ++ b) syms) : Ready tables esyms a syms where
  nodup := (List.nodup_append.mp h.nodup).1
  notAdds x hx := h.notAdds x (List.mem_append_left b hx)
  fresh x hx := h.fresh x (List.mem_append_left b hx)
  scope := h.scope

/-- What one form leaves is what the next may start with. -/
theorem Ready.right (h : Ready tables esyms (a ++ b) syms) (hfound : Found tables a syms syms') :
    Ready tables esyms b syms' where
  nodup := (List.nodup_append.mp h.nodup).2.1
  notAdds x hx := h.notAdds x (List.mem_append_right a hx)
  fresh x hx hmem := by
    have hx' := List.mem_append_right a hx
    cases hfound.only _ hmem with
    | inl hsyms => exact h.fresh x hx' hsyms
    | inr hmem =>
      cases hmem with
      | inl ha => exact (List.nodup_append.mp h.nodup).2.2 x (mem_symbols.mp ha) x hx rfl
      | inr hadds => exact h.notAdds x hx' hadds
  scope x hx := hfound.kept _ (h.scope x hx)

/-- The collection on the form `s` finds the binders `bound`. -/
def Finds (tables : CallTables) (esyms bound : List Name) (s : Sexpr) : Prop :=
  ∀ syms, Ready tables esyms bound syms →
    ∃ syms', findAllVars tables s syms = some syms' ∧ Found tables bound syms syms'

theorem Finds.atom (hs : ∀ car cdr, s ≠ .cons car cdr) : Finds tables esyms [] s := by
  intro syms _
  refine ⟨syms, ?_, Found.refl tables syms⟩
  cases s with
  | cons car cdr => exact absurd rfl (hs car cdr)
  | _ => rw [findAllVars]; exact fun _ _ h => by cases h

variable (tables cdr) in
/-- A list that starts with no symbol of closures or environments: the tables may add names at
its head, and the head and the rest are searched. -/
theorem findAllVars_cons (hclosure : isClosureSymbol car = false) (henv : isEnvSymbol car = false)
    (syms : List Sexpr) :
    ∃ syms', Found tables [] syms syms' ∧ findAllVars tables (.cons car cdr) syms =
      (findAllVars tables car syms').bind (findAllVars tables cdr) := by
  have hsym (names : List Sexpr) (s : String) : findAllVars tables (.sym s) names = some names := by
    rw [findAllVars]
    exact fun _ _ h => by cases h
  rw [findAllVars.eq_def]
  cases hgeneric : tables.generic car cdr with
  | some names =>
    cases car with
    | sym s =>
      refine ⟨syms ++ names, ⟨fun s hs => List.mem_append_left _ hs,
        fun _ h => absurd h List.not_mem_nil, fun s hs => ?_⟩, ?_⟩
      · exact (List.mem_append.mp hs).imp_right fun h => .inr (.inl ⟨_, _, _, hgeneric, h⟩)
      · simp only [hgeneric, hsym, Option.bind_some]
    | _ => simp [CallTables.generic] at hgeneric
  | none =>
    cases hpoly : tables.poly car with
    | true =>
      cases car with
      | sym s =>
        refine ⟨.sym s :: syms, ⟨fun s hs => List.mem_cons_of_mem _ hs,
          fun _ h => absurd h List.not_mem_nil, fun s hs => ?_⟩, ?_⟩
        · exact (List.mem_cons.mp hs).symm.imp_right fun h => .inr (.inr (by rw [h, hpoly]))
        · simp only [hgeneric, hpoly, if_true, hsym, Option.bind_some]
      | _ => simp [CallTables.poly] at hpoly
    | false =>
      refine ⟨syms, Found.refl tables syms, ?_⟩
      simp only [hgeneric, hpoly, hclosure, henv, Bool.false_eq_true, if_false,
        Option.bind_eq_bind]

theorem Finds.cons (hclosure : isClosureSymbol car = false) (henv : isEnvSymbol car = false)
    (hcar : Finds tables esyms a car) (hcdr : Finds tables esyms b cdr) :
    Finds tables esyms (a ++ b) (.cons car cdr) := by
  intro syms hready
  obtain ⟨syms₀, hfound₀, heq⟩ := findAllVars_cons tables cdr hclosure henv syms
  have hready₀ : Ready tables esyms (a ++ b) syms₀ := Ready.right hready hfound₀
  obtain ⟨syms₁, hcar, hfound₁⟩ := hcar syms₀ hready₀.left
  obtain ⟨syms₂, hcdr, hfound₂⟩ := hcdr syms₁ (hready₀.right hfound₁)
  refine ⟨syms₂, ?_, hfound₀.append (hfound₁.append hfound₂)⟩
  rw [heq, hcar, Option.bind_some, hcdr]

/-- The binders of a `let` or of a `lambda` are collected before its parts are searched. -/
theorem Ready.bind (h : Ready tables esyms (a ++ b) syms)
    (hsyms : ∀ s, s ∈ syms' ↔ s ∈ symbols a ∨ s ∈ syms) :
    Found tables a syms syms' ∧ Ready tables (a ++ esyms) b syms' := by
  have hfound : Found tables a syms syms' := by
    constructor
    · exact fun s hs => (hsyms s).mpr (.inr hs)
    · exact fun x hx => (hsyms _).mpr (.inl (mem_symbols.mpr hx))
    · exact fun s hs => ((hsyms s).mp hs).symm.imp_right .inl
  have hready := h.right hfound
  refine ⟨hfound, hready.nodup, hready.notAdds, hready.fresh, fun x hx => ?_⟩
  cases List.mem_append.mp hx with
  | inl hx => exact hfound.found x hx
  | inr hx => exact hready.scope x hx

theorem not_any_mem (h : Ready tables esyms (a ++ b) syms) :
    ((symbols a).any fun x => x ∈ syms) = false := by
  rw [List.any_eq_false]
  intro s hs hmem
  obtain ⟨x, hx, rfl⟩ := List.mem_map.mp hs
  exact h.fresh x (List.mem_append_left b hx) (of_decide_eq_true hmem)

theorem Finds.closure {env params : List Name} {kind : LambdaKind} {tag : ℤ} {body : Sexpr}
    (henv : ∀ x ∈ env, x ∈ esyms) (hbody : Finds tables (params ++ esyms) b body) :
    Finds tables esyms (params ++ b)
      (.list [closureSymbol (.sym kind.text), .int tag, nameList env, nameList params, body]) := by
  intro syms hready
  have hmem (s : Sexpr) : s ∈ removeDuplicates (symbols env ++ symbols params ++ syms) ↔
      s ∈ symbols params ∨ s ∈ syms := by
    rw [removeDuplicates_eq, mem_visible, List.mem_append, List.mem_append, or_assoc]
    constructor
    · intro h
      cases h.1 with
      | inl h =>
        obtain ⟨x, hx, rfl⟩ := List.mem_map.mp h
        exact .inr (hready.scope x (henv x hx))
      | inr h => exact h
    · exact fun h => ⟨.inr h, List.not_mem_nil⟩
  obtain ⟨hfound, hready'⟩ := hready.bind hmem
  obtain ⟨syms', hbody, hfound'⟩ := hbody _ hready'
  refine ⟨syms', ?_, hfound.append hfound'⟩
  have hgeneric (cdr : Sexpr) : tables.generic (closureSymbol (.sym kind.text)) cdr = none := by
    cases kind <;> simp [CallTables.generic, closureSymbol, LambdaKind.text, hasMark]
  have hpoly : tables.poly (closureSymbol (.sym kind.text)) = false := by
    cases kind <;> simp [CallTables.poly, closureSymbol, LambdaKind.text, hasMark]
  have hsymbol : isClosureSymbol (closureSymbol (.sym kind.text)) = true := by
    cases kind <;> decide
  rw [Sexpr.list, findAllVars.eq_def]
  simp only [hgeneric, hpoly, hsymbol, Bool.false_eq_true, if_false, if_true, Sexpr.list, nameList, elems_list,
    Option.bind_eq_bind, Option.bind_some]
  rw [← symbols, ← symbols, not_any_mem hready, if_neg Bool.false_ne_true, hbody]

/-- The collection on initialisers finds the binders `bound`. -/
def FindsIn (tables : CallTables) (esyms bound : List Name) (s : Sexpr) : Prop :=
  ∀ syms, Ready tables esyms bound syms →
    ∃ syms', findInBindings tables s syms = some syms' ∧ Found tables bound syms syms'

theorem FindsIn.cons {x init rest : Sexpr} (hinit : Finds tables esyms a init)
    (hrest : FindsIn tables esyms b rest) :
    FindsIn tables esyms (a ++ b) (.cons (.list [x, init]) rest) := by
  intro syms hready
  obtain ⟨syms₁, hinit, hfound₁⟩ := hinit syms hready.left
  obtain ⟨syms₂, hrest, hfound₂⟩ := hrest syms₁ (hready.right hfound₁)
  refine ⟨syms₂, ?_, hfound₁.append hfound₂⟩
  simp only [Sexpr.list, findInBindings, hinit, hrest, Option.bind_eq_bind, Option.bind_some]

theorem Finds.env {names c : List Name} {tag : ℤ} {inits body : Sexpr}
    (hnames : bindingNames inits = some (symbols names))
    (hinits : FindsIn tables (names ++ esyms) b inits)
    (hbody : Finds tables (names ++ esyms) c body) :
    Finds tables esyms (names ++ (b ++ c))
      (.list [.sym "__make-env", .int tag, inits, body]) := by
  intro syms hready
  obtain ⟨hfound, hready'⟩ := hready.bind fun s => List.mem_append
  obtain ⟨syms₁, hinits, hfound₁⟩ := hinits _ hready'.left
  obtain ⟨syms₂, hbody, hfound₂⟩ := hbody syms₁ (hready'.right hfound₁)
  refine ⟨syms₂, ?_, hfound.append (hfound₁.append hfound₂)⟩
  have hgeneric (cdr : Sexpr) : tables.generic (.sym "__make-env") cdr = none := by
    simp [CallTables.generic, hasMark]
  have hpoly : tables.poly (.sym "__make-env") = false := by simp [CallTables.poly, hasMark]
  have hsymbol : isClosureSymbol (.sym "__make-env") = false ∧
      isEnvSymbol (.sym "__make-env") = true := by decide
  rw [Sexpr.list, findAllVars.eq_def]
  simp only [hgeneric, hpoly, hsymbol, Bool.false_eq_true, if_false, if_true, Sexpr.list, hnames,
    not_any_mem hready, hinits, hbody, Option.bind_eq_bind, Option.bind_some]

theorem bindingNames_convertBindings (esyms : List Name) (bindings : Bindings) :
    bindingNames (convertBindings esyms bindings) = some (symbols (letNames bindings)) := by
  cases bindings with
  | nil => rfl
  | cons x init rest =>
    rw [convertBindings, Sexpr.list, bindingNames, bindingNames_convertBindings esyms rest,
      Option.bind_eq_bind, Option.bind_some]
    rfl

theorem mem_of_mem_captured {x : Name} (h : x ∈ captured esyms) : x ∈ esyms := by
  rw [captured, List.mem_reverse] at h
  exact (mem_visible.mp (List.dropLast_subset _ h)).1

theorem convertExpr_not_symbol (esyms : List Name) (e : Expr) :
    isClosureSymbol (convertExpr esyms e) = false ∧ isEnvSymbol (convertExpr esyms e) = false := by
  cases e with
  | atom a =>
    have hne {s : String} (hs : s ∈ keywords) : a.toSexpr ≠ .sym s :=
      (Expr.atom a).toSexpr_ne_sym hs
    rw [convertExpr, isClosureSymbol, isEnvSymbol]
    simp [hne (s := "__make-closure") (by decide), hne (s := "__make-closure-s") (by decide),
      hne (s := "__make-closure-h") (by decide), hne (s := "__make-closure-z") (by decide),
      hne (s := "__make-env") (by decide), hne (s := "__make-env-zone") (by decide)]
  | _ => simp [convertExpr, Sexpr.list, isClosureSymbol, isEnvSymbol]

theorem Finds.form {e : Expr} (he : Finds tables esyms a (convertExpr esyms e))
    (hcdr : Finds tables esyms b cdr) :
    Finds tables esyms (a ++ b) (.cons (convertExpr esyms e) cdr) :=
  Finds.cons (convertExpr_not_symbol esyms e).1 (convertExpr_not_symbol esyms e).2 he hcdr

theorem Finds.sym_cons {s : String} (hclosure : isClosureSymbol (.sym s) = false)
    (henv : isEnvSymbol (.sym s) = false) (hcdr : Finds tables esyms b cdr) :
    Finds tables esyms b (.cons (.sym s) cdr) :=
  Finds.cons hclosure henv (Finds.atom fun _ _ h => by cases h) hcdr

theorem Finds.last {e : Expr} (he : Finds tables esyms a (convertExpr esyms e)) :
    Finds tables esyms a (.cons (convertExpr esyms e) .nil) := by
  have h := Finds.form he (Finds.atom (s := .nil) fun _ _ h => by cases h)
  rwa [List.append_nil] at h

mutual

theorem finds_convertExpr (tables : CallTables) (esyms : List Name) :
    ∀ e : Expr, Finds tables esyms (binders e) (convertExpr esyms e)
  | .atom a => by
    apply Finds.atom
    intro car cdr h
    cases a <;> cases h
  | .if2 marked test thn => by
    apply Finds.sym_cons (by cases marked <;> decide) (by cases marked <;> decide)
    apply Finds.form (finds_convertExpr tables esyms test)
    exact Finds.last (finds_convertExpr tables esyms thn)
  | .if3 marked test thn els => by
    apply Finds.sym_cons (by cases marked <;> decide) (by cases marked <;> decide)
    apply Finds.form (finds_convertExpr tables esyms test)
    apply Finds.form (finds_convertExpr tables esyms thn)
    exact Finds.last (finds_convertExpr tables esyms els)
  | .lets kind bindings body => by
    apply Finds.env (bindingNames_convertBindings _ bindings)
    · exact findsIn_convertBindings tables _ bindings
    · apply Finds.sym_cons (by decide) (by decide)
      exact finds_convertBody tables _ body
  | .seq body => Finds.sym_cons (by decide) (by decide) (finds_convertBody tables esyms body)
  | .lambda kind params body => by
    apply Finds.closure fun x hx => mem_of_mem_captured hx
    apply Finds.sym_cons (by decide) (by decide)
    exact finds_convertBody tables _ body
  | .call f args =>
    Finds.form (finds_convertExpr tables esyms f) (finds_convertArgs tables esyms args)
  | .ret name e => by
    apply Finds.sym_cons (by decide) (by decide)
    apply Finds.form (e := .atom (.name name)) (Finds.atom fun _ _ h => by cases h)
    exact Finds.last (finds_convertExpr tables esyms e)

theorem finds_convertBody (tables : CallTables) (esyms : List Name) :
    ∀ body : Body, Finds tables esyms (bodyBinders body) (convertBody esyms body)
  | .last e => Finds.last (finds_convertExpr tables esyms e)
  | .cons e rest =>
    Finds.form (finds_convertExpr tables esyms e) (finds_convertBody tables esyms rest)

theorem finds_convertArgs (tables : CallTables) (esyms : List Name) :
    ∀ args : Args, Finds tables esyms (argsBinders args) (convertArgs esyms args)
  | .nil => Finds.atom fun _ _ h => by cases h
  | .cons e rest =>
    Finds.form (finds_convertExpr tables esyms e) (finds_convertArgs tables esyms rest)

theorem findsIn_convertBindings (tables : CallTables) (esyms : List Name) :
    ∀ bindings : Bindings, FindsIn tables esyms (letBinders bindings)
      (convertBindings esyms bindings)
  | .nil => fun syms _ => ⟨syms, rfl, Found.refl tables syms⟩
  | .cons _ init rest =>
    FindsIn.cons (finds_convertExpr tables esyms init) (findsIn_convertBindings tables esyms rest)

end

end Collection

/-! ## Programs -/

/-- The names that closures may capture are those in scope, however often they are listed. -/
theorem Ready.congr {tables : CallTables} {esyms esyms' bound : List Name} {syms : List Sexpr}
    (h : Ready tables esyms bound syms) (hesyms : ∀ x ∈ esyms', x ∈ esyms) :
    Ready tables esyms' bound syms :=
  ⟨h.nodup, h.notAdds, h.fresh, fun x hx => h.scope x (hesyms x hx)⟩

/-- The conversion of a program and the collection of its variables, as `impc:ti:run` calls
them. -/
theorem captures_program (tables : CallTables) (f : Name) (kind : LetKind) (init : Expr)
    (body : Body) (hnodup : (binders (.lets kind (.cons f init .nil) body)).Nodup)
    (hnames : ∀ x ∈ binders (.lets kind (.cons f init .nil) body),
      ¬ tables.Adds (.sym x.text)) :
    ∃ out syms,
      closureConvert [.sym f.text] (Expr.lets kind (.cons f init .nil) body).toSexpr = some out ∧
      Captures f [] (.lets kind (.cons f init .nil) body) out ∧
      findAllVars tables out [] = some syms ∧
      ∀ x ∈ binders (.lets kind (.cons f init .nil) body), .sym x.text ∈ syms := by
  have hconvert := closureConvert_toSexpr [f] (List.cons_ne_nil f [])
    (.lets kind (.cons f init .nil) body)
  have hinner : (letBinders (.cons f init .nil) ++ bodyBinders body ++ [f]).Nodup := by
    have h : ([f] ++ (letBinders (.cons f init .nil) ++ bodyBinders body)).Nodup := hnodup
    exact (List.perm_append_comm.nodup_iff).mp h
  have hcaptures : Captures f [] (.lets kind (.cons f init .nil) body)
      (convertExpr [f] (.lets kind (.cons f init .nil) body)) :=
    ⟨_, _, _, rfl, letCaptures_convertBindings f (.cons f init .nil) [] (nodup_left hinner),
      bodyCaptures_convertBody f body [] (nodup_right hinner)⟩
  have hscope : ∀ x ∈ [f, f], x ∈ [f] ++ [] := by simp
  have hfinds : Finds tables [] (binders (.lets kind (.cons f init .nil) body))
      (convertExpr [f] (.lets kind (.cons f init .nil) body)) := by
    apply Finds.env (bindingNames_convertBindings _ (.cons f init .nil))
    · intro syms hready
      exact findsIn_convertBindings tables _ _ syms (hready.congr hscope)
    · apply Finds.sym_cons (by decide) (by decide)
      intro syms hready
      exact finds_convertBody tables _ body syms (hready.congr hscope)
  obtain ⟨syms, hsyms, hfound⟩ := hfinds []
    ⟨hnodup, hnames, fun _ _ => List.not_mem_nil, fun _ h => absurd h List.not_mem_nil⟩
  exact ⟨_, syms, hconvert, hcaptures, hsyms, hfound.found⟩

section Example

open ReturnMarks (nameF nameX var)

def nameG : Name := ⟨"g", g_notMem_keywords⟩

def nameY : Name := ⟨"y", y_notMem_keywords⟩

/-- `(let ((f (lambda (x) (let ((g (lambda (y) (f x y)))) (g 1))))) f)` -/
def curried : Expr :=
  .lets .letPlain (.cons nameF (.lambda .lambda [nameX] (.last (.lets .letPlain
    (.cons nameG (.lambda .lambda [nameY] (.last (.call (var nameF)
      (.cons (var nameX) (.cons (var nameY) .nil))))) .nil)
    (.last (.call (var nameG) (.cons (.atom (.int 1)) .nil)))))) .nil) (.last (var nameF))

/-- One generic function, and no polymorphic one. -/
def oneGeneric : CallTables where
  genericNames s arity := if s = "map##7" ∧ arity = 2 then some ["List{!a}##7"] else none
  isPoly _ := false

theorem not_oneGeneric_adds {s : String} (hs : s ∉ ["map##7", "List{!a}##7"]) :
    ¬ oneGeneric.Adds (.sym s) := by
  intro h
  cases h with
  | inl h =>
    obtain ⟨car, cdr, names, h, hmem⟩ := h
    cases car with
    | sym t =>
      simp only [CallTables.generic, oneGeneric] at h
      split at h
      · split at h
        · next ht =>
          cases h
          simp only [ht.1, List.map_cons, List.map_nil, List.mem_cons, Sexpr.sym.injEq] at hmem hs
          exact hs (by simpa using hmem)
        · cases h
      · cases h
    | _ => cases h
  | inr h => simp [CallTables.poly, oneGeneric] at h

theorem captures_program_curried :
    ∃ out syms,
      closureConvert [.sym nameF.text] curried.toSexpr = some out ∧
      Captures nameF [] curried out ∧ findAllVars oneGeneric out [] = some syms ∧
      ∀ x ∈ binders curried, .sym x.text ∈ syms :=
  captures_program oneGeneric nameF _ _ _ (by decide) (by
    intro x hx
    apply not_oneGeneric_adds
    revert x
    decide)

end Example

end Extempore.CapturedNames
