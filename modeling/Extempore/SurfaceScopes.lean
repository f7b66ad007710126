import Extempore.ScopedTrees
import Extempore.SurfaceForms

/-!
# Scopes of the surface language

Which symbols of a program are variables, and which forms bind them. A `let` binds its names in
all its initialisers as well as in its body, as `letz` does, and a `doloop` binds its variable in
its range and in its body. A symbol may carry a type behind a colon and the name of a field behind
a dot.
-/

namespace Extempore.SurfaceScopes

open XtlangForms SurfaceForms ScopedTrees

inductive Side
  | car
  | cdr
deriving DecidableEq

/-- What an S-expression is for, by the place where it stands. -/
inductive Role
  | form
  | forms
  | letTail
  | letzTail
  | bindings
  | binding
  | lambdaTail
  | loopTail
  | range
  | clauses
  | fieldTail
  | setTail
  | field
  | value
  | typedTail
  | data
deriving DecidableEq

/-- The variable that a symbol names, without field and type. -/
def variableName (s : String) : String :=
  String.ofList (s.toList.takeWhile fun c => c ≠ '.' && c ≠ ':')

def bindingNames : Sexpr → List String
  | .cons (.cons (.sym x) _) rest => variableName x :: bindingNames rest
  | .cons _ rest => bindingNames rest
  | _ => []

def paramNames : Sexpr → List String
  | .cons (.sym x) rest => variableName x :: paramNames rest
  | .cons _ rest => paramNames rest
  | _ => []

/-- The names that a `let` binds, from what follows the keyword. -/
def namesOfLet : Sexpr → List String
  | .cons bindings _ => bindingNames bindings
  | _ => []

def namesOfLambda : Sexpr → List String
  | .cons params _ => paramNames params
  | _ => []

def namesOfLoop : Sexpr → List String
  | .cons (.cons (.sym x) _) _ => [variableName x]
  | _ => []

/-- What follows the symbol at the head of a form. -/
def tailPlace (s : String) (tail : Sexpr) : Place Sexpr Role String :=
  match s with
  | "letz" =>
    match tail with
    | .cons (.cons (.cons _ _) _) _ => ⟨.letTail, tail, namesOfLet tail⟩
    | tail => ⟨.letzTail, tail, []⟩
  | "doloop" => ⟨.loopTail, tail, namesOfLoop tail⟩
  | "cond" => ⟨.clauses, tail, []⟩
  | "quote" => ⟨.data, tail, []⟩
  | "cref" | "refcheck" => ⟨.fieldTail, tail, []⟩
  | "cset!" => ⟨.setTail, tail, []⟩
  | "cast" | "convert" | "bitcast" | "bitconvert" => ⟨.typedTail, tail, []⟩
  | s =>
    if s ∈ letslist then ⟨.letTail, tail, namesOfLet tail⟩
    else if s ∈ lambdaslist then ⟨.lambdaTail, tail, namesOfLambda tail⟩
    else ⟨.forms, tail, []⟩

/-- The roles of the two sides of a pair. -/
def sideRoles : Role → Role × Role
  | .form | .forms => (.form, .forms)
  | .letTail => (.bindings, .forms)
  | .letzTail => (.form, .letTail)
  | .bindings => (.binding, .bindings)
  | .binding => (.data, .forms)
  | .lambdaTail => (.data, .forms)
  | .loopTail => (.range, .forms)
  | .range => (.data, .forms)
  | .clauses => (.forms, .clauses)
  | .fieldTail => (.form, .data)
  | .setTail => (.form, .field)
  | .field => (.data, .value)
  | .value => (.form, .data)
  | .typedTail => (.form, .data)
  | .data => (.data, .data)

def child : Role → Sexpr → Side → Option (Place Sexpr Role String)
  | .form, .cons (.sym s) cdr, .cdr => some (tailPlace s cdr)
  | .letzTail, .cons _ cdr, .cdr => some ⟨.letTail, cdr, namesOfLet cdr⟩
  | role, .cons car _, .car => some ⟨(sideRoles role).1, car, []⟩
  | role, .cons _ cdr, .cdr => some ⟨(sideRoles role).2, cdr, []⟩
  | _, _, _ => none

def variableOf : Role → Sexpr → Option String
  | .form, .sym s => some (variableName s)
  | _, _ => none

/-- The scopes of a program. -/
def scopes : Rules Sexpr Role Side String where
  child := child
  variableOf := variableOf

/-- A variable named `x` stands at the end of the path, and no form on it binds the name. -/
def FreeAt (s : Sexpr) (path : List Side) (x : String) : Prop := scopes.Free .form s path x

/-! ## Names -/

/-- What follows a dot or a colon does not belong to the name. -/
theorem variableName_append (s : String) {t : String} {c : Char} {cs : List Char}
    (ht : t.toList = c :: cs) (hc : c = '.' ∨ c = ':') :
    variableName (s ++ t) = variableName s := by
  have hstop (cs ds : List Char) : List.takeWhile (fun c => c ≠ '.' && c ≠ ':') (cs ++ c :: ds) =
      List.takeWhile (fun c => c ≠ '.' && c ≠ ':') cs := by
    induction cs with
    | nil => cases hc with
      | inl h => simp [h]
      | inr h => simp [h]
    | cons d cs ih => simp only [List.cons_append, List.takeWhile_cons, ih]
  rw [variableName, variableName, String.toList_append, ht, hstop]

/-! ## Ways into forms -/

/-- The way from a list to its element `i`. -/
def elementPath (i : ℕ) : List Side := List.replicate i .cdr ++ [.car]

/-- The way from a call to its argument `i`. -/
def argPath (i : ℕ) : List Side := .cdr :: elementPath i

/-- The way from a `let` to its initialiser `i`. -/
def initPath (i : ℕ) : List Side := .cdr :: .car :: (elementPath i ++ argPath 0)

/-- The way from a `let` to the form `i` of its body. -/
def bodyPath (i : ℕ) : List Side := .cdr :: .cdr :: elementPath i

section Ways

variable {e : Sexpr} {es : List Sexpr} {i : ℕ}

theorem walk_element (h : es[i]? = some e) :
    scopes.walk .forms (.list es) (elementPath i) = some ⟨.form, e, []⟩ := by
  induction i generalizing es with
  | zero =>
    cases es with
    | nil => cases h
    | cons e' es =>
      cases h
      rfl
  | succ i ih =>
    cases es with
    | nil => cases h
    | cons e' es =>
      have hchild : scopes.child .forms (.list (e' :: es)) .cdr = some ⟨.forms, .list es, []⟩ := rfl
      exact (Rules.walk_step hchild).trans (ih h)

/-- The bindings of a `let` as they are written. -/
def bindingList (bindings : List (String × Sexpr)) : Sexpr :=
  .list (bindings.map fun p => .list [.sym p.1, p.2])

/-- A free variable of a list is one of an element. -/
theorem free_forms_list {x : String} : ∀ {es : List Sexpr} {p : List Side},
    scopes.Free .forms (.list es) p x → ∃ i q, i < es.length ∧ p = elementPath i ++ q
  | [], p, h => by
    obtain ⟨a, ha, hx, -⟩ := h
    cases p with
    | nil => cases ha; cases hx
    | cons d p => cases d <;> cases ha
  | e :: es, p, h => by
    cases p with
    | nil =>
      obtain ⟨a, ha, hx, -⟩ := h
      cases ha
      cases hx
    | cons d p =>
      cases d with
      | car => exact ⟨0, p, Nat.zero_lt_succ _, rfl⟩
      | cdr =>
        have hchild : scopes.child .forms (.list (e :: es)) .cdr =
          some ⟨.forms, .list es, []⟩ := rfl
        obtain ⟨i, q, hi, rfl⟩ := free_forms_list ((Rules.free_step hchild).mp h)
        exact ⟨i + 1, q, Nat.succ_lt_succ hi, rfl⟩

/-- A free variable of a form is its head, or is behind the head. -/
theorem freeAt_cons {s x : String} {tail : Sexpr} {p : List Side}
    (h : FreeAt (.cons (.sym s) tail) p x) : p = [.car] ∨ ∃ q, p = .cdr :: q := by
  obtain ⟨a, ha, hx, -⟩ := h
  cases p with
  | nil => cases ha; cases hx
  | cons d p =>
    cases d with
    | cdr => exact .inr ⟨p, rfl⟩
    | car =>
      cases p with
      | nil => exact .inl rfl
      | cons d p => cases d <;> cases ha

/-- A free variable of a call that binds nothing is its head, or one of an argument. -/
theorem freeAt_call {f x : String} {es : List Sexpr} {p : List Side}
    (hf : tailPlace f (.list es) = ⟨.forms, .list es, []⟩) (h : FreeAt (symList f es) p x) :
    p = [.car] ∨ ∃ i q, i < es.length ∧ p = argPath i ++ q := by
  cases freeAt_cons h with
  | inl hp => exact .inl hp
  | inr hp =>
    obtain ⟨q, rfl⟩ := hp
    have hchild : scopes.child .form (symList f es) .cdr = some ⟨.forms, .list es, []⟩ :=
      congrArg some hf
    obtain ⟨i, q, hi, rfl⟩ := free_forms_list ((Rules.free_step hchild).mp h)
    exact .inr ⟨i, q, hi, rfl⟩

theorem walk_binding {bindings : List (String × Sexpr)} {x : String}
    (h : bindings[i]? = some (x, e)) :
    scopes.walk .bindings (bindingList bindings) (elementPath i) =
      some ⟨.binding, .list [.sym x, e], []⟩ := by
  induction i generalizing bindings with
  | zero =>
    cases bindings with
    | nil => cases h
    | cons b bindings =>
      cases h
      rfl
  | succ i ih =>
    cases bindings with
    | nil => cases h
    | cons b bindings =>
      have hchild : scopes.child .bindings (bindingList (b :: bindings)) .cdr =
        some ⟨.bindings, bindingList bindings, []⟩ := rfl
      exact (Rules.walk_step hchild).trans (ih h)

/-- An argument of a call that binds nothing. -/
theorem walk_arg {f : String} (hf : tailPlace f (.list es) = ⟨.forms, .list es, []⟩)
    (h : es[i]? = some e) :
    scopes.walk .form (symList f es) (argPath i) = some ⟨.form, e, []⟩ := by
  have hchild : scopes.child .form (symList f es) .cdr = some ⟨.forms, .list es, []⟩ :=
    congrArg some hf
  exact (Rules.walk_step hchild).trans (walk_element h)

variable {bindings : List (String × Sexpr)} {body : List Sexpr}

theorem bindingNames_bindingList : ∀ bindings : List (String × Sexpr),
    bindingNames (bindingList bindings) = bindings.map fun p => variableName p.1
  | [] => rfl
  | (x, _) :: bindings => congrArg (variableName x :: ·) (bindingNames_bindingList bindings)

theorem child_letForm : scopes.child .form (letForm bindings body) .cdr =
    some ⟨.letTail, .cons (bindingList bindings) (.list body),
      bindings.map fun p => variableName p.1⟩ := by
  rw [← bindingNames_bindingList]
  rfl

/-- All names of a `let` are bound in its initialisers. -/
theorem walk_init {x : String} (h : bindings[i]? = some (x, e)) :
    scopes.walk .form (letForm bindings body) (initPath i) =
      some ⟨.form, e, bindings.map fun p => variableName p.1⟩ := by
  have hinit : scopes.walk .binding (.list [.sym x, e]) (argPath 0) = some ⟨.form, e, []⟩ := rfl
  have hchild : scopes.child .letTail (.cons (bindingList bindings) (.list body)) .car =
    some ⟨.bindings, bindingList bindings, []⟩ := rfl
  have htail := (Rules.walk_step hchild).trans (Rules.walk_trans (walk_binding h) hinit)
  have hlet := Rules.walk_cons child_letForm htail
  rwa [List.append_nil, List.append_nil] at hlet

theorem walk_body (h : body[i]? = some e) :
    scopes.walk .form (letForm bindings body) (bodyPath i) =
      some ⟨.form, e, bindings.map fun p => variableName p.1⟩ := by
  have hchild : scopes.child .letTail (.cons (bindingList bindings) (.list body)) .cdr =
    some ⟨.forms, .list body, []⟩ := rfl
  have htail := (Rules.walk_step hchild).trans (walk_element h)
  have hlet := Rules.walk_cons child_letForm htail
  rwa [List.append_nil] at hlet

end Ways

end Extempore.SurfaceScopes
