import Extempore.MatchVariables

/-!
# Pattern matching

The walk of `match` over a match expression and an expression, the language of a pattern, and when
what the walk accepts is in the language. The walk stops early in two places: when the expression
has run out it accepts any rest of a pattern that holds a `??` or `???` variable, and when a variable
is left with no element, because the rest of the pattern needs them all, it does not read that rest.
-/

namespace Extempore.PatternMatching

open MatchVariables MatchVariables.Datum

variable {N : Type}

/-- `(match-symbol e em)` -/
def matchSymbol (e : List Char) : Datum N → Datum N
  | .sym em => if e = em then matchTrue else matchFailed
  | _ => matchFailed

/-- `(match-string e em)` -/
def matchString (e : List Char) : Datum N → Datum N
  | .str em => if e = em then matchTrue else matchFailed
  | _ => matchFailed

/-- `(match-number e em)` -/
def matchNumber (g : Globals N) (e : N) : Datum N → Datum N
  | .num em => if g.numEq e em then matchTrue else matchFailed
  | _ => matchFailed

/-- `(match-vector e em)`, where `=` takes no vectors. -/
def matchVector : Datum N → Option (Datum N)
  | .vec _ => none
  | _ => some matchFailed

/-- `(list a b)` -/
def list2 (a b : Datum N) : Datum N := .pair a (.pair b .nil)

/-- The failed values of `literal-match?`. -/
def isFailure (g : Globals N) (b : Datum N) : Bool :=
  equal g b (.bool false) || equal g b (.pair matchFailed .nil) || equal g b matchFailed

/-- The size of the element that `check-for-literal-match` compares with. -/
def headSize : List (Var N) → ℕ
  | [] => 0
  | em :: _ => em.full.size

theorem headSize_lt (a d : Datum N) :
    headSize (d.elements.map variableConstructor) < (Datum.pair a d).size := by
  cases d with
  | pair b d =>
    have h := size_full_le b
    simp only [elements, List.map_cons, headSize, size]
    omega
  | nil | sym | num | str | bool | vec | obj => simp [elements, headSize, size]

theorem one_lt_size_pair (a d : Datum N) : 1 < (Datum.pair a d).size := by
  have h := size_pos a
  have h' := size_pos d
  simp only [size]
  omega

mutual

/-- `(match-expr e em)`; `none` is a raised error. -/
def matchExpr (g : Globals N) (e em : Datum N) : Option (Datum N) :=
  let var := variableConstructor em
  if !isLiteral var then some (matchCheckVariable g e var)
  else match e with
    | .sym s => some (matchSymbol s em)
    | .str s => some (matchString s em)
    | .num n => some (matchNumber g n em)
    | .vec _ => matchVector em
    | e =>
      if e.isList then do
        let res ← matchList g e em
        some (if res.isList then ofList res.flatten else .pair res .nil)
      else if e.isPair then matchPair g e em
      else some matchFailed
termination_by (em.size, 2)

/-- `(match-pair e em)` -/
def matchPair (g : Globals N) (e em : Datum N) : Option (Datum N) :=
  match e, em with
  | .pair a d, .pair pa pd => do
    let r ← matchExpr g a pa
    let s ← matchExpr g d pd
    some (list2 r s)
  | _, _ => some matchFailed
termination_by (em.size, 1)
decreasing_by
  all_goals simp only [size, Prod.lex_def]
  all_goals omega

/-- `(match-list e em)` -/
def matchList (g : Globals N) (e em : Datum N) : Option (Datum N) :=
  match e, em with
  | .nil, .nil => some .nil
  | .nil, em =>
    if em.isList then
      some (if (em.elements.map variableConstructor).any isMatchMulti then .nil else matchFailed)
    else none
  | .pair a d, .pair pa pd =>
    if (Datum.pair pa pd).isList then
      let var := variableConstructor pa
      if isLiteral var then
        if a.isList then do
          let r ← matchList g a pa
          let s ← matchList g d pd
          some (list2 r s)
        else if a.isPair then do
          let r ← matchPair g a pa
          let s ← matchList g d pd
          some (list2 r s)
        else if equal g a var.full then matchList g d pd
        else some matchFailed
      else processMultiVariable g (.pair a d) (.pair pa pd) var
    else some matchFailed
  | _, _ => some matchFailed
termination_by (em.size, 1)
decreasing_by
  all_goals simp only [size, Prod.lex_def, true_and]
  all_goals omega

/-- `(process-multi-variable e em var)` -/
def processMultiVariable (g : Globals N) (e em : Datum N) (var : Var N) : Option (Datum N) :=
  match em with
  | .pair pa pd => do
    let multi := var.marks.length
    let ems := pd.elements.map variableConstructor
    let e2 ← checkForLiteralMatch g e ems
    let emlgth := getEmLength ems
    let elgth := e.elements.length
    let matchlgth := if multi > 1 then getMatchingLength g e2 var else 0
    let globlgth := min (matchlgth : ℤ) ((elgth : ℤ) - emlgth)
    let matchedlst := e.listHead globlgth
    let restlst := if globlgth > 0 then e.listTail globlgth.toNat else .nil
    if multi > 1 then
      if matchlgth = 0 then
        if multi = 2 then some (.pair matchFailed .nil)
        else matchList g e pd
      else do
        let r ← matchExpr g matchedlst (.sym (var.name ++ var.marks ++ "list".toList))
        let s ← if restlst.isNil then some .nil else matchList g restlst pd
        some (list2 r s)
    else if elgth ≠ (Datum.pair pa pd).elements.length then some matchFailed
    else match e with
      | .pair a d => do
        let r ← matchExpr g a pa
        let s ← if d.isNil then some .nil else matchExpr g d pd
        some (list2 r s)
      | _ => none
  | _ => none
termination_by (em.size, 0)
decreasing_by
  all_goals
    have h := headSize_lt pa pd
    have h' := one_lt_size_pair pa pd
    simp only [size, Prod.lex_def] at *
    omega

/-- `(check-for-literal-match expr ems)` -/
def checkForLiteralMatch (g : Globals N) (expr : Datum N) (ems : List (Var N)) :
    Option (Datum N) :=
  match ems with
  | [] => some expr
  | em :: _ => do
    let res ← expr.elements.mapM fun e => do
      let b ← literalMatch g e em
      some (Datum.bool (!b) : Datum N)
    some (expr.listHead (getTrueMatches res))
termination_by (headSize ems, 4)
decreasing_by
  exact Prod.Lex.right _ (by omega)

/-- `(literal-match? expr em)` -/
def literalMatch (g : Globals N) (expr : Datum N) (em : Var N) : Option Bool := do
  let b ← matchExpr g expr em.full
  some (isLiteral em && !isFailure g b)
termination_by (em.full.size, 3)

end

/-- `(map (lambda (x) (if (vector? x) (vector->list x) x)) res)` -/
def mapVectors : Datum N → Option (Datum N)
  | .nil => some .nil
  | .pair (.vec items) d => do
    let rest ← mapVectors d
    some (.pair items rest)
  | .pair a d => do
    let rest ← mapVectors d
    some (.pair a rest)
  | _ => none

/-- `((match em) e)` -/
def matchOf (g : Globals N) (em e : Datum N) : Option (Datum N) := do
  let res ← matchExpr g e em
  let pairs ← mapVectors res
  some (if treeMember g matchFailed res then .bool false else pairs)

/-! ## Patterns and their language -/

/-- How many elements a variable takes. -/
inductive Kind
  | one
  | oneOrMore
  | zeroOrMore
deriving DecidableEq

def Kind.marks : Kind → ℕ
  | one => 1
  | oneOrMore => 2
  | zeroOrMore => 3

/-- A match variable `name?pred`, `name??pred` or `name???pred`. -/
structure Variable where
  name : List Char
  kind : Kind
  predicate : List Char
  name_plain : '?' ∉ name
  predicate_plain : ∀ c ∈ predicate.head?, c ≠ '?'
  predicate_line : '\n' ∉ predicate

/-- The items of a list pattern. -/
inductive Items (N : Type)
  | nil
  | word (text : List Char) (plain : '?' ∉ text) (rest : Items N)
  | number (n : N) (rest : Items N)
  | var (v : Variable) (rest : Items N)
  | nested (inner rest : Items N)

/-- A whole pattern. -/
inductive Pattern (N : Type)
  | items (p : Items N)
  | word (text : List Char) (plain : '?' ∉ text)
  | number (n : N)
  | var (v : Variable) (single : v.kind = .one)

def Variable.toDatum (v : Variable) : Datum N :=
  .sym (v.name ++ (List.replicate v.kind.marks '?' ++ v.predicate))

def Items.toDatum : Items N → Datum N
  | .nil => .nil
  | .word text _ rest => .pair (.sym text) rest.toDatum
  | .number n rest => .pair (.num n) rest.toDatum
  | .var v rest => .pair v.toDatum rest.toDatum
  | .nested inner rest => .pair inner.toDatum rest.toDatum

def Pattern.toDatum : Pattern N → Datum N
  | .items p => p.toDatum
  | .word text _ => .sym text
  | .number n => .num n
  | .var v _ => v.toDatum

def Satisfies (g : Globals N) (v : Variable) (e : Datum N) : Prop :=
  (matchCheckVariablePredicates g e v.predicate).isTruthy = true

/-- A name with what it has matched. -/
abbrev Binding (N : Type) := List Char × Datum N

/-- What a variable returns: nothing when it has no name. -/
def Variable.bound (v : Variable) (e : Datum N) : List (Binding N) :=
  if v.name = [] then [] else [(v.name, e)]

/-- The items read the elements with these bindings. A `???` variable that takes nothing may go
without a binding. -/
inductive Reads (g : Globals N) : Items N → List (Datum N) → List (Binding N) → Prop
  | nil : Reads g .nil [] []
  | word {text plain rest es bs} (h : Reads g rest es bs) :
      Reads g (.word text plain rest) (.sym text :: es) bs
  | number {n m rest es bs} (heq : g.numEq m n = true) (h : Reads g rest es bs) :
      Reads g (.number n rest) (.num m :: es) bs
  | nested {inner rest xs es bs cs} (hinner : Reads g inner xs bs) (h : Reads g rest es cs) :
      Reads g (.nested inner rest) (.ofList xs :: es) (bs ++ cs)
  | one {v rest x es bs} (hv : v.kind = .one) (hx : Satisfies g v x) (h : Reads g rest es bs) :
      Reads g (.var v rest) (x :: es) (v.bound x ++ bs)
  | oneOrMore {v rest xs es bs} (hv : v.kind = .oneOrMore) (hne : xs ≠ [])
      (hxs : ∀ x ∈ xs, Satisfies g v x) (h : Reads g rest es bs) :
      Reads g (.var v rest) (xs ++ es) (v.bound (.ofList xs) ++ bs)
  | zeroOrMore {v rest xs es bs} (hv : v.kind = .zeroOrMore)
      (hxs : ∀ x ∈ xs, Satisfies g v x) (h : Reads g rest es bs) :
      Reads g (.var v rest) (xs ++ es) (v.bound (.ofList xs) ++ bs)
  | unbound {v rest es bs} (hv : v.kind = .zeroOrMore) (h : Reads g rest es bs) :
      Reads g (.var v rest) es bs

/-- The language of a pattern. -/
inductive InLanguage (g : Globals N) : Pattern N → Datum N → List (Binding N) → Prop
  | items {p es bs} (h : Reads g p es bs) : InLanguage g (.items p) (.ofList es) bs
  | word {text plain} : InLanguage g (.word text plain) (.sym text) []
  | number {n m} (heq : g.numEq m n = true) : InLanguage g (.number n) (.num m) []
  | var {v single x} (hx : Satisfies g v x) : InLanguage g (.var v single) x (v.bound x)

/-- The list of bindings that `match` returns. -/
def returned (bs : List (Binding N)) : Datum N :=
  .ofList (bs.map fun b => .ofList [.str b.1, b.2])

/-- What `match` returns is `#f` or says how the expression is in the language. -/
def Sound (g : Globals N) (p : Pattern N) (e : Datum N) : Prop :=
  ∀ r, matchOf g p.toDatum e = some r → r = .bool false ∨
    ∃ bs, InLanguage g p e bs ∧ r = returned bs

/-! ## Where the walk stops -/

/-- The items as `process-multi-variable` reads them. -/
def Items.vars (p : Items N) : List (Var N) := p.toDatum.elements.map variableConstructor

/-- `emlgth`, the items that are not `???` variables. -/
def Items.emlgth (p : Items N) : ℕ := getEmLength p.vars

def Variable.toVar (v : Variable) : Var N :=
  ⟨.str (v.name ++ List.replicate v.kind.marks '?' ++ v.predicate), v.name,
    List.replicate v.kind.marks '?', v.predicate⟩

/-- `matchlgth`, the leading elements before the next literal that satisfy the predicate. -/
def matchlgth (g : Globals N) (v : Variable) (rest : Items N) (es : List (Datum N)) : ℕ :=
  match checkForLiteralMatch g (.ofList es) rest.vars with
  | some e2 => getMatchingLength g e2 v.toVar
  | none => 0

/-- How many elements a `??` or `???` variable takes. -/
def taken (g : Globals N) (v : Variable) (rest : Items N) (es : List (Datum N)) : ℕ :=
  min (matchlgth g v rest es) (es.length - rest.emlgth)

/-- What is left of the pattern and of the elements where the walk stops: at the end of the elements,
or where a `??` or `???` variable finds elements for itself but the rest of the pattern needs as many
as there are. -/
def unread (g : Globals N) : Items N → List (Datum N) → List (Items N × List (Datum N))
  | p, [] => [(p, [])]
  | .nil, _ :: _ => []
  | .word _ _ rest, _ :: es => unread g rest es
  | .number _ rest, _ :: es => unread g rest es
  | .nested inner rest, e :: es => unread g inner e.elements ++ unread g rest es
  | .var v rest, e :: es =>
    if v.kind = .one then unread g rest es
    else if matchlgth g v rest (e :: es) = 0 then unread g rest (e :: es)
    else if (e :: es).length ≤ rest.emlgth then [(.var v rest, e :: es)]
    else unread g rest ((e :: es).drop (taken g v rest (e :: es)))

/-- No predicate has the name `literal`, by which the matcher knows what is no variable. -/
def Items.NoTag : Items N → Prop
  | .nil => True
  | .word _ _ rest => rest.NoTag
  | .number _ rest => rest.NoTag
  | .var v rest => v.predicate ≠ literalTag ∧ rest.NoTag
  | .nested inner rest => inner.NoTag ∧ rest.NoTag

/-- The names of the variables that have one. -/
def Items.names : Items N → List (List Char)
  | .nil => []
  | .word _ _ rest => rest.names
  | .number _ rest => rest.names
  | .var v rest => (if v.name = [] then [] else [v.name]) ++ rest.names
  | .nested inner rest => inner.names ++ rest.names

/-- Every variable that may take several elements has a name. -/
def Items.MultiNamed : Items N → Prop
  | .nil => True
  | .word _ _ rest => rest.MultiNamed
  | .number _ rest => rest.MultiNamed
  | .var v rest => (v.kind ≠ .one → v.name ≠ []) ∧ rest.MultiNamed
  | .nested inner rest => inner.MultiNamed ∧ rest.MultiNamed

/-- Wherever the walk stops, what is left of the pattern reads what is left of the elements without a
binding. -/
def Finished (g : Globals N) (p : Items N) (es : List (Datum N)) : Prop :=
  ∀ x ∈ unread g p es, Reads g x.1 x.2 []

/-! ## The walk over list patterns -/

theorem Items.isList_toDatum (p : Items N) : p.toDatum.isList = true := by
  induction p with
  | nil => rfl
  | word text plain rest ih => exact ih
  | number n rest ih => exact ih
  | var v rest ih => exact ih
  | nested inner rest _ ih => exact ih

theorem isSym_of_isList {d : Datum N} (h : d.isList = true) : d.isSym = false := by
  cases d with
  | sym => cases h
  | nil | pair | num | str | bool | vec | obj => rfl

theorem isLiteral_literalVar (em : Datum N) : isLiteral (literalVar em) = true := rfl

theorem isLiteral_of_isList {em : Datum N} (h : em.isList = true) :
    isLiteral (variableConstructor em) = true := by
  rw [variableConstructor_of_not_sym (isSym_of_isList h)]
  rfl

theorem variableConstructor_toDatum (v : Variable) :
    variableConstructor (v.toDatum : Datum N) = v.toVar := by
  have hk : 0 < v.kind.marks := by cases v.kind <;> decide
  exact variableConstructor_variable hk v.name_plain v.predicate_plain v.predicate_line

theorem isLiteral_toVar {v : Variable} (h : v.predicate ≠ literalTag) :
    isLiteral (v.toVar : Var N) = false := by
  simpa [isLiteral, Variable.toVar] using h

@[simp] theorem treeMember_list2 (g : Globals N) (r s : Datum N) :
    treeMember g matchFailed (list2 r s) =
      (treeMember g matchFailed r || treeMember g matchFailed s) := by
  simp [list2, treeMember]

@[simp] theorem treeMember_nil (g : Globals N) : treeMember g matchFailed .nil = false := rfl

@[simp] theorem treeMember_matchFailed (g : Globals N) :
    treeMember g matchFailed (matchFailed : Datum N) = true := by
  simp [treeMember, matchFailed, equal]

/-- A failed result is not accepted. -/
theorem failed_absurd {g : Globals N} {P : Prop}
    (hr : treeMember g matchFailed (matchFailed : Datum N) = false) : P := by
  rw [treeMember_matchFailed] at hr
  cases hr

@[simp] theorem treeMember_failures (g : Globals N) :
    treeMember g matchFailed (.pair matchFailed .nil : Datum N) = true := by
  simp [treeMember, matchFailed, equal]

/-- A variable checks its predicate. -/
theorem matchExpr_variable {g : Globals N} {e em : Datum N}
    (hlit : isLiteral (variableConstructor em) = false) :
    matchExpr g e em = some (matchCheckVariable g e (variableConstructor em)) := by
  rw [matchExpr.eq_def]
  simp only [hlit, Bool.not_false, if_true]

/-- What `match-expr` makes of the result of `match-list`. -/
def listResult (res : Datum N) : Datum N :=
  if res.isList then .ofList res.flatten else .pair res .nil

/-- A list is matched with what is no variable as a list. -/
theorem matchExpr_list {g : Globals N} {e em : Datum N} (he : e.isList = true)
    (hlit : isLiteral (variableConstructor em) = true) :
    matchExpr g e em = (matchList g e em).map listResult := by
  cases e with
  | nil =>
    simp only [matchExpr, hlit, he]
    cases matchList g .nil em <;> rfl
  | pair a d =>
    simp only [matchExpr, hlit, he]
    cases matchList g (.pair a d) em <;> rfl
  | sym | num | str | bool | vec | obj => cases he

/-- An improper pair is matched with what is no variable as a pair. -/
theorem matchExpr_pair {g : Globals N} {a d em : Datum N} (hd : d.isList = false)
    (hlit : isLiteral (variableConstructor em) = true) :
    matchExpr g (.pair a d) em = matchPair g (.pair a d) em := by
  have hl : (Datum.pair a d).isList = false := hd
  simp only [matchExpr, hlit, hl, isPair]
  rfl

/-- An atom does not match a list pattern. -/
theorem matchExpr_atom {g : Globals N} {e em : Datum N} (he : e.isList = false)
    (hp : e.isPair = false) (hem : em.isList = true) :
    matchExpr g e em = some matchFailed := by
  have hlit := isLiteral_of_isList hem
  have hshape : em = .nil ∨ ∃ pa pd, em = .pair pa pd := by
    cases em with
    | nil => exact .inl rfl
    | pair pa pd => exact .inr ⟨pa, pd, rfl⟩
    | sym | num | str | bool | vec | obj => cases hem
  cases e with
  | nil => cases he
  | pair => cases hp
  | sym | num | str | bool | vec | obj =>
    rcases hshape with rfl | ⟨pa, pd, rfl⟩ <;> simp only [matchExpr, hlit] <;> rfl

/-- What is no list does not match a list pattern. -/
theorem treeMember_of_not_list {g : Globals N} {e em r : Datum N} (he : e.isList = false)
    (hem : em.isList = true) (h : matchExpr g e em = some r) :
    treeMember g matchFailed r = true := by
  induction e generalizing em r with
  | nil => cases he
  | pair a d _ ih =>
    have hd : d.isList = false := he
    rw [matchExpr_pair hd (isLiteral_of_isList hem)] at h
    cases em with
    | nil =>
      rw [matchPair] at h
      · cases h
        exact treeMember_matchFailed g
      · intro a d pa pd _ hpd
        cases hpd
    | pair pa pd =>
      simp only [matchPair, Option.bind_eq_bind, Option.bind_eq_some_iff] at h
      obtain ⟨x, _, y, hy, hr⟩ := h
      cases hr
      have hpd : pd.isList = true := hem
      rw [treeMember_list2, ih hd hpd hy, Bool.or_true]
    | sym | num | str | bool | vec | obj => cases hem
  | sym | num | str | bool | vec | obj =>
    rw [matchExpr_atom he rfl hem] at h
    cases h
    exact treeMember_matchFailed g

/-- At the end of the elements the walk stops. -/
theorem matchList_nil {g : Globals N} {em r : Datum N} (h : matchList g .nil em = some r)
    (hr : treeMember g matchFailed r = false) : r = .nil := by
  cases em with
  | nil =>
    simp only [matchList] at h
    exact (Option.some.inj h).symm
  | pair pa pd =>
    simp only [matchList] at h
    split_ifs at h
    · exact (Option.some.inj h).symm
    · cases h
      exact failed_absurd hr
  | sym | num | str | bool | vec | obj => simp [matchList, isList] at h

/-- A literal item in front of a list pattern. -/
theorem matchList_literal {g : Globals N} {a d pa pd : Datum N} (hpd : pd.isList = true)
    (hlit : isLiteral (variableConstructor pa) = true) :
    matchList g (.pair a d) (.pair pa pd) =
      if a.isList then do
        let r ← matchList g a pa
        let s ← matchList g d pd
        some (list2 r s)
      else if a.isPair then do
        let r ← matchPair g a pa
        let s ← matchList g d pd
        some (list2 r s)
      else if equal g a (variableConstructor pa).full then matchList g d pd
      else some matchFailed := by
  have hl : (Datum.pair pa pd).isList = true := hpd
  rw [matchList]
  simp only [hl, hlit, if_true]

/-- A variable in front of a list pattern. -/
theorem matchList_variable {g : Globals N} {a d pa pd : Datum N} (hpd : pd.isList = true)
    (hlit : isLiteral (variableConstructor pa) = false) :
    matchList g (.pair a d) (.pair pa pd) =
      processMultiVariable g (.pair a d) (.pair pa pd) (variableConstructor pa) := by
  have hl : (Datum.pair pa pd).isList = true := hpd
  rw [matchList]
  simp only [hl, hlit, if_true, Bool.false_eq_true, if_false]

/-- No list matches a pattern that is an atom. -/
theorem matchList_atom {g : Globals N} {a pa r : Datum N} (hpa : pa.isList = false)
    (hp : pa.isPair = false) (h : matchList g a pa = some r) : r = matchFailed := by
  cases pa with
  | nil => cases hpa
  | pair => cases hp
  | sym | num | str | bool | vec | obj =>
    cases a with
    | nil => simp [matchList, isList] at h
    | pair | sym | num | str | bool | vec | obj =>
      simp only [matchList] at h
      exact (Option.some.inj h).symm

theorem treeMember_append (g : Globals N) (as bs : List (Datum N)) :
    treeMember g matchFailed (.ofList (as ++ bs)) =
      (treeMember g matchFailed (.ofList as) || treeMember g matchFailed (.ofList bs)) := by
  induction as with
  | nil => simp
  | cons a as ih => simp [treeMember, ih, Bool.or_assoc]

/-- Flattening keeps the failures. -/
theorem treeMember_flatten (g : Globals N) {s : Datum N} (hs : s.isList = true) :
    treeMember g matchFailed (.ofList s.flatten) = treeMember g matchFailed s := by
  induction s with
  | nil => rfl
  | pair a d iha ihd =>
    simp only [flatten, treeMember_append, treeMember, ihd hs]
    by_cases ha : a.isList = true
    · rw [if_pos ha, iha ha]
    · rw [if_neg ha]
      simp [treeMember]
  | sym | num | str | bool | vec | obj => cases hs

theorem treeMember_listResult (g : Globals N) (s : Datum N) :
    treeMember g matchFailed (listResult s) = treeMember g matchFailed s := by
  by_cases hs : s.isList = true
  · rw [listResult, if_pos hs, treeMember_flatten g hs]
  · rw [listResult, if_neg hs]
    simp [treeMember]

/-- What a variable adds to the results. -/
def Variable.result (v : Variable) (e : Datum N) : Datum N :=
  if v.name = [] then matchTrue else binding v.name e

theorem matchCheckVariable_toVar (g : Globals N) (v : Variable) (x : Datum N) :
    (matchCheckVariable g x v.toVar = v.result x ∧ Satisfies g v x) ∨
      matchCheckVariable g x v.toVar = matchFailed := by
  by_cases hboth : v.name = [] ∧ v.predicate = []
  · refine .inl ⟨?_, ?_⟩
    · simp [matchCheckVariable, Variable.toVar, Variable.result, hboth]
    · simp [Satisfies, hboth.2, isTruthy]
  · by_cases hsat : (matchCheckVariablePredicates g x v.predicate).isTruthy = true
    · refine .inl ⟨?_, hsat⟩
      simp only [matchCheckVariable, Variable.toVar, hboth, hsat, if_true, if_false]
      rfl
    · refine .inr ?_
      simp only [matchCheckVariable, Variable.toVar, hboth, hsat, if_false]
      rfl

/-- The elements that a variable takes are bound through a variable for lists. -/
theorem matchExpr_taken (g : Globals N) (v : Variable) (xs : List (Datum N)) :
    matchExpr g (.ofList xs) (.sym (v.name ++ List.replicate v.kind.marks '?' ++ "list".toList)) =
      some (v.result (.ofList xs)) := by
  have hk : 0 < v.kind.marks := by cases v.kind <;> decide
  have hmark : ∀ c ∈ "list".toList.head?, c ≠ '?' := by
    intro c hc
    cases hc
    decide
  have hvar := @variableConstructor_variable N v.name "list".toList _ hk v.name_plain hmark
    (by decide)
  rw [← List.append_assoc] at hvar
  have hlit : isLiteral (variableConstructor (Datum.sym (v.name ++
      List.replicate v.kind.marks '?' ++ "list".toList) : Datum N)) = false := by
    rw [hvar]
    rfl
  have hlist : (matchCheckVariablePredicates g (.ofList xs) "list".toList).isTruthy = true := by
    rw [matchCheckVariablePredicates_list, isList_ofList]
    rfl
  have hne : ¬(v.name = [] ∧ "list".toList = []) := fun h => absurd h.2 (by decide)
  rw [matchExpr_variable hlit, hvar]
  simp only [matchCheckVariable, hlist, hne, if_true, if_false]
  rfl

/-- The elements in front of the next literal are leading elements. -/
theorem checkForLiteralMatch_take {g : Globals N} {es : List (Datum N)} {ems : List (Var N)}
    {e2 : Datum N} (h : checkForLiteralMatch g (.ofList es) ems = some e2) :
    ∃ k, e2 = .ofList (es.take k) := by
  cases ems with
  | nil =>
    simp only [checkForLiteralMatch] at h
    cases h
    exact ⟨es.length, by rw [List.take_length]⟩
  | cons em ems =>
    simp only [checkForLiteralMatch, Option.bind_eq_bind, Option.bind_eq_some_iff] at h
    obtain ⟨res, _, hr⟩ := h
    cases hr
    exact ⟨_, by rw [listHead, elements_ofList]⟩

/-- The elements that `process-multi-variable` counts satisfy the predicate. -/
theorem satisfies_of_matchlgth {g : Globals N} {v : Variable} {rest : Items N}
    {es : List (Datum N)} {k : ℕ} (hk : k ≤ matchlgth g v rest es) :
    ∀ x ∈ es.take k, Satisfies g v x := by
  rw [matchlgth] at hk
  cases hc : checkForLiteralMatch g (.ofList es) rest.vars with
  | none =>
    rw [hc] at hk
    have hk0 : k = 0 := Nat.le_zero.mp hk
    simp [hk0]
  | some e2 =>
    rw [hc] at hk
    obtain ⟨n, hn⟩ := checkForLiteralMatch_take hc
    subst hn
    simp only [getMatchingLength, getTrueMatches, elements_ofList] at hk
    have hkn : k ≤ (es.take n).length := by
      refine Nat.le_trans hk (Nat.le_trans (List.takeWhile_sublist _).length_le ?_)
      exact Nat.le_of_eq (List.length_map _)
    have htake : es.take k = (es.take n).take k := by
      rw [List.length_take] at hkn
      rw [List.take_take, Nat.min_eq_left (Nat.le_trans hkn (Nat.min_le_left _ _))]
    rw [htake]
    exact matching_of_lt hk

/-- The ways in which a variable goes on with a list. -/
inductive VariableStep (g : Globals N) (v : Variable) (rest : Items N) (x : Datum N)
    (es : List (Datum N)) : Datum N → Prop
  | one {s} (hv : v.kind = .one) (hx : Satisfies g v x)
      (h : matchList g (.ofList es) rest.toDatum = some s) :
      VariableStep g v rest x es (list2 (v.result x) (listResult s))
  | skip {s} (hv : v.kind = .zeroOrMore) (hm : matchlgth g v rest (x :: es) = 0)
      (h : matchList g (.ofList (x :: es)) rest.toDatum = some s) :
      VariableStep g v rest x es s
  | stop (hv : v.kind ≠ .one) (hm : matchlgth g v rest (x :: es) ≠ 0)
      (hlen : (x :: es).length ≤ rest.emlgth) :
      VariableStep g v rest x es (list2 (v.result .nil) .nil)
  | all (hv : v.kind ≠ .one) (hm : matchlgth g v rest (x :: es) ≠ 0)
      (hlen : rest.emlgth < (x :: es).length)
      (hnil : (x :: es).drop (taken g v rest (x :: es)) = []) :
      VariableStep g v rest x es (list2 (v.result (.ofList (x :: es))) .nil)
  | many {s} (hv : v.kind ≠ .one) (hm : matchlgth g v rest (x :: es) ≠ 0)
      (hlen : rest.emlgth < (x :: es).length)
      (h : matchList g (.ofList ((x :: es).drop (taken g v rest (x :: es)))) rest.toDatum =
        some s) :
      VariableStep g v rest x es
        (list2 (v.result (.ofList ((x :: es).take (taken g v rest (x :: es))))) s)

/-- A `?` variable takes one element and the rest is matched as an expression. -/
theorem processMultiVariable_one {g : Globals N} {v : Variable} {rest : Items N} {x r : Datum N}
    {es : List (Datum N)} (hv : v.kind = .one) (htag : v.predicate ≠ literalTag)
    (h : processMultiVariable g (.ofList (x :: es)) (Items.var v rest).toDatum v.toVar = some r)
    (hr : treeMember g matchFailed r = false) : VariableStep g v rest x es r := by
  have hmarks : ¬ (v.toVar : Var N).marks.length > 1 := by
    simp [Variable.toVar, hv, Kind.marks]
  simp only [Items.toDatum, ofList_cons, processMultiVariable, hmarks, if_false,
    Option.bind_eq_bind, Option.bind_eq_some_iff] at h
  obtain ⟨e2, -, h⟩ := h
  have hlit : isLiteral (variableConstructor (v.toDatum : Datum N)) = false := by
    rw [variableConstructor_toDatum]
    exact isLiteral_toVar htag
  have hhead : (matchExpr g x v.toDatum) = some (matchCheckVariable g x v.toVar) := by
    rw [matchExpr_variable hlit, variableConstructor_toDatum]
  rw [hhead] at h
  split_ifs at h with hlen hnil
  · cases h
    exact failed_absurd hr
  · -- The last element: the lengths agree, so that the pattern is at its end too.
    cases h
    cases es with
    | cons y ys => cases hnil
    | nil =>
      have hrest : rest.toDatum.elements = [] := by
        simpa [elements] using hlen
      have hnilp : rest.toDatum = .nil := by
        rw [← ofList_elements rest.isList_toDatum, hrest, ofList_nil]
      have hmatch : matchList g (.ofList []) rest.toDatum = some .nil := by
        rw [hnilp, ofList_nil]
        simp only [matchList]
      rcases matchCheckVariable_toVar g v x with ⟨hx, hsat⟩ | hx
      · rw [hx]
        exact .one hv hsat hmatch
      · rw [hx, treeMember_list2, treeMember_matchFailed] at hr
        cases hr
  · rw [matchExpr_list (isList_ofList es) (isLiteral_of_isList rest.isList_toDatum)] at h
    simp only [Option.bind_some, Option.bind_eq_some_iff, Option.map_eq_some_iff] at h
    obtain ⟨_, ⟨s, hs, rfl⟩, hrs⟩ := h
    cases hrs
    rcases matchCheckVariable_toVar g v x with ⟨hx, hsat⟩ | hx
    · rw [hx]
      exact .one hv hsat hs
    · rw [hx, treeMember_list2, treeMember_matchFailed] at hr
      cases hr

/-- `globlgth` is the number of elements that are taken, and it is positive if the rest of the
pattern leaves one. -/
theorem globlgth_taken (g : Globals N) (v : Variable) (rest : Items N) (es : List (Datum N))
    (hm : matchlgth g v rest es ≠ 0) :
    (min (matchlgth g v rest es : ℤ) (es.length - rest.emlgth)).toNat = taken g v rest es ∧
      (min (matchlgth g v rest es : ℤ) (es.length - rest.emlgth) > 0 ↔
        rest.emlgth < es.length) := by
  rw [taken]
  omega

/-- A `??` or `???` variable takes what the rest of the pattern leaves to it. -/
theorem processMultiVariable_multi {g : Globals N} {v : Variable} {rest : Items N} {x r : Datum N}
    {es : List (Datum N)} (hv : v.kind ≠ .one)
    (h : processMultiVariable g (.ofList (x :: es)) (Items.var v rest).toDatum v.toVar = some r)
    (hr : treeMember g matchFailed r = false) : VariableStep g v rest x es r := by
  have hmarks : (v.toVar : Var N).marks.length = v.kind.marks := List.length_replicate
  have hmulti : v.kind.marks > 1 := by
    cases hk : v.kind with
    | one => exact absurd hk hv
    | oneOrMore | zeroOrMore => decide
  simp only [Items.toDatum, ofList_cons, processMultiVariable, hmarks, hmulti, if_true,
    Option.bind_eq_bind, Option.bind_eq_some_iff] at h
  obtain ⟨e2, he2, h⟩ := h
  have hm : getMatchingLength g e2 v.toVar = matchlgth g v rest (x :: es) := by
    rw [matchlgth, Items.vars, ofList_cons, he2]
  have hemlgth : getEmLength (rest.toDatum.elements.map variableConstructor) = rest.emlgth := rfl
  have helgth : (x.pair (ofList es)).elements.length = (x :: es).length := by
    rw [← ofList_cons, elements_ofList]
  rw [hm, hemlgth, helgth] at h
  by_cases hzero : matchlgth g v rest (x :: es) = 0
  · rw [if_pos hzero] at h
    split_ifs at h with htwo
    · cases h
      rw [treeMember_failures] at hr
      cases hr
    · have hkind : v.kind = .zeroOrMore := by
        cases hk : v.kind with
        | one => exact absurd hk hv
        | oneOrMore => exact absurd (by rw [hk]; rfl) htwo
        | zeroOrMore => rfl
      exact .skip hkind hzero h
  · rw [if_neg hzero] at h
    obtain ⟨hglob, hpos⟩ := globlgth_taken g v rest (x :: es) hzero
    have hhead : (x.pair (ofList es)).listHead
        (min (matchlgth g v rest (x :: es) : ℤ) ((x :: es).length - rest.emlgth)) =
        .ofList ((x :: es).take (taken g v rest (x :: es))) := by
      rw [listHead, hglob, ← ofList_cons, elements_ofList]
    have htail : (x.pair (ofList es)).listTail (taken g v rest (x :: es)) =
        .ofList ((x :: es).drop (taken g v rest (x :: es))) := by
      rw [← ofList_cons, listTail_ofList]
    have hresult := matchExpr_taken g v ((x :: es).take (taken g v rest (x :: es)))
    rw [hhead, hglob, htail] at h
    simp only [Variable.toVar] at h
    rw [hresult] at h
    by_cases hlen : (x :: es).length ≤ rest.emlgth
    · have htaken : taken g v rest (x :: es) = 0 := by
        rw [taken]
        omega
      rw [if_neg (fun hgt => absurd (hpos.mp hgt) (Nat.not_lt.mpr hlen)), htaken] at h
      cases h
      exact .stop hv hzero hlen
    · rw [if_pos (hpos.mpr (Nat.not_le.mp hlen))] at h
      cases hdrop : (x :: es).drop (taken g v rest (x :: es)) with
      | nil =>
        rw [hdrop] at h
        cases h
        have hall : (x :: es).take (taken g v rest (x :: es)) = x :: es :=
          List.take_of_length_le (List.drop_eq_nil_iff.mp hdrop)
        rw [hall]
        exact .all hv hzero (by omega) hdrop
      | cons y ys =>
        rw [hdrop] at h
        simp only [ofList_cons, isNil, Bool.false_eq_true, if_false, Option.bind_some,
          Option.bind_eq_some_iff] at h
        obtain ⟨s, hs, hrs⟩ := h
        cases hrs
        exact .many hv hzero (by omega) (by rw [hdrop]; exact hs)

/-! ## What the walk returns -/

@[simp] theorem unread_nil (g : Globals N) (p : Items N) : unread g p [] = [(p, [])] := by
  cases p <;> rfl

/-- The result of a walk that has not failed: its vectors are bindings of the pattern's names, and
they are those of a reading if the walk has not stopped early. -/
structure Walk (g : Globals N) (p : Items N) (es : List (Datum N)) (r : Datum N)
    (bs : List (Binding N)) : Prop where
  list : r.isList = true
  flat : r.flatten = bs.map fun b => binding b.1 b.2
  names : ∀ b ∈ bs, b.1 ∈ p.names
  reads : Finished g p es → Reads g p es bs

/-- At the end of the elements nothing is bound. -/
theorem walk_end {g : Globals N} {p : Items N} {r : Datum N}
    (h : matchList g (.ofList []) p.toDatum = some r) (hr : treeMember g matchFailed r = false) :
    ∃ bs, Walk g p [] r bs := by
  rw [matchList_nil h hr]
  refine ⟨[], rfl, rfl, fun b hb => absurd hb List.not_mem_nil, ?_⟩
  intro hf
  exact hf (p, []) (by simp)

theorem flatten_list2 {r s : Datum N} (hr : r.isList = true) (hs : s.isList = true) :
    (list2 r s).flatten = r.flatten ++ s.flatten := by
  simp [list2, flatten, hr, hs]

theorem binding_not_list {bs : List (Binding N)} :
    ∀ a ∈ bs.map fun b => binding b.1 b.2, a.isList = false := by
  intro a ha
  obtain ⟨b, -, rfl⟩ := List.mem_map.mp ha
  rfl

/-- A result of bindings is flattened once. -/
theorem Walk.flatten_listResult {g : Globals N} {p : Items N} {es : List (Datum N)} {r : Datum N}
    {bs : List (Binding N)} (h : Walk g p es r bs) :
    listResult r = .ofList (bs.map fun b => binding b.1 b.2) := by
  rw [listResult, if_pos h.list, h.flat]

/-- What a variable adds and what the walk behind it returns. -/
theorem flatten_result (v : Variable) (x : Datum N) {s : Datum N} {bs : List (Binding N)}
    (hs : s.isList = true) (hflat : s.flatten = bs.map fun b => binding b.1 b.2) :
    (list2 (v.result x) s).flatten =
      (v.bound x ++ bs).map fun b => binding b.1 b.2 := by
  by_cases hname : v.name = []
  · simp [list2, flatten, Variable.result, Variable.bound, hname, matchTrue, isList, hs, hflat]
  · simp [list2, flatten, Variable.result, Variable.bound, hname, binding, isList, hs, hflat]

theorem mem_names_bound {v : Variable} {rest : Items N} {x : Datum N} {bs : List (Binding N)}
    (h : ∀ b ∈ bs, b.1 ∈ rest.names) :
    ∀ b ∈ v.bound x ++ bs, b.1 ∈ (Items.var v rest).names := by
  intro b hb
  rw [Items.names]
  rcases List.mem_append.mp hb with hb | hb
  · apply List.mem_append_left
    by_cases hname : v.name = []
    · simp [Variable.bound, hname] at hb
    · simp [Variable.bound, hname] at hb
      simp [hname, hb]
  · exact List.mem_append_right _ (h b hb)

theorem matchPair_atom {g : Globals N} {a pa : Datum N} (hp : pa.isPair = false) :
    matchPair g a pa = some matchFailed := by
  rw [matchPair.eq_def]
  cases pa with
  | pair => cases hp
  | nil | sym | num | str | bool | vec | obj => cases a <;> rfl

theorem equal_sym {g : Globals N} {a : Datum N} {text : List Char}
    (h : equal g a (.sym text) = true) : a = .sym text := by
  cases a with
  | sym name => exact congrArg Datum.sym (beq_iff_eq.mp h)
  | nil | pair | num | str | bool | vec | obj => cases h

theorem equal_num {g : Globals N} {a : Datum N} {n : N} (h : equal g a (.num n) = true) :
    ∃ m, a = .num m ∧ g.numEq m n = true := by
  cases a with
  | num m => exact ⟨m, rfl, h⟩
  | nil | pair | sym | str | bool | vec | obj => cases h

theorem equal_list {g : Globals N} {a em : Datum N} (hem : em.isList = true)
    (h : equal g a em = true) : a.isList = true ∨ a.isPair = true := by
  cases a with
  | nil => exact .inl rfl
  | pair => exact .inr rfl
  | sym | num | str | bool | vec | obj =>
    cases em with
    | nil | pair => cases h
    | sym | num | str | bool | vec | obj => cases hem

/-- A literal atom matches an equal element. -/
theorem matchList_literal_atom {g : Globals N} {a d pa pd r : Datum N} (hpd : pd.isList = true)
    (hvar : variableConstructor pa = literalVar pa) (hl : pa.isList = false)
    (hp : pa.isPair = false) (h : matchList g (.pair a d) (.pair pa pd) = some r)
    (hr : treeMember g matchFailed r = false) :
    equal g a pa = true ∧ matchList g d pd = some r := by
  have hlit : isLiteral (variableConstructor pa) = true := by
    rw [hvar]
    exact isLiteral_literalVar pa
  rw [matchList_literal hpd hlit, hvar] at h
  split_ifs at h with ha hpair hequal
  · simp only [Option.bind_eq_bind, Option.bind_eq_some_iff] at h
    obtain ⟨x, hx, s, -, hrs⟩ := h
    cases hrs
    rw [matchList_atom hl hp hx, treeMember_list2, treeMember_matchFailed] at hr
    cases hr
  · rw [matchPair_atom hp] at h
    simp only [Option.bind_eq_bind, Option.bind_some, Option.bind_eq_some_iff] at h
    obtain ⟨s, -, hrs⟩ := h
    cases hrs
    rw [treeMember_list2, treeMember_matchFailed] at hr
    cases hr
  · exact ⟨hequal, h⟩
  · cases h
    exact failed_absurd hr

/-- A list item matches a list. -/
theorem matchList_nested {g : Globals N} {a d pa pd r : Datum N} (hpd : pd.isList = true)
    (hpa : pa.isList = true) (h : matchList g (.pair a d) (.pair pa pd) = some r)
    (hr : treeMember g matchFailed r = false) :
    a.isList = true ∧ ∃ x y, matchList g a pa = some x ∧ matchList g d pd = some y ∧
      r = list2 x y ∧ treeMember g matchFailed x = false ∧ treeMember g matchFailed y = false := by
  have hvar := variableConstructor_of_not_sym (isSym_of_isList hpa)
  rw [matchList_literal hpd (isLiteral_of_isList hpa), hvar] at h
  split_ifs at h with ha hpair hequal
  · simp only [Option.bind_eq_bind, Option.bind_eq_some_iff] at h
    obtain ⟨x, hx, y, hy, hrs⟩ := h
    cases hrs
    rw [treeMember_list2, Bool.or_eq_false_iff] at hr
    exact ⟨ha, x, y, hx, hy, rfl, hr.1, hr.2⟩
  · -- An improper pair: the pair of results holds a failure.
    simp only [Option.bind_eq_bind, Option.bind_eq_some_iff] at h
    obtain ⟨x, hx, y, -, hrs⟩ := h
    cases hrs
    rw [treeMember_list2, Bool.or_eq_false_iff] at hr
    cases a with
    | pair b c =>
      have hc : c.isList = false := Bool.not_eq_true _ ▸ ha
      have hl : (Datum.pair b c).isList = false := hc
      rw [← matchExpr_pair hc (isLiteral_of_isList hpa)] at hx
      rw [treeMember_of_not_list hl hpa hx] at hr
      exact absurd hr.1 (by decide)
    | nil | sym | num | str | bool | vec | obj => cases hpair
  · rcases equal_list hpa hequal with hl | hp
    · exact absurd hl ha
    · exact absurd hp hpair
  · cases h
    exact failed_absurd hr

/-- The elements that a `??` or `???` variable takes, and a reading of the others. -/
theorem reads_taken {g : Globals N} {v : Variable} {rest : Items N} {es : List (Datum N)}
    {bs : List (Binding N)} (hv : v.kind ≠ .one) (hm : matchlgth g v rest es ≠ 0)
    (hlen : rest.emlgth < es.length) (h : Reads g rest (es.drop (taken g v rest es)) bs) :
    Reads g (.var v rest) es (v.bound (.ofList (es.take (taken g v rest es))) ++ bs) := by
  have hsat : ∀ x ∈ es.take (taken g v rest es), Satisfies g v x :=
    satisfies_of_matchlgth (Nat.min_le_left _ _)
  have hsplit := List.take_append_drop (taken g v rest es) es
  cases hk : v.kind with
  | one => exact absurd hk hv
  | oneOrMore =>
    have hne : es.take (taken g v rest es) ≠ [] := by
      rw [← List.length_pos_iff, List.length_take, taken]
      omega
    have hread := Reads.oneOrMore hk hne hsat h
    rwa [hsplit] at hread
  | zeroOrMore =>
    have hread := Reads.zeroOrMore hk hsat h
    rwa [hsplit] at hread

/-- Where a variable is left with nothing, a reading of it and the rest without a binding is one in
which it takes nothing. -/
theorem reads_stop {g : Globals N} {v : Variable} {rest : Items N} {es : List (Datum N)}
    (h : Reads g (.var v rest) es []) : Reads g (.var v rest) es (v.bound .nil ++ []) := by
  by_cases hname : v.name = []
  · simpa [Variable.bound, hname] using h
  · generalize hbs : ([] : List (Binding N)) = bs at h
    cases h with
    | one | oneOrMore | zeroOrMore => simp [Variable.bound, hname] at hbs
    | unbound hv h =>
      subst hbs
      exact @Reads.zeroOrMore N g v rest [] _ _ hv (fun x hx => absurd hx List.not_mem_nil) h

/-- A variable in front of the items takes one of the steps. -/
theorem variableStep_of_matchList {g : Globals N} {v : Variable} {rest : Items N} {e r : Datum N}
    {es : List (Datum N)} (htag : v.predicate ≠ literalTag)
    (h : matchList g (.ofList (e :: es)) (Items.var v rest).toDatum = some r)
    (hr : treeMember g matchFailed r = false) : VariableStep g v rest e es r := by
  have hlit : isLiteral (variableConstructor (v.toDatum : Datum N)) = false := by
    rw [variableConstructor_toDatum]
    exact isLiteral_toVar htag
  rw [Items.toDatum, ofList_cons, matchList_variable rest.isList_toDatum hlit,
    variableConstructor_toDatum] at h
  by_cases hv : v.kind = .one
  · exact processMultiVariable_one hv htag h hr
  · exact processMultiVariable_multi hv h hr

/-- A step of a variable and the walk behind it make a walk. -/
theorem walk_variable {g : Globals N} {v : Variable} {rest : Items N} {e r : Datum N}
    {es : List (Datum N)} (hstep : VariableStep g v rest e es r)
    (hr : treeMember g matchFailed r = false)
    (ih : ∀ {es r}, matchList g (.ofList es) rest.toDatum = some r →
      treeMember g matchFailed r = false → ∃ bs, Walk g rest es r bs) :
    ∃ bs, Walk g (.var v rest) (e :: es) r bs := by
  cases hstep with
  | @one s hv hx hs =>
    rw [treeMember_list2, treeMember_listResult, Bool.or_eq_false_iff] at hr
    obtain ⟨bs, hw⟩ := ih hs hr.2
    have hlist : (listResult s).isList = true := by
      rw [hw.flatten_listResult]
      exact isList_ofList _
    refine ⟨v.bound e ++ bs, rfl, flatten_result v e hlist ?_, mem_names_bound hw.names, ?_⟩
    · rw [hw.flatten_listResult, flatten_ofList binding_not_list]
    · intro hf
      have hfin : Finished g rest es := by simpa [Finished, unread, hv] using hf
      exact .one hv hx (hw.reads hfin)
  | skip hv hm hs =>
    obtain ⟨bs, hw⟩ := ih hs hr
    refine ⟨bs, hw.list, hw.flat, ?_, ?_⟩
    · intro b hb
      exact List.mem_append_right _ (hw.names b hb)
    · intro hf
      have hfin : Finished g rest (e :: es) := by simpa [Finished, unread, hv, hm] using hf
      exact .unbound hv (hw.reads hfin)
  | stop hv hm hlen =>
    refine ⟨v.bound .nil ++ [], rfl, flatten_result v .nil rfl rfl,
      mem_names_bound fun b hb => absurd hb List.not_mem_nil, ?_⟩
    intro hf
    have hstop : unread g (.var v rest) (e :: es) = [(.var v rest, e :: es)] := by
      rw [unread, if_neg hv, if_neg hm, if_pos hlen]
    exact reads_stop (hf (.var v rest, e :: es) (by rw [hstop]; exact List.mem_cons_self))
  | all hv hm hlen hnil =>
    refine ⟨v.bound (.ofList (e :: es)) ++ [], rfl, flatten_result v _ rfl rfl,
      mem_names_bound fun b hb => absurd hb List.not_mem_nil, ?_⟩
    intro hf
    rw [Finished, unread, if_neg hv, if_neg hm, if_neg (Nat.not_le.mpr hlen), hnil] at hf
    have hread := hf (rest, []) (by simp)
    rw [← hnil] at hread
    have htake : (e :: es).take (taken g v rest (e :: es)) = e :: es :=
      List.take_of_length_le (List.drop_eq_nil_iff.mp hnil)
    have hall := reads_taken hv hm hlen hread
    rwa [htake] at hall
  | many hv hm hlen hs =>
    rw [treeMember_list2, Bool.or_eq_false_iff] at hr
    obtain ⟨bs, hw⟩ := ih hs hr.2
    refine ⟨_, rfl, flatten_result v _ hw.list hw.flat, mem_names_bound hw.names, ?_⟩
    intro hf
    rw [Finished, unread, if_neg hv, if_neg hm, if_neg (Nat.not_le.mpr hlen)] at hf
    exact reads_taken hv hm hlen (hw.reads hf)

/-- The walk over a list pattern. -/
theorem matchList_walk {g : Globals N} (p : Items N) (htag : p.NoTag) {es : List (Datum N)}
    {r : Datum N} (h : matchList g (.ofList es) p.toDatum = some r)
    (hr : treeMember g matchFailed r = false) : ∃ bs, Walk g p es r bs := by
  induction p generalizing es r with
  | nil =>
    cases es with
    | nil => exact walk_end h hr
    | cons e es =>
      simp only [Items.toDatum, ofList_cons, matchList] at h
      cases h
      exact failed_absurd hr
  | word text plain rest ih =>
    cases es with
    | nil => exact walk_end h hr
    | cons e es =>
      have hvar := @variableConstructor_word N text plain
      obtain ⟨he, hrest⟩ := matchList_literal_atom rest.isList_toDatum hvar rfl rfl h hr
      obtain ⟨bs, hw⟩ := ih htag hrest hr
      rw [equal_sym he]
      exact ⟨bs, hw.list, hw.flat, hw.names, fun hf => .word (hw.reads hf)⟩
  | number n rest ih =>
    cases es with
    | nil => exact walk_end h hr
    | cons e es =>
      have hvar : variableConstructor (Datum.num n) = literalVar (.num n) := rfl
      obtain ⟨he, hrest⟩ := matchList_literal_atom rest.isList_toDatum hvar rfl rfl h hr
      obtain ⟨m, rfl, hm⟩ := equal_num he
      obtain ⟨bs, hw⟩ := ih htag hrest hr
      exact ⟨bs, hw.list, hw.flat, hw.names, fun hf => .number hm (hw.reads hf)⟩
  | nested inner rest ihinner ih =>
    cases es with
    | nil => exact walk_end h hr
    | cons e es =>
      obtain ⟨he, x, y, hx, hy, rfl, hxr, hyr⟩ :=
        matchList_nested rest.isList_toDatum inner.isList_toDatum h hr
      rw [← ofList_elements he] at hx
      obtain ⟨bs, hwx⟩ := ihinner htag.1 hx hxr
      obtain ⟨cs, hwy⟩ := ih htag.2 hy hyr
      refine ⟨bs ++ cs, rfl, ?_, ?_, ?_⟩
      · rw [flatten_list2 hwx.list hwy.list, hwx.flat, hwy.flat, List.map_append]
      · intro b hb
        rw [Items.names]
        rcases List.mem_append.mp hb with hb | hb
        · exact List.mem_append_left _ (hwx.names b hb)
        · exact List.mem_append_right _ (hwy.names b hb)
      · intro hf
        have hfx : Finished g inner e.elements := fun z hz => hf z (List.mem_append_left _ hz)
        have hfy : Finished g rest es := fun z hz => hf z (List.mem_append_right _ hz)
        have hread := Reads.nested (hwx.reads hfx) (hwy.reads hfy)
        rw [ofList_elements he] at hread
        exact hread
  | var v rest ih =>
    cases es with
    | nil => exact walk_end h hr
    | cons e es =>
      exact walk_variable (variableStep_of_matchList htag.1 h hr) hr (ih htag.2)

/-! ## When the bindings determine the split -/

theorem binding_injective {b c : Binding N} (h : binding b.1 b.2 = binding c.1 c.2) : b = c := by
  obtain ⟨name, x⟩ := b
  obtain ⟨name', y⟩ := c
  simp only [binding, ofList_cons, ofList_nil, Datum.vec.injEq, Datum.pair.injEq,
    Datum.str.injEq, and_true] at h
  rw [h.1, h.2]

theorem bindings_injective {bs cs : List (Binding N)}
    (h : (bs.map fun b => binding b.1 b.2) = cs.map fun b => binding b.1 b.2) : bs = cs :=
  List.map_injective_iff.mpr (fun _ _ => binding_injective) h

/-- A reading binds the names of the pattern. -/
theorem Reads.names {g : Globals N} {p : Items N} {es : List (Datum N)} {bs : List (Binding N)}
    (h : Reads g p es bs) : ∀ b ∈ bs, b.1 ∈ p.names := by
  induction h with
  | nil => exact fun b hb => absurd hb List.not_mem_nil
  | word _ ih => exact ih
  | number _ _ ih => exact ih
  | nested _ _ ihinner ih =>
    intro b hb
    rw [Items.names]
    rcases List.mem_append.mp hb with hb | hb
    · exact List.mem_append_left _ (ihinner b hb)
    · exact List.mem_append_right _ (ih b hb)
  | one _ _ _ ih => exact mem_names_bound ih
  | oneOrMore _ _ _ _ ih => exact mem_names_bound ih
  | zeroOrMore _ _ _ ih => exact mem_names_bound ih
  | unbound _ _ ih => exact fun b hb => List.mem_append_right _ (ih b hb)

/-- Two ways to split a list of bindings between disjoint lists of names are the same. -/
theorem split_unique {A B : List (List Char)} (hdisj : ∀ n ∈ A, n ∉ B)
    {bs bs' cs cs' : List (Binding N)} (hb : ∀ b ∈ bs, b.1 ∈ A) (hb' : ∀ b ∈ bs', b.1 ∈ A)
    (hc : ∀ b ∈ cs, b.1 ∈ B) (hc' : ∀ b ∈ cs', b.1 ∈ B) (h : bs ++ cs = bs' ++ cs') :
    bs = bs' ∧ cs = cs' := by
  rcases List.append_eq_append_iff.mp h with ⟨ds, hbs, hcs⟩ | ⟨ds, hbs, hcs⟩
  · cases ds with
    | nil => exact ⟨by simpa using hbs.symm, by simpa using hcs⟩
    | cons d ds =>
      have hA := hb' d (by rw [hbs]; simp)
      have hB := hc d (by rw [hcs]; simp)
      exact absurd hB (hdisj _ hA)
  · cases ds with
    | nil => exact ⟨by simpa using hbs, by simpa using hcs.symm⟩
    | cons d ds =>
      have hA := hb d (by rw [hbs]; simp)
      have hB := hc' d (by rw [hcs]; simp)
      exact absurd hB (hdisj _ hA)

/-- How a variable in front of the items is read. -/
theorem reads_var_inv {g : Globals N} {v : Variable} {rest : Items N} {es : List (Datum N)}
    {bs : List (Binding N)} (h : Reads g (.var v rest) es bs) :
    (v.kind = .one ∧ ∃ x es' bs', es = x :: es' ∧ bs = v.bound x ++ bs' ∧ Reads g rest es' bs') ∨
      (v.kind ≠ .one ∧ ∃ xs es' bs', es = xs ++ es' ∧ bs = v.bound (.ofList xs) ++ bs' ∧
        (v.kind = .oneOrMore → xs ≠ []) ∧ Reads g rest es' bs') ∨
      (v.kind = .zeroOrMore ∧ Reads g rest es bs) := by
  cases h with
  | one hv _ h => exact .inl ⟨hv, _, _, _, rfl, rfl, h⟩
  | oneOrMore hv hne _ h =>
    exact .inr (.inl ⟨by simp [hv], _, _, _, rfl, rfl, fun _ => hne, h⟩)
  | zeroOrMore hv _ h =>
    exact .inr (.inl ⟨by simp [hv], _, _, _, rfl, rfl, fun hk => by simp [hv] at hk, h⟩)
  | unbound hv h => exact .inr (.inr ⟨hv, h⟩)

/-- Where the walk has bound a variable with a name of its own, every reading with these bindings
takes the same elements for it. -/
theorem reads_bound {g : Globals N} {v : Variable} {rest : Items N} {xs es : List (Datum N)}
    {bs : List (Binding N)} (hv : v.kind ≠ .one) (hname : v.name ≠ [])
    (hfresh : v.name ∉ rest.names)
    (h : Reads g (.var v rest) es (v.bound (.ofList xs) ++ bs)) :
    (v.kind = .oneOrMore → xs ≠ []) ∧ ∃ es', es = xs ++ es' ∧ Reads g rest es' bs := by
  rcases reads_var_inv h with ⟨hk, -⟩ | ⟨-, ys, es', bs', hes, hbs, hne, hread⟩ | ⟨-, hread⟩
  · exact absurd hk hv
  · simp only [Variable.bound, hname, if_false, List.cons_append, List.nil_append,
      List.cons.injEq, Prod.mk.injEq, true_and, ofList_inj] at hbs
    obtain ⟨hxs, rfl⟩ := hbs
    subst hxs
    exact ⟨hne, es', hes, hread⟩
  · have hmem := hread.names (v.name, .ofList xs) (by simp [Variable.bound, hname])
    exact absurd hmem hfresh

/-- Where the walk has not bound a variable with a name of its own, no reading with these bindings
takes anything for it. -/
theorem reads_unbound {g : Globals N} {v : Variable} {rest : Items N} {es : List (Datum N)}
    {bs : List (Binding N)} (hv : v.kind ≠ .one) (hname : v.name ≠ [])
    (hfresh : v.name ∉ rest.names) (hbs : ∀ b ∈ bs, b.1 ∈ rest.names)
    (h : Reads g (.var v rest) es bs) : Reads g rest es bs := by
  rcases reads_var_inv h with ⟨hk, -⟩ | ⟨-, ys, es', bs', -, rfl, -, -⟩ | ⟨-, hread⟩
  · exact absurd hk hv
  · have hmem := hbs (v.name, .ofList ys) (by simp [Variable.bound, hname])
    exact absurd hmem hfresh
  · exact hread

/-- A walk is one of every list of bindings that its result holds. -/
theorem Walk.eq_of_flatten {g : Globals N} {p : Items N} {es : List (Datum N)} {r : Datum N}
    {bs cs : List (Binding N)} (h : Walk g p es r bs)
    (hflat : r.flatten = cs.map fun b => binding b.1 b.2) : bs = cs :=
  bindings_injective (h.flat.symm.trans hflat)

theorem nil_of_flatten {bs : List (Binding N)}
    (h : (Datum.nil : Datum N).flatten = bs.map fun b => binding b.1 b.2) : bs = [] :=
  List.map_eq_nil_iff.mp h.symm

/-- At the end of the elements a reading of the walk's bindings reads what is left. -/
theorem finished_end {g : Globals N} {p : Items N} {r : Datum N} {bs : List (Binding N)}
    (h : matchList g .nil p.toDatum = some r) (hr : treeMember g matchFailed r = false)
    (hflat : r.flatten = bs.map fun b => binding b.1 b.2) (hread : Reads g p [] bs) :
    Finished g p [] := by
  rw [matchList_nil h hr] at hflat
  rw [nil_of_flatten hflat] at hread
  intro x hx
  rw [unread_nil, List.mem_singleton] at hx
  rw [hx]
  exact hread

/-- A step of a variable whose name is its own has finished, if the walk behind it has. -/
theorem finished_variable {g : Globals N} {v : Variable} {rest : Items N} {e r : Datum N}
    {es : List (Datum N)} {bs : List (Binding N)} (hstep : VariableStep g v rest e es r)
    (hr : treeMember g matchFailed r = false) (hmulti : v.kind ≠ .one → v.name ≠ [])
    (hfresh : v.name ≠ [] → v.name ∉ rest.names)
    (hflat : r.flatten = bs.map fun b => binding b.1 b.2) (hread : Reads g (.var v rest) (e :: es) bs)
    (hwalk : ∀ {es r}, matchList g (.ofList es) rest.toDatum = some r →
      treeMember g matchFailed r = false → ∃ bs, Walk g rest es r bs)
    (ih : ∀ {es r bs}, matchList g (.ofList es) rest.toDatum = some r →
      treeMember g matchFailed r = false → (r.flatten = bs.map fun b => binding b.1 b.2) →
      Reads g rest es bs → Finished g rest es) :
    Finished g (.var v rest) (e :: es) := by
  cases hstep with
  | @one s hv hx hs =>
    rw [treeMember_list2, treeMember_listResult, Bool.or_eq_false_iff] at hr
    obtain ⟨ws, hw⟩ := hwalk hs hr.2
    rw [hw.flatten_listResult, flatten_result v e (isList_ofList _)
      (flatten_ofList binding_not_list)] at hflat
    have hbs := bindings_injective hflat
    subst hbs
    rcases reads_var_inv hread with ⟨-, x, es', bs', hes, hbs, hrest⟩ | ⟨hk, -⟩ | ⟨hk, -⟩
    · cases hes
      rw [List.append_cancel_left_eq] at hbs
      subst hbs
      have hfin := ih hs hr.2 hw.flat hrest
      rwa [Finished, unread, if_pos hv]
    · exact absurd hv hk
    · rw [hv] at hk
      cases hk
  | skip hv hm hs =>
    have hone : v.kind ≠ .one := by simp [hv]
    have hname := hmulti hone
    obtain ⟨ws, hw⟩ := hwalk hs hr
    have hbs := hw.eq_of_flatten hflat
    subst hbs
    have hrest := reads_unbound hone hname (hfresh hname) hw.names hread
    have hfin := ih hs hr hflat hrest
    rwa [Finished, unread, if_neg hone, if_pos hm]
  | stop hv hm hlen =>
    have hname := hmulti hv
    rw [@flatten_result N v .nil .nil [] rfl rfl] at hflat
    have hbs := bindings_injective hflat
    subst hbs
    obtain ⟨hne, es', hes, hrest⟩ :=
      @reads_bound N g v rest [] (e :: es) [] hv hname (hfresh hname) hread
    have hkind : v.kind = .zeroOrMore := by
      cases hk : v.kind with
      | one => exact absurd hk hv
      | oneOrMore => exact absurd rfl (hne hk)
      | zeroOrMore => rfl
    rw [List.nil_append] at hes
    subst hes
    intro z hz
    rw [unread, if_neg hv, if_neg hm, if_pos hlen, List.mem_singleton] at hz
    rw [hz]
    exact .unbound hkind hrest
  | all hv hm hlen hnil =>
    have hname := hmulti hv
    rw [@flatten_result N v _ .nil [] rfl rfl] at hflat
    have hbs := bindings_injective hflat
    subst hbs
    obtain ⟨-, es', hes, hrest⟩ := reads_bound hv hname (hfresh hname) hread
    have hes' : es' = [] := by simpa using hes
    subst hes'
    intro z hz
    rw [unread, if_neg hv, if_neg hm, if_neg (Nat.not_le.mpr hlen), hnil, unread_nil,
      List.mem_singleton] at hz
    rw [hz]
    exact hrest
  | many hv hm hlen hs =>
    have hname := hmulti hv
    rw [treeMember_list2, Bool.or_eq_false_iff] at hr
    obtain ⟨ws, hw⟩ := hwalk hs hr.2
    rw [flatten_result v _ hw.list hw.flat] at hflat
    have hbs := bindings_injective hflat
    subst hbs
    obtain ⟨-, es', hes, hrest⟩ := reads_bound hv hname (hfresh hname) hread
    have hes' : es' = (e :: es).drop (taken g v rest (e :: es)) := by
      have hsplit := List.take_append_drop (taken g v rest (e :: es)) (e :: es)
      exact List.append_cancel_left (hes.symm.trans hsplit.symm)
    subst hes'
    have hfin := ih hs hr.2 hw.flat hrest
    rwa [Finished, unread, if_neg hv, if_neg hm, if_neg (Nat.not_le.mpr hlen)]

/-- Where the names determine the split, a walk whose bindings are those of a reading has finished. -/
theorem finished_of_reads {g : Globals N} (p : Items N) (htag : p.NoTag) (hmulti : p.MultiNamed)
    (hnodup : p.names.Nodup) {es : List (Datum N)} {r : Datum N} {bs : List (Binding N)}
    (h : matchList g (.ofList es) p.toDatum = some r) (hr : treeMember g matchFailed r = false)
    (hflat : r.flatten = bs.map fun b => binding b.1 b.2) (hread : Reads g p es bs) :
    Finished g p es := by
  induction p generalizing es r bs with
  | nil =>
    cases es with
    | nil => exact finished_end h hr hflat hread
    | cons e es => cases hread
  | word text plain rest ih =>
    cases es with
    | nil => exact finished_end h hr hflat hread
    | cons e es =>
      have hvar := @variableConstructor_word N text plain
      obtain ⟨-, hrest⟩ := matchList_literal_atom rest.isList_toDatum hvar rfl rfl h hr
      cases hread with
      | word hread => exact ih htag hmulti hnodup hrest hr hflat hread
  | number n rest ih =>
    cases es with
    | nil => exact finished_end h hr hflat hread
    | cons e es =>
      have hvar : variableConstructor (Datum.num n) = literalVar (.num n) := rfl
      obtain ⟨-, hrest⟩ := matchList_literal_atom rest.isList_toDatum hvar rfl rfl h hr
      cases hread with
      | number hm hread => exact ih htag hmulti hnodup hrest hr hflat hread
  | nested inner rest ihinner ih =>
    cases es with
    | nil => exact finished_end h hr hflat hread
    | cons e es =>
      obtain ⟨he, x, y, hx, hy, rfl, hxr, hyr⟩ :=
        matchList_nested rest.isList_toDatum inner.isList_toDatum h hr
      rw [← ofList_elements he] at hx
      obtain ⟨ws, hwx⟩ := matchList_walk inner htag.1 hx hxr
      obtain ⟨zs, hwy⟩ := matchList_walk rest htag.2 hy hyr
      rw [flatten_list2 hwx.list hwy.list, hwx.flat, hwy.flat, ← List.map_append] at hflat
      rw [Items.names, List.nodup_append] at hnodup
      obtain ⟨hndi, hndr, hdisj⟩ := hnodup
      cases hread with
      | @nested _ _ xs _ bs cs hinner hrest =>
        rw [elements_ofList] at hx
        obtain ⟨hws, hzs⟩ := split_unique (fun n hn hn' => hdisj n hn n hn' rfl) hwx.names
          hinner.names hwy.names hrest.names (bindings_injective hflat)
        subst hws hzs
        have hfx := ihinner htag.1 hmulti.1 hndi hx hxr hwx.flat hinner
        have hfy := ih htag.2 hmulti.2 hndr hy hyr hwy.flat hrest
        intro z hz
        rw [unread, elements_ofList] at hz
        rcases List.mem_append.mp hz with hz | hz
        · exact hfx z hz
        · exact hfy z hz
  | var v rest ih =>
    cases es with
    | nil => exact finished_end h hr hflat hread
    | cons e es =>
      rw [Items.names, List.nodup_append] at hnodup
      obtain ⟨-, hndr, hdisj⟩ := hnodup
      have hfresh : v.name ≠ [] → v.name ∉ rest.names := by
        intro hname hmem
        exact hdisj v.name (by simp [hname]) v.name hmem rfl
      exact finished_variable (variableStep_of_matchList htag.1 h hr) hr hmulti.1 hfresh hflat hread
        (matchList_walk rest htag.2) (ih htag.2 hmulti.2 hndr)

/-! ## Soundness -/

/-- The condition on a pattern and an expression: no predicate is named like the matcher's mark of a
literal, and the walk over a list finishes. -/
def Finishes (g : Globals N) : Pattern N → Datum N → Prop
  | .items p, e => p.NoTag ∧ Finished g p e.elements
  | .var v _, _ => v.predicate ≠ literalTag
  | _, _ => True

/-- The bindings of the pattern determine a split: the names differ, and the variables that may take
several elements have one. -/
def Determined : Pattern N → Prop
  | .items p => p.NoTag ∧ p.MultiNamed ∧ p.names.Nodup
  | .var v _ => v.predicate ≠ literalTag
  | _ => True

theorem mapVectors_binding (b : Binding N) (d : Datum N) :
    mapVectors (.pair (binding b.1 b.2) d) =
      (mapVectors d).bind fun rest => some (.pair (.ofList [.str b.1, b.2]) rest) := by
  simp only [binding, mapVectors]
  rfl

theorem mapVectors_bindings (bs : List (Binding N)) :
    mapVectors (.ofList (bs.map fun b => binding b.1 b.2)) = some (returned bs) := by
  induction bs with
  | nil => rfl
  | cons b bs ih =>
    rw [List.map_cons, ofList_cons, mapVectors_binding, ih]
    rfl

/-- What `match` returns, unless it fails. -/
theorem matchOf_some {g : Globals N} {em e r : Datum N} (h : matchOf g em e = some r) :
    r = .bool false ∨ ∃ res, matchExpr g e em = some res ∧
      treeMember g matchFailed res = false ∧ mapVectors res = some r := by
  simp only [matchOf, Option.bind_eq_bind, Option.bind_eq_some_iff] at h
  obtain ⟨res, hres, pairs, hpairs, hr⟩ := h
  by_cases hfail : treeMember g matchFailed res = true
  · rw [if_pos hfail] at hr
    cases hr
    exact .inl rfl
  · rw [if_neg hfail] at hr
    cases hr
    exact .inr ⟨res, hres, by simpa using hfail, hpairs⟩

/-- What `match` returns for a list pattern. -/
theorem matchOf_items {g : Globals N} {p : Items N} {e r : Datum N}
    (h : matchOf g p.toDatum e = some r) :
    r = .bool false ∨ ∃ es s, e = .ofList es ∧ matchList g (.ofList es) p.toDatum = some s ∧
      treeMember g matchFailed s = false ∧ mapVectors (listResult s) = some r := by
  rcases matchOf_some h with hr | ⟨res, hres, hok, hpairs⟩
  · exact .inl hr
  · by_cases he : e.isList = true
    · rw [matchExpr_list he (isLiteral_of_isList p.isList_toDatum), Option.map_eq_some_iff] at hres
      obtain ⟨s, hs, rfl⟩ := hres
      rw [treeMember_listResult] at hok
      refine .inr ⟨e.elements, s, (ofList_elements he).symm, ?_, hok, hpairs⟩
      rw [ofList_elements he]
      exact hs
    · have hl : e.isList = false := by simpa using he
      rw [treeMember_of_not_list hl p.isList_toDatum hres] at hok
      cases hok

theorem matchSymbol_ok {g : Globals N} {text : List Char} {pa : Datum N}
    (hok : treeMember g matchFailed (matchSymbol text pa) = false) :
    matchSymbol text pa = .nil ∧ pa = .sym text := by
  cases pa with
  | sym name =>
    by_cases hs : text = name
    · exact ⟨if_pos hs, congrArg Datum.sym hs.symm⟩
    · rw [matchSymbol, if_neg hs] at hok
      exact failed_absurd hok
  | nil | pair | num | str | bool | vec | obj => exact failed_absurd hok

theorem matchString_ok {g : Globals N} {text : List Char} {pa : Datum N}
    (hok : treeMember g matchFailed (matchString text pa) = false) :
    matchString text pa = .nil ∧ pa = .str text := by
  cases pa with
  | str name =>
    by_cases hs : text = name
    · exact ⟨if_pos hs, congrArg Datum.str hs.symm⟩
    · rw [matchString, if_neg hs] at hok
      exact failed_absurd hok
  | nil | pair | sym | num | bool | vec | obj => exact failed_absurd hok

theorem matchNumber_ok {g : Globals N} {n : N} {pa : Datum N}
    (hok : treeMember g matchFailed (matchNumber g n pa) = false) :
    matchNumber g n pa = .nil ∧ ∃ m, pa = .num m ∧ g.numEq n m = true := by
  cases pa with
  | num m =>
    by_cases hn : g.numEq n m = true
    · exact ⟨if_pos hn, m, rfl, hn⟩
    · rw [matchNumber, if_neg hn] at hok
      exact failed_absurd hok
  | nil | pair | sym | str | bool | vec | obj => exact failed_absurd hok

/-- A literal pattern that is an atom matches what is equal to it. -/
theorem matchExpr_literal_atom {g : Globals N} {e pa res : Datum N}
    (hvar : variableConstructor pa = literalVar pa) (hl : pa.isList = false)
    (hp : pa.isPair = false) (h : matchExpr g e pa = some res)
    (hok : treeMember g matchFailed res = false) : res = .nil ∧ equal g e pa = true := by
  have hlit : isLiteral (variableConstructor pa) = true := by
    rw [hvar]
    exact isLiteral_literalVar pa
  by_cases he : e.isList = true
  · rw [matchExpr_list he hlit, Option.map_eq_some_iff] at h
    obtain ⟨s, hs, rfl⟩ := h
    rw [treeMember_listResult, matchList_atom hl hp hs, treeMember_matchFailed] at hok
    cases hok
  · cases e with
    | nil => exact absurd rfl he
    | pair a d =>
      have hd : d.isList = false := Bool.not_eq_true _ ▸ he
      rw [matchExpr_pair hd hlit, matchPair_atom hp] at h
      cases h
      exact failed_absurd hok
    | sym s =>
      have hres : some (matchSymbol s pa) = some res := by
        rw [← h, matchExpr.eq_def]
        simp only [hlit]
        rfl
      cases hres
      obtain ⟨hnil, rfl⟩ := matchSymbol_ok hok
      exact ⟨hnil, beq_self_eq_true s⟩
    | num n =>
      have hres : some (matchNumber g n pa) = some res := by
        rw [← h, matchExpr.eq_def]
        simp only [hlit]
        rfl
      cases hres
      obtain ⟨hnil, m, rfl, hm⟩ := matchNumber_ok hok
      exact ⟨hnil, hm⟩
    | str s =>
      have hres : some (matchString s pa) = some res := by
        rw [← h, matchExpr.eq_def]
        simp only [hlit]
        rfl
      cases hres
      obtain ⟨hnil, rfl⟩ := matchString_ok hok
      exact ⟨hnil, beq_self_eq_true s⟩
    | vec items =>
      have hres : matchVector pa = some res := by
        rw [← h, matchExpr.eq_def]
        simp only [hlit]
        rfl
      cases pa with
      | vec => cases hres
      | nil | pair | sym | num | str | bool | obj =>
        cases hres
        exact failed_absurd hok
    | bool | obj =>
      have hres : some matchFailed = some res := by
        rw [← h, matchExpr.eq_def]
        simp only [hlit]
        rfl
      cases hres
      exact failed_absurd hok

/-- What `match` returns for a literal atom. -/
theorem matchOf_literal_atom {g : Globals N} {e pa r : Datum N}
    (hvar : variableConstructor pa = literalVar pa) (hl : pa.isList = false)
    (hp : pa.isPair = false) (h : matchOf g pa e = some r) :
    r = .bool false ∨ equal g e pa = true ∧ r = returned [] := by
  rcases matchOf_some h with hr | ⟨res, hres, hok, hpairs⟩
  · exact .inl hr
  · obtain ⟨rfl, hequal⟩ := matchExpr_literal_atom hvar hl hp hres hok
    cases hpairs
    exact .inr ⟨hequal, rfl⟩

/-- What `match` returns for a variable: a vector is no list to map over. -/
theorem matchOf_variable {g : Globals N} {v : Variable} {e r : Datum N}
    (htag : v.predicate ≠ literalTag) (h : matchOf g v.toDatum e = some r) :
    r = .bool false ∨ Satisfies g v e ∧ r = returned (v.bound e) := by
  have hlit : isLiteral (variableConstructor (v.toDatum : Datum N)) = false := by
    rw [variableConstructor_toDatum]
    exact isLiteral_toVar htag
  simp only [matchOf, matchExpr_variable hlit, variableConstructor_toDatum, Option.bind_eq_bind,
    Option.bind_some, Option.bind_eq_some_iff] at h
  obtain ⟨pairs, hpairs, hr⟩ := h
  rcases matchCheckVariable_toVar g v e with ⟨hx, hsat⟩ | hx
  · rw [hx] at hpairs hr
    by_cases hname : v.name = []
    · simp only [Variable.result, hname, if_true] at hpairs hr
      cases hpairs
      rw [matchTrue, treeMember_nil] at hr
      cases hr
      refine .inr ⟨hsat, ?_⟩
      rw [Variable.bound, if_pos hname]
      rfl
    · simp only [Variable.result, hname, if_false] at hpairs
      cases hpairs
  · rw [hx] at hpairs
    cases hpairs

theorem returned_injective {bs cs : List (Binding N)} (h : returned bs = returned cs) : bs = cs := by
  refine List.map_injective_iff.mpr (fun b c hbc => ?_) (ofList_injective h)
  obtain ⟨name, x⟩ := b
  obtain ⟨name', y⟩ := c
  simp only [ofList_inj, List.cons.injEq, Datum.str.injEq, and_true] at hbc
  rw [hbc.1, hbc.2]

theorem InLanguage.reads {g : Globals N} {p : Items N} {e : Datum N} {bs : List (Binding N)}
    (h : InLanguage g (.items p) e bs) : ∃ es, e = .ofList es ∧ Reads g p es bs := by
  cases h with
  | items h => exact ⟨_, rfl, h⟩

/-- What `match` accepts is in the language of the pattern, with the bindings that it returns, if the
walk finishes. If the bindings determine the split, it is so in no other case. -/
theorem match_sound (g : Globals N) (p : Pattern N) (e : Datum N) :
    (Finishes g p e → Sound g p e) ∧
      (Determined p → Sound g p e → ∀ r, matchOf g p.toDatum e = some r → r ≠ .bool false →
        Finishes g p e) := by
  cases p with
  | items p =>
    refine ⟨?_, ?_⟩
    · intro hfinishes r h
      obtain ⟨htag, hfin⟩ := hfinishes
      rcases matchOf_items h with hr | ⟨es, s, rfl, hs, hok, hmap⟩
      · exact .inl hr
      · rw [elements_ofList] at hfin
        obtain ⟨bs, hw⟩ := matchList_walk p htag hs hok
        rw [hw.flatten_listResult, mapVectors_bindings] at hmap
        exact .inr ⟨bs, .items (hw.reads hfin), (Option.some.inj hmap).symm⟩
    · intro hdetermined hsound r h hne
      obtain ⟨htag, hmulti, hnodup⟩ := hdetermined
      rcases matchOf_items h with hr | ⟨es, s, rfl, hs, hok, hmap⟩
      · exact absurd hr hne
      · obtain ⟨bs, hw⟩ := matchList_walk p htag hs hok
        rw [hw.flatten_listResult, mapVectors_bindings] at hmap
        rcases hsound r h with hr | ⟨cs, hlang, hr⟩
        · exact absurd hr hne
        · obtain ⟨es', hes, hread⟩ := hlang.reads
          have hcs : bs = cs := returned_injective ((Option.some.inj hmap).trans hr)
          subst hcs
          refine ⟨htag, ?_⟩
          rw [hes, elements_ofList]
          rw [ofList_injective hes] at hs
          exact finished_of_reads p htag hmulti hnodup hs hok hw.flat hread
  | word text plain =>
    refine ⟨?_, fun _ _ _ _ _ => trivial⟩
    intro _ r h
    rcases matchOf_literal_atom (variableConstructor_word plain) rfl rfl h with hr | ⟨he, hr⟩
    · exact .inl hr
    · rw [equal_sym he]
      exact .inr ⟨[], .word, hr⟩
  | number n =>
    refine ⟨?_, fun _ _ _ _ _ => trivial⟩
    intro _ r h
    have hvar : variableConstructor (Datum.num n) = literalVar (.num n) := rfl
    rcases matchOf_literal_atom hvar rfl rfl h with hr | ⟨he, hr⟩
    · exact .inl hr
    · obtain ⟨m, rfl, hm⟩ := equal_num he
      exact .inr ⟨[], .number hm, hr⟩
  | var v single =>
    refine ⟨?_, fun htag _ _ _ _ => htag⟩
    intro htag r h
    rcases matchOf_variable htag h with hr | ⟨hsat, hr⟩
    · exact .inl hr
    · exact .inr ⟨v.bound e, .var hsat, hr⟩

/-- A variable without a predicate. -/
def Variable.plain (name : List Char) (kind : Kind) (hname : '?' ∉ name) : Variable where
  name := name
  kind := kind
  predicate := []
  name_plain := hname
  predicate_plain := fun c hc => by cases hc
  predicate_line := List.not_mem_nil

theorem match_sound_pair (g : Globals ℕ) :
    Sound g (.items (.var (.plain ['x'] .one (by decide)) (.var (.plain ['y'] .one (by decide)) .nil)))
      (.ofList [.num 1, .num 2]) := by
  refine (match_sound g _ _).1 ⟨?_, ?_⟩
  · exact ⟨by decide, by decide, trivial⟩
  · intro z hz
    simp only [elements_ofList, unread, Variable.plain, if_true, List.mem_singleton] at hz
    rw [hz]
    exact .nil

/-- `(x??)` accepts the empty list, although the variable must take an element. -/
theorem not_match_sound : ¬ ∀ (g : Globals ℕ) (p : Pattern ℕ) (e : Datum ℕ), Sound g p e := by
  intro h
  let g : Globals ℕ := ⟨fun m n => m == n, fun _ => false, fun _ => none⟩
  let v : Variable := .plain ['x'] .oneOrMore (by decide)
  have hlist : matchList g .nil (Items.var v .nil).toDatum = some .nil := by
    simp only [Items.toDatum, matchList, elements, List.map_cons, variableConstructor_toDatum,
      isList, if_true]
    rfl
  have hmatch : matchOf g (Items.var v .nil).toDatum .nil = some .nil := by
    have hlit := isLiteral_of_isList (Items.var v (.nil : Items ℕ)).isList_toDatum
    simp only [matchOf, matchExpr_list (e := .nil) rfl hlit, hlist]
    rfl
  rcases h g (.items (.var v .nil)) .nil .nil hmatch with hfalse | ⟨bs, hlang, -⟩
  · cases hfalse
  · obtain ⟨es, hes, hread⟩ := hlang.reads
    have hnil : es = [] := ofList_injective hes.symm
    subst hnil
    rcases reads_var_inv hread with ⟨hk, -⟩ | ⟨-, xs, es', bs', hxs, -, hne, -⟩ | ⟨hk, -⟩
    · cases hk
    · exact hne rfl (List.append_eq_nil_iff.mp hxs.symm).1
    · cases hk

end Extempore.PatternMatching
