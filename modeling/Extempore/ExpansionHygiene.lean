import Extempore.SurfaceScopes
import Extempore.FirstTransform
import Mathlib.Data.List.TakeWhile

/-!
# Names that expansions introduce

Some expansions of `impc:ti:first-transform` put the expressions of the user in new bindings. A
variable of the user keeps its meaning iff it has no name that the expansion binds around the
place of the expression.
-/

namespace Extempore.ExpansionHygiene

open XtlangForms SurfaceForms FirstTransform ScopedTrees SurfaceScopes

/-! ## Expansions with bindings -/

inductive RefKind
  | vector
  | array
  | tuple
deriving DecidableEq

def RefKind.head : RefKind → String
  | .vector => "vector_ref"
  | .array => "array_ref"
  | .tuple => "tuple_ref"

def RefKind.pointer : RefKind → String
  | .vector => "v1"
  | .array => "a1"
  | .tuple => "t1"

def RefKind.value : RefKind → String
  | .vector => "v2"
  | .array => "a2"
  | .tuple => "t2"

def RefKind.make : RefKind → String
  | .vector => "vector"
  | .array => "array"
  | .tuple => "tuple"

inductive CallbackKind
  | callback
  | schedule
deriving DecidableEq

def CallbackKind.head : CallbackKind → String
  | .callback => "callback"
  | .schedule => "schedule"

/-- A form with such an expansion, and the number of zones before it. -/
inductive Template
  | ref (kind : RefKind) (operands : List Sexpr)
  | zoneCleanup (body : List Sexpr)
  | callback (kind : CallbackKind) (time f : Sexpr) (args : List Sexpr)
  | memzone (n : ℕ) (size : Sexpr) (delay : Option Sexpr) (body : Sexpr)
  | letz (n : ℕ) (tail : Sexpr)
  | beginz (n : ℕ) (forms : Sexpr)
  | multicref (s : String)
  | multicset (s : String) (e : Sexpr)

def Template.source : Template → Sexpr
  | .ref kind operands => symList kind.head operands
  | .zoneCleanup body => symList "zone_cleanup" body
  | .callback kind time f args => symList kind.head (time :: f :: args)
  | .memzone _ size delay body => symList "memzone" (size :: (delay.toList ++ [body]))
  | .letz _ tail => .cons (.sym "letz") tail
  | .beginz _ forms => .cons (.sym "beginz") forms
  | .multicref s => symList s []
  | .multicset s e => symList s [e]

def dottedParts (s : String) : List String := regexSplit '.' [] s.toList

/-- A reference along several closures, with the type of the last. -/
def isMultipart (s : String) : Bool :=
  2 < (dottedParts s).length && (s.toList.dropWhile (· ≠ '.')).contains ':'

/-- The expansion, before its parts are transformed. -/
def Template.expansion : Template → Option Sexpr
  | .ref kind operands => some (expandRef kind.pointer kind.value kind.make (.list operands))
  | .zoneCleanup body => some (expandZoneCleanup body)
  | .callback _ time f args =>
    (expandCallback (fun c _ e => some (e, c)) ⟨0, 0, 0⟩ (time :: f :: args)).map Prod.fst
  | .memzone n size delay body =>
    (expandMemzone n (.list (size :: (delay.toList ++ [body])))).map Prod.fst
  | .letz n tail => (expandLetz n tail).map Prod.fst
  | .beginz n forms => (expandBeginz n forms).map Prod.fst
  | .multicref s => if isMultipart s then expandDotted s [] else none
  | .multicset s e => if isMultipart s then expandDotted s [e] else none

/-! ## Where the expressions of the user go -/

/-- The way to an expression of the user before and after the expansion, and the names that the
expansion binds on it. -/
structure Use where
  source : List Side
  target : List Side
  introduced : List String

def zoneNames (n : ℕ) : List String :=
  ["res" ++ toString (n % 100), "zone" ++ toString (n % 100), "newz" ++ toString (n % 100)]

def delayNames (n : ℕ) : List String :=
  zoneNames n ++ ["rescopy" ++ toString (n % 100), "hook", "f"]

/-- The body of a zone without a value is evaluated before its bindings. -/
def bodyUse (n : ℕ) (body : Sexpr) (source inner : List Side) : Use :=
  if memzoneVoid body then ⟨source, argPath 1 ++ inner, []⟩
  else ⟨source, argPath 1 ++ initPath 0 ++ inner, zoneNames n⟩

@[simp] theorem bodyUse_source (n : ℕ) (body : Sexpr) (source inner : List Side) :
    (bodyUse n body source inner).source = source := by
  unfold bodyUse
  split <;> rfl

def sizeUse : Use := ⟨argPath 0, argPath 0 ++ argPath 0, []⟩

def delayUse (n : ℕ) : Use :=
  ⟨argPath 1, argPath 1 ++ bodyPath 0 ++ bodyPath 0 ++ argPath 1, delayNames n⟩

/-- The names of the closures on the way. -/
def closureNames (s : String) : List String :=
  (List.range ((dottedParts s).length - 2)).map multicrefName

def Template.uses : Template → List Use
  | .ref kind operands =>
    (List.range operands.length).map fun i =>
      ⟨argPath i, initPath 1 ++ argPath i, [kind.pointer, kind.value]⟩
  | .zoneCleanup body =>
    (List.range body.length).map fun i =>
      ⟨argPath i, initPath 3 ++ .cdr :: argPath i, ["zone", "hooks", "hook", "f"]⟩
  | .callback _ _ _ args =>
    ⟨argPath 0, bodyPath 0 ++ argPath 0, ["zold", "znew"]⟩ ::
      ⟨argPath 1, bodyPath 0 ++ argPath 1, ["zold", "znew"]⟩ ::
        (List.range args.length).map fun i =>
          ⟨argPath (i + 2), bodyPath 0 ++ argPath (i + 3) ++ argPath 0, ["zold", "znew"]⟩
  | .memzone n _ none body => [sizeUse, bodyUse n body (argPath 1) []]
  | .memzone n _ (some _) body =>
    if memzoneVoid body then [sizeUse, bodyUse n body (argPath 2) []]
    else [sizeUse, delayUse n, bodyUse n body (argPath 2) []]
  | .letz n tail =>
    match tail with
    | .cons (.cons (.cons _ _) _) _ => [bodyUse n (.cons (.sym "let") tail) [.cdr] [.cdr]]
    | .cons _ tail => [sizeUse, bodyUse n (.cons (.sym "let") tail) [.cdr, .cdr] [.cdr]]
    | _ => []
  | .beginz n forms => [bodyUse n (beginForm forms) [.cdr] [.cdr]]
  | .multicref s => [⟨[.car], initPath 0 ++ [.car], closureNames s ++ ["v"]⟩]
  | .multicset s _ =>
    [⟨[.car], initPath 0 ++ [.car], closureNames s⟩,
      ⟨argPath 0, bodyPath 0 ++ argPath 0, closureNames s⟩]

/-- A variable that is free in an expression of the user is free in the expansion. -/
def Hygienic (t : Template) (expansion : Sexpr) : Prop :=
  ∀ use ∈ t.uses, scopes.Keeps .form t.source use.source .form expansion use.target

/-- No expression of the user has a free variable with a name that the expansion binds there. -/
def Avoids (t : Template) : Prop :=
  ∀ use ∈ t.uses, ∀ p x, FreeAt t.source (use.source ++ p) x → x ∉ use.introduced

/-- The expression is in the expansion, behind the introduced names. -/
def Placed (t : Template) (expansion : Sexpr) (use : Use) : Prop :=
  ∃ role tree role' tree' names,
    scopes.walk .form t.source use.source = some ⟨role, tree, names⟩ ∧
    scopes.walk .form expansion use.target = some ⟨role', tree', use.introduced ++ names⟩ ∧
    ∀ p x, scopes.Free role tree p x ↔ scopes.Free role' tree' p x

theorem Placed.of_walk {t : Template} {expansion tree : Sexpr} {use : Use} {role : Role}
    {names : List String} (h : scopes.walk .form t.source use.source = some ⟨role, tree, names⟩)
    (h' : scopes.walk .form expansion use.target = some ⟨role, tree, use.introduced ++ names⟩) :
    Placed t expansion use :=
  ⟨role, tree, role, tree, names, h, h', fun _ _ => Iff.rfl⟩

theorem Placed.keeps_iff {t : Template} {expansion : Sexpr} {use : Use}
    (h : Placed t expansion use) :
    scopes.Keeps .form t.source use.source .form expansion use.target ↔
      ∀ p x, FreeAt t.source (use.source ++ p) x → x ∉ use.introduced := by
  obtain ⟨role, tree, role', tree', names, hsource, htarget, hfree⟩ := h
  exact Rules.keeps_iff hsource htarget hfree

/-! ## References -/

theorem placed_ref (kind : RefKind) (operands : List Sexpr) :
    ∀ use ∈ (Template.ref kind operands).uses, Placed (.ref kind operands)
      (expandRef kind.pointer kind.value kind.make (.list operands)) use := by
  intro use huse
  obtain ⟨i, hi, rfl⟩ := List.mem_map.mp huse
  have hoperand := List.getElem?_eq_getElem (List.mem_range.mp hi)
  have hsource : scopes.walk .form (Template.ref kind operands).source (argPath i) =
      some ⟨.form, _, []⟩ := walk_arg (by cases kind <;> rfl) hoperand
  have hmake : scopes.walk .form (symList kind.make operands) (argPath i) =
      some ⟨.form, _, []⟩ := walk_arg (by cases kind <;> rfl) hoperand
  have hnames : [variableName kind.pointer, variableName kind.value] =
      [kind.pointer, kind.value] := by
    cases kind <;> rfl
  have hvalue : scopes.walk .form (expandRef kind.pointer kind.value kind.make (.list operands))
      (initPath 1) = some ⟨.form, symList kind.make operands, [kind.pointer, kind.value]⟩ := by
    rw [← hnames]
    exact walk_init rfl
  exact Placed.of_walk hsource (Rules.walk_trans hvalue hmake)

theorem variableName_typed : variableName ("hooks:" ++ hookType) = "hooks" ∧
    variableName ("hook:" ++ hookType) = "hook" ∧ variableName "f:[void]*" = "f" := by decide

/-- The forms of a hook are the body of a function. -/
theorem placed_zoneCleanup (body : List Sexpr) :
    ∀ use ∈ (Template.zoneCleanup body).uses,
      Placed (.zoneCleanup body) (expandZoneCleanup body) use := by
  intro use huse
  obtain ⟨i, hi, rfl⟩ := List.mem_map.mp huse
  have hlt := List.mem_range.mp hi
  have hform := List.getElem?_eq_getElem hlt
  have hsource : scopes.walk .form (Template.zoneCleanup body).source (argPath i) =
      some ⟨.form, _, []⟩ := walk_arg rfl hform
  have hforms : scopes.walk .forms (.list (body ++ [.sym "void"])) (elementPath i) =
      some ⟨.form, _, []⟩ := walk_element ((List.getElem?_append_left hlt).trans hform)
  have hlambda : scopes.walk .form
      (.cons (.sym "lambda") (.cons .nil (.list (body ++ [.sym "void"])))) (.cdr :: argPath i) =
        some ⟨.form, _, [] ++ ([] ++ [])⟩ := Rules.walk_cons rfl (Rules.walk_cons rfl hforms)
  have hinit : scopes.walk .form (expandZoneCleanup body) (initPath 3) =
      some ⟨.form, .cons (.sym "lambda") (.cons .nil (.list (body ++ [.sym "void"]))),
        ["zone", "hooks", "hook", "f"]⟩ := by
    have hnames : ["zone", "hooks", "hook", "f"] = ["zone", "hooks:" ++ hookType,
        "hook:" ++ hookType, "f"].map variableName := by decide
    rw [hnames]
    exact walk_init rfl
  exact Placed.of_walk hsource (Rules.walk_trans hinit hlambda)

/-! ## Callbacks -/

theorem transformEach_same (inbody : Bool) (c : Counters) : ∀ es : List Sexpr,
    transformEach (fun c _ e => some (e, c)) inbody c es = some (es, c)
  | [] => rfl
  | e :: es => by
    rw [transformEach]
    simp [transformEach_same inbody c es]

def callbackForm (time f : Sexpr) (args : List Sexpr) : Sexpr :=
  letForm [("zold", symList "llvm_peek_zone_stack" []),
      ("znew", symList "create_zone" [symList "*" [.int 1024, .int 4]])]
    [symList "llvm_callback" (time :: f :: .sym "znew" ::
      args.map fun x => symList "zcopy" [x, .sym "zold", .sym "znew"]), .sym "void"]

theorem expansion_callback (kind : CallbackKind) (time f : Sexpr) (args : List Sexpr) :
    (Template.callback kind time f args).expansion = some (callbackForm time f args) := by
  rw [Template.expansion, expandCallback]
  simp [transformEach_same, callbackForm]

theorem placed_callback (kind : CallbackKind) (time f : Sexpr) (args : List Sexpr) :
    ∀ use ∈ (Template.callback kind time f args).uses,
      Placed (.callback kind time f args) (callbackForm time f args) use := by
  have hsource {i : ℕ} {e : Sexpr} (h : (time :: f :: args)[i]? = some e) :
      scopes.walk .form (Template.callback kind time f args).source (argPath i) =
        some ⟨.form, e, []⟩ := walk_arg (by cases kind <;> rfl) h
  have hbody : scopes.walk .form (callbackForm time f args) (bodyPath 0) =
      some ⟨.form, symList "llvm_callback" (time :: f :: .sym "znew" ::
        args.map fun x => symList "zcopy" [x, .sym "zold", .sym "znew"]), ["zold", "znew"]⟩ :=
    walk_body rfl
  intro use huse
  rw [Template.uses, List.mem_cons, List.mem_cons] at huse
  obtain rfl | rfl | huse := huse
  · exact Placed.of_walk (hsource rfl) (Rules.walk_trans hbody (walk_arg rfl rfl))
  · exact Placed.of_walk (hsource rfl) (Rules.walk_trans hbody (walk_arg rfl rfl))
  · obtain ⟨i, hi, rfl⟩ := List.mem_map.mp huse
    obtain ⟨x, hx⟩ : ∃ x, args[i]? = some x :=
      ⟨_, List.getElem?_eq_getElem (List.mem_range.mp hi)⟩
    have hcopies : scopes.walk .form (symList "llvm_callback" (time :: f :: .sym "znew" ::
        args.map fun x => symList "zcopy" [x, .sym "zold", .sym "znew"])) (argPath (i + 3)) =
          some ⟨.form, symList "zcopy" [x, .sym "zold", .sym "znew"], []⟩ := by
      apply walk_arg rfl
      simp [hx]
    have hcopy : scopes.walk .form (symList "zcopy" [x, .sym "zold", .sym "znew"]) (argPath 0) =
      some ⟨.form, x, []⟩ := rfl
    exact Placed.of_walk (hsource hx) (Rules.walk_trans (Rules.walk_trans hbody hcopies) hcopy)

/-! ## Zones -/

theorem memzoneVoid_list (e : Sexpr) : ∀ es : List Sexpr,
    memzoneVoid (.list (es ++ [e])) = memzoneVoid e
  | [] => by simp [Sexpr.list, memzoneVoid]
  | e' :: es => by
    have hne : Sexpr.list (es ++ [e]) ≠ .nil := by
      cases es <;> exact fun h => by cases h
    rw [List.cons_append, Sexpr.list, memzoneVoid, if_neg hne, memzoneVoid_list e es]

theorem elements_list : ∀ es : List Sexpr, elements (.list es) = some es
  | [] => rfl
  | e :: es => by rw [Sexpr.list, elements, elements_list es]; rfl

/-- Neither a type nor a field is written in the symbol. -/
def isBare (s : String) : Bool := s.toList.all fun c => c != '.' && c != ':'

theorem variableName_eq {s : String} (h : isBare s = true) : variableName s = s := by
  have hall : s.toList.takeWhile (fun c => c ≠ '.' && c ≠ ':') = s.toList := by
    rw [List.takeWhile_eq_self_iff]
    intro c hc
    simpa using List.all_eq_true.mp h c hc
  rw [variableName, hall, String.ofList_toList]

/-- A number does not end a name. -/
theorem variableName_numbered {s : String} (h : isBare s = true) (n : ℕ) :
    variableName (s ++ toString n) = s ++ toString n := by
  apply variableName_eq
  rw [isBare, List.all_eq_true]
  intro c hc
  rw [String.toList_append, List.mem_append] at hc
  cases hc with
  | inl hc => exact List.all_eq_true.mp h c hc
  | inr hc =>
    have hdigit : c.isDigit = true := by
      apply Nat.isDigit_of_mem_toDigits (b := 10) (by decide) (by decide)
      rw [← Nat.toList_repr]
      exact hc
    have hdot : c ≠ '.' := fun heq => by
      rw [heq] at hdigit
      exact absurd hdigit (by decide)
    have hcolon : c ≠ ':' := fun heq => by
      rw [heq] at hdigit
      exact absurd hdigit (by decide)
    simp [hdot, hcolon]

theorem map_zoneNames (n : ℕ) : (zoneNames n).map variableName = zoneNames n := by
  simp only [zoneNames, List.map_cons, List.map_nil]
  rw [variableName_numbered rfl, variableName_numbered rfl,
    variableName_numbered rfl]

/-- The places of the size, the body and the delay in the expansion of a zone. -/
structure ZonePlaces (n : ℕ) (size body : Sexpr) (delay : Option Sexpr) (expansion : Sexpr) :
    Prop where
  ofSize : scopes.walk .form expansion (argPath 0 ++ argPath 0) = some ⟨.form, size, []⟩
  ofVoid : memzoneVoid body = true →
    scopes.walk .form expansion (argPath 1) = some ⟨.form, body, []⟩
  ofBody : memzoneVoid body = false →
    scopes.walk .form expansion (argPath 1 ++ initPath 0) = some ⟨.form, body, zoneNames n⟩
  ofDelay : memzoneVoid body = false → ∀ e, delay = some e →
    scopes.walk .form expansion (argPath 1 ++ bodyPath 0 ++ bodyPath 0 ++ argPath 1) =
      some ⟨.form, e, delayNames n⟩

/-- A zone whose body has a value. -/
def zoneForm (n : ℕ) (size body destroy : Sexpr) : Sexpr :=
  symList "begin" [symList "push_new_zone" [size],
    letForm [("res" ++ toString (n % 100), body),
        ("zone" ++ toString (n % 100), symList "pop_zone" []),
        ("newz" ++ toString (n % 100), symList "llvm_peek_zone_stack" [])]
      [letForm [("rescopy" ++ toString (n % 100), symList "zcopy"
            [.sym ("res" ++ toString (n % 100)), .sym ("zone" ++ toString (n % 100)),
              .sym ("newz" ++ toString (n % 100))]),
          ("hook:" ++ hookType, symList "cast" [symList "tref"
            [.sym ("zone" ++ toString (n % 100)), .int 4]]),
          ("f:[void]*", .sym "null")]
        [destroy, .sym ("rescopy" ++ toString (n % 100))]]]

theorem walk_zoneForm_body (n : ℕ) (size body destroy : Sexpr) :
    scopes.walk .form (zoneForm n size body destroy) (argPath 1 ++ initPath 0) =
      some ⟨.form, body, zoneNames n⟩ := by
  rw [← map_zoneNames]
  exact Rules.walk_trans (walk_arg rfl rfl) (walk_init rfl)

theorem walk_zoneForm_destroy (n : ℕ) (size body destroy : Sexpr) :
    scopes.walk .form (zoneForm n size body destroy) (argPath 1 ++ bodyPath 0 ++ bodyPath 0) =
      some ⟨.form, destroy, delayNames n⟩ := by
  have hinner : ["rescopy" ++ toString (n % 100), "hook:" ++ hookType, "f:[void]*"].map
      variableName = ["rescopy" ++ toString (n % 100), "hook", "f"] := by
    simp only [List.map_cons, List.map_nil, variableName_typed.2.1, variableName_typed.2.2]
    rw [variableName_numbered rfl]
  rw [delayNames, ← map_zoneNames, ← hinner]
  exact Rules.walk_trans (Rules.walk_trans (walk_arg rfl rfl) (walk_body rfl)) (walk_body rfl)

theorem zonePlaces_zoneForm {n : ℕ} {size body destroy : Sexpr} {delay : Option Sexpr}
    (hbody : memzoneVoid body = false)
    (hdelay : ∀ e, delay = some e →
      scopes.walk .form destroy (argPath 1) = some ⟨.form, e, []⟩) :
    ZonePlaces n size body delay (zoneForm n size body destroy) where
  ofSize := rfl
  ofVoid h := by
    rw [hbody] at h
    cases h
  ofBody _ := walk_zoneForm_body n size body destroy
  ofDelay _ e he := by
    have h := Rules.walk_trans (walk_zoneForm_destroy n size body destroy) (hdelay e he)
    rwa [List.append_nil] at h

theorem zonePlaces_void {n : ℕ} {size body : Sexpr} {delay : Option Sexpr}
    (hbody : memzoneVoid body = true) (rest : List Sexpr) :
    ZonePlaces n size body delay
      (symList "begin" (symList "push_new_zone" [size] :: body :: rest)) where
  ofSize := rfl
  ofVoid _ := rfl
  ofBody h := by
    rw [hbody] at h
    cases h
  ofDelay h := by
    rw [hbody] at h
    cases h

theorem zonePlaces {n : ℕ} {size body : Sexpr} (delay : Option Sexpr) {zone : Sexpr × ℕ}
    (h : expandMemzone n (.list (size :: (delay.toList ++ [body]))) = some zone) :
    ZonePlaces n size body delay zone.1 := by
  have hvoid : memzoneVoid (.cons (.sym "memzone") (.list (size :: (delay.toList ++ [body])))) =
      memzoneVoid body := memzoneVoid_list body (.sym "memzone" :: size :: delay.toList)
  rw [expandMemzone, elements_list] at h
  simp only [hvoid] at h
  cases hbody : memzoneVoid body with
  | true =>
    rw [hbody] at h
    cases delay <;> cases h <;> exact zonePlaces_void hbody _
  | false =>
    rw [hbody] at h
    cases delay with
    | none =>
      cases h
      exact zonePlaces_zoneForm hbody fun e he => by cases he
    | some e =>
      cases h
      apply zonePlaces_zoneForm hbody
      intro e' he
      cases he
      rfl

section ZoneUses

variable {t : Template} {n : ℕ} {size body tree expansion : Sexpr} {delay : Option Sexpr}
variable {source inner : List Side} {role : Role} {names : List String}

theorem placed_sizeUse (h : ZonePlaces n size body delay expansion)
    (hsource : scopes.walk .form t.source (argPath 0) = some ⟨.form, size, []⟩) :
    Placed t expansion sizeUse :=
  Placed.of_walk hsource h.ofSize

/-- A part of the body. -/
theorem placed_bodyUse (h : ZonePlaces n size body delay expansion)
    (hsource : scopes.walk .form t.source source = some ⟨role, tree, names⟩)
    (hinner : scopes.walk .form body inner = some ⟨role, tree, names⟩) :
    Placed t expansion (bodyUse n body source inner) := by
  cases hbody : memzoneVoid body with
  | true =>
    rw [bodyUse, if_pos hbody]
    exact Placed.of_walk hsource (Rules.walk_trans (h.ofVoid hbody) hinner)
  | false =>
    rw [bodyUse, if_neg (by rw [hbody]; exact Bool.false_ne_true)]
    exact Placed.of_walk hsource (Rules.walk_trans (h.ofBody hbody) hinner)

theorem placed_memzone (h : ZonePlaces n size body delay expansion) :
    ∀ use ∈ (Template.memzone n size delay body).uses,
      Placed (.memzone n size delay body) expansion use := by
  have hsize : Placed (.memzone n size delay body) expansion sizeUse := by
    apply placed_sizeUse h
    cases delay <;> exact walk_arg rfl rfl
  cases delay with
  | none =>
    have hbody : Placed (.memzone n size none body) expansion (bodyUse n body (argPath 1) []) :=
      placed_bodyUse h (walk_arg rfl rfl) rfl
    simpa [Template.uses] using And.intro hsize hbody
  | some e =>
    have hbody : Placed (.memzone n size (some e) body) expansion
        (bodyUse n body (argPath 2) []) := placed_bodyUse h (walk_arg rfl rfl) rfl
    cases hvoid : memzoneVoid body with
    | true => simpa [Template.uses, hvoid] using And.intro hsize hbody
    | false =>
      have hdelay : Placed (.memzone n size (some e) body) expansion (delayUse n) := by
        have hsource : scopes.walk .form (Template.memzone n size (some e) body).source
          (argPath 1) = some ⟨.form, e, []⟩ := walk_arg rfl rfl
        have htarget := h.ofDelay hvoid e rfl
        rw [← List.append_nil (delayNames n)] at htarget
        exact Placed.of_walk hsource htarget
      simpa [Template.uses, hvoid] using And.intro hsize (And.intro hdelay hbody)

end ZoneUses

theorem child_letz {size bindings body : Sexpr}
    (hsize : ∀ a b c : Sexpr, size = .cons (.cons a b) c → False) :
    scopes.child .form (.cons (.sym "letz") (.cons size (.cons bindings body))) .cdr =
      some ⟨.letzTail, .cons size (.cons bindings body), []⟩ := by
  apply congrArg some
  simp only [tailPlace]
  split
  · rename_i heq
    cases heq
    exact (hsize _ _ _ rfl).elim
  · rfl

theorem uses_letz {n : ℕ} {size bindings body : Sexpr}
    (hsize : ∀ a b c : Sexpr, size = .cons (.cons a b) c → False) :
    (Template.letz n (.cons size (.cons bindings body))).uses =
      [sizeUse, bodyUse n (.cons (.sym "let") (.cons bindings body)) [.cdr, .cdr] [.cdr]] := by
  simp only [Template.uses]

theorem placed_letz {n : ℕ} {tail : Sexpr} {zone : Sexpr × ℕ}
    (h : expandLetz n tail = some zone) :
    ∀ use ∈ (Template.letz n tail).uses, Placed (.letz n tail) zone.1 use := by
  unfold expandLetz at h
  split at h
  · intro use huse
    cases List.mem_singleton.mp huse
    exact placed_bodyUse (zonePlaces none h) rfl rfl
  · rename_i size bindings body hsize
    have hplaces := zonePlaces none h
    have hsizeUse : Placed (.letz n (.cons size (.cons bindings body))) zone.1 sizeUse := by
      apply placed_sizeUse hplaces
      exact (Rules.walk_step (child_letz hsize)).trans rfl
    have hbodyUse : Placed (.letz n (.cons size (.cons bindings body))) zone.1
        (bodyUse n (.cons (.sym "let") (.cons bindings body)) [.cdr, .cdr] [.cdr]) :=
      placed_bodyUse hplaces ((Rules.walk_step (child_letz hsize)).trans rfl) rfl
    rw [uses_letz hsize]
    simpa using And.intro hsizeUse hbodyUse
  · cases h

theorem placed_beginz {n : ℕ} {forms : Sexpr} {zone : Sexpr × ℕ}
    (h : expandBeginz n forms = some zone) :
    ∀ use ∈ (Template.beginz n forms).uses, Placed (.beginz n forms) zone.1 use := by
  intro use huse
  cases List.mem_singleton.mp huse
  exact placed_bodyUse (zonePlaces none h) rfl rfl

/-! ## References along closures -/

theorem regexSplit_first {sep : Char} {cs : List Char} : ∀ {piece : List Char} {a b : String}
    {rest : List String}, regexSplit sep piece cs = a :: b :: rest →
      a = String.ofList (piece.reverse ++ cs.takeWhile (· ≠ sep)) := by
  induction cs with
  | nil =>
    intro piece a b rest h
    rw [regexSplit] at h
    split at h <;> cases h
  | cons c cs ih =>
    intro piece a b rest h
    rw [regexSplit] at h
    by_cases hc : c = sep
    · rw [if_pos hc] at h
      rw [List.takeWhile_cons, if_neg (by simpa using hc), List.append_nil]
      exact (List.cons.inj h).1.symm
    · rw [if_neg hc] at h
      rw [ih h, List.takeWhile_cons, if_pos (by simpa using hc), List.reverse_cons,
        List.append_assoc]
      rfl

theorem variableName_takeWhile (cs : List Char) :
    variableName (String.ofList (cs.takeWhile (· ≠ '.'))) = variableName (String.ofList cs) := by
  rw [variableName, variableName, String.toList_ofList, String.toList_ofList,
    List.takeWhile_takeWhile]
  congr 2
  funext c
  by_cases hc : c = '.' <;> simp [hc]

/-- The closure that a dotted name starts with. -/
theorem variableName_first {s a b : String} {rest : List String}
    (h : dottedParts s = a :: b :: rest) (field : String) :
    variableName (a ++ "." ++ field) = variableName s := by
  have ha := regexSplit_first h
  rw [List.reverse_nil, List.nil_append] at ha
  have hfield : ("." ++ field).toList = '.' :: field.toList := String.toList_append
  rw [String.append_assoc, variableName_append a hfield (.inl rfl), ha, variableName_takeWhile,
    String.ofList_toList]

theorem names_multicrefBindings (a : String) (path : List String) :
    ((multicrefBindings a path).map fun p => variableName p.1) =
      (List.range path.length).map multicrefName := by
  have hname (n : ℕ) : variableName (multicrefName n ++ ":[void]*") = multicrefName n := by
    rw [variableName_append _ rfl (.inr rfl), multicrefName, variableName_numbered rfl]
  rw [multicrefBindings, List.map_map, List.range_eq_range', ← List.zipIdx_map_snd,
    List.map_map]
  apply List.map_congr_left
  intro p _
  exact hname p.2

theorem free_sym_iff {s : String} {p : List Side} {x : String} :
    scopes.Free .form (.sym s) p x ↔ p = [] ∧ variableName s = x := by
  constructor
  · intro h
    obtain ⟨a, ha, hx, hnames⟩ := h
    cases p with
    | nil =>
      cases ha
      exact ⟨rfl, Option.some.inj hx⟩
    | cons d p => cases d <;> cases ha
  · intro h
    obtain ⟨rfl, rfl⟩ := h
    exact ⟨_, rfl, rfl, List.not_mem_nil⟩

/-- What a reference along several closures, or an assignment, is expanded to. -/
theorem expandDotted_of_isMultipart {s : String} {args : List Sexpr} {expansion : Sexpr}
    (hmulti : isMultipart s = true) (h : expandDotted s args = some expansion) :
    ∃ a b rest last type, dottedParts s = a :: b :: rest ∧ rest ≠ [] ∧
      (args = [] ∧ expansion = expandMulticref a (b :: rest).dropLast last type ∨
        ∃ e, args = [e] ∧ expansion = expandMulticset a (b :: rest).dropLast last type e) := by
  rw [isMultipart, Bool.and_eq_true, decide_eq_true_eq] at hmulti
  obtain ⟨hlength, htype⟩ := hmulti
  cases hparts : dottedParts s with
  | nil => rw [hparts] at hlength; cases hlength
  | cons a parts =>
    cases parts with
    | nil => simp [hparts] at hlength
    | cons b rest =>
      have hrest : rest ≠ [] := by
        intro hnil
        simp [hparts, hnil] at hlength
      rw [expandDotted, show regexSplit '.' [] s.toList = _ from hparts] at h
      simp only [htype, if_true] at h
      split at h
      · exact absurd rfl hrest
      · exact absurd rfl hrest
      · cases h
        exact ⟨a, b, _, _, _, rfl, hrest, .inl ⟨rfl, rfl⟩⟩
      · cases h
        exact ⟨a, b, _, _, _, rfl, hrest, .inr ⟨_, rfl, rfl⟩⟩
      · cases h

section Dotted

variable {t : Template} {s a b type : String} {rest : List String} {args : List Sexpr}

theorem closureNames_eq (h : dottedParts s = a :: b :: rest) :
    ((multicrefBindings a (b :: rest).dropLast).map fun p => variableName p.1) =
      closureNames s := by
  rw [names_multicrefBindings, closureNames, h]
  simp

/-- The first closure is in the first initialiser. -/
theorem placed_first (hparts : dottedParts s = a :: b :: rest) (hrest : rest ≠ [])
    (hsource : t.source = symList s args) (more : List (String × Sexpr)) (body : List Sexpr) :
    Placed t (letForm (multicrefBindings a (b :: rest).dropLast ++ more) body)
      ⟨[.car], initPath 0 ++ [.car], closureNames s ++ more.map fun p => variableName p.1⟩ := by
  obtain ⟨c, rest, rfl⟩ := List.exists_cons_of_ne_nil hrest
  have hinit : scopes.walk .form
      (letForm (multicrefBindings a (b :: c :: rest).dropLast ++ more) body) (initPath 0) =
        some ⟨.form, .list [.sym (a ++ "." ++ b)],
          closureNames s ++ more.map fun p => variableName p.1⟩ := by
    rw [← closureNames_eq hparts, ← List.map_append]
    exact walk_init rfl
  have hname : variableName s = variableName (a ++ "." ++ b) := (variableName_first hparts b).symm
  refine ⟨.form, .sym s, .form, .sym (a ++ "." ++ b), [], ?_, ?_, ?_⟩
  · rw [hsource]
    rfl
  · exact Rules.walk_trans hinit rfl
  · intro p x
    rw [free_sym_iff, free_sym_iff, hname]

theorem placed_multicref {expansion : Sexpr}
    (h : (Template.multicref s).expansion = some expansion) :
    ∀ use ∈ (Template.multicref s).uses, Placed (.multicref s) expansion use := by
  intro use huse
  cases List.mem_singleton.mp huse
  rw [Template.expansion, Option.ite_none_right_eq_some] at h
  obtain ⟨a, b, rest, last, type, hparts, hrest, hcase⟩ := expandDotted_of_isMultipart h.1 h.2
  cases hcase with
  | inl hcase =>
    obtain ⟨-, rfl⟩ := hcase
    have hv : variableName ("v:" ++ type) = "v" := by
      have htype : (":" ++ type).toList = ':' :: type.toList := String.toList_append
      rw [show "v:" = "v" ++ ":" from rfl, String.append_assoc,
        variableName_append "v" htype (.inr rfl)]
      rfl
    have hplaced := placed_first (t := .multicref s) hparts hrest rfl [("v:" ++ type, .list [.sym
      (multicrefName ((b :: rest).dropLast.length - 1) ++ "." ++ last)])] [.sym "v"]
    rw [List.map_singleton, hv] at hplaced
    exact hplaced
  | inr hcase =>
    obtain ⟨e, he, -⟩ := hcase
    cases he

/-- No form with a branch of its own has a name with a dot. -/
theorem tailPlace_of_mem (h : '.' ∈ s.toList) (tail : Sexpr) :
    tailPlace s tail = ⟨.forms, tail, []⟩ := by
  have hlet : s ∉ letslist := fun hmem =>
    have hall : ∀ s ∈ letslist, '.' ∉ s.toList := by decide
    hall s hmem h
  have hlambda : s ∉ lambdaslist := fun hmem =>
    have hall : ∀ s ∈ lambdaslist, '.' ∉ s.toList := by decide
    hall s hmem h
  unfold tailPlace
  split
  iterate 11 exact absurd h (by decide)
  rw [if_neg hlet, if_neg hlambda]

theorem mem_of_isMultipart (h : isMultipart s = true) : '.' ∈ s.toList := by
  rw [isMultipart, Bool.and_eq_true] at h
  by_contra hdot
  have hnil : s.toList.dropWhile (· ≠ '.') = [] := by
    rw [List.dropWhile_eq_nil_iff]
    intro c hc
    have hne : c ≠ '.' := fun heq => hdot (heq ▸ hc)
    simpa using hne
  rw [hnil] at h
  cases h.2

theorem placed_multicset {e expansion : Sexpr}
    (h : (Template.multicset s e).expansion = some expansion) :
    ∀ use ∈ (Template.multicset s e).uses, Placed (.multicset s e) expansion use := by
  rw [Template.expansion, Option.ite_none_right_eq_some] at h
  obtain ⟨a, b, rest, last, type, hparts, hrest, hcase⟩ := expandDotted_of_isMultipart h.1 h.2
  cases hcase with
  | inl hcase => cases hcase.1
  | inr hcase =>
    obtain ⟨e', he, rfl⟩ := hcase
    cases he
    have hclosure := placed_first (t := .multicset s e) hparts hrest rfl []
      [.list [.sym (multicrefName ((b :: rest).dropLast.length - 1) ++ "." ++ last ++ ":" ++ type),
        e]]
    rw [List.append_nil, List.map_nil, List.append_nil] at hclosure
    have hsource : scopes.walk .form (Template.multicset s e).source (argPath 0) =
        some ⟨.form, e, []⟩ := walk_arg (tailPlace_of_mem (mem_of_isMultipart h.1) _) rfl
    intro use huse
    rw [Template.uses, List.mem_cons, List.mem_singleton] at huse
    cases huse with
    | inl huse =>
      rw [huse]
      exact hclosure
    | inr huse =>
      rw [huse]
      have hsetter : '.' ∈ (multicrefName ((b :: rest).dropLast.length - 1) ++ "." ++ last ++
          ":" ++ type).toList := by
        simp [String.toList_append]
      have hbody : scopes.walk .form (letForm (multicrefBindings a (b :: rest).dropLast) [.list
          [.sym (multicrefName ((b :: rest).dropLast.length - 1) ++ "." ++ last ++ ":" ++ type),
            e]]) (bodyPath 0 ++ argPath 0) = some ⟨.form, e, closureNames s ++ []⟩ := by
        rw [← closureNames_eq hparts]
        exact Rules.walk_trans (walk_body rfl) (walk_arg (tailPlace_of_mem hsetter _) rfl)
      exact Placed.of_walk hsource hbody

end Dotted

/-! ## The pass makes the expansions -/

def Template.head : Template → String
  | .ref kind _ => kind.head
  | .zoneCleanup _ => "zone_cleanup"
  | .callback kind _ _ _ => kind.head
  | .memzone _ _ _ _ => "memzone"
  | .letz _ _ => "letz"
  | .beginz _ _ => "beginz"
  | .multicref s | .multicset s _ => s

/-- The number of zones before the form, where it counts. -/
def Template.Counts (c : Counters) : Template → Prop
  | .memzone n _ _ _ | .letz n _ | .beginz n _ => c.memzone = n
  | _ => True

/-- The head is no polymorphic or generic function, and a dotted one is no number. -/
structure Untouched (tables : Tables) (t : Template) : Prop where
  isPoly : tables.isPoly t.head = false
  isGeneric : tables.isGeneric t.head = false
  typedHead : tables.typedHead t.head = none
  isDotted : isMultipart t.head = true → isDotted tables t.head = true

theorem headOf_of_mem {s : String} (h : '.' ∈ s.toList) : headOf s = .plain := by
  have harith : s ∉ mathbinaryaritylist := fun hmem =>
    have hall : ∀ s ∈ mathbinaryaritylist, '.' ∉ s.toList := by decide
    hall s hmem h
  have hlambda : s ∉ lambdaslist := fun hmem =>
    have hall : ∀ s ∈ lambdaslist, '.' ∉ s.toList := by decide
    hall s hmem h
  have hlet : s ∉ letslist := fun hmem =>
    have hall : ∀ s ∈ letslist, '.' ∉ s.toList := by decide
    hall s hmem h
  unfold headOf
  split
  iterate 41 exact absurd h (by decide)
  rw [if_neg harith, if_neg hlambda, if_neg hlet]

section Performed

variable {tables : Tables} {t : Template} {recur : Pass} {c : Counters} {inbody : Bool}

theorem transformWith_head {s : String} {cdr : Sexpr} (hpoly : tables.isPoly s = false)
    (hgeneric : tables.isGeneric s = false) (htyped : tables.typedHead s = none) :
    transformWith tables recur c inbody (.cons (.sym s) cdr) =
      transformHead tables recur c inbody s cdr := by
  simp [transformWith, hpoly, hgeneric, htyped]

theorem transformHead_dotted {s : String} {args : List Sexpr} {expansion : Sexpr}
    (hmulti : isMultipart s = true) (hdotted : isDotted tables s = true)
    (h : expandDotted s args = some expansion) :
    transformHead tables recur c inbody s (.list args) = recur c inbody expansion := by
  rw [transformHead.eq_def, headOf_of_mem (mem_of_isMultipart hmulti)]
  simp only [transformPlain, hdotted, if_true, elements_list, Option.bind_eq_bind,
    Option.bind_some, h]

/-- The pass goes on with the expansion; the parts of a callback are transformed before it. -/
theorem transformWith_source (htables : Untouched tables t) {expansion : Sexpr}
    (h : t.expansion = some expansion) (hcounts : t.Counts c) :
    (∃ c', transformWith tables recur c inbody t.source = recur c' inbody expansion) ∨
      ∃ kind time f args, t = .callback kind time f args := by
  have hhead : ∀ cdr, transformWith tables recur c inbody (.cons (.sym t.head) cdr) =
      transformHead tables recur c inbody t.head cdr := fun cdr =>
    transformWith_head htables.isPoly htables.isGeneric htables.typedHead
  cases t with
  | ref kind operands =>
    cases h
    refine .inl ⟨c, (hhead _).trans ?_⟩
    cases kind <;> rfl
  | zoneCleanup body =>
    cases h
    refine .inl ⟨c, (hhead _).trans ?_⟩
    rw [Template.head, transformHead.eq_def, show headOf "zone_cleanup" = .zoneCleanup from rfl]
    simp only [elements_list, Option.bind_eq_bind, Option.bind_some]
  | callback kind time f args => exact .inr ⟨kind, time, f, args, rfl⟩
  | memzone n size delay body =>
    obtain ⟨zone, hzone, rfl⟩ := Option.map_eq_some_iff.mp h
    refine .inl ⟨{ c with memzone := zone.2 }, (hhead _).trans ?_⟩
    rw [Template.head, transformHead.eq_def, show headOf "memzone" = .memzone from rfl]
    simp only [transformZone, show c.memzone = n from hcounts, hzone, Option.bind_eq_bind,
      Option.bind_some]
  | letz n tail =>
    obtain ⟨zone, hzone, rfl⟩ := Option.map_eq_some_iff.mp h
    refine .inl ⟨{ c with memzone := zone.2 }, (hhead _).trans ?_⟩
    rw [Template.head, transformHead.eq_def, show headOf "letz" = .letz from rfl]
    simp only [transformZone, show c.memzone = n from hcounts, hzone, Option.bind_eq_bind,
      Option.bind_some]
  | beginz n forms =>
    obtain ⟨zone, hzone, rfl⟩ := Option.map_eq_some_iff.mp h
    refine .inl ⟨{ c with memzone := zone.2 }, (hhead _).trans ?_⟩
    rw [Template.head, transformHead.eq_def, show headOf "beginz" = .beginz from rfl]
    simp only [transformZone, show c.memzone = n from hcounts, hzone, Option.bind_eq_bind,
      Option.bind_some]
  | multicref s =>
    rw [Template.expansion, Option.ite_none_right_eq_some] at h
    exact .inl ⟨c, (hhead _).trans (transformHead_dotted h.1 (htables.isDotted h.1) h.2)⟩
  | multicset s e =>
    rw [Template.expansion, Option.ite_none_right_eq_some] at h
    exact .inl ⟨c, (hhead _).trans (transformHead_dotted h.1 (htables.isDotted h.1) h.2)⟩

end Performed

/-! ## Hygiene -/

theorem placed_uses {t : Template} {expansion : Sexpr} (h : t.expansion = some expansion) :
    ∀ use ∈ t.uses, Placed t expansion use := by
  cases t with
  | ref kind operands =>
    cases h
    exact placed_ref kind operands
  | zoneCleanup body =>
    cases h
    exact placed_zoneCleanup body
  | callback kind time f args =>
    rw [expansion_callback] at h
    cases h
    exact placed_callback kind time f args
  | memzone n size delay body =>
    obtain ⟨zone, hzone, rfl⟩ := Option.map_eq_some_iff.mp h
    exact placed_memzone (zonePlaces delay hzone)
  | letz n tail =>
    obtain ⟨zone, hzone, rfl⟩ := Option.map_eq_some_iff.mp h
    exact placed_letz hzone
  | beginz n forms =>
    obtain ⟨zone, hzone, rfl⟩ := Option.map_eq_some_iff.mp h
    exact placed_beginz hzone
  | multicref s => exact placed_multicref h
  | multicset s e => exact placed_multicset h

/-- Every variable of the user is one of a use, but for a delay that an expansion leaves out. -/
theorem uses_cover {t : Template} {expansion : Sexpr} (h : t.expansion = some expansion)
    {p : List Side} {x : String} (hfree : FreeAt t.source p x) :
    p = [.car] ∨ (∃ use ∈ t.uses, ∃ q, p = use.source ++ q) ∨
      ∃ n size delay body, t = .memzone n size (some delay) body ∧ memzoneVoid body = true := by
  cases t with
  | ref kind operands =>
    apply (freeAt_call (by cases kind <;> rfl) hfree).imp_right
    intro hp
    obtain ⟨i, q, hi, rfl⟩ := hp
    exact .inl ⟨_, List.mem_map_of_mem (List.mem_range.mpr hi), q, rfl⟩
  | zoneCleanup body =>
    apply (freeAt_call rfl hfree).imp_right
    intro hp
    obtain ⟨i, q, hi, rfl⟩ := hp
    exact .inl ⟨_, List.mem_map_of_mem (List.mem_range.mpr hi), q, rfl⟩
  | callback kind time f args =>
    apply (freeAt_call (by cases kind <;> rfl) hfree).imp_right
    intro hp
    obtain ⟨i, q, hi, rfl⟩ := hp
    apply Or.inl
    match i with
    | 0 => exact ⟨_, List.mem_cons_self, q, rfl⟩
    | 1 => exact ⟨_, List.mem_cons_of_mem _ List.mem_cons_self, q, rfl⟩
    | i + 2 =>
      have hi : i ∈ List.range args.length := List.mem_range.mpr (by simpa using hi)
      exact ⟨_, List.mem_cons_of_mem _ (List.mem_cons_of_mem _ (List.mem_map_of_mem hi)), q, rfl⟩
  | memzone n size delay body =>
    apply (freeAt_call rfl hfree).imp_right
    intro hp
    obtain ⟨i, q, hi, rfl⟩ := hp
    cases delay with
    | none =>
      apply Or.inl
      match i with
      | 0 => exact ⟨sizeUse, List.mem_cons_self, q, rfl⟩
      | 1 => exact ⟨bodyUse n body (argPath 1) [], by simp [Template.uses], q, by simp⟩
    | some delay =>
      cases hvoid : memzoneVoid body with
      | true =>
        match i with
        | 0 => exact .inl ⟨sizeUse, by simp [Template.uses, hvoid], q, rfl⟩
        | 1 => exact .inr ⟨n, size, delay, body, rfl, hvoid⟩
        | 2 =>
          exact .inl ⟨bodyUse n body (argPath 2) [], by simp [Template.uses, hvoid], q, by simp⟩
      | false =>
        apply Or.inl
        match i with
        | 0 => exact ⟨sizeUse, by simp [Template.uses, hvoid], q, rfl⟩
        | 1 => exact ⟨delayUse n, by simp [Template.uses, hvoid], q, rfl⟩
        | 2 => exact ⟨bodyUse n body (argPath 2) [], by simp [Template.uses, hvoid], q, by simp⟩
  | letz n tail =>
    apply (freeAt_cons hfree).imp_right
    intro hp
    obtain ⟨q, rfl⟩ := hp
    obtain ⟨zone, hzone, -⟩ := Option.map_eq_some_iff.mp h
    unfold expandLetz at hzone
    split at hzone
    · exact .inl ⟨_, List.mem_singleton_self _, q, by rw [bodyUse_source]; rfl⟩
    · rename_i size bindings body hsize
      have htail := (Rules.free_step (child_letz hsize)).mp hfree
      apply Or.inl
      rw [uses_letz hsize]
      cases q with
      | nil =>
        obtain ⟨a, ha, hx, -⟩ := htail
        cases ha
        cases hx
      | cons d q =>
        cases d with
        | car => exact ⟨sizeUse, by simp, q, rfl⟩
        | cdr =>
          exact ⟨_, List.mem_cons_of_mem _ (List.mem_singleton_self _), q, by
            rw [bodyUse_source]; rfl⟩
    · cases hzone
  | beginz n forms =>
    apply (freeAt_cons hfree).imp_right
    intro hp
    obtain ⟨q, rfl⟩ := hp
    exact .inl ⟨_, List.mem_singleton_self _, q, by rw [bodyUse_source]; rfl⟩
  | multicref s =>
    rw [Template.expansion, Option.ite_none_right_eq_some] at h
    apply (freeAt_call (tailPlace_of_mem (mem_of_isMultipart h.1) _) hfree).imp_right
    intro hp
    obtain ⟨i, q, hi, -⟩ := hp
    exact absurd hi (Nat.not_lt_zero i)
  | multicset s e =>
    rw [Template.expansion, Option.ite_none_right_eq_some] at h
    apply (freeAt_call (tailPlace_of_mem (mem_of_isMultipart h.1) _) hfree).imp_right
    intro hp
    obtain ⟨i, q, hi, rfl⟩ := hp
    cases i with
    | zero => exact .inl ⟨_, List.mem_cons_of_mem _ (List.mem_singleton_self _), q, rfl⟩
    | succ i => exact absurd (Nat.lt_of_succ_lt_succ hi) (Nat.not_lt_zero i)

theorem hygienic_iff (t : Template) (expansion : Sexpr) (h : t.expansion = some expansion) :
    Hygienic t expansion ↔ Avoids t :=
  forall₂_congr fun use huse => (placed_uses h use huse).keeps_iff

/-- `(vector_ref v1 1)` -/
def vectorOfV1 : Template := .ref .vector [.sym "v1", .int 1]

theorem hygienic_iff_vectorOfV1 :
    Hygienic vectorOfV1 (expandRef "v1" "v2" "vector" (.list [.sym "v1", .int 1])) ↔
      Avoids vectorOfV1 :=
  hygienic_iff vectorOfV1 _ rfl

/-- The operand is read in the scope of the pointer that the expansion calls `v1`. -/
theorem not_hygienic_vectorOfV1 :
    ¬ Hygienic vectorOfV1 (expandRef "v1" "v2" "vector" (.list [.sym "v1", .int 1])) := by
  intro h
  have hfree : FreeAt vectorOfV1.source (argPath 0 ++ []) "v1" :=
    ⟨_, rfl, rfl, List.not_mem_nil⟩
  obtain ⟨a, ha, -, hbound⟩ := h ⟨argPath 0, initPath 1 ++ argPath 0, ["v1", "v2"]⟩
    (List.mem_map_of_mem (List.mem_range.mpr (by decide : 0 < 2))) [] "v1" hfree
  cases ha
  exact hbound List.mem_cons_self

end Extempore.ExpansionHygiene
