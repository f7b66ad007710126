import Extempore.SurfaceExpressions

/-!
# What the first transformation makes of an expression

The output of `impc:ti:first-transform` on an expression of the surface language as a core form,
and the proof that the pass gives it. Operands of an operator with more than two of them are
transformed twice, which puts a `begin` more around the body of each `let`.
-/

namespace Extempore.Desugaring

open XtlangForms SurfaceForms FirstTransform SurfaceExpressions

/-! ## The output -/

def ArithOp.name (op : ArithOp) : Name :=
  ⟨op.text, fun h => by
    have hdisjoint : ∀ s ∈ mathbinaryaritylist, s ∉ keywords := by decide
    exact hdisjoint op.text op.mem h⟩

def Compare.name (op : Compare) : Name := ⟨op.text, by cases op <;> decide⟩

def boolName (b : Bool) : Name :=
  ⟨if b then "impc_true" else "impc_false", by cases b <;> decide⟩

def callName (f : Name) (args : Args) : Expr := .call (.atom (.name f)) args

def boolForm (b : Bool) : Expr := callName (boolName b) .nil

def binary (f : Name) (a b : Expr) : Expr := callName f (.cons a (.cons b .nil))

mutual

/-- The output on a core form. -/
def rewrap : Expr → Expr
  | .atom (.bool b) => boolForm b
  | .atom a => .atom a
  | .if2 marked test thn => .if2 marked (rewrap test) (rewrap thn)
  | .if3 marked test thn els => .if3 marked (rewrap test) (rewrap thn) (rewrap els)
  | .lets kind bindings body =>
    .lets kind (rewrapBindings bindings) (.last (.seq (rewrapBody body)))
  | .seq body => .seq (rewrapBody body)
  | .lambda kind params body => .lambda kind params (rewrapBody body)
  | .call f args => .call (rewrap f) (rewrapArgs args)
  | .ret name e => .ret name (rewrap e)

def rewrapBody : Body → Body
  | .last e => .last (rewrap e)
  | .cons e rest => .cons (rewrap e) (rewrapBody rest)

def rewrapArgs : Args → Args
  | .nil => .nil
  | .cons e rest => .cons (rewrap e) (rewrapArgs rest)

def rewrapBindings : Bindings → Bindings
  | .nil => .nil
  | .cons x init rest => .cons x (rewrap init) (rewrapBindings rest)

end

mutual

/-- The output on an expression. -/
def desugar : Surface → Expr
  | .var x => .atom (.name x)
  | .int n => .atom (.int n)
  | .str text => .atom (.str text)
  | .bool b => boolForm b
  | .call f args => callName f (desugarArgs args)
  | .arith op a b .nil => binary (ArithOp.name op) (desugar a) (desugar b)
  | .arith op a b (.cons e rest) =>
    desugarOperands op (binary (ArithOp.name op)
      (binary (ArithOp.name op) (rewrap (desugar a)) (rewrap (desugar b)))
      (rewrap (desugar e))) rest
  | .compare op a b => binary (Compare.name op) (desugar a) (desugar b)
  | .orEqual op a b =>
    let strict := binary (Compare.name op.strict) (desugar a) (desugar b)
    let equal := binary (Compare.name .eq) (desugar a) (desugar b)
    .if3 false strict strict (.if3 false equal equal (boolForm false))
  | .if2 test thn => .if2 false (desugar test) (desugar thn)
  | .if3 test thn els => .if3 false (desugar test) (desugar thn) (desugar els)
  | .lets kind bindings body => .lets kind (desugarBindings bindings) (desugarBody body)
  | .seq body => .seq (desugarBody body)
  | .and operands => desugarAnd operands
  | .or operands => desugarOr operands
  | .not e => .if3 false (desugar e) (boolForm false) (boolForm true)
  | .cond clauses => desugarClauses clauses

def desugarArgs : SArgs → Args
  | .nil => .nil
  | .cons e rest => .cons (desugar e) (desugarArgs rest)

/-- Further operands of an operator, whose form so far is `acc`. -/
def desugarOperands (op : ArithOp) (acc : Expr) : SArgs → Expr
  | .nil => acc
  | .cons e rest =>
    desugarOperands op (binary (ArithOp.name op) acc (rewrap (desugar e))) rest

def desugarBody : SBody → Body
  | .last e => .last (desugar e)
  | .cons e rest => .cons (desugar e) (desugarBody rest)

def desugarAnd : SBody → Expr
  | .last e => .if3 false (desugar e) (desugar e) (boolForm false)
  | .cons e rest => .if3 false (desugar e) (desugarAnd rest) (boolForm false)

def desugarOr : SBody → Expr
  | .last e => .if3 false (desugar e) (desugar e) (boolForm false)
  | .cons e rest => .if3 false (desugar e) (desugar e) (desugarOr rest)

def desugarBindings : SBindings → Bindings
  | .nil => .nil
  | .cons x init rest => .cons x (desugar init) (desugarBindings rest)

def desugarClauses : Clauses → Expr
  | .last test body => .if2 false (desugar test) (.seq (desugarBody body))
  | .lastElse test body els =>
    .if3 false (desugar test) (.seq (desugarBody body)) (.seq (desugarBody els))
  | .cons test body rest =>
    .if3 false (desugar test) (.seq (desugarBody body)) (desugarClauses rest)

end

/-! ## Names without a meaning of their own -/

/-- The symbols of the language that expressions are written with, and those that the pass
writes. -/
def languageSymbols : List String :=
  letslist ++ mathbinaryaritylist ++ ["if", "begin", "and", "or", "not", "cond", ">=", "<=", ">",
    "<", "=", "impc_true", "impc_false"]

/-- The tables do not know the name. -/
structure Unknown (tables : Tables) (s : String) : Prop where
  isPoly : tables.isPoly s = false
  isGeneric : tables.isGeneric s = false
  typedHead : tables.typedHead s = none
  typedAtom : tables.typedAtom s = none
  isDotted : isDotted tables s = false
  xtmacro : ∀ args, tables.xtmacro s args = none

/-- The tables do not know the symbols of the language. -/
def Regular (tables : Tables) : Prop := ∀ s ∈ languageSymbols, Unknown tables s

/-- A name of a variable or of a function that means nothing to the pass. -/
structure PlainName (tables : Tables) (x : Name) : Prop where
  unknown : Unknown tables x.text
  headOf : headOf x.text = .plain
  atomOf : atomOf x.text = .sym x.text
  notMem : x.text ∉ languageSymbols

mutual

/-- The names are plain, and no text is the name of a generic function. -/
def Plain (tables : Tables) : Surface → Prop
  | .var x => PlainName tables x
  | .int _ | .bool _ => True
  | .str text => tables.isGeneric text = false
  | .call f args => PlainName tables f ∧ PlainArgs tables args
  | .arith _ a b rest => Plain tables a ∧ Plain tables b ∧ PlainArgs tables rest
  | .compare _ a b | .orEqual _ a b => Plain tables a ∧ Plain tables b
  | .if2 test thn => Plain tables test ∧ Plain tables thn
  | .if3 test thn els => Plain tables test ∧ Plain tables thn ∧ Plain tables els
  | .lets _ bindings body => PlainBindings tables bindings ∧ PlainBody tables body
  | .seq body | .and body | .or body => PlainBody tables body
  | .not e => Plain tables e
  | .cond clauses => PlainClauses tables clauses

def PlainArgs (tables : Tables) : SArgs → Prop
  | .nil => True
  | .cons e rest => Plain tables e ∧ PlainArgs tables rest

def PlainBody (tables : Tables) : SBody → Prop
  | .last e => Plain tables e
  | .cons e rest => Plain tables e ∧ PlainBody tables rest

def PlainBindings (tables : Tables) : SBindings → Prop
  | .nil => True
  | .cons x init rest => PlainName tables x ∧ Plain tables init ∧ PlainBindings tables rest

def PlainClauses (tables : Tables) : Clauses → Prop
  | .last test body => Plain tables test ∧ PlainBody tables body
  | .lastElse test body els =>
    Plain tables test ∧ PlainBody tables body ∧ PlainBody tables els
  | .cons test body rest =>
    Plain tables test ∧ PlainBody tables body ∧ PlainClauses tables rest

end

/-! ## Steps of the pass -/

/-- The pass, deep enough, gives this output, whatever the counters and `inbody?`. -/
def Transforms (tables : Tables) (s out : Sexpr) : Prop :=
  ∃ depth, ∀ n, depth ≤ n → ∀ c inbody, firstTransform tables n c inbody s = some (out, c)

/-- A list that starts so has no branch of its own. -/
def Opens (tables : Tables) (car : Sexpr) : Prop :=
  ∀ recur c inbody cdr,
    transformWith tables recur c inbody (.cons car cdr) = transformPair recur c car cdr

section Steps

variable {tables : Tables} {s s' out car cdr car' cdr' : Sexpr}

theorem Transforms.const
    (h : ∀ recur c inbody, transformWith tables recur c inbody s = some (out, c)) :
    Transforms tables s out := by
  refine ⟨1, fun n hn c inbody => ?_⟩
  cases n with
  | zero => omega
  | succ n => exact h _ c inbody

/-- A form that is expanded and transformed again. -/
theorem Transforms.expand
    (h : ∀ recur c inbody, transformWith tables recur c inbody s = recur c inbody s')
    (hexpansion : Transforms tables s' out) : Transforms tables s out := by
  obtain ⟨depth, hdepth⟩ := hexpansion
  refine ⟨depth + 1, fun n hn c inbody => ?_⟩
  cases n with
  | zero => omega
  | succ n =>
    rw [firstTransform, h]
    exact hdepth n (by omega) c inbody

theorem Transforms.of_pair
    (h : ∀ recur c inbody, transformWith tables recur c inbody (.cons car cdr) =
      transformPair recur c car cdr)
    (hcar : Transforms tables car car') (hcdr : Transforms tables cdr cdr') :
    Transforms tables (.cons car cdr) (.cons car' cdr') := by
  obtain ⟨depth, hdepth⟩ := hcar
  obtain ⟨depth', hdepth'⟩ := hcdr
  refine ⟨max depth depth' + 1, fun n hn c inbody => ?_⟩
  cases n with
  | zero => omega
  | succ n =>
    rw [firstTransform, h, transformPair, hdepth n (by omega)]
    simp only [Option.bind_eq_bind, Option.bind_some, hdepth' n (by omega : depth' ≤ n)]

theorem Transforms.pair (h : Opens tables car) (hcar : Transforms tables car car')
    (hcdr : Transforms tables cdr cdr') : Transforms tables (.cons car cdr) (.cons car' cdr') :=
  Transforms.of_pair (fun recur c inbody => h recur c inbody cdr) hcar hcdr

theorem Transforms.nil : Transforms tables .nil .nil := Transforms.const fun _ _ _ => rfl

theorem Transforms.sym {s : String} (h : Unknown tables s) (hatom : atomOf s = .sym s) :
    Transforms tables (.sym s) (.sym s) := by
  apply Transforms.const
  intro recur c inbody
  simp [transformWith, hatom, h.typedAtom]

theorem transformPlain_eq {s : String} (h : Unknown tables s) (recur : Pass) (c : Counters)
    (inbody : Bool) (cdr : Sexpr) :
    transformPlain tables recur c inbody s cdr = transformPair recur c (.sym s) cdr := by
  simp [transformPlain, h.isDotted, h.xtmacro]

theorem transformWith_sym {s : String} (h : Unknown tables s) (recur : Pass) (c : Counters)
    (inbody : Bool) (cdr : Sexpr) :
    transformWith tables recur c inbody (.cons (.sym s) cdr) =
      transformHead tables recur c inbody s cdr := by
  simp [transformWith, h.isPoly, h.isGeneric, h.typedHead]

theorem opens_sym {s : String} (h : Unknown tables s) (hhead : headOf s = .plain) :
    Opens tables (.sym s) := by
  intro recur c inbody cdr
  rw [transformWith_sym h, transformHead.eq_def, hhead]
  exact transformPlain_eq h recur c inbody cdr

theorem opens_cons (a b : Sexpr) : Opens tables (.cons a b) := fun _ _ _ _ => rfl

theorem opens_str {text : String} (h : tables.isGeneric text = false) :
    Opens tables (.str text) := by
  intro recur c inbody cdr
  simp [transformWith, h]

/-- A list that starts with a symbol. -/
theorem Transforms.call {s : String} (h : Unknown tables s) (hhead : headOf s = .plain)
    (hatom : atomOf s = .sym s) (hcdr : Transforms tables cdr cdr') :
    Transforms tables (.cons (.sym s) cdr) (.cons (.sym s) cdr') :=
  Transforms.pair (opens_sym h hhead) (Transforms.sym h hatom) hcdr

theorem Transforms.bool (b : Bool) : Transforms tables (.bool b) (boolForm b).toSexpr := by
  apply Transforms.const
  intro recur c inbody
  cases b <;> rfl

theorem mathbinaryaritylist_spec : ∀ s ∈ mathbinaryaritylist,
    headOf s = .arith ∧ atomOf s = .sym s := by decide

theorem ArithOp.mem_languageSymbols (op : ArithOp) : op.text ∈ languageSymbols := by
  have hsub : ∀ s ∈ mathbinaryaritylist, s ∈ languageSymbols := by decide
  exact hsub op.text op.mem

/-- An operator with two operands has no branch of its own. -/
theorem Transforms.binary {op : ArithOp} {a b a' b' : Sexpr}
    (htables : Regular tables)
    (hargs : Transforms tables (.list [a, b]) (.list [a', b'])) :
    Transforms tables (symList op.text [a, b]) (symList op.text [a', b']) := by
  have h := htables op.text (ArithOp.mem_languageSymbols op)
  obtain ⟨hhead, hatom⟩ := mathbinaryaritylist_spec op.text op.mem
  apply Transforms.of_pair _ (Transforms.sym h hatom) hargs
  intro recur c inbody
  rw [transformWith_sym h, transformHead.eq_def, hhead]
  exact transformPlain_eq h recur c inbody _

/-- The pass on the bindings of a `let`. -/
def TransformsBindings (tables : Tables) (s out : Sexpr) : Prop :=
  ∃ depth, ∀ n, depth ≤ n → ∀ c,
    transformBindings (firstTransform tables n) c s = some (out, c)

theorem TransformsBindings.nil : TransformsBindings tables .nil .nil := ⟨0, fun _ _ _ => rfl⟩

theorem TransformsBindings.cons {x init init' rest rest' : Sexpr} (hx : Transforms tables x x)
    (hinit : Transforms tables init init') (hrest : TransformsBindings tables rest rest') :
    TransformsBindings tables (.cons (.list [x, init]) rest) (.cons (.list [x, init']) rest') := by
  obtain ⟨depth, hx⟩ := hx
  obtain ⟨depth', hinit⟩ := hinit
  obtain ⟨depth'', hrest⟩ := hrest
  refine ⟨max depth (max depth' depth''), fun n hn c => ?_⟩
  rw [Sexpr.list, Sexpr.list, transformBindings, hx n (by omega)]
  simp only [Option.bind_eq_bind, Option.bind_some, hinit n (by omega : depth' ≤ n),
    hrest n (by omega : depth'' ≤ n)]

theorem letslist_spec : ∀ s ∈ letslist, headOf s = .lets ∧ atomOf s = .sym s := by decide

theorem LetKind.mem_languageSymbols (kind : LetKind) : kind.text ∈ languageSymbols := by
  cases kind <;> decide

theorem Transforms.lets {kind : LetKind} {bindings bindings' body body' : Sexpr}
    (htables : Regular tables)
    (hbindings : TransformsBindings tables bindings bindings')
    (hbody : Transforms tables body body') :
    Transforms tables (.cons (.sym kind.text) (.cons bindings body))
      (.list [.sym kind.text, bindings', beginForm body']) := by
  have h := htables kind.text (LetKind.mem_languageSymbols kind)
  obtain ⟨hhead, hatom⟩ := letslist_spec kind.text kind.text_mem
  obtain ⟨depth, hcar⟩ := Transforms.sym h hatom
  obtain ⟨depth', hbindings⟩ := hbindings
  obtain ⟨depth'', hbody⟩ := hbody
  refine ⟨max depth (max depth' depth'') + 1, fun n hn c inbody => ?_⟩
  cases n with
  | zero => omega
  | succ n =>
    rw [firstTransform, transformWith_sym h, transformHead.eq_def, hhead]
    simp only [hcar n (by omega), hbindings n (by omega), hbody n (by omega), Option.bind_eq_bind,
      Option.bind_some]

/-- A form that starts with a symbol of the language and has no branch of its own. -/
theorem Transforms.language {s : String} (htables : Regular tables)
    (hs : s ∈ languageSymbols) (hhead : headOf s = .plain) (hatom : atomOf s = .sym s)
    (hcdr : Transforms tables cdr cdr') :
    Transforms tables (.cons (.sym s) cdr) (.cons (.sym s) cdr') :=
  Transforms.call (htables s hs) hhead hatom hcdr

end Steps

/-! ## The pass on core forms -/

def argsLength : Args → ℕ
  | .nil => 0
  | .cons _ rest => argsLength rest + 1

/-- A function, or an operator with two operands. -/
def HeadName (tables : Tables) (f : Name) (args : Args) : Prop :=
  Unknown tables f.text ∧
    (headOf f.text = .plain ∧ atomOf f.text = .sym f.text ∨
      f.text ∈ mathbinaryaritylist ∧ argsLength args = 2)

mutual

/-- A core form with plain names, and without a `lambda`. -/
def Core (tables : Tables) : Expr → Prop
  | .atom (.name x) => PlainName tables x
  | .atom (.str text) => tables.isGeneric text = false
  | .atom _ => True
  | .if2 marked test thn => marked = false ∧ Core tables test ∧ Core tables thn
  | .if3 marked test thn els =>
    marked = false ∧ Core tables test ∧ Core tables thn ∧ Core tables els
  | .lets _ bindings body => CoreBindings tables bindings ∧ CoreBody tables body
  | .seq body => CoreBody tables body
  | .call (.atom (.name f)) args => HeadName tables f args ∧ CoreArgs tables args
  | .call _ _ | .lambda _ _ _ | .ret _ _ => False

def CoreBody (tables : Tables) : Body → Prop
  | .last e => Core tables e
  | .cons e rest => Core tables e ∧ CoreBody tables rest

def CoreArgs (tables : Tables) : Args → Prop
  | .nil => True
  | .cons e rest => Core tables e ∧ CoreArgs tables rest

def CoreBindings (tables : Tables) : Bindings → Prop
  | .nil => True
  | .cons x init rest => PlainName tables x ∧ Core tables init ∧ CoreBindings tables rest

end

section Refinement

variable {tables : Tables}

theorem opens_of_core {e : Expr} (he : Core tables e) : Opens tables e.toSexpr := by
  cases e with
  | atom a =>
    cases a with
    | name x => exact opens_sym he.unknown he.headOf
    | str text => exact opens_str he
    | int n => exact fun _ _ _ _ => rfl
    | bool b => exact fun _ _ _ _ => rfl
  | _ => exact opens_cons _ _

theorem Transforms.head {f : Name} {args args' : Args} (hf : HeadName tables f args)
    (hargs : Transforms tables args.toSexpr args'.toSexpr) :
    Transforms tables (callName f args).toSexpr (callName f args').toSexpr := by
  obtain ⟨hunknown, hcase⟩ := hf
  cases hcase with
  | inl h => exact Transforms.call hunknown h.1 h.2 hargs
  | inr h =>
    obtain ⟨hhead, hatom⟩ := mathbinaryaritylist_spec f.text h.1
    apply Transforms.of_pair _ (Transforms.sym hunknown hatom) hargs
    intro recur c inbody
    rw [transformWith_sym hunknown, transformHead.eq_def, hhead]
    cases args with
    | nil => cases h.2
    | cons a rest =>
      cases rest with
      | nil => cases h.2
      | cons b rest =>
        cases rest with
        | nil => exact transformPlain_eq hunknown recur c inbody _
        | cons d rest => simp [argsLength] at h

mutual

/-- The second pass on a form. -/
theorem transforms_rewrap (htables : Regular tables) :
    ∀ e, Core tables e → Transforms tables e.toSexpr (rewrap e).toSexpr
  | .atom (.name x), h => Transforms.sym h.unknown h.atomOf
  | .atom (.int n), _ => Transforms.const fun _ _ _ => rfl
  | .atom (.str text), _ => Transforms.const fun _ _ _ => rfl
  | .atom (.bool b), _ => Transforms.bool b
  | .if2 marked test thn, h => by
    obtain ⟨rfl, htest, hthn⟩ := h
    apply Transforms.language htables (s := "if") (by decide) (by decide) (by decide)
    apply Transforms.pair (opens_of_core htest) (transforms_rewrap htables test htest)
    apply Transforms.pair (opens_of_core hthn) (transforms_rewrap htables thn hthn)
    exact Transforms.nil
  | .if3 marked test thn els, h => by
    obtain ⟨rfl, htest, hthn, hels⟩ := h
    apply Transforms.language htables (s := "if") (by decide) (by decide) (by decide)
    apply Transforms.pair (opens_of_core htest) (transforms_rewrap htables test htest)
    apply Transforms.pair (opens_of_core hthn) (transforms_rewrap htables thn hthn)
    apply Transforms.pair (opens_of_core hels) (transforms_rewrap htables els hels)
    exact Transforms.nil
  | .lets kind bindings body, h =>
    Transforms.lets htables (transforms_rewrapBindings htables bindings h.1)
      (Transforms.pair (opens_cons _ _) (transforms_rewrapSeq htables body h.2) Transforms.nil)
  | .seq body, h => transforms_rewrapSeq htables body h
  | .call (.atom (.name f)) args, h =>
    Transforms.head h.1 (transforms_rewrapArgs htables args h.2)

theorem transforms_rewrapSeq (htables : Regular tables) :
    ∀ body, CoreBody tables body → Transforms tables (.cons (.sym "begin") body.toSexpr)
      (.cons (.sym "begin") (rewrapBody body).toSexpr) :=
  fun body h => Transforms.language htables (by decide) (by decide) (by decide)
    (transforms_rewrapBody htables body h)

theorem transforms_rewrapBody (htables : Regular tables) :
    ∀ body, CoreBody tables body → Transforms tables body.toSexpr (rewrapBody body).toSexpr
  | .last e, h =>
    Transforms.pair (opens_of_core h) (transforms_rewrap htables e h) Transforms.nil
  | .cons e rest, h =>
    Transforms.pair (opens_of_core h.1) (transforms_rewrap htables e h.1)
      (transforms_rewrapBody htables rest h.2)

theorem transforms_rewrapArgs (htables : Regular tables) :
    ∀ args, CoreArgs tables args → Transforms tables args.toSexpr (rewrapArgs args).toSexpr
  | .nil, _ => Transforms.nil
  | .cons e rest, h =>
    Transforms.pair (opens_of_core h.1) (transforms_rewrap htables e h.1)
      (transforms_rewrapArgs htables rest h.2)

theorem transforms_rewrapBindings (htables : Regular tables) :
    ∀ bindings, CoreBindings tables bindings →
      TransformsBindings tables bindings.toSexpr (rewrapBindings bindings).toSexpr
  | .nil, _ => TransformsBindings.nil
  | .cons x init rest, h =>
    TransformsBindings.cons (Transforms.sym h.1.unknown h.1.atomOf)
      (transforms_rewrap htables init h.2.1) (transforms_rewrapBindings htables rest h.2.2)

end

theorem core_binary {f : Name} {a b : Expr} (hf : HeadName tables f (.cons a (.cons b .nil)))
    (ha : Core tables a) (hb : Core tables b) : Core tables (binary f a b) :=
  ⟨hf, ha, hb, True.intro⟩

theorem headName_arith (htables : Regular tables) (op : ArithOp)
    (a b : Expr) : HeadName tables (ArithOp.name op) (.cons a (.cons b .nil)) :=
  ⟨htables _ (ArithOp.mem_languageSymbols op), .inr ⟨op.mem, rfl⟩⟩

theorem headName_compare (htables : Regular tables) (op : Compare)
    (args : Args) : HeadName tables (Compare.name op) args := by
  apply And.intro
  · apply htables
    cases op <;> decide
  · cases op <;> exact .inl (by decide)

theorem core_boolForm (htables : Regular tables) (b : Bool) :
    Core tables (boolForm b) := by
  apply And.intro _ True.intro
  apply And.intro
  · apply htables
    cases b <;> decide
  · cases b <;> exact .inl (by decide)

theorem argsLength_rewrapArgs (args : Args) : argsLength (rewrapArgs args) = argsLength args := by
  cases args with
  | nil => rfl
  | cons _ rest => rw [rewrapArgs, argsLength, argsLength, argsLength_rewrapArgs rest]

mutual

theorem core_rewrap (htables : Regular tables) :
    ∀ e, Core tables e → Core tables (rewrap e)
  | .atom (.name _), h => h
  | .atom (.int _), _ => True.intro
  | .atom (.str _), h => h
  | .atom (.bool b), _ => core_boolForm htables b
  | .if2 _ test thn, h =>
    ⟨h.1, core_rewrap htables test h.2.1, core_rewrap htables thn h.2.2⟩
  | .if3 _ test thn els, h =>
    ⟨h.1, core_rewrap htables test h.2.1, core_rewrap htables thn h.2.2.1,
      core_rewrap htables els h.2.2.2⟩
  | .lets _ bindings body, h =>
    ⟨core_rewrapBindings htables bindings h.1, core_rewrapBody htables body h.2⟩
  | .seq body, h => core_rewrapBody htables body h
  | .call (.atom (.name f)) args, h => by
    apply And.intro _ (core_rewrapArgs htables args h.2)
    rw [HeadName, argsLength_rewrapArgs]
    exact h.1

theorem core_rewrapBody (htables : Regular tables) :
    ∀ body, CoreBody tables body → CoreBody tables (rewrapBody body)
  | .last e, h => core_rewrap htables e h
  | .cons e rest, h => ⟨core_rewrap htables e h.1, core_rewrapBody htables rest h.2⟩

theorem core_rewrapArgs (htables : Regular tables) :
    ∀ args, CoreArgs tables args → CoreArgs tables (rewrapArgs args)
  | .nil, h => h
  | .cons e rest, h => ⟨core_rewrap htables e h.1, core_rewrapArgs htables rest h.2⟩

theorem core_rewrapBindings (htables : Regular tables) :
    ∀ bindings, CoreBindings tables bindings → CoreBindings tables (rewrapBindings bindings)
  | .nil, h => h
  | .cons _ init rest, h =>
    ⟨h.1, core_rewrap htables init h.2.1, core_rewrapBindings htables rest h.2.2⟩

end

mutual

theorem core_desugar (htables : Regular tables) :
    ∀ e, Plain tables e → Core tables (desugar e)
  | .var _, h => h
  | .int _, _ => True.intro
  | .str _, h => h
  | .bool b, _ => core_boolForm htables b
  | .call f args, h =>
    ⟨⟨h.1.unknown, .inl ⟨h.1.headOf, h.1.atomOf⟩⟩, core_desugarArgs htables args h.2⟩
  | .arith op a b .nil, h =>
    core_binary (headName_arith htables op _ _) (core_desugar htables a h.1)
      (core_desugar htables b h.2.1)
  | .arith op a b (.cons e rest), h => by
    apply core_desugarOperands htables op _ _ rest h.2.2.2
    apply core_binary (headName_arith htables op _ _)
    · apply core_binary (headName_arith htables op _ _)
      · exact core_rewrap htables _ (core_desugar htables a h.1)
      · exact core_rewrap htables _ (core_desugar htables b h.2.1)
    · exact core_rewrap htables _ (core_desugar htables e h.2.2.1)
  | .compare op a b, h =>
    core_binary (headName_compare htables op _) (core_desugar htables a h.1)
      (core_desugar htables b h.2)
  | .orEqual op a b, h => by
    have ha := core_desugar htables a h.1
    have hb := core_desugar htables b h.2
    have hstrict := core_binary (headName_compare htables op.strict _) ha hb
    have hequal := core_binary (headName_compare htables .eq _) ha hb
    exact ⟨rfl, hstrict, hstrict, rfl, hequal, hequal, core_boolForm htables false⟩
  | .if2 test thn, h => ⟨rfl, core_desugar htables test h.1, core_desugar htables thn h.2⟩
  | .if3 test thn els, h =>
    ⟨rfl, core_desugar htables test h.1, core_desugar htables thn h.2.1,
      core_desugar htables els h.2.2⟩
  | .lets _ bindings body, h =>
    ⟨core_desugarBindings htables bindings h.1, core_desugarBody htables body h.2⟩
  | .seq body, h => core_desugarBody htables body h
  | .and operands, h => core_desugarAnd htables operands h
  | .or operands, h => core_desugarOr htables operands h
  | .not e, h =>
    ⟨rfl, core_desugar htables e h, core_boolForm htables false, core_boolForm htables true⟩
  | .cond clauses, h => core_desugarClauses htables clauses h

theorem core_desugarArgs (htables : Regular tables) :
    ∀ args, PlainArgs tables args → CoreArgs tables (desugarArgs args)
  | .nil, h => h
  | .cons e rest, h => ⟨core_desugar htables e h.1, core_desugarArgs htables rest h.2⟩

theorem core_desugarOperands (htables : Regular tables) (op : ArithOp)
    (acc : Expr) (hacc : Core tables acc) :
    ∀ args, PlainArgs tables args → Core tables (desugarOperands op acc args)
  | .nil, _ => hacc
  | .cons e rest, h => by
    apply core_desugarOperands htables op _ _ rest h.2
    apply core_binary (headName_arith htables op _ _) hacc
    exact core_rewrap htables _ (core_desugar htables e h.1)

theorem core_desugarBody (htables : Regular tables) :
    ∀ body, PlainBody tables body → CoreBody tables (desugarBody body)
  | .last e, h => core_desugar htables e h
  | .cons e rest, h => ⟨core_desugar htables e h.1, core_desugarBody htables rest h.2⟩

theorem core_desugarAnd (htables : Regular tables) :
    ∀ operands, PlainBody tables operands → Core tables (desugarAnd operands)
  | .last e, h =>
    ⟨rfl, core_desugar htables e h, core_desugar htables e h, core_boolForm htables false⟩
  | .cons e rest, h =>
    ⟨rfl, core_desugar htables e h.1, core_desugarAnd htables rest h.2,
      core_boolForm htables false⟩

theorem core_desugarOr (htables : Regular tables) :
    ∀ operands, PlainBody tables operands → Core tables (desugarOr operands)
  | .last e, h =>
    ⟨rfl, core_desugar htables e h, core_desugar htables e h, core_boolForm htables false⟩
  | .cons e rest, h =>
    ⟨rfl, core_desugar htables e h.1, core_desugar htables e h.1,
      core_desugarOr htables rest h.2⟩

theorem core_desugarBindings (htables : Regular tables) :
    ∀ bindings, PlainBindings tables bindings → CoreBindings tables (desugarBindings bindings)
  | .nil, h => h
  | .cons _ init rest, h =>
    ⟨h.1, core_desugar htables init h.2.1, core_desugarBindings htables rest h.2.2⟩

theorem core_desugarClauses (htables : Regular tables) :
    ∀ clauses, PlainClauses tables clauses → Core tables (desugarClauses clauses)
  | .last test body, h =>
    ⟨rfl, core_desugar htables test h.1, core_desugarBody htables body h.2⟩
  | .lastElse test body els, h =>
    ⟨rfl, core_desugar htables test h.1, core_desugarBody htables body h.2.1,
      core_desugarBody htables els h.2.2⟩
  | .cons test body rest, h =>
    ⟨rfl, core_desugar htables test h.1, core_desugarBody htables body h.2.1,
      core_desugarClauses htables rest h.2.2⟩

end

/-! ### Expansions -/

theorem opens_of_plain {e : Surface} (he : Plain tables e) : Opens tables e.toSexpr := by
  cases e with
  | var x => exact opens_sym he.unknown he.headOf
  | str text => exact opens_str he
  | int n => exact fun _ _ _ _ => rfl
  | bool b => exact fun _ _ _ _ => rfl
  | _ => exact opens_cons _ _

theorem SBody.toSexpr_ne_nil (body : SBody) : body.toSexpr ≠ .nil := by
  cases body <;> exact fun h => by cases h

theorem expandAnd_last (e : Sexpr) :
    expandAnd (.list [e]) = symList "if" [e, e, .bool false] := by
  simp [Sexpr.list, expandAnd]

theorem expandAnd_cons (e : Sexpr) (rest : SBody) :
    expandAnd (.cons e rest.toSexpr) =
      symList "if" [e, expandAnd rest.toSexpr, .bool false] := by
  rw [expandAnd, if_neg (SBody.toSexpr_ne_nil rest)]

theorem expandOr_last (e : Sexpr) :
    expandOr (.list [e]) = symList "if" [e, e, .bool false] := by
  simp [Sexpr.list, expandOr]

theorem expandOr_cons (e : Sexpr) (rest : SBody) :
    expandOr (.cons e rest.toSexpr) = symList "if" [e, e, expandOr rest.toSexpr] := by
  rw [expandOr, if_neg (SBody.toSexpr_ne_nil rest)]

/-- What `impc:ti:cond` makes of clauses. -/
def clausesForm : Clauses → Sexpr
  | .last test body => symList "if" [test.toSexpr, beginForm body.toSexpr]
  | .lastElse test body els =>
    symList "if" [test.toSexpr, beginForm body.toSexpr, beginForm els.toSexpr]
  | .cons test body rest =>
    symList "if" [test.toSexpr, beginForm body.toSexpr, clausesForm rest]

theorem toSexpr_ne_nil (e : Surface) : e.toSexpr ≠ .nil := by
  cases e <;> exact fun h => by cases h

theorem clausesForm_ne_nil (clauses : Clauses) : clausesForm clauses ≠ .nil := by
  cases clauses <;> exact fun h => by cases h

theorem toSexpr_ne_else {e : Surface} (he : Plain tables e) : e.toSexpr ≠ .sym "else" := by
  cases e with
  | var x =>
    intro h
    have hatom := he.atomOf
    rw [Sexpr.sym.inj h] at hatom
    cases hatom
  | _ => exact fun h => by cases h

theorem expandCond_toSexpr : ∀ clauses, PlainClauses tables clauses →
    expandCond clauses.toSexpr = some (clausesForm clauses)
  | .last test body, _ => by
    simp [Clauses.toSexpr, Sexpr.list, expandCond, SBody.toSexpr_ne_nil, toSexpr_ne_nil,
      beginForm, clausesForm, symList]
  | .lastElse test body els, _ => by
    simp [Clauses.toSexpr, Sexpr.list, expandCond, SBody.toSexpr_ne_nil, toSexpr_ne_nil,
      beginForm, clausesForm, symList]
  | .cons test body rest, h => by
    have ih := expandCond_toSexpr rest h.2.2
    have hcar : ∃ car cdr tail, rest.toSexpr = .cons (.cons car cdr) tail ∧
        car ≠ .sym "else" := by
      cases rest with
      | last test body => exact ⟨_, _, _, rfl, toSexpr_ne_else h.2.2.1⟩
      | lastElse test body els => exact ⟨_, _, _, rfl, toSexpr_ne_else h.2.2.1⟩
      | cons test body rest => exact ⟨_, _, _, rfl, toSexpr_ne_else h.2.2.1⟩
    obtain ⟨car, cdr, tail, hrest, hcar⟩ := hcar
    rw [Clauses.toSexpr, expandCond, if_neg (SBody.toSexpr_ne_nil body)]
    rw [hrest] at ih ⊢
    simp [hcar, ih, toSexpr_ne_nil, clausesForm_ne_nil, beginForm, clausesForm, symList]

/-! ### Operators with more than two operands -/

/-- The form of the operator after the first pass over its operands. -/
def loopForm (op : ArithOp) (acc : Expr) : SArgs → Expr
  | .nil => acc
  | .cons e rest => loopForm op (binary (ArithOp.name op) acc (desugar e)) rest

theorem rewrap_loopForm (op : ArithOp) : ∀ (acc : Expr) (args : SArgs),
    rewrap (loopForm op acc args) = desugarOperands op (rewrap acc) args
  | _, .nil => rfl
  | acc, .cons e rest => by
    rw [loopForm, rewrap_loopForm op, desugarOperands]
    rfl

theorem core_loopForm (htables : Regular tables) (op : ArithOp)
    (acc : Expr) (hacc : Core tables acc) :
    ∀ args, PlainArgs tables args → Core tables (loopForm op acc args)
  | .nil, _ => hacc
  | .cons e rest, h =>
    core_loopForm htables op _
      (core_binary (headName_arith htables op _ _) hacc (core_desugar htables e h.1)) rest h.2

def sargsList : SArgs → List Sexpr
  | .nil => []
  | .cons e rest => e.toSexpr :: sargsList rest

theorem elements_sargs : ∀ args : SArgs, elements args.toSexpr = some (sargsList args)
  | .nil => rfl
  | .cons e rest => by rw [SArgs.toSexpr, elements, elements_sargs rest]; rfl

/-- Operands that are transformed one by one. -/
inductive TransformsOperands (tables : Tables) : SArgs → Prop
  | nil : TransformsOperands tables .nil
  | cons {e : Surface} {rest : SArgs} (h : Transforms tables e.toSexpr (desugar e).toSexpr)
    (hrest : TransformsOperands tables rest) : TransformsOperands tables (.cons e rest)

theorem binaryArityLoop_eq (op : ArithOp) {args : SArgs} (h : TransformsOperands tables args) :
    ∃ depth, ∀ n, depth ≤ n → ∀ c inbody (acc : Expr),
      binaryArityLoop (firstTransform tables n) (.sym op.text) inbody c acc.toSexpr
        (sargsList args) = some ((loopForm op acc args).toSexpr, c) := by
  induction h with
  | nil => exact ⟨0, fun _ _ _ _ _ => rfl⟩
  | @cons e rest he _ ih =>
    obtain ⟨depth, hdepth⟩ := he
    obtain ⟨depth', hdepth'⟩ := ih
    refine ⟨max depth depth', fun n hn c inbody acc => ?_⟩
    rw [sargsList, binaryArityLoop, hdepth n (by omega)]
    simp only [Option.bind_eq_bind, Option.bind_some]
    exact hdepth' n (by omega) c inbody (binary (ArithOp.name op) acc (desugar e))

theorem transforms_operands (htables : Regular tables) {op : ArithOp}
    {a b e : Surface} {rest : SArgs} (hplain : Plain tables (.arith op a b (.cons e rest)))
    (ha : Transforms tables a.toSexpr (desugar a).toSexpr)
    (hb : Transforms tables b.toSexpr (desugar b).toSexpr)
    (hargs : TransformsOperands tables (.cons e rest)) :
    Transforms tables (Surface.arith op a b (.cons e rest)).toSexpr
      (desugar (.arith op a b (.cons e rest))).toSexpr := by
  have h := htables op.text (ArithOp.mem_languageSymbols op)
  have hhead := (mathbinaryaritylist_spec op.text op.mem).1
  have hstart : Core tables (binary (ArithOp.name op) (desugar a) (desugar b)) :=
    core_binary (headName_arith htables op _ _) (core_desugar htables a hplain.1)
      (core_desugar htables b hplain.2.1)
  have hcore := core_loopForm htables op _ hstart _ hplain.2.2
  have hagain := transforms_rewrap htables _ hcore
  rw [rewrap_loopForm] at hagain
  obtain ⟨depth, ha⟩ := ha
  obtain ⟨depth', hb⟩ := hb
  obtain ⟨depth'', hloop⟩ := binaryArityLoop_eq op hargs
  obtain ⟨depth₃, hagain⟩ := hagain
  refine ⟨max (max depth depth') (max depth'' depth₃) + 1, fun n hn c inbody => ?_⟩
  cases n with
  | zero => omega
  | succ n =>
    have hloop := hloop n (by omega) c inbody (binary (ArithOp.name op) (desugar a) (desugar b))
    rw [firstTransform, Surface.toSexpr, transformWith_sym h, transformHead.eq_def, hhead]
    simp only [elements, elements_sargs, SArgs.toSexpr, Option.map_some, Option.bind_eq_bind,
      Option.bind_some, List.length_cons, binaryArity, ha n (by omega),
      hb n (by omega)]
    rw [if_neg (by omega)]
    rw [sargsList] at hloop
    exact Option.bind_eq_some_iff.mpr ⟨_, hloop, hagain n (by omega) c inbody⟩

/-! ### The pass on expressions -/

section Forms

theorem Transforms.ifForm (htables : Regular tables) {args args' : Sexpr}
    (h : Transforms tables args args') :
    Transforms tables (.cons (.sym "if") args) (.cons (.sym "if") args') :=
  Transforms.language htables (by decide) (by decide) (by decide) h

theorem Transforms.beginForm (htables : Regular tables) {body body' : Sexpr}
    (h : Transforms tables body body') :
    Transforms tables (beginForm body) (beginForm body') :=
  Transforms.language htables (by decide) (by decide) (by decide) h

theorem Transforms.ofAnd (htables : Regular tables) {operands out : Sexpr}
    (h : Transforms tables (expandAnd operands) out) :
    Transforms tables (.cons (.sym "and") operands) out := by
  apply Transforms.expand _ h
  intro recur c inbody
  rw [transformWith_sym (htables "and" (by decide))]
  rfl

theorem Transforms.ofOr (htables : Regular tables) {operands out : Sexpr}
    (h : Transforms tables (expandOr operands) out) :
    Transforms tables (.cons (.sym "or") operands) out := by
  apply Transforms.expand _ h
  intro recur c inbody
  rw [transformWith_sym (htables "or" (by decide))]
  rfl

theorem Transforms.ofCond (htables : Regular tables) {clauses form out : Sexpr}
    (hform : expandCond clauses = some form)
    (h : Transforms tables form out) : Transforms tables (.cons (.sym "cond") clauses) out := by
  apply Transforms.expand _ h
  intro recur c inbody
  rw [transformWith_sym (htables "cond" (by decide)), transformHead.eq_def,
    show headOf "cond" = .cond from rfl]
  simp only [hform, Option.bind_eq_bind, Option.bind_some]

theorem Transforms.ofOrEqual (htables : Regular tables) {op : OrEqual} {a b out : Sexpr}
    (h : Transforms tables (symList "or" [symList op.strict.text [a, b], symList "=" [a, b]]) out) :
    Transforms tables (symList op.text [a, b]) out := by
  apply Transforms.expand _ h
  intro recur c inbody
  rw [symList, Sexpr.list, transformWith_sym (htables op.text (by cases op <;> decide))]
  cases op <;> rfl

theorem Transforms.compare (htables : Regular tables) (op : Compare) {args args' : Sexpr}
    (h : Transforms tables args args') :
    Transforms tables (.cons (.sym op.text) args) (.cons (.sym op.text) args') := by
  apply Transforms.language htables _ _ _ h <;> cases op <;> decide

mutual

theorem transforms_desugar (htables : Regular tables) :
    ∀ e, Plain tables e → Transforms tables e.toSexpr (desugar e).toSexpr
  | .var _, h => Transforms.sym h.unknown h.atomOf
  | .int _, _ => Transforms.const fun _ _ _ => rfl
  | .str _, _ => Transforms.const fun _ _ _ => rfl
  | .bool b, _ => Transforms.bool b
  | .call f args, h =>
    Transforms.call h.1.unknown h.1.headOf h.1.atomOf (transforms_desugarArgs htables args h.2)
  | .arith op a b .nil, h => by
    apply Transforms.binary htables
    apply Transforms.pair (opens_of_plain h.1) (transforms_desugar htables a h.1)
    exact Transforms.pair (opens_of_plain h.2.1) (transforms_desugar htables b h.2.1) Transforms.nil
  | .arith op a b (.cons e rest), h =>
    transforms_operands htables h (transforms_desugar htables a h.1)
      (transforms_desugar htables b h.2.1)
      (.cons (transforms_desugar htables e h.2.2.1) (transformsOperands htables rest h.2.2.2))
  | .compare op a b, h => by
    apply Transforms.compare htables op
    apply Transforms.pair (opens_of_plain h.1) (transforms_desugar htables a h.1)
    exact Transforms.pair (opens_of_plain h.2) (transforms_desugar htables b h.2) Transforms.nil
  | .orEqual op a b, h => by
    have hargs : Transforms tables (.list [a.toSexpr, b.toSexpr])
        (.list [(desugar a).toSexpr, (desugar b).toSexpr]) := by
      apply Transforms.pair (opens_of_plain h.1) (transforms_desugar htables a h.1)
      exact Transforms.pair (opens_of_plain h.2) (transforms_desugar htables b h.2) Transforms.nil
    have hstrict := Transforms.compare htables op.strict hargs
    have hequal := Transforms.compare htables .eq hargs
    apply Transforms.ofOrEqual htables
    apply Transforms.ofOr htables
    apply Transforms.ifForm htables
    apply Transforms.pair (opens_cons _ _) hstrict
    apply Transforms.pair (opens_cons _ _) hstrict
    apply Transforms.pair (opens_cons _ _) _ Transforms.nil
    apply Transforms.ifForm htables
    apply Transforms.pair (opens_cons _ _) hequal
    apply Transforms.pair (opens_cons _ _) hequal
    exact Transforms.pair (fun _ _ _ _ => rfl) (Transforms.bool false) Transforms.nil
  | .if2 test thn, h => by
    apply Transforms.ifForm htables
    apply Transforms.pair (opens_of_plain h.1) (transforms_desugar htables test h.1)
    exact Transforms.pair (opens_of_plain h.2) (transforms_desugar htables thn h.2) Transforms.nil
  | .if3 test thn els, h => by
    apply Transforms.ifForm htables
    apply Transforms.pair (opens_of_plain h.1) (transforms_desugar htables test h.1)
    apply Transforms.pair (opens_of_plain h.2.1) (transforms_desugar htables thn h.2.1)
    exact Transforms.pair (opens_of_plain h.2.2) (transforms_desugar htables els h.2.2)
      Transforms.nil
  | .lets kind bindings body, h =>
    Transforms.lets htables (transforms_desugarBindings htables bindings h.1)
      (transforms_desugarBody htables body h.2)
  | .seq body, h => Transforms.beginForm htables (transforms_desugarBody htables body h)
  | .and operands, h => Transforms.ofAnd htables (transforms_desugarAnd htables operands h)
  | .or operands, h => Transforms.ofOr htables (transforms_desugarOr htables operands h)
  | .not e, h => by
    have hexpansion : Transforms tables (expandNot e.toSexpr) (desugar (.not e)).toSexpr := by
      apply Transforms.ifForm htables
      apply Transforms.pair (opens_of_plain (e := e) h) (transforms_desugar htables e h)
      apply Transforms.pair (fun _ _ _ _ => rfl) (Transforms.bool false)
      exact Transforms.pair (fun _ _ _ _ => rfl) (Transforms.bool true) Transforms.nil
    apply Transforms.expand _ hexpansion
    intro recur c inbody
    rw [Surface.toSexpr, symList, Sexpr.list, transformWith_sym (htables "not" (by decide))]
    rfl
  | .cond clauses, h =>
    Transforms.ofCond htables (expandCond_toSexpr clauses h)
      (transforms_desugarClauses htables clauses h)

theorem transforms_desugarArgs (htables : Regular tables) :
    ∀ args, PlainArgs tables args → Transforms tables args.toSexpr (desugarArgs args).toSexpr
  | .nil, _ => Transforms.nil
  | .cons e rest, h =>
    Transforms.pair (opens_of_plain h.1) (transforms_desugar htables e h.1)
      (transforms_desugarArgs htables rest h.2)

theorem transformsOperands (htables : Regular tables) :
    ∀ args, PlainArgs tables args → TransformsOperands tables args
  | .nil, _ => .nil
  | .cons e rest, h =>
    .cons (transforms_desugar htables e h.1) (transformsOperands htables rest h.2)

theorem transforms_desugarBody (htables : Regular tables) :
    ∀ body, PlainBody tables body → Transforms tables body.toSexpr (desugarBody body).toSexpr
  | .last e, h => Transforms.pair (opens_of_plain h) (transforms_desugar htables e h) Transforms.nil
  | .cons e rest, h =>
    Transforms.pair (opens_of_plain h.1) (transforms_desugar htables e h.1)
      (transforms_desugarBody htables rest h.2)

theorem transforms_desugarAnd (htables : Regular tables) :
    ∀ operands, PlainBody tables operands →
      Transforms tables (expandAnd operands.toSexpr) (desugarAnd operands).toSexpr
  | .last e, h => by
    rw [SBody.toSexpr, expandAnd_last]
    apply Transforms.ifForm htables
    apply Transforms.pair (opens_of_plain h) (transforms_desugar htables e h)
    apply Transforms.pair (opens_of_plain h) (transforms_desugar htables e h)
    exact Transforms.pair (fun _ _ _ _ => rfl) (Transforms.bool false) Transforms.nil
  | .cons e rest, h => by
    rw [SBody.toSexpr, expandAnd_cons]
    apply Transforms.ifForm htables
    apply Transforms.pair (opens_of_plain h.1) (transforms_desugar htables e h.1)
    apply Transforms.pair _ (transforms_desugarAnd htables rest h.2)
    · exact Transforms.pair (fun _ _ _ _ => rfl) (Transforms.bool false) Transforms.nil
    · cases rest <;> exact opens_cons _ _

theorem transforms_desugarOr (htables : Regular tables) :
    ∀ operands, PlainBody tables operands →
      Transforms tables (expandOr operands.toSexpr) (desugarOr operands).toSexpr
  | .last e, h => by
    rw [SBody.toSexpr, expandOr_last]
    apply Transforms.ifForm htables
    apply Transforms.pair (opens_of_plain h) (transforms_desugar htables e h)
    apply Transforms.pair (opens_of_plain h) (transforms_desugar htables e h)
    exact Transforms.pair (fun _ _ _ _ => rfl) (Transforms.bool false) Transforms.nil
  | .cons e rest, h => by
    rw [SBody.toSexpr, expandOr_cons]
    apply Transforms.ifForm htables
    apply Transforms.pair (opens_of_plain h.1) (transforms_desugar htables e h.1)
    apply Transforms.pair (opens_of_plain h.1) (transforms_desugar htables e h.1)
    apply Transforms.pair _ (transforms_desugarOr htables rest h.2) Transforms.nil
    cases rest <;> exact opens_cons _ _

theorem transforms_desugarBindings (htables : Regular tables) :
    ∀ bindings, PlainBindings tables bindings →
      TransformsBindings tables bindings.toSexpr (desugarBindings bindings).toSexpr
  | .nil, _ => TransformsBindings.nil
  | .cons _ init rest, h =>
    TransformsBindings.cons (Transforms.sym h.1.unknown h.1.atomOf)
      (transforms_desugar htables init h.2.1) (transforms_desugarBindings htables rest h.2.2)

theorem transforms_desugarClauses (htables : Regular tables) :
    ∀ clauses, PlainClauses tables clauses →
      Transforms tables (clausesForm clauses) (desugarClauses clauses).toSexpr
  | .last test body, h => by
    apply Transforms.ifForm htables
    apply Transforms.pair (opens_of_plain h.1) (transforms_desugar htables test h.1)
    apply Transforms.pair (opens_cons _ _) _ Transforms.nil
    exact Transforms.beginForm htables (transforms_desugarBody htables body h.2)
  | .lastElse test body els, h => by
    apply Transforms.ifForm htables
    apply Transforms.pair (opens_of_plain h.1) (transforms_desugar htables test h.1)
    apply Transforms.pair (opens_cons _ _)
      (Transforms.beginForm htables (transforms_desugarBody htables body h.2.1))
    apply Transforms.pair (opens_cons _ _) _ Transforms.nil
    exact Transforms.beginForm htables (transforms_desugarBody htables els h.2.2)
  | .cons test body rest, h => by
    apply Transforms.ifForm htables
    apply Transforms.pair (opens_of_plain h.1) (transforms_desugar htables test h.1)
    apply Transforms.pair (opens_cons _ _)
      (Transforms.beginForm htables (transforms_desugarBody htables body h.2.1))
    apply Transforms.pair _ (transforms_desugarClauses htables rest h.2.2) Transforms.nil
    cases rest <;> exact opens_cons _ _

end

end Forms

end Refinement

end Extempore.Desugaring
