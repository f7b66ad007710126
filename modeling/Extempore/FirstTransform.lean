import Extempore.SurfaceForms

/-!
# The first transformation of a program

`impc:ti:first-transform` rewrites surface forms until none is left. It is given the form and
whether a `lambda` may stand there only under a name (`inbody?`). What it asks of the caches of
the compiler are tables.
-/

namespace Extempore.FirstTransform

open XtlangForms SurfaceForms

/-- What the compiler knows of functions, types and macros. -/
structure Tables where
  isPoly : String → Bool
  isGeneric : String → Bool
  /-- The function that a name with the type of a closure stands for. -/
  typedHead : String → Option String
  /-- What a number with a type, a complex number or a generic function with a type stands for. -/
  typedAtom : String → Option Sexpr
  isNumber : String → Bool
  /-- `impc:ir:get-type-str` of a pretty type -/
  typeStr : Sexpr → String
  /-- The symbol of the type that `cast` and `convert` name. -/
  castType : String → String
  /-- The expansion of a macro, from its name and arguments. -/
  xtmacro : String → Sexpr → Option Sexpr

/-- The numbers of lambdas, of zones and of calls of polymorphic functions so far. -/
structure Counters where
  anonlambda : ℕ
  memzone : ℕ
  polynum : ℕ

/-- The forms that have a branch of their own, by the symbol that they start with. -/
inductive Head
  | letz
  | memzone
  | beginz
  | zoneCleanup
  | orEqual (compare : String)
  | and
  | quote
  | list
  | format
  | sprintln
  | sprintout
  | println
  | printout
  | fill (setter : String)
  | or
  | free
  | ref (pointer value make : String)
  | make (car : String)
  | not
  | callback
  | arith
  | bitwiseNot
  | lambda
  | cond
  | cset
  | cref
  | refcheck
  | cast (car : String)
  | doloop
  | dotimes
  | while
  | lets
  | plain
deriving DecidableEq

/-- `*impc:mathbinaryaritylist*` -/
def mathbinaryaritylist : List String :=
  ["*", "-", "/", "+", "%", "modulo", "bitwise-and", "bitwise-or", "bitwise-eor",
    "bitwise-shift-left", "bitwise-shift-right"]

def headOf (s : String) : Head :=
  match s with
  | "letz" => .letz
  | "memzone" => .memzone
  | "beginz" => .beginz
  | "zone_cleanup" => .zoneCleanup
  | ">=" => .orEqual ">"
  | "<=" => .orEqual "<"
  | "and" => .and
  | "quote" => .quote
  | "list" => .list
  | "strln" | "strj" => .format
  | "sprintln" => .sprintln
  | "sprintout" => .sprintout
  | "println" => .println
  | "printout" => .printout
  | "afill!" => .fill "aset!"
  | "pfill!" => .fill "pset!"
  | "tfill!" => .fill "tset!"
  | "vfill!" => .fill "vset!"
  | "or" => .or
  | "free" => .free
  | "vector_ref" => .ref "v1" "v2" "vector"
  | "array_ref" => .ref "a1" "a2" "array"
  | "tuple_ref" => .ref "t1" "t2" "tuple"
  | "vector" => .make "make-vector"
  | "array" => .make "make-array"
  | "tuple" => .make "make-tuple"
  | "not" => .not
  | "callback" | "schedule" => .callback
  | "bitwise-not" | "~" => .bitwiseNot
  | "cond" => .cond
  | "cset!" => .cset
  | "cref" => .cref
  | "refcheck" => .refcheck
  | "cast" => .cast "bitcast"
  | "convert" => .cast "bitconvert"
  | "doloop" => .doloop
  | "dotimes" => .dotimes
  | "while" => .while
  | s =>
    if s ∈ mathbinaryaritylist then .arith
    else if s ∈ lambdaslist then .lambda
    else if s ∈ letslist then .lets
    else .plain

/-- What an atom that is a symbol becomes. -/
def atomOf (s : String) : Sexpr :=
  match s with
  | "&" => .sym "bitwise-and"
  | "bor" => .sym "bitwise-or"
  | "^" => .sym "bitwise-eor"
  | "<<" => .sym "bitwise-shift-left"
  | ">>" => .sym "bitwise-shift-right"
  | "~" => .sym "bitwise-not"
  | "else" => symList "impc_true" []
  | "null" => symList "impc_null" []
  | "now" => .sym "llvm_now"
  | "pset!" => .sym "pointer-set!"
  | "pref" => .sym "pointer-ref"
  | "pref-ptr" => .sym "pointer-ref-ptr"
  | "vset!" => .sym "vector-set!"
  | "vref" => .sym "vector-ref"
  | "vshuffle" => .sym "vector-shuffle"
  | "aset!" => .sym "array-set!"
  | "aref" => .sym "array-ref"
  | "aref-ptr" => .sym "array-ref-ptr"
  | "tset!" => .sym "tuple-set!"
  | "tref" => .sym "tuple-ref"
  | "tref-ptr" => .sym "tuple-ref-ptr"
  | "salloc" => .sym "stack-alloc"
  | "halloc" => .sym "heap-alloc"
  | "zalloc" => .sym "zone-alloc"
  | "alloc" => .sym "zone-alloc"
  | "randomf" => .sym "imp_randf"
  | "void" => symList "void" []
  | s => .sym s

/-! ## Names with dots and types -/

/-- `regex:split`; nothing is left behind a separator at the end. -/
def regexSplit (sep : Char) : List Char → List Char → List String
  | piece, [] => if piece = [] then [] else [String.ofList piece.reverse]
  | piece, c :: cs =>
    if c = sep then String.ofList piece.reverse :: regexSplit sep [] cs
    else regexSplit sep (c :: piece) cs

/-- `regex:type-split`, which splits at the first colon. -/
def typeSplit (s : String) : List String :=
  match regexSplit ':' [] s.toList with
  | a :: b :: c :: rest => [a, b ++ String.join ((c :: rest).map (":" ++ ·))]
  | p => p

def baseName (s : String) : String := (typeSplit s).headD ""

/-- Whether `\.[0-9]*i` matches at the end. -/
def endsImaginary (s : String) : Bool :=
  match s.toList.reverse with
  | 'i' :: cs => (cs.dropWhile fun c => c.isDigit).head? = some '.'
  | _ => false

def isDotted (tables : Tables) (s : String) : Bool :=
  s.toList.contains '.' && !endsImaginary s && !tables.isNumber (baseName s)

/-- The reference or the assignment that a form with a dotted name stands for. -/
def expandDotted (s : String) (args : List Sexpr) : Option Sexpr :=
  match regexSplit '.' [] s.toList with
  | a :: b :: rest =>
    if (s.toList.dropWhile (· ≠ '.')).contains ':' then
      match typeSplit ((b :: rest).getLastD b), rest, args with
      | [last, type], [], [] => some (symList "cref" [.sym a, .sym last, .sym type])
      | [last, type], [], e :: _ => some (symList "cset!" [.sym a, .sym last, e, .sym type])
      | [last, type], _ :: _, [] => some (expandMulticref a (b :: rest).dropLast last type)
      | [last, type], _ :: _, [e] => some (expandMulticset a (b :: rest).dropLast last type e)
      | _, _, _ => none
    else
      match args with
      | [] => some (symList "cref" [.sym a, .sym b])
      | e :: _ => some (symList "cset!" [.sym a, .sym b, e])
  | _ => none

/-! ## The pass -/

/-- The pass on a form: the counters before it, and `inbody?`. -/
abbrev Pass := Counters → Bool → Sexpr → Option (Sexpr × Counters)

section Branches

variable (tables : Tables) (recur : Pass)

def transformEach (inbody : Bool) : Counters → List Sexpr → Option (List Sexpr × Counters)
  | c, [] => some ([], c)
  | c, e :: es => do
    let (e, c) ← recur c inbody e
    let (es, c) ← transformEach inbody c es
    some (e :: es, c)

/-- A list without a branch of its own. -/
def transformPair (c : Counters) (car cdr : Sexpr) : Option (Sexpr × Counters) := do
  let (car, c) ← recur c true car
  let (cdr, c) ← recur c true cdr
  some (.cons car cdr, c)

/-- A list that starts with a symbol without a branch of its own. -/
def transformPlain (c : Counters) (inbody : Bool) (s : String) (cdr : Sexpr) :
    Option (Sexpr × Counters) :=
  if isDotted tables s then do recur c inbody (← expandDotted s (← elements cdr))
  else
    match tables.xtmacro s cdr with
    | some e => recur c true e
    | none => transformPair recur c (.sym s) cdr

/-- A head that is replaced, before arguments that are transformed. -/
def transformCall (c : Counters) (inbody : Bool) (head : String) (cdr : Sexpr) :
    Option (Sexpr × Counters) := do
  let (cdr, c) ← recur c inbody cdr
  some (.cons (.sym head) cdr, c)

/-- The rest of the loop of `impc:ti:binary-arity`. -/
def binaryArityLoop (op : Sexpr) (inbody : Bool) :
    Counters → Sexpr → List Sexpr → Option (Sexpr × Counters)
  | c, lst, [] => some (lst, c)
  | c, lst, e :: rest => do
    let (e, c) ← recur c inbody e
    binaryArityLoop op inbody c (.list [op, lst, e]) rest

/-- `impc:ti:binary-arity` -/
def binaryArity (c : Counters) (inbody : Bool) (op : Sexpr) : List Sexpr → Option (Sexpr × Counters)
  | a :: b :: rest => do
    let (a, c) ← recur c inbody a
    let (b, c) ← recur c inbody b
    binaryArityLoop recur op inbody c (.list [op, a, b]) rest
  | _ => none

/-- `impc:ti:lambda` -/
def nameLambda (c : Counters) (car params body : Sexpr) : Option (Sexpr × Counters) := do
  let c := { c with anonlambda := c.anonlambda + 1 }
  let fname := "_anon_lambda_" ++ toString c.anonlambda
  let (params, c) ← recur c true params
  let (body, c) ← recur c true body
  some (letForm [(fname, .list [car, params, beginForm body])] [symList "begin" [.sym fname]], c)

/-- `impc:ti:callback`, on transformed arguments -/
def expandCallback (c : Counters) : List Sexpr → Option (Sexpr × Counters)
  | time :: f :: args => do
    let (copies, c) ← transformEach recur true c
      (args.map fun x => symList "zcopy" [x, .sym "zold", .sym "znew"])
    some (letForm [("zold", symList "llvm_peek_zone_stack" []),
        ("znew", symList "create_zone" [symList "*" [.int 1024, .int 4]])]
      [symList "llvm_callback" (time :: f :: .sym "znew" :: copies), .sym "void"], c)
  | _ => none

/-- `impc:ti:doloop` -/
def transformDoloop (c : Counters) (inbody : Bool) : Sexpr → Option (Sexpr × Counters)
  | .cons (.cons (.sym x) (.cons count rest)) body => do
    let (count, c) ← recur c inbody count
    let (range, c) ←
      match rest with
      | .nil => some ([count], c)
      | .cons stop _ => do
        let (stop, c) ← recur c inbody stop
        some ([count, stop], c)
      | _ => none
    let (body, c) ← recur c inbody body
    some (letForm [(x, symList "bitconvert" [.int 0])]
      [symList "begin" [symList "dotimes" [.list (.sym (baseName x) :: range), beginForm body]]], c)
  | _ => none

/-- `impc:ti:dotimes` and `impc:ti:while` -/
def transformLoop (c : Counters) (inbody : Bool) (head : String) : Sexpr → Option (Sexpr × Counters)
  | .cons test body => do
    let (test, c) ← recur c inbody test
    let (body, c) ← recur c inbody body
    some (symList head [test, beginForm body], c)
  | _ => none

/-- The bindings of a `let`. -/
def transformBindings : Counters → Sexpr → Option (Sexpr × Counters)
  | c, .nil => some (.nil, c)
  | c, .cons (.cons x (.cons init _)) rest => do
    let (x, c) ← recur c false x
    let (init, c) ← recur c false init
    let (rest, c) ← transformBindings c rest
    some (.cons (.list [x, init]) rest, c)
  | _, _ => none

/-- The expansion of a form, which is transformed in its place. -/
def transformZone (c : Counters) (inbody : Bool) (expansion : Option (Sexpr × ℕ)) :
    Option (Sexpr × Counters) := do
  let (e, n) ← expansion
  recur { c with memzone := n } inbody e

def transformHead (c : Counters) (inbody : Bool) (s : String) (cdr : Sexpr) :
    Option (Sexpr × Counters) :=
  match headOf s with
  | .letz => transformZone recur c inbody (expandLetz c.memzone cdr)
  | .memzone => transformZone recur c inbody (expandMemzone c.memzone cdr)
  | .beginz => transformZone recur c inbody (expandBeginz c.memzone cdr)
  | .zoneCleanup => do recur c inbody (expandZoneCleanup (← elements cdr))
  | .orEqual compare => do recur c inbody (← expandOrEqual compare cdr)
  | .and => recur c inbody (expandAnd cdr)
  | .or => recur c inbody (expandOr cdr)
  | .quote =>
    match cdr with
    | .cons e _ => do recur c inbody (← expandQuote e)
    | _ => none
  | .list => do recur c inbody (← expandList cdr)
  | .format => do recur c inbody (← expandFormat cdr)
  | .sprintln => do recur c inbody (← expandSprintln (← elements cdr))
  | .sprintout => do recur c inbody (← expandSprintout (← elements cdr))
  | .println => do recur c inbody (expandPrintln (← elements cdr))
  | .printout => do recur c inbody (expandPrintout (← elements cdr))
  | .fill setter => do recur c inbody (← expandFill setter (← elements cdr))
  | .free =>
    match cdr with
    | .cons e _ => do
      let (e, c) ← recur c inbody e
      some (symList "free" [symList "bitcast" [e, .sym "i8*"]], c)
    | _ => none
  | .ref pointer value make => recur c inbody (expandRef pointer value make cdr)
  | .make car => do
    let (es, c) ← transformEach recur inbody c (← elements cdr)
    some (symList car es, c)
  | .not =>
    match cdr with
    | .cons e _ => recur c inbody (expandNot e)
    | _ => none
  | .callback => do
    let (args, c) ← recur c inbody cdr
    let (e, c) ← expandCallback recur c (← elements args)
    recur c inbody e
  | .arith => do
    let es ← elements cdr
    if es.length = 2 then transformPlain tables recur c inbody s cdr
    else
      let (e, c) ← binaryArity recur c inbody (.sym s) es
      recur c inbody e
  | .bitwiseNot =>
    match cdr with
    | .cons e _ => some (symList "bitwise-eor" [e, .int (-1)], c)
    | _ => none
  | .lambda =>
    match cdr with
    | .cons params body =>
      if inbody then nameLambda recur c (.sym s) params body
      else do
        let (car, c) ← recur c inbody (.sym s)
        let (params, c) ← recur c true params
        let (body, c) ← recur c true body
        some (.list [car, params, beginForm body], c)
    | _ => none
  | .cond => do recur c inbody (← expandCond cdr)
  | .cset =>
    match cdr with
    | .cons f (.cons (.sym x) (.cons e type)) => do
      let (f, c) ← recur c inbody f
      let (e, c) ← recur c inbody e
      match type with
      | .nil => some (symList "closure-set!" [f, .str x, e, .nil], c)
      | .cons type _ => some (symList "closure-set!" [f, .str x, e, .str (tables.typeStr type)], c)
      | _ => none
    | _ => none
  | .cref =>
    match cdr with
    | .cons f (.cons (.sym x) type) => do
      let (f, c) ← recur c inbody f
      match type with
      | .nil => some (symList "closure-ref" [f, .str x, .nil], c)
      | .cons type _ => some (symList "closure-ref" [f, .str x, .str (tables.typeStr type)], c)
      | _ => none
    | _ => none
  | .refcheck =>
    match cdr with
    | .cons f (.cons (.sym x) _) => do
      let (f, c) ← recur c inbody f
      some (symList "closure-refcheck" [f, .str x], c)
    | _ => none
  | .cast car =>
    match cdr with
    | .cons e .nil => recur c inbody (symList car [e])
    | .cons e (.cons (.sym type) _) =>
      recur c inbody (symList car [e, .sym (tables.castType type)])
    | _ => none
  | .doloop => transformDoloop recur c inbody cdr
  | .dotimes => transformLoop recur c inbody "dotimes" cdr
  | .while => transformLoop recur c inbody "while" cdr
  | .lets =>
    match cdr with
    | .cons bindings body => do
      let (car, c) ← recur c inbody (.sym s)
      let (bindings, c) ← transformBindings recur c bindings
      let (body, c) ← recur c true body
      some (.list [car, bindings, beginForm body], c)
    | _ => none
  | .plain => transformPlain tables recur c inbody s cdr

/-- One step of the pass, with the pass itself for what it is called on. A text at the head of a
list is no name, and an error where it is that of a generic function. -/
def transformWith (c : Counters) (inbody : Bool) : Sexpr → Option (Sexpr × Counters)
  | .nil => some (.nil, c)
  | .cons (.sym s) cdr =>
    if tables.isPoly s || tables.isGeneric s then
      let c := { c with polynum := c.polynum + 1 }
      transformCall recur c inbody (s ++ "##" ++ toString c.polynum) cdr
    else
      match tables.typedHead s with
      | some head => transformCall recur c inbody head cdr
      | none => transformHead tables recur c inbody s cdr
  | .cons (.str text) cdr =>
    if tables.isGeneric text then none else transformPair recur c (.str text) cdr
  | .cons car cdr => transformPair recur c car cdr
  | .sym s =>
    if atomOf s = .sym s then some ((tables.typedAtom s).getD (.sym s), c)
    else some (atomOf s, c)
  | .bool b => some (symList (if b then "impc_true" else "impc_false") [], c)
  | atom => some (atom, c)

end Branches

/-- `impc:ti:first-transform`, to a depth of calls. -/
def firstTransform (tables : Tables) : ℕ → Pass
  | 0 => fun _ _ _ => none
  | depth + 1 => transformWith tables (firstTransform tables depth)

end Extempore.FirstTransform
