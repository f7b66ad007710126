import Extempore.XtlangForms
import Mathlib.Data.Nat.Notation

/-!
# Expansions of surface forms

The helpers of `impc:ti:first-transform`: each writes a surface form of xtlang with simpler ones,
around the expressions of the user as they stand. `none` is an error of the compiler.
-/

namespace Extempore.SurfaceForms

open XtlangForms

def symList (car : String) (args : List Sexpr) : Sexpr := .list (.sym car :: args)

/-- `(begin e ...)`, from the list of the forms -/
def beginForm (forms : Sexpr) : Sexpr := .cons (.sym "begin") forms

/-- `(let ((x init) ...) body ...)` -/
def letForm (bindings : List (String × Sexpr)) (body : List Sexpr) : Sexpr :=
  .cons (.sym "let") (.cons (.list (bindings.map fun p => .list [.sym p.1, p.2])) (.list body))

/-- The elements of a proper list. -/
def elements : Sexpr → Option (List Sexpr)
  | .nil => some []
  | .cons car cdr => (elements cdr).map (car :: ·)
  | _ => none

/-! ## Conditions -/

/-- `impc:ti:and`; without operands it is the value of an `if` without a branch. -/
def expandAnd : Sexpr → Sexpr
  | .cons e rest =>
    symList "if" [e, if rest = .nil then e else expandAnd rest, .bool false]
  | _ => .nil

/-- `impc:ti:or` -/
def expandOr : Sexpr → Sexpr
  | .cons e rest =>
    symList "if" [e, e, if rest = .nil then .bool false else expandOr rest]
  | _ => .nil

/-- `impc:ti:not` -/
def expandNot (e : Sexpr) : Sexpr := symList "if" [e, .bool false, .bool true]

/-- `impc:ti:cond`; what is `()` is removed, as the last branch where there is none. -/
def expandCond : Sexpr → Option Sexpr
  | .nil => some .nil
  | .cons (.cons test body) rest =>
    if body = .nil then none
    else do
      let els ←
        match rest with
        | .nil => some .nil
        | .cons (.cons car cdr) _ =>
          if car = .sym "else" then some (beginForm cdr) else expandCond rest
        | _ => none
      some (.list ([.sym "if", test, beginForm body, els].filter fun s => s ≠ .nil))
  | _ => none

/-- `impc:ti:gteq` and `impc:ti:lteq`, on the arguments and with the strict comparison -/
def expandOrEqual (compare : String) : Sexpr → Option Sexpr
  | .cons a (.cons b _) => some (symList "or" [symList compare [a, b], symList "=" [a, b]])
  | _ => none

/-! ## Lists and texts -/

/-- `impc:ti:list` -/
def expandList : Sexpr → Option Sexpr
  | .nil => some (.sym "null")
  | .cons e rest => do
    let rest ← expandList rest
    some (symList "cons" [e, rest])
  | _ => none

/-- `impc:ti:format` -/
def expandFormat : Sexpr → Option Sexpr
  | .nil => some (.sym "null")
  | .cons e rest => do
    let rest ← expandFormat rest
    let car :=
      match e with
      | .str text => symList "Str" [.str text]
      | e => symList "format" [e]
    some (symList "cat" [car, rest])
  | _ => none

/-- `impc:ti:quote` -/
def expandQuote : Sexpr → Option Sexpr
  | .nil => some (symList "impc_null" [])
  | .sym s =>
    if s.toList.getLast? = some '\'' then some (symList "String" [.str (String.ofList s.toList.dropLast)])
    else some (symList "Symbol" [.str s])
  | .cons car cdr => do
    let es ← elements (.cons car cdr)
    some (symList "list" (es.map fun e =>
      if e = .sym "NIL" ∨ e = .nil then symList "list" [] else e))
  | atom => some atom

def printArg (e : Sexpr) : Sexpr :=
  match e with
  | .str text => symList "printf" [.str "%s", .str text]
  | e => symList "print" [e]

/-- `impc:ti:println` -/
def expandPrintln : List Sexpr → Sexpr
  | [] => symList "print_return" []
  | e :: es =>
    symList "begin" (printArg e ::
      (es.flatMap fun e => [symList "print_space" [], printArg e]) ++ [symList "print_return" []])

/-- `impc:ti:println2` -/
def expandPrintout : List Sexpr → Sexpr
  | [] => symList "print_return" []
  | e :: es => symList "begin" (printArg e :: es.map printArg ++ [.sym "void"])

/-- A text on the stack, made a string. -/
def stringLet (x typed format : String) (text : String) : Sexpr :=
  letForm [(typed, symList "salloc" [.int 1024])]
    [symList "sprintf" [.sym x, .str format, .str text], symList "String" [.sym x]]

/-- `impc:ti:sprintln` -/
def expandSprintln : List Sexpr → Option Sexpr
  | [] => none
  | e :: es =>
    let first :=
      match e with
      | .str text => stringLet "x_t_mst" "x_t_mst:i8*" "%s" text
      | e => symList "toString" [e]
    some (symList "memzone" [.int 1024, symList "cat" (first :: es.flatMap fun e =>
      match e with
      | .str text => [stringLet "x_t_mst" "x_t_mst:i8*" " %s" text]
      | e => [symList "toString_space" [], symList "toString" [e]])])

/-- `impc:ti:sprintln2` -/
def expandSprintout : List Sexpr → Option Sexpr
  | [] => none
  | es =>
    some (symList "memzone" [.int 1024, symList "cat" (es.map fun e =>
      match e with
      | .str text => stringLet "xx_t_mst" "xx_t_mst:i8*" "%s" text
      | e => symList "toString" [e])])

/-- `impc:ti:afill!` and its siblings for pointers, tuples and vectors -/
def expandFill (setter : String) : List Sexpr → Option Sexpr
  | [] => none
  | target :: es =>
    some (symList "begin" (es.zipIdx.map fun p => symList setter [target, .int p.2, p.1]))

/-! ## Zones -/

/-- `impc:ti:check-memzone-void?` -/
def memzoneVoid : Sexpr → Bool
  | .sym s => s = "void"
  | .cons car cdr => if cdr = .nil then memzoneVoid car else memzoneVoid cdr
  | _ => false

def hookType : String := "<i64,i8*,i8*>*"

/-- The loop that calls the hooks of a zone. -/
def hookLoop (tail : List Sexpr) : Sexpr :=
  symList "while" ([symList "not" [symList "null?" [.sym "hook"]],
    symList "set!" [.sym "f", symList "cast" [symList "tref" [.sym "hook", .int 1],
      .sym "[void]*"]],
    symList "f" [],
    symList "set!" [.sym "hook", symList "cast" [symList "tref" [.sym "hook", .int 2],
      .sym hookType]]] ++ tail)

/-- `impc:ti:memzone` on the arguments; `n` is the number of zones before it. A delay may stand
between the size and the body. -/
def expandMemzone (n : ℕ) (args : Sexpr) : Option (Sexpr × ℕ) :=
  match elements args with
  | some (size :: rest) =>
    if memzoneVoid (.cons (.sym "memzone") args) then
      match rest with
      | [body] | _ :: body :: _ =>
        some (symList "begin" [symList "push_new_zone" [size], body,
          letForm [("zonename", symList "pop_zone" []),
              ("hook:" ++ hookType, symList "cast" [symList "tref" [.sym "zonename", .int 4]]),
              ("f:[void]*", .sym "null")]
            [hookLoop [], symList "llvm_zone_destroy" [.sym "zonename"]],
          .sym "void"], n)
      | _ => none
    else
      let suffix := toString (n % 100)
      let resname := "res" ++ suffix
      let zonename := "zone" ++ suffix
      let newzname := "newz" ++ suffix
      let rescopyname := "rescopy" ++ suffix
      let form (body destroy : Sexpr) : Sexpr :=
        symList "begin" [symList "push_new_zone" [size],
          letForm [(resname, body), (zonename, symList "pop_zone" []),
              (newzname, symList "llvm_peek_zone_stack" [])]
            [letForm [(rescopyname, symList "zcopy" [.sym resname, .sym zonename, .sym newzname]),
                ("hook:" ++ hookType, symList "cast" [symList "tref" [.sym zonename, .int 4]]),
                ("f:[void]*", .sym "null")]
              [destroy, .sym rescopyname]]]
      match rest with
      | [body] =>
        some (form body (symList "begin" [hookLoop [.int 1],
          symList "llvm_zone_destroy" [.sym zonename]]), n + 1)
      | [delay, body] =>
        some (form body (symList "llvm_destroy_zone_after_delay" [.sym zonename, delay]), n + 1)
      | _ => none
  | _ => none

/-- `impc:ti:beginz` -/
def expandBeginz (n : ℕ) (forms : Sexpr) : Option (Sexpr × ℕ) :=
  expandMemzone n (.list [.int (1024 * 4), beginForm forms])

/-- `impc:ti:letz`, with or without a size -/
def expandLetz (n : ℕ) : Sexpr → Option (Sexpr × ℕ)
  | .cons (.cons (.cons binding bindings') bindings) body =>
    expandMemzone n (.list [.int (1024 * 4),
      .cons (.sym "let") (.cons (.cons (.cons binding bindings') bindings) body)])
  | .cons size (.cons bindings body) =>
    expandMemzone n (.list [size, .cons (.sym "let") (.cons bindings body)])
  | _ => none

/-- `impc:ti:zone_cleanup` -/
def expandZoneCleanup (forms : List Sexpr) : Sexpr :=
  letForm [("zone", symList "llvm_peek_zone_stack" []),
      ("hooks:" ++ hookType, symList "cast" [symList "tref" [.sym "zone", .int 4]]),
      ("hook:" ++ hookType, symList "alloc" []),
      ("f", .cons (.sym "lambda") (.cons .nil (.list (forms ++ [.sym "void"]))))]
    [symList "tfill!" [.sym "hook", .int 0, symList "cast" [.sym "f", .sym "i8*"],
      symList "cast" [.sym "hooks", .sym "i8*"]],
    symList "tset!" [.sym "zone", .int 4, symList "cast" [.sym "hook", .sym "i8*"]],
    .sym "void"]

/-! ## References -/

/-- `vector_ref`, `array_ref` and `tuple_ref`: the value is stored behind a new pointer. -/
def expandRef (pointer value make : String) (es : Sexpr) : Sexpr :=
  letForm [(pointer, symList "alloc" []), (value, .cons (.sym make) es)]
    [symList "pset!" [.sym pointer, .int 0, .sym value], .sym pointer]

def multicrefName (n : ℕ) : String := "f" ++ toString n

/-- The bindings of the closures on the way from `a` along the names `path`. -/
def multicrefBindings (a : String) (path : List String) : List (String × Sexpr) :=
  path.zipIdx.map fun p =>
    (multicrefName p.2 ++ ":[void]*",
      .list [.sym ((if p.2 = 0 then a else multicrefName (p.2 - 1)) ++ "." ++ p.1)])

/-- `impc:ti:multicref` on the closure `a`, the names up to the last, the last name and its
type -/
def expandMulticref (a : String) (path : List String) (last type : String) : Sexpr :=
  letForm (multicrefBindings a path ++
      [("v:" ++ type, .list [.sym (multicrefName (path.length - 1) ++ "." ++ last)])])
    [.sym "v"]

/-- `impc:ti:multicset` -/
def expandMulticset (a : String) (path : List String) (last type : String) (e : Sexpr) : Sexpr :=
  letForm (multicrefBindings a path)
    [.list [.sym (multicrefName (path.length - 1) ++ "." ++ last ++ ":" ++ type), e]]

end Extempore.SurfaceForms
