import Extempore.SchemeData

/-!
# The register machine

One step of `Eval_Cycle` runs one opcode on the registers `args`, `envir`, `code` and
`value`. What is left to do afterwards stands on the dump stack. Tracing is off. The fields
of the cells that are only used for error messages are not modelled.
-/

namespace Extempore.RegisterMachine
open SchemeData

/-- The opcodes of the forms, as far as they are modelled. -/
inductive Op where
  | eval | e0args | e1args | apply | doMacro
  | lambda | quote
  | def0 | def1 | set0 | set1
  | begin | if0 | if1
  | let0 | let1 | let2
  | let0rec | let1rec | let2rec
  | cond0 | cond1 | and0 | and1 | or0 | or1
  | case0 | case1 | case2
  | let0ast | delay | c0stream | macro0
  deriving DecidableEq, Repr

/-- `dump_stack_frame` -/
structure Frame where
  op : Op
  args : Val
  envir : Env
  code : Val
  deriving DecidableEq, Repr

/-- The registers, the dump stack and the frames of the environments. -/
structure Machine where
  op : Op
  args : Val
  envir : Env
  code : Val
  value : Val
  dump : List Frame
  store : Store
  deriving DecidableEq, Repr

/-- After a step the machine goes on, has returned from its last frame, reports an error or
has thrown an exception; `elsewhere` stands for opcodes that are not modelled. -/
inductive Result where
  | running (m : Machine)
  | halted (value : Val) (store : Store)
  | error
  | threw
  | elsewhere
  deriving DecidableEq, Repr

/-- The keywords with the opcodes that `syntaxnum` gives. -/
def syntaxTable : List (String × Op) :=
  [("lambda", .lambda), ("quote", .quote), ("define", .def0), ("if", .if0), ("begin", .begin),
    ("set!", .set0), ("let", .let0), ("let*", .let0ast), ("letrec", .let0rec), ("cond", .cond0),
    ("delay", .delay), ("and", .and0), ("or", .or0), ("cons-stream", .c0stream),
    ("macro", .macro0), ("case", .case0)]

def syntaxnum (name : String) : Option Op := syntaxTable.lookup name

/-- `is_syntax`, with the opcode. -/
def syntaxOp : Val → Option Op
  | .symbol name => syntaxnum name
  | _ => none

def sSave (m : Machine) (op : Op) (args code : Val) : Machine :=
  { m with dump := ⟨op, args, m.envir, code⟩ :: m.dump }

/-- What `_s_return` makes of a value: the frame on top is resumed with its own registers. -/
def returnTo (dump : List Frame) (store : Store) (a : Val) : Result :=
  match dump with
  | [] => .halted a store
  | frame :: dump =>
    .running
      { op := frame.op, args := frame.args, envir := frame.envir, code := frame.code, value := a,
        dump, store }

def sReturn (m : Machine) (a : Val) : Result := returnTo m.dump m.store a

def sGoto (m : Machine) (op : Op) : Result := .running { m with op }

/-- Evaluate `code` next. -/
def evalNext (m : Machine) (code : Val) : Result := .running { m with op := .eval, code }

/-- The text of `atom2str` is empty. -/
def printsEmpty : Val → Bool
  | .string s => s.head?.getD 0 == 0
  | .symbol name => name == ""
  | .character c => c == 0
  | _ => false

/-- The opcodes that evaluate one expression after the other: the value of the last one is
put in front of `args`, and at the end `args` is turned around. -/
def accumulate (m : Machine) (op next : Op) (item : Val → Option Val) : Result :=
  let args := .pair m.value m.args
  if isPair m.code then
    match item (car m.code) with
    | some e => evalNext { sSave m op args (cdr m.code) with args := .nil } e
    | none => .error
  else
    let args := reverseInPlace .nil args
    .running { m with op := next, code := car args, args := cdr args }

/-- Bind the parameters of a closure: one slot for each name, and one with the rest of the
arguments for the symbol behind the last of them. `none` is an error. Parameters are symbols. -/
def bindParameters (st : Store) (env : Env) : Val → Val → Option Store
  | .pair x xs, y =>
    match y, x with
    | .pair v vs, .symbol name => bindParameters (newSlotInEnv st env name v) env xs vs
    | _, _ => none
  | .nil, _ => some st
  | .symbol name, y => some (newSlotInEnv st env name y)
  | _, _ => none

/-- `new_slot_in_env` for the variables of a list of bindings, as long as there are values. -/
def bindVariables (st : Store) (env : Env) (x : Val) : Val → Store
  | .pair v vs =>
    match car (car x) with
    | .symbol name => bindVariables (newSlotInEnv st env name v) env (cdr x) vs
    | _ => bindVariables st env (cdr x) vs
  | _ => st

/-- The variables of a list of bindings. -/
def letVariables : Val → Val
  | .pair b bs => .pair (car b) (letVariables bs)
  | _ => .nil

/-- `OP_APPLY` -/
def apply (m : Machine) : Result :=
  match m.code with
  | .closure _ code env =>
    let (st, envir) := newFrameInEnv m.store env
    match bindParameters st envir (car code) m.args with
    | some st => sGoto { m with store := st, envir, code := cdr code, args := .nil } .begin
    | none => .error
  | _ => .elsewhere

/-- `OP_DEF0` -/
def def0 (m : Machine) : Result :=
  match car m.code with
  | .pair x formals =>
    match x with
    | .symbol _ =>
      evalNext (sSave m .def1 .nil x) (.pair (.symbol "lambda") (.pair formals (cdr m.code)))
    | _ => .error
  | x =>
    let code := car (cdr m.code)
    match x with
    | .symbol _ =>
      -- `str2.insert(1, str)` needs a character in the text of the second element
      if isPair code && printsEmpty (car (cdr code)) then .threw
      else evalNext (sSave m .def1 .nil x) code
    | _ => .error

/-- `OP_LET2` -/
def let2 (m : Machine) : Result :=
  let (st, envir) := newFrameInEnv m.store m.envir
  match car m.code with
  | .symbol name =>
    let bindings := car (cdr m.code)
    let st := bindVariables st envir bindings m.args
    if isPair bindings then
      let x := .closure .tClosure (.pair (letVariables bindings) (cdr (cdr m.code))) envir
      sGoto { m with
        store := newSlotInEnv st envir name x, envir, code := cdr (cdr m.code), args := .nil } .begin
    else .error
  | bindings =>
    sGoto { m with
      store := bindVariables st envir bindings m.args, envir, code := cdr m.code, args := .nil }
      .begin

/-- The clauses of `case` from the one on that has the value, or from `else` on. `none` is a
syntax error. -/
def findClause (eqv : Val → Val → Bool) (value : Val) : Val → Option Val
  | .pair clause clauses =>
    if isPair (car clause) then
      if anyEqv (car clause) then some (.pair clause clauses) else findClause eqv value clauses
    else if car clause = .symbol "else" then some (.pair clause clauses) else none
  | _ => some .nil
where
  anyEqv : Val → Bool
    | .pair d ds => eqv d value || anyEqv ds
    | _ => false

/-- One opcode. `eqv` is `eqv_sc`: numbers and characters are compared by their value, other
data by identity. -/
def step (eqv : Val → Val → Bool) (m : Machine) : Result :=
  match m.op with
  | .eval =>
    match m.code with
    | .symbol name =>
      match findSlotInEnv m.store name true m.envir with
      | some slot => sReturn m (slotValueInEnv m.store slot)
      | none => .error
    | .pair x rest =>
      match syntaxOp x with
      | some op => sGoto { m with code := rest } op
      | none => evalNext (sSave m .e0args .nil m.code) x
    | code => sReturn m code
  | .e0args =>
    match m.value with
    | .closure .tMacro _ _ =>
      sGoto { sSave m .doMacro m.code .nil with args := .pair m.code .nil, code := m.value } .apply
    | _ => sGoto { m with code := cdr m.code } .e1args
  | .e1args => accumulate m .e1args .apply some
  | .apply => apply m
  | .doMacro => evalNext m m.value
  | .lambda => sReturn m (.closure .tClosure m.code m.envir)
  | .quote => sReturn m (car m.code)
  | .def0 => def0 m
  | .def1 =>
    match m.code with
    | .symbol name =>
      let st := match findSlotInEnv m.store name false m.envir with
        | some slot => setSlotInEnv m.store slot m.value
        | none => newSlotInEnv m.store m.envir name m.value
      sReturn { m with store := st } m.code
    | _ => .error
  | .set0 => evalNext (sSave m .set1 .nil (car m.code)) (car (cdr m.code))
  | .set1 =>
    match m.code with
    | .symbol name =>
      match findSlotInEnv m.store name true m.envir with
      | some slot => sReturn { m with store := setSlotInEnv m.store slot m.value } m.value
      | none => .error
    | _ => .error
  | .begin =>
    if isPair m.code then
      if cdr m.code ≠ .nil then evalNext (sSave m .begin .nil (cdr m.code)) (car m.code)
      else evalNext m (car m.code)
    else sReturn m m.code
  | .if0 => evalNext (sSave m .if1 .nil (cdr m.code)) (car m.code)
  | .if1 => evalNext m (if isTrue m.value then car m.code else car (cdr m.code))
  | .let0 =>
    let bindings := match car m.code with
      | .symbol _ => car (cdr m.code)
      | bindings => bindings
    sGoto { m with args := .nil, value := m.code, code := bindings } .let1
  | .let1 => accumulate m .let1 .let2 fun b => if isPair b then some (car (cdr b)) else none
  | .let2 => let2 m
  | .let0rec =>
    let (st, envir) := newFrameInEnv m.store m.envir
    sGoto { m with store := st, envir, args := .nil, value := m.code, code := car m.code } .let1rec
  | .let1rec => accumulate m .let1rec .let2rec fun b => some (car (cdr b))
  | .let2rec =>
    sGoto { m with
      store := bindVariables m.store m.envir (car m.code) m.args, code := cdr m.code,
      args := .nil } .begin
  | .cond0 =>
    if isPair m.code then evalNext (sSave m .cond1 .nil m.code) (car (car m.code)) else .error
  | .cond1 =>
    if isTrue m.value then
      let code := cdr (car m.code)
      if code = .nil then sReturn m m.value
      else if car code = .symbol "=>" then
        if isPair (cdr code) then
          evalNext m (.list [car (cdr code), .list [.symbol "quote", m.value]])
        else .error
      else sGoto { m with code } .begin
    else if cdr m.code = .nil then sReturn m .nil
    else evalNext (sSave m .cond1 .nil (cdr m.code)) (car (car (cdr m.code)))
  | .and0 =>
    if m.code = .nil then sReturn m (.bool true)
    else evalNext (sSave m .and1 .nil (cdr m.code)) (car m.code)
  | .and1 =>
    if isTrue m.value then
      if m.code = .nil then sReturn m m.value
      else evalNext (sSave m .and1 .nil (cdr m.code)) (car m.code)
    else sReturn m m.value
  | .or0 =>
    if m.code = .nil then sReturn m (.bool false)
    else evalNext (sSave m .or1 .nil (cdr m.code)) (car m.code)
  | .or1 =>
    if isTrue m.value then sReturn m m.value
    else if m.code = .nil then sReturn m m.value
    else evalNext (sSave m .or1 .nil (cdr m.code)) (car m.code)
  | .case0 => evalNext (sSave m .case1 .nil (cdr m.code)) (car m.code)
  | .case1 =>
    match findClause eqv m.value m.code with
    | some (.pair clause _) =>
      if isPair (car clause) then sGoto { m with code := cdr clause } .begin
      else evalNext (sSave m .case2 .nil (cdr clause)) (car clause)
    | some _ => sReturn m .nil
    | none => .error
  | .case2 => if isTrue m.value then sGoto m .begin else sReturn m .nil
  | .let0ast | .delay | .c0stream | .macro0 => .elsewhere

end Extempore.RegisterMachine
