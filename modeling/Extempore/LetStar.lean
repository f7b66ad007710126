import Extempore.LockstepRuns
import Extempore.RelatedData
import Extempore.ReferenceEvaluator

/-!
# The opcodes of `let*`

The register machine with `OP_LET0AST`, `OP_LET1AST` and `OP_LET2AST`. A `let*` makes one
frame after its first initialiser and puts every variable into it; a nested `let` makes a
frame for each variable. The other opcodes are those of the register machine, and a primitive
procedure is called by `OP_APPLY`.
-/

namespace Extempore.LetStar
open SchemeData ReferenceEvaluator LockstepRuns RelatedData

inductive Opcode where
  | base (op : RegisterMachine.Op)
  | let1ast
  | let2ast
  deriving DecidableEq, Repr

/-- `dump_stack_frame` -/
structure Frame where
  op : Opcode
  args : Val
  envir : Env
  code : Val
  deriving DecidableEq, Repr

/-- The registers, the dump stack and the frames of the environments. -/
structure Machine where
  op : Opcode
  args : Val
  envir : Env
  code : Val
  value : Val
  dump : List Frame
  store : Store
  deriving DecidableEq, Repr

/-- How a run ends; `elsewhere` stands for opcodes and procedures that are not modelled. -/
inductive Outcome where
  | halted (value : Val) (store : Store)
  | error
  | threw
  | elsewhere
  deriving DecidableEq, Repr

/-- `_s_return` -/
def returnTo (dump : List Frame) (store : Store) (a : Val) : Machine ⊕ Outcome :=
  match dump with
  | [] => .inr (.halted a store)
  | frame :: dump =>
    .inl
      { op := frame.op, args := frame.args, envir := frame.envir, code := frame.code, value := a,
        dump, store }

/-- The registers for an opcode of the register machine. -/
def Machine.registers (m : Machine) (op : RegisterMachine.Op) : RegisterMachine.Machine :=
  { op, args := m.args, envir := m.envir, code := m.code, value := m.value, dump := [],
    store := m.store }

def saved (f : RegisterMachine.Frame) : Frame := ⟨.base f.op, f.args, f.envir, f.code⟩

/-- Go on after an opcode of the register machine, which has left its frames on top of the dump
stack or has returned. -/
def resume (dump : List Frame) : RegisterMachine.Result → Machine ⊕ Outcome
  | .running m =>
    .inl
      { op := .base m.op, args := m.args, envir := m.envir, code := m.code, value := m.value,
        dump := m.dump.map saved ++ dump, store := m.store }
  | .halted a st => returnTo dump st a
  | .error => .inr .error
  | .threw => .inr .threw
  | .elsewhere => .inr .elsewhere

/-- `OP_LET0AST` -/
def let0ast (m : Machine) : Machine ⊕ Outcome :=
  if car m.code = .nil then
    let (st, envir) := newFrameInEnv m.store m.envir
    .inl { m with op := .base .begin, envir, code := cdr m.code, store := st }
  else if isPair (car m.code) then
    .inl
      { m with
        op := .base .eval, code := car (cdr (car (car m.code))),
        dump := ⟨.let1ast, cdr m.code, m.envir, car m.code⟩ :: m.dump }
  else .inr .error

/-- `OP_LET1AST` -/
def let1ast (m : Machine) : Machine :=
  let (st, envir) := newFrameInEnv m.store m.envir
  { m with op := .let2ast, envir, store := st }

/-- `new_slot_in_env` for a variable. What is not a symbol is never looked up. -/
def newSlotFor (st : Store) (env : Env) (x v : Val) : Store :=
  match x with
  | .symbol name => newSlotInEnv st env name v
  | _ => st

/-- `OP_LET2AST` -/
def let2ast (m : Machine) : Machine :=
  let st := newSlotFor m.store m.envir (car (car m.code)) m.value
  let code := cdr m.code
  if isPair code then
    { m with
      op := .base .eval, args := .nil, code := car (cdr (car code)), store := st,
      dump := ⟨.let2ast, m.args, m.envir, code⟩ :: m.dump }
  else { m with op := .base .begin, code := m.args, args := .nil, store := st }

/-- One opcode. -/
def step (p : Procedures) (m : Machine) : Machine ⊕ Outcome :=
  match m.op with
  | .base .let0ast => let0ast m
  | .let1ast => .inl (let1ast m)
  | .let2ast => .inl (let2ast m)
  | .base .apply =>
    match m.code with
    | .other id =>
      match p.foreign id m.args with
      | some v => returnTo m.dump m.store v
      | none => .inr .elsewhere
    | _ => resume m.dump (RegisterMachine.step p.eqv (m.registers .apply))
  | .base op => resume m.dump (RegisterMachine.step p.eqv (m.registers op))

/-! ## The two forms -/

/-- `(let* ((x e) ...) . body)` -/
def letStar (bs : List Binding) (body : Val) : Val := form "let*" (.pair (bindingsCode bs) body)

/-- The body of the `let` around the bindings. -/
def nestedBody (body : Val) : List Binding → Val
  | [] => body
  | b :: bs => .list [form "let" (.pair (bindingsCode [b]) (nestedBody body bs))]

/-- `(let ((x e)) (let ((y f)) ... . body))` -/
def nestedLet (bs : List Binding) (body : Val) : Val :=
  match bs with
  | [] => form "let" (.pair .nil body)
  | b :: bs => form "let" (.pair (bindingsCode [b]) (nestedBody body bs))

/-- The machine is about to evaluate an expression. -/
def start (e args value : Val) (env : Env) (dump : List Frame) (st : Store) : Machine :=
  { op := .base .eval, args, envir := env, code := e, value, dump, store := st }

/-! ## The frames of the nested form -/

/-- The value of a name in the frame at `a`, as `find_slot_in_env` finds it. -/
def valueAt (st : Store) (a : ℕ) (x : String) : Option Val := bindings ((st.frames[a]?).getD []) x

/-- The frames of the first `n` forms that are opened at this depth of the dump stack, the
newest one first. -/
def record (depth n : ℕ) (m : Machine) (frames : List ℕ) : List ℕ :=
  if m.op = .base .let2 ∧ m.dump.length = depth ∧ frames.length < n then
    m.store.frames.length :: frames
  else frames

/-- A step of the nested form that keeps a record of its frames. -/
def traced (p : Procedures) (depth n : ℕ) (s : Machine × List ℕ) : (Machine × List ℕ) ⊕ Outcome :=
  match step p s.1 with
  | .inl m => .inl (m, record depth n s.1 s.2)
  | .inr o => .inr o

/-- If the search for a name gets to one of the frames, then no newer one of the frames has the
name. -/
def Unshadowed (frames : List ℕ) (st : Store) (x : String) : Env → Prop
  | [] => True
  | c :: env =>
    if c ∈ frames then ∀ d ∈ frames.takeWhile (· ≠ c), valueAt st d x = none
    else (valueAt st c x).isSome ∨ Unshadowed frames st x env

instance (frames : List ℕ) (st : Store) (x : String) :
    (env : Env) → Decidable (Unshadowed frames st x env)
  | [] => isTrue trivial
  | c :: env =>
    have := instDecidableUnshadowed frames st x env
    inferInstanceAs (Decidable (if c ∈ frames then _ else _))

/-- The name that an opcode looks for, and the frames in which it does. -/
def wanted (m : Machine) : Option (String × Env) :=
  match m.op, m.code with
  | .base .eval, .symbol x => some (x, m.envir)
  | .base .set1, .symbol x => some (x, m.envir)
  | .base .def1, .symbol x => some (x, m.envir.take 1)
  | _, _ => none

/-- A variable is looked up, set or defined only where it is not hidden by a newer variable of
the `let*`. -/
def Fine (s : Machine × List ℕ) : Prop :=
  ∀ q ∈ wanted s.1, Unshadowed s.2 s.1.store q.1 q.2

instance : DecidablePred Fine := fun s =>
  inferInstanceAs (Decidable (∀ q ∈ wanted s.1, Unshadowed s.2 s.1.store q.1 q.2))

end Extempore.LetStar
