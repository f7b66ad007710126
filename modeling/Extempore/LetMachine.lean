import Mathlib.Logic.Function.Basic
import Extempore.LetForms

/-!
# The instructions emitted for let forms

Of the emitted text each instruction keeps what it reads and writes. `%xPtr` holds the address of
the variable `x`, temporaries are numbered by the counter of `impc:ir:gname`, and `%x` is the
value register of an argument or of a let-bound variable. The cell `%ifptr` of an `if`, which only
its two branches store to, is the temporary that its last load defines. A closure structure
contains its environment.
-/

namespace Extempore.LetMachine
open LetForms

inductive Operand where
  | lit (n : BitVec 64)
  | temp (t : ℕ)
  | named (x : Name)
  deriving DecidableEq

inductive Instr where
  /-- `%xPtr = alloca`, or the zone allocation in its place -/
  | alloca (x : Name)
  /-- `%t = load %xPtr` -/
  | load (t : ℕ) (x : Name)
  /-- `store o, %xPtr` -/
  | store (o : Operand) (x : Name)
  /-- `%x = select i1 true, o, o` -/
  | select (x : Name) (o : Operand)
  | binary (t : ℕ) (op : Op) (a b : Operand)
  /-- allocates the closure structure and an environment structure without contents -/
  | makeClosure (t : ℕ) (env args : List Name) (code : List Instr) (ret : Operand)
  /-- stores `%xPtr` in slot `i` of the environment of the closure in `%t` -/
  | fillSlot (t i : ℕ) (x : Name)
  /-- `%xPtr = load %xPtr_`, where `%xPtr_` points to slot `i` of `%impenv` -/
  | loadSlot (i : ℕ) (x : Name)
  | call (t f : ℕ) (args : List Operand)
  | branch (t : ℕ) (c : Operand) (thn : List Instr) (a : Operand) (els : List Instr) (b : Operand)

/-- The text of a function. -/
structure FunctionText where
  env : List Name
  args : List Name
  code : List Instr
  ret : Operand

/-! ## The code generator -/

/-- The environment of a closure is set up first, then the arguments. -/
def entry (env args : List Name) : List Instr :=
  (env.zipIdx.map fun p => .loadSlot p.2 p.1) ++
    args.flatMap fun a => [.alloca a, .store (.named a) a]

/-- Filling the environment of the closure in `%t`. -/
def fills (t : ℕ) (env : List Name) : List Instr :=
  env.zipIdx.map fun p => .fillSlot t p.2 p.1

/-- The code of an expression, its result, and the next number. -/
structure Text where
  code : List Instr
  result : Operand
  next : ℕ

/-- A compiled binding: the variable, the code of its value with the result, and for a lambda the
instructions that fill its environment. -/
structure Assigned where
  sym : Name
  code : List Instr
  result : Operand
  fill : Option (List Instr)

/-- `impc:ir:compile:make-env`: all variables are allocated, then the values are computed and
stored in order, then the environments are filled, those of later lambdas first. -/
def makeEnv (res : List Assigned) : List Instr :=
  (res.map fun r => .alloca r.sym) ++
    (res.flatMap fun r => r.code ++ [.select r.sym r.result, .store (.named r.sym) r.sym]) ++
    (res.filterMap Assigned.fill).reverse.flatten

mutual

/-- `impc:ir:compiler`, where the argument counts the names given out so far. -/
def compile : Expr → ℕ → Text
  | .num n, k => ⟨[], .lit n, k⟩
  | .var x, k => ⟨[.load k x], .temp k, k + 1⟩
  | .op o a b, k =>
      let ta := compile a k
      let tb := compile b ta.next
      ⟨ta.code ++ tb.code ++ [.binary tb.next o ta.result tb.result], .temp tb.next, tb.next + 1⟩
  | .set x e, k =>
      let te := compile e k
      ⟨te.code ++ [.store te.result x], te.result, te.next⟩
  | .begin a b, k =>
      let ta := compile a k
      let tb := compile b ta.next
      ⟨ta.code ++ tb.code, tb.result, tb.next⟩
  | .ite c a b, k =>
      let tc := compile c k
      let ta := compile a tc.next
      let tb := compile b ta.next
      ⟨tc.code ++ [.branch tb.next tc.result ta.code ta.result tb.code tb.result], .temp tb.next,
        tb.next + 1⟩
  | .apply f args, k =>
      let (code, os, k') := compileArgs args k
      ⟨code ++ [.load k' f, .call (k' + 1) k' os], .temp (k' + 1), k' + 2⟩
  | .makeEnv bs body, k =>
      let (res, k') := compileBindings bs k
      let tb := compile body k'
      ⟨makeEnv res ++ tb.code, tb.result, tb.next⟩

def compileArgs : Exprs → ℕ → List Instr × List Operand × ℕ
  | .nil, k => ([], [], k)
  | .cons e es, k =>
      let te := compile e k
      let (code, os, k') := compileArgs es te.next
      (te.code ++ code, te.result :: os, k')

def compileBindings : Bindings → ℕ → List Assigned × ℕ
  | .nil, k => ([], k)
  | .expr x e bs, k =>
      let te := compile e k
      let (res, k') := compileBindings bs te.next
      (⟨x, te.code, te.result, none⟩ :: res, k')
  | .closure x env args code bs, k =>
      let t := compile code k
      let (res, k') := compileBindings bs (t.next + 1)
      (⟨x, [.makeClosure t.next env args (entry env args ++ t.code) t.result], .temp t.next,
        some (fills t.next env)⟩ :: res, k')

end

/-- `impc:ir:compile:make-closure` -/
def makeFunction (env args : List Name) (code : Expr) (k : ℕ) : FunctionText :=
  ⟨env, args, entry env args ++ (compile code k).code, (compile code k).result⟩

/-! ## The machine -/

/-- A closure structure. Slots of the environment are unset until they are filled. -/
structure Closure where
  func : FunctionText
  slots : List (Option Loc)

/-- The registers of one activation of a function. -/
structure Frame where
  /-- the closure whose environment is `%impenv` -/
  self : ℕ
  ptrs : Name → Option Loc
  temps : ℕ → Option Value
  named : Name → Option Value

namespace Frame

def setPtr (F : Frame) (x : Name) (l : Loc) : Frame :=
  { F with ptrs := Function.update F.ptrs x (some l) }

def setTemp (F : Frame) (t : ℕ) (v : Value) : Frame :=
  { F with temps := Function.update F.temps t (some v) }

def setNamed (F : Frame) (x : Name) (v : Value) : Frame :=
  { F with named := Function.update F.named x (some v) }

def value (F : Frame) : Operand → Option Value
  | .lit n => some (.num n)
  | .temp t => F.temps t
  | .named x => F.named x

/-- The registers when a function is entered. -/
def enter (k : ℕ) (args : List Name) (vs : List Value) : Frame :=
  ⟨k, fun _ => none, fun _ => none, fun x => (args.zip vs).lookup x⟩

def empty : Frame := enter 0 [] []

end Frame

/-- Goes on if the value is there. -/
def require {κ α β : Type} (a : Option α) (h : Heap κ) (f : α → Outcome κ β) : Outcome κ β :=
  match a with
  | some a => f a
  | none => .stop .undefined h.log

def binary (t : ℕ) (op : Op) (u v : Value) (F : Frame) (h : Heap Closure) :
    Outcome Closure Frame :=
  match u, v with
  | .num m, .num n => .ok (F.setTemp t (.num (op.apply m n))) h
  | _, _ => .stop .undefined h.log

/-- Reading a slot of the environment. -/
def loadSlot (i : ℕ) (x : Name) (F : Frame) (h : Heap Closure) : Outcome Closure Frame :=
  match (h.closures[F.self]?).bind (·.slots[i]?) with
  | some (some l) => .ok (F.setPtr x l) h
  | some none => .stop .early h.log
  | none => .stop .undefined h.log

def fillSlot (k i : ℕ) (l : Loc) (c : Heap Closure) : Heap Closure :=
  c.modifyClosure k fun c => { c with slots := c.slots.set i (some l) }

mutual

def step (call : Call Closure) : Instr → Frame → Heap Closure → Outcome Closure Frame
  | .alloca x, F, h => .ok (F.setPtr x h.cells.length) (h.alloc [none])
  | .load t x, F, h => require ((F.ptrs x).bind h.read) h fun v => .ok (F.setTemp t v) h
  | .store o x, F, h => require (F.value o) h fun v => require (F.ptrs x) h fun l =>
      .ok F (h.write l v)
  | .select x o, F, h => require (F.value o) h fun v => .ok (F.setNamed x v) (h.record x v)
  | .binary t op a b, F, h => require (F.value a) h fun u => require (F.value b) h fun v =>
      binary t op u v F h
  | .makeClosure t env args code ret, F, h =>
      .ok (F.setTemp t (.closure h.closures.length))
        (h.newClosure ⟨⟨env, args, code, ret⟩, env.map fun _ => none⟩)
  | .fillSlot t i x, F, h => match F.temps t, F.ptrs x with
      | some (.closure k), some l => .ok F (fillSlot k i l h)
      | _, _ => .stop .undefined h.log
  | .loadSlot i x, F, h => loadSlot i x F h
  | .call t f args, F, h => match F.temps f, args.mapM F.value with
      | some (.closure k), some vs => (call k vs h).bind fun v h => .ok (F.setTemp t v) h
      | _, _ => .stop .undefined h.log
  | .branch t c thn a els b, F, h => match F.value c with
      | some (.num n) =>
          if n = 0 then (run call els F h).bind fun F h =>
            require (F.value b) h fun v => .ok (F.setTemp t v) h
          else (run call thn F h).bind fun F h =>
            require (F.value a) h fun v => .ok (F.setTemp t v) h
      | _ => .stop .undefined h.log

def run (call : Call Closure) : List Instr → Frame → Heap Closure → Outcome Closure Frame
  | [], F, h => .ok F h
  | i :: code, F, h => (step call i F h).bind fun F h => run call code F h

end

/-- Runs a text and gives the value of its result. -/
def runText (call : Call Closure) (code : List Instr) (ret : Operand) (F : Frame)
    (h : Heap Closure) : Outcome Closure Value :=
  (run call code F h).bind fun F h => require (F.value ret) h fun v => .ok v h

/-- A call: the function and the environment are those of the closure. -/
def callClosure : ℕ → Call Closure
  | 0, _, _, h => .stop .timeout h.log
  | n + 1, k, vs, h => match h.closures[k]? with
    | none => .stop .undefined h.log
    | some c =>
      if vs.length ≠ c.func.args.length then .stop .undefined h.log
      else runText (callClosure n) c.func.code c.func.ret (.enter k c.func.args vs) h

/-- The run of the emitted instructions, with calls nested to depth `n`. -/
def execute (p : Program) (n : ℕ) : Outcome Closure Value :=
  runText (callClosure n) (compile p.main 0).code (compile p.main 0).result .empty .empty

/-- What the emitted code owes: no slot of an environment is read before it is filled, and the
initialisations, their order and their values, and the value of the program are those of its
meaning. -/
structure Correct (p : Program) : Prop where
  filled : ∀ n, (execute p n).isEarly = false
  agrees : ∀ n, (execute p n).observe = (evaluate p n).observe

end Extempore.LetMachine
