import Extempore.HeapGrowth
import Extempore.TricolourMarking

/-!
# The interpreter and the scanner thread

The interpreter allocates cells and stores pointers while a second thread walks the grey cells of
the treadmill. Every store is accompanied by a call of `insert_treadmill` on the pointer that is
stored. The scanner reads the slots of a cell one after the other; between any two of its steps
the interpreter may take any number of its own. A flip happens in `get_cell`, when no free cell is
left and the scanner is done, and marks the registers of the interpreter.
-/

namespace Extempore.HeapCollector
open LinkedRings GuardedRuns TreadmillRing

/-- A frame of the dump stack, as far as it points to cells. -/
structure DumpFrame where
  args : ℕ
  envir : ℕ
  code : ℕ

/-- What the scanner sees of a cell. `pair` stands for all cells that are not atoms: pairs,
closures, environments and promises. -/
inductive Object where
  | atom
  | pair (car cdr : ℕ)
  | vector (elems : List ℕ)
  | continuation (frames : List DumpFrame) (car cdr : ℕ)

/-- The pointers that `treadmill_scanner` follows from a cell, in its order. -/
def Object.slots : Object → List ℕ
  | .atom => []
  | .pair car cdr => [car, cdr]
  | .vector elems => elems
  | .continuation frames car cdr =>
    frames.flatMap (fun f => [f.envir, f.args, f.code]) ++ [car, cdr]

/-- The fields of `scheme` that hold a cell when a flip happens. -/
structure Registers where
  oblist : ℕ
  globalEnv : ℕ
  args : ℕ
  envir : ℕ
  code : ℕ
  dump : List DumpFrame
  tmpDump : ℕ
  value : ℕ
  inport : ℕ
  saveInport : ℕ
  outport : ℕ
  loadport : ℕ
  t : ℕ
  f : ℕ
  nil : ℕ
  eofObj : ℕ
  sink : ℕ
  impEnv : List ℕ

/-- The cells that `treadmill_mark_roots` inserts, in its order; `a` and `b` are the arguments of
the `get_cell` that flips. -/
def treadmillMarkRoots (r : Registers) (a b : ℕ) : List ℕ :=
  [r.oblist, r.globalEnv, r.args, r.envir, r.code] ++
    r.dump.flatMap (fun f => [f.args, f.envir, f.code]) ++
    [r.tmpDump, r.value, r.inport, r.saveInport, r.outport, r.loadport,
      r.t, r.f, r.nil, r.eofObj, r.sink, a, b] ++ r.impEnv

/-- What the interpreter does within a call after `get_cell`. -/
inductive Instr where
  | insertTreadmill (p : ℕ)
  | setCar (x p : ℕ)
  | setCdr (x p : ℕ)
  | setElem (x i p : ℕ)
  deriving DecidableEq

/-- A Scheme process with both threads. `todo` is the rest of the call that the interpreter is in
and `locals` are the cells that the call holds. The scanner has read `next` slots of the cell at
`scan`, of which `pending` are not yet inserted. -/
structure Process where
  ring : Treadmill
  heap : ℕ → Object
  registers : Registers
  locals : List ℕ
  todo : List Instr
  next : ℕ
  pending : List ℕ

/-! ## The functions that store pointers -/

/-- `_cons` and `mk_closure` behind `get_cell`. -/
def initPair (x a b : ℕ) : List Instr :=
  [.insertTreadmill a, .insertTreadmill b, .setCar x a, .setCdr x b]

def fillVector (num vec obj : ℕ) : List Instr :=
  .insertTreadmill obj :: (List.range num).map (.setElem vec · obj)

def setVectorElem (vec index val : ℕ) : List Instr :=
  [.insertTreadmill val, .setElem vec index val]

def setSlotInEnv (slot value : ℕ) : List Instr :=
  [.insertTreadmill value, .setCdr slot value]

/-- The end of `new_slot_spec_in_env` in an environment whose frame is a list; in front of it are
two calls of `immutable_cons`. -/
def newSlotSpecInEnv (env tmp : ℕ) : List Instr :=
  [.insertTreadmill tmp, .setCar env tmp]

def opSetcar (p v : ℕ) : List Instr := [.insertTreadmill v, .setCar p v]

def opSetcdr (p v : ℕ) : List Instr := [.insertTreadmill v, .setCdr p v]

/-- `OP_CONS` turns its own argument list into the pair, and inserts after the store. -/
def opCons (args v : ℕ) : List Instr := [.setCdr args v, .insertTreadmill v]

/-! ## Steps of the two threads -/

inductive Operation where
  /-- The scanner reads the next slot of the cell at `scan`. -/
  | look
  /-- The scanner inserts a pointer that it has read. -/
  | shade
  /-- The scanner goes to the next grey cell. -/
  | advance
  /-- `get_cell` with arguments `a` and `b` finds no free cell. -/
  | flip (a b newmem : ℕ)
  | cons (a b : ℕ)
  | mkClosure (c e : ℕ)
  /-- A number, a string or another cell without slots. -/
  | mkAtom
  | mkVector (len : ℕ)
  /-- `y` is the copy of the dump stack. -/
  | mkContinuation (y : ℕ)
  | fillVector (vec obj : ℕ)
  | setVectorElem (vec index val : ℕ)
  | setSlotInEnv (slot value : ℕ)
  | newSlotSpecInEnv (env tmp : ℕ)
  | opSetcar (p v : ℕ)
  | opSetcdr (p v : ℕ)
  | opCons (args v : ℕ)
  /-- The next instruction of the call. -/
  | instr
  /-- Between two calls the interpreter assigns to its registers. -/
  | setRegisters (r : Registers)

/-- A call that does not allocate. -/
def call (s : Process) (params : List ℕ) (body : List Instr) : Option Process :=
  if s.todo = [] then some { s with locals := params, todo := body } else none

/-- A call that gets the cell `x` and fills it with `o`. -/
def alloc (s : Process) (get : Option (ℕ × Treadmill)) (params : List ℕ) (o : Object)
    (body : ℕ → List Instr) : Option Process :=
  if s.todo = [] then
    get.map fun (x, ring) =>
      { s with ring, heap := Function.update s.heap x o, locals := x :: params, todo := body x }
  else none

/-- One store or one call of `insert_treadmill`; only a pair has a `car` that can be set, and a
vector is only set within its bounds. -/
def exec (s : Process) : Instr → Option Process
  | .insertTreadmill p => some { s with ring := insertTreadmill s.ring p }
  | .setCar x p =>
    match s.heap x with
    | .pair _ cdr => some { s with heap := Function.update s.heap x (.pair p cdr) }
    | _ => none
  | .setCdr x p =>
    match s.heap x with
    | .pair car _ => some { s with heap := Function.update s.heap x (.pair car p) }
    | _ => none
  | .setElem x i p =>
    match s.heap x with
    | .vector elems =>
      if i < elems.length then
        some { s with heap := Function.update s.heap x (.vector (elems.set i p)) }
      else none
    | _ => none

def step (s : Process) : Operation → Option Process
  | .look =>
    if s.ring.scan = s.ring.top then none
    else ((s.heap s.ring.scan).slots[s.next]?).map fun e =>
      { s with next := s.next + 1, pending := s.pending ++ [e] }
  | .shade =>
    match s.pending with
    | [] => none
    | e :: pending => some { s with ring := insertTreadmill s.ring e, pending }
  | .advance =>
    if s.ring.scan ≠ s.ring.top ∧ s.next = (s.heap s.ring.scan).slots.length ∧ s.pending = [] then
      some { s with ring := advance s.ring, next := 0 }
    else none
  | .flip a b newmem =>
    if s.todo = [] ∧ s.ring.free = s.ring.bottom ∧ s.ring.scan = s.ring.top then
      some { s with
        ring := treadmillFlip s.ring newmem (treadmillMarkRoots s.registers a b)
        locals := [a, b] }
    else none
  | .cons a b =>
    alloc s (getCell s.ring) [a, b] (.pair s.registers.nil s.registers.nil) (initPair · a b)
  | .mkClosure c e =>
    alloc s (getCell s.ring) [c, e] (.pair s.registers.nil s.registers.nil) (initPair · c e)
  | .mkAtom => alloc s (getCell s.ring) [] .atom fun _ => []
  | .mkVector len =>
    alloc s (HeapGrowth.mkVector s.ring len) [s.registers.nil]
      (.vector (List.replicate len s.registers.nil)) (HeapCollector.fillVector len · s.registers.nil)
  | .mkContinuation y =>
    alloc s (getCell s.ring) [y] (.continuation s.registers.dump s.registers.nil y) fun _ => []
  | .fillVector vec obj =>
    call s [vec, obj] (HeapCollector.fillVector (s.heap vec).slots.length vec obj)
  | .setVectorElem vec index val => call s [vec, val] (HeapCollector.setVectorElem vec index val)
  | .setSlotInEnv slot value => call s [slot, value] (HeapCollector.setSlotInEnv slot value)
  | .newSlotSpecInEnv env tmp => call s [env, tmp] (HeapCollector.newSlotSpecInEnv env tmp)
  | .opSetcar p v => call s [p, v] (HeapCollector.opSetcar p v)
  | .opSetcdr p v => call s [p, v] (HeapCollector.opSetcdr p v)
  | .opCons args v => call s [args, v] (HeapCollector.opCons args v)
  | .instr =>
    match s.todo with
    | [] => none
    | i :: todo => (exec s i).map fun s => { s with todo }
  | .setRegisters r => if s.todo = [] then some { s with registers := r } else none

/-- The process with its first five cells. The registers that the source fills later hold `NIL`. -/
def started (ring : Treadmill) (nil sink t f eofObj : ℕ) : Process where
  ring
  heap x := if x = sink ∨ x = eofObj then .pair nil nil else .atom
  registers :=
    { oblist := nil, globalEnv := nil, args := nil, envir := nil, code := nil, dump := []
      tmpDump := nil, value := nil, inport := nil, saveInport := nil, outport := nil
      loadport := nil, t, f, nil, eofObj, sink, impEnv := [] }
  locals := []
  todo := []
  next := 0
  pending := []

/-- `scheme_init_custom_alloc`, until the constants have their cells. -/
def init (newp n : ℕ) : Option Process := do
  let (nil, ring) ← getCell (allocCellseg newp n)
  let (sink, ring) ← getCell ring
  let (t, ring) ← getCell ring
  let (f, ring) ← getCell ring
  let (eofObj, ring) ← getCell ring
  some (started ring nil sink t f eofObj)

/-! ## What the interpreter may do -/

/-- A cell that the interpreter can reach from its registers and the call it is in. -/
def Live (s : Process) (p : ℕ) : Prop :=
  TricolourMarking.Live (fun q => (s.heap q).slots)
    (treadmillMarkRoots s.registers s.registers.nil s.registers.nil ++ s.locals) p

/-- The cells that the interpreter hands to an operation. -/
def operands : Operation → List ℕ
  | .flip a b _ => [a, b]
  | .cons a b => [a, b]
  | .mkClosure c e => [c, e]
  | .mkContinuation y => [y]
  | .fillVector vec obj => [vec, obj]
  | .setVectorElem vec _ val => [vec, val]
  | .setSlotInEnv slot value => [slot, value]
  | .newSlotSpecInEnv env tmp => [env, tmp]
  | .opSetcar p v => [p, v]
  | .opSetcdr p v => [p, v]
  | .opCons args v => [args, v]
  | .setRegisters r => treadmillMarkRoots r r.nil r.nil
  | _ => []

/-- `p` is not the last ecru cell of the ring. -/
def NotLast (t : Treadmill) (p : ℕ) : Prop := ¬ (p = t.top ∧ p = t.bottom)

/-- The ring never has to give up its last ecru cell, and a flip that finds memory low can grow
the heap. -/
def RingAllows (s : Process) : Operation → Prop
  | .shade => ∀ e ∈ s.pending.head?, NotLast s.ring e
  | .instr => ∀ p, s.todo.head? = some (.insertTreadmill p) → NotLast s.ring p
  | .flip a b newmem =>
    (memoryLow s.ring = true → HeapGrowth.Growable s.ring newmem) ∧
      Meets NotLast (fun t p => some (insertTreadmill t p)) (flipRing s.ring newmem)
        (treadmillMarkRoots s.registers a b)
  | _ => True

/-- The interpreter works with pointers that it can reach, leaves `NIL` alone, and captures a
continuation while the cells of the dump stack are dark: `mk_continuation` inserts none of them. -/
def Honest (s : Process) (o : Operation) : Prop :=
  (∀ p ∈ operands o, Live s p) ∧
    match o with
    | .setRegisters r => r.nil = s.registers.nil
    | .mkContinuation y =>
      ∀ p ∈ y :: s.registers.dump.flatMap (fun f => [f.envir, f.args, f.code]),
        s.ring.colour p = s.ring.dark
    | _ => True

def Allowed (s : Process) (o : Operation) : Prop := RingAllows s o ∧ Honest s o

/-- No cell that the interpreter can reach is on the free list. -/
def Safe (s : Process) : Prop := ∀ p, Live s p → ¬ White s.ring p

/-- When a flip happens, every cell that it marks as a root was already dark. -/
def RootsDark (s : Process) : Operation → Prop
  | .flip a b _ => ∀ p ∈ treadmillMarkRoots s.registers a b, s.ring.colour p = s.ring.dark
  | _ => True

/-- The pointer that a store overwrites. -/
def overwritten (s : Process) : Instr → Option ℕ
  | .insertTreadmill _ => none
  | .setCar x _ => (s.heap x).slots[0]?
  | .setCdr x _ => (s.heap x).slots[1]?
  | .setElem x i _ => (s.heap x).slots[i]?

/-- A store overwrites only pointers to dark cells. -/
def OverwritesDark (s : Process) : Operation → Prop
  | .instr => ∀ w ∈ s.todo.head?.bind (overwritten s), s.ring.colour w = s.ring.dark
  | _ => True

end Extempore.HeapCollector
