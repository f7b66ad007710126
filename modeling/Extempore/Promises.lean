import Mathlib.Logic.Relation
import Extempore.LinkedRings

/-!
# Forced promises

A promise that is forced is overwritten with the cell of its value. The copy takes all of the
cell: what is in it, but also its place on the treadmill, its colour and the storage it owns.
-/

namespace Extempore.Promises
open LinkedRings Relation

/-- The union `_object`. -/
inductive Object where
  | string (svalue : ℕ) (length : ℤ)
  | number (value : ℤ)
  | port (p : ℕ)
  | ff (function : ℕ)
  | cons (car cdr : ℕ)
  | cptr (p : ℕ)
  deriving DecidableEq, Repr

/-- `struct cell`; a pointer to a cell is its index. -/
structure Cell where
  flag : ℕ
  colour : Bool
  listColour : ℕ
  size : ℕ
  debugger : ℕ
  cw : ℕ
  ccw : ℕ
  object : Object
  deriving DecidableEq, Repr

def Cell.type (c : Cell) : ℕ := c.flag % 32

def isString (c : Cell) : Bool := c.type == 1

def isPort (c : Cell) : Bool := c.type == 10

def isVector (c : Cell) : Bool := c.type == 11

def isPromise (c : Cell) : Bool := c.type == 13

/-- The storage that a string or a vector owns. -/
def Cell.storage (c : Cell) : Option ℕ :=
  match c.object with
  | .string svalue _ => if isString c then some svalue else none
  | .cptr p => if isVector c then some p else none
  | _ => none

/-- `finalize_cell`: what is freed, and the cell after it. -/
def finalizeCell (c : Cell) : Option ℕ × Cell :=
  match c.object with
  | .cptr p => if isVector c then (some p, { c with object := .cptr 0 }) else (none, c)
  | .string svalue _ => (if isString c then some svalue else none, c)
  | .port p => (if isPort c then some p else none, c)
  | _ => (none, c)

/-- The opcodes of this file and all others. -/
inductive Opcode where
  | force
  | saveForced
  | apply
  | other (n : ℕ)
  deriving DecidableEq, Repr

/-- A frame of the dump stack. -/
structure Frame where
  op : Opcode
  args : ℕ
  envir : ℕ
  code : ℕ
  deriving DecidableEq, Repr

/-- The registers and the heap. There is no next opcode when the last frame is gone; `sc->NIL` is
the cell `0`. -/
structure State where
  cells : ℕ → Cell
  op : Option Opcode
  args : ℕ
  envir : ℕ
  code : ℕ
  value : ℕ
  dump : List Frame

def sSave (s : State) (op : Opcode) (args code : ℕ) : State :=
  { s with dump := ⟨op, args, s.envir, code⟩ :: s.dump }

def sReturn (s : State) (a : ℕ) : State :=
  match s.dump with
  | [] => { s with value := a, op := none }
  | f :: fs =>
    { s with value := a, op := some f.op, args := f.args, envir := f.envir, code := f.code,
             dump := fs }

/-- `OP_FORCE`. The dispatch table lets it through with one argument only. -/
def force (s : State) : Option State :=
  match (s.cells s.args).object with
  | .cons p _ =>
    let s := { s with code := p }
    if isPromise (s.cells p) then
      let s := sSave s .saveForced 0 s.code
      some { s with args := 0, op := some .apply }
    else some (sReturn s s.code)
  | _ => none

/-- `OP_SAVE_FORCED`, with the `memcpy` of the whole cell. -/
def saveForced (s : State) : State :=
  let s := { s with cells := Function.update s.cells s.code (s.cells s.value) }
  sReturn s s.value

/-- A turn of the evaluation loop. All that other opcodes do is `elsewhere`. -/
inductive Step (elsewhere : State → State → Prop) : State → State → Prop
  | force {s s' : State} (hop : s.op = some .force) (h : force s = some s') :
      Step elsewhere s s'
  | saveForced {s : State} (hop : s.op = some .saveForced) : Step elsewhere s (saveForced s)
  | elsewhere {s s' : State} (hforce : s.op ≠ some .force) (hsave : s.op ≠ some .saveForced)
      (h : elsewhere s s') : Step elsewhere s s'

/-- The links of all cells. -/
def links (cells : ℕ → Cell) : Links ℕ where
  cw p := (cells p).cw
  ccw p := (cells p).ccw

/-- The cells `xs` are on one ring, each of them once, and own their storage alone. -/
structure Sound (xs : List ℕ) (cells : ℕ → Cell) : Prop where
  ring : ∃ ys : List ℕ, ys.Perm xs ∧ Ring (links cells) ys
  owner : ∀ a ∈ xs, ∀ b ∈ xs, ∀ q, (cells a).storage = some q → (cells b).storage = some q → a = b

/-- The cells have the same type and the same contents. -/
def SameValue (c d : Cell) : Prop := c.flag = d.flag ∧ c.object = d.object

/-- The promise `p` is forced in `s₀`, and in `s` its body has come back with the value `v`. -/
structure Forced (elsewhere : State → State → Prop) (p v : ℕ) (s₀ s : State) : Prop where
  op : s₀.op = some .force
  args : ∃ d, (s₀.cells s₀.args).object = .cons p d
  promise : isPromise (s₀.cells p) = true
  run : ∃ s₁, force s₀ = some s₁ ∧ ReflTransGen (Step elsewhere) s₁ s
  back : s.op = some .saveForced
  code : s.code = p
  value : s.value = v
  dump : s.dump = s₀.dump

/-- Forcing `p` again, whatever else has been done, returns at once what `v` is here. -/
def Memoised (p v : ℕ) (cells : ℕ → Cell) : Prop :=
  ∀ (t : State) (d : ℕ), t.op = some .force → (t.cells t.args).object = .cons p d →
    SameValue (t.cells p) (cells p) →
      ∃ r, force t = some (sReturn { t with code := r } r) ∧ SameValue (t.cells r) (cells v)

/-- `OP_SAVE_FORCED` returns `v`, the promise `p` is memoised, and the heap is sound. -/
structure Memoises (xs : List ℕ) (p v : ℕ) (s : State) : Prop where
  returned : (saveForced s).value = v
  memoised : Memoised p v (saveForced s).cells
  sound : Sound xs (saveForced s).cells

variable {xs : List ℕ} {p v : ℕ} {s s₀ : State} {cells : ℕ → Cell}

@[simp] theorem sReturn_cells (s : State) (a : ℕ) : (sReturn s a).cells = s.cells := by
  rw [sReturn]
  cases s.dump <;> rfl

@[simp] theorem sReturn_value (s : State) (a : ℕ) : (sReturn s a).value = a := by
  rw [sReturn]
  cases s.dump <;> rfl

@[simp] theorem saveForced_cells (s : State) :
    (saveForced s).cells = Function.update s.cells s.code (s.cells s.value) := sReturn_cells _ _

@[simp] theorem saveForced_value (s : State) : (saveForced s).value = s.value := sReturn_value _ _

theorem Sound.cw_inj (h : Sound xs cells) {a b : ℕ} (ha : a ∈ xs) (hb : b ∈ xs)
    (hab : (cells a).cw = (cells b).cw) : a = b := by
  rcases h.ring with ⟨ys, hperm, hring⟩
  have hca : (cells (cells a).cw).ccw = a := hring.ccw_cw (hperm.mem_iff.mpr ha)
  have hcb : (cells (cells b).cw).ccw = b := hring.ccw_cw (hperm.mem_iff.mpr hb)
  rw [← hca, ← hcb, hab]

/-- Two cells with one clockwise neighbour are not on a ring. -/
theorem not_sound_copy (hp : p ∈ xs) (hv : v ∈ xs) (hne : v ≠ p) :
    ¬ Sound xs (Function.update cells p (cells v)) := by
  intro h
  have hcw : (Function.update cells p (cells v) p).cw =
      (Function.update cells p (cells v) v).cw := by
    rw [Function.update_self, Function.update_of_ne hne]
  exact hne (h.cw_inj hp hv hcw).symm

/-- A cell that is no promise is returned as it is. -/
theorem memoised_self (h : isPromise (cells p) = false) : Memoised p p cells := by
  intro t d _ hargs hsame
  have htype : isPromise (t.cells p) = false := by
    rw [isPromise, Cell.type, hsame.1]
    exact h
  refine ⟨p, ?_, hsame⟩
  simp only [force, hargs]
  rw [if_neg (by rw [htype]; exact Bool.false_ne_true)]

/-- A promise is not returned when it is forced: its body is evaluated. -/
theorem not_memoised_of_promise (h : isPromise (cells p) = true) : ¬ Memoised p v cells := by
  intro hmem
  let arg : Cell := { cells p with object := .cons p 0 }
  let t : State :=
    { cells := Function.update (fun _ => cells p) (p + 1) arg
      op := some .force, args := p + 1, envir := 0, code := 0, value := 0, dump := [] }
  have hp : t.cells p = cells p := Function.update_of_ne (Nat.succ_ne_self p).symm _ _
  have hargs : (t.cells t.args).object = .cons p 0 := by
    show (Function.update (fun _ => cells p) (p + 1) arg (p + 1)).object = _
    rw [Function.update_self]
  rcases hmem t 0 rfl hargs ⟨by rw [hp], by rw [hp]⟩ with ⟨r, hr, -⟩
  simp only [force, hargs] at hr
  rw [if_pos (by rw [hp]; exact h)] at hr
  -- the machine goes on to apply the promise, a return has nothing to go on with
  have hop := congrArg State.op (Option.some.inj hr)
  cases hop

/-- Forcing a promise does what it should only where there was nothing left to do: the body has
returned the promise itself, which has been forced while it ran, and the heap is sound. -/
theorem memoises_iff {elsewhere : State → State → Prop} (h : Forced elsewhere p v s₀ s)
    (hp : p ∈ xs) (hv : v ∈ xs) :
    Memoises xs p v s ↔ v = p ∧ isPromise (s.cells p) = false ∧ Sound xs s.cells := by
  have hcells : (saveForced s).cells = Function.update s.cells p (s.cells v) := by
    rw [saveForced_cells, h.code, h.value]
  constructor
  · intro hmem
    have hsound := hmem.sound
    rw [hcells] at hsound
    have hvp : v = p := by
      by_contra hne
      exact not_sound_copy hp hv hne hsound
    subst hvp
    rw [Function.update_eq_self] at hsound hcells
    refine ⟨rfl, ?_, hsound⟩
    cases hpromise : isPromise (s.cells v) with
    | false => rfl
    | true =>
      have hmemoised := hmem.memoised
      rw [hcells] at hmemoised
      exact absurd hmemoised (not_memoised_of_promise hpromise)
  · rintro ⟨rfl, hpromise, hsound⟩
    rw [Function.update_eq_self] at hcells
    refine ⟨by rw [saveForced_value, h.value], ?_, ?_⟩
    · rw [hcells]
      exact memoised_self hpromise
    · rw [hcells]
      exact hsound

/-- `NIL`, a promise, a string and the argument list of `force`, in this order on the ring. -/
def fourCells (c : ℕ) : Cell :=
  let place : Cell :=
    { flag := 5, colour := true, listColour := 3, size := 0, debugger := 0
      cw := if c = 3 then 0 else c + 1, ccw := if c = 0 then 3 else c - 1, object := .cons 0 0 }
  if c = 1 then { place with flag := 13 }
  else if c = 2 then { place with flag := 1, object := .string 4096 1 }
  else if c = 3 then { place with object := .cons 1 0 }
  else place

/-- `force` is called with the promise, and the machine has nothing to do after it. -/
def forcing : State :=
  { cells := fourCells, op := some .force, args := 3, envir := 0, code := 0, value := 0,
    dump := [] }

/-- The string has been returned to the frame of `OP_SAVE_FORCED`. -/
def forced : State :=
  { forcing with op := some .saveForced, args := 0, code := 1, value := 2 }

/-- The body of the promise is the string. -/
def body (s s' : State) : Prop := s.op = some .apply ∧ s' = sReturn s 2

theorem forced_forcing : Forced body 1 2 forcing forced where
  op := rfl
  args := ⟨0, rfl⟩
  promise := rfl
  run := ⟨_, rfl, .single (.elsewhere (fun h => by cases h) (fun h => by cases h) ⟨rfl, rfl⟩)⟩
  back := rfl
  code := rfl
  value := rfl
  dump := rfl

/-- The four cells are on one ring, and only the string has storage. -/
theorem sound_fourCells : Sound [0, 1, 2, 3] fourCells where
  ring := by
    refine ⟨[0, 1, 2, 3], .refl _, Ring.of_isChain (by decide) ?_⟩
    refine .cons_cons ⟨rfl, rfl⟩ <| .cons_cons ⟨rfl, rfl⟩ <| .cons_cons ⟨rfl, rfl⟩ <|
      .cons_cons ⟨rfl, rfl⟩ (.singleton _)
  owner := by
    have howner (a : ℕ) (q : ℕ) (h : (fourCells a).storage = some q) : a = 2 := by
      by_contra hne
      have hnone : (fourCells a).storage = none := by
        simp only [fourCells, if_neg hne]
        split_ifs <;> rfl
      rw [hnone] at h
      cases h
    intro a _ b _ q ha hb
    rw [howner a q ha, howner b q hb]

theorem memoises_iff_four :
    Memoises [0, 1, 2, 3] 1 2 forced ↔
      2 = 1 ∧ isPromise (forced.cells 1) = false ∧ Sound [0, 1, 2, 3] forced.cells :=
  memoises_iff forced_forcing (by decide) (by decide)

/-- A sound heap, before the promise is forced and when its body has returned, does not
suffice. -/
theorem not_memoises_of_sound :
    ¬ ∀ (elsewhere : State → State → Prop) (xs : List ℕ) (p v : ℕ) (s₀ s : State),
      Forced elsewhere p v s₀ s → p ∈ xs → v ∈ xs → Sound xs s₀.cells → Sound xs s.cells →
        Memoises xs p v s := by
  intro h
  have hmem := h body [0, 1, 2, 3] 1 2 forcing forced forced_forcing (by decide) (by decide)
    sound_fourCells sound_fourCells
  have hsound := hmem.sound
  rw [saveForced_cells] at hsound
  exact not_sound_copy (by decide) (by decide) (by decide) hsound

/-! ## What the collector makes of it -/

theorem finalizeCell_of_storage {c : Cell} {q : ℕ} (h : c.storage = some q) :
    (finalizeCell c).1 = some q := by
  rw [Cell.storage] at h
  rw [finalizeCell]
  cases hobject : c.object with
  | string svalue length =>
    rw [hobject] at h
    exact h
  | cptr q' =>
    rw [hobject] at h
    cases hvector : isVector c with
    | false => simp [hvector] at h
    | true => simpa [hvector] using h
  | number _ | port _ | ff _ | cons _ _ =>
    rw [hobject] at h
    cases h

/-- When a promise had a string or a vector as its value, finalising both cells frees the storage
twice. -/
theorem freed_twice {elsewhere : State → State → Prop} {q : ℕ} (h : Forced elsewhere p v s₀ s)
    (hne : v ≠ p) (hq : (s.cells v).storage = some q) :
    (finalizeCell ((saveForced s).cells p)).1 = some q ∧
      (finalizeCell ((saveForced s).cells v)).1 = some q := by
  rw [saveForced_cells, h.code, h.value, Function.update_self, Function.update_of_ne hne]
  exact ⟨finalizeCell_of_storage hq, finalizeCell_of_storage hq⟩

/-- When the promise is shaded, it is `v` that is taken out of the ring: no cell has `v` as its
clockwise neighbour any more. -/
theorem value_lost {elsewhere : State → State → Prop} {a c : ℕ} (h : Forced elsewhere p v s₀ s)
    (hsound : Sound xs s.cells) (hp : p ∈ xs) (hv : v ∈ xs) (ha : a ∈ xs) (hc : c ∈ xs)
    (hne : v ≠ p) (hap : a ≠ p) :
    ((links (saveForced s).cells).moveAfter p a).cw c ≠ v := by
  rcases hsound.ring with ⟨ys, hperm, hring⟩
  have hmem {b : ℕ} (hb : b ∈ xs) : b ∈ ys := hperm.mem_iff.mpr hb
  -- only `x` had `v` as its clockwise neighbour
  obtain ⟨x, hx⟩ : ∃ x, (s.cells v).ccw = x := ⟨_, rfl⟩
  have honly {b : ℕ} (hb : b ∈ xs) (hbv : (s.cells b).cw = v) : b = x := by
    have hccw : (s.cells (s.cells b).cw).ccw = b := hring.ccw_cw (hmem hb)
    rw [hbv, hx] at hccw
    exact hccw.symm
  have hnext : (s.cells v).cw ≠ v := hring.cw_ne (hmem hp) (hmem hv) hne.symm
  have hcells : (saveForced s).cells = Function.update s.cells p (s.cells v) := by
    rw [saveForced_cells, h.code, h.value]
  have hunlinked {b : ℕ} (hb : b ∈ xs) (hbp : b ≠ p) :
      ((links (saveForced s).cells).unlink p).cw b ≠ v := by
    simp only [Links.unlink, links, hcells, Function.update_self, hx]
    by_cases hbx : b = x
    · rw [hbx, Function.update_self]
      exact hnext
    · rw [Function.update_of_ne hbx, Function.update_of_ne hbp]
      exact fun hbv => hbx (honly hb hbv)
  simp only [Links.moveAfter, Links.linkAfter]
  by_cases hca : c = a
  · rw [hca, Function.update_self]
    exact hne.symm
  · rw [Function.update_of_ne hca]
    by_cases hcp : c = p
    · rw [hcp, Function.update_self]
      exact hunlinked ha hap
    · rw [Function.update_of_ne hcp]
      exact hunlinked hc hcp

end Extempore.Promises
