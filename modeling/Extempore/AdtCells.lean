import Mathlib.Algebra.Order.Ring.Int
import Extempore.SinglyLinkedCells

/-!
# The cells of the singly linked lists

The functions of `libs/core/adt.xtm` that change cells, or whose result depends on where cells are
allocated. A list is a pointer into a memory of cells, null being `none`; a cell is tagged with the
place it was allocated in, the current zone (`alloc`) or the heap (`halloc`). Reading or storing
through the null pointer is a failure of the whole call.
-/

namespace Extempore.AdtCells

open SinglyLinkedCells

inductive Origin
  | zone
  | heap
  deriving DecidableEq, Repr

variable {α : Type}

abbrev ListMemory (α : Type) := Memory (Cell Origin α)

def alloc (origin : Origin) (m : ListMemory α) (x : α) (y : Option ℕ) : ListMemory α × Option ℕ :=
  (m.alloc ⟨x, y, origin⟩, some m.bound)

def cons (m : ListMemory α) (x : α) (y : Option ℕ) : ListMemory α × Option ℕ := alloc .zone m x y

def consH (m : ListMemory α) (x : α) (y : Option ℕ) : ListMemory α × Option ℕ := alloc .heap m x y

def car (m : ListMemory α) (a : Option ℕ) : Option α := (m.read a).map Cell.value

def cdr (m : ListMemory α) (a : Option ℕ) : Option (Option ℕ) := (m.read a).map Cell.next

/-- `(tset! a 1 val)` -/
def setCdr (m : ListMemory α) (a val : Option ℕ) : Option (ListMemory α) :=
  m.modify a fun c => { c with next := val }

/-- `nth_tail` with the number of steps that are left. -/
def nthTailFrom (m : ListMemory α) : ℕ → Option ℕ → Option (Option ℕ)
  | 0, lst => some lst
  | _ + 1, none => some none
  | n + 1, some a => (cdr m (some a)).bind (nthTailFrom m n)

/-- A negative index is one of 0. -/
def nthTail (m : ListMemory α) (lst : Option ℕ) (idx : ℤ) : Option (Option ℕ) :=
  nthTailFrom m idx.toNat lst

def insert (m : ListMemory α) (lst : Option ℕ) (idx : ℤ) (value : α) :
    Option (ListMemory α × Option ℕ) :=
  if idx = 0 then some (cons m value lst)
  else do
    let preCell ← nthTail m lst (idx - 1)
    let rest ← cdr m preCell
    let newCell := cons m value rest
    let m ← setCdr newCell.1 preCell newCell.2
    some (m, lst)

def delete (m : ListMemory α) (lst : Option ℕ) (idx : ℤ) : Option (ListMemory α × α) := do
  let preCell ← nthTail m lst (idx - 1)
  let cell ← cdr m preCell
  let postCell ← cdr m cell
  let m ← setCdr m preCell postCell
  let x ← car m cell
  some (m, x)

/-- The loop that `reverse_inline`, `copy` and `copy_h` share: the elements of one list are put in
front of another one, in new cells of one origin. The fuel bounds the cells visited. -/
def pushLoop (origin : Origin) :
    ℕ → ListMemory α → Option ℕ → Option ℕ → Option (ListMemory α × Option ℕ)
  | 0, _, _, _ => none
  | _ + 1, m, none, new => some (m, new)
  | fuel + 1, m, some a, new => do
    let x ← car m (some a)
    let rest ← cdr m (some a)
    let pushed := alloc origin m x new
    pushLoop origin fuel pushed.1 rest pushed.2

def reverseInline (fuel : ℕ) (m : ListMemory α) (old new : Option ℕ) :
    Option (ListMemory α × Option ℕ) :=
  pushLoop .zone fuel m old new

def reverse (fuel : ℕ) (m : ListMemory α) (lst : Option ℕ) : Option (ListMemory α × Option ℕ) :=
  reverseInline fuel m lst none

def copy (fuel : ℕ) (m : ListMemory α) (lst : Option ℕ) : Option (ListMemory α × Option ℕ) := do
  let cpy ← pushLoop .zone fuel m lst none
  reverse fuel cpy.1 cpy.2

def copyH (fuel : ℕ) (m : ListMemory α) (lst : Option ℕ) : Option (ListMemory α × Option ℕ) := do
  let cpy ← pushLoop .heap fuel m lst none
  reverse fuel cpy.1 cpy.2

/-- `(list x ...)` in a memory without cells. -/
def list : List α → ListMemory α × Option ℕ
  | [] => (⟨fun _ => none, 0, fun _ _ => rfl⟩, none)
  | x :: xs => cons (list xs).1 x (list xs).2

/-- The pointer leads to a list with these elements. -/
def Holds (m : ListMemory α) (p : Option ℕ) (xs : List α) : Prop :=
  ∃ l, Segment m.cells p l none ∧ l.map Prod.snd = xs

variable {m : ListMemory α} {p q lst : Option ℕ} {l front back : List (ℕ × α)} {a b : ℕ}
  {c d : Cell Origin α} {x v : α} {xs ys : List α} {idx : ℤ} {i fuel : ℕ}

theorem Holds.unique (h : Holds m p xs) (h' : Holds m p ys) : xs = ys := by
  rcases h with ⟨l, hl, rfl⟩
  rcases h' with ⟨l', hl', rfl⟩
  rw [hl.unique hl']

theorem length_values (l : List (ℕ × α)) : (l.map Prod.snd).length = l.length :=
  List.length_map _

theorem holds_list (xs : List α) : Holds (list xs).1 (list xs).2 xs := by
  induction xs with
  | nil => exact ⟨[], rfl, rfl⟩
  | cons x xs ih =>
    rcases ih with ⟨l, hl, hvalues⟩
    exact ⟨((list xs).1.bound, x) :: l, hl.cons (c := ⟨x, (list xs).2, Origin.zone⟩) rfl,
      congrArg (List.cons x) hvalues⟩

theorem cdr_of_cell (h : m.cells a = some c) : cdr m (some a) = some c.next := by
  rw [cdr, Memory.read_some, h]
  rfl

theorem car_of_cell (h : m.cells a = some c) : car m (some a) = some c.value := by
  rw [car, Memory.read_some, h]
  rfl

theorem setCdr_of_cell (h : m.cells a = some c) (val : Option ℕ) :
    setCdr m (some a) val = some (m.store a { c with next := val } (Memory.lt_bound h)) :=
  Memory.modify_of_eq_some h

/-! ## Editing at a position -/

theorem nthTailFrom_segment (h : Segment m.cells lst (front ++ back) none) :
    ∃ p, nthTailFrom m front.length lst = some p ∧ Segment m.cells lst front p ∧
      Segment m.cells p back none := by
  induction front generalizing lst with
  | nil => exact ⟨lst, rfl, rfl, h⟩
  | cons ax front ih =>
    rcases h with ⟨rfl, c, hc, hx, hrest⟩
    rcases ih hrest with ⟨p, hp, hfront, hback⟩
    refine ⟨p, ?_, ⟨rfl, c, hc, hx, hfront⟩, hback⟩
    rw [List.length_cons, nthTailFrom, cdr_of_cell hc]
    exact hp

theorem nodup_fst (h : Segment m.cells lst (front ++ (a, x) :: back) none) :
    a ∉ front.map Prod.fst ∧ a ∉ back.map Prod.fst := by
  have hnodup := h.nodup
  rw [List.map_append, List.nodup_append, List.map_cons, List.nodup_cons] at hnodup
  exact ⟨fun hmem => hnodup.2.2 a hmem a List.mem_cons_self rfl, hnodup.2.1.1⟩

theorem delete_segment (h : Segment m.cells lst (front ++ (a, x) :: (b, v) :: back) none)
    (hidx : (idx - 1).toNat = front.length) :
    ∃ m', delete m lst idx = some (m', v) ∧
      Segment m'.cells lst (front ++ (a, x) :: back) none := by
  rcases nodup_fst h with ⟨hfst, hrest⟩
  rw [List.map_cons, List.mem_cons, not_or] at hrest
  rcases nthTailFrom_segment h with ⟨p, hp, hfront, rfl, c, hc, rfl, hb, d, hd, rfl, hback⟩
  refine ⟨m.store a { c with next := d.next } (Memory.lt_bound hc), ?_,
    hfront.relink (c := { c with next := d.next }) hback hfst hrest.2 _⟩
  have hcar : (m.store a { c with next := d.next } (Memory.lt_bound hc)).cells b = some d := by
    rw [Memory.store_of_ne _ (Ne.symm hrest.1), hd]
  simp only [delete, nthTail, hidx, hp, Option.bind_eq_bind, Option.bind_some, cdr_of_cell hc, hb,
    cdr_of_cell hd, setCdr_of_cell hc, car_of_cell hcar]

/-- There is no cell to be taken out behind the last one. -/
theorem delete_last (h : Segment m.cells lst l none) (hidx : (idx - 1).toNat + 1 = l.length) :
    delete m lst idx = none := by
  have hsplit : l = l.take (idx - 1).toNat ++ l.drop (idx - 1).toNat :=
    (List.take_append_drop _ l).symm
  have hlen : (l.take (idx - 1).toNat).length = (idx - 1).toNat :=
    List.length_take_of_le (by omega)
  rw [hsplit] at h
  rcases nthTailFrom_segment h with ⟨p, hp, -, hback⟩
  rw [hlen] at hp
  have hone : (l.drop (idx - 1).toNat).length = 1 := by
    rw [List.length_drop]
    omega
  rcases List.length_eq_one_iff.mp hone with ⟨ax, hax⟩
  rw [hax] at hback
  rcases hback with ⟨rfl, c, hc, -, hnext⟩
  simp only [delete, nthTail, hp, Option.bind_eq_bind, Option.bind_some, cdr_of_cell hc]
  rw [show c.next = none from hnext]
  rfl

theorem insert_segment (h : Segment m.cells lst (front ++ (a, x) :: back) none)
    (hidx : (idx - 1).toNat = front.length) (hne : idx ≠ 0) (v : α) :
    ∃ m', insert m lst idx v = some (m', lst) ∧
      Segment m'.cells lst (front ++ (a, x) :: (m.bound, v) :: back) none := by
  rcases nodup_fst h with ⟨hfst, hrest⟩
  rcases nthTailFrom_segment h with ⟨p, hp, hfront, rfl, c, hc, rfl, hback⟩
  have hnew := hback.cons (c := ⟨v, c.next, Origin.zone⟩) rfl
  have hpre := Memory.alloc_of_eq_some (c := ⟨v, c.next, Origin.zone⟩) hc
  have hout : a ∉ ((m.bound, v) :: back).map Prod.fst := by
    rw [List.map_cons, List.mem_cons, not_or]
    exact ⟨Nat.ne_of_lt (Memory.lt_bound hc), hrest⟩
  refine ⟨_, ?_, (hfront.alloc ⟨v, c.next, .zone⟩).relink
    (c := { c with next := some m.bound }) hnew hfst hout (Memory.lt_bound hpre)⟩
  simp only [insert, if_neg hne, nthTail, hidx, hp, Option.bind_eq_bind, Option.bind_some,
    cdr_of_cell hc, cons, alloc, setCdr_of_cell hpre]

/-- Index 0 is taken for index 1. -/
theorem delete_zero (m : ListMemory α) (lst : Option ℕ) : delete m lst 0 = delete m lst 1 := rfl

theorem exists_split {β : Type} {l : List β} {k : ℕ} (h : k < l.length) :
    ∃ front b back, l = front ++ b :: back ∧ front.length = k := by
  refine ⟨l.take k, l[k], l.drop (k + 1), ?_, List.length_take_of_le (by omega)⟩
  rw [← List.drop_eq_getElem_cons h, List.take_append_drop]

theorem delete_holds (h : Holds m lst xs) (hpos : 1 ≤ i) (hi : i < xs.length) :
    ∃ m' x, delete m lst i = some (m', x) ∧ xs[i]? = some x ∧ Holds m' lst (xs.eraseIdx i) := by
  rcases h with ⟨l, hl, rfl⟩
  rw [List.length_map] at hi
  rcases exists_split (show i - 1 < l.length by omega) with ⟨front, ax, rest, rfl, hfront⟩
  rw [List.length_append, List.length_cons] at hi
  cases rest with
  | nil =>
    rw [List.length_nil] at hi
    omega
  | cons bv back =>
    have hidx : ((i : ℤ) - 1).toNat = front.length := by omega
    rcases delete_segment hl hidx with ⟨m', hm', hl'⟩
    have hsucc : i - front.length = 1 := by omega
    refine ⟨m', bv.2, hm', ?_, front ++ ax :: back, hl', ?_⟩
    · rw [List.map_append, List.getElem?_append_right (by rw [List.length_map]; omega),
        List.length_map, hsucc]
      rfl
    · rw [List.map_append, List.map_append,
        List.eraseIdx_append_of_length_le (by rw [List.length_map]; omega), List.length_map, hsucc]
      rfl

theorem insertIdx_behind {β : Type} (front back : List β) (x v : β) :
    (front ++ x :: back).insertIdx (front.length + 1) v = front ++ x :: v :: back := by
  induction front with
  | nil => rfl
  | cons y front ih => exact congrArg (List.cons y) ih

theorem insert_holds (h : Holds m lst xs) (hi : i ≤ xs.length) (v : α) :
    ∃ m' lst', insert m lst i v = some (m', lst') ∧ Holds m' lst' (xs.insertIdx i v) := by
  rcases h with ⟨l, hl, rfl⟩
  rw [List.length_map] at hi
  by_cases hzero : i = 0
  · subst hzero
    exact ⟨_, _, rfl, (m.bound, v) :: l, hl.cons (c := ⟨v, lst, .zone⟩) rfl, rfl⟩
  · rcases exists_split (show i - 1 < l.length by omega) with ⟨front, ax, back, rfl, hfront⟩
    have hidx : ((i : ℤ) - 1).toNat = front.length := by omega
    rcases insert_segment hl hidx (by omega) v with ⟨m', hm', hl'⟩
    refine ⟨m', lst, hm', _, hl', ?_⟩
    have hsucc : i = front.length + 1 := by omega
    rw [hsucc, ← length_values front, List.map_append, List.map_append]
    exact (insertIdx_behind (front.map Prod.snd) (back.map Prod.snd) ax.2 v).symm

/-- What the claim says about editing a list at one position. -/
structure EditsAt (m : ListMemory α) (lst : Option ℕ) (xs : List α) (i : ℕ) (v : α) : Prop where
  delete : i < xs.length → ∃ m' x, delete m lst i = some (m', x) ∧ xs[i]? = some x ∧
    (1 < xs.length → Holds m' lst (xs.eraseIdx i))
  insert : ∃ m' lst', insert m lst i v = some (m', lst') ∧ Holds m' lst' (xs.insertIdx i v) ∧
    ∃ m'' x, AdtCells.delete m' lst' i = some (m'', x) ∧ Holds m'' lst' xs

theorem editsAt_of_pos (h : Holds m lst xs) (hpos : 1 ≤ i) (hi : i ≤ xs.length) :
    EditsAt m lst xs i v where
  delete := by
    intro hlt
    rcases delete_holds h hpos hlt with ⟨m', x, hdel, hx, hm'⟩
    exact ⟨m', x, hdel, hx, fun _ => hm'⟩
  insert := by
    rcases insert_holds h hi v with ⟨m', lst', hins, hm'⟩
    have hlen : i < (xs.insertIdx i v).length := by
      rw [List.length_insertIdx_of_le_length hi]
      omega
    rcases delete_holds hm' hpos hlen with ⟨m'', x, hdel, -, hm''⟩
    rw [List.eraseIdx_insertIdx_self] at hm''
    exact ⟨m', lst', hins, hm', m'', x, hdel, hm''⟩

/-- Deleting at 0: the element behind the first one is taken out. -/
theorem delete_zero_holds (h : Holds m lst xs) :
    (xs.length ≤ 1 → delete m lst 0 = none) ∧
      ∀ x y rest, xs = x :: y :: rest →
        ∃ m', delete m lst 0 = some (m', y) ∧ Holds m' lst (x :: rest) := by
  rw [delete_zero]
  constructor
  · intro hle
    rcases h with ⟨l, hl, rfl⟩
    rw [List.length_map] at hle
    cases l with
    | nil =>
      rw [show lst = none from hl]
      rfl
    | cons ax l =>
      rw [List.length_cons] at hle
      exact delete_last hl (by rw [List.length_cons]; omega)
  · intro x y rest hxs
    rcases delete_holds (i := 1) h (Nat.le_refl 1) (by rw [hxs]; simp) with ⟨m', z, hdel, hz, hm'⟩
    rw [hxs] at hz hm'
    cases hz
    exact ⟨m', hdel, hm'⟩

theorem not_one_le_iff_zero {k : ℕ} : ¬ 1 ≤ k ↔ k = 0 := by
  omega

/-- Editing at a position other than the first one is exact. At the first one `delete` takes out the
next element, which is right only where that is the same. -/
theorem editsAt_iff (h : Holds m lst xs) (hi : i ≤ xs.length) :
    EditsAt m lst xs i v ↔ 1 ≤ i ∨ (xs[0]? = some v ∧ xs[1]? = some v) := by
  constructor
  · intro hedits
    by_cases hpos : 1 ≤ i
    · exact Or.inl hpos
    · rw [not_one_le_iff_zero] at hpos
      subst hpos
      rcases hedits.insert with ⟨m', lst', -, hm', m'', x, hdel, hm''⟩
      match xs, hm', hm'', hedits.delete with
      | [], hm', _, _ =>
        cases ((delete_zero_holds hm').1 (Nat.le_refl 1)).symm.trans hdel
      | [y], _, _, hdelete =>
        rcases hdelete Nat.zero_lt_one with ⟨m₁, z, hz, -⟩
        cases ((delete_zero_holds h).1 (Nat.le_refl 1)).symm.trans hz
      | y :: z :: rest, hm', hm'', hdelete =>
        rcases hdelete (by simp) with ⟨m₁, w, hw, hfirst, -⟩
        rcases (delete_zero_holds h).2 y z rest rfl with ⟨m₂, hm₂, -⟩
        rcases (delete_zero_holds hm').2 v y (z :: rest) rfl with ⟨m₃, hm₃, hback⟩
        cases hm₂.symm.trans hw
        cases hm₃.symm.trans hdel
        cases hback.unique hm''
        cases hfirst
        exact Or.inr ⟨rfl, rfl⟩
  · intro hcond
    rcases hcond with hpos | ⟨hzero, hone⟩
    · exact editsAt_of_pos h hpos hi
    · by_cases hpos : 1 ≤ i
      · exact editsAt_of_pos h hpos hi
      · rw [not_one_le_iff_zero] at hpos
        subst hpos
        match xs, hzero, hone with
        | y :: z :: rest, hzero, hone =>
          cases hzero
          cases hone
          constructor
          · intro _
            rcases (delete_zero_holds h).2 v v rest rfl with ⟨m', hdel, hm'⟩
            exact ⟨m', v, hdel, rfl, fun _ => hm'⟩
          · rcases insert_holds h (Nat.zero_le _) v with ⟨m', lst', hins, hm'⟩
            rcases (delete_zero_holds hm').2 v v (v :: rest) rfl with ⟨m'', hdel, hm''⟩
            exact ⟨m', lst', hins, hm', m'', v, hdel, hm''⟩

theorem editsAt_one_of_three :
    (1 ≤ [1, 2, 3].length) ∧ (EditsAt (list [1, 2, 3]).1 (list [1, 2, 3]).2 [1, 2, 3] 1 7 ↔
      1 ≤ 1 ∨ ([1, 2, 3][0]? = some 7 ∧ [1, 2, 3][1]? = some 7)) :=
  ⟨by decide, editsAt_iff (holds_list [1, 2, 3]) (by decide)⟩

/-- Deleting the first element of a list of two takes out the second one. -/
theorem not_editsAt_zero : ¬ EditsAt (list [1, 2]).1 (list [1, 2]).2 [1, 2] 0 7 := by
  intro hedits
  rcases hedits.delete (by decide) with ⟨m', x, hdel, hx, -⟩
  rcases (delete_zero_holds (holds_list [1, 2])).2 1 2 [] rfl with ⟨m₁, hm₁, -⟩
  cases hm₁.symm.trans hdel
  cases hx

/-! ## Copies on the heap -/

/-- What a loop that puts elements in front of a list establishes: new cells of one origin with the
elements in reverse order, and all earlier cells as they were. -/
structure Pushed (origin : Origin) (m m' : ListMemory α) (p q : Option ℕ) (xs : List α)
    (l : List (ℕ × α)) : Prop where
  segment : Segment m'.cells p l q
  values : l.map Prod.snd = xs.reverse
  new : ∀ ax ∈ l, m.bound ≤ ax.1
  origin : ∀ ax ∈ l, ∃ c, m'.cells ax.1 = some c ∧ c.tag = origin
  same : ∀ a < m.bound, m'.cells a = m.cells a
  bound : m.bound ≤ m'.bound

theorem Pushed.snoc {origin : Origin} {m m' : ListMemory α}
    (h : Pushed origin (alloc origin m x q).1 m' p (some m.bound) xs l) :
    Pushed origin m m' p q (x :: xs) (l ++ [(m.bound, x)]) := by
  have hcell : m'.cells m.bound = some ⟨x, q, origin⟩ := by
    rw [h.same m.bound (Nat.lt_succ_self m.bound)]
    exact Memory.alloc_self
  have hbound : (alloc origin m x q).1.bound = m.bound + 1 := rfl
  constructor
  · exact Segment.append_iff.mpr ⟨some m.bound, h.segment, rfl, _, hcell, rfl, rfl⟩
  · rw [List.map_append, h.values, List.reverse_cons]
    rfl
  · intro ax hax
    cases List.mem_append.mp hax with
    | inl hmem =>
      have hnew := h.new ax hmem
      omega
    | inr hmem =>
      rw [List.mem_singleton.mp hmem]
  · intro ax hax
    cases List.mem_append.mp hax with
    | inl hmem => exact h.origin ax hmem
    | inr hmem =>
      rw [List.mem_singleton.mp hmem]
      exact ⟨_, hcell, rfl⟩
  · intro a ha
    rw [h.same a (by omega)]
    exact Memory.alloc_of_lt ha
  · have hmono := h.bound
    omega

theorem pushLoop_spec (origin : Origin) (h : Segment m.cells p l none) (q : Option ℕ)
    (hfuel : l.length < fuel) :
    ∃ m' r l', pushLoop origin fuel m p q = some (m', r) ∧
      Pushed origin m m' r q (l.map Prod.snd) l' := by
  induction l generalizing fuel m p q with
  | nil =>
    rcases Nat.exists_eq_add_of_lt hfuel with ⟨k, rfl⟩
    rw [show p = none from h]
    exact ⟨m, q, [], rfl, rfl, rfl, by simp, by simp, fun _ _ => rfl, Nat.le_refl _⟩
  | cons ax l ih =>
    rcases h with ⟨rfl, c, hc, hx, hrest⟩
    cases fuel with
    | zero => exact absurd hfuel (Nat.not_lt_zero _)
    | succ fuel =>
      rw [List.length_cons] at hfuel
      have hrest' := hrest.alloc ⟨ax.2, q, origin⟩
      rcases ih hrest' (some m.bound) (Nat.lt_of_succ_lt_succ hfuel) with
        ⟨m', r, l', hloop, hpushed⟩
      refine ⟨m', r, l' ++ [(m.bound, ax.2)], ?_, hpushed.snoc⟩
      simp only [pushLoop, Option.bind_eq_bind, car_of_cell hc, cdr_of_cell hc, Option.bind_some, hx]
      exact hloop

/-- The result of `copy_h`: the same elements, in new cells of the current zone. -/
theorem copyH_spec (h : Segment m.cells lst l none) (hfuel : l.length < fuel) :
    ∃ m' p l', copyH fuel m lst = some (m', p) ∧ Segment m'.cells p l' none ∧
      l'.map Prod.snd = l.map Prod.snd ∧ (∀ ax ∈ l', m.bound ≤ ax.1) ∧
      ∀ ax ∈ l', ∃ c, m'.cells ax.1 = some c ∧ c.tag = .zone := by
  rcases pushLoop_spec .heap h none hfuel with ⟨m₁, p₁, l₁, hpush, hpushed₁⟩
  have hlen : l₁.length = l.length := by
    rw [← length_values l₁, hpushed₁.values, List.length_reverse,
      List.length_map]
  rcases pushLoop_spec .zone hpushed₁.segment none (hlen.trans_lt hfuel) with
    ⟨m', p, l', hreverse, hpushed⟩
  refine ⟨m', p, l', ?_, hpushed.segment, ?_, ?_, hpushed.origin⟩
  · simp only [copyH, hpush, Option.bind_eq_bind, Option.bind_some, reverse, reverseInline]
    exact hreverse
  · rw [hpushed.values, hpushed₁.values, List.reverse_reverse]
  · intro ax hax
    exact Nat.le_trans hpushed₁.bound (hpushed.new ax hax)

/-- A copy of the list `l` on the heap, without cells of the list. -/
def HeapCopy (l : List (ℕ × α)) (m' : ListMemory α) (p : Option ℕ) : Prop :=
  ∃ l', Segment m'.cells p l' none ∧ l'.map Prod.snd = l.map Prod.snd ∧
    (∀ ax ∈ l', ax.1 ∉ l.map Prod.fst) ∧ ∀ ax ∈ l', ∃ c, m'.cells ax.1 = some c ∧ c.tag = .heap

theorem nil_of_heapCopy (h : Segment m.cells lst l none) (hfuel : l.length < fuel)
    (hheap : ∃ m' p, copyH fuel m lst = some (m', p) ∧ HeapCopy l m' p) : l = [] := by
  rcases copyH_spec h hfuel with ⟨m', p, l', hcopy, hl', hvalues, -, hzone⟩
  rcases hheap with ⟨m₁, p₁, hcopy₁, l₁, hl₁, -, -, hall⟩
  cases hcopy.symm.trans hcopy₁
  cases hl'.unique hl₁
  cases l' with
  | nil => exact List.map_eq_nil_iff.mp hvalues.symm
  | cons ax l' =>
    rcases hzone ax List.mem_cons_self with ⟨c, hc, hz⟩
    rcases hall ax List.mem_cons_self with ⟨c', hc', hh⟩
    cases hc.symm.trans hc'
    cases hz.symm.trans hh

/-- `reverse` takes the cells of its result from the current zone, so only the empty list is copied
to the heap. -/
theorem copyH_heapCopy_iff (h : Segment m.cells lst l none) (hfuel : l.length < fuel) :
    (∃ m' p, copyH fuel m lst = some (m', p) ∧ HeapCopy l m' p) ↔ l = [] := by
  constructor
  · exact nil_of_heapCopy h hfuel
  · intro hnil
    subst hnil
    rcases copyH_spec h hfuel with ⟨m', p, l', hcopy, hl', hvalues, -, -⟩
    cases List.map_eq_nil_iff.mp hvalues
    exact ⟨m', p, hcopy, [], hl', rfl, by simp, by simp⟩

theorem copyH_empty :
    ∃ m : ListMemory ℤ, Segment m.cells none [] none ∧ ([] : List (ℕ × ℤ)).length < 1 ∧
      ((∃ m' p, copyH 1 m none = some (m', p) ∧ HeapCopy [] m' p) ↔ ([] : List (ℕ × ℤ)) = []) :=
  ⟨(list []).1, rfl, Nat.zero_lt_one, copyH_heapCopy_iff (show Segment _ none [] none from rfl) Nat.zero_lt_one⟩

/-- The copy of a list of one element is a cell of the current zone. -/
theorem not_heapCopy_one :
    ∃ (m : ListMemory ℤ) (lst : Option ℕ) (l : List (ℕ × ℤ)), Segment m.cells lst l none ∧
      l.map Prod.snd = [1] ∧ ¬ ∃ m' p, copyH 2 m lst = some (m', p) ∧ HeapCopy l m' p := by
  rcases holds_list [(1 : ℤ)] with ⟨l, hl, hvalues⟩
  refine ⟨_, _, l, hl, hvalues, fun hheap => ?_⟩
  have hlen : l.length < 2 := by
    rw [← length_values l, hvalues]
    decide
  rw [nil_of_heapCopy hl hlen hheap] at hvalues
  cases hvalues

end Extempore.AdtCells
