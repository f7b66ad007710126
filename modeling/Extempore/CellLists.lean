import Mathlib.Data.List.Nodup
import Mathlib.Logic.Function.Basic

/-!
# Lists in cells

`list_copy` conses the elements of a list up in reverse order and turns the new pairs around with
`reverse_in_place`. What was there before stays as it is, and can be kept apart from other cells.
-/

namespace Extempore.CellLists

abbrev Name := List UInt8

/-- A cell by what `car` and `cdr` are in it: a pair; another object that consists of two cells, such
as a promise, a closure or an environment; a symbol, whose `car` is its name and whose `cdr` is
`NIL`; anything else. -/
inductive Cell where
  | pair (car cdr : ℕ)
  | object (car cdr : ℕ)
  | symbol (nameCell : ℕ) (name : Name)
  | atom
  deriving DecidableEq, Repr

/-- The cell at the address 0 is `NIL`. The symbol table is a map from names to cells. -/
structure Memory where
  cells : ℕ → Cell
  next : ℕ
  oblist : Name → Option ℕ

def Cell.fields : Cell → Option (ℕ × ℕ)
  | .pair a d | .object a d => some (a, d)
  | .symbol nameCell _ => some (nameCell, 0)
  | .atom => none

/-- A new cell. -/
def Memory.alloc (m : Memory) (cell : Cell) : Memory :=
  { m with cells := Function.update m.cells m.next cell, next := m.next + 1 }

def cons (m : Memory) (a d : ℕ) : Memory × ℕ := (m.alloc (.pair a d), m.next)

def setCdr (m : Memory) (c d : ℕ) : Memory :=
  match m.cells c with
  | .pair a _ => { m with cells := Function.update m.cells c (.pair a d) }
  | .object a _ => { m with cells := Function.update m.cells c (.object a d) }
  | _ => m

/-- The loop of `reverse_in_place`; `none` is a loop that is not over after `fuel` rounds, or that
takes the `cdr` of an atom. -/
def reverseLoop : ℕ → Memory → ℕ → ℕ → Option (Memory × ℕ)
  | 0, _, _, _ => none
  | fuel + 1, m, result, p =>
    if p = 0 then some (m, result)
    else
      match (m.cells p).fields with
      | none => none
      | some (_, q) => reverseLoop fuel (setCdr m p result) p q

def reverseInPlace (fuel : ℕ) (m : Memory) (term list : ℕ) : Option (Memory × ℕ) :=
  reverseLoop fuel m term list

/-- The loop of `list_copy`. -/
def copyLoop : ℕ → Memory → ℕ → ℕ → Option (Memory × ℕ)
  | 0, _, _, _ => none
  | fuel + 1, m, args, ret =>
    if args = 0 then some (m, ret)
    else
      match (m.cells args).fields with
      | none => none
      | some (a, d) => copyLoop fuel (cons m a ret).1 d (cons m a ret).2

def listCopy (fuel : ℕ) (m : Memory) (args : ℕ) : Option (Memory × ℕ) :=
  (copyLoop fuel m args 0).bind fun r => reverseInPlace fuel r.1 0 r.2

/-- `mk_symbol`, with the string of the name and the symbol as new cells. -/
def mkSymbol (m : Memory) (name : Name) : Memory × ℕ :=
  match m.oblist name with
  | some x => (m, x)
  | none =>
    let m' := (m.alloc .atom).alloc (.symbol m.next name)
    ({ m' with oblist := Function.update m.oblist name (some (m.next + 1)) }, m.next + 1)

def Cell.isSymbol : Cell → Bool
  | .symbol _ _ => true
  | _ => false

/-- The cells in a cell are held. -/
def Cell.heldBy (held : List ℕ) (cell : Cell) : Bool :=
  match cell.fields with
  | none => true
  | some (a, d) => held.contains a && held.contains d

/-! ## Lists in memory -/

/-- The elements that a loop along the `cdr`s meets until `NIL`. -/
inductive Walk (cells : ℕ → Cell) : ℕ → List ℕ → Prop where
  | nil : Walk cells 0 []
  | cons {c a d : ℕ} {xs : List ℕ} : c ≠ 0 → (cells c).fields = some (a, d) → Walk cells d xs →
      Walk cells c (a :: xs)

/-- A proper list of pairs. -/
inductive ProperList (cells : ℕ → Cell) : ℕ → List ℕ → Prop where
  | nil : ProperList cells 0 []
  | cons {c a d : ℕ} {xs : List ℕ} : c ≠ 0 → cells c = .pair a d → ProperList cells d xs →
      ProperList cells c (a :: xs)

/-- A list by its pairs and their elements. -/
def Chain (cells : ℕ → Cell) : List (ℕ × ℕ) → ℕ → Prop
  | [], y => y = 0
  | (c, x) :: ps, y => y = c ∧ c ≠ 0 ∧ ∃ d, cells c = .pair x d ∧ Chain cells ps d

/-- The pairs from `y` to the end `e`, with their elements. -/
def Segment (cells : ℕ → Cell) : List (ℕ × ℕ) → ℕ → ℕ → Prop
  | [], y, e => y = e
  | (c, x) :: ps, y, e => y = c ∧ c ≠ 0 ∧ ∃ d, cells c = .pair x d ∧ Segment cells ps d e

/-- All cells are there. -/
structure Closed (m : Memory) : Prop where
  next_pos : 0 < m.next
  nil_cell : m.cells 0 = .object 0 0
  fields_lt : ∀ c < m.next, ∀ a d, (m.cells c).fields = some (a, d) → a < m.next ∧ d < m.next

variable {cells cells' : ℕ → Cell} {m m' : Memory}

theorem ProperList.walk {c : ℕ} {xs : List ℕ} (h : ProperList cells c xs) : Walk cells c xs := by
  induction h with
  | nil => exact .nil
  | cons hc hcell _ ih => exact .cons hc (by rw [hcell]; rfl) ih

theorem ProperList.cell {c : ℕ} {xs : List ℕ} (h : ProperList cells c xs) :
    c = 0 ∨ ∃ a d, cells c = .pair a d := by
  cases h with
  | nil => exact Or.inl rfl
  | cons _ hcell _ => exact Or.inr ⟨_, _, hcell⟩

theorem chain_iff_segment {ps : List (ℕ × ℕ)} {y : ℕ} : Chain cells ps y ↔ Segment cells ps y 0 := by
  induction ps generalizing y with
  | nil => exact Iff.rfl
  | cons p ps ih =>
    obtain ⟨c, x⟩ := p
    rw [Chain, Segment]
    simp only [ih]

theorem Segment.congr {ps : List (ℕ × ℕ)} {y e : ℕ} (h : Segment cells ps y e)
    (hcells : ∀ p ∈ ps, cells' p.1 = cells p.1) : Segment cells' ps y e := by
  induction ps generalizing y with
  | nil => exact h
  | cons p ps ih =>
    obtain ⟨c, x⟩ := p
    obtain ⟨rfl, hc, d, hcell, hrest⟩ := h
    refine ⟨rfl, hc, d, ?_, ih hrest fun q hq => hcells q (List.mem_cons_of_mem _ hq)⟩
    rw [hcells _ List.mem_cons_self, hcell]

/-- Pairs in front of a proper list. -/
theorem Segment.properList {ps : List (ℕ × ℕ)} {y e : ℕ} {xs : List ℕ} (h : Segment cells ps y e)
    (he : ProperList cells e xs) : ProperList cells y (ps.map Prod.snd ++ xs) := by
  induction ps generalizing y with
  | nil =>
    obtain rfl : y = e := h
    exact he
  | cons p ps ih =>
    obtain ⟨c, x⟩ := p
    obtain ⟨rfl, hc, d, hcell, hrest⟩ := h
    exact .cons hc hcell (ih hrest)

theorem Chain.congr {ps : List (ℕ × ℕ)} {y : ℕ} (h : Chain cells ps y)
    (hcells : ∀ p ∈ ps, cells' p.1 = cells p.1) : Chain cells' ps y :=
  chain_iff_segment.mpr ((chain_iff_segment.mp h).congr hcells)

theorem Chain.properList {ps : List (ℕ × ℕ)} {y : ℕ} (h : Chain cells ps y) :
    ProperList cells y (ps.map Prod.snd) := by
  have hlist := (chain_iff_segment.mp h).properList .nil
  rwa [List.append_nil] at hlist

/-- A proper list stays one when the cells that were there stay as they were. -/
theorem ProperList.congr {c : ℕ} {xs : List ℕ} (hm : Closed m) (hc : c < m.next)
    (h : ProperList m.cells c xs) (hcells : ∀ b < m.next, cells' b = m.cells b) :
    ProperList cells' c xs := by
  induction h with
  | nil => exact .nil
  | cons hne hcell _ ih =>
    apply ProperList.cons hne (by rw [hcells _ hc, hcell])
    exact ih (hm.fields_lt _ hc _ _ (congrArg Cell.fields hcell)).2

theorem Walk.unique {c : ℕ} {xs ys : List ℕ} (h : Walk cells c xs) (h' : Walk cells c ys) :
    xs = ys := by
  induction h generalizing ys with
  | nil =>
    cases h' with
    | nil => rfl
    | cons hc => exact absurd rfl hc
  | cons hc hcell _ ih =>
    cases h' with
    | nil => exact absurd rfl hc
    | cons _ hcell' htail =>
      rw [hcell] at hcell'
      cases hcell'
      rw [ih htail]

/-- A walk stays among the cells that were there. -/
theorem walk_congr {c : ℕ} {xs : List ℕ} (hm : Closed m) (hc : c < m.next)
    (hcells : ∀ b < m.next, cells' b = m.cells b) : Walk cells' c xs ↔ Walk m.cells c xs := by
  constructor
  · intro h
    induction h with
    | nil => exact .nil
    | cons hne hcell _ ih =>
      rw [hcells _ hc] at hcell
      exact .cons hne hcell (ih (hm.fields_lt _ hc _ _ hcell).2)
  · intro h
    induction h with
    | nil => exact .nil
    | cons hne hcell _ ih =>
      refine .cons hne (by rw [hcells _ hc, hcell]) (ih ?_)
      exact (hm.fields_lt _ hc _ _ hcell).2

theorem Walk.lt {c : ℕ} {xs : List ℕ} (hm : Closed m) (h : Walk m.cells c xs) (hc : c < m.next) :
    ∀ x ∈ xs, x < m.next := by
  induction h with
  | nil => simp
  | cons hne hcell _ ih =>
    have hlt := hm.fields_lt _ hc _ _ hcell
    intro x hx
    cases hx with
    | head => exact hlt.1
    | tail _ hx => exact ih hlt.2 x hx

/-! ## Copying a list -/

@[simp] theorem alloc_next (cell : Cell) : (m.alloc cell).cells m.next = cell :=
  Function.update_self ..

theorem alloc_of_lt {cell : Cell} {c : ℕ} (hc : c < m.next) : (m.alloc cell).cells c = m.cells c :=
  Function.update_of_ne (Nat.ne_of_lt hc) _ _

theorem Closed.alloc (hm : Closed m) {cell : Cell}
    (hcell : ∀ a d, cell.fields = some (a, d) → a ≤ m.next ∧ d ≤ m.next) : Closed (m.alloc cell) where
  next_pos := Nat.succ_pos _
  nil_cell := (alloc_of_lt hm.next_pos).trans hm.nil_cell
  fields_lt c hc a d hfields := by
    have hc' : c < m.next + 1 := hc
    show a < m.next + 1 ∧ d < m.next + 1
    by_cases heq : c = m.next
    · subst heq
      rw [alloc_next] at hfields
      have := hcell a d hfields
      omega
    · rw [alloc_of_lt (by omega)] at hfields
      have := hm.fields_lt c (by omega) a d hfields
      omega

/-- The conses of `list_copy` for the elements `xs`. -/
def consAll (m : Memory) (ret : ℕ) : List ℕ → Memory × ℕ
  | [] => (m, ret)
  | x :: xs => consAll (cons m x ret).1 (cons m x ret).2 xs

theorem copyLoop_eq {fuel args ret : ℕ} {xs : List ℕ} (hm : Closed m) (hargs : args < m.next)
    (hret : ret < m.next) (h : Walk m.cells args xs) (hfuel : xs.length < fuel) :
    copyLoop fuel m args ret = some (consAll m ret xs) := by
  induction xs generalizing fuel m args ret with
  | nil =>
    cases h
    obtain ⟨fuel, rfl⟩ := Nat.exists_eq_succ_of_ne_zero (Nat.ne_of_gt hfuel)
    rfl
  | cons x xs ih =>
    cases h with
    | cons hne hcell htail =>
      obtain ⟨fuel, rfl⟩ := Nat.exists_eq_succ_of_ne_zero (Nat.ne_of_gt (Nat.zero_lt_of_lt hfuel))
      have hlt := hm.fields_lt _ hargs _ _ hcell
      rw [copyLoop, if_neg hne, hcell]
      have hclosed : Closed (cons m x ret).1 := hm.alloc fun a d had => by
        cases had
        omega
      apply ih hclosed
      · exact Nat.lt_succ_of_lt hlt.2
      · exact Nat.lt_succ_self _
      · exact (walk_congr hm hlt.2 fun b hb => alloc_of_lt hb).mpr htail
      · simpa using hfuel

theorem walk_of_copyLoop {fuel args ret : ℕ} {r : Memory × ℕ} (hm : Closed m)
    (hargs : args < m.next) (hret : ret < m.next) (h : copyLoop fuel m args ret = some r) :
    ∃ xs, Walk m.cells args xs ∧ xs.length < fuel := by
  induction fuel generalizing m args ret with
  | zero => cases h
  | succ fuel ih =>
    rw [copyLoop] at h
    split at h
    · rename_i hnil
      subst hnil
      exact ⟨[], .nil, Nat.succ_pos _⟩
    · rename_i hne
      split at h
      · cases h
      · rename_i a d hcell
        have hlt := hm.fields_lt _ hargs _ _ hcell
        have hclosed : Closed (cons m a ret).1 := hm.alloc fun a d had => by
          cases had
          omega
        obtain ⟨xs, hxs, hlen⟩ := ih hclosed (Nat.lt_succ_of_lt hlt.2) (Nat.lt_succ_self _) h
        have hback := (walk_congr hm hlt.2 fun b hb => alloc_of_lt hb).mp hxs
        exact ⟨a :: xs, .cons hne hcell hback, Nat.succ_lt_succ hlen⟩

/-- The conses are one chain, with the elements in reverse order. -/
theorem consAll_spec {ret : ℕ} {rs : List (ℕ × ℕ)} (xs : List ℕ) (hpos : 0 < m.next)
    (hret : Chain m.cells rs ret) (hrs : ∀ p ∈ rs, p.1 < m.next) :
    Chain (consAll m ret xs).1.cells (((List.range' m.next xs.length).zip xs).reverse ++ rs)
      (consAll m ret xs).2 ∧ (consAll m ret xs).1.next = m.next + xs.length ∧
      (consAll m ret xs).1.oblist = m.oblist ∧
      ∀ c < m.next, (consAll m ret xs).1.cells c = m.cells c := by
  induction xs generalizing m ret rs with
  | nil => exact ⟨hret, rfl, rfl, fun _ _ => rfl⟩
  | cons x xs ih =>
    have hchain : Chain (cons m x ret).1.cells ((m.next, x) :: rs) (cons m x ret).2 := by
      refine ⟨rfl, Nat.ne_of_gt hpos, ret, alloc_next _, ?_⟩
      exact hret.congr fun p hp => alloc_of_lt (hrs p hp)
    obtain ⟨h, hnext, hoblist, hcells⟩ := ih (Nat.succ_pos _) hchain fun p hp => by
      cases hp with
      | head => exact Nat.lt_succ_self _
      | tail _ hp => exact Nat.lt_succ_of_lt (hrs p hp)
    refine ⟨?_, ?_, hoblist, ?_⟩
    · simp only [List.length_cons, List.range'_succ, List.zip_cons_cons, List.reverse_cons,
        List.append_assoc, List.singleton_append]
      exact h
    · rw [consAll, hnext, List.length_cons]
      show m.next + 1 + xs.length = _
      omega
    · intro c hc
      exact (hcells c (Nat.lt_succ_of_lt hc)).trans (alloc_of_lt hc)

/-- `reverse_in_place` turns the pairs of a chain around, in front of the pairs of `rs`, and writes
to no others. -/
theorem reverseLoop_segment {fuel result p e : ℕ} {ps rs : List (ℕ × ℕ)} (hp : Chain m.cells ps p)
    (hr : Segment m.cells rs result e) (hnodup : ((ps ++ rs).map Prod.fst).Nodup)
    (hfuel : ps.length < fuel) :
    ∃ m' y, reverseLoop fuel m result p = some (m', y) ∧
      Segment m'.cells (ps.reverse ++ rs) y e ∧
      m'.next = m.next ∧ m'.oblist = m.oblist ∧
      ∀ c ∉ ps.map Prod.fst, m'.cells c = m.cells c := by
  induction ps generalizing fuel m result p rs with
  | nil =>
    obtain ⟨fuel, rfl⟩ := Nat.exists_eq_succ_of_ne_zero (Nat.ne_of_gt hfuel)
    obtain rfl : p = 0 := hp
    exact ⟨m, result, rfl, hr, rfl, rfl, fun _ _ => rfl⟩
  | cons q ps ih =>
    obtain ⟨c, x⟩ := q
    obtain ⟨rfl, hc, d, hcell, hrest⟩ := hp
    obtain ⟨fuel, rfl⟩ := Nat.exists_eq_succ_of_ne_zero (Nat.ne_of_gt (Nat.zero_lt_of_lt hfuel))
    rw [List.cons_append, List.map_cons, List.nodup_cons] at hnodup
    have hset : setCdr m p result =
        { m with cells := Function.update m.cells p (.pair x result) } := by
      rw [setCdr, hcell]
    have hother : ∀ q ∈ ps ++ rs, Function.update m.cells p (.pair x result) q.1 = m.cells q.1 := by
      intro q hq
      apply Function.update_of_ne
      intro heq
      have hmem := List.mem_map_of_mem (f := Prod.fst) hq
      rw [heq] at hmem
      exact hnodup.1 hmem
    have hp' : Chain (setCdr m p result).cells ps d := by
      rw [hset]
      exact hrest.congr fun q hq => hother q (List.mem_append_left _ hq)
    have hr' : Segment (setCdr m p result).cells ((p, x) :: rs) p e := by
      rw [hset]
      exact ⟨rfl, hc, result, Function.update_self .., hr.congr fun q hq =>
        hother q (List.mem_append_right _ hq)⟩
    have hnodup' : ((ps ++ (p, x) :: rs).map Prod.fst).Nodup := by
      have hperm : ((ps ++ (p, x) :: rs).map Prod.fst).Perm (p :: (ps ++ rs).map Prod.fst) := by
        rw [← List.map_cons (f := Prod.fst) (a := (p, x))]
        exact List.perm_middle.map Prod.fst
      exact hperm.nodup_iff.mpr (List.nodup_cons.mpr hnodup)
    obtain ⟨m', y, hloop, hchain, hnext, hoblist, hcells⟩ := ih hp' hr' hnodup' (by simpa using hfuel)
    refine ⟨m', y, ?_, ?_, ?_, ?_, ?_⟩
    · rw [reverseLoop, if_neg hc, hcell]
      exact hloop
    · rw [List.reverse_cons, List.append_assoc]
      exact hchain
    · rw [hnext, hset]
    · rw [hoblist, hset]
    · intro c hc'
      rw [List.map_cons, List.mem_cons, not_or] at hc'
      rw [hcells c hc'.2, hset]
      exact Function.update_of_ne hc'.1 _ _

/-- The new pairs of a copy, with their elements. -/
def copied (m : Memory) (xs : List ℕ) : List (ℕ × ℕ) := (List.range' m.next xs.length).zip xs

theorem copied_fst (m : Memory) (xs : List ℕ) :
    (copied m xs).map Prod.fst = List.range' m.next xs.length := by
  rw [copied, List.map_fst_zip (by simp)]

theorem copied_snd (m : Memory) (xs : List ℕ) : (copied m xs).map Prod.snd = xs := by
  rw [copied, List.map_snd_zip (by simp)]

theorem mem_copied {xs : List ℕ} {c : ℕ} :
    c ∈ (copied m xs).map Prod.fst ↔ m.next ≤ c ∧ c < m.next + xs.length := by
  rw [copied_fst, List.mem_range'_1]

/-- The conses for `xs` turned around, in front of `b`. -/
theorem reverseLoop_consAll {fuel : ℕ} (xs : List ℕ) (b : ℕ) (hpos : 0 < m.next)
    (hfuel : xs.length < fuel) :
    ∃ m' y, reverseLoop fuel (consAll m 0 xs).1 b (consAll m 0 xs).2 = some (m', y) ∧
      Segment m'.cells (copied m xs) y b ∧ m'.next = m.next + xs.length ∧ m'.oblist = m.oblist ∧
      ∀ c < m.next, m'.cells c = m.cells c := by
  obtain ⟨hchain, hnext, hoblist, hcells⟩ :=
    consAll_spec xs hpos (show Chain m.cells [] 0 from rfl) (by simp)
  rw [List.append_nil] at hchain
  have hnodup : ((((List.range' m.next xs.length).zip xs).reverse ++ []).map Prod.fst).Nodup := by
    rw [List.append_nil, List.map_reverse, List.nodup_reverse]
    show ((copied m xs).map Prod.fst).Nodup
    rw [copied_fst]
    exact List.nodup_range'
  obtain ⟨m', y, hloop, hrev, hnext', hoblist', hcells'⟩ :=
    reverseLoop_segment hchain (show Segment _ [] b b from rfl) hnodup
      (show _ < fuel by simpa using hfuel)
  rw [List.reverse_reverse, List.append_nil] at hrev
  refine ⟨m', y, hloop, hrev, hnext'.trans hnext, hoblist'.trans hoblist, ?_⟩
  intro c hc
  rw [hcells' c ?_, hcells c hc]
  rw [List.map_reverse, List.mem_reverse]
  intro hmem
  have : m.next ≤ c ∧ c < m.next + xs.length := mem_copied.mp hmem
  omega

/-- The memory after a list with the elements `xs` was copied to `y`. -/
structure IsCopy (m : Memory) (xs : List ℕ) (m' : Memory) (y : ℕ) : Prop where
  chain : Chain m'.cells (copied m xs) y
  next_eq : m'.next = m.next + xs.length
  oblist_eq : m'.oblist = m.oblist
  cells_eq : ∀ c < m.next, m'.cells c = m.cells c

/-- `list_copy` ends when the `cdr`s lead to `NIL`, and then it makes new pairs with the same
elements. -/
theorem listCopy_spec {fuel args : ℕ} {xs : List ℕ} (hm : Closed m) (hargs : args < m.next)
    (h : Walk m.cells args xs) (hfuel : xs.length < fuel) :
    ∃ m' y, listCopy fuel m args = some (m', y) ∧ IsCopy m xs m' y := by
  obtain ⟨m', y, hloop, hsegment, hnext, hoblist, hcells⟩ :=
    reverseLoop_consAll xs 0 hm.next_pos hfuel
  refine ⟨m', y, ?_, chain_iff_segment.mpr hsegment, hnext, hoblist, hcells⟩
  rw [listCopy, copyLoop_eq hm hargs hm.next_pos h hfuel, Option.bind_some]
  exact hloop

theorem listCopy_eq_some {fuel args : ℕ} {m' : Memory} {y : ℕ} (hm : Closed m)
    (hargs : args < m.next) (h : listCopy fuel m args = some (m', y)) :
    ∃ xs, Walk m.cells args xs ∧ xs.length < fuel ∧ IsCopy m xs m' y := by
  obtain ⟨r, hr, -⟩ := Option.bind_eq_some_iff.mp h
  obtain ⟨xs, hwalk, hlen⟩ := walk_of_copyLoop hm hargs hm.next_pos hr
  obtain ⟨m'', y', hcopy, his⟩ := listCopy_spec hm hargs hwalk hlen
  rw [hcopy] at h
  cases h
  exact ⟨xs, hwalk, hlen, his⟩

/-! ## Memories that grow -/

/-- Old cells and symbols are still there. -/
structure Extends (m m' : Memory) : Prop where
  next_le : m.next ≤ m'.next
  cells_eq : ∀ c < m.next, m'.cells c = m.cells c
  oblist_of : ∀ name x, m.oblist name = some x → m'.oblist name = some x
  oblist_new : ∀ name x, m'.oblist name = some x → m.oblist name = some x ∨ m.next ≤ x

theorem Extends.refl (m : Memory) : Extends m m :=
  ⟨Nat.le_refl _, fun _ _ => rfl, fun _ _ h => h, fun _ _ h => Or.inl h⟩

theorem Extends.trans {m₁ m₂ m₃ : Memory} (h : Extends m₁ m₂) (h' : Extends m₂ m₃) :
    Extends m₁ m₃ where
  next_le := Nat.le_trans h.next_le h'.next_le
  cells_eq c hc := (h'.cells_eq c (Nat.lt_of_lt_of_le hc h.next_le)).trans (h.cells_eq c hc)
  oblist_of name x hx := h'.oblist_of name x (h.oblist_of name x hx)
  oblist_new name x hx := by
    cases h'.oblist_new name x hx with
    | inl hold => exact h.oblist_new name x hold
    | inr hnew => exact Or.inr (Nat.le_trans h.next_le hnew)

/-- The cells of `S` can be reached from no other cell. -/
structure Apart (S : ℕ → Prop) (m : Memory) : Prop extends Closed m where
  cells_apart : ∀ c < m.next, ¬ S c → ∀ a d, (m.cells c).fields = some (a, d) → ¬ S a ∧ ¬ S d
  lt : ∀ c, S c → c < m.next
  nil_apart : ¬ S 0
  oblist_symbol : ∀ name x, m.oblist name = some x →
    x < m.next ∧ ¬ S x ∧ ∃ nameCell, m.cells x = .symbol nameCell name

variable {S : ℕ → Prop}

theorem Segment.cell {ps : List (ℕ × ℕ)} {y e : ℕ} (h : Segment cells ps y e) :
    (y = e ∨ y ∈ ps.map Prod.fst) ∧
      ∀ p ∈ ps, ∃ d, cells p.1 = .pair p.2 d ∧ (d = e ∨ d ∈ ps.map Prod.fst) := by
  induction ps generalizing y with
  | nil => exact ⟨Or.inl h, by simp⟩
  | cons q ps ih =>
    obtain ⟨c, x⟩ := q
    obtain ⟨rfl, hc, d, hcell, hrest⟩ := h
    obtain ⟨hd, hps⟩ := ih hrest
    refine ⟨Or.inr List.mem_cons_self, ?_⟩
    intro p hp
    cases hp with
    | head => exact ⟨d, hcell, hd.imp id (List.mem_cons_of_mem _)⟩
    | tail _ hp =>
      obtain ⟨d', hd', hmem⟩ := hps p hp
      exact ⟨d', hd', hmem.imp id (List.mem_cons_of_mem _)⟩

theorem Chain.cell {ps : List (ℕ × ℕ)} {y : ℕ} (h : Chain cells ps y) :
    (y = 0 ∨ y ∈ ps.map Prod.fst) ∧
      ∀ p ∈ ps, ∃ d, cells p.1 = .pair p.2 d ∧ (d = 0 ∨ d ∈ ps.map Prod.fst) :=
  (chain_iff_segment.mp h).cell

theorem IsCopy.extends {xs : List ℕ} {y : ℕ} (h : IsCopy m xs m' y) : Extends m m' where
  next_le := by
    rw [h.next_eq]
    exact Nat.le_add_right _ _
  cells_eq := h.cells_eq
  oblist_of name x hx := h.oblist_eq ▸ hx
  oblist_new name x hx := Or.inl (h.oblist_eq ▸ hx)

/-- A copy is outside of `S` if its elements are. -/
theorem IsCopy.apart {xs : List ℕ} {y : ℕ} (hm : Apart S m) (h : IsCopy m xs m' y)
    (hxs : ∀ x ∈ xs, x < m.next ∧ ¬ S x) : Apart S m' ∧ y < m'.next ∧ ¬ S y := by
  have hlink {d : ℕ} (hd : d = 0 ∨ d ∈ (copied m xs).map Prod.fst) : d < m'.next ∧ ¬ S d := by
    have hpos := hm.next_pos
    rw [h.next_eq]
    cases hd with
    | inl hnil =>
      subst hnil
      exact ⟨by omega, hm.nil_apart⟩
    | inr hmem =>
      have hrange := mem_copied.mp hmem
      refine ⟨hrange.2, fun hS => ?_⟩
      have := hm.lt d hS
      omega
  have hnew {c a d : ℕ} (hc : c < m'.next) (hge : m.next ≤ c)
      (hfields : (m'.cells c).fields = some (a, d)) : (a < m.next ∧ ¬ S a) ∧ d < m'.next ∧ ¬ S d := by
    rw [h.next_eq] at hc
    obtain ⟨p, hp, rfl⟩ := List.mem_map.mp (mem_copied.mpr ⟨hge, hc⟩)
    obtain ⟨e, hcell, he⟩ := h.chain.cell.2 p hp
    rw [hcell] at hfields
    cases hfields
    have hmem : p.2 ∈ (copied m xs).map Prod.snd := List.mem_map_of_mem hp
    rw [copied_snd] at hmem
    exact ⟨hxs _ hmem, hlink he⟩
  have hle : m.next ≤ m'.next := h.extends.next_le
  have hnil : m'.cells 0 = .object 0 0 := (h.cells_eq 0 hm.next_pos).trans hm.nil_cell
  refine ⟨⟨⟨Nat.lt_of_lt_of_le hm.next_pos hle, hnil, ?_⟩, ?_, ?_, hm.nil_apart, ?_⟩,
    hlink h.chain.cell.1⟩
  · intro c hc a d hfields
    by_cases hold : c < m.next
    · rw [h.cells_eq c hold] at hfields
      have := hm.fields_lt c hold a d hfields
      omega
    · have := hnew hc (by omega) hfields
      omega
  · intro c hc hS a d hfields
    by_cases hold : c < m.next
    · rw [h.cells_eq c hold] at hfields
      exact hm.cells_apart c hold hS a d hfields
    · have := hnew hc (by omega) hfields
      exact ⟨this.1.2, this.2.2⟩
  · intro c hS
    exact Nat.lt_of_lt_of_le (hm.lt c hS) hle
  · intro name x hx
    rw [h.oblist_eq] at hx
    obtain ⟨hlt, hS, nameCell, hcell⟩ := hm.oblist_symbol name x hx
    exact ⟨Nat.lt_of_lt_of_le hlt hle, hS, nameCell, by rw [h.cells_eq x hlt, hcell]⟩

/-- A new cell, whose fields are outside of `S`. -/
theorem Apart.alloc (hm : Apart S m) {cell : Cell}
    (hcell : ∀ a d, cell.fields = some (a, d) → (a < m.next ∧ ¬ S a) ∧ d < m.next ∧ ¬ S d) :
    Apart S (m.alloc cell) ∧ Extends m (m.alloc cell) := by
  refine ⟨⟨hm.toClosed.alloc ?_, ?_, ?_, hm.nil_apart, ?_⟩, ?_⟩
  · intro a d had
    have := hcell a d had
    omega
  · intro c hc hS a d hfields
    have hc' : c < m.next + 1 := hc
    by_cases heq : c = m.next
    · subst heq
      rw [alloc_next] at hfields
      have := hcell a d hfields
      exact ⟨this.1.2, this.2.2⟩
    · rw [alloc_of_lt (by omega)] at hfields
      exact hm.cells_apart c (by omega) hS a d hfields
  · intro c hS
    exact Nat.lt_succ_of_lt (hm.lt c hS)
  · intro name x hx
    obtain ⟨hlt, hS, nameCell, hsymbol⟩ := hm.oblist_symbol name x hx
    exact ⟨Nat.lt_succ_of_lt hlt, hS, nameCell, by rw [alloc_of_lt hlt, hsymbol]⟩
  · exact ⟨Nat.le_succ _, fun c hc => alloc_of_lt hc, fun _ _ hx => hx, fun _ _ hx => Or.inl hx⟩

theorem Apart.next_apart (hm : Apart S m) : ¬ S m.next := fun hS => Nat.lt_irrefl _ (hm.lt _ hS)

/-- `mk_symbol` finds the symbol or makes a new one. -/
theorem Apart.mkSymbol (hm : Apart S m) (name : Name) :
    Apart S (mkSymbol m name).1 ∧ Extends m (mkSymbol m name).1 ∧
      (mkSymbol m name).1.oblist name = some (mkSymbol m name).2 := by
  cases hx : m.oblist name with
  | some x =>
    rw [CellLists.mkSymbol, hx]
    exact ⟨hm, .refl m, hx⟩
  | none =>
    obtain ⟨h₁, hext₁⟩ := hm.alloc fun a d (had : Cell.atom.fields = some (a, d)) => by cases had
    have hname : m.next < (m.alloc .atom).next := Nat.lt_succ_self _
    have hfields : ∀ a d, (Cell.symbol m.next name).fields = some (a, d) →
        (a < (m.alloc .atom).next ∧ ¬ S a) ∧ d < (m.alloc .atom).next ∧ ¬ S d := by
      intro a d had
      cases had
      exact ⟨⟨hname, hm.next_apart⟩, Nat.succ_pos _, hm.nil_apart⟩
    obtain ⟨h₂, hext₂⟩ := h₁.alloc hfields
    have hext := hext₁.trans hext₂
    rw [CellLists.mkSymbol, hx]
    refine ⟨⟨⟨h₂.next_pos, h₂.nil_cell, h₂.fields_lt⟩, h₂.cells_apart, h₂.lt, h₂.nil_apart, ?_⟩, ?_, ?_⟩
    · intro name' x hx'
      by_cases hn : name' = name
      · subst hn
        simp only [Function.update_self, Option.some.injEq] at hx'
        subst hx'
        refine ⟨Nat.lt_succ_self _, h₁.next_apart, m.next, ?_⟩
        exact alloc_next (m := m.alloc .atom) _
      · simp only [Function.update_of_ne hn] at hx'
        exact h₂.oblist_symbol name' x hx'
    · refine ⟨hext.next_le, hext.cells_eq, ?_, ?_⟩
      · intro name' x hx'
        have hn : name' ≠ name := by
          rintro rfl
          rw [hx] at hx'
          cases hx'
        simp only [Function.update_of_ne hn]
        exact hx'
      · intro name' x hx'
        by_cases hn : name' = name
        · subst hn
          simp only [Function.update_self, Option.some.injEq] at hx'
          exact Or.inr (by omega)
        · simp only [Function.update_of_ne hn] at hx'
          exact Or.inl hx'
    · exact Function.update_self ..

/-- A proper list of new pairs with the elements `xs`. -/
def ListIn (m m' : Memory) (xs : List ℕ) (y : ℕ) : Prop :=
  ∃ ps, ps.map Prod.snd = xs ∧ (∀ p ∈ ps, m.next ≤ p.1 ∧ p.1 < m'.next) ∧ Chain m'.cells ps y

theorem ListIn.extends {m'' : Memory} {xs : List ℕ} {y : ℕ} (h : ListIn m m' xs y)
    (hext : Extends m' m'') : ListIn m m'' xs y := by
  obtain ⟨ps, hps, hrange, hchain⟩ := h
  refine ⟨ps, hps, ?_, hchain.congr fun p hp => hext.cells_eq _ (hrange p hp).2⟩
  intro p hp
  exact ⟨(hrange p hp).1, Nat.lt_of_lt_of_le (hrange p hp).2 hext.next_le⟩

theorem ListIn.of_le {m₀ : Memory} {xs : List ℕ} {y : ℕ} (h : ListIn m m' xs y)
    (hle : m₀.next ≤ m.next) : ListIn m₀ m' xs y := by
  obtain ⟨ps, hps, hrange, hchain⟩ := h
  exact ⟨ps, hps, fun p hp => ⟨Nat.le_trans hle (hrange p hp).1, (hrange p hp).2⟩, hchain⟩

theorem IsCopy.listIn {xs : List ℕ} {y : ℕ} (h : IsCopy m xs m' y) : ListIn m m' xs y := by
  refine ⟨copied m xs, copied_snd m xs, ?_, h.chain⟩
  intro p hp
  have hmem := mem_copied.mp (List.mem_map_of_mem (f := Prod.fst) hp)
  rw [h.next_eq]
  exact hmem

/-- A list that can be copied keeps what is apart so. -/
theorem Apart.listCopy {fuel x : ℕ} {r : Memory × ℕ} (hm : Apart S m) (hx : x < m.next)
    (hxs : ∀ xs, Walk m.cells x xs → ∀ y ∈ xs, ¬ S y) (h : listCopy fuel m x = some r) :
    (Apart S r.1 ∧ r.2 < r.1.next ∧ ¬ S r.2) ∧ Extends m r.1 ∧
      ∃ xs, Walk m.cells x xs ∧ ListIn m r.1 xs r.2 := by
  obtain ⟨m', y⟩ := r
  obtain ⟨xs, hwalk, -, hcopy⟩ := listCopy_eq_some hm.toClosed hx h
  refine ⟨hcopy.apart hm fun z hz => ⟨hwalk.lt hm.toClosed hx z hz, hxs xs hwalk z hz⟩,
    hcopy.extends, xs, hwalk, hcopy.listIn⟩

theorem Walk.apart {c : ℕ} {xs : List ℕ} (hm : Apart S m) (h : Walk m.cells c xs) (hc : c < m.next)
    (hS : ¬ S c) : ∀ x ∈ xs, ¬ S x := by
  induction h with
  | nil => simp
  | cons hne hcell _ ih =>
    have hlt := hm.fields_lt _ hc _ _ hcell
    have hapart := hm.cells_apart _ hc hS _ _ hcell
    intro x hx
    cases hx with
    | head => exact hapart.1
    | tail _ hx => exact ih hlt.2 hapart.2 x hx

theorem isSymbol_of_chain {ps : List (ℕ × ℕ)} {y : ℕ} (hnil : cells 0 = .object 0 0)
    (h : Chain cells ps y) : (cells y).isSymbol = false := by
  cases h.properList.cell with
  | inl hy =>
    rw [hy, hnil]
    rfl
  | inr hy =>
    obtain ⟨a, d, hcell⟩ := hy
    rw [hcell]
    rfl

end Extempore.CellLists
