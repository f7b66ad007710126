import Mathlib.Data.List.Nodup
import Mathlib.Logic.Function.Basic

/-!
# Singly linked cells

A memory of objects, in which an allocation takes an address that was never used. The objects of a
linked list are cells with a value, a tag and a pointer to the next cell. `Segment cells p l q`
says that the pointer `p` leads through the cells at the addresses of `l`, with the values of `l`,
to the pointer `q`.
-/

namespace Extempore.SinglyLinkedCells

universe u v w

/-! ## Memories -/

structure Memory (β : Type u) where
  cells : ℕ → Option β
  /-- The next address to be given out. -/
  bound : ℕ
  fresh : ∀ a, bound ≤ a → cells a = none

namespace Memory

variable {β : Type u} {m : Memory β} {a : ℕ} {b c : β}

theorem lt_bound (h : m.cells a = some c) : a < m.bound := by
  by_contra hle
  rw [m.fresh a (Nat.le_of_not_lt hle)] at h
  cases h

/-- Reading through the null pointer, or an address without an object, fails. -/
def read (m : Memory β) (p : Option ℕ) : Option β := p.bind m.cells

@[simp] theorem read_some : m.read (some a) = m.cells a := rfl

def alloc (m : Memory β) (c : β) : Memory β where
  cells := Function.update m.cells m.bound (some c)
  bound := m.bound + 1
  fresh := by
    intro a ha
    rw [Function.update_of_ne (by omega), m.fresh a (by omega)]

@[simp] theorem alloc_self : (m.alloc c).cells m.bound = some c :=
  Function.update_self ..

theorem alloc_of_lt (ha : a < m.bound) : (m.alloc c).cells a = m.cells a :=
  Function.update_of_ne (by omega) ..

theorem alloc_of_eq_some (h : m.cells a = some b) : (m.alloc c).cells a = some b := by
  rw [alloc_of_lt (lt_bound h), h]

/-- Storing over the object at an address. -/
def store (m : Memory β) (a : ℕ) (c : β) (h : a < m.bound) : Memory β where
  cells := Function.update m.cells a (some c)
  bound := m.bound
  fresh := by
    intro a' ha'
    rw [Function.update_of_ne (by omega), m.fresh a' ha']

/-- Changing the object behind a pointer, which fails like reading it. -/
def modify (m : Memory β) (p : Option ℕ) (f : β → β) : Option (Memory β) :=
  match p with
  | none => none
  | some a =>
    match h : m.cells a with
    | none => none
    | some c => some (m.store a (f c) (lt_bound h))

theorem modify_of_eq_some {f : β → β} (h : m.cells a = some c) :
    m.modify (some a) f = some (m.store a (f c) (lt_bound h)) := by
  unfold modify
  dsimp only
  split
  · next hnone =>
    rw [h] at hnone
    cases hnone
  · next c' hc' =>
    rw [h] at hc'
    cases hc'
    rfl

@[simp] theorem store_self (h : a < m.bound) : (m.store a c h).cells a = some c :=
  Function.update_self ..

theorem store_of_ne (h : a < m.bound) {a' : ℕ} (hne : a' ≠ a) :
    (m.store a c h).cells a' = m.cells a' :=
  Function.update_of_ne hne ..

end Memory

/-! ## Cells and segments -/

structure Cell (τ : Type v) (α : Type w) where
  value : α
  next : Option ℕ
  tag : τ
  deriving DecidableEq

variable {τ : Type v} {α : Type w} {cells cells' : ℕ → Option (Cell τ α)} {p q r : Option ℕ}
  {a : ℕ} {x : α} {l l' : List (ℕ × α)}

def Segment (cells : ℕ → Option (Cell τ α)) : Option ℕ → List (ℕ × α) → Option ℕ → Prop
  | p, [], q => p = q
  | p, (a, x) :: l, q =>
    p = some a ∧ ∃ c, cells a = some c ∧ c.value = x ∧ Segment cells c.next l q

@[simp] theorem segment_nil : Segment cells p [] q ↔ p = q := Iff.rfl

@[simp] theorem segment_cons : Segment cells p ((a, x) :: l) q ↔
    p = some a ∧ ∃ c, cells a = some c ∧ c.value = x ∧ Segment cells c.next l q := Iff.rfl

theorem Segment.append_iff : Segment cells p (l ++ l') r ↔
    ∃ q, Segment cells p l q ∧ Segment cells q l' r := by
  induction l generalizing p with
  | nil =>
    rw [List.nil_append]
    exact ⟨fun h => ⟨p, rfl, h⟩, fun ⟨q, hpq, h⟩ => hpq ▸ h⟩
  | cons ax l ih =>
    rw [List.cons_append]
    constructor
    · intro h
      rcases h with ⟨hp, c, hc, hx, hrest⟩
      rcases ih.mp hrest with ⟨q, hl, hl'⟩
      exact ⟨q, ⟨hp, c, hc, hx, hl⟩, hl'⟩
    · intro h
      rcases h with ⟨q, ⟨hp, c, hc, hx, hl⟩, hl'⟩
      exact ⟨hp, c, hc, hx, ih.mpr ⟨q, hl, hl'⟩⟩

/-- Where the addresses of a segment hold the same cells, it is a segment still. -/
theorem Segment.congr (h : Segment cells p l q) (hsame : ∀ ax ∈ l, cells' ax.1 = cells ax.1) :
    Segment cells' p l q := by
  induction l generalizing p with
  | nil => exact h
  | cons ax l ih =>
    rcases h with ⟨hp, c, hc, hx, hrest⟩
    refine ⟨hp, c, ?_, hx, ih hrest fun b hb => hsame b (List.mem_cons_of_mem ax hb)⟩
    rw [hsame ax List.mem_cons_self, hc]

theorem Segment.exists_cell (h : Segment cells p l q) {ax : ℕ × α} (hax : ax ∈ l) :
    ∃ c, cells ax.1 = some c ∧ c.value = ax.2 := by
  induction l generalizing p with
  | nil => cases hax
  | cons bx l ih =>
    rcases h with ⟨-, c, hc, hx, hrest⟩
    cases hax with
    | head => exact ⟨c, hc, hx⟩
    | tail _ hmem => exact ih hrest hmem

/-- A list that ends with the null pointer is determined by its first pointer. -/
theorem Segment.unique (h : Segment cells p l none) (h' : Segment cells p l' none) : l = l' := by
  induction l generalizing p l' with
  | nil =>
    cases l' with
    | nil => rfl
    | cons bx l' => cases h.symm.trans h'.1
  | cons ax l ih =>
    rcases h with ⟨hp, c, hc, hx, hrest⟩
    cases l' with
    | nil => cases hp.symm.trans h'
    | cons bx l' =>
      rcases h' with ⟨hp', c', hc', hx', hrest'⟩
      have haddr : ax.1 = bx.1 := Option.some.inj (hp.symm.trans hp')
      have hcell : c = c' := Option.some.inj (hc.symm.trans (haddr ▸ hc'))
      rw [← hcell] at hx' hrest'
      rw [ih hrest hrest', Prod.ext haddr (hx.symm.trans hx')]

/-- A list that ends with the null pointer visits no cell twice. -/
theorem Segment.nodup (h : Segment cells p l none) : (l.map Prod.fst).Nodup := by
  induction l generalizing p with
  | nil => exact List.nodup_nil
  | cons ax l ih =>
    rcases h with ⟨hp, c, hc, hx, hrest⟩
    rw [List.map_cons, List.nodup_cons]
    refine ⟨fun hmem => ?_, ih hrest⟩
    rcases List.mem_map.mp hmem with ⟨bx, hb, haddr⟩
    rcases List.append_of_mem hb with ⟨front, back, rfl⟩
    rcases Segment.append_iff.mp hrest with ⟨q, -, hback⟩
    have hagain : Segment cells (some ax.1) (ax :: (front ++ bx :: back)) none :=
      ⟨rfl, c, hc, hx, hrest⟩
    rw [hback.1, haddr] at hback
    have hlength := congrArg List.length (hback.unique hagain)
    rw [List.length_cons, List.length_cons, List.length_append, List.length_cons] at hlength
    omega

section Changes

variable {m : Memory (Cell τ α)} {c : Cell τ α}

theorem Segment.lt_bound (h : Segment m.cells p l q) {ax : ℕ × α} (hax : ax ∈ l) :
    ax.1 < m.bound := by
  rcases h.exists_cell hax with ⟨c, hc, -⟩
  exact Memory.lt_bound hc

theorem Segment.alloc (h : Segment m.cells p l q) (c : Cell τ α) :
    Segment (m.alloc c).cells p l q :=
  h.congr fun _ hax => Memory.alloc_of_lt (h.lt_bound hax)

/-- A cell is put in front. -/
theorem Segment.cons (h : Segment m.cells p l q) (hnext : c.next = p) :
    Segment (m.alloc c).cells (some m.bound) ((m.bound, c.value) :: l) q :=
  ⟨rfl, c, Memory.alloc_self, rfl, hnext ▸ h.alloc c⟩

/-- A store to an address outside changes nothing. -/
theorem Segment.store (h : Segment m.cells p l q) {ha : a < m.bound}
    (hout : a ∉ l.map Prod.fst) : Segment (m.store a c ha).cells p l q := by
  apply h.congr
  intro ax hax
  apply Memory.store_of_ne
  intro heq
  exact hout (heq ▸ List.mem_map_of_mem hax)

/-- The pointer of a cell is changed, and leads on to another segment. -/
theorem Segment.relink (hfront : Segment m.cells p l (some a)) (hback : Segment m.cells c.next l' q)
    (hout : a ∉ l.map Prod.fst) (hout' : a ∉ l'.map Prod.fst) (ha : a < m.bound) :
    Segment (m.store a c ha).cells p (l ++ (a, c.value) :: l') q :=
  Segment.append_iff.mpr
    ⟨some a, hfront.store hout, rfl, c, Memory.store_self ha, rfl, hback.store hout'⟩

end Changes

end Extempore.SinglyLinkedCells
