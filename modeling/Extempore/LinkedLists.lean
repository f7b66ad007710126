import Mathlib.Data.List.Nodup
import Mathlib.Logic.Function.Basic

/-!
# Doubly linked lists

A heap maps addresses to cells with a value and two links. `Linked heap p first cells` says that
following `next` from `first` visits exactly `cells` up to the null pointer, and that `prev` leads
back, to `p` from the first cell. A cell is put behind another one, and the first one is taken out.
-/

namespace Extempore.LinkedLists

universe u v

structure Cell (α : Type u) (β : Type v) where
  value : β
  prev : Option α
  next : Option α
  deriving DecidableEq, Repr

variable {α : Type u} {β : Type v}

abbrev Heap (α : Type u) (β : Type v) := α → Option (Cell α β)

def Linked (heap : Heap α β) : Option α → Option α → List α → Prop
  | _, first, [] => first = none
  | p, first, a :: as =>
    first = some a ∧ ∃ c, heap a = some c ∧ c.prev = p ∧ Linked heap (some a) c.next as

/-- The values of the cells. -/
def values (heap : Heap α β) (cells : List α) : List β :=
  cells.filterMap fun a => (heap a).map Cell.value

variable {heap heap' : Heap α β} {p q first : Option α} {as front back : List α} {a b new : α}
  {c : Cell α β}

theorem Linked.congr (h : Linked heap p first as) (hsame : ∀ a ∈ as, heap' a = heap a) :
    Linked heap' p first as := by
  induction as generalizing p first with
  | nil => exact h
  | cons a as ih =>
    obtain ⟨hfirst, c, hc, hprev, hrest⟩ := h
    refine ⟨hfirst, c, ?_, hprev, ih hrest fun b hb => hsame b (List.mem_cons_of_mem a hb)⟩
    rw [hsame a List.mem_cons_self, hc]

theorem Linked.first_eq (h : Linked heap p first as) : first = as.head? := by
  cases as with
  | nil => exact h
  | cons a as => exact h.1

theorem Linked.exists_cell (h : Linked heap p first as) (ha : a ∈ as) : ∃ c, heap a = some c := by
  induction as generalizing p first with
  | nil => cases ha
  | cons b as ih =>
    obtain ⟨-, c, hc, -, hrest⟩ := h
    cases ha with
    | head => exact ⟨c, hc⟩
    | tail _ ha => exact ih hrest ha

/-- A cell inside a list is followed by the first one of the rest. -/
theorem Linked.next_eq (h : Linked heap p first (front ++ a :: back)) (hc : heap a = some c) :
    c.next = back.head? := by
  induction front generalizing p first with
  | nil =>
    obtain ⟨-, c', hc', -, hrest⟩ := h
    obtain rfl : c' = c := Option.some.inj (hc'.symm.trans hc)
    exact hrest.first_eq
  | cons x front ih =>
    obtain ⟨-, d, -, -, hrest⟩ := h
    exact ih hrest

theorem values_congr (hsame : ∀ a ∈ as, (heap' a).map Cell.value = (heap a).map Cell.value) :
    values heap' as = values heap as :=
  List.filterMap_congr hsame

theorem values_cons_of_map {v : β} (h : (heap a).map Cell.value = some v) :
    values heap (a :: as) = v :: values heap as :=
  List.filterMap_cons_some h

theorem values_cons (h : heap a = some c) : values heap (a :: as) = c.value :: values heap as := by
  apply values_cons_of_map
  rw [h]
  rfl

theorem mem_values (ha : a ∈ as) (hc : heap a = some c) : c.value ∈ values heap as := by
  apply List.mem_filterMap.mpr
  refine ⟨a, ha, ?_⟩
  rw [hc]
  rfl

/-- An assignment to a field allocates nothing. -/
theorem isSome_eq_of_map_value (h : (heap' a).map Cell.value = (heap a).map Cell.value) :
    (heap' a).isSome = (heap a).isSome := by
  rw [← Option.isSome_map (f := Cell.value), h, Option.isSome_map]

theorem values_append : values heap (as ++ back) = values heap as ++ values heap back :=
  List.filterMap_append

variable [DecidableEq α]

/-- Assign to the `prev` field of the cell at `q`, unless `q` is null. -/
def setPrev (heap : Heap α β) (q p : Option α) : Heap α β :=
  match q with
  | none => heap
  | some b => Function.update heap b ((heap b).map fun c => { c with prev := p })

/-- Assign to the `next` field of the cell at `b`. -/
def setNext (heap : Heap α β) (b : α) (p : Option α) : Heap α β :=
  Function.update heap b ((heap b).map fun c => { c with next := p })

theorem setPrev_of_ne (h : q ≠ some a) : setPrev heap q p a = heap a := by
  cases q with
  | none => rfl
  | some b => exact Function.update_of_ne (fun hab => h (congrArg some hab.symm)) ..

theorem setNext_of_ne (h : a ≠ b) : setNext heap b p a = heap a := Function.update_of_ne h ..

@[simp] theorem map_value_setPrev :
    (setPrev heap q p a).map Cell.value = (heap a).map Cell.value := by
  cases q with
  | none => rfl
  | some b =>
    by_cases hab : a = b
    · subst hab
      rw [setPrev, Function.update_self, Option.map_map]
      rfl
    · rw [setPrev_of_ne fun h => hab (Option.some.inj h).symm]

@[simp] theorem map_value_setNext :
    (setNext heap b p a).map Cell.value = (heap a).map Cell.value := by
  by_cases hab : a = b
  · subst hab
    rw [setNext, Function.update_self, Option.map_map]
    rfl
  · rw [setNext_of_ne hab]

/-- The first cell gets another predecessor. -/
theorem Linked.setPrev_first (h : Linked heap p first as) (hnodup : as.Nodup) :
    Linked (setPrev heap first q) q first as := by
  cases as with
  | nil =>
    obtain rfl : first = none := h
    rfl
  | cons a as =>
    obtain ⟨rfl, c, hc, -, hrest⟩ := h
    refine ⟨rfl, { c with prev := q }, ?_, rfl, hrest.congr ?_⟩
    · rw [setPrev, Function.update_self, hc]
      rfl
    · intro b hb
      apply setPrev_of_ne
      rintro ⟨rfl⟩
      exact (List.nodup_cons.mp hnodup).1 hb

/-- The first cell is taken out. -/
theorem Linked.tail (h : Linked heap p (some a) (a :: as)) (hnodup : (a :: as).Nodup)
    (hc : heap a = some c) :
    Linked (Function.update (setPrev heap c.next none) a none) none c.next as := by
  obtain ⟨-, c', hc', -, hrest⟩ := h
  obtain rfl : c' = c := Option.some.inj (hc'.symm.trans hc)
  have hnotMem := (List.nodup_cons.mp hnodup).1
  apply (hrest.setPrev_first (List.nodup_cons.mp hnodup).2).congr
  intro b hb
  apply Function.update_of_ne
  rintro rfl
  exact hnotMem hb

/-- The heap with a new cell behind the one at `a`, whose successor was `q`. -/
def insertAfter (heap : Heap α β) (new a : α) (v : β) (q : Option α) : Heap α β :=
  setPrev (setNext (Function.update heap new (some ⟨v, some a, q⟩)) a (some new)) q (some new)

theorem insertAfter_of_ne {v : β} (hnew : b ≠ new) (ha : b ≠ a) (hq : q ≠ some b) :
    insertAfter heap new a v q b = heap b := by
  rw [insertAfter, setPrev_of_ne hq, setNext_of_ne ha, Function.update_of_ne hnew]

@[simp] theorem map_value_insertAfter {v : β} (hnew : b ≠ new) :
    (insertAfter heap new a v q b).map Cell.value = (heap b).map Cell.value := by
  rw [insertAfter, map_value_setPrev, map_value_setNext, Function.update_of_ne hnew]

@[simp] theorem map_value_insertAfter_self {v : β} :
    (insertAfter heap new a v q new).map Cell.value = some v := by
  rw [insertAfter, map_value_setPrev, map_value_setNext, Function.update_self]
  rfl

theorem values_insertAfter {v : β} (hnew : new ∉ front ++ a :: back) :
    values (insertAfter heap new a v q) (front ++ a :: new :: back) =
      values heap (front ++ [a]) ++ v :: values heap back := by
  have hsame {cells : List α} (hsub : ∀ b ∈ cells, b ∈ front ++ a :: back) :
      values (insertAfter heap new a v q) cells = values heap cells := by
    apply values_congr
    intro b hb
    apply map_value_insertAfter
    rintro rfl
    exact hnew (hsub b hb)
  have hfront : ∀ b ∈ front ++ [a], b ∈ front ++ a :: back := by
    intro b hb
    rw [List.append_cons]
    exact List.mem_append_left back hb
  rw [List.append_cons front a, values_append, values_cons_of_map map_value_insertAfter_self,
    hsame hfront, hsame fun b hb => List.mem_append_right front (List.mem_cons_of_mem a hb)]

/-- A new cell is put behind the one at `a`. -/
theorem Linked.insertAfter (h : Linked heap p first (front ++ a :: back))
    (hnodup : (front ++ a :: back).Nodup) (hnew : new ∉ front ++ a :: back)
    (hc : heap a = some c) (v : β) :
    Linked (insertAfter heap new a v c.next) p first (front ++ a :: new :: back) := by
  induction front generalizing p first with
  | nil =>
    obtain ⟨rfl, c', hc', hprev, hrest⟩ := h
    obtain rfl : c = c' := Option.some.inj (hc.symm.trans hc')
    have hanew : a ≠ new := fun h => hnew (h ▸ List.mem_cons_self)
    have haback := (List.nodup_cons.mp hnodup).1
    have hnewback : new ∉ back := fun h => hnew (List.mem_cons_of_mem a h)
    have hnext {b : α} (hb : b ∉ back) : c.next ≠ some b :=
      fun h => hb (List.mem_of_mem_head? (hrest.first_eq.symm.trans h))
    refine ⟨rfl, { c with next := some new }, ?_, hprev, rfl, ⟨v, some a, c.next⟩, ?_, rfl, ?_⟩
    · rw [LinkedLists.insertAfter, setPrev_of_ne (hnext haback), setNext, Function.update_self,
        Function.update_of_ne hanew, hc]
      rfl
    · rw [LinkedLists.insertAfter, setPrev_of_ne (hnext hnewback), setNext_of_ne hanew.symm,
        Function.update_self]
    · apply Linked.setPrev_first (p := some a) _ (List.nodup_cons.mp hnodup).2
      apply hrest.congr
      intro b hb
      have hba : b ≠ a := fun h => haback (h ▸ hb)
      have hbnew : b ≠ new := fun h => hnewback (h ▸ hb)
      rw [setNext_of_ne hba, Function.update_of_ne hbnew]
  | cons x front ih =>
    obtain ⟨hfirst, d, hd, hprev, hrest⟩ := h
    refine ⟨hfirst, d, ?_, hprev, ih hrest (List.nodup_cons.mp hnodup).2
      fun h => hnew (List.mem_cons_of_mem x h)⟩
    have hx := (List.nodup_cons.mp hnodup).1
    have hxnew : x ≠ new := fun h => hnew (h ▸ List.mem_cons_self)
    have hxa : x ≠ a := fun h => hx (h ▸ List.mem_append_right front List.mem_cons_self)
    rw [insertAfter_of_ne hxnew hxa, hd]
    intro hq
    have hback : x ∈ back := List.mem_of_mem_head? ((hrest.next_eq hc).symm.trans hq)
    exact hx (List.mem_append_right front (List.mem_cons_of_mem a hback))

end Extempore.LinkedLists
