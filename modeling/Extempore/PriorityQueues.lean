import Mathlib.Data.List.Sort

/-!
# Priority queues

A queue whose elements are kept in the order of their keys, so that the element on top has the
least key. Pushing and popping move elements; none is lost or made twice.
-/

namespace Extempore.PriorityQueues

universe u v

variable {α : Type u} {κ : Type v} [LinearOrder κ] {key : α → κ}

/-- The elements in the order of their keys. -/
structure PriorityQueue (key : α → κ) where
  elems : List α
  sorted : elems.Pairwise fun a b => key a ≤ key b

namespace PriorityQueue

variable {q : PriorityQueue key} {a b : α}

def empty (key : α → κ) : PriorityQueue key := ⟨[], .nil⟩

def push (q : PriorityQueue key) (a : α) : PriorityQueue key where
  elems := q.elems.orderedInsert (fun a b => key a ≤ key b) a
  sorted := by
    have htotal : Std.Total fun a b : α => key a ≤ key b := ⟨fun a b => le_total _ _⟩
    have htrans : IsTrans α fun a b => key a ≤ key b := ⟨fun a b c => le_trans⟩
    exact q.sorted.orderedInsert a _

/-- The element with the least key. -/
def top? (q : PriorityQueue key) : Option α := q.elems.head?

def pop (q : PriorityQueue key) : PriorityQueue key where
  elems := q.elems.tail
  sorted := q.sorted.tail

@[simp] theorem elems_empty : (empty key).elems = [] := rfl

theorem elems_push : (q.push a).elems.Perm (a :: q.elems) :=
  List.perm_orderedInsert _ a q.elems

theorem elems_of_top? (h : q.top? = some a) : q.elems = a :: q.pop.elems :=
  List.eq_cons_of_mem_head? h

theorem elems_of_top?_none (h : q.top? = none) : q.elems = [] :=
  List.head?_eq_none_iff.mp h

theorem key_top?_le (h : q.top? = some a) (hb : b ∈ q.elems) : key a ≤ key b := by
  have hsorted := q.sorted
  rw [elems_of_top? h] at hb hsorted
  cases List.mem_cons.mp hb with
  | inl heq => rw [heq]
  | inr htail => exact (List.pairwise_cons.mp hsorted).1 b htail

end PriorityQueue

end Extempore.PriorityQueues
