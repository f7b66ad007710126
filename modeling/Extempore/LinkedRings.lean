import Mathlib.Data.List.Cycle
import Mathlib.Data.List.Iterate
import Mathlib.Logic.Function.Basic

/-!
# Doubly linked rings

A ring is stored as two link maps. `Ring k xs` says that following `cw` visits
exactly the cells of `xs`, in that order, before it returns to the first one, and
that `ccw` runs the same circle backwards. Rings are considered up to rotation, so
a cell can always be brought to the front before it is unlinked or relinked.
-/

namespace Extempore.LinkedRings

universe u

/-- The two link fields of every cell. -/
structure Links (α : Type u) where
  cw : α → α
  ccw : α → α

namespace Links

variable {α : Type u}

/-- `b` is the clockwise neighbour of `a`, and both cells agree on it. -/
def Linked (k : Links α) (a b : α) : Prop := k.cw a = b ∧ k.ccw b = a

variable [DecidableEq α]

/-- Take `p` out by joining its two neighbours; the fields of `p` stay as they were. -/
def unlink (k : Links α) (p : α) : Links α where
  cw := Function.update k.cw (k.ccw p) (k.cw p)
  ccw := Function.update k.ccw (k.cw p) (k.ccw p)

/-- Put `p` between `a` and its clockwise neighbour. -/
def linkAfter (k : Links α) (p a : α) : Links α where
  cw := Function.update (Function.update k.cw p (k.cw a)) a p
  ccw := Function.update (Function.update k.ccw p a) (k.cw a) p

/-- Unlink `p` and put it back right after `a`. -/
def moveAfter (k : Links α) (p a : α) : Links α := (k.unlink p).linkAfter p a

end Links

open Links

variable {α : Type u} {k : Links α} {xs ys : List α} {a b p : α}

/-- The cells of `xs`, each once, form one closed circle of `k`. -/
structure Ring (k : Links α) (xs : List α) : Prop where
  nodup : xs.Nodup
  chain : Cycle.Chain k.Linked (xs : Cycle α)

theorem Ring.rotate (h : Ring k (xs ++ ys)) : Ring k (ys ++ xs) := by
  have hc : ((xs ++ ys : List α) : Cycle α) = ((ys ++ xs : List α) : Cycle α) :=
    Cycle.coe_eq_coe.mpr List.isRotated_append
  refine ⟨List.nodup_append_comm.mp h.nodup, ?_⟩
  rw [← hc]
  exact h.chain

/-- The links of a ring, as a chain that ends where it started. -/
theorem Ring.isChain (h : Ring k (a :: xs)) : List.IsChain k.Linked (a :: (xs ++ [a])) :=
  (Cycle.chain_coe_cons _ _ _).mp h.chain

theorem Ring.of_isChain (hn : (a :: xs).Nodup)
    (hc : List.IsChain k.Linked (a :: (xs ++ [a]))) : Ring k (a :: xs) :=
  ⟨hn, (Cycle.chain_coe_cons _ _ _).mpr hc⟩

theorem Ring.linked (h : Ring k (xs ++ a :: b :: ys)) : k.Linked a b := by
  have hr : Ring k (a :: ((b :: ys) ++ xs)) := by
    simpa using (h.rotate : Ring k ((a :: b :: ys) ++ xs))
  have hc := hr.isChain
  rw [List.cons_append, List.cons_append, List.isChain_cons_cons] at hc
  exact hc.1

theorem Ring.linked_head (h : Ring k (a :: b :: ys)) : k.Linked a b := by
  have h' : Ring k ([] ++ a :: b :: ys) := h
  exact h'.linked

/-- The last cell of the list is followed by the first one. -/
theorem Ring.linked_closing (h : Ring k (a :: (xs ++ [b]))) : k.Linked b a := by
  have hr : Ring k ([b] ++ (a :: xs)) := Ring.rotate (by simpa using h)
  exact hr.linked_head

/-- Every member has a clockwise and a counter-clockwise neighbour in the ring. -/
theorem Ring.exists_neighbours (h : Ring k xs) (ha : a ∈ xs) :
    ∃ b ∈ xs, ∃ c ∈ xs, k.Linked a b ∧ k.Linked c a := by
  obtain ⟨l, r, rfl⟩ := List.append_of_mem ha
  have hr : Ring k (a :: (r ++ l)) := by simpa using h.rotate
  have hc := hr.isChain
  rcases hl : r ++ l with _ | ⟨b, m⟩
  · rw [hl] at hr hc
    have haa : k.Linked a a := by simpa using hc
    exact ⟨a, ha, a, ha, haa, haa⟩
  · rw [hl] at hr hc
    have hmem (c : α) (hm : c ∈ b :: m) : c ∈ l ++ a :: r := by
      have hm' : c ∈ r ++ l := hl ▸ hm
      rcases List.mem_append.mp hm' with hm'|hm' <;> simp [hm']
    rw [List.cons_append, List.isChain_cons_cons] at hc
    obtain ⟨m', c, hm'⟩ : ∃ m' c, b :: m = m' ++ [c] :=
      ⟨_, _, (List.dropLast_append_getLast (List.cons_ne_nil b m)).symm⟩
    have hclose : k.Linked c a := by
      rw [hm'] at hr
      exact hr.linked_closing
    exact ⟨b, hmem b (by simp), c, hmem c (by simp [hm']), hc.1, hclose⟩

/-- The two link maps are inverse to each other on the ring. -/
theorem Ring.ccw_cw (h : Ring k xs) (ha : a ∈ xs) : k.ccw (k.cw a) = a := by
  obtain ⟨b, _, _, _, hb, _⟩ := h.exists_neighbours ha
  rw [hb.1, hb.2]

theorem Ring.cw_ccw (h : Ring k xs) (ha : a ∈ xs) : k.cw (k.ccw a) = a := by
  obtain ⟨_, _, c, _, _, hc⟩ := h.exists_neighbours ha
  rw [hc.2, hc.1]

theorem Ring.cw_mem (h : Ring k xs) (ha : a ∈ xs) : k.cw a ∈ xs := by
  obtain ⟨b, hb, _, _, hab, _⟩ := h.exists_neighbours ha
  rwa [hab.1]

/-- On a ring of several cells no cell is its own neighbour. -/
theorem Ring.cw_ne (h : Ring k xs) (ha : a ∈ xs) (hb : b ∈ xs) (hab : a ≠ b) : k.cw b ≠ b := by
  obtain ⟨l, r, rfl⟩ := List.append_of_mem hb
  have hr : Ring k (b :: (r ++ l)) := by simpa using h.rotate
  have har : a ∈ r ++ l := by
    rw [List.mem_append, List.mem_cons] at ha
    rw [List.mem_append]
    tauto
  cases hl : r ++ l with
  | nil =>
    rw [hl] at har
    cases har
  | cons c m =>
    rw [hl] at hr
    rw [hr.linked_head.1]
    intro hcb
    rw [hcb] at hr
    exact (List.nodup_cons.mp hr.nodup).1 List.mem_cons_self

/-- Following `cw` from the head of a ring lists its cells. -/
theorem Ring.iterate_cw (h : Ring k xs) (ha : xs.head? = some a) :
    List.iterate k.cw a xs.length = xs := by
  obtain ⟨l, rfl⟩ : ∃ l, xs = a :: l := by
    cases xs <;> simp_all
  have hpath : List.IsChain k.Linked (a :: l) := by
    have hc := h.isChain
    rw [← List.cons_append] at hc
    exact hc.left_of_append
  clear h ha
  induction l generalizing a with
  | nil => rfl
  | cons b l ih =>
    rw [List.isChain_cons_cons] at hpath
    rw [List.length_cons, List.iterate, hpath.1.1, ih hpath.2]

theorem Ring.getElem?_iterate_cw (h : Ring k xs) (ha : xs.head? = some a) {i : ℕ}
    (hi : i < xs.length) : xs[i]? = some (k.cw^[i] a) := by
  rw [← h.iterate_cw ha]
  simp [hi]

/-- A chain of new cells between the end `a` of `xs` and the head `b` of `ys` closes to a
larger ring, if the links of all other cells are kept. -/
theorem Ring.splice {k' : Links α} {zs : List α} (h : Ring k ((xs ++ [a]) ++ b :: ys))
    (hn : ((xs ++ [a]) ++ zs ++ b :: ys).Nodup)
    (hc : List.IsChain k'.Linked (a :: (zs ++ [b])))
    (hcw : ∀ c ∈ (xs ++ [a]) ++ b :: ys, c ≠ a → k'.cw c = k.cw c)
    (hccw : ∀ c ∈ (xs ++ [a]) ++ b :: ys, c ≠ b → k'.ccw c = k.ccw c) :
    Ring k' ((xs ++ [a]) ++ zs ++ b :: ys) := by
  have hab : k.Linked a b := by
    have h' : Ring k (xs ++ a :: b :: ys) := by simpa using h
    exact h'.linked
  have hr : Ring k (b :: (ys ++ xs ++ [a])) := by simpa using h.rotate
  have hpath : List.IsChain k'.Linked (b :: (ys ++ xs ++ [a])) := by
    have hk := hr.isChain
    rw [← List.cons_append] at hk
    refine hk.left_of_append.imp_of_mem_tail_imp ?_
    intro c d hcm hdm hcd
    have hdb : d ≠ b := by
      rintro rfl
      exact (List.nodup_cons.mp hr.nodup).1 hdm
    have hca : c ≠ a := by
      rintro rfl
      exact hdb (hcd.1.symm.trans hab.1)
    have hm {e : α} (he : e ∈ b :: (ys ++ xs ++ [a])) : e ∈ (xs ++ [a]) ++ b :: ys := by
      simp only [List.mem_append, List.mem_cons] at he ⊢
      tauto
    exact ⟨by rw [hcw c (hm hcm) hca, hcd.1],
      by rw [hccw d (hm (List.mem_of_mem_tail hdm)) hdb, hcd.2]⟩
  have hring : Ring k' (b :: (ys ++ xs ++ [a] ++ zs)) := by
    refine Ring.of_isChain ?_ ?_
    · have hn' : ((b :: ys) ++ (xs ++ [a] ++ zs)).Nodup := List.nodup_append_comm.mp hn
      simpa using hn'
    · have hpath' : List.IsChain k'.Linked ((b :: (ys ++ xs)) ++ [a]) := by simpa using hpath
      have hsplit := List.isChain_split.mpr ⟨hpath', hc⟩
      simpa using hsplit
  have hrot : Ring k' ((b :: ys) ++ (xs ++ [a] ++ zs)) := by simpa using hring
  exact hrot.rotate

variable [DecidableEq α]

theorem Ring.unlink (h : Ring k (p :: xs)) (hx : xs ≠ []) : Ring (k.unlink p) xs := by
  obtain ⟨x, l, rfl⟩ : ∃ x l, xs = x :: l := List.exists_cons_of_ne_nil hx
  obtain ⟨m, z, hz⟩ : ∃ m z, x :: l = m ++ [z] :=
    ⟨_, _, (List.dropLast_append_getLast hx).symm⟩
  have hp : p ∉ x :: l := (List.nodup_cons.mp h.nodup).1
  have hpx : k.Linked p x := h.linked_head
  have hzp : k.Linked z p := by rw [hz] at h; exact h.linked_closing
  have hpath : List.IsChain (k.unlink p).Linked (x :: l) := by
    have hc := h.isChain
    rw [List.cons_append, List.isChain_cons_cons, ← List.cons_append] at hc
    refine hc.2.left_of_append.imp_of_mem_imp ?_
    -- a neighbour of `p` has no other neighbour inside the list than `p` itself
    intro c d hc hd hcd
    have hcz : c ≠ k.ccw p := by
      rintro rfl
      exact hp (by rw [← hzp.1, ← hzp.2, hcd.1]; exact hd)
    have hdx : d ≠ k.cw p := by
      intro hd
      have hcp : c = p := by rw [← hcd.2, hd, hpx.1, hpx.2]
      exact hp (hcp ▸ hc)
    exact ⟨by simp [Links.unlink, hcz, hcd.1], by simp [Links.unlink, hdx, hcd.2]⟩
  have hclose : (k.unlink p).Linked z x := by
    rw [← hpx.1, ← hzp.2]
    simp [Linked, Links.unlink]
  refine Ring.of_isChain (List.nodup_cons.mp h.nodup).2 ?_
  rw [← List.cons_append, hz]
  rw [hz] at hpath
  exact hpath.append (List.isChain_singleton x) (by simpa using hclose)

theorem Ring.linkAfter (h : Ring k (a :: xs)) (hp : p ∉ a :: xs) :
    Ring (k.linkAfter p a) (a :: p :: xs) := by
  have hn := h.nodup
  have hc := h.isChain
  have hpa : p ≠ a := fun h => hp (by simp [h])
  obtain ⟨b, l, hl⟩ : ∃ b l, xs ++ [a] = b :: l :=
    List.exists_cons_of_ne_nil (by simp)
  have hln : (b :: l).Nodup := by
    rw [← hl]
    exact List.nodup_append_comm.mp (by simpa using hn)
  have hpl : p ∉ b :: l := by
    rw [← hl]
    simpa [and_comm] using hp
  rw [hl, List.isChain_cons_cons] at hc
  have hab : k.cw a = b := hc.1.1
  have hbl : List.IsChain (k.linkAfter p a).Linked (b :: l) := by
    refine hc.2.imp_of_mem_tail_imp ?_
    intro c d hcm hdm hcd
    have hdb : d ≠ b := by
      rintro rfl
      exact (List.nodup_cons.mp hln).1 hdm
    have hdp : d ≠ p := by
      rintro rfl
      exact hpl (List.mem_cons_of_mem _ hdm)
    have hca : c ≠ a := by
      rintro rfl
      exact hdb (hcd.1.symm.trans hab)
    have hcp : c ≠ p := by
      rintro rfl
      exact hpl hcm
    exact ⟨by simp [Links.linkAfter, hca, hcp, hcd.1],
      by simp [Links.linkAfter, hab, hdb, hdp, hcd.2]⟩
  have hpb : p ≠ b := fun h => hpl (by simp [h])
  refine Ring.of_isChain ?_ ?_
  · rw [List.nodup_cons] at hn
    rw [List.mem_cons, not_or] at hp
    simp [hn.1, hn.2, hp.2, hpa.symm]
  rw [List.cons_append, hl]
  refine .cons_cons ?_ (.cons_cons ?_ hbl)
  · exact ⟨by simp [Links.linkAfter], by simp [Links.linkAfter, hab, hpb]⟩
  · exact ⟨by simp [Links.linkAfter, hpa, hab], by simp [Links.linkAfter, hab]⟩

/-- Moving `p` right after `a` changes the order of the ring in no other place. -/
theorem Ring.moveAfter (h : Ring k (p :: (xs ++ a :: ys))) :
    Ring (k.moveAfter p a) (xs ++ a :: p :: ys) := by
  have hu : Ring (k.unlink p) (a :: (ys ++ xs)) := by
    simpa using (h.unlink (by simp)).rotate
  have hp : p ∉ a :: (ys ++ xs) := by
    have hn := (List.nodup_cons.mp h.nodup).1
    simp only [List.mem_append, List.mem_cons, not_or] at hn ⊢
    exact ⟨hn.2.1, hn.2.2, hn.1⟩
  have hl := hu.linkAfter hp
  have hr : Ring (k.moveAfter p a) ((a :: p :: ys) ++ xs) := by simpa [Links.moveAfter] using hl
  exact hr.rotate

theorem Ring.moveAfter_of_before {ms : List α} (h : Ring k (xs ++ p :: (ms ++ a :: ys))) :
    Ring (k.moveAfter p a) (xs ++ (ms ++ a :: p :: ys)) := by
  have hr : Ring k (p :: (ms ++ a :: (ys ++ xs))) := by
    simpa using (h.rotate : Ring k ((p :: (ms ++ a :: ys)) ++ xs))
  have hm : Ring (k.moveAfter p a) ((ms ++ a :: p :: ys) ++ xs) := by simpa using hr.moveAfter
  exact hm.rotate

theorem Ring.moveAfter_of_after {ms : List α} (h : Ring k (xs ++ a :: (ms ++ p :: ys))) :
    Ring (k.moveAfter p a) (xs ++ a :: p :: (ms ++ ys)) := by
  have hr : Ring k (p :: ((ys ++ xs) ++ a :: ms)) := by
    have h' : Ring k ((xs ++ a :: ms) ++ p :: ys) := by simpa using h
    simpa using h'.rotate
  have hm : Ring (k.moveAfter p a) (ys ++ (xs ++ a :: p :: ms)) := by
    simpa using hr.moveAfter
  simpa using hm.rotate

end Extempore.LinkedRings
