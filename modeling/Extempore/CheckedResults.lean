/-!
# A computation and its checked version

The same program is run twice, once as it is and once with a check that stops it with a fault.
`Agrees` says that the checked run stops with the fault, or both runs have the same result, of
which a property is known.
-/

namespace Extempore.CheckedResults

universe u v

variable {ε : Type u} {α β : Type v} {fault : ε} {c w : Except ε α} {P Q : α → Prop}

/-- What a result of two steps in a row came from. -/
theorem exists_of_bind_eq_ok {x : Except ε α} {f : α → Except ε β} {b : β}
    (h : x >>= f = .ok b) : ∃ a, x = .ok a ∧ f a = .ok b := by
  cases x with
  | error e => cases h
  | ok a => exact ⟨a, rfl, h⟩

def Agrees (fault : ε) (c w : Except ε α) (P : α → Prop) : Prop :=
  c = .error fault ∨ ∃ a, c = .ok a ∧ w = .ok a ∧ P a

namespace Agrees

theorem pure {a : α} (ha : P a) : Agrees fault (.ok a) (.ok a) P :=
  Or.inr ⟨a, rfl, rfl, ha⟩

theorem imp (h : Agrees fault c w P) (hPQ : ∀ a, P a → Q a) : Agrees fault c w Q := by
  cases h with
  | inl hfault => exact Or.inl hfault
  | inr hok =>
    obtain ⟨a, hc, hw, ha⟩ := hok
    exact Or.inr ⟨a, hc, hw, hPQ a ha⟩

theorem bind {R : β → Prop} {f g : α → Except ε β} (h : Agrees fault c w P)
    (hnext : ∀ a, P a → Agrees fault (f a) (g a) R) : Agrees fault (c >>= f) (w >>= g) R := by
  cases h with
  | inl hfault =>
    subst hfault
    exact Or.inl rfl
  | inr hok =>
    obtain ⟨a, rfl, rfl, ha⟩ := hok
    exact hnext a ha

theorem map {R : β → Prop} (f : α → β) (h : Agrees fault c w fun a => R (f a)) :
    Agrees fault (c >>= fun a => .ok (f a)) (w >>= fun a => .ok (f a)) R := by
  apply h.bind
  intro a ha
  exact pure ha

/-- A loop over a list keeps a relation between the items done and the accumulator. -/
theorem foldlM (I : List β → α → Prop) {f g : α → β → Except ε α} {items : List β}
    (hstep : ∀ done item a, item ∈ items → I done a →
      Agrees fault (f a item) (g a item) (I (done ++ [item])))
    (done : List β) {a : α} (ha : I done a) :
    Agrees fault (items.foldlM f a) (items.foldlM g a) (I (done ++ items)) := by
  induction items generalizing done a with
  | nil => exact pure (by simpa using ha)
  | cons item items ih =>
    rw [List.foldlM_cons, List.foldlM_cons]
    refine (hstep done item a List.mem_cons_self ha).bind ?_
    intro b hb
    have hrest := ih (fun done' i a' hi => hstep done' i a' (List.mem_cons_of_mem _ hi)) _ hb
    rwa [List.append_assoc, List.singleton_append] at hrest

/-- Where the checked run does not stop with the fault, the run has a result. -/
theorem result (h : Agrees fault c w P) (hc : c ≠ .error fault) : ∃ a, w = .ok a ∧ P a := by
  cases h with
  | inl hfault => exact absurd hfault hc
  | inr hok =>
    obtain ⟨a, -, hw, ha⟩ := hok
    exact ⟨a, hw, ha⟩

end Agrees

end Extempore.CheckedResults
