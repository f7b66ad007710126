/-!
# Computations that make calls

A computation ends with a value or makes a call and goes on with what the call returns. Two
computations are equal iff they make the same calls in the same order and end with the same
value, whatever the calls return. A computation that makes some calls of another one again, where
the further results could be such that it goes on as if it had not, stretches it, and what
stretches a computation part by part is equal to it only part by part.
-/

namespace Extempore.CallTrees

universe u v

inductive CallTree (C : Type u) (R : Type u) (A : Type v)
  | done (a : A)
  | call (c : C) (next : R → CallTree C R A)

variable {C R : Type u} {A B D : Type v}

namespace CallTree

def bind : CallTree C R A → (A → CallTree C R B) → CallTree C R B
  | done a, k => k a
  | call c next, k => call c fun r => (next r).bind k

/-- A value with which the computation may end. -/
inductive Result : CallTree C R A → A → Prop
  | done (a : A) : Result (done a) a
  | call {c : C} {next : R → CallTree C R A} {a : A} (r : R) (h : Result (next r) a) :
    Result (call c next) a

/-- The computation makes no calls. -/
def Silent (p : CallTree C R A) : Prop := ∃ a, p = done a

variable {p q : CallTree C R A} {k k' : A → CallTree C R B} {a : A}

@[simp] theorem bind_done (a : A) (k : A → CallTree C R B) : (done a).bind k = k a := rfl

@[simp] theorem bind_call (c : C) (next : R → CallTree C R A) (k : A → CallTree C R B) :
    (call c next).bind k = call c fun r => (next r).bind k := rfl

theorem bind_assoc (p : CallTree C R A) (k : A → CallTree C R B) (l : B → CallTree C R D) :
    (p.bind k).bind l = p.bind fun a => (k a).bind l := by
  induction p with
  | done a => rfl
  | call c next ih =>
    simp only [bind_call, CallTree.call.injEq, true_and]
    funext r
    exact ih r

theorem bind_self (p : CallTree C R A) : p.bind done = p := by
  induction p with
  | done a => rfl
  | call c next ih =>
    simp only [bind_call, CallTree.call.injEq, true_and]
    funext r
    exact ih r

theorem bind_congr (h : ∀ a, Result p a → k a = k' a) : p.bind k = p.bind k' := by
  induction p with
  | done a => exact h a (Result.done a)
  | call c next ih =>
    simp only [bind_call, CallTree.call.injEq, true_and]
    funext r
    exact ih r fun a ha => h a (Result.call r ha)

theorem result_bind {b : B} :
    Result (p.bind k) b ↔ ∃ a, Result p a ∧ Result (k a) b := by
  induction p with
  | done a =>
    constructor
    · exact fun h => ⟨a, Result.done a, h⟩
    · rintro ⟨_, ⟨⟩, h⟩
      exact h
  | call c next ih =>
    constructor
    · intro h
      cases h with
      | call r h =>
        obtain ⟨a, ha, hb⟩ := (ih r).mp h
        exact ⟨a, Result.call r ha, hb⟩
    · rintro ⟨a, ha, hb⟩
      cases ha with
      | call r ha => exact Result.call r ((ih r).mpr ⟨a, ha, hb⟩)

theorem exists_result [Nonempty R] (p : CallTree C R A) : ∃ a, Result p a := by
  induction p with
  | done a => exact ⟨a, Result.done a⟩
  | call c next ih =>
    obtain ⟨r⟩ := ‹Nonempty R›
    obtain ⟨a, ha⟩ := ih r
    exact ⟨a, Result.call r ha⟩

theorem silent_of_bind_eq_done {b : B} (h : p.bind k = done b) : p.Silent := by
  cases p with
  | done a => exact ⟨a, rfl⟩
  | call c next => cases h

theorem silent_bind_iff : (p.bind k).Silent ↔ p.Silent ∧ ∀ a, Result p a → (k a).Silent := by
  constructor
  · intro h
    obtain ⟨b, hb⟩ := h
    obtain ⟨a, rfl⟩ := silent_of_bind_eq_done hb
    apply And.intro ⟨a, rfl⟩
    intro a' ha
    cases ha
    exact ⟨b, hb⟩
  · intro h
    obtain ⟨⟨a, rfl⟩, hk⟩ := h
    exact hk a (Result.done a)

/-! ## Stretched computations -/

/-- `Stretch q p`: the computation `q` goes on as `p` does, but for calls of its own, each with a
result that leaves it a stretched `p`. -/
inductive Stretch : CallTree C R A → CallTree C R A → Prop
  | done (a : A) : Stretch (done a) (done a)
  | call (c : C) {next next' : R → CallTree C R A} (h : ∀ r, Stretch (next r) (next' r)) :
    Stretch (call c next) (call c next')
  | extra (c : C) {next : R → CallTree C R A} {p : CallTree C R A} (r : R)
    (h : Stretch (next r) p) : Stretch (call c next) p

theorem Stretch.refl (p : CallTree C R A) : Stretch p p := by
  induction p with
  | done a => exact Stretch.done a
  | call c next ih => exact Stretch.call c ih

theorem Stretch.of_result (h : Result q a) : Stretch q (CallTree.done a) := by
  induction h with
  | done a => exact Stretch.done a
  | call r _ ih => exact Stretch.extra _ r ih

theorem Stretch.result (h : Stretch q p) (ha : Result p a) : Result q a := by
  induction h with
  | done b => exact ha
  | call c _ ih =>
    cases ha with
    | call r ha => exact Result.call r (ih r ha)
  | extra c r _ ih => exact Result.call r (ih ha)

/-- Stretched parts make a stretched whole. -/
theorem Stretch.bind (h : Stretch q p) (hk : ∀ a, Result p a → Stretch (k' a) (k a)) :
    Stretch (q.bind k') (p.bind k) := by
  induction h with
  | done a => exact hk a (Result.done a)
  | call c _ ih => exact Stretch.call c fun r => ih r fun a ha => hk a (Result.call r ha)
  | extra c r _ ih => exact Stretch.extra c r (ih hk)

/-- What the computation is after a call or more. -/
inductive After : CallTree C R A → CallTree C R A → Prop
  | here (c : C) (next : R → CallTree C R A) (r : R) : After (next r) (call c next)
  | later (c : C) {s : CallTree C R A} {next : R → CallTree C R A} (r : R)
    (h : After s (next r)) : After s (call c next)

theorem After.eq_or {s : CallTree C R A} {c : C} {next : R → CallTree C R A}
    (h : After s (call c next)) : ∃ r, s = next r ∨ After s (next r) := by
  cases h with
  | here _ _ r => exact ⟨r, .inl rfl⟩
  | later _ r h => exact ⟨r, .inr h⟩

theorem After.of_call {c : C} {next : R → CallTree C R A} (r : R) {p : CallTree C R A}
    (h : After (call c next) p) : After (next r) p := by
  generalize hs : call c next = s at h
  induction h with
  | here c' next' r' => exact After.later c' r' (hs ▸ After.here c next r)
  | later c' r' _ ih => exact After.later c' r' (ih hs)

/-- No computation is stretched by what is left of it. -/
theorem not_stretch_of_after {s : CallTree C R A} (h : After s p) : ¬ Stretch s p := by
  induction p generalizing s with
  | done a => cases h
  | call c next ih =>
    intro hs
    generalize hp : call c next = p at hs
    induction hs with
    | done a => cases hp
    | @call c' snext next' hnext _ =>
      cases hp
      obtain ⟨r, h⟩ := h.eq_or
      cases h with
      | inl h => exact ih r (h ▸ After.here c snext r) (hnext r)
      | inr h => exact ih r (h.of_call r) (hnext r)
    | extra c' r _ ihs => exact ihs (hp ▸ (hp ▸ h).of_call r) hp

/-- If the whole is not stretched, then no part is. -/
theorem Stretch.eq_of_bind_eq (h : Stretch q p) (hk : ∀ a, Result p a → Stretch (k' a) (k a))
    (heq : q.bind k' = p.bind k) : q = p ∧ ∀ a, Result p a → k' a = k a := by
  induction h with
  | done a =>
    apply And.intro rfl
    intro b hb
    cases hb
    exact heq
  | @call c next next' _ ih =>
    rw [bind_call, bind_call, CallTree.call.injEq] at heq
    have hparts (r : R) := ih r (fun a ha => hk a (Result.call r ha)) (congrFun heq.2 r)
    constructor
    · rw [CallTree.call.injEq]
      exact ⟨rfl, funext fun r => (hparts r).1⟩
    · intro a ha
      cases ha with
      | call r ha => exact (hparts r).2 a ha
  | @extra c next p r hstretch ih =>
    have hafter : After ((next r).bind k') (p.bind k) := by
      rw [← heq, bind_call]
      exact After.here c (fun r => (next r).bind k') r
    exact absurd (hstretch.bind hk) (not_stretch_of_after hafter)

/-! ## Computations that are equal under a condition -/

/-- The computation `q` stretches `p`, and it is equal to `p` iff the condition holds. -/
structure Follows (q p : CallTree C R A) (cond : Prop) : Prop where
  stretch : Stretch q p
  eq_iff : q = p ↔ cond

variable {cond cond' : Prop} {conds : A → Prop}

theorem Follows.refl (p : CallTree C R A) : Follows p p True :=
  ⟨Stretch.refl p, iff_of_true rfl True.intro⟩

theorem Follows.congr (h : Follows q p cond) (hcond : cond ↔ cond') : Follows q p cond' :=
  ⟨h.stretch, h.eq_iff.trans hcond⟩

theorem Follows.bind (h : Follows q p cond)
    (hk : ∀ a, Result p a → Follows (k' a) (k a) (conds a)) :
    Follows (q.bind k') (p.bind k) (cond ∧ ∀ a, Result p a → conds a) := by
  have hstretch : ∀ a, Result p a → Stretch (k' a) (k a) := fun a ha => (hk a ha).stretch
  apply Follows.mk (h.stretch.bind hstretch)
  constructor
  · intro heq
    obtain ⟨hpart, hparts⟩ := h.stretch.eq_of_bind_eq hstretch heq
    exact ⟨h.eq_iff.mp hpart, fun a ha => (hk a ha).eq_iff.mp (hparts a ha)⟩
  · intro hcond
    rw [h.eq_iff.mpr hcond.1]
    exact bind_congr fun a ha => (hk a ha).eq_iff.mpr (hcond.2 a ha)

theorem forall_result_iff [Nonempty R] {d : Prop} : (∀ a, Result p a → d) ↔ d := by
  constructor
  · intro h
    obtain ⟨a, ha⟩ := exists_result p
    exact h a ha
  · exact fun hd _ _ => hd

/-- A second part that is the same for all results of the first. -/
theorem Follows.then [Nonempty R] (h : Follows q p cond)
    (hk : ∀ a, Result p a → Follows (k' a) (k a) cond') :
    Follows (q.bind k') (p.bind k) (cond ∧ cond') :=
  (h.bind hk).congr (and_congr_right fun _ => forall_result_iff)

/-- A second part that is equal in any case. -/
theorem Follows.bind_refl (h : Follows q p cond) (k : A → CallTree C R B) :
    Follows (q.bind k) (p.bind k) cond :=
  (h.bind fun a _ => Follows.refl (k a)).congr (by simp)

/-- A computation done again, where only the value of the first time is wanted. -/
theorem Follows.of_result (h : Follows q p cond) (ha : Result p a) :
    Follows q (CallTree.done a) (q = CallTree.done a) :=
  ⟨Stretch.of_result (h.stretch.result ha), Iff.rfl⟩

theorem Silent.result_iff (h : p.Silent) {a : A} : Result p a ↔ p = CallTree.done a := by
  obtain ⟨b, rfl⟩ := h
  constructor
  · intro ha
    cases ha
    rfl
  · intro ha
    rw [ha]
    exact Result.done a

end CallTree

end Extempore.CallTrees
