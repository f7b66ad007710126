import Mathlib.Data.Nat.Notation

/-!
# Two deterministic machines in lockstep

A machine takes a state to the next state or ends with an outcome. Two machines whose states
correspond again and again, after one or more steps of each, end with corresponding outcomes
or do not end at all.
-/

namespace Extempore.LockstepRuns

universe u v w x

variable {σ : Type u} {α : Type v} {τ : Type w} {β : Type x}
variable {next : σ → σ ⊕ α} {next' : τ → τ ⊕ β}

/-- `n` steps. An outcome stays. -/
def run (next : σ → σ ⊕ α) : ℕ → σ → σ ⊕ α
  | 0, s => .inl s
  | n + 1, s =>
    match next s with
    | .inl s' => run next n s'
    | .inr a => .inr a

/-- The machine gets from one state to the other. -/
def Reaches (next : σ → σ ⊕ α) (s s' : σ) : Prop := ∃ n, run next n s = .inl s'

/-- The machine ends with the outcome. -/
def Ends (next : σ → σ ⊕ α) (s : σ) (a : α) : Prop := ∃ n, run next n s = .inr a

/-- Every state of the run is good. -/
def Always (good : σ → Prop) (next : σ → σ ⊕ α) (s : σ) : Prop :=
  ∀ n s', run next n s = .inl s' → good s'

theorem run_succ_of_inl {s s' : σ} (h : next s = .inl s') (n : ℕ) :
    run next (n + 1) s = run next n s' := by
  simp only [run, h]

theorem run_succ_of_inr {s : σ} {a : α} (h : next s = .inr a) (n : ℕ) :
    run next (n + 1) s = .inr a := by
  simp only [run, h]

theorem run_add {s s' : σ} {m : ℕ} (h : run next m s = .inl s') (n : ℕ) :
    run next (m + n) s = run next n s' := by
  induction m generalizing s with
  | zero =>
    obtain rfl : s = s' := Sum.inl.inj h
    rw [Nat.zero_add]
  | succ m ih =>
    cases hs : next s with
    | inl t =>
      rw [run_succ_of_inl hs] at h
      rw [Nat.succ_add, run_succ_of_inl hs]
      exact ih h
    | inr a =>
      rw [run_succ_of_inr hs] at h
      cases h

theorem run_add_of_inr {s : σ} {a : α} {m : ℕ} (h : run next m s = .inr a) (n : ℕ) :
    run next (m + n) s = .inr a := by
  induction m generalizing s with
  | zero => cases h
  | succ m ih =>
    rw [Nat.succ_add]
    cases hs : next s with
    | inl t =>
      rw [run_succ_of_inl hs] at h ⊢
      exact ih h
    | inr b =>
      rw [run_succ_of_inr hs] at h ⊢
      exact h

theorem Ends.unique {s : σ} {a b : α} (ha : Ends next s a) (hb : Ends next s b) : a = b := by
  obtain ⟨m, hm⟩ := ha
  obtain ⟨n, hn⟩ := hb
  have h₁ := run_add_of_inr hm n
  have h₂ := run_add_of_inr hn m
  rw [Nat.add_comm, h₂] at h₁
  exact (Sum.inr.inj h₁).symm

theorem Ends.of_inr {s : σ} {a : α} (h : next s = .inr a) : Ends next s a :=
  ⟨1, run_succ_of_inr h 0⟩

theorem Ends.of_reaches {s s' : σ} {a : α} (h : Reaches next s s') (ha : Ends next s' a) :
    Ends next s a := by
  obtain ⟨m, hm⟩ := h
  obtain ⟨n, hn⟩ := ha
  exact ⟨m + n, (run_add hm n).trans hn⟩

theorem Always.here {good : σ → Prop} {s : σ} (h : Always good next s) : good s := h 0 s rfl

theorem Reaches.refl (s : σ) : Reaches next s s := ⟨0, rfl⟩

theorem Reaches.head {s s' s'' : σ} (h : next s = .inl s') (h' : Reaches next s' s'') :
    Reaches next s s'' := by
  obtain ⟨n, hn⟩ := h'
  exact ⟨n + 1, (run_succ_of_inl h n).trans hn⟩

theorem Reaches.trans {s s' s'' : σ} (h : Reaches next s s') (h' : Reaches next s' s'') :
    Reaches next s s'' := by
  obtain ⟨m, hm⟩ := h
  obtain ⟨n, hn⟩ := h'
  exact ⟨m + n, (run_add hm n).trans hn⟩

theorem Ends.of_run {s s' : σ} {a : α} (ha : Ends next s a) (h : Reaches next s s') :
    Ends next s' a := by
  obtain ⟨n, hn⟩ := ha
  obtain ⟨m, hm⟩ := h
  have hr := run_add_of_inr hn m
  rw [Nat.add_comm, run_add hm] at hr
  exact ⟨n, hr⟩

theorem Always.of_reaches {good : σ → Prop} {s s' : σ} (h : Always good next s)
    (hs : Reaches next s s') : Always good next s' := by
  obtain ⟨m, hm⟩ := hs
  exact fun n t hn => h (m + n) t ((run_add hm n).trans hn)

/-- The machine ends after at most `n` steps, and all states are good. -/
def endsGood (good : σ → Bool) (next : σ → σ ⊕ α) : ℕ → σ → Bool
  | 0, _ => false
  | n + 1, s =>
    good s &&
      match next s with
      | .inl s' => endsGood good next n s'
      | .inr _ => true

theorem always_of_endsGood {good : σ → Bool} {n : ℕ} {s : σ} (h : endsGood good next n s = true) :
    Always (fun s => good s = true) next s := by
  induction n generalizing s with
  | zero => cases h
  | succ n ih =>
    rw [endsGood, Bool.and_eq_true] at h
    intro k t ht
    cases k with
    | zero =>
      obtain rfl : s = t := Sum.inl.inj ht
      exact h.1
    | succ k =>
      cases hs : next s with
      | inl s' =>
        rw [run_succ_of_inl hs] at ht
        rw [hs] at h
        exact ih h.2 k t ht
      | inr a =>
        rw [run_succ_of_inr hs] at ht
        cases ht

/-- Each machine takes one or more steps to corresponding states, or both end with
corresponding outcomes. -/
inductive Advances (next : σ → σ ⊕ α) (next' : τ → τ ⊕ β) (R : σ → τ → Prop) (Q : α → β → Prop)
    (s : σ) (t : τ) : Prop
  | steps {s₁ s' : σ} {t₁ t' : τ} : next s = .inl s₁ → Reaches next s₁ s' →
      next' t = .inl t₁ → Reaches next' t₁ t' → R s' t' → Advances next next' R Q s t
  | ends {a : α} {b : β} : next s = .inr a → next' t = .inr b → Q a b → Advances next next' R Q s t

/-- What is left of a run that ends, after one or more steps. -/
theorem exists_run_of_run {s s₁ s' : σ} {a : α} {n : ℕ} (hn : run next n s = .inr a)
    (h : next s = .inl s₁) (h' : Reaches next s₁ s') : ∃ k, k < n ∧ run next k s' = .inr a := by
  cases n with
  | zero => cases hn
  | succ n =>
    rw [run_succ_of_inl h] at hn
    obtain ⟨m, hm⟩ := h'
    rcases Nat.lt_or_ge n m with hlt | hge
    · obtain ⟨k, rfl⟩ := Nat.exists_eq_add_of_lt hlt
      rw [Nat.add_assoc, run_add_of_inr hn] at hm
      cases hm
    · obtain ⟨k, rfl⟩ := Nat.exists_eq_add_of_le hge
      rw [run_add hm] at hn
      exact ⟨k, by omega, hn⟩

theorem Advances.symm {R : σ → τ → Prop} {Q : α → β → Prop} {s : σ} {t : τ}
    (h : Advances next next' R Q s t) :
    Advances next' next (fun t s => R s t) (fun b a => Q a b) t s := by
  cases h with
  | steps hs hs' ht ht' hR => exact .steps ht ht' hs hs' hR
  | ends ha hb hQ => exact .ends hb ha hQ

/-- Where the second machine ends, the first one does. -/
theorem ends_of_ends {R : σ → τ → Prop} {Q : α → β → Prop}
    (advance : ∀ s t, R s t → Advances next next' R Q s t) {s : σ} {t : τ} (hR : R s t) {b : β}
    (hb : Ends next' t b) : ∃ a, Ends next s a ∧ Q a b := by
  obtain ⟨n, hn⟩ := hb
  induction n using Nat.strongRecOn generalizing s t with
  | ind n ih =>
    cases advance s t hR with
    | steps hs hs' ht ht' hR' =>
      obtain ⟨k, hk, hrun⟩ := exists_run_of_run hn ht ht'
      obtain ⟨a, ha, hQ⟩ := ih k hk hR' hrun
      exact ⟨a, ha.of_reaches (.head hs hs'), hQ⟩
    | ends ha hb hQ =>
      obtain rfl := (Ends.of_inr hb).unique ⟨n, hn⟩
      exact ⟨_, .of_inr ha, hQ⟩

/-- Machines that advance together from good states of the second one end together, if all
states of its run are good. -/
theorem ends_together {R : σ → τ → Prop} {Q : α → β → Prop} {good : τ → Prop}
    (advance : ∀ s t, R s t → good t → Advances next next' R Q s t) {s : σ} {t : τ} (hR : R s t)
    (hgood : Always good next' t) :
    (∀ b, Ends next' t b → ∃ a, Ends next s a ∧ Q a b) ∧
      ∀ a, Ends next s a → ∃ b, Ends next' t b ∧ Q a b := by
  have hadvance : ∀ s t, R s t ∧ Always good next' t →
      Advances next next' (fun s t => R s t ∧ Always good next' t) Q s t := by
    intro s t h
    cases advance s t h.1 h.2.here with
    | steps hs hs' ht ht' hR' => exact .steps hs hs' ht ht' ⟨hR', h.2.of_reaches (.head ht ht')⟩
    | ends ha hb hQ => exact .ends ha hb hQ
  constructor
  · exact fun b hb => ends_of_ends hadvance ⟨hR, hgood⟩ hb
  · exact fun a ha => ends_of_ends (fun t s h => (hadvance s t h).symm) ⟨hR, hgood⟩ ha

end Extempore.LockstepRuns
