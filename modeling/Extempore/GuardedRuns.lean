/-!
# Guarded runs of a partial step function

A step function returns `none` where a step is not enabled. A run is a list of step
labels executed in order. `Meets ok step s as` says that every step of the run is
taken in a state in which the guard `ok` allows it, so that an invariant needs to be
kept by allowed steps only.
-/

namespace Extempore.GuardedRuns

universe u v

variable {σ : Type u} {ι : Type v} {step : σ → ι → Option σ} {ok : σ → ι → Prop}

/-- Execute the labels in order; `none` as soon as one of them is not enabled. -/
def run (step : σ → ι → Option σ) : σ → List ι → Option σ
  | s, [] => some s
  | s, a :: as => (step s a).bind fun s' => run step s' as

/-- The guard holds at every step of the run that starts in `s`. -/
def Meets (ok : σ → ι → Prop) (step : σ → ι → Option σ) : σ → List ι → Prop
  | _, [] => True
  | s, a :: as => ok s a ∧ ∀ s', step s a = some s' → Meets ok step s' as

@[simp] theorem run_nil (s : σ) : run step s [] = some s := rfl

theorem run_cons_eq_some {s s' : σ} {a : ι} {as : List ι} :
    run step s (a :: as) = some s' ↔ ∃ m, step s a = some m ∧ run step m as = some s' := by
  simp [run, Option.bind_eq_some_iff]

theorem run_append {s : σ} {as bs : List ι} :
    run step s (as ++ bs) = (run step s as).bind fun m => run step m bs := by
  induction as generalizing s with
  | nil => rfl
  | cons a as ih =>
    simp only [List.cons_append, run]
    cases step s a with
    | none => rfl
    | some m => exact ih

/-- An invariant that every allowed step keeps holds at the end of every allowed run. -/
theorem run_invariant {I : σ → Prop}
    (keep : ∀ s a s', I s → ok s a → step s a = some s' → I s')
    {s s' : σ} {as : List ι} (hs : I s) (hok : Meets ok step s as)
    (hr : run step s as = some s') : I s' := by
  induction as generalizing s with
  | nil =>
    obtain rfl : s = s' := by simpa using hr
    exact hs
  | cons a as ih =>
    obtain ⟨m, hm, hr'⟩ := run_cons_eq_some.mp hr
    exact ih (keep s a m hs hok.1 hm) (hok.2 m hm) hr'

theorem meets_cons {s m : σ} {a : ι} {as : List ι} (hs : step s a = some m) (ha : ok s a)
    (hm : Meets ok step m as) : Meets ok step s (a :: as) :=
  ⟨ha, fun _ hs' => Option.some.inj (hs.symm.trans hs') ▸ hm⟩

/-- `I` holds in every state that the run goes through, the first and the last included. -/
def Always (I : σ → Prop) (step : σ → ι → Option σ) (s : σ) (as : List ι) : Prop :=
  ∀ bs cs m, as = bs ++ cs → run step s bs = some m → I m

theorem always_cons {I : σ → Prop} {s m : σ} {a : ι} {as : List ι} (hm : step s a = some m) :
    Always I step s (a :: as) ↔ I s ∧ Always I step m as := by
  constructor
  · intro h
    refine ⟨h [] (a :: as) s rfl rfl, ?_⟩
    rintro bs cs m' rfl hm'
    exact h (a :: bs) cs m' rfl (run_cons_eq_some.mpr ⟨m, hm, hm'⟩)
  · rintro ⟨hs, h⟩ bs cs m' he hm'
    rcases bs with _ | ⟨b, bs⟩
    · obtain rfl : s = m' := by simpa using hm'
      exact hs
    · obtain ⟨rfl, he'⟩ := List.cons.inj he
      obtain ⟨n, hn, hm'⟩ := run_cons_eq_some.mp hm'
      obtain rfl : m = n := Option.some.inj (hm.symm.trans hn)
      exact h bs cs m' he' hm'

/-- Where the guard is exactly what a step needs to keep `I`, a run keeps `I` throughout
just when all of it is allowed. `J` is what allowed steps maintain besides. -/
theorem always_iff_meets {I J : σ → Prop} (hJ : ∀ s, J s → I s)
    (need : ∀ s a s', J s → step s a = some s' → I s' → ok s a)
    (keep : ∀ s a s', J s → ok s a → step s a = some s' → J s')
    {s s' : σ} {as : List ι} (hs : J s) (hr : run step s as = some s') :
    Always I step s as ↔ Meets ok step s as := by
  induction as generalizing s with
  | nil =>
    refine iff_of_true ?_ trivial
    intro bs cs m he hm
    obtain ⟨rfl, rfl⟩ := List.append_eq_nil_iff.mp he.symm
    obtain rfl : s = m := by simpa using hm
    exact hJ s hs
  | cons a as ih =>
    obtain ⟨m, hm, hr'⟩ := run_cons_eq_some.mp hr
    rw [always_cons hm]
    constructor
    · rintro ⟨_, h⟩
      have hok := need s a m hs hm (h [] as m rfl rfl)
      exact meets_cons hm hok ((ih (keep s a m hs hok hm) hr').mp h)
    · intro h
      exact ⟨hJ s hs, (ih (keep s a m hs h.1 hm) hr').mpr (h.2 m hm)⟩

/-- The same for the runs in which besides `may` holds of every step. -/
theorem always_iff_meets_within {I J : σ → Prop} {may : σ → ι → Prop} (hJ : ∀ s, J s → I s)
    (need : ∀ s a s', J s → may s a → step s a = some s' → I s' → ok s a)
    (keep : ∀ s a s', J s → may s a → ok s a → step s a = some s' → J s')
    {s s' : σ} {as : List ι} (hs : J s) (hmay : Meets may step s as) (hr : run step s as = some s') :
    Always I step s as ↔ Meets ok step s as := by
  induction as generalizing s with
  | nil =>
    refine iff_of_true ?_ trivial
    intro bs cs m he hm
    obtain ⟨rfl, rfl⟩ := List.append_eq_nil_iff.mp he.symm
    obtain rfl : s = m := by simpa using hm
    exact hJ s hs
  | cons a as ih =>
    obtain ⟨m, hm, hr'⟩ := run_cons_eq_some.mp hr
    have hrest := hmay.2 m hm
    rw [always_cons hm]
    constructor
    · rintro ⟨_, h⟩
      have hok := need s a m hs hmay.1 hm (h [] as m rfl rfl)
      exact meets_cons hm hok ((ih (keep s a m hs hmay.1 hok hm) hrest hr').mp h)
    · intro h
      exact ⟨hJ s hs, (ih (keep s a m hs hmay.1 h.1 hm) hrest hr').mpr (h.2 m hm)⟩

/-- What holds throughout a run holds after each of its steps. -/
theorem Always.meets {I : σ → Prop} {s : σ} {as : List ι} (h : Always I step s as) :
    Meets (fun s a => ∀ s', step s a = some s' → I s') step s as := by
  induction as generalizing s with
  | nil => trivial
  | cons a as ih =>
    have rest {m : σ} (hm : step s a = some m) : Always I step m as := ((always_cons hm).mp h).2
    exact ⟨fun m hm => rest hm [] as m rfl rfl, fun m hm => ih (rest hm)⟩

/-- What an invariant and the guard imply of every step. -/
theorem meets_of_invariant {J : σ → Prop} {ok' : σ → ι → Prop}
    (keep : ∀ s a s', J s → ok s a → step s a = some s' → J s')
    (imp : ∀ s a, J s → ok s a → ok' s a) {s : σ} {as : List ι} (hs : J s)
    (hok : Meets ok step s as) : Meets ok' step s as := by
  induction as generalizing s with
  | nil => trivial
  | cons a as ih =>
    exact ⟨imp s a hs hok.1, fun s' hs' => ih (keep s a s' hs hok.1 hs') (hok.2 s' hs')⟩

/-- What holds of all labels joins the guard. -/
theorem meets_and_of_forall {P : ι → Prop} {s : σ} {as : List ι} (h : Meets ok step s as)
    (hP : ∀ a ∈ as, P a) : Meets (fun s a => ok s a ∧ P a) step s as := by
  induction as generalizing s with
  | nil => trivial
  | cons a as ih =>
    exact ⟨⟨h.1, hP a List.mem_cons_self⟩, fun s' hs' =>
      ih (h.2 s' hs') fun b hb => hP b (List.mem_cons_of_mem a hb)⟩

instance decidableMeets [∀ s a, Decidable (ok s a)] :
    (s : σ) → (as : List ι) → Decidable (Meets ok step s as)
  | _, [] => isTrue trivial
  | s, a :: as =>
    match h : step s a with
    | none => decidable_of_iff (ok s a) <| by simp [Meets, h]
    | some m =>
      have := decidableMeets m as
      decidable_of_iff (ok s a ∧ Meets ok step m as) <| by simp [Meets, h]

/-- A run in two parts. -/
theorem meets_append {s : σ} {as bs : List ι} : Meets ok step s (as ++ bs) ↔
    Meets ok step s as ∧ ∀ m, run step s as = some m → Meets ok step m bs := by
  induction as generalizing s with
  | nil => simp [Meets]
  | cons a as ih =>
    simp only [List.cons_append, Meets, ih, run_cons_eq_some]
    constructor
    · rintro ⟨ha, h⟩
      exact ⟨⟨ha, fun s' hs' => (h s' hs').1⟩, fun m ⟨s', hs', hm⟩ => (h s' hs').2 m hm⟩
    · rintro ⟨⟨ha, h⟩, hrest⟩
      exact ⟨ha, fun s' hs' => ⟨h s' hs', fun m hm => hrest m ⟨s', hs', hm⟩⟩⟩

/-- Without a guard every run is allowed. -/
theorem meets_true (s : σ) (as : List ι) : Meets (fun _ _ => True) step s as := by
  induction as generalizing s with
  | nil => trivial
  | cons a as ih => exact ⟨trivial, fun s' _ => ih s'⟩

end Extempore.GuardedRuns
