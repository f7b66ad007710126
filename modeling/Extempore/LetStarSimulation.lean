import Extempore.LetStarSteps

/-!
# `let*` and nested `let`

A run of a `let*` and a run of the nested `let` go through corresponding states. While the
initialisers are evaluated, one frame of the dump stacks differs: that of the `let*` has the
rest of the bindings, that of the nested form the next `let`. Where a variable is never looked
up, set or defined under a newer variable of the same `let*` with its name, both forms end
alike; where it is, they need not.
-/

namespace Extempore.LetStarSimulation
open SchemeData ReferenceEvaluator LockstepRuns RelatedData LetStar SharedFrames LetStarSteps

/-! ## The recorded run -/

variable {p : Procedures} {depth n : ℕ}

theorem traced_of_record (depth n : ℕ) {m m₁ : Machine} (frames : List ℕ)
    (h : step p m = .inl m₁) :
    traced p depth n (m, frames) = .inl (m₁, record depth n m frames) := by
  simp only [traced, h]

theorem traced_of_inr {m : Machine} {frames : List ℕ} {o : Outcome} (h : step p m = .inr o) :
    traced p depth n (m, frames) = .inr o := by
  simp only [traced, h]

theorem record_of_op {m : Machine} (h : m.op ≠ .base .let2) (frames : List ℕ) :
    record depth n m frames = frames :=
  if_neg fun hm => h hm.1

theorem record_of_depth {m : Machine} (h : m.dump.length ≠ depth) (frames : List ℕ) :
    record depth n m frames = frames :=
  if_neg fun hm => h hm.2.1

theorem record_of_le {frames : List ℕ} (h : n ≤ frames.length) (m : Machine) :
    record depth n m frames = frames :=
  if_neg fun hm => Nat.not_lt.mpr h hm.2.2

/-- The record does not change the run. -/
theorem ends_traced {m : Machine} {frames : List ℕ} {o : Outcome} :
    Ends (traced p depth n) (m, frames) o ↔ Ends (step p) m o := by
  have hrun : ∀ k m frames, run (traced p depth n) k (m, frames) = .inr o ↔
      run (step p) k m = .inr o := by
    intro k
    induction k with
    | zero =>
      intro m frames
      constructor <;> intro h <;> cases h
    | succ k ih =>
      intro m frames
      cases h : step p m with
      | inl m₁ =>
        rw [run_succ_of_inl h, run_succ_of_inl (traced_of_record depth n frames h)]
        exact ih m₁ _
      | inr o' =>
        rw [run_succ_of_inr h, run_succ_of_inr (traced_of_inr h)]
        constructor <;> intro h <;> rw [Sum.inr.inj h]
  exact exists_congr fun k => hrun k m frames

/-! ## Corresponding states -/

/-- The frame of the `let*` while an initialiser is evaluated. -/
def starFrame (w : World) (body : Val) (bs : List Binding) : Frame :=
  if w.frames = [] then ⟨.let1ast, body, w.outer, bindingsCode bs⟩
  else ⟨.let2ast, body, w.shared :: w.outer, bindingsCode bs⟩

/-- The frame of the nested form. -/
def nestedFrame (w : World) (body : Val) (b : Binding) (bs : List Binding) : Frame :=
  ⟨.base .let1, .list [.pair (bindingsCode [b]) (nestedBody body bs)], w.frames ++ w.outer, .nil⟩

theorem starFrame_eq {w w' : World} (hw : w.Le w') (hframes : w'.frames = w.frames) (body : Val)
    (bs : List Binding) : starFrame w' body bs = starFrame w body bs := by
  rw [starFrame, starFrame, hframes, hw.outer]
  split
  · rfl
  · rename_i h
    rw [hw.shared h]

theorem nestedFrame_eq {w w' : World} (hw : w.Le w') (hframes : w'.frames = w.frames) (body : Val)
    (b : Binding) (bs : List Binding) : nestedFrame w' body b bs = nestedFrame w body b bs := by
  rw [nestedFrame, nestedFrame, hframes, hw.outer]

/-- The frames that there were before correspond to themselves. -/
def Keeps (n₀ : ℕ) (w : World) : Prop := ∀ a < n₀, w.ids a a

/-- What the initialisers and the body mention corresponds to itself. -/
structure CodeRel (w : World) (body : Val) (bs : List Binding) : Prop where
  body : DataRel w body body
  bindings : ∀ b ∈ bs, DataRel w b.2 b.2

theorem CodeRel.mono {w w' : World} {body : Val} {bs : List Binding} (h : CodeRel w body bs)
    (hw : w.Le w') : CodeRel w' body bs :=
  ⟨dataRel_mono hw h.body, fun b hb => dataRel_mono hw (h.bindings b hb)⟩

theorem CodeRel.tail {w : World} {body : Val} {b : Binding} {bs : List Binding}
    (h : CodeRel w body (b :: bs)) : CodeRel w body bs :=
  ⟨h.body, fun c hc => h.bindings c (List.mem_cons_of_mem b hc)⟩

/-- The states of a `let*` with `n` bindings and of the nested form at the same place: an
initialiser is being evaluated and the forms wait for its value, or the body is reached. -/
inductive Corresponds (n₀ n depth : ℕ) (body : Val) : Machine → Machine × List ℕ → Prop
  | waiting {w : World} {m m' : Machine} {b : Binding} {bs : List Binding}
      {dump dump' : List Frame} : Keeps n₀ w → MachineRel w m m' → CodeRel w body (b :: bs) →
      List.Forall₂ (FrameRel w) dump dump' → dump'.length = depth →
      w.frames.length + bs.length + 1 = n →
      Corresponds n₀ n depth body
        { m with dump := m.dump ++ starFrame w body (b :: bs) :: dump }
        ({ m' with dump := m'.dump ++ nestedFrame w body b bs :: dump' }, w.frames)
  | done {w : World} {m m' : Machine} : Keeps n₀ w → MachineRel w m m' → n ≤ w.frames.length →
      Corresponds n₀ n depth body m (m', w.frames)

/-- The forms end alike: with the same value and stores in which the frames that there were
before have the same variables with the same data, or in the same other way. -/
def EndsAlike (n₀ : ℕ) (o o' : Outcome) : Prop := ∃ w, Keeps n₀ w ∧ OutcomeRel w o o'

theorem step_append (p : Procedures) (m : Machine) (dump : List Frame) :
    step p { m with dump := m.dump ++ dump } = under dump (step p m) := by
  rw [step_eq_under, step_eq_under p m, under_append]

theorem Keeps.mono {n₀ : ℕ} {w w' : World} (h : Keeps n₀ w) (hw : w.Le w') : Keeps n₀ w' :=
  fun a ha => hw.ids (h a ha)

/-! ## The next binding -/

/-- The new frame of a form, in both runs. -/
theorem exists_share {w : World} {st st' : Store} (hS : StoreRel w st st') (p : Procedures)
    (body v : Val) (bs : List Binding) (dump : List Frame) :
    ∃ w' st₁, w.Le w' ∧ w'.frames = st'.frames.length :: w.frames ∧
      StoreRel w' st₁ (newFrameInEnv st' (w.frames ++ w.outer)).1 ∧
      ∃ m, returnTo (starFrame w body bs :: dump) st v = .inl m ∧
        Reaches (step p) m
          ⟨.let2ast, body, w'.shared :: w'.outer, bindingsCode bs, v, dump, st₁⟩ := by
  by_cases hnil : w.frames = []
  · obtain ⟨w', hw, hframes, hshared, hS'⟩ :=
      exists_share_first hS hnil w.outer (w.frames ++ w.outer)
    refine ⟨w', _, hw, by rw [hframes, hnil], hS', _, rfl, ?_⟩
    rw [starFrame, if_pos hnil, hshared, ← hw.outer]
    exact .head rfl (.refl _)
  · obtain ⟨w', hw, hframes, hS'⟩ := exists_share_next hS hnil (w.frames ++ w.outer)
    refine ⟨w', st, hw, hframes, hS', _, rfl, ?_⟩
    rw [starFrame, if_neg hnil, hw.shared hnil, hw.outer]
    exact .refl _

/-- The nested form opens the next frame. -/
theorem reaches_begin (p : Procedures) {frames : List ℕ} (env : Env) (body v : Val) (b : Binding)
    (bs : List Binding) {dump : List Frame} (st : Store) (hd : dump.length = depth)
    (hn : frames.length < n) :
    Reaches (traced p depth n)
      (⟨.base .let1, .list [.pair (bindingsCode [b]) (nestedBody body bs)], env, .nil, v, dump, st⟩,
        frames)
      (⟨.base .begin, .nil, st.frames.length :: env, nestedBody body bs, v, dump,
          newSlotInEnv (newFrameInEnv st env).1 (st.frames.length :: env) b.1 v⟩,
        st.frames.length :: frames) := by
  have h₁ : step p
      ⟨.base .let1, .list [.pair (bindingsCode [b]) (nestedBody body bs)], env, .nil, v, dump, st⟩ =
      .inl ⟨.base .let2, .list [v], env, .pair (bindingsCode [b]) (nestedBody body bs), v, dump,
        st⟩ := rfl
  have h₂ : step p
      ⟨.base .let2, .list [v], env, .pair (bindingsCode [b]) (nestedBody body bs), v, dump, st⟩ =
      .inl ⟨.base .begin, .nil, st.frames.length :: env, nestedBody body bs, v, dump,
        newSlotInEnv (newFrameInEnv st env).1 (st.frames.length :: env) b.1 v⟩ := rfl
  refine .head (traced_of_record depth n frames h₁) ?_
  rw [record_of_op (by simp)]
  refine .head (traced_of_record depth n frames h₂) ?_
  rw [record, if_pos ⟨rfl, hd, hn⟩]
  exact .refl _

/-- The nested form comes to an initialiser. -/
theorem reaches_of_let (p : Procedures) (depth n : ℕ) (frames : List ℕ) (env : Env)
    (body args v : Val) (b : Binding) (bs : List Binding) (dump : List Frame) (st : Store) :
    ∃ value, Reaches (traced p depth n)
      (⟨.base .eval, args, env, form "let" (.pair (bindingsCode [b]) (nestedBody body bs)), v, dump,
        st⟩, frames)
      (⟨.base .eval, .nil, env, b.2, value,
        ⟨.base .let1, .list [.pair (bindingsCode [b]) (nestedBody body bs)], env, .nil⟩ :: dump,
        st⟩, frames) := by
  let rest : Val := .pair (bindingsCode [b]) (nestedBody body bs)
  have h₁ : step p ⟨.base .eval, args, env, form "let" rest, v, dump, st⟩ =
      .inl ⟨.base .let0, args, env, rest, v, dump, st⟩ := rfl
  have h₂ : step p ⟨.base .let0, args, env, rest, v, dump, st⟩ =
      .inl ⟨.base .let1, .nil, env, bindingsCode [b], rest, dump, st⟩ := rfl
  have h₃ : step p ⟨.base .let1, .nil, env, bindingsCode [b], rest, dump, st⟩ =
      .inl ⟨.base .eval, .nil, env, b.2, rest, ⟨.base .let1, .list [rest], env, .nil⟩ :: dump,
        st⟩ := rfl
  refine ⟨rest, .head (traced_of_record depth n frames h₁) ?_⟩
  rw [record_of_op (by simp)]
  refine .head (traced_of_record depth n frames h₂) ?_
  rw [record_of_op (by simp)]
  refine .head (traced_of_record depth n frames h₃) ?_
  rw [record_of_op (by simp)]
  exact .refl _

/-- From the body of a form to the initialiser of the next one. -/
theorem reaches_initialiser (p : Procedures) (depth n : ℕ) (frames : List ℕ) (env : Env)
    (body args v : Val) (b : Binding) (bs : List Binding) (dump : List Frame) (st : Store) :
    ∃ value, Reaches (traced p depth n)
      (⟨.base .begin, args, env, nestedBody body (b :: bs), v, dump, st⟩, frames)
      (⟨.base .eval, .nil, env, b.2, value,
        ⟨.base .let1, .list [.pair (bindingsCode [b]) (nestedBody body bs)], env, .nil⟩ :: dump,
        st⟩, frames) := by
  have h : step p ⟨.base .begin, args, env, nestedBody body (b :: bs), v, dump, st⟩ =
      .inl ⟨.base .eval, args, env, form "let" (.pair (bindingsCode [b]) (nestedBody body bs)), v,
        dump, st⟩ := rfl
  obtain ⟨value, hlet⟩ := reaches_of_let p depth n frames env body args v b bs dump st
  refine ⟨value, .head (traced_of_record depth n frames h) ?_⟩
  rw [record_of_op (by simp)]
  exact hlet

/-- The value of an initialiser arrives: the `let*` puts the variable into its frame, the
nested form into a new one. -/
theorem resumes {w : World} {n₀ : ℕ} {body : Val} {b : Binding} {bs : List Binding} {v v' : Val}
    {st st' : Store} {dump dump' : List Frame} (p : Procedures) (hk : Keeps n₀ w)
    (hcode : CodeRel w body (b :: bs)) (hdump : List.Forall₂ (FrameRel w) dump dump')
    (hd : dump'.length = depth) (hn : w.frames.length + bs.length + 1 = n) (hv : DataRel w v v')
    (hS : StoreRel w st st') :
    ∃ m m' s t, returnTo (starFrame w body (b :: bs) :: dump) st v = .inl m ∧
      returnTo (nestedFrame w body b bs :: dump') st' v' = .inl m' ∧ Reaches (step p) m s ∧
      Reaches (traced p depth n) (m', w.frames) t ∧ Corresponds n₀ n depth body s t := by
  obtain ⟨w', st₁, hw, hframes, hS₁, m, hm, hreach⟩ := exists_share hS p body v (b :: bs) dump
  have hlt : w.frames.length < n := by omega
  have hopen := reaches_begin p (w.frames ++ w.outer) body v' b bs st' hd hlt
  have hne : w'.frames ≠ [] := by rw [hframes]; exact List.cons_ne_nil _ _
  have hv' := dataRel_mono hw hv
  have henv : st'.frames.length :: (w.frames ++ w.outer) = w'.frames ++ w'.outer := by
    rw [hframes, hw.outer, List.cons_append]
  have hE : EnvRel w' (w'.shared :: w'.outer) (st'.frames.length :: (w.frames ++ w.outer)) := by
    rw [henv]
    exact .shared hne (List.suffix_refl _)
  have hlink : ∀ x, Linked w' (newFrameInEnv st' (w.frames ++ w.outer)).1 x w'.shared
      st'.frames.length :=
    fun x => .shared (l := []) (r := w.frames) hframes (fun d hd => by cases hd)
  have hS₂ : StoreRel w' (newSlotInEnv st₁ (w'.shared :: w'.outer) b.1 v)
      (newSlotInEnv (newFrameInEnv st' (w.frames ++ w.outer)).1
        (st'.frames.length :: (w.frames ++ w.outer)) b.1 v') :=
    storeRel_sets hS₁ (hlink b.1) hv' (sets_newSlotInEnv ((hlink b.1).lt hS₁).1 _ b.1 v)
      (sets_newSlotInEnv ((hlink b.1).lt hS₁).2 _ b.1 v')
  have hdump' : List.Forall₂ (FrameRel w') dump dump' := hdump.imp fun _ _ hf => hf.mono hw
  rw [← hframes] at hopen
  obtain ⟨i, hi⟩ := hreach
  cases bs with
  | nil =>
    have hstep : step p
        ⟨.let2ast, body, w'.shared :: w'.outer, bindingsCode [b], v, dump, st₁⟩ =
        .inl ⟨.base .begin, .nil, w'.shared :: w'.outer, body, v, dump,
          newSlotInEnv st₁ (w'.shared :: w'.outer) b.1 v⟩ := rfl
    refine ⟨m, _, _, _, hm, rfl, ⟨i + 1, (run_add hi 1).trans (run_succ_of_inl hstep 0)⟩, hopen, ?_⟩
    have hbody := dataRel_mono hw hcode.body
    refine .done (hk.mono hw) (.of_begins rfl rfl hE hbody hdump' hS₂) ?_
    rw [hframes, ← hn]
    exact Nat.le_refl _
  | cons c cs =>
    have hstep : step p
        ⟨.let2ast, body, w'.shared :: w'.outer, bindingsCode (b :: c :: cs), v, dump, st₁⟩ =
        .inl ⟨.base .eval, .nil, w'.shared :: w'.outer, c.2, v,
          ⟨.let2ast, body, w'.shared :: w'.outer, bindingsCode (c :: cs)⟩ :: dump,
          newSlotInEnv st₁ (w'.shared :: w'.outer) b.1 v⟩ := rfl
    obtain ⟨value, hinit⟩ := reaches_initialiser p depth n w'.frames
      (st'.frames.length :: (w.frames ++ w.outer)) body .nil v' c cs dump'
      (newSlotInEnv (newFrameInEnv st' (w.frames ++ w.outer)).1
        (st'.frames.length :: (w.frames ++ w.outer)) b.1 v')
    refine ⟨m, _, _, _, hm, rfl, ⟨i + 1, (run_add hi 1).trans (run_succ_of_inl hstep 0)⟩,
      hopen.trans hinit, ?_⟩
    have hstar : starFrame w' body (c :: cs) =
        ⟨.let2ast, body, w'.shared :: w'.outer, bindingsCode (c :: cs)⟩ := if_neg hne
    have hnested : nestedFrame w' body c cs =
        ⟨.base .let1, .list [.pair (bindingsCode [c]) (nestedBody body cs)],
          st'.frames.length :: (w.frames ++ w.outer), .nil⟩ := by
      rw [nestedFrame, henv]
    rw [← hstar, ← hnested]
    have hm : MachineRel w'
        ⟨.base .eval, .nil, w'.shared :: w'.outer, c.2, v, [],
          newSlotInEnv st₁ (w'.shared :: w'.outer) b.1 v⟩
        ⟨.base .eval, .nil, st'.frames.length :: (w.frames ++ w.outer), c.2, value, [],
          newSlotInEnv (newFrameInEnv st' (w.frames ++ w.outer)).1
            (st'.frames.length :: (w.frames ++ w.outer)) b.1 v'⟩ :=
      .of_begins rfl rfl hE (dataRel_mono hw (hcode.bindings c (by simp))) .nil hS₂
    refine .waiting (hk.mono hw) hm (hcode.tail.mono hw) hdump' hd ?_
    rw [hframes, List.length_cons, ← hn, List.length_cons]
    omega

/-! ## Both runs advance -/

/-- From corresponding states both runs get to corresponding states or end alike. -/
theorem advances {n₀ : ℕ} {body : Val} (p : Procedures) {s : Machine} {t : Machine × List ℕ}
    (h : Corresponds n₀ n depth body s t) (hfine : Fine t) :
    Advances (step p) (traced p depth n) (Corresponds n₀ n depth body) (EndsAlike n₀) s t := by
  cases h with
  | @done w m m' hk hm hn =>
    obtain ⟨w', hw, hframes, hr⟩ := step_rel p hm hfine
    generalize hs : step p s = r at hr
    generalize ht : step p m' = r' at hr
    cases hr with
    | inl hm₁ =>
      have htraced := traced_of_record depth n w.frames ht
      rw [record_of_le hn, ← hframes] at htraced
      rw [← hframes] at hn ⊢
      exact .steps hs (.refl _) htraced (.refl _) (.done (hk.mono hw) hm₁ hn)
    | inr ho => exact .ends hs (traced_of_inr ht) ⟨w', hk.mono hw, ho⟩
  | @waiting w m m' b bs dump dump' hk hm hcode hdump hd hn =>
    obtain ⟨w', hw, hframes, hr⟩ := step_rel p hm hfine
    have hs := step_append p m (starFrame w body (b :: bs) :: dump)
    have ht := step_append p m' (nestedFrame w body b bs :: dump')
    generalize step p m = r at hr hs
    generalize step p m' = r' at hr ht
    have hcode' := hcode.mono hw
    have hdump' : List.Forall₂ (FrameRel w') dump dump' := hdump.imp fun _ _ hf => hf.mono hw
    have hrecord : record depth n
        { m' with dump := m'.dump ++ nestedFrame w body b bs :: dump' } w.frames = w.frames := by
      apply record_of_depth
      simp only [List.length_append, List.length_cons]
      omega
    rw [← starFrame_eq hw hframes] at hs ⊢
    rw [← nestedFrame_eq hw hframes] at ht hrecord ⊢
    rw [← hframes] at hn hrecord ⊢
    cases hr with
    | inl hm₁ =>
      have htraced := traced_of_record depth n w'.frames ht
      rw [hrecord] at htraced
      exact .steps hs (.refl _) htraced (.refl _)
        (.waiting (hk.mono hw) hm₁ hcode' hdump' hd hn)
    | inr ho =>
      cases ho with
      | halted hv hS =>
        obtain ⟨m₁, m₁', s', t', h₁, h₁', hleft, hright, hc⟩ :=
          resumes p (hk.mono hw) hcode' hdump' hd hn hv hS
        have htraced := traced_of_record depth n w'.frames (ht.trans h₁')
        rw [hrecord] at htraced
        exact .steps (hs.trans h₁) hleft htraced hright hc
      | error => exact .ends hs (traced_of_inr ht) ⟨w', hk.mono hw, .error⟩
      | threw => exact .ends hs (traced_of_inr ht) ⟨w', hk.mono hw, .threw⟩
      | elsewhere => exact .ends hs (traced_of_inr ht) ⟨w', hk.mono hw, .elsewhere⟩

/-! ## The two forms -/

/-- Every frame that the machine mentions is in its store. -/
structure WellFormed (m : Machine) : Prop where
  envir : ∀ a ∈ m.envir, a < m.store.frames.length
  code : Within m.store.frames.length m.code
  dump : ∀ f ∈ m.dump, Within m.store.frames.length f.args ∧
    (∀ a ∈ f.envir, a < m.store.frames.length) ∧ Within m.store.frames.length f.code
  store : ∀ slots ∈ m.store.frames, ∀ b ∈ slots, Within m.store.frames.length b.2

/-- Before the forms every frame corresponds to itself. -/
def sameWorld (n : ℕ) (env : Env) (h : ∀ a ∈ env, a < n) : World where
  ids a b := a = b ∧ a < n
  shared := 0
  frames := []
  outer := env
  left_unique := by
    rintro a a' b ⟨rfl, -⟩ ⟨rfl, -⟩
    rfl
  right_unique := by
    rintro a b b' ⟨rfl, -⟩ ⟨rfl, -⟩
    rfl
  shared_apart hne := absurd rfl hne
  frames_apart _ := List.not_mem_nil
  nodup := List.nodup_nil
  outer_plain a ha := ⟨rfl, h a ha⟩

section Start

variable {n₀ : ℕ} {env : Env} {h : ∀ a ∈ env, a < n₀}

theorem envRel_self {env' : Env} (h' : ∀ a ∈ env', a < n₀) :
    EnvRel (sameWorld n₀ env h) env' env' :=
  envRel_refl env' fun a ha => ⟨rfl, h' a ha⟩

theorem dataRel_self {v : Val} (hv : Within n₀ v) : DataRel (sameWorld n₀ env h) v v :=
  Same.refl_of_within (fun _ h' => envRel_self h') v hv

theorem frameRel_self {f : Frame} (ha : Within n₀ f.args) (he : ∀ a ∈ f.envir, a < n₀)
    (hc : Within n₀ f.code) : FrameRel (sameWorld n₀ env h) f f := by
  refine ⟨rfl, dataRel_self ha, envRel_self he, fun _ => ?_, dataRel_self hc⟩
  rw [HeadRel]
  cases hf : f.envir with
  | nil => exact .none
  | cons a env' => exact .some ⟨rfl, he a (by rw [hf]; exact List.mem_cons_self)⟩

theorem forall₂_self {dump : List Frame} (hd : ∀ f ∈ dump, Within n₀ f.args ∧
    (∀ a ∈ f.envir, a < n₀) ∧ Within n₀ f.code) :
    List.Forall₂ (FrameRel (sameWorld n₀ env h)) dump dump := by
  rw [List.forall₂_same]
  intro f hf
  obtain ⟨ha, he, hc⟩ := hd f hf
  exact frameRel_self ha he hc

theorem storeRel_self {st : Store} {h : ∀ a ∈ env, a < st.frames.length}
    (hst : ∀ slots ∈ st.frames, ∀ b ∈ slots, Within st.frames.length b.2) :
    StoreRel (sameWorld st.frames.length env h) st st where
  ids_lt hab := ⟨hab.2, hab.1 ▸ hab.2⟩
  shared_lt hne := absurd rfl hne
  frames_lt c hc := absurd hc List.not_mem_nil
  plain {a b} hab x := by
    obtain ⟨rfl, ha⟩ := hab
    cases hv : valueAt st a x with
    | none => exact .none
    | some v =>
      apply Option.Rel.some
      apply dataRel_self
      rw [valueAt, List.getElem?_eq_getElem ha, Option.getD_some] at hv
      obtain ⟨l₁, l₂, hl, -⟩ := List.lookup_eq_some_iff.mp hv
      exact hst _ (List.getElem_mem ha) (x, v) (by rw [hl]; simp)
  shared hne := absurd rfl hne

theorem within_of_bindingsCode {bs : List Binding} (hbs : Within n₀ (bindingsCode bs)) :
    ∀ b ∈ bs, Within n₀ b.2 := by
  induction bs with
  | nil =>
    intro b hb
    cases hb
  | cons c bs ih =>
    intro b hb
    rcases List.mem_cons.mp hb with rfl | hb
    · exact hbs.1.2.1
    · exact ih hbs.2 b hb

theorem codeRel_self {bs : List Binding} {body : Val} (hcode : Within n₀ (letStar bs body)) :
    CodeRel (sameWorld n₀ env h) body bs where
  body := dataRel_self hcode.2.2
  bindings b hb := dataRel_self (within_of_bindingsCode hcode.2.1 b hb)

end Start

/-- Both forms come to corresponding states. -/
theorem exists_corresponds (p : Procedures) (bs : List Binding) (body args value : Val) (env : Env)
    (dump : List Frame) (st : Store)
    (hwf : WellFormed (start (letStar bs body) args value env dump st)) :
    ∃ s t, Reaches (step p) (start (letStar bs body) args value env dump st) s ∧
      Reaches (traced p dump.length bs.length)
        (start (nestedLet bs body) args value env dump st, []) t ∧
      Corresponds st.frames.length bs.length dump.length body s t := by
  obtain ⟨henv, hcode, hdump, hst⟩ := hwf
  have hk : Keeps st.frames.length (sameWorld st.frames.length env henv) := fun a ha => ⟨rfl, ha⟩
  have hS := storeRel_self (h := henv) hst
  have hdump' : List.Forall₂ (FrameRel (sameWorld st.frames.length env henv)) dump dump :=
    forall₂_self hdump
  have hc : CodeRel (sameWorld st.frames.length env henv) body bs := codeRel_self hcode
  have hE : EnvRel (sameWorld st.frames.length env henv) env env := envRel_self henv
  cases bs with
  | nil =>
    have h₁ : step p (start (letStar [] body) args value env dump st) =
        .inl ⟨.base .let0ast, args, env, .pair .nil body, value, dump, st⟩ := rfl
    have h₂ : step p ⟨.base .let0ast, args, env, .pair .nil body, value, dump, st⟩ =
        .inl ⟨.base .begin, args, (newFrameInEnv st env).2, body, value, dump,
          (newFrameInEnv st env).1⟩ := rfl
    have h₁' : step p (start (nestedLet [] body) args value env dump st) =
        .inl ⟨.base .let0, args, env, .pair .nil body, value, dump, st⟩ := rfl
    have h₂' : step p ⟨.base .let0, args, env, .pair .nil body, value, dump, st⟩ =
        .inl ⟨.base .let1, .nil, env, .nil, .pair .nil body, dump, st⟩ := rfl
    have h₃' : step p ⟨.base .let1, .nil, env, .nil, .pair .nil body, dump, st⟩ =
        .inl ⟨.base .let2, .nil, env, .pair .nil body, .pair .nil body, dump, st⟩ := rfl
    have h₄' : step p ⟨.base .let2, .nil, env, .pair .nil body, .pair .nil body, dump, st⟩ =
        .inl ⟨.base .begin, .nil, (newFrameInEnv st env).2, body, .pair .nil body, dump,
          (newFrameInEnv st env).1⟩ := rfl
    obtain ⟨w', hw, hframes, hid, hS'⟩ := exists_addPlain hS env env
    have hm : MachineRel w'
        ⟨.base .begin, args, (newFrameInEnv st env).2, body, value, dump, (newFrameInEnv st env).1⟩
        ⟨.base .begin, .nil, (newFrameInEnv st env).2, body, .pair .nil body, dump,
          (newFrameInEnv st env).1⟩ :=
      .of_begins rfl rfl (.cons hid (hE.mono hw)) (dataRel_mono hw hc.body)
        (hdump'.imp fun _ _ hf => hf.mono hw) hS'
    have hnil : w'.frames = [] := hframes
    have hdone : Corresponds st.frames.length 0 dump.length body _ (_, w'.frames) :=
      .done (hk.mono hw) hm (Nat.zero_le _)
    rw [hnil] at hdone
    have hlast := traced_of_record dump.length 0 [] h₄'
    rw [record_of_le (Nat.zero_le _)] at hlast
    refine ⟨_, _, .head h₁ (.head h₂ (.refl _)), ?_, hdone⟩
    exact .head (traced_of_record _ 0 [] h₁') (.head (traced_of_record _ 0 [] h₂')
      (.head (traced_of_record _ 0 [] h₃') (.head hlast (.refl _))))
  | cons b bs =>
    have h₁ : step p (start (letStar (b :: bs) body) args value env dump st) =
        .inl ⟨.base .let0ast, args, env, .pair (bindingsCode (b :: bs)) body, value, dump, st⟩ :=
      rfl
    have h₂ : step p
        ⟨.base .let0ast, args, env, .pair (bindingsCode (b :: bs)) body, value, dump, st⟩ =
        .inl ⟨.base .eval, args, env, b.2, value,
          ⟨.let1ast, body, env, bindingsCode (b :: bs)⟩ :: dump, st⟩ := rfl
    obtain ⟨value', hlet⟩ :=
      reaches_of_let p dump.length (bs.length + 1) [] env body args value b bs dump st
    have hm : MachineRel (sameWorld st.frames.length env henv)
        ⟨.base .eval, args, env, b.2, value, [], st⟩
        ⟨.base .eval, .nil, env, b.2, value', [], st⟩ :=
      .of_begins rfl rfl hE (hc.bindings b List.mem_cons_self) .nil hS
    refine ⟨_, _, .head h₁ (.head h₂ (.refl _)), hlet, ?_⟩
    exact .waiting hk hm hc hdump' rfl (Nat.zero_add _ ▸ rfl)

/-- In every run of the nested form in which no variable is looked up, set or defined under a
newer variable of the `let*` with its name, the `let*` ends if and only if the nested form
does, and they end alike. -/
theorem ends_alike_of_fine (p : Procedures) (bs : List Binding) (body args value : Val) (env : Env)
    (dump : List Frame) (st : Store)
    (hwf : WellFormed (start (letStar bs body) args value env dump st))
    (hfine : Always Fine (traced p dump.length bs.length)
      (start (nestedLet bs body) args value env dump st, [])) :
    (∀ o', Ends (step p) (start (nestedLet bs body) args value env dump st) o' →
      ∃ o, Ends (step p) (start (letStar bs body) args value env dump st) o ∧
        EndsAlike st.frames.length o o') ∧
    ∀ o, Ends (step p) (start (letStar bs body) args value env dump st) o →
      ∃ o', Ends (step p) (start (nestedLet bs body) args value env dump st) o' ∧
        EndsAlike st.frames.length o o' := by
  obtain ⟨s, t, hs, ht, hc⟩ := exists_corresponds p bs body args value env dump st hwf
  obtain ⟨hright, hleft⟩ :=
    ends_together (fun s t h hfine => advances p h hfine) hc (hfine.of_reaches ht)
  constructor
  · intro o' ho'
    have hend := (ends_traced.mpr ho').of_run ht
    obtain ⟨o, ho, halike⟩ := hright o' hend
    exact ⟨o, ho.of_reaches hs, halike⟩
  · intro o ho
    obtain ⟨o', ho', halike⟩ := hleft o (ho.of_run hs)
    exact ⟨o', ends_traced.mp (ho'.of_reaches ht), halike⟩

/-! ## A name that is bound twice -/

/-- Without primitive procedures. -/
def noProcedures : Procedures where
  eqv _ _ := false
  foreign _ _ := none
  eqv_same _ _ _ _ _ _ _ := rfl
  foreign_same _ _ _ _ _ := .none

theorem ends_alike_of_fine_pair :
    ∃ o, Ends (step noProcedures)
        (start (letStar [("x", .integer 1), ("y", .symbol "x")] (.list [.symbol "y"])) .nil .nil
          [0] [] ⟨[[]]⟩) o ∧
      EndsAlike 1 o (.halted (.integer 1) ⟨[[], [("x", .integer 1)], [("y", .integer 1)]]⟩) := by
  apply (ends_alike_of_fine noProcedures [("x", .integer 1), ("y", .symbol "x")]
    (.list [.symbol "y"]) .nil .nil [0] [] ⟨[[]]⟩ ?_ ?_).1
  · exact ⟨30, rfl⟩
  · refine ⟨?_, ?_, ?_, ?_⟩
    · simp [start]
    · simp [start, letStar, form, bindingsCode, Val.list, Within]
    · simp [start]
    · simp [start]
  · have h : endsGood (fun s => decide (Fine s)) (traced noProcedures 0 2) 30
        (start (nestedLet [("x", .integer 1), ("y", .symbol "x")] (.list [.symbol "y"])) .nil .nil
          [0] [] ⟨[[]]⟩, []) = true := rfl
    exact fun n s hs => of_decide_eq_true (always_of_endsGood h n s hs)

/-- `(let* ((x 1) (f (lambda () x)) (x 2)) (f))` -/
def rebound : List Binding :=
  [("x", .integer 1), ("f", form "lambda" (.list [.nil, .symbol "x"])), ("x", .integer 2)]

/-- The closure of an initialiser sees the later variable with the same name. -/
theorem rebound_differs : ∃ st st',
    Ends (step noProcedures)
      (start (letStar rebound (.list [.list [.symbol "f"]])) .nil .nil [0] [] ⟨[[]]⟩)
      (.halted (.integer 2) st) ∧
    Ends (step noProcedures)
      (start (nestedLet rebound (.list [.list [.symbol "f"]])) .nil .nil [0] [] ⟨[[]]⟩)
      (.halted (.integer 1) st') ∧
    ¬ EndsAlike 1 (.halted (.integer 2) st) (.halted (.integer 1) st') := by
  let f : Val := .closure .tClosure (.list [.nil, .symbol "x"]) [1, 0]
  refine ⟨⟨[[], [("x", .integer 2), ("f", f), ("x", .integer 1)], []]⟩,
    ⟨[[], [("x", .integer 1)], [("f", f)], [("x", .integer 2)], []]⟩, ⟨40, rfl⟩, ⟨40, rfl⟩, ?_⟩
  rintro ⟨w, -, h⟩
  cases h with
  | halted hv _ => cases hv

end Extempore.LetStarSimulation
