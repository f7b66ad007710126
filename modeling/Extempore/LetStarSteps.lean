import Mathlib.Data.List.Forall2
import Extempore.SharedFrames

/-!
# One opcode in two related machines

Two machines with related registers and stores take related steps: there is one lemma for
each opcode, on machines without a dump stack, and a rule for the frames that stand below.
An opcode that begins a form looks at `envir` and `code` only, so that the other registers
need not be related there.
-/

namespace Extempore.LetStarSteps
open SchemeData RelatedData LetStar SharedFrames

/-- The opcodes that begin a form: they do not look at `args` and `value`. -/
def begins : Opcode → Bool
  | .base .eval | .base .lambda | .base .quote | .base .def0 | .base .set0 | .base .begin => true
  | .base .if0 | .base .let0 | .base .let0rec | .base .cond0 | .base .and0 | .base .or0 => true
  | .base .case0 | .base .let0ast | .base .delay | .base .c0stream | .base .macro0 => true
  | _ => false

/-- The opcodes that make slots in a frame which an earlier opcode has made. -/
def fills : Opcode → Bool
  | .base .let1rec | .base .let2rec | .let2ast => true
  | _ => false

/-- Frames of the dump stacks with related registers. -/
structure FrameRel (w : World) (f f' : Frame) : Prop where
  op : f.op = f'.op
  args : DataRel w f.args f'.args
  envir : EnvRel w f.envir f'.envir
  head : fills f.op = true → HeadRel w f.envir f'.envir
  code : DataRel w f.code f'.code

/-- Machines with related registers, dump stacks and stores. -/
structure MachineRel (w : World) (m m' : Machine) : Prop where
  op : m.op = m'.op
  args : begins m.op = false → DataRel w m.args m'.args
  envir : EnvRel w m.envir m'.envir
  head : fills m.op = true → HeadRel w m.envir m'.envir
  code : DataRel w m.code m'.code
  value : begins m.op = false → DataRel w m.value m'.value
  dump : List.Forall₂ (FrameRel w) m.dump m'.dump
  store : StoreRel w m.store m'.store

/-- Related ends. -/
inductive OutcomeRel (w : World) : Outcome → Outcome → Prop
  | halted {v v' : Val} {st st' : Store} : DataRel w v v' → StoreRel w st st' →
      OutcomeRel w (.halted v st) (.halted v' st')
  | error : OutcomeRel w .error .error
  | threw : OutcomeRel w .threw .threw
  | elsewhere : OutcomeRel w .elsewhere .elsewhere

/-- What a step makes of related machines. -/
abbrev ResultRel (w : World) : Machine ⊕ Outcome → Machine ⊕ Outcome → Prop :=
  Sum.LiftRel (MachineRel w) (OutcomeRel w)

theorem FrameRel.mono {w w' : World} {f f' : Frame} (h : FrameRel w f f') (hw : w.Le w') :
    FrameRel w' f f' :=
  ⟨h.op, dataRel_mono hw h.args, h.envir.mono hw, fun hf => (h.head hf).mono hw,
    dataRel_mono hw h.code⟩

/-! ## Frames below -/

/-- The dump stack continues below. -/
def under (dump : List Frame) : Machine ⊕ Outcome → Machine ⊕ Outcome
  | .inl m => .inl { m with dump := m.dump ++ dump }
  | .inr (.halted a st) => returnTo dump st a
  | .inr o => .inr o

theorem resume_eq_under (dump : List Frame) (r : RegisterMachine.Result) :
    resume dump r = under dump (resume [] r) := by
  cases r with
  | running m => simp [resume, under]
  | _ => rfl

/-- No opcode looks at the frames below its own. -/
theorem step_eq_under (p : Procedures) (m : Machine) :
    step p m = under m.dump (step p { m with dump := [] }) := by
  obtain ⟨op, args, envir, code, value, dump, st⟩ := m
  cases op with
  | let1ast => rfl
  | let2ast =>
    simp only [step, let2ast]
    split <;> rfl
  | base op =>
    cases op with
    | let0ast =>
      simp only [step, let0ast]
      split
      · rfl
      · split <;> rfl
    | apply =>
      cases code with
      | other id =>
        simp only [step]
        cases p.foreign id args <;> rfl
      | _ =>
        simp only [step]
        exact resume_eq_under dump _
    | _ =>
      simp only [step]
      exact resume_eq_under dump _

theorem under_append (fs dump : List Frame) (r : Machine ⊕ Outcome) :
    under (fs ++ dump) r = under dump (under fs r) := by
  cases r with
  | inl m => simp [under]
  | inr o =>
    cases o with
    | halted a st =>
      cases fs <;> rfl
    | _ => rfl

variable {w : World}

theorem returnTo_rel {fs fs' : List Frame} (h : List.Forall₂ (FrameRel w) fs fs') {v v' : Val}
    {st st' : Store} (hv : DataRel w v v') (hS : StoreRel w st st') :
    ResultRel w (returnTo fs st v) (returnTo fs' st' v') := by
  cases h with
  | nil => exact .inr (.halted hv hS)
  | cons hf hfs =>
    exact .inl ⟨hf.op, fun _ => hf.args, hf.envir, hf.head, hf.code, fun _ => hv, hfs, hS⟩

theorem under_rel {fs fs' : List Frame} (h : List.Forall₂ (FrameRel w) fs fs')
    {r r' : Machine ⊕ Outcome} (hr : ResultRel w r r') :
    ResultRel w (under fs r) (under fs' r') := by
  cases hr with
  | inl hm =>
    exact .inl ⟨hm.op, hm.args, hm.envir, hm.head, hm.code, hm.value,
      List.rel_append hm.dump h, hm.store⟩
  | inr ho =>
    cases ho with
    | halted hv hS => exact returnTo_rel h hv hS
    | error => exact .inr .error
    | threw => exact .inr .threw
    | elsewhere => exact .inr .elsewhere

theorem MachineRel.of_begins {m m' : Machine} (hop : m.op = m'.op) (hb : begins m.op = true)
    (hE : EnvRel w m.envir m'.envir) (hc : DataRel w m.code m'.code)
    (hd : List.Forall₂ (FrameRel w) m.dump m'.dump) (hS : StoreRel w m.store m'.store) :
    MachineRel w m m' := by
  refine ⟨hop, ?_, hE, ?_, hc, ?_, hd, hS⟩
  · intro h
    rw [hb] at h
    cases h
  · intro h
    cases ho : m.op with
    | base op =>
      rw [ho] at hb h
      cases op <;> cases hb <;> cases h
    | let1ast =>
      rw [ho] at hb
      cases hb
    | let2ast =>
      rw [ho] at hb
      cases hb
  · intro h
    rw [hb] at h
    cases h

/-! ## What an opcode ends with -/

/-- The results are related in a world with more frames. -/
def Follows (w : World) (r r' : Machine ⊕ Outcome) : Prop :=
  ∃ w', w.Le w' ∧ w'.frames = w.frames ∧ ResultRel w' r r'

/-- Related results of opcodes of the register machine. -/
abbrev BaseRel (w : World) (r r' : RegisterMachine.Result) : Prop :=
  Follows w (resume [] r) (resume [] r')

theorem Follows.of_le {w' : World} {r r' : Machine ⊕ Outcome} (h : Follows w' r r') (hw : w.Le w')
    (hframes : w'.frames = w.frames) : Follows w r r' := by
  obtain ⟨w₂, hw₂, hframes₂, hr⟩ := h
  exact ⟨w₂, hw.trans hw₂, hframes₂.trans hframes, hr⟩

theorem Follows.refl {r r' : Machine ⊕ Outcome} (h : ResultRel w r r') : Follows w r r' :=
  ⟨w, .refl w, rfl, h⟩

variable {args args' code code' value value' v v' c c' : Val} {env env' : Env} {st st' : Store}
variable {op : RegisterMachine.Op}

/-- The registers, without a dump stack. -/
abbrev registers (op : RegisterMachine.Op) (args : Val) (env : Env) (code value : Val)
    (st : Store) : RegisterMachine.Machine :=
  ⟨op, args, env, code, value, [], st⟩

theorem baseRel_error : BaseRel w .error .error := .refl (.inr .error)

theorem baseRel_threw : BaseRel w .threw .threw := .refl (.inr .threw)

theorem baseRel_elsewhere : BaseRel w .elsewhere .elsewhere := .refl (.inr .elsewhere)

theorem baseRel_return (hS : StoreRel w st st') (hv : DataRel w v v') :
    BaseRel w (.halted v st) (.halted v' st') :=
  .refl (.inr (.halted hv hS))

/-- Go on with an opcode that begins a form. -/
theorem baseRel_goto (hop : begins (.base op) = true) (hS : StoreRel w st st')
    (hE : EnvRel w env env') (hc : DataRel w code code') :
    BaseRel w (.running (registers op args env code value st))
      (.running (registers op args' env' code' value' st')) :=
  .refl (.inl (.of_begins rfl hop hE hc .nil hS))

/-- Go on with an opcode that takes up what the one before has left. -/
theorem baseRel_go (hS : StoreRel w st st') (hE : EnvRel w env env')
    (hh : fills (.base op) = true → HeadRel w env env') (ha : DataRel w args args')
    (hc : DataRel w code code') (hv : DataRel w value value') :
    BaseRel w (.running (registers op args env code value st))
      (.running (registers op args' env' code' value' st')) :=
  .refl (.inl ⟨rfl, fun _ => ha, hE, hh, hc, fun _ => hv, .nil, hS⟩)

/-- Save a frame and evaluate an expression. -/
theorem baseRel_save (hS : StoreRel w st st') (hE : EnvRel w env env')
    (hh : fills (.base op) = true → HeadRel w env env') (ha : DataRel w c c')
    (hc : DataRel w code code') (he : DataRel w v v') :
    BaseRel w (.running ⟨.eval, args, env, v, value, [⟨op, c, env, code⟩], st⟩)
      (.running ⟨.eval, args', env', v', value', [⟨op, c', env', code'⟩], st'⟩) :=
  .refl (.inl (.of_begins rfl rfl hE he (.cons ⟨rfl, ha, hE, hh, hc⟩ .nil) hS))

/-! ## The opcodes -/

/-- An opcode of the register machine takes the machines to related results. -/
abbrev Together (p : Procedures) (w : World) (m m' : RegisterMachine.Machine) : Prop :=
  BaseRel w (RegisterMachine.step p.eqv m) (RegisterMachine.step p.eqv m')

section Opcodes

variable (p : Procedures) (hS : StoreRel w st st') (hE : EnvRel w env env')
variable (hc : DataRel w code code')

theorem begins_of_syntaxOp {x : Val} {op : RegisterMachine.Op}
    (h : RegisterMachine.syntaxOp x = some op) : begins (.base op) = true := by
  cases x with
  | symbol name =>
    have hmem : (name, op) ∈ RegisterMachine.syntaxTable := by
      obtain ⟨l₁, l₂, hl, -⟩ := List.lookup_eq_some_iff.mp h
      rw [hl]
      simp
    revert hmem
    simp only [RegisterMachine.syntaxTable, List.mem_cons, Prod.mk.injEq, List.not_mem_nil,
      or_false]
    rintro (h | h | h | h | h | h | h | h | h | h | h | h | h | h | h | h) <;> rw [h.2] <;> rfl
  | _ => cases h

include hS hE hc

theorem eval_rel (hu : ∀ x, code' = .symbol x → Unshadowed w.frames st' x env') :
    Together p w (registers .eval args env code value st)
      (registers .eval args' env' code' value' st') := by
  cases hc with
  | symbol name =>
    simp only [Together, RegisterMachine.step]
    rcases findSlotInEnv_rel hS hE (hu name rfl) with ⟨h, h'⟩ | ⟨slot, slot', h, h', -, hval⟩
    · rw [h, h']
      exact baseRel_error
    · rw [h, h']
      exact baseRel_return hS hval
  | pair hx hrest =>
    simp only [Together, RegisterMachine.step]
    rw [hx.syntaxOp_eq]
    split
    · rename_i op hop
      exact baseRel_goto (begins_of_syntaxOp hop) hS hE hrest
    · exact baseRel_save hS hE (by simp [fills]) .nil (.pair hx hrest) hx
  | closure kind hcode henv => exact baseRel_return hS (.closure kind hcode henv)
  | nil => exact baseRel_return hS .nil
  | bool b => exact baseRel_return hS (.bool b)
  | integer n => exact baseRel_return hS (.integer n)
  | character n => exact baseRel_return hS (.character n)
  | string s => exact baseRel_return hS (.string s)
  | other id => exact baseRel_return hS (.other id)

theorem e0args_rel (ha : DataRel w args args') (hv : DataRel w value value') :
    Together p w (registers .e0args args env code value st)
      (registers .e0args args' env' code' value' st') := by
  have hgo : BaseRel w (.running (registers .e1args args env (cdr code) value st))
      (.running (registers .e1args args' env' (cdr code') value' st')) :=
    baseRel_go hS hE (by simp [fills]) ha hc.cdr hv
  cases hv with
  | closure kind hcode henv =>
    cases kind with
    | tMacro =>
      refine .refl (.inl ⟨rfl, ?_, hE, ?_, .closure .tMacro hcode henv, ?_, ?_, hS⟩)
      · exact fun _ => .pair hc .nil
      · intro h
        cases h
      · exact fun _ => .closure .tMacro hcode henv
      · exact .cons ⟨rfl, hc, hE, (fun h => by cases h), .nil⟩ .nil
    | tClosure => exact hgo
    | tPromise => exact hgo
  | _ => exact hgo

/-- The accumulating opcodes, where `next` fills in the same frame as `op` does. -/
theorem accumulate_rel {op next : RegisterMachine.Op} {item : Val → Option Val}
    (hitem : ∀ {b b'}, DataRel w b b' → Option.Rel (DataRel w) (item b) (item b'))
    (hfills : fills (.base op) = fills (.base next))
    (hh : fills (.base op) = true → HeadRel w env env') (ha : DataRel w args args')
    (hv : DataRel w value value') :
    BaseRel w (RegisterMachine.accumulate (registers op args env code value st) op next item)
      (RegisterMachine.accumulate (registers op args' env' code' value' st') op next item) := by
  simp only [RegisterMachine.accumulate, hc.isPair_eq]
  split
  · cases hi : item (car code) with
    | none =>
      cases hi' : item (car code') with
      | none => exact baseRel_error
      | some e' =>
        have := hitem hc.car
        rw [hi, hi'] at this
        cases this
    | some e =>
      cases hi' : item (car code') with
      | none =>
        have := hitem hc.car
        rw [hi, hi'] at this
        cases this
      | some e' =>
        have he := hitem hc.car
        rw [hi, hi'] at he
        cases he with
        | some he => exact baseRel_save hS hE hh (.pair hv ha) hc.cdr he
  · have hargs := Same.reverseInPlace (.pair hv ha) (Same.nil (E := EnvRel w))
    exact baseRel_go hS hE (hfills ▸ hh) hargs.cdr hargs.car hv

theorem e1args_rel (ha : DataRel w args args') (hv : DataRel w value value') :
    Together p w (registers .e1args args env code value st)
      (registers .e1args args' env' code' value' st') :=
  accumulate_rel hS hE hc (fun hb => .some hb) rfl (by simp [fills]) ha hv

theorem let1_rel (ha : DataRel w args args') (hv : DataRel w value value') :
    Together p w (registers .let1 args env code value st)
      (registers .let1 args' env' code' value' st') := by
  have hitem : ∀ {b b'}, DataRel w b b' →
      Option.Rel (DataRel w) (if isPair b then some (car (cdr b)) else none)
        (if isPair b' then some (car (cdr b')) else none) := by
    intro b b' hb
    rw [hb.isPair_eq]
    split
    · exact .some hb.cdr.car
    · exact .none
  exact accumulate_rel hS hE hc hitem rfl (by simp [fills]) ha hv

theorem let1rec_rel (hh : HeadRel w env env') (ha : DataRel w args args')
    (hv : DataRel w value value') :
    Together p w (registers .let1rec args env code value st)
      (registers .let1rec args' env' code' value' st') :=
  accumulate_rel hS hE hc (fun hb => .some hb.cdr.car) rfl (fun _ => hh) ha hv

omit hE in
theorem apply_rel (ha : DataRel w args args') :
    Together p w (registers .apply args env code value st)
      (registers .apply args' env' code' value' st') := by
  cases hc with
  | @closure kind code code' env₁ env₁' hcode henv =>
    obtain ⟨w', hw, hframes, hid, hS'⟩ := exists_addPlain hS env₁ env₁'
    have hhead : HeadRel w' (newFrameInEnv st env₁).2 (newFrameInEnv st' env₁').2 := .some hid
    have hE' : EnvRel w' (newFrameInEnv st env₁).2 (newFrameInEnv st' env₁').2 :=
      .cons hid (henv.mono hw)
    have hcode' := dataRel_mono hw hcode
    have hbind := storeRel_bindParameters hS' hhead hcode'.car (dataRel_mono hw ha)
    refine Follows.of_le ?_ hw hframes
    simp only [RegisterMachine.step, RegisterMachine.apply]
    generalize RegisterMachine.bindParameters _ _ (car code) args = r at hbind ⊢
    generalize RegisterMachine.bindParameters _ _ (car code') args' = r' at hbind ⊢
    cases hbind with
    | none => exact baseRel_error
    | some hS₂ => exact baseRel_goto rfl hS₂ hE' hcode'.cdr
  | _ => exact baseRel_elsewhere

omit hc in
theorem doMacro_rel (hv : DataRel w value value') :
    Together p w (registers .doMacro args env code value st)
      (registers .doMacro args' env' code' value' st') :=
  baseRel_goto rfl hS hE hv

theorem lambda_rel :
    Together p w (registers .lambda args env code value st)
      (registers .lambda args' env' code' value' st') :=
  baseRel_return hS (.closure .tClosure hc hE)

omit hE in
theorem quote_rel :
    Together p w (registers .quote args env code value st)
      (registers .quote args' env' code' value' st') :=
  baseRel_return hS hc.car

theorem def0_rel :
    Together p w (registers .def0 args env code value st)
      (registers .def0 args' env' code' value' st') := by
  have hx := hc.car
  simp only [Together, RegisterMachine.step, RegisterMachine.def0]
  generalize car code = x at hx ⊢
  generalize car code' = x' at hx ⊢
  cases hx with
  | pair hx hformals =>
    cases hx with
    | symbol name =>
      exact baseRel_save hS hE (by simp [fills]) .nil (.symbol name)
        (.pair (.symbol "lambda") (.pair hformals hc.cdr))
    | _ => exact baseRel_error
  | symbol name =>
    simp only [hc.cdr.car.isPair_eq, hc.cdr.car.cdr.car.printsEmpty_eq]
    split
    · exact baseRel_threw
    · exact baseRel_save hS hE (by simp [fills]) .nil (.symbol name) hc.cdr.car
  | _ => exact baseRel_error

theorem def1_rel (hv : DataRel w value value')
    (hu : ∀ x, code' = .symbol x → Unshadowed w.frames st' x (env'.take 1)) :
    Together p w (registers .def1 args env code value st)
      (registers .def1 args' env' code' value' st') := by
  cases hc with
  | symbol name =>
    have hu := hu name rfl
    refine baseRel_return ?_ (.symbol name)
    cases env with
    | nil =>
      cases env' with
      | nil => exact hS
      | cons b env' =>
        generalize h : b :: env' = env₂ at hE
        cases hE
        cases h
    | cons a env =>
      cases env' with
      | nil =>
        generalize h : ([] : Env) = env₂ at hE
        cases hE with
        | cons _ _ => cases h
        | @shared l hne hl =>
          cases l with
          | nil => exact absurd rfl hne
          | cons c l => cases h
      | cons b env' =>
        have hlink := linked_head hE hu
        obtain ⟨ha, hb⟩ := hlink.lt hS
        exact storeRel_sets hS hlink hv (sets_define ha env name value)
          (sets_define hb env' name value')
  | _ => exact baseRel_error

theorem set0_rel :
    Together p w (registers .set0 args env code value st)
      (registers .set0 args' env' code' value' st') :=
  baseRel_save hS hE (by simp [fills]) .nil hc.car hc.cdr.car

theorem set1_rel (hv : DataRel w value value')
    (hu : ∀ x, code' = .symbol x → Unshadowed w.frames st' x env') :
    Together p w (registers .set1 args env code value st)
      (registers .set1 args' env' code' value' st') := by
  cases hc with
  | symbol name =>
    simp only [Together, RegisterMachine.step]
    rcases findSlotInEnv_rel hS hE (hu name rfl) with ⟨h, h'⟩ | ⟨slot, slot', h, h', hlink, -⟩
    · rw [h, h']
      exact baseRel_error
    · rw [h, h']
      refine baseRel_return ?_ hv
      exact storeRel_sets hS hlink hv (sets_setSlotInEnv h value) (sets_setSlotInEnv h' value')
  | _ => exact baseRel_error

theorem begin_rel :
    Together p w (registers .begin args env code value st)
      (registers .begin args' env' code' value' st') := by
  simp only [Together, RegisterMachine.step, hc.isPair_eq, ne_eq, hc.cdr.eq_nil_iff]
  split
  · split
    · exact baseRel_save hS hE (by simp [fills]) .nil hc.cdr hc.car
    · exact baseRel_goto rfl hS hE hc.car
  · exact baseRel_return hS hc

theorem if0_rel :
    Together p w (registers .if0 args env code value st)
      (registers .if0 args' env' code' value' st') :=
  baseRel_save hS hE (by simp [fills]) .nil hc.cdr hc.car

theorem if1_rel (hv : DataRel w value value') :
    Together p w (registers .if1 args env code value st)
      (registers .if1 args' env' code' value' st') := by
  simp only [Together, RegisterMachine.step, hv.isTrue_eq]
  split
  · exact baseRel_goto rfl hS hE hc.car
  · exact baseRel_goto rfl hS hE hc.cdr.car

theorem let0_rel :
    Together p w (registers .let0 args env code value st)
      (registers .let0 args' env' code' value' st') := by
  have hb := hc.car
  simp only [Together, RegisterMachine.step]
  generalize car code = b at hb ⊢
  generalize car code' = b' at hb ⊢
  cases hb with
  | symbol name => exact baseRel_go hS hE (by simp [fills]) .nil hc.cdr.car hc
  | pair ha hd => exact baseRel_go hS hE (by simp [fills]) .nil (.pair ha hd) hc
  | closure kind hcode henv =>
    exact baseRel_go hS hE (by simp [fills]) .nil (.closure kind hcode henv) hc
  | _ => exact baseRel_go hS hE (by simp [fills]) .nil (by constructor) hc

theorem let2_rel (ha : DataRel w args args') :
    Together p w (registers .let2 args env code value st)
      (registers .let2 args' env' code' value' st') := by
  obtain ⟨w', hw, hframes, hid, hS'⟩ := exists_addPlain hS env env'
  have hhead : HeadRel w' (newFrameInEnv st env).2 (newFrameInEnv st' env').2 := .some hid
  have hE' : EnvRel w' (newFrameInEnv st env).2 (newFrameInEnv st' env').2 :=
    .cons hid (hE.mono hw)
  have hc' := dataRel_mono hw hc
  have ha' := dataRel_mono hw ha
  have hplain : ∀ {b b'}, DataRel w' b b' → BaseRel w'
      (.running (registers .begin .nil (newFrameInEnv st env).2 (cdr code) value
        (RegisterMachine.bindVariables (newFrameInEnv st env).1 (newFrameInEnv st env).2 b args)))
      (.running (registers .begin .nil (newFrameInEnv st' env').2 (cdr code') value'
        (RegisterMachine.bindVariables (newFrameInEnv st' env').1 (newFrameInEnv st' env').2 b'
          args'))) :=
    fun hb => baseRel_goto rfl (storeRel_bindVariables hS' hhead hb ha') hE' hc'.cdr
  refine Follows.of_le ?_ hw hframes
  have hb := hc'.car
  simp only [RegisterMachine.step, RegisterMachine.let2]
  generalize car code = b at hb ⊢
  generalize car code' = b' at hb ⊢
  cases hb with
  | symbol name =>
    -- the loop is a closure in the new frame
    have hbs := hc'.cdr.car
    simp only [hbs.isPair_eq]
    split
    · have hloop : DataRel w'
          (.closure .tClosure
            (.pair (RegisterMachine.letVariables (car (cdr code))) (cdr (cdr code)))
            (newFrameInEnv st env).2)
          (.closure .tClosure
            (.pair (RegisterMachine.letVariables (car (cdr code'))) (cdr (cdr code')))
            (newFrameInEnv st' env').2) :=
        .closure .tClosure (.pair hbs.letVariables hc'.cdr.cdr) hE'
      have hvars := storeRel_bindVariables hS' hhead hbs ha'
      exact baseRel_goto rfl (storeRel_newSlotInEnv hvars hhead name hloop) hE' hc'.cdr.cdr
    · exact baseRel_error
  | pair hx hy => exact hplain (.pair hx hy)
  | closure kind hcode henv => exact hplain (.closure kind hcode henv)
  | _ => exact hplain (by constructor)

theorem let0rec_rel :
    Together p w (registers .let0rec args env code value st)
      (registers .let0rec args' env' code' value' st') := by
  obtain ⟨w', hw, hframes, hid, hS'⟩ := exists_addPlain hS env env'
  have hc' := dataRel_mono hw hc
  refine Follows.of_le ?_ hw hframes
  exact baseRel_go hS' (.cons hid (hE.mono hw)) (fun _ => .some hid) .nil hc'.car hc'

theorem let2rec_rel (hh : HeadRel w env env') (ha : DataRel w args args') :
    Together p w (registers .let2rec args env code value st)
      (registers .let2rec args' env' code' value' st') :=
  baseRel_goto rfl (storeRel_bindVariables hS hh hc.car ha) hE hc.cdr

theorem cond0_rel :
    Together p w (registers .cond0 args env code value st)
      (registers .cond0 args' env' code' value' st') := by
  simp only [Together, RegisterMachine.step, hc.isPair_eq]
  split
  · exact baseRel_save hS hE (by simp [fills]) .nil hc hc.car.car
  · exact baseRel_error

theorem cond1_rel (hv : DataRel w value value') :
    Together p w (registers .cond1 args env code value st)
      (registers .cond1 args' env' code' value' st') := by
  have hbody := hc.car.cdr
  simp only [Together, RegisterMachine.step, hv.isTrue_eq, hbody.eq_nil_iff,
    hbody.car.eq_symbol_iff, hbody.cdr.isPair_eq, hc.cdr.eq_nil_iff]
  split
  · split
    · exact baseRel_return hS hv
    · split
      · split
        · apply baseRel_goto rfl hS hE
          exact .pair hbody.cdr.car (.pair (.pair (.symbol "quote") (.pair hv .nil)) .nil)
        · exact baseRel_error
      · exact baseRel_goto rfl hS hE hbody
  · split
    · exact baseRel_return hS .nil
    · exact baseRel_save hS hE (by simp [fills]) .nil hc.cdr hc.cdr.car.car

theorem and0_rel :
    Together p w (registers .and0 args env code value st)
      (registers .and0 args' env' code' value' st') := by
  simp only [Together, RegisterMachine.step, hc.eq_nil_iff]
  split
  · exact baseRel_return hS (.bool true)
  · exact baseRel_save hS hE (by simp [fills]) .nil hc.cdr hc.car

theorem and1_rel (hv : DataRel w value value') :
    Together p w (registers .and1 args env code value st)
      (registers .and1 args' env' code' value' st') := by
  simp only [Together, RegisterMachine.step, hv.isTrue_eq, hc.eq_nil_iff]
  split
  · split
    · exact baseRel_return hS hv
    · exact baseRel_save hS hE (by simp [fills]) .nil hc.cdr hc.car
  · exact baseRel_return hS hv

theorem or0_rel :
    Together p w (registers .or0 args env code value st)
      (registers .or0 args' env' code' value' st') := by
  simp only [Together, RegisterMachine.step, hc.eq_nil_iff]
  split
  · exact baseRel_return hS (.bool false)
  · exact baseRel_save hS hE (by simp [fills]) .nil hc.cdr hc.car

theorem or1_rel (hv : DataRel w value value') :
    Together p w (registers .or1 args env code value st)
      (registers .or1 args' env' code' value' st') := by
  simp only [Together, RegisterMachine.step, hv.isTrue_eq, hc.eq_nil_iff]
  split
  · exact baseRel_return hS hv
  · split
    · exact baseRel_return hS hv
    · exact baseRel_save hS hE (by simp [fills]) .nil hc.cdr hc.car

theorem case0_rel :
    Together p w (registers .case0 args env code value st)
      (registers .case0 args' env' code' value' st') :=
  baseRel_save hS hE (by simp [fills]) .nil hc.cdr hc.car

theorem case1_rel (hv : DataRel w value value') :
    Together p w (registers .case1 args env code value st)
      (registers .case1 args' env' code' value' st') := by
  have hfind := Same.findClause p hv hc
  simp only [Together, RegisterMachine.step]
  generalize RegisterMachine.findClause p.eqv value code = r at hfind ⊢
  generalize RegisterMachine.findClause p.eqv value' code' = r' at hfind ⊢
  cases hfind with
  | none => exact baseRel_error
  | some hclause =>
    cases hclause with
    | pair hclause _ =>
      simp only [hclause.car.isPair_eq]
      split
      · exact baseRel_goto rfl hS hE hclause.cdr
      · exact baseRel_save hS hE (by simp [fills]) .nil hclause.cdr hclause.car
    | _ => exact baseRel_return hS .nil

theorem case2_rel (hv : DataRel w value value') :
    Together p w (registers .case2 args env code value st)
      (registers .case2 args' env' code' value' st') := by
  simp only [Together, RegisterMachine.step, hv.isTrue_eq]
  split
  · exact baseRel_goto rfl hS hE hc
  · exact baseRel_return hS .nil

theorem let0ast_rel :
    Follows w (step p ⟨.base .let0ast, args, env, code, value, [], st⟩)
      (step p ⟨.base .let0ast, args', env', code', value', [], st'⟩) := by
  simp only [step, let0ast, hc.car.eq_nil_iff, hc.car.isPair_eq]
  split
  · obtain ⟨w', hw, hframes, hid, hS'⟩ := exists_addPlain hS env env'
    refine Follows.of_le ?_ hw hframes
    exact baseRel_goto rfl hS' (.cons hid (hE.mono hw)) (dataRel_mono hw hc.cdr)
  · split
    · have hframe : FrameRel w ⟨.let1ast, cdr code, env, car code⟩
          ⟨.let1ast, cdr code', env', car code'⟩ :=
        ⟨rfl, hc.cdr, hE, (fun h => by cases h), hc.car⟩
      exact .refl (.inl (.of_begins rfl rfl hE hc.car.car.cdr.car (.cons hframe .nil) hS))
    · exact .refl (.inr .error)

theorem let1ast_rel (ha : DataRel w args args') (hv : DataRel w value value') :
    Follows w (step p ⟨.let1ast, args, env, code, value, [], st⟩)
      (step p ⟨.let1ast, args', env', code', value', [], st'⟩) := by
  obtain ⟨w', hw, hframes, hid, hS'⟩ := exists_addPlain hS env env'
  refine ⟨w', hw, hframes, .inl ⟨rfl, fun _ => dataRel_mono hw ha, .cons hid (hE.mono hw),
    fun _ => .some hid, dataRel_mono hw hc, fun _ => dataRel_mono hw hv, .nil, hS'⟩⟩

theorem let2ast_rel (hh : HeadRel w env env') (ha : DataRel w args args')
    (hv : DataRel w value value') :
    Follows w (step p ⟨.let2ast, args, env, code, value, [], st⟩)
      (step p ⟨.let2ast, args', env', code', value', [], st'⟩) := by
  have hS' := storeRel_newSlotFor hS hh hc.car.car hv
  simp only [step, let2ast, hc.cdr.isPair_eq]
  split
  · have hframe : FrameRel w ⟨.let2ast, args, env, cdr code⟩ ⟨.let2ast, args', env', cdr code'⟩ :=
      ⟨rfl, ha, hE, fun _ => hh, hc.cdr⟩
    exact .refl (.inl (.of_begins rfl rfl hE hc.cdr.car.cdr.car (.cons hframe .nil) hS'))
  · exact baseRel_goto rfl hS' hE ha

end Opcodes

/-- A call of a primitive procedure. -/
theorem foreign_rel (p : Procedures) (id : ℕ) (hS : StoreRel w st st')
    (ha : DataRel w args args') :
    Follows w (step p ⟨.base .apply, args, env, .other id, value, [], st⟩)
      (step p ⟨.base .apply, args', env', .other id, value', [], st'⟩) := by
  have hv := p.foreign_same (EnvRel w) id ha
  simp only [step]
  generalize p.foreign id args = r at hv ⊢
  generalize p.foreign id args' = r' at hv ⊢
  cases hv with
  | none => exact .refl (.inr .elsewhere)
  | some hv => exact .refl (.inr (.halted hv hS))

/-- One step of related machines without a dump stack, in which the condition holds. -/
theorem step_rel_nil (p : Procedures) {m m' : Machine} (hm : MachineRel w m m')
    (hd : m.dump = []) (hd' : m'.dump = []) (hfine : Fine (m', w.frames)) :
    Follows w (step p m) (step p m') := by
  obtain ⟨op, args, env, code, value, dump, st⟩ := m
  obtain ⟨op', args', env', code', value', dump', st'⟩ := m'
  obtain ⟨hop, ha, hE, hh, hc, hv, -, hS⟩ := hm
  obtain rfl : op = op' := hop
  obtain rfl : dump = [] := hd
  obtain rfl : dump' = [] := hd'
  cases op with
  | let1ast => exact let1ast_rel p hS hE hc (ha rfl) (hv rfl)
  | let2ast => exact let2ast_rel p hS hE hc (hh rfl) (ha rfl) (hv rfl)
  | base op =>
    cases op with
    | eval =>
      apply eval_rel p hS hE hc
      rintro x rfl
      exact hfine (x, env') rfl
    | e0args => exact e0args_rel p hS hE hc (ha rfl) (hv rfl)
    | e1args => exact e1args_rel p hS hE hc (ha rfl) (hv rfl)
    | apply =>
      have hbase : Together p w (registers .apply args env code value st)
          (registers .apply args' env' code' value' st') := apply_rel p hS hc (ha rfl)
      cases hc with
      | other id => exact foreign_rel p id hS (ha rfl)
      | _ => exact hbase
    | doMacro => exact doMacro_rel p hS hE (hv rfl)
    | lambda => exact lambda_rel p hS hE hc
    | quote => exact quote_rel p hS hc
    | def0 => exact def0_rel p hS hE hc
    | def1 =>
      apply def1_rel p hS hE hc (hv rfl)
      rintro x rfl
      exact hfine (x, env'.take 1) rfl
    | set0 => exact set0_rel p hS hE hc
    | set1 =>
      apply set1_rel p hS hE hc (hv rfl)
      rintro x rfl
      exact hfine (x, env') rfl
    | begin => exact begin_rel p hS hE hc
    | if0 => exact if0_rel p hS hE hc
    | if1 => exact if1_rel p hS hE hc (hv rfl)
    | let0 => exact let0_rel p hS hE hc
    | let1 => exact let1_rel p hS hE hc (ha rfl) (hv rfl)
    | let2 => exact let2_rel p hS hE hc (ha rfl)
    | let0rec => exact let0rec_rel p hS hE hc
    | let1rec => exact let1rec_rel p hS hE hc (hh rfl) (ha rfl) (hv rfl)
    | let2rec => exact let2rec_rel p hS hE hc (hh rfl) (ha rfl)
    | cond0 => exact cond0_rel p hS hE hc
    | cond1 => exact cond1_rel p hS hE hc (hv rfl)
    | and0 => exact and0_rel p hS hE hc
    | and1 => exact and1_rel p hS hE hc (hv rfl)
    | or0 => exact or0_rel p hS hE hc
    | or1 => exact or1_rel p hS hE hc (hv rfl)
    | case0 => exact case0_rel p hS hE hc
    | case1 => exact case1_rel p hS hE hc (hv rfl)
    | case2 => exact case2_rel p hS hE hc (hv rfl)
    | let0ast => exact let0ast_rel p hS hE hc
    | delay => exact baseRel_elsewhere
    | c0stream => exact baseRel_elsewhere
    | macro0 => exact baseRel_elsewhere

/-- One step of related machines in which the condition holds. -/
theorem step_rel (p : Procedures) {m m' : Machine} (hm : MachineRel w m m')
    (hfine : Fine (m', w.frames)) : Follows w (step p m) (step p m') := by
  have hm₀ : MachineRel w { m with dump := [] } { m' with dump := [] } :=
    ⟨hm.op, hm.args, hm.envir, hm.head, hm.code, hm.value, .nil, hm.store⟩
  obtain ⟨w', hw, hframes, hr⟩ := step_rel_nil p hm₀ rfl rfl hfine
  refine ⟨w', hw, hframes, ?_⟩
  rw [step_eq_under p m, step_eq_under p m']
  exact under_rel (hm.dump.imp fun _ _ hf => hf.mono hw) hr

end Extempore.LetStarSteps
