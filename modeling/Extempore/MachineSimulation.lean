import Mathlib.Logic.Relation
import Extempore.ReferenceEvaluator
import Extempore.RegisterMachine

/-!
# The machine follows the reference evaluator

For every derivation of the reference evaluator the machine runs from `OP_EVAL` to the
`_s_return` of the same value, whatever stands on the dump stack, and its environments then
hold what the evaluator's frames say. The simulation is by induction on the derivation; the
forms that are spread over several opcodes are followed by what their opcodes keep in `args`,
`code` and the frame on top.
-/

namespace Extempore.MachineSimulation
open SchemeData ReferenceEvaluator RegisterMachine

variable {eqv : Val → Val → Bool}

/-- The machine takes one step. -/
def Next (eqv : Val → Val → Bool) (r r' : Result) : Prop := ∃ m, r = .running m ∧ step eqv m = r'

/-- The machine gets from one state to another in one or more steps. -/
def Reaches (eqv : Val → Val → Bool) : Result → Result → Prop := Relation.TransGen (Next eqv)

theorem Reaches.one {m : Machine} {r : Result} (h : step eqv m = r) :
    Reaches eqv (.running m) r := .single ⟨m, rfl, h⟩

theorem Reaches.cons {m : Machine} {r r' : Result} (h : step eqv m = r) (hr : Reaches eqv r r') :
    Reaches eqv (.running m) r' := Relation.TransGen.head ⟨m, rfl, h⟩ hr

theorem Reaches.append {r r' r'' : Result} (h : Reaches eqv r r') (h' : Reaches eqv r' r'') :
    Reaches eqv r r'' := Relation.TransGen.trans h h'

/-- The points at which the machine does what the evaluator says: the element behind the
operator of a defining expression has a text, and a named `let` has variables, among which
its name is not. -/
def Fine : Point → Prop
  | .define e => isPair e = true → printsEmpty (car (cdr e)) = false
  | .namedLet name names => names ≠ [] ∧ name ∉ names

/-- The registers of an accumulating opcode: where it goes at the end, and what it takes as the
expression of an item. -/
inductive Accumulates : Op → Op → (Val → Option Val) → Prop
  | e1args : Accumulates .e1args .apply some
  | let1 : Accumulates .let1 .let2 fun b => if isPair b then some (car (cdr b)) else none
  | let1rec : Accumulates .let1rec .let2rec fun b => some (car (cdr b))

theorem Accumulates.step {op next : Op} {item : Val → Option Val} (h : Accumulates op next item)
    (m : Machine) (hm : m.op = op) : RegisterMachine.step eqv m = accumulate m op next item := by
  cases h <;> simp [RegisterMachine.step, hm]

/-- What the machine does for a job that takes the frames `s` to `s'` and has the value `v`. -/
def Simulated (eqv : Val → Val → Bool) : Job → Env → Frames → Val → Frames → Prop
  | .expr e, env, s, v, s' => ∀ st, st.abs = s → ∀ args value dump, ∃ st', st'.abs = s' ∧
      Reaches eqv (.running ⟨.eval, args, env, e, value, dump, st⟩) (returnTo dump st' v)
  | .all es, env, s, v, s' => ∀ vs, v = .list vs → ∀ st, st.abs = s → ∀ op next item,
      Accumulates op next item → ∀ items, items.map item = es.map some → ∀ acc value dump,
      ∃ st' value', st'.abs = s' ∧
        Reaches eqv (.running ⟨op, .list acc, env, .list items, value, dump, st⟩)
          (.running ⟨next, cdr (.list (acc.reverse ++ value :: vs)), env,
            car (.list (acc.reverse ++ value :: vs)), value', dump, st'⟩)
  | .body es, env, s, v, s' => ∀ st, st.abs = s → ∀ args value dump, ∃ st', st'.abs = s' ∧
      Reaches eqv (.running ⟨.begin, args, env, .list es, value, dump, st⟩) (returnTo dump st' v)
  | .conj [], _, _, _, _ => True
  | .conj (e :: es), env, s, v, s' => ∀ st, st.abs = s → ∀ args value dump, ∃ st', st'.abs = s' ∧
      Reaches eqv (.running ⟨.eval, args, env, e, value, ⟨.and1, .nil, env, .list es⟩ :: dump, st⟩)
        (returnTo dump st' v)
  | .disj [], _, _, _, _ => True
  | .disj (e :: es), env, s, v, s' => ∀ st, st.abs = s → ∀ args value dump, ∃ st', st'.abs = s' ∧
      Reaches eqv (.running ⟨.eval, args, env, e, value, ⟨.or1, .nil, env, .list es⟩ :: dump, st⟩)
        (returnTo dump st' v)
  | .clauses [], _, _, _, _ => True
  | .clauses (c :: cs), env, s, v, s' => ∀ st, st.abs = s → ∀ args value dump,
      ∃ st', st'.abs = s' ∧
      Reaches eqv
        (.running ⟨.eval, args, env, c.1, value, ⟨.cond1, .nil, env, clausesCode (c :: cs)⟩ :: dump,
          st⟩)
        (returnTo dump st' v)

/-- A form goes to the opcode of its keyword. -/
theorem Reaches.form {keyword : String} (op : Op) (h : syntaxnum keyword = some op) {args : Val}
    {env : Env} {rest value : Val} {dump : List Frame} {st : Store} {r : Result}
    (hr : Reaches eqv (.running ⟨op, args, env, rest, value, dump, st⟩) r) :
    Reaches eqv (.running ⟨.eval, args, env, form keyword rest, value, dump, st⟩) r :=
  .cons (by simp [step, ReferenceEvaluator.form, syntaxOp, h, sGoto]) hr

theorem syntaxnum_eq_none {x : String} (h : x ∉ keywords) : syntaxnum x = none := by
  have hkeys : keywords = syntaxTable.map Prod.fst := rfl
  rw [hkeys] at h
  rw [syntaxnum, List.lookup_eq_none_iff]
  intro p hp
  rw [bne_iff_ne, ne_eq]
  rintro rfl
  exact h (List.mem_map_of_mem hp)

theorem syntaxOp_eq_none {f : Val} (h : ∀ x ∈ keywords, f ≠ .symbol x) : syntaxOp f = none := by
  cases f with
  | symbol name => exact syntaxnum_eq_none fun hm => h name hm rfl
  | _ => rfl

/-! ## Binding -/

theorem modify_concat {α : Type*} (as : List α) (a : α) (f : α → α) :
    (as ++ [a]).modify as.length f = as ++ [f a] := by
  induction as with
  | nil => rfl
  | cons b as ih => simp [ih]

/-- The slots of the parameters before `last`. -/
theorem bindParameters_listStar (st : Store) (env : Env) (last : Val) (xs : List String)
    (vs : List Val) (h : xs.length ≤ vs.length) :
    bindParameters st env (.listStar last (xs.map .symbol)) (.list vs) =
      bindParameters (newSlots st env xs vs) env last (.list (vs.drop xs.length)) := by
  induction xs generalizing st vs with
  | nil => rfl
  | cons x xs ih =>
    rcases vs with _ | ⟨v, vs⟩
    · simp at h
    · simpa [Val.listStar, Val.list, bindParameters, newSlots] using
        ih (newSlotInEnv st env x v) vs (by simpa using h)

/-- The frame of a call is bound as the parameters say. -/
theorem bindParameters_eq {f : Formals} {vs : List Val} {b : Bindings} (h : f.bind vs = some b)
    (st : Store) (env : Env) :
    ∃ st', bindParameters (newFrameInEnv st env).1 (newFrameInEnv st env).2 f.code (.list vs) =
      some st' ∧ st'.abs = st.abs ++ [b] := by
  obtain ⟨names, rest⟩ := f
  have habs : (newSlots (newFrameInEnv st env).1 (newFrameInEnv st env).2 names vs).abs =
      st.abs ++ [bindAll (fun _ => none) names vs] := by
    rw [show (newFrameInEnv st env).2 = st.frames.length :: env from rfl, abs_newSlots,
      abs_newFrameInEnv, ← abs_length, modify_concat]
  cases rest with
  | none =>
    simp only [Formals.bind, Option.ite_none_right_eq_some, Option.some.injEq] at h
    obtain ⟨hlen, rfl⟩ := h
    exact ⟨_, bindParameters_listStar _ _ .nil names vs (le_of_eq hlen.symm), habs⟩
  | some r =>
    simp only [Formals.bind, Option.ite_none_right_eq_some, Option.some.injEq] at h
    obtain ⟨hlen, rfl⟩ := h
    refine ⟨_, bindParameters_listStar _ _ (.symbol r) names vs hlen, ?_⟩
    rw [show (newFrameInEnv st env).2 = st.frames.length :: env from rfl, abs_newSlotInEnv, assign]
    rw [show (newFrameInEnv st env).2 = st.frames.length :: env from rfl] at habs
    rw [habs, ← abs_length, modify_concat]

theorem bindVariables_eq (st : Store) (env : Env) (bs : List Binding) (vs : List Val) :
    bindVariables st env (bindingsCode bs) (.list vs) = newSlots st env (bs.map Prod.fst) vs := by
  induction vs generalizing st bs with
  | nil => cases bs <;> rfl
  | cons v vs ih =>
    cases bs with
    | nil => simpa [bindVariables, bindingsCode, Val.list, car, cdr, newSlots] using ih st []
    | cons b bs => exact ih (newSlotInEnv st env b.1 v) bs

theorem letVariables_eq (bs : List Binding) :
    letVariables (bindingsCode bs) = (Formals.mk (bs.map Prod.fst) none).code := by
  induction bs with
  | nil => rfl
  | cons b bs ih =>
    exact congrArg (Val.pair (.symbol b.1)) ih

theorem bindAll_update {b : Bindings} {x : String} {v : Val} {xs : List String} (vs : List Val)
    (h : x ∉ xs) :
    bindAll (Function.update b x (some v)) xs vs = Function.update (bindAll b xs vs) x (some v) := by
  induction xs generalizing b vs with
  | nil => rfl
  | cons y xs ih =>
    simp only [List.mem_cons, not_or] at h
    cases vs with
    | nil => rfl
    | cons w vs =>
      show bindAll (Function.update (Function.update b x (some v)) y (some w)) xs vs = _
      rw [Function.update_comm h.1, ih vs h.2]
      rfl

/-! ## Clauses of `case` -/

theorem anyEqv_list (value : Val) (ds : List Val) :
    findClause.anyEqv eqv value (.list ds) = ds.any fun d => eqv d value := by
  induction ds with
  | nil => rfl
  | cons d ds ih => rw [Val.list, findClause.anyEqv, ih, List.any_cons]

theorem findClause_hit {c : CaseClause} {value : Val} (h : ∃ d ∈ c.data, eqv d value = true)
    (rest : Val) : findClause eqv value (.pair c.code rest) = some (.pair c.code rest) := by
  have hany : findClause.anyEqv eqv value (.list c.data) = true := by
    rw [anyEqv_list, List.any_eq_true]
    exact h
  have hpair : isPair (.list c.data) = true := by simp [c.data_ne_nil]
  simp [findClause, CaseClause.code, car, hpair, hany]

/-- Clauses without the value are passed over. -/
theorem findClause_miss {cs : List CaseClause} {value : Val}
    (h : ∀ c ∈ cs, ∀ d ∈ c.data, eqv d value = false) (last : Val) :
    findClause eqv value (.listStar last (cs.map (·.code))) = findClause eqv value last := by
  induction cs with
  | nil => rfl
  | cons c cs ih =>
    have hany : findClause.anyEqv eqv value (.list c.data) = false := by
      rw [anyEqv_list, List.any_eq_false]
      exact fun d hd => by simp [h c (by simp) d hd]
    have hpair : isPair (.list c.data) = true := by simp [c.data_ne_nil]
    rw [List.map_cons, Val.listStar, ← ih fun c hc => h c (by simp [hc])]
    simp [findClause, CaseClause.code, car, hpair, hany]

/-! ## Operands -/

theorem step_accumulate_nil {op next : Op} {item : Val → Option Val} (h : Accumulates op next item)
    (acc : List Val) (env : Env) (value : Val) (dump : List Frame) (st : Store) :
    step eqv ⟨op, .list acc, env, .nil, value, dump, st⟩ =
      .running ⟨next, cdr (.list (acc.reverse ++ [value])), env,
        car (.list (acc.reverse ++ [value])), value, dump, st⟩ := by
  have hrev : reverseInPlace .nil (.pair value (.list acc)) = .list (acc.reverse ++ [value]) := by
    have hlist := reverseInPlace_list (value :: acc) []
    rwa [List.reverse_cons, List.append_nil] at hlist
  rw [h.step _ rfl, accumulate]
  simp only [isPair, Bool.false_eq_true, if_false, hrev]

theorem step_accumulate_cons {op next : Op} {item : Val → Option Val} (h : Accumulates op next item)
    {it e : Val} (he : item it = some e) (acc items : List Val) (env : Env) (value : Val)
    (dump : List Frame) (st : Store) :
    step eqv ⟨op, .list acc, env, .list (it :: items), value, dump, st⟩ =
      .running ⟨.eval, .nil, env, e, value, ⟨op, .list (value :: acc), env, .list items⟩ :: dump,
        st⟩ := by
  rw [h.step _ rfl]
  simp only [accumulate, Val.list, isPair, if_true, car, cdr, he, evalNext, sSave]

theorem list_inj {vs ws : List Val} : Val.list vs = .list ws ↔ vs = ws := by
  refine ⟨fun h => ?_, fun h => h ▸ rfl⟩
  induction vs generalizing ws with
  | nil => exact (list_eq_nil.mp h.symm).symm
  | cons v vs ih =>
    cases ws with
    | nil => simp [Val.list] at h
    | cons w ws =>
      obtain ⟨hv, hvs⟩ : v = w ∧ Val.list vs = .list ws := by simpa [Val.list] using h
      rw [hv, ih hvs]

theorem simulated_allNil {env : Env} {s : Frames} : Simulated eqv (.all []) env s .nil s := by
  intro vs hvs st hst op next item hop items hitems acc value dump
  obtain rfl : vs = [] := list_eq_nil.mp hvs.symm
  obtain rfl : items = [] := List.map_eq_nil_iff.mp hitems
  exact ⟨st, value, hst, .one (step_accumulate_nil hop acc env value dump st)⟩

theorem simulated_allCons {e v : Val} {es vs : List Val} {env : Env} {s s₁ s₂ : Frames}
    (he : Simulated eqv (.expr e) env s v s₁) (hes : Simulated eqv (.all es) env s₁ (.list vs) s₂) :
    Simulated eqv (.all (e :: es)) env s (.list (v :: vs)) s₂ := by
  intro ws hws st hst op next item hop items hitems acc value dump
  obtain rfl := list_inj.mp hws
  rcases items with _ | ⟨it, items⟩
  · simp at hitems
  · obtain ⟨hit, hrest⟩ := List.cons.inj hitems
    obtain ⟨st₁, hst₁, h₁⟩ := he st hst .nil value (⟨op, .list (value :: acc), env, .list items⟩ :: dump)
    obtain ⟨st₂, value', hst₂, h₂⟩ := hes vs rfl st₁ hst₁ op next item hop items hrest
      (value :: acc) v dump
    refine ⟨st₂, value', hst₂, .cons (step_accumulate_cons hop hit acc items env value dump st)
      (h₁.append ?_)⟩
    rw [List.reverse_cons, List.append_assoc] at h₂
    exact h₂

/-! ## Expressions -/

section
variable {env : Env} {s s₁ s₂ s₃ : Frames} {v w : Val}

theorem simulated_const {e : Val} (h : IsConstant e) : Simulated eqv (.expr e) env s e s := by
  intro st hst args value dump
  refine ⟨st, hst, .one ?_⟩
  cases e <;> first | exact h.elim | rfl

theorem simulated_var {x : String} (h : lookup s x env = some v) :
    Simulated eqv (.expr (.symbol x)) env s v s := by
  rintro st rfl args value dump
  obtain ⟨slot, hfind, hvalue⟩ := slotValueInEnv_of_lookup h
  exact ⟨st, rfl, .one (by simp [step, hfind, hvalue, sReturn])⟩

theorem simulated_quote {d : Val} :
    Simulated eqv (.expr (form "quote" (.list [d]))) env s d s :=
  fun st hst _ _ _ => ⟨st, hst, .form .quote rfl (.one rfl)⟩

theorem simulated_lambda {formals : Formals} {body : List Val} :
    Simulated eqv (.expr (form "lambda" (closureCode formals body))) env s
      (.closure .tClosure (closureCode formals body) env) s :=
  fun st hst _ _ _ => ⟨st, hst, .form .lambda rfl (.one rfl)⟩

theorem step_apply {formals : Formals} {vs body : List Val} {env' : Env} {value : Val}
    {dump : List Frame} {st st' : Store}
    (h : bindParameters (newFrameInEnv st env').1 (newFrameInEnv st env').2 formals.code (.list vs) =
      some st') :
    step eqv ⟨.apply, .list vs, env, .closure .tClosure (closureCode formals body) env', value, dump,
      st⟩ =
      .running ⟨.begin, .nil, st.frames.length :: env', .list body, value, dump, st'⟩ := by
  simp only [step, RegisterMachine.apply, closureCode, car, cdr, h]
  rfl

/-- The operator is evaluated below a frame of `OP_E0ARGS`, the operands by `OP_E1ARGS`. -/
theorem simulated_app {f : Val} {args vs body : List Val} {formals : Formals} {env' : Env}
    {b : Bindings} (hkey : ∀ x ∈ keywords, f ≠ .symbol x)
    (hf : Simulated eqv (.expr f) env s (.closure .tClosure (closureCode formals body) env') s₁)
    (hargs : Simulated eqv (.all args) env s₁ (.list vs) s₂) (hb : formals.bind vs = some b)
    (hbody : Simulated eqv (.body body) (s₂.length :: env') (s₂ ++ [b]) v s₃) :
    Simulated eqv (.expr (.list (f :: args))) env s v s₃ := by
  intro st hst args' value dump
  obtain ⟨st₁, hst₁, h₁⟩ := hf st hst args' value (⟨.e0args, .nil, env, .list (f :: args)⟩ :: dump)
  obtain ⟨st₂, value', rfl, h₂⟩ := hargs vs rfl st₁ hst₁ .e1args .apply some .e1args args rfl []
    (.closure .tClosure (closureCode formals body) env') dump
  obtain ⟨st', hst', habs⟩ := bindParameters_eq hb st₂ env'
  rw [abs_length] at hbody
  obtain ⟨st₃, hst₃, h₃⟩ := hbody st' habs .nil value' dump
  refine ⟨st₃, hst₃, .cons ?_ (h₁.append (.cons rfl (h₂.append (.cons (step_apply hst') h₃))))⟩
  simp [step, Val.list, syntaxOp_eq_none hkey, evalNext, sSave]

/-- `OP_DEF1` for either way to `define`. -/
theorem step_def1 (st : Store) (x : String) (a : ℕ) (env : Env) (args v : Val)
    (dump : List Frame) :
    ∃ st', st'.abs = assign st.abs a x v ∧
      step eqv ⟨.def1, args, a :: env, .symbol x, v, dump, st⟩ = returnTo dump st' (.symbol x) :=
  ⟨_, abs_define st x a env v, rfl⟩

theorem simulated_define {x : String} {e : Val} {a : ℕ} (hok : Fine (.define e))
    (he : Simulated eqv (.expr e) (a :: env) s v s₁) :
    Simulated eqv (.expr (form "define" (.list [.symbol x, e]))) (a :: env) s (.symbol x)
      (assign s₁ a x v) := by
  intro st hst args value dump
  obtain ⟨st₁, rfl, h₁⟩ := he st hst args value (⟨.def1, .nil, a :: env, .symbol x⟩ :: dump)
  obtain ⟨st₂, hst₂, h₂⟩ := @step_def1 eqv st₁ x a env .nil v dump
  refine ⟨st₂, hst₂, .form .def0 rfl (.cons ?_ (h₁.append (.one h₂)))⟩
  have htext : (isPair e && printsEmpty (car (cdr e))) = false := by
    cases hp : isPair e
    · rfl
    · exact hok hp
  show (if isPair e && printsEmpty (car (cdr e)) then Result.threw else _) = _
  rw [htext]
  rfl

theorem simulated_defineProc {x : String} {formals : Formals} {body : List Val} {a : ℕ} :
    Simulated eqv (.expr (form "define" (.pair (.pair (.symbol x) formals.code) (.list body))))
      (a :: env) s (.symbol x)
      (assign s a x (.closure .tClosure (closureCode formals body) (a :: env))) := by
  rintro st rfl args value dump
  obtain ⟨st₁, hst₁, h₁⟩ := @step_def1 eqv st x a env .nil
    (.closure .tClosure (closureCode formals body) (a :: env)) dump
  exact ⟨st₁, hst₁, .form .def0 rfl (.cons rfl (.form .lambda rfl (.cons rfl (.one h₁))))⟩

theorem simulated_set {x : String} {e : Val} {a : ℕ} (he : Simulated eqv (.expr e) env s v s₁)
    (ho : owner s₁ x env = some a) :
    Simulated eqv (.expr (form "set!" (.list [.symbol x, e]))) env s v (assign s₁ a x v) := by
  intro st hst args value dump
  obtain ⟨st₁, rfl, h₁⟩ := he st hst args value (⟨.set1, .nil, env, .symbol x⟩ :: dump)
  obtain ⟨slot, hfind, habs⟩ := abs_setSlotInEnv v ho
  refine ⟨_, habs, .form .set0 rfl (.cons rfl (h₁.append (.one ?_)))⟩
  simp [step, hfind, sReturn]

theorem simulated_begin {es : List Val} (h : Simulated eqv (.body es) env s v s₁) :
    Simulated eqv (.expr (form "begin" (.list es))) env s v s₁ := by
  intro st hst args value dump
  obtain ⟨st₁, hst₁, h₁⟩ := h st hst args value dump
  exact ⟨st₁, hst₁, .form .begin rfl h₁⟩

theorem simulated_if {c t next : Val} {e : List Val} (hc : Simulated eqv (.expr c) env s v s₁)
    (hnext : (if isTrue v then t else car (.list e)) = next)
    (ht : Simulated eqv (.expr next) env s₁ w s₂) :
    Simulated eqv (.expr (form "if" (.list (c :: t :: e)))) env s w s₂ := by
  intro st hst args value dump
  obtain ⟨st₁, hst₁, h₁⟩ := hc st hst args value (⟨.if1, .nil, env, .list (t :: e)⟩ :: dump)
  obtain ⟨st₂, hst₂, h₂⟩ := ht st₁ hst₁ .nil v dump
  subst hnext
  exact ⟨st₂, hst₂, .form .if0 rfl (.cons rfl (h₁.append (.cons rfl h₂)))⟩

/-! ## Binding forms -/

/-- The code of a list of bindings is not a symbol. -/
theorem match_bindingsCode {α : Type*} (bs : List Binding) (f : String → α) (a : Val → α) :
    (match bindingsCode bs with
      | .symbol x => f x
      | code => a code) = a (bindingsCode bs) := by
  cases bs <;> rfl

theorem let1_items (bs : List Binding) :
    (bs.map fun b => Val.list [.symbol b.1, b.2]).map
      (fun b => if isPair b then some (car (cdr b)) else none) = (bs.map Prod.snd).map some := by
  induction bs with
  | nil => rfl
  | cons b bs ih => exact congrArg (List.cons (some b.2)) ih

theorem let1rec_items (bs : List Binding) :
    (bs.map fun b => Val.list [.symbol b.1, b.2]).map (fun b => some (car (cdr b))) =
      (bs.map Prod.snd).map some := by
  induction bs with
  | nil => rfl
  | cons b bs ih => exact congrArg (List.cons (some b.2)) ih

theorem simulated_let {bs : List Binding} {vs body : List Val}
    (hvs : Simulated eqv (.all (bs.map Prod.snd)) env s (.list vs) s₁)
    (hbody : Simulated eqv (.body body) (s₁.length :: env)
      (s₁ ++ [bindAll (fun _ => none) (bs.map Prod.fst) vs]) v s₂) :
    Simulated eqv (.expr (form "let" (.pair (bindingsCode bs) (.list body)))) env s v s₂ := by
  intro st hst args value dump
  obtain ⟨st₁, value', rfl, h₁⟩ := hvs vs rfl st hst .let1 .let2 _ .let1 _ (let1_items bs) []
    (.pair (bindingsCode bs) (.list body)) dump
  have habs : (bindVariables (newFrameInEnv st₁ env).1 (newFrameInEnv st₁ env).2 (bindingsCode bs)
      (.list vs)).abs = st₁.abs ++ [bindAll (fun _ => none) (bs.map Prod.fst) vs] := by
    rw [bindVariables_eq, show (newFrameInEnv st₁ env).2 = st₁.frames.length :: env from rfl,
      abs_newSlots, abs_newFrameInEnv, ← abs_length, modify_concat]
  rw [abs_length] at hbody
  obtain ⟨st₂, hst₂, h₂⟩ := hbody _ habs .nil value' dump
  refine ⟨st₂, hst₂, .form .let0 rfl (.cons ?_ (h₁.append (.cons ?_ h₂)))⟩
  · exact congrArg (fun code => Result.running ⟨.let1, .nil, env, code, _, dump, st⟩)
      (match_bindingsCode bs _ _)
  · exact match_bindingsCode bs _ _

theorem step_let2_named {name : String} {bs : List Binding} {vs body : List Val} {value : Val}
    {dump : List Frame} {st : Store} (h : bs ≠ []) :
    step eqv ⟨.let2, .list vs, env, .pair (.symbol name) (.pair (bindingsCode bs) (.list body)), value,
      dump, st⟩ =
      .running ⟨.begin, .nil, st.frames.length :: env, .list body, value, dump,
        newSlotInEnv (bindVariables (newFrameInEnv st env).1 (newFrameInEnv st env).2
          (bindingsCode bs) (.list vs)) (newFrameInEnv st env).2 name (.closure .tClosure
            (closureCode ⟨bs.map Prod.fst, none⟩ body) (newFrameInEnv st env).2)⟩ := by
  have hpair : isPair (bindingsCode bs) = true := by simpa [bindingsCode] using h
  have hclosure : Val.pair (letVariables (bindingsCode bs)) (.list body) =
      closureCode ⟨bs.map Prod.fst, none⟩ body := by
    rw [letVariables_eq]
    rfl
  simp only [step, let2, car, cdr, hpair, if_true, hclosure, sGoto]
  rfl

/-- The name of a named `let` gets the last slot of its frame. -/
theorem simulated_namedLet {name : String} {bs : List Binding} {vs body : List Val}
    (hok : Fine (.namedLet name (bs.map Prod.fst)))
    (hvs : Simulated eqv (.all (bs.map Prod.snd)) env s (.list vs) s₁)
    (hbody : Simulated eqv (.body body) (s₁.length :: env)
      (s₁ ++ [bindAll (Function.update (fun _ => none) name (some (.closure .tClosure
        (closureCode ⟨bs.map Prod.fst, none⟩ body) (s₁.length :: env)))) (bs.map Prod.fst) vs]) v
      s₂) :
    Simulated eqv
      (.expr (form "let" (.pair (.symbol name) (.pair (bindingsCode bs) (.list body))))) env s v
      s₂ := by
  intro st hst args value dump
  obtain ⟨hne, hname⟩ := hok
  obtain ⟨st₁, value', rfl, h₁⟩ := hvs vs rfl st hst .let1 .let2 _ .let1 _ (let1_items bs) []
    (.pair (.symbol name) (.pair (bindingsCode bs) (.list body))) dump
  have habs : (newSlotInEnv (bindVariables (newFrameInEnv st₁ env).1 (newFrameInEnv st₁ env).2
      (bindingsCode bs) (.list vs)) (newFrameInEnv st₁ env).2 name (.closure .tClosure
        (closureCode ⟨bs.map Prod.fst, none⟩ body) (newFrameInEnv st₁ env).2)).abs =
      st₁.abs ++ [bindAll (Function.update (fun _ => none) name (some (.closure .tClosure
        (closureCode ⟨bs.map Prod.fst, none⟩ body) (st₁.abs.length :: env)))) (bs.map Prod.fst)
        vs] := by
    rw [bindVariables_eq, show (newFrameInEnv st₁ env).2 = st₁.frames.length :: env from rfl,
      abs_newSlotInEnv, assign, abs_newSlots, abs_newFrameInEnv, ← abs_length, modify_concat,
      modify_concat, bindAll_update vs hname]
  obtain ⟨st₂, hst₂, h₂⟩ := hbody _ habs .nil value' dump
  rw [abs_length] at h₂
  exact ⟨st₂, hst₂, .form .let0 rfl (.cons rfl (h₁.append
    (.cons (step_let2_named (by simpa using hne)) h₂)))⟩

theorem simulated_letrec {bs : List Binding} {vs body : List Val}
    (hvs : Simulated eqv (.all (bs.map Prod.snd)) (s.length :: env) (s ++ [fun _ => none])
      (.list vs) s₁)
    (hbody : Simulated eqv (.body body) (s.length :: env)
      (s₁.modify s.length fun b => bindAll b (bs.map Prod.fst) vs) v s₂) :
    Simulated eqv (.expr (form "letrec" (.pair (bindingsCode bs) (.list body)))) env s v s₂ := by
  rintro st rfl args value dump
  rw [abs_length] at hvs hbody
  obtain ⟨st₁, value', rfl, h₁⟩ := hvs vs rfl _ (abs_newFrameInEnv st env) .let1rec .let2rec _
    .let1rec _ (let1rec_items bs) [] (.pair (bindingsCode bs) (.list body)) dump
  have habs : (bindVariables st₁ (st.frames.length :: env) (bindingsCode bs) (.list vs)).abs =
      st₁.abs.modify st.frames.length fun b => bindAll b (bs.map Prod.fst) vs := by
    rw [bindVariables_eq, abs_newSlots]
  obtain ⟨st₂, hst₂, h₂⟩ := hbody _ habs .nil value' dump
  exact ⟨st₂, hst₂, .form .let0rec rfl (.cons rfl (h₁.append (.cons rfl h₂)))⟩

/-! ## Conditionals -/

theorem simulated_and {e : Val} {es : List Val} (h : Simulated eqv (.conj (e :: es)) env s v s₁) :
    Simulated eqv (.expr (form "and" (.list (e :: es)))) env s v s₁ := by
  intro st hst args value dump
  obtain ⟨st₁, hst₁, h₁⟩ := h st hst args value dump
  exact ⟨st₁, hst₁, .form .and0 rfl (.cons rfl h₁)⟩

theorem simulated_conjLast {e : Val} (h : Simulated eqv (.expr e) env s v s₁) :
    Simulated eqv (.conj [e]) env s v s₁ := by
  intro st hst args value dump
  obtain ⟨st₁, hst₁, h₁⟩ := h st hst args value (⟨.and1, .nil, env, .nil⟩ :: dump)
  refine ⟨st₁, hst₁, h₁.append (.one ?_)⟩
  cases hv : isTrue v <;> simp [step, hv, sReturn]

theorem simulated_conjFalse {e e' : Val} {es : List Val} (h : Simulated eqv (.expr e) env s v s₁)
    (hv : isTrue v = false) : Simulated eqv (.conj (e :: e' :: es)) env s v s₁ := by
  intro st hst args value dump
  obtain ⟨st₁, hst₁, h₁⟩ := h st hst args value (⟨.and1, .nil, env, .list (e' :: es)⟩ :: dump)
  exact ⟨st₁, hst₁, h₁.append (.one (by simp [step, hv, sReturn]))⟩

theorem simulated_conjTrue {e e' : Val} {es : List Val} (h : Simulated eqv (.expr e) env s v s₁)
    (hv : isTrue v = true) (hes : Simulated eqv (.conj (e' :: es)) env s₁ w s₂) :
    Simulated eqv (.conj (e :: e' :: es)) env s w s₂ := by
  intro st hst args value dump
  obtain ⟨st₁, hst₁, h₁⟩ := h st hst args value (⟨.and1, .nil, env, .list (e' :: es)⟩ :: dump)
  obtain ⟨st₂, hst₂, h₂⟩ := hes st₁ hst₁ .nil v dump
  refine ⟨st₂, hst₂, h₁.append (.cons ?_ h₂)⟩
  simp [step, hv, evalNext, sSave]

theorem simulated_or {e : Val} {es : List Val} (h : Simulated eqv (.disj (e :: es)) env s v s₁) :
    Simulated eqv (.expr (form "or" (.list (e :: es)))) env s v s₁ := by
  intro st hst args value dump
  obtain ⟨st₁, hst₁, h₁⟩ := h st hst args value dump
  exact ⟨st₁, hst₁, .form .or0 rfl (.cons rfl h₁)⟩

theorem simulated_disjLast {e : Val} (h : Simulated eqv (.expr e) env s v s₁) :
    Simulated eqv (.disj [e]) env s v s₁ := by
  intro st hst args value dump
  obtain ⟨st₁, hst₁, h₁⟩ := h st hst args value (⟨.or1, .nil, env, .nil⟩ :: dump)
  refine ⟨st₁, hst₁, h₁.append (.one ?_)⟩
  cases hv : isTrue v <;> simp [step, hv, sReturn]

theorem simulated_disjTrue {e e' : Val} {es : List Val} (h : Simulated eqv (.expr e) env s v s₁)
    (hv : isTrue v = true) : Simulated eqv (.disj (e :: e' :: es)) env s v s₁ := by
  intro st hst args value dump
  obtain ⟨st₁, hst₁, h₁⟩ := h st hst args value (⟨.or1, .nil, env, .list (e' :: es)⟩ :: dump)
  exact ⟨st₁, hst₁, h₁.append (.one (by simp [step, hv, sReturn]))⟩

theorem simulated_disjFalse {e e' : Val} {es : List Val} (h : Simulated eqv (.expr e) env s v s₁)
    (hv : isTrue v = false) (hes : Simulated eqv (.disj (e' :: es)) env s₁ w s₂) :
    Simulated eqv (.disj (e :: e' :: es)) env s w s₂ := by
  intro st hst args value dump
  obtain ⟨st₁, hst₁, h₁⟩ := h st hst args value (⟨.or1, .nil, env, .list (e' :: es)⟩ :: dump)
  obtain ⟨st₂, hst₂, h₂⟩ := hes st₁ hst₁ .nil v dump
  refine ⟨st₂, hst₂, h₁.append (.cons ?_ h₂)⟩
  simp [step, hv, evalNext, sSave]

theorem simulated_cond {c : Clause} {cs : List Clause}
    (h : Simulated eqv (.clauses (c :: cs)) env s v s₁) :
    Simulated eqv (.expr (form "cond" (clausesCode (c :: cs)))) env s v s₁ := by
  intro st hst args value dump
  obtain ⟨st₁, hst₁, h₁⟩ := h st hst args value dump
  exact ⟨st₁, hst₁, .form .cond0 rfl (.cons rfl h₁)⟩

theorem simulated_clauseValue {test : Val} {cs : List Clause}
    (h : Simulated eqv (.expr test) env s v s₁) (hv : isTrue v = true) :
    Simulated eqv (.clauses ((test, []) :: cs)) env s v s₁ := by
  intro st hst args value dump
  obtain ⟨st₁, hst₁, h₁⟩ := h st hst args value
    (⟨.cond1, .nil, env, clausesCode ((test, []) :: cs)⟩ :: dump)
  refine ⟨st₁, hst₁, h₁.append (.one ?_)⟩
  simp [step, hv, clausesCode, Val.list, car, cdr, sReturn]

theorem simulated_clauseTrue {test e : Val} {body : List Val} {cs : List Clause}
    (h : Simulated eqv (.expr test) env s v s₁) (hv : isTrue v = true) (he : e ≠ .symbol "=>")
    (hbody : Simulated eqv (.body (e :: body)) env s₁ w s₂) :
    Simulated eqv (.clauses ((test, e :: body) :: cs)) env s w s₂ := by
  intro st hst args value dump
  obtain ⟨st₁, hst₁, h₁⟩ := h st hst args value
    (⟨.cond1, .nil, env, clausesCode ((test, e :: body) :: cs)⟩ :: dump)
  obtain ⟨st₂, hst₂, h₂⟩ := hbody st₁ hst₁ .nil v dump
  refine ⟨st₂, hst₂, h₁.append (.cons ?_ h₂)⟩
  simp [step, hv, clausesCode, Val.list, car, cdr, he, sGoto]

theorem simulated_clauseLast {test : Val} {body : List Val}
    (h : Simulated eqv (.expr test) env s v s₁) (hv : isTrue v = false) :
    Simulated eqv (.clauses [(test, body)]) env s .nil s₁ := by
  intro st hst args value dump
  obtain ⟨st₁, hst₁, h₁⟩ := h st hst args value
    (⟨.cond1, .nil, env, clausesCode [(test, body)]⟩ :: dump)
  refine ⟨st₁, hst₁, h₁.append (.one ?_)⟩
  simp [step, hv, clausesCode, Val.list, cdr, sReturn]

theorem simulated_clauseFalse {test : Val} {body : List Val} {c : Clause} {cs : List Clause}
    (h : Simulated eqv (.expr test) env s v s₁) (hv : isTrue v = false)
    (hcs : Simulated eqv (.clauses (c :: cs)) env s₁ w s₂) :
    Simulated eqv (.clauses ((test, body) :: c :: cs)) env s w s₂ := by
  intro st hst args value dump
  obtain ⟨st₁, hst₁, h₁⟩ := h st hst args value
    (⟨.cond1, .nil, env, clausesCode ((test, body) :: c :: cs)⟩ :: dump)
  obtain ⟨st₂, hst₂, h₂⟩ := hcs st₁ hst₁ .nil v dump
  refine ⟨st₂, hst₂, h₁.append (.cons ?_ h₂)⟩
  simp [step, hv, clausesCode, Val.list, car, cdr, evalNext, sSave]

/-- The key of `case` is evaluated below a frame with the clauses. -/
theorem reaches_case1 {key : Val} (code : Val) (h : Simulated eqv (.expr key) env s v s₁) {st : Store}
    (hst : st.abs = s) (args value : Val) (dump : List Frame) :
    ∃ st₁, st₁.abs = s₁ ∧
      Reaches eqv (.running ⟨.eval, args, env, form "case" (.pair key code), value, dump, st⟩)
        (.running ⟨.case1, .nil, env, code, v, dump, st₁⟩) := by
  obtain ⟨st₁, hst₁, h₁⟩ := h st hst args value (⟨.case1, .nil, env, code⟩ :: dump)
  exact ⟨st₁, hst₁, .form .case0 rfl (.cons rfl h₁)⟩

theorem simulated_caseHit {key : Val} {before after : List CaseClause} {c : CaseClause}
    {last : List Val} (hkey : Simulated eqv (.expr key) env s v s₁)
    (hmiss : ∀ b ∈ before, ∀ d ∈ b.data, eqv d v = false) (hhit : ∃ d ∈ c.data, eqv d v = true)
    (hbody : Simulated eqv (.body c.body) env s₁ w s₂) :
    Simulated eqv (.expr (form "case" (.pair key (caseCode (before ++ c :: after) last)))) env s w
      s₂ := by
  intro st hst args value dump
  obtain ⟨st₁, hst₁, h₁⟩ := reaches_case1 (caseCode (before ++ c :: after) last) hkey hst args
    value dump
  obtain ⟨st₂, hst₂, h₂⟩ := hbody st₁ hst₁ .nil v dump
  have hfind : ∃ rest, findClause eqv v (caseCode (before ++ c :: after) last) =
      some (.pair c.code rest) := by
    rw [caseCode, List.map_append, List.map_cons]
    have happ : ∀ cs : List CaseClause, Val.listStar (.list last)
        (cs.map (·.code) ++ c.code :: after.map (·.code)) =
        .listStar (.pair c.code (.listStar (.list last) (after.map (·.code)))) (cs.map (·.code)) := by
      intro cs
      induction cs with
      | nil => rfl
      | cons d cs ih => exact congrArg (Val.pair d.code) ih
    exact ⟨_, by rw [happ, findClause_miss hmiss, findClause_hit hhit]⟩
  obtain ⟨rest, hfind⟩ := hfind
  have hpair : isPair (.list c.data) = true := by simp [c.data_ne_nil]
  refine ⟨st₂, hst₂, h₁.append (.cons ?_ h₂)⟩
  simp [step, hfind, CaseClause.code, car, cdr, hpair, sGoto]

/-- The step to the test of `else`. -/
theorem step_case1_else {cs : List CaseClause} {body : List Val} {args : Val} {dump : List Frame}
    {st : Store} (hmiss : ∀ c ∈ cs, ∀ d ∈ c.data, eqv d v = false) :
    step eqv ⟨.case1, args, env, caseCode cs [elseCode body], v, dump, st⟩ =
      .running ⟨.eval, args, env, .symbol "else", v, ⟨.case2, .nil, env, .list body⟩ :: dump, st⟩ := by
  have hfind : findClause eqv v (caseCode cs [elseCode body]) = some (.pair (elseCode body) .nil) := by
    rw [caseCode, findClause_miss hmiss]
    rfl
  simp only [step, hfind]
  rfl

theorem simulated_caseElse {key t : Val} {cs : List CaseClause} {body : List Val}
    (hkey : Simulated eqv (.expr key) env s v s₁)
    (hmiss : ∀ c ∈ cs, ∀ d ∈ c.data, eqv d v = false)
    (helse : Simulated eqv (.expr (.symbol "else")) env s₁ t s₂) (ht : isTrue t = true)
    (hbody : Simulated eqv (.body body) env s₂ w s₃) :
    Simulated eqv (.expr (form "case" (.pair key (caseCode cs [elseCode body])))) env s w s₃ := by
  intro st hst args value dump
  obtain ⟨st₁, hst₁, h₁⟩ := reaches_case1 (caseCode cs [elseCode body]) hkey hst args value
    dump
  obtain ⟨st₂, hst₂, h₂⟩ := helse st₁ hst₁ .nil v (⟨.case2, .nil, env, .list body⟩ :: dump)
  obtain ⟨st₃, hst₃, h₃⟩ := hbody st₂ hst₂ .nil t dump
  refine ⟨st₃, hst₃, h₁.append (.cons (step_case1_else hmiss) (h₂.append (.cons ?_ h₃)))⟩
  simp [step, ht, sGoto]

theorem simulated_caseElseFalse {key t : Val} {cs : List CaseClause} {body : List Val}
    (hkey : Simulated eqv (.expr key) env s v s₁)
    (hmiss : ∀ c ∈ cs, ∀ d ∈ c.data, eqv d v = false)
    (helse : Simulated eqv (.expr (.symbol "else")) env s₁ t s₂) (ht : isTrue t = false) :
    Simulated eqv (.expr (form "case" (.pair key (caseCode cs [elseCode body])))) env s .nil s₂ := by
  intro st hst args value dump
  obtain ⟨st₁, hst₁, h₁⟩ := reaches_case1 (caseCode cs [elseCode body]) hkey hst args value
    dump
  obtain ⟨st₂, hst₂, h₂⟩ := helse st₁ hst₁ .nil v (⟨.case2, .nil, env, .list body⟩ :: dump)
  refine ⟨st₂, hst₂, h₁.append (.cons (step_case1_else hmiss) (h₂.append (.one ?_)))⟩
  simp [step, ht, sReturn]

theorem simulated_caseMiss {key : Val} {cs : List CaseClause}
    (hkey : Simulated eqv (.expr key) env s v s₁)
    (hmiss : ∀ c ∈ cs, ∀ d ∈ c.data, eqv d v = false) :
    Simulated eqv (.expr (form "case" (.pair key (caseCode cs [])))) env s .nil s₁ := by
  intro st hst args value dump
  obtain ⟨st₁, hst₁, h₁⟩ := reaches_case1 (caseCode cs []) hkey hst args value dump
  have hfind : findClause eqv v (caseCode cs []) = some .nil := by
    rw [caseCode, findClause_miss hmiss]
    rfl
  exact ⟨st₁, hst₁, h₁.append (.one (by simp [step, hfind, sReturn]))⟩

/-! ## Bodies -/

theorem simulated_bodyNil : Simulated eqv (.body []) env s .nil s :=
  fun st hst _ _ _ => ⟨st, hst, .one rfl⟩

theorem simulated_bodyLast {e : Val} (h : Simulated eqv (.expr e) env s v s₁) :
    Simulated eqv (.body [e]) env s v s₁ := by
  intro st hst args value dump
  obtain ⟨st₁, hst₁, h₁⟩ := h st hst args value dump
  exact ⟨st₁, hst₁, .cons rfl h₁⟩

theorem simulated_bodyCons {e e' : Val} {es : List Val} (h : Simulated eqv (.expr e) env s v s₁)
    (hes : Simulated eqv (.body (e' :: es)) env s₁ w s₂) :
    Simulated eqv (.body (e :: e' :: es)) env s w s₂ := by
  intro st hst args value dump
  obtain ⟨st₁, hst₁, h₁⟩ := h st hst args value (⟨.begin, .nil, env, .list (e' :: es)⟩ :: dump)
  obtain ⟨st₂, hst₂, h₂⟩ := hes st₁ hst₁ .nil v dump
  refine ⟨st₂, hst₂, .cons ?_ (h₁.append h₂)⟩
  simp [step, Val.list, isPair, car, cdr, evalNext, sSave]

end

/-! ## The theorem -/

/-- Every rule of the evaluator is followed by the machine. -/
theorem simulated_of_eval {job : Job} {env : Env} {s s' : Frames} {v : Val}
    (h : Eval Fine eqv job env s v s') : Simulated eqv job env s v s' := by
  induction h with
  | const h => exact simulated_const h
  | var h => exact simulated_var h
  | quote => exact simulated_quote
  | lambda => exact simulated_lambda
  | app hkey _ _ hb _ hf hargs hbody => exact simulated_app hkey hf hargs hb hbody
  | define hok _ he => exact simulated_define hok he
  | defineProc => exact simulated_defineProc
  | set _ ho he => exact simulated_set he ho
  | begin _ h => exact simulated_begin h
  | ifTrue _ hv _ hc ht => exact simulated_if hc (if_pos hv) ht
  | ifFalse _ hv _ hc he => exact simulated_if hc (if_neg (by simp [hv])) he
  | ifNone _ hv hc =>
    exact simulated_if hc (if_neg (by simp [hv])) (simulated_const (e := .nil) trivial)
  | let_ _ _ hvs hbody => exact simulated_let hvs hbody
  | namedLet hok _ _ hvs hbody => exact simulated_namedLet hok hvs hbody
  | letrec _ _ hvs hbody => exact simulated_letrec hvs hbody
  | andNil => exact fun st hst _ _ _ => ⟨st, hst, .form .and0 rfl (.one rfl)⟩
  | and _ h => exact simulated_and h
  | orNil => exact fun st hst _ _ _ => ⟨st, hst, .form .or0 rfl (.one rfl)⟩
  | or _ h => exact simulated_or h
  | cond _ h => exact simulated_cond h
  | caseHit _ hmiss hhit _ hkey hbody => exact simulated_caseHit hkey hmiss hhit hbody
  | caseElse _ hmiss _ ht _ hkey helse hbody => exact simulated_caseElse hkey hmiss helse ht hbody
  | caseElseFalse _ hmiss _ ht hkey helse => exact simulated_caseElseFalse hkey hmiss helse ht
  | caseMiss _ hmiss hkey => exact simulated_caseMiss hkey hmiss
  | allNil => exact simulated_allNil
  | allCons _ _ he hes => exact simulated_allCons he hes
  | bodyNil => exact simulated_bodyNil
  | bodyLast _ h => exact simulated_bodyLast h
  | bodyCons _ _ h hes => exact simulated_bodyCons h hes
  | conjLast _ h => exact simulated_conjLast h
  | conjFalse _ hv h => exact simulated_conjFalse h hv
  | conjTrue _ hv _ h hes => exact simulated_conjTrue h hv hes
  | disjLast _ h => exact simulated_disjLast h
  | disjTrue _ hv h => exact simulated_disjTrue h hv
  | disjFalse _ hv _ h hes => exact simulated_disjFalse h hv hes
  | clauseValue _ hv h => exact simulated_clauseValue h hv
  | clauseTrue _ hv he _ h hbody => exact simulated_clauseTrue h hv he hbody
  | clauseLast _ hv h => exact simulated_clauseLast h hv
  | clauseFalse _ hv _ h hcs => exact simulated_clauseFalse h hv hcs

/-- Where the evaluation meets only fine points, the machine gets from `OP_EVAL` to the
`_s_return` of the same value, with the same dump stack and with environments that hold what
the evaluator's frames say. -/
theorem machine_follows_evaluator (eqv : Val → Val → Bool) {e v : Val} {env : Env} {s s' : Frames}
    (h : Eval Fine eqv (.expr e) env s v s') (st : Store) (hst : st.abs = s) (args value : Val)
    (dump : List Frame) :
    ∃ st', st'.abs = s' ∧
      Reaches eqv (.running ⟨.eval, args, env, e, value, dump, st⟩) (returnTo dump st' v) :=
  simulated_of_eval h st hst args value dump

/-- A definition whose expression has no text behind the operator throws. -/
theorem reaches_threw_of_not_fine {x : String} {e : Val} (h : ¬ Fine (.define e)) (st : Store)
    (args value : Val) (env : Env) (dump : List Frame) :
    Reaches eqv
      (.running ⟨.eval, args, env, form "define" (.list [.symbol x, e]), value, dump, st⟩) .threw := by
  have htext : (isPair e && printsEmpty (car (cdr e))) = true := by
    simp only [Fine, Classical.not_imp, Bool.not_eq_false] at h
    simp [h]
  refine .form .def0 rfl (.one ?_)
  show (if isPair e && printsEmpty (car (cdr e)) then Result.threw else _) = _
  rw [htext]
  rfl

/-- A named `let` without variables ends in an error. -/
theorem reaches_error_of_no_variables {name : String} {body : List Val} (st : Store)
    (args value : Val) (env : Env) (dump : List Frame) :
    Reaches eqv
      (.running ⟨.eval, args, env,
        form "let" (.pair (.symbol name) (.pair (bindingsCode []) (.list body))), value, dump, st⟩)
      .error :=
  .form .let0 rfl (.cons rfl (.cons rfl (.one rfl)))

/-- `(let name ((x 1)) x)` -/
def namedLetCode (name x : String) : Val :=
  form "let" (.pair (.symbol name) (.pair (bindingsCode [(x, .integer 1)]) (.list [.symbol x])))

/-- The frame of `(let name ((x 1)) x)`, evaluated without an environment. -/
def namedLetFrame (name x : String) : Bindings :=
  bindAll (Function.update (fun _ => none) name (some (.closure .tClosure
    (closureCode ⟨[x], none⟩ [.symbol x]) [0]))) [x] [.integer 1]

theorem eval_namedLet {ok : Point → Prop} {name x : String} (h : ok (.namedLet name [x])) :
    Eval ok eqv (.expr (namedLetCode name x)) [] [] (.integer 1) [namedLetFrame name x] := by
  have hinit : Eval ok eqv (.all [.integer 1]) [] [] (.list [.integer 1]) [] :=
    .allCons (.const trivial) .allNil
  have hlookup : lookup [namedLetFrame name x] x [0] = some (.integer 1) := by
    simp [lookup, owner, namedLetFrame, bindAll]
  exact .namedLet h hinit (.bodyLast (.var hlookup))

/-- `(let f ((x 1)) x)` below the frame of a test. -/
theorem machine_follows_evaluator_namedLet :
    ∃ st', st'.abs = [namedLetFrame "f" "x"] ∧
      Reaches (fun a b => a == b)
        (.running ⟨.eval, .nil, [], namedLetCode "f" "x", .nil,
          [⟨.if1, .nil, [], .list [.integer 2, .integer 3]⟩], ⟨[]⟩⟩)
        (returnTo [⟨.if1, .nil, [], .list [.integer 2, .integer 3]⟩] st' (.integer 1)) :=
  machine_follows_evaluator (fun a b => a == b) (eval_namedLet (by simp [Fine])) ⟨[]⟩ rfl .nil .nil
    [⟨.if1, .nil, [], .list [.integer 2, .integer 3]⟩]

theorem next_rightUnique : Relator.RightUnique (Next eqv) := by
  rintro r r₁ r₂ ⟨m, rfl, h₁⟩ ⟨m', hm, h₂⟩
  obtain rfl := Result.running.inj hm
  exact h₁.symm.trans h₂

/-- A machine that has halted with a value halts with no other one. -/
theorem halted_unique {r : Result} {v w : Val} {st st' : Store} (h : Reaches eqv r (.halted v st))
    (h' : Reaches eqv r (.halted w st')) : v = w := by
  have hstop : ∀ {u : Val} {s : Store} {r'},
      Relation.ReflTransGen (Next eqv) (.halted u s) r' → r' = .halted u s := by
    intro u s r' hr
    rcases hr.cases_head with rfl | ⟨_, ⟨m, hm, _⟩, _⟩
    · rfl
    · cases hm
  rcases Relation.ReflTransGen.total_of_right_unique next_rightUnique h.to_reflTransGen
    h'.to_reflTransGen with hr | hr
  · exact (Result.halted.inj (hstop hr)).1.symm
  · exact (Result.halted.inj (hstop hr)).1

/-- The value of `(let f ((f 1)) f)` is 1, but the machine returns the procedure `f`: the slot
of the name is put in front of that of the variable. -/
theorem not_follows_of_variable_named_as_loop :
    Evaluates (fun a b => a == b) (namedLetCode "f" "f") [] [] (.integer 1)
        [namedLetFrame "f" "f"] ∧
      ¬ ∃ st', st'.abs = [namedLetFrame "f" "f"] ∧
        Reaches (fun a b => a == b)
          (.running ⟨.eval, .nil, [], namedLetCode "f" "f", .nil, [], ⟨[]⟩⟩)
          (returnTo [] st' (.integer 1)) := by
  refine ⟨eval_namedLet trivial, ?_⟩
  rintro ⟨st', -, h⟩
  have hloop : Reaches (fun a b => a == b)
      (.running ⟨.eval, .nil, [], namedLetCode "f" "f", .nil, [], ⟨[]⟩⟩)
      (.halted (.closure .tClosure (closureCode ⟨["f"], none⟩ [.symbol "f"]) [0])
        ⟨[[("f", .closure .tClosure (closureCode ⟨["f"], none⟩ [.symbol "f"]) [0]),
          ("f", .integer 1)]]⟩) :=
    .cons rfl (.cons rfl (.cons rfl (.cons rfl (.cons rfl (.cons rfl (.cons rfl (.one rfl)))))))
  cases halted_unique h hloop

end Extempore.MachineSimulation
