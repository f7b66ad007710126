import Extempore.Desugaring

/-!
# Evaluation of transformed expressions

What core forms mean, and which expressions mean the same after `impc:ti:first-transform`. The
expansions of `or`, of `and`, of `>=` and of `<=` write an operand twice. The output makes the
calls of the operand again where the second one is reached, and means the same otherwise.
-/

namespace Extempore.DesugaredEvaluation

open XtlangForms FirstTransform SurfaceExpressions Desugaring CallTrees CallTrees.CallTree

/-! ## Meaning of core forms -/

def compareOf (s : String) : Option Compare :=
  match s with
  | ">" => some .gt
  | "<" => some .lt
  | "=" => some .eq
  | _ => none

section Meaning

variable {V : Type} (values : Values V)

/-- A call of a function: of a constant, of an operator, or of a function of the program. -/
def applyCore (f : Name) (vs : List V) : Effect V V :=
  if f = boolName true then .done (values.ofBool true)
  else if f = boolName false then .done (values.ofBool false)
  else if h : f.text ∈ mathbinaryaritylist then
    match vs with
    | [v, w] => .done (values.arith ⟨f.text, h⟩ v w)
    | _ => .done values.unspecified
  else
    match compareOf f.text, vs with
    | some op, [v, w] => .done (values.ofBool (values.compare op v w))
    | some _, _ => .done values.unspecified
    | none, vs => .call (f, vs) .done

mutual

/-- The meaning of a form without closures. -/
def evalCore (env : Env V) : Expr → Effect V V
  | .atom (.name x) => .done (env x)
  | .atom (.int n) => .done (values.ofInt n)
  | .atom (.str text) => .done (values.ofStr text)
  | .atom (.bool b) => .done (values.ofBool b)
  | .if2 _ test thn =>
    (evalCore env test).bind fun v =>
      if values.isTrue v then evalCore env thn else .done values.unspecified
  | .if3 _ test thn els =>
    (evalCore env test).bind fun v =>
      if values.isTrue v then evalCore env thn else evalCore env els
  | .lets _ bindings body =>
    (evalCoreBindings (bindNames (letNames bindings) values.unspecified env) bindings).bind
      fun env => evalCoreBody env body
  | .seq body => evalCoreBody env body
  | .call (.atom (.name f)) args => (evalCoreArgs env args).bind (applyCore values f)
  | .call _ _ | .lambda _ _ _ => .done values.unspecified
  | .ret _ e => evalCore env e

def evalCoreBody (env : Env V) : Body → Effect V V
  | .last e => evalCore env e
  | .cons e rest => (evalCore env e).bind fun _ => evalCoreBody env rest

def evalCoreArgs (env : Env V) : Args → Effect V (List V)
  | .nil => .done []
  | .cons e rest =>
    (evalCore env e).bind fun v => (evalCoreArgs env rest).bind fun vs => .done (v :: vs)

def evalCoreBindings (env : Env V) : Bindings → Effect V (Env V)
  | .nil => .done env
  | .cons x init rest =>
    (evalCore env init).bind fun v => evalCoreBindings (Function.update env x v) rest

end

end Meaning

section Lemmas

variable {V : Type} {values : Values V} {tables : Tables}

theorem applyCore_bool (b : Bool) (vs : List V) :
    applyCore values (boolName b) vs = .done (values.ofBool b) := by
  cases b
  · rw [applyCore.eq_def, if_neg (by decide), if_pos rfl]
  · rw [applyCore.eq_def, if_pos rfl]

theorem applyCore_arith (op : ArithOp) (v w : V) :
    applyCore values (ArithOp.name op) [v, w] = .done (values.arith op v w) := by
  have hbool : ∀ b, ArithOp.name op ≠ boolName b := by
    intro b h
    have hmem := op.mem
    rw [show op.text = (boolName b).text from congrArg Name.text h] at hmem
    cases b <;> exact absurd hmem (by decide)
  have hmem : (ArithOp.name op).text ∈ mathbinaryaritylist := op.mem
  rw [applyCore.eq_def, if_neg (hbool true), if_neg (hbool false), dif_pos hmem]
  rfl

theorem compareOf_text (op : Compare) : compareOf op.text = some op := by
  cases op <;> rfl

theorem applyCore_compare (op : Compare) (v w : V) :
    applyCore values (Compare.name op) [v, w] =
      .done (values.ofBool (values.compare op v w)) := by
  have hbool : ∀ b, Compare.name op ≠ boolName b := by
    intro b
    cases op <;> cases b <;> decide
  have hmem : (Compare.name op).text ∉ mathbinaryaritylist := by
    cases op <;> decide
  rw [applyCore.eq_def, if_neg (hbool true), if_neg (hbool false), dif_neg hmem]
  simp only [Compare.name, compareOf_text]

theorem compareOf_eq_none {s : String} (h : s ∉ languageSymbols) : compareOf s = none := by
  unfold compareOf
  split
  · exact absurd (by decide) h
  · exact absurd (by decide) h
  · exact absurd (by decide) h
  · rfl

/-- A function of the program is called. -/
theorem applyCore_plain {f : Name} (hf : PlainName tables f) (vs : List V) :
    applyCore values f vs = .call (f, vs) .done := by
  have hbool : ∀ b, f ≠ boolName b := by
    intro b h
    apply hf.notMem
    rw [h]
    cases b <;> decide
  have hmem : f.text ∉ mathbinaryaritylist := fun h =>
    hf.notMem (ArithOp.mem_languageSymbols ⟨f.text, h⟩)
  rw [applyCore.eq_def, if_neg (hbool true), if_neg (hbool false), dif_neg hmem,
    compareOf_eq_none hf.notMem]

theorem evalCore_callName (env : Env V) (f : Name) (args : Args) :
    evalCore values env (callName f args) =
      (evalCoreArgs values env args).bind (applyCore values f) := by
  rw [callName, evalCore]

theorem evalCore_boolForm (env : Env V) (b : Bool) :
    evalCore values env (boolForm b) = .done (values.ofBool b) := by
  rw [boolForm, evalCore_callName, evalCoreArgs, bind_done, applyCore_bool]

theorem evalCore_binary (env : Env V) (f : Name) (a b : Expr) :
    evalCore values env (binary f a b) =
      (evalCore values env a).bind fun v => (evalCore values env b).bind fun w =>
        applyCore values f [v, w] := by
  rw [binary, evalCore_callName, evalCoreArgs, evalCoreArgs, evalCoreArgs]
  simp only [bind_assoc, bind_done]

theorem evalCore_arith (env : Env V) (op : ArithOp) (a b : Expr) :
    evalCore values env (binary (ArithOp.name op) a b) =
      (evalCore values env a).bind fun v => (evalCore values env b).bind fun w =>
        .done (values.arith op v w) := by
  simp only [evalCore_binary, applyCore_arith]

theorem evalCore_compare (env : Env V) (op : Compare) (a b : Expr) :
    evalCore values env (binary (Compare.name op) a b) =
      (evalCore values env a).bind fun v => (evalCore values env b).bind fun w =>
        .done (values.ofBool (values.compare op v w)) := by
  simp only [evalCore_binary, applyCore_compare]

theorem letNames_rewrapBindings (bindings : Bindings) :
    letNames (rewrapBindings bindings) = letNames bindings := by
  cases bindings with
  | nil => rfl
  | cons x _ rest =>
    rw [rewrapBindings, letNames, letNames, letNames_rewrapBindings rest]

theorem letNames_desugarBindings : ∀ bindings,
    letNames (desugarBindings bindings) = bindings.names
  | .nil => rfl
  | .cons x _ rest => by
    rw [desugarBindings, letNames, SBindings.names, letNames_desugarBindings rest]

mutual

/-- A second pass changes nothing. -/
theorem evalCore_rewrap : ∀ e env, evalCore values env (rewrap e) = evalCore values env e
  | .atom (.name _), _ => rfl
  | .atom (.int _), _ => rfl
  | .atom (.str _), _ => rfl
  | .atom (.bool b), env => by rw [rewrap, evalCore_boolForm, evalCore]
  | .if2 _ test thn, env => by
    rw [rewrap, evalCore, evalCore, evalCore_rewrap test, evalCore_rewrap thn]
  | .if3 _ test thn els, env => by
    rw [rewrap, evalCore, evalCore, evalCore_rewrap test, evalCore_rewrap thn,
      evalCore_rewrap els]
  | .lets _ bindings body, env => by
    rw [rewrap, evalCore, evalCore, letNames_rewrapBindings, evalCore_rewrapBindings bindings]
    congr 1
    funext env
    rw [evalCoreBody, evalCore, evalCore_rewrapBody body]
  | .seq body, env => by rw [rewrap, evalCore, evalCore, evalCore_rewrapBody body]
  | .lambda _ _ _, _ => rfl
  | .call f args, env => by
    cases f with
    | atom a =>
      cases a with
      | name f =>
        change evalCore values env (callName f (rewrapArgs args)) = _
        rw [evalCore_callName, evalCore, evalCore_rewrapArgs args]
      | int n => rfl
      | str text => rfl
      | bool b => rfl
    | _ => rfl
  | .ret _ e, env => by rw [rewrap, evalCore, evalCore, evalCore_rewrap e]

theorem evalCore_rewrapBody : ∀ body env,
    evalCoreBody values env (rewrapBody body) = evalCoreBody values env body
  | .last e, env => by rw [rewrapBody, evalCoreBody, evalCoreBody, evalCore_rewrap e]
  | .cons e rest, env => by
    rw [rewrapBody, evalCoreBody, evalCoreBody, evalCore_rewrap e, evalCore_rewrapBody rest]

theorem evalCore_rewrapArgs : ∀ args env,
    evalCoreArgs values env (rewrapArgs args) = evalCoreArgs values env args
  | .nil, _ => rfl
  | .cons e rest, env => by
    rw [rewrapArgs, evalCoreArgs, evalCoreArgs, evalCore_rewrap e, evalCore_rewrapArgs rest]

theorem evalCore_rewrapBindings : ∀ bindings env,
    evalCoreBindings values env (rewrapBindings bindings) = evalCoreBindings values env bindings
  | .nil, _ => rfl
  | .cons x init rest, env => by
    rw [rewrapBindings, evalCoreBindings, evalCoreBindings, evalCore_rewrap init]
    congr 1
    funext v
    exact evalCore_rewrapBindings rest _

end

variable (values) in
/-- The transformed operands of an operator behind the first two, whose value is `v`. -/
def evalCoreOperands (env : Env V) (op : ArithOp) (v : V) : SArgs → Effect V V
  | .nil => .done v
  | .cons e rest =>
    (evalCore values env (desugar e)).bind fun w =>
      evalCoreOperands env op (values.arith op v w) rest

theorem evalCore_desugarOperands (env : Env V) (op : ArithOp) : ∀ (args : SArgs) (acc : Expr),
    evalCore values env (desugarOperands op acc args) =
      (evalCore values env acc).bind fun v => evalCoreOperands values env op v args
  | .nil, acc => (bind_self _).symm
  | .cons e rest, acc => by
    rw [desugarOperands, evalCore_desugarOperands env op rest, evalCore_arith]
    simp only [bind_assoc, bind_done, evalCore_rewrap, evalCoreOperands]

theorem evalCore_desugar_arith (env : Env V) (op : ArithOp) (a b : Surface) (rest : SArgs) :
    evalCore values env (desugar (.arith op a b rest)) =
      (evalCore values env (desugar a)).bind fun v => (evalCore values env (desugar b)).bind
        fun w => evalCoreOperands values env op (values.arith op v w) rest := by
  cases rest with
  | nil => rw [desugar, evalCore_arith]; rfl
  | cons e rest =>
    rw [desugar, evalCore_desugarOperands, evalCore_arith, evalCore_arith]
    simp only [bind_assoc, bind_done, evalCore_rewrap, evalCoreOperands]

end Lemmas

/-! ## Operands that are written twice -/

section Quiet

variable {V : Type} (values : Values V)

mutual

/-- What is written twice makes no calls where the second one is reached: an operand of an `or`
and the last operand of an `and` where it is true, and the operands of `>=` and of `<=`. -/
def Quiet (env : Env V) : Surface → Prop
  | .var _ | .int _ | .str _ | .bool _ => True
  | .call _ args => QuietArgs env args
  | .arith _ a b rest => Quiet env a ∧ Quiet env b ∧ QuietArgs env rest
  | .compare _ a b => Quiet env a ∧ Quiet env b
  | .orEqual _ a b =>
    Quiet env a ∧ Quiet env b ∧ (eval values env a).Silent ∧ (eval values env b).Silent
  | .if2 test thn =>
    Quiet env test ∧ ∀ v, Result (eval values env test) v →
      if values.isTrue v then Quiet env thn else True
  | .if3 test thn els =>
    Quiet env test ∧ ∀ v, Result (eval values env test) v →
      if values.isTrue v then Quiet env thn else Quiet env els
  | .lets _ bindings body =>
    QuietBindings (bindNames bindings.names values.unspecified env) bindings ∧
      ∀ env', Result (evalBindings values (bindNames bindings.names values.unspecified env)
        bindings) env' → QuietBody env' body
  | .seq body => QuietBody env body
  | .and operands => QuietAnd env operands
  | .or operands => QuietOr env operands
  | .not e => Quiet env e
  | .cond clauses => QuietClauses env clauses

def QuietArgs (env : Env V) : SArgs → Prop
  | .nil => True
  | .cons e rest => Quiet env e ∧ QuietArgs env rest

def QuietBody (env : Env V) : SBody → Prop
  | .last e => Quiet env e
  | .cons e rest => Quiet env e ∧ QuietBody env rest

def QuietAnd (env : Env V) : SBody → Prop
  | .last e =>
    Quiet env e ∧ ∀ v, Result (eval values env e) v →
      if values.isTrue v then (eval values env e).Silent else True
  | .cons e rest =>
    Quiet env e ∧ ∀ v, Result (eval values env e) v →
      if values.isTrue v then QuietAnd env rest else True

def QuietOr (env : Env V) : SBody → Prop
  | .last e =>
    Quiet env e ∧ ∀ v, Result (eval values env e) v →
      if values.isTrue v then (eval values env e).Silent else True
  | .cons e rest =>
    Quiet env e ∧ ∀ v, Result (eval values env e) v →
      if values.isTrue v then (eval values env e).Silent else QuietOr env rest

def QuietBindings (env : Env V) : SBindings → Prop
  | .nil => True
  | .cons x init rest =>
    Quiet env init ∧ ∀ v, Result (eval values env init) v →
      QuietBindings (Function.update env x v) rest

def QuietClauses (env : Env V) : Clauses → Prop
  | .last test body =>
    Quiet env test ∧ ∀ v, Result (eval values env test) v →
      if values.isTrue v then QuietBody env body else True
  | .lastElse test body els =>
    Quiet env test ∧ ∀ v, Result (eval values env test) v →
      if values.isTrue v then QuietBody env body else QuietBody env els
  | .cons test body rest =>
    Quiet env test ∧ ∀ v, Result (eval values env test) v →
      if values.isTrue v then QuietBody env body else QuietClauses env rest

end

end Quiet

/-! ## One form -/

section Forms

variable {V : Type} {values : Values V} {q p : Effect V V} {cond : Prop}

theorem Follows.ite {q₁ q₂ p₁ p₂ : Effect V V} {c₁ c₂ : Prop} (b : Bool)
    (h₁ : Follows q₁ p₁ c₁) (h₂ : Follows q₂ p₂ c₂) :
    Follows (if b then q₁ else q₂) (if b then p₁ else p₂) (if b then c₁ else c₂) := by
  cases b
  · exact h₂
  · exact h₁

/-- A conditional with a test that is evaluated once. -/
theorem follows_if {q₁ q₂ p₁ p₂ : Effect V V} {c₁ c₂ : Prop} (h : Follows q p cond)
    (h₁ : Follows q₁ p₁ c₁) (h₂ : Follows q₂ p₂ c₂) :
    Follows (q.bind fun v => if values.isTrue v then q₁ else q₂)
      (p.bind fun v => if values.isTrue v then p₁ else p₂)
      (cond ∧ ∀ v, Result p v → if values.isTrue v then c₁ else c₂) :=
  h.bind fun v _ => Follows.ite (values.isTrue v) h₁ h₂

/-- A conditional with a test that is evaluated again as the branch. -/
theorem follows_again {k k' : V → Effect V V} {conds : V → Prop} (h : Follows q p cond)
    (hk : ∀ v, values.isTrue v = false → Follows (k v) (k' v) (conds v)) :
    Follows (q.bind fun v => if values.isTrue v then q else k v)
      (p.bind fun v => if values.isTrue v then .done v else k' v)
      (cond ∧ ∀ v, Result p v → if values.isTrue v then p.Silent else conds v) := by
  have hbranch : ∀ v, Result p v →
      Follows (if values.isTrue v then q else k v) (if values.isTrue v then .done v else k' v)
        (if values.isTrue v then q = .done v else conds v) := by
    intro v hv
    cases htrue : values.isTrue v with
    | true => exact h.of_result hv
    | false => exact hk v htrue
  apply (h.bind hbranch).congr
  apply and_congr_right
  intro hcond
  rw [h.eq_iff.mpr hcond]
  apply forall₂_congr
  intro v hv
  cases values.isTrue v with
  | true =>
    constructor
    · exact fun hdone => ⟨v, hdone⟩
    · exact fun hsilent => hsilent.result_iff.mp hv
  | false => exact Iff.rfl

/-- The last operand of an `and` or of an `or`. -/
theorem follows_last (h : Follows q p cond) :
    Follows (q.bind fun v => if values.isTrue v then q else .done (values.ofBool false)) p
      (cond ∧ ∀ v, Result p v → if values.isTrue v then p.Silent else True) := by
  have hfalse : ∀ v, values.isTrue v = false →
      Follows (.done (values.ofBool false)) (.done v : Effect V V) True := by
    intro v hv
    rw [values.eq_of_isTrue_eq_false v hv]
    exact Follows.refl _
  have hp : (p.bind fun v => if values.isTrue v then .done v else .done v) = p := by
    simp only [ite_self]
    exact bind_self p
  have hagain := follows_again h hfalse
  rw [hp] at hagain
  exact hagain

variable (values) in
/-- A comparison of what the computations end with. -/
def comparison (q q' : Effect V V) (f : V → V → Bool) : Effect V V :=
  q.bind fun v => q'.bind fun w => .done (values.ofBool (f v w))

variable (values) in
/-- A comparison that is also the branch where it is true. -/
def comparisonOr (q q' : Effect V V) (f : V → V → Bool) (rest : Effect V V) : Effect V V :=
  (comparison values q q' f).bind fun v =>
    if values.isTrue v then comparison values q q' f else rest

theorem comparison_bind (q q' : Effect V V) (f : V → V → Bool) (k : V → Effect V V) :
    (comparison values q q' f).bind k =
      q.bind fun v => q'.bind fun w => k (values.ofBool (f v w)) := by
  simp only [comparison, bind_assoc, bind_done]

theorem result_comparison {q' : Effect V V} {f : V → V → Bool} {v w : V} (hv : Result q v)
    (hw : Result q' w) : Result (comparison values q q' f) (values.ofBool (f v w)) :=
  result_bind.mpr ⟨v, hv, result_bind.mpr ⟨w, hw, Result.done _⟩⟩

theorem silent_comparison_iff {q' : Effect V V} {f : V → V → Bool} :
    (comparison values q q' f).Silent ↔ q.Silent ∧ q'.Silent := by
  have : Nonempty V := ⟨values.unspecified⟩
  rw [comparison, silent_bind_iff]
  apply and_congr_right
  intro _
  simp only [silent_bind_iff]
  constructor
  · intro h
    obtain ⟨v, hv⟩ := exists_result q
    exact (h v hv).1
  · exact fun h v _ => ⟨h, fun w _ => ⟨_, rfl⟩⟩

theorem comparison_eq_done_iff {q' : Effect V V} {f : V → V → Bool} {v w : V} (hv : Result q v)
    (hw : Result q' w) :
    comparison values q q' f = .done (values.ofBool (f v w)) ↔ q.Silent ∧ q'.Silent := by
  constructor
  · exact fun h => silent_comparison_iff.mp ⟨_, h⟩
  · intro h
    have hsilent : (comparison values q q' f).Silent := silent_comparison_iff.mpr h
    exact hsilent.result_iff.mp (result_comparison hv hw)

theorem comparisonOr_eq_done_iff {q' : Effect V V} {f : V → V → Bool} {v w : V}
    (hv : Result q v) (hw : Result q' w) :
    comparisonOr values q q' f (.done (values.ofBool false)) = .done (values.ofBool (f v w)) ↔
      q.Silent ∧ q'.Silent := by
  constructor
  · exact fun h => silent_comparison_iff.mp (silent_of_bind_eq_done h)
  · intro h
    have hdone : comparison values q q' f = .done (values.ofBool (f v w)) :=
      (comparison_eq_done_iff hv hw).mpr h
    rw [comparisonOr, hdone, bind_done, values.isTrue_ofBool]
    cases f v w <;> rfl

theorem result_comparisonOr {q' : Effect V V} {f : V → V → Bool} {v w : V} (hv : Result q v)
    (hw : Result q' w) :
    Result (comparisonOr values q q' f (.done (values.ofBool false)))
      (values.ofBool (f v w)) := by
  have hresult : Result (comparison values q q' f) (values.ofBool (f v w)) :=
    result_comparison hv hw
  apply result_bind.mpr ⟨_, hresult, _⟩
  rw [values.isTrue_ofBool]
  cases hf : f v w with
  | true =>
    rw [hf] at hresult
    exact hresult
  | false => exact Result.done _

/-- What follows the first comparison in `>=` and in `<=`. -/
theorem follows_branch {q' : Effect V V} {f g : V → V → Bool} {v w : V} (hv : Result q v)
    (hw : Result q' w) :
    Follows
      (if f v w then comparison values q q' f
        else comparisonOr values q q' g (.done (values.ofBool false)))
      (.done (values.ofBool (f v w || g v w))) (q.Silent ∧ q'.Silent) := by
  cases hf : f v w with
  | true =>
    have hresult : Result (comparison values q q' f) (values.ofBool (f v w)) :=
      result_comparison hv hw
    have hiff : comparison values q q' f = .done (values.ofBool (f v w)) ↔
        q.Silent ∧ q'.Silent := comparison_eq_done_iff hv hw
    rw [hf] at hresult hiff
    exact ⟨Stretch.of_result hresult, hiff⟩
  | false => exact ⟨Stretch.of_result (result_comparisonOr hv hw), comparisonOr_eq_done_iff hv hw⟩

/-- Two comparisons of the same operands. -/
theorem follows_orEqual {q' p' : Effect V V} {cond' : Prop} (f g : V → V → Bool)
    (h : Follows q p cond) (h' : Follows q' p' cond') :
    Follows
      (comparisonOr values q q' f (comparisonOr values q q' g (.done (values.ofBool false))))
      (p.bind fun v => p'.bind fun w => .done (values.ofBool (f v w || g v w)))
      (cond ∧ cond' ∧ p.Silent ∧ p'.Silent) := by
  have : Nonempty V := ⟨values.unspecified⟩
  rw [comparisonOr, comparison_bind]
  simp only [values.isTrue_ofBool]
  have hsilent : cond ∧ cond' ∧ q.Silent ∧ q'.Silent ↔ cond ∧ cond' ∧ p.Silent ∧ p'.Silent := by
    apply and_congr_right
    intro hcond
    apply and_congr_right
    intro hcond'
    rw [h.eq_iff.mpr hcond, h'.eq_iff.mpr hcond']
  apply Follows.congr _ hsilent
  apply h.then
  intro v hv
  apply h'.then
  intro w hw
  exact follows_branch (h.stretch.result hv) (h'.stretch.result hw)

end Forms

/-! ## All expressions -/

section Expressions

variable {V : Type} {values : Values V} {tables : Tables}

mutual

theorem follows_eval : ∀ e, Plain tables e → ∀ env,
    Follows (evalCore values env (desugar e)) (eval values env e) (Quiet values env e)
  | .var _, _, _ => Follows.refl _
  | .int _, _, _ => Follows.refl _
  | .str _, _, _ => Follows.refl _
  | .bool b, _, env => by
    rw [desugar, evalCore_boolForm]
    exact Follows.refl _
  | .call f args, h, env => by
    rw [desugar, evalCore_callName, funext (applyCore_plain h.1)]
    exact (follows_args args h.2 env).bind_refl _
  | .arith op a b rest, h, env => by
    have : Nonempty V := ⟨values.unspecified⟩
    rw [evalCore_desugar_arith, eval]
    apply (follows_eval a h.1 env).then
    intro v _
    apply (follows_eval b h.2.1 env).then
    intro w _
    exact follows_operands rest h.2.2 env op _
  | .compare op a b, h, env => by
    have : Nonempty V := ⟨values.unspecified⟩
    rw [desugar, evalCore_compare, eval]
    apply (follows_eval a h.1 env).then
    intro v _
    exact (follows_eval b h.2 env).bind_refl _
  | .orEqual op a b, h, env => by
    rw [desugar, evalCore, evalCore, evalCore_compare, evalCore_compare, evalCore_boolForm]
    exact follows_orEqual (values.compare op.strict) (values.compare .eq)
      (follows_eval a h.1 env) (follows_eval b h.2 env)
  | .if2 test thn, h, env => by
    rw [desugar, evalCore]
    exact follows_if (follows_eval test h.1 env) (follows_eval thn h.2 env) (Follows.refl _)
  | .if3 test thn els, h, env => by
    rw [desugar, evalCore]
    exact follows_if (follows_eval test h.1 env) (follows_eval thn h.2.1 env)
      (follows_eval els h.2.2 env)
  | .lets _ bindings body, h, env => by
    rw [desugar, evalCore, letNames_desugarBindings, eval]
    apply (follows_bindings bindings h.1 _).bind
    intro env' _
    exact follows_body body h.2 env'
  | .seq body, h, env => by
    rw [desugar, evalCore]
    exact follows_body body h env
  | .and operands, h, env => by
    rw [desugar]
    exact follows_and operands h env
  | .or operands, h, env => by
    rw [desugar]
    exact follows_or operands h env
  | .not e, h, env => by
    have hnot : (fun v => if values.isTrue v then evalCore values env (boolForm false)
        else evalCore values env (boolForm true)) =
        fun v => (.done (values.ofBool (!values.isTrue v)) : Effect V V) := by
      funext v
      rw [evalCore_boolForm, evalCore_boolForm]
      cases values.isTrue v <;> rfl
    rw [desugar, evalCore, hnot]
    exact (follows_eval e h env).bind_refl _
  | .cond clauses, h, env => by
    rw [desugar]
    exact follows_clauses clauses h env

theorem follows_args : ∀ args, PlainArgs tables args → ∀ env,
    Follows (evalCoreArgs values env (desugarArgs args)) (evalArgs values env args)
      (QuietArgs values env args)
  | .nil, _, _ => Follows.refl _
  | .cons e rest, h, env => by
    have : Nonempty V := ⟨values.unspecified⟩
    apply (follows_eval e h.1 env).then
    intro v _
    exact (follows_args rest h.2 env).bind_refl _

theorem follows_operands : ∀ args, PlainArgs tables args → ∀ env op v,
    Follows (evalCoreOperands values env op v args) (evalOperands values env op v args)
      (QuietArgs values env args)
  | .nil, _, _, _, _ => Follows.refl _
  | .cons e rest, h, env, op, v => by
    have : Nonempty V := ⟨values.unspecified⟩
    apply (follows_eval e h.1 env).then
    intro w _
    exact follows_operands rest h.2 env op _

theorem follows_body : ∀ body, PlainBody tables body → ∀ env,
    Follows (evalCoreBody values env (desugarBody body)) (evalBody values env body)
      (QuietBody values env body)
  | .last e, h, env => follows_eval e h env
  | .cons e rest, h, env => by
    have : Nonempty V := ⟨values.unspecified⟩
    apply (follows_eval e h.1 env).then
    intro v _
    exact follows_body rest h.2 env

theorem follows_and : ∀ operands, PlainBody tables operands → ∀ env,
    Follows (evalCore values env (desugarAnd operands)) (evalAnd values env operands)
      (QuietAnd values env operands)
  | .last e, h, env => by
    rw [desugarAnd, evalCore, evalCore_boolForm]
    exact follows_last (follows_eval e h env)
  | .cons e rest, h, env => by
    rw [desugarAnd, evalCore, evalCore_boolForm]
    apply (follows_eval e h.1 env).bind
    intro v _
    cases hv : values.isTrue v with
    | true => exact follows_and rest h.2 env
    | false =>
      rw [values.eq_of_isTrue_eq_false v hv]
      exact Follows.refl _

theorem follows_or : ∀ operands, PlainBody tables operands → ∀ env,
    Follows (evalCore values env (desugarOr operands)) (evalOr values env operands)
      (QuietOr values env operands)
  | .last e, h, env => by
    rw [desugarOr, evalCore, evalCore_boolForm]
    exact follows_last (follows_eval e h env)
  | .cons e rest, h, env => by
    rw [desugarOr, evalCore]
    apply follows_again (follows_eval e h.1 env)
    intro v _
    exact follows_or rest h.2 env

theorem follows_bindings : ∀ bindings, PlainBindings tables bindings → ∀ env,
    Follows (evalCoreBindings values env (desugarBindings bindings))
      (evalBindings values env bindings) (QuietBindings values env bindings)
  | .nil, _, _ => Follows.refl _
  | .cons x init rest, h, env => by
    apply (follows_eval init h.2.1 env).bind
    intro v _
    exact follows_bindings rest h.2.2 _

theorem follows_clauses : ∀ clauses, PlainClauses tables clauses → ∀ env,
    Follows (evalCore values env (desugarClauses clauses)) (evalClauses values env clauses)
      (QuietClauses values env clauses)
  | .last test body, h, env => by
    rw [desugarClauses, evalCore, evalCore]
    exact follows_if (follows_eval test h.1 env) (follows_body body h.2 env) (Follows.refl _)
  | .lastElse test body els, h, env => by
    rw [desugarClauses, evalCore, evalCore, evalCore]
    exact follows_if (follows_eval test h.1 env) (follows_body body h.2.1 env)
      (follows_body els h.2.2 env)
  | .cons test body rest, h, env => by
    rw [desugarClauses, evalCore, evalCore]
    exact follows_if (follows_eval test h.1 env) (follows_body body h.2.1 env)
      (follows_clauses rest h.2.2 env)

end

/-- The pass has one output. -/
theorem transforms_unique {s out out' : Sexpr} (h : Transforms tables s out)
    (h' : Transforms tables s out') : out = out' := by
  obtain ⟨depth, h⟩ := h
  obtain ⟨depth', h'⟩ := h'
  have heq := h (max depth depth') (by omega) ⟨0, 0, 0⟩ true
  rw [h' (max depth depth') (by omega)] at heq
  exact (Prod.mk.inj (Option.some.inj heq)).1.symm

/-- The pass gives a core form that makes the same calls as the expression, and has its value. -/
def Preserves (tables : Tables) (values : Values V) (env : Env V) (e : Surface) : Prop :=
  ∃ m : Expr, Transforms tables e.toSexpr m.toSexpr ∧ evalCore values env m = eval values env e

theorem preserves_iff_eq (htables : Regular tables) (env : Env V) {e : Surface}
    (he : Plain tables e) :
    Preserves tables values env e ↔ evalCore values env (desugar e) = eval values env e := by
  constructor
  · intro h
    obtain ⟨m, hm, heq⟩ := h
    have hsame := transforms_unique (transforms_desugar htables e he) hm
    rw [Expr.toSexpr_injective _ _ hsame]
    exact heq
  · exact fun h => ⟨desugar e, transforms_desugar htables e he, h⟩

theorem preserves_iff (tables : Tables) (htables : Regular tables) (values : Values V)
    (env : Env V) (e : Surface) (he : Plain tables e) :
    Preserves tables values env e ↔ Quiet values env e :=
  (preserves_iff_eq htables env he).trans (follows_eval e he env).eq_iff

end Expressions

/-! ## A disjunction of calls -/

/-- Tables without entries. -/
def noTables : Tables where
  isPoly _ := false
  isGeneric _ := false
  typedHead _ := none
  typedAtom _ := none
  isNumber _ := false
  typeStr _ := ""
  castType s := s
  xtmacro _ _ := none

theorem unknown_noTables {s : String} (h : isDotted noTables s = false) : Unknown noTables s :=
  ⟨rfl, rfl, rfl, rfl, h, fun _ => rfl⟩

theorem regular_noTables : Regular noTables := by
  have hdotted : ∀ s ∈ languageSymbols, isDotted noTables s = false := by decide
  exact fun s hs => unknown_noTables (hdotted s hs)

/-- Integers, of which `0` is false. -/
def integers : Values ℤ where
  isTrue n := n != 0
  ofBool b := if b then 1 else 0
  ofInt n := n
  ofStr text := text.length
  arith op n m := if op.text = "+" then n + m else if op.text = "*" then n * m else n - m
  compare op n m :=
    match op with
    | .gt => decide (m < n)
    | .lt => decide (n < m)
    | .eq => decide (n = m)
  unspecified := 0
  isTrue_ofBool b := by cases b <;> rfl
  eq_of_isTrue_eq_false v h := by simpa using h

def nameF : Name := ⟨"f", f_notMem_keywords⟩

def nameG : Name := ⟨"g", g_notMem_keywords⟩

/-- `(or (f) (g))` -/
def callsOr : Surface := .or (.cons (.call nameF .nil) (.last (.call nameG .nil)))

theorem plain_callsOr : Plain noTables callsOr := by
  have hf : PlainName noTables nameF :=
    ⟨unknown_noTables (by decide), by decide, by decide, by decide⟩
  have hg : PlainName noTables nameG :=
    ⟨unknown_noTables (by decide), by decide, by decide, by decide⟩
  exact ⟨⟨hf, True.intro⟩, hg, True.intro⟩

theorem not_quiet_callsOr (env : Env ℤ) : ¬ Quiet integers env callsOr := by
  intro h
  have hcall : Result (eval integers env (.call nameF .nil)) 1 := Result.call 1 (Result.done 1)
  obtain ⟨v, hv⟩ := h.2 1 hcall
  cases hv

theorem preserves_iff_callsOr : Regular noTables ∧ Plain noTables callsOr ∧
    (Preserves noTables integers (fun _ => 0) callsOr ↔ Quiet integers (fun _ => 0) callsOr) :=
  ⟨regular_noTables, plain_callsOr,
    preserves_iff noTables regular_noTables integers (fun _ => 0) callsOr plain_callsOr⟩

/-- The output calls `f` once more where it has returned true. -/
theorem not_preserves_callsOr : ¬ Preserves noTables integers (fun _ => 0) callsOr := by
  intro h
  have heq := (preserves_iff_eq regular_noTables _ plain_callsOr).mp h
  exact not_quiet_callsOr _ ((follows_eval callsOr plain_callsOr _).eq_iff.mp heq)

end Extempore.DesugaredEvaluation
