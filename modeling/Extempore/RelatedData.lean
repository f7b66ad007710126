import Extempore.RegisterMachine

/-!
# The same data up to the environments of closures

Two data are the same up to a relation between environments if they differ in the
environments of their closures only, and these are related. What the opcodes compute of data
without looking into an environment keeps this relation, whatever the relation between the
environments is.
-/

namespace Extempore.RelatedData
open SchemeData RegisterMachine

/-- The data are equal but for the environments of the closures, which `E` relates. -/
inductive Same (E : Env → Env → Prop) : Val → Val → Prop
  | nil : Same E .nil .nil
  | bool (b : Bool) : Same E (.bool b) (.bool b)
  | symbol (name : String) : Same E (.symbol name) (.symbol name)
  | integer (n : ℤ) : Same E (.integer n) (.integer n)
  | character (c : ℕ) : Same E (.character c) (.character c)
  | string (s : List UInt8) : Same E (.string s) (.string s)
  | other (id : ℕ) : Same E (.other id) (.other id)
  | pair {a a' d d' : Val} : Same E a a' → Same E d d' → Same E (.pair a d) (.pair a' d')
  | closure (kind : ClosureKind) {code code' : Val} {env env' : Env} :
      Same E code code' → E env env' → Same E (.closure kind code env) (.closure kind code' env')

/-- What a primitive procedure does, and `eqv_sc`, as far as the environments of closures are
not looked into. `none` stands for a procedure that is not modelled. -/
structure Procedures where
  eqv : Val → Val → Bool
  foreign : ℕ → Val → Option Val
  eqv_same : ∀ (E : Env → Env → Prop) {v v' w w' : Val}, Same E v v' → Same E w w' →
    eqv v w = eqv v' w'
  foreign_same : ∀ (E : Env → Env → Prop) (id : ℕ) {v v' : Val}, Same E v v' →
    Option.Rel (Same E) (foreign id v) (foreign id v')

variable {E E' : Env → Env → Prop} {v v' w w' : Val}

theorem Same.mono (hE : ∀ env env', E env env' → E' env env') (h : Same E v v') :
    Same E' v v' := by
  induction h with
  | pair _ _ iha ihd => exact .pair iha ihd
  | closure kind _ henv ih => exact .closure kind ih (hE _ _ henv)
  | _ => constructor

/-- Every frame that the datum mentions has an address below `n`. -/
def Within (n : ℕ) : Val → Prop
  | .pair a d => Within n a ∧ Within n d
  | .closure _ code env => Within n code ∧ ∀ a ∈ env, a < n
  | _ => True

theorem Same.refl_of_within {n : ℕ} (hE : ∀ env : Env, (∀ a ∈ env, a < n) → E env env)
    (v : Val) (hv : Within n v) : Same E v v := by
  induction v with
  | pair a d iha ihd => exact .pair (iha hv.1) (ihd hv.2)
  | closure kind code env ih => exact .closure kind (ih hv.1) (hE env hv.2)
  | _ => constructor

theorem Same.car (h : Same E v v') : Same E (car v) (car v') := by
  cases h with
  | pair ha _ => exact ha
  | _ => constructor

theorem Same.cdr (h : Same E v v') : Same E (cdr v) (cdr v') := by
  cases h with
  | pair _ hd => exact hd
  | _ => constructor

theorem Same.isPair_eq (h : Same E v v') : isPair v = isPair v' := by
  cases h <;> rfl

theorem Same.isTrue_eq (h : Same E v v') : isTrue v = isTrue v' := by
  cases h <;> rfl

theorem Same.syntaxOp_eq (h : Same E v v') : syntaxOp v = syntaxOp v' := by
  cases h <;> rfl

theorem Same.eq_nil_iff (h : Same E v v') : v = .nil ↔ v' = .nil := by
  cases h <;> simp

theorem Same.eq_symbol_iff (h : Same E v v') (name : String) :
    v = .symbol name ↔ v' = .symbol name := by
  cases h <;> simp

theorem Same.printsEmpty_eq (h : Same E v v') : printsEmpty v = printsEmpty v' := by
  cases h <;> rfl

theorem Same.reverseInPlace (h : Same E v v') (ht : Same E w w') :
    Same E (reverseInPlace w v) (reverseInPlace w' v') := by
  induction h generalizing w w' with
  | pair ha _ _ ihd => exact ihd (.pair ha ht)
  | _ => exact ht

theorem Same.letVariables (h : Same E v v') : Same E (letVariables v) (letVariables v') := by
  induction h with
  | pair ha _ _ ihd => exact .pair ha.car ihd
  | _ => constructor

theorem Same.anyEqv_eq (p : Procedures) (hv : Same E v v') (h : Same E w w') :
    findClause.anyEqv p.eqv v w = findClause.anyEqv p.eqv v' w' := by
  induction h with
  | pair ha _ _ ihd => rw [findClause.anyEqv, findClause.anyEqv, ihd, p.eqv_same E ha hv]
  | _ => rfl

theorem Same.findClause (p : Procedures) (hv : Same E v v') (h : Same E w w') :
    Option.Rel (Same E) (findClause p.eqv v w) (findClause p.eqv v' w') := by
  induction h with
  | pair ha hd _ ihd =>
    rw [RegisterMachine.findClause, RegisterMachine.findClause, ha.car.isPair_eq,
      hv.anyEqv_eq p ha.car, if_congr (ha.car.eq_symbol_iff "else") rfl rfl]
    split_ifs
    · exact .some (.pair ha hd)
    · exact ihd
    · exact .some (.pair ha hd)
    · exact .none
  | _ => exact .some .nil

end Extempore.RelatedData
