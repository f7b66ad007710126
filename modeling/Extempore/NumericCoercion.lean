import Mathlib.Data.Int.Notation
import Mathlib.Data.List.Basic

/-!
# Coercion of forced numeric types

`impc:ti:coercion-run` puts a cast around one of two variables that are the operands of an
arithmetic operation and have different forced types. It goes through a program, which is Scheme
data, down to the arithmetic operations, and does not go on into their operands.
-/

namespace Extempore.NumericCoercion

/-- The numeric types that a type expression can name, in the order of their numbers. -/
inductive NumericType
  | fp64
  | fp32
  | si64
  | si32
  | si16
  | si8
  | i1
  deriving DecidableEq, Repr

namespace NumericType

def number : NumericType → ℕ
  | fp64 => 0
  | fp32 => 1
  | si64 => 2
  | si32 => 4
  | si16 => 6
  | si8 => 8
  | i1 => 10

/-- `impc:ir:floating-point?` -/
def floatingPoint (t : NumericType) : Bool := t = fp64 || t = fp32

/-- `impc:ir:pretty-print-type` -/
def prettyPrint : NumericType → String
  | fp64 => "double"
  | fp32 => "float"
  | si64 => "i64"
  | si32 => "i32"
  | si16 => "i16"
  | si8 => "i8"
  | i1 => "i1"

/-- The name of a type in the name of a cast. -/
def castText (t : NumericType) : String :=
  if t.floatingPoint then if t = fp64 then "d" else "f" else t.prettyPrint

/-- `impc:ti:numeric-cast-operator` -/
def castOperator (a b : NumericType) : String :=
  let lowest := if a.number < b.number then a else b
  let highest := if a = lowest then b else a
  highest.castText ++ "to" ++ lowest.castText

end NumericType

/-- Scheme data, with a type of reals. -/
inductive Ast (R : Type)
  | nil
  | cons (car cdr : Ast R)
  | sym (name : String)
  | int (i : ℤ)
  | real (r : R)
  deriving DecidableEq

variable {R : Type}

/-- `(member s '(< > * / = + - <>))` -/
def isArithmetic : Ast R → Bool
  | .sym s => s ∈ ["<", ">", "*", "/", "=", "+", "-", "<>"]
  | _ => false

/-- An operation with its operands. -/
def Ast.binary (op x y : Ast R) : Ast R := .cons op (.cons x (.cons y .nil))

/-- `(,ret ,operand)` -/
def Ast.cast (ret : String) (operand : Ast R) : Ast R := .cons (.sym ret) (.cons operand .nil)

section

variable (integerToReal : ℤ → R) (forcedTypes : List (String × NumericType))

/-- `assoc-strcmp` with a key that may be no symbol. -/
def forced : Ast R → Option NumericType
  | .sym s => forcedTypes.lookup s
  | _ => none

/-- The second operand next to a variable of type `a`, and the first one next to one of type `b`. -/
def literal (a : NumericType) : Ast R → Ast R
  | .int i => if a.floatingPoint then .real (integerToReal i) else .int i
  | x => x

def isNumber : Ast R → Bool
  | .int _ => true
  | .real _ => true
  | _ => false

/-- The first branch of `impc:ti:coercion-run`, with the node to be returned as it is. -/
def coerceNode (op x y node : Ast R) : Ast R :=
  match forced forcedTypes x, forced forcedTypes y with
  | some a, some b =>
    if a ≠ b then
      let ret := NumericType.castOperator a b
      if b.number < a.number then .binary op (.cast ret x) y else .binary op x (.cast ret y)
    else node
  | some a, none => if isNumber y then .binary op x (literal integerToReal a y) else node
  | none, some b => if isNumber x then .binary op (literal integerToReal b x) y else node
  | none, none => node

/-- The `cadr` and the `caddr` of an operation; reading them fails where there are not two. -/
def operands : Ast R → Option (Ast R × Ast R)
  | .cons x (.cons y _) => some (x, y)
  | _ => none

/-- `impc:ti:coercion-run` -/
def coercionRun : Ast R → Option (Ast R)
  | .cons car cdr =>
    if isArithmetic car then
      (operands cdr).map fun xy =>
        coerceNode integerToReal forcedTypes car xy.1 xy.2 (.cons car cdr)
    else
      match coercionRun car, coercionRun cdr with
      | some car', some cdr' => some (.cons car' cdr')
      | _, _ => none
  | ast => some ast

/-- An operation on two variables of different forced types. -/
def Mixed : Ast R → Prop
  | .cons op (.cons x (.cons y .nil)) => isArithmetic op = true ∧
    ∃ a b, forced forcedTypes x = some a ∧ forced forcedTypes y = some b ∧ a ≠ b
  | _ => False

/-- No part of the program is such an operation. -/
def Clean : Ast R → Prop
  | .cons car cdr => ¬ Mixed forcedTypes (.cons car cdr) ∧ Clean car ∧ Clean cdr
  | _ => True

/-- No such operation lies inside an operand of another operation. -/
def OperandsClean : Ast R → Prop
  | .cons car cdr =>
    if isArithmetic car then Clean forcedTypes cdr else OperandsClean car ∧ OperandsClean cdr
  | _ => True

/-- Operations have two operands. -/
def Binary : Ast R → Prop
  | .cons car cdr => (isArithmetic car = true → ∃ x y, cdr = .cons x (.cons y .nil)) ∧
    Binary car ∧ Binary cdr
  | _ => True

/-- What may be changed: the variable of the type with the higher number is cast to the type of the
other one, and an integer next to a variable of a floating-point type becomes a real. -/
inductive Coerced : Ast R → Ast R → Prop
  | same (ast : Ast R) : Coerced ast ast
  | pair {car car' cdr cdr' : Ast R} : Coerced car car' → Coerced cdr cdr' →
      Coerced (.cons car cdr) (.cons car' cdr')
  | castFirst {op x y : Ast R} {a b : NumericType} : isArithmetic op = true →
      forced forcedTypes x = some a → forced forcedTypes y = some b → b.number < a.number →
      Coerced (.binary op x y) (.binary op (.cast (a.castText ++ "to" ++ b.castText) x) y)
  | castSecond {op x y : Ast R} {a b : NumericType} : isArithmetic op = true →
      forced forcedTypes x = some a → forced forcedTypes y = some b → a.number < b.number →
      Coerced (.binary op x y) (.binary op x (.cast (b.castText ++ "to" ++ a.castText) y))
  | realSecond {op x : Ast R} {i : ℤ} {a : NumericType} : isArithmetic op = true →
      forced forcedTypes x = some a → a.floatingPoint = true →
      Coerced (.binary op x (.int i)) (.binary op x (.real (integerToReal i)))
  | realFirst {op y : Ast R} {i : ℤ} {b : NumericType} : isArithmetic op = true →
      forced forcedTypes y = some b → b.floatingPoint = true →
      Coerced (.binary op (.int i) y) (.binary op (.real (integerToReal i)) y)

end

variable {integerToReal : ℤ → R} {forcedTypes : List (String × NumericType)}
  {op x y ast out car cdr : Ast R} {a b : NumericType}

theorem NumericType.number_injective : Function.Injective NumericType.number := by
  intro a b h
  cases a <;> cases b <;> first | rfl | cases h

/-- The operand of the higher type number is converted to the type of the other one. -/
theorem castOperator_of_lt (h : b.number < a.number) :
    NumericType.castOperator a b = a.castText ++ "to" ++ b.castText ∧
      NumericType.castOperator b a = a.castText ++ "to" ++ b.castText := by
  have hne : a ≠ b := fun heq => Nat.lt_irrefl _ (heq ▸ h)
  constructor
  · simp only [NumericType.castOperator, if_neg (Nat.lt_asymm h), if_neg hne]
  · simp only [NumericType.castOperator, if_pos h, if_true]

theorem forced_eq_some (h : forced forcedTypes x = some a) : ∃ s, x = .sym s := by
  cases x with
  | sym s => exact ⟨s, rfl⟩
  | _ => cases h

theorem clean_of_forced (h : forced forcedTypes x = some a) : Clean forcedTypes x := by
  rcases forced_eq_some h with ⟨s, rfl⟩
  trivial

theorem not_mixed_of_not_arithmetic (forcedTypes : List (String × NumericType))
    (h : isArithmetic car ≠ true) (cdr : Ast R) :
    ¬ Mixed forcedTypes (.cons car cdr) := by
  intro hmixed
  cases cdr with
  | cons x cdr =>
    cases cdr with
    | cons y rest =>
      cases rest with
      | nil => exact h hmixed.1
      | _ => exact hmixed
    | _ => exact hmixed
  | _ => exact hmixed

theorem clean_binary_iff : Clean forcedTypes (.binary op x y) ↔
    ¬ Mixed forcedTypes (.binary op x y) ∧ Clean forcedTypes op ∧ Clean forcedTypes x ∧
      Clean forcedTypes y :=
  ⟨fun h => ⟨h.1, h.2.1, h.2.2.2.1, h.2.2.2.2.2.1⟩,
    fun h => ⟨h.1, h.2.1, id, h.2.2.1, id, h.2.2.2, trivial⟩⟩

theorem not_mixed_of_first (h : forced forcedTypes x = none) :
    ¬ Mixed forcedTypes (.binary op x y) := by
  intro hmixed
  rcases hmixed with ⟨-, a, b, ha, -, -⟩
  cases h.symm.trans ha

theorem not_mixed_of_second (h : forced forcedTypes y = none) :
    ¬ Mixed forcedTypes (.binary op x y) := by
  intro hmixed
  rcases hmixed with ⟨-, a, b, -, hb, -⟩
  cases h.symm.trans hb

theorem clean_of_arithmetic (h : isArithmetic op = true) : Clean forcedTypes op := by
  cases op with
  | sym s => trivial
  | _ => cases h

theorem clean_binary_of_not_mixed (hop : isArithmetic op = true)
    (h : ¬ Mixed forcedTypes (.binary op x y)) :
    Clean forcedTypes (.binary op x y) ↔ Clean forcedTypes x ∧ Clean forcedTypes y := by
  rw [clean_binary_iff]
  exact ⟨fun hclean => hclean.2.2, fun hclean => ⟨h, clean_of_arithmetic hop, hclean⟩⟩

theorem clean_cast (ret : String) (h : forced forcedTypes x = some a) :
    Clean forcedTypes (.cast ret x) :=
  ⟨id, trivial, id, clean_of_forced h, trivial⟩

/-- A number next to a variable is an operand still, and only an integer is changed. -/
theorem literal_spec (integerToReal : ℤ → R) (forcedTypes : List (String × NumericType))
    (a : NumericType) (h : isNumber y = true) :
    (literal integerToReal a y = y ∨ ∃ i, y = .int i ∧ a.floatingPoint = true ∧
        literal integerToReal a y = .real (integerToReal i)) ∧
      forced forcedTypes (literal integerToReal a y) = none ∧
      Clean forcedTypes (literal integerToReal a y) ∧ Clean forcedTypes y := by
  cases y with
  | int i =>
    simp only [literal]
    by_cases ha : a.floatingPoint = true
    · rw [if_pos ha]
      exact ⟨Or.inr ⟨i, rfl, ha, rfl⟩, rfl, trivial, trivial⟩
    · rw [if_neg ha]
      exact ⟨Or.inl rfl, rfl, trivial, trivial⟩
  | real r => exact ⟨Or.inl rfl, rfl, trivial, trivial⟩
  | _ => cases h

/-- What is to be shown about one operation: a permitted change, after which it is not mixed. -/
def Treated (integerToReal : ℤ → R) (forcedTypes : List (String × NumericType)) (op x y out : Ast R) :
    Prop :=
  Coerced integerToReal forcedTypes (.binary op x y) out ∧
    (Clean forcedTypes out ↔ Clean forcedTypes x ∧ Clean forcedTypes y)

theorem treated_same (hop : isArithmetic op = true) (h : ¬ Mixed forcedTypes (.binary op x y)) :
    Treated integerToReal forcedTypes op x y (.binary op x y) :=
  ⟨.same _, clean_binary_of_not_mixed hop h⟩

theorem treated_second (hop : isArithmetic op = true) (hx : forced forcedTypes x = some a)
    (hy : isNumber y = true) :
    Treated integerToReal forcedTypes op x y (.binary op x (literal integerToReal a y)) := by
  rcases literal_spec integerToReal forcedTypes a hy with ⟨hcases, hnone, hclean, hcy⟩
  constructor
  · rcases hcases with hsame | ⟨i, rfl, ha, hreal⟩
    · rw [hsame]
      exact .same _
    · rw [hreal]
      exact .realSecond hop hx ha
  · rw [clean_binary_of_not_mixed hop (not_mixed_of_second hnone)]
    exact iff_of_true ⟨clean_of_forced hx, hclean⟩ ⟨clean_of_forced hx, hcy⟩

theorem treated_first (hop : isArithmetic op = true) (hy : forced forcedTypes y = some b)
    (hx : isNumber x = true) :
    Treated integerToReal forcedTypes op x y (.binary op (literal integerToReal b x) y) := by
  rcases literal_spec integerToReal forcedTypes b hx with ⟨hcases, hnone, hclean, hcx⟩
  constructor
  · rcases hcases with hsame | ⟨i, rfl, hb, hreal⟩
    · rw [hsame]
      exact .same _
    · rw [hreal]
      exact .realFirst hop hy hb
  · rw [clean_binary_of_not_mixed hop (not_mixed_of_first hnone)]
    exact iff_of_true ⟨hclean, clean_of_forced hy⟩ ⟨hcx, clean_of_forced hy⟩

theorem treated_cast (hop : isArithmetic op = true) (hx : forced forcedTypes x = some a)
    (hy : forced forcedTypes y = some b) (hne : a ≠ b) :
    Treated integerToReal forcedTypes op x y
      (if b.number < a.number then .binary op (.cast (NumericType.castOperator a b) x) y
        else .binary op x (.cast (NumericType.castOperator a b) y)) := by
  by_cases hlt : b.number < a.number
  · rw [if_pos hlt, (castOperator_of_lt hlt).1]
    refine ⟨.castFirst hop hx hy hlt, ?_⟩
    rw [clean_binary_of_not_mixed hop (not_mixed_of_first rfl)]
    exact iff_of_true ⟨clean_cast _ hx, clean_of_forced hy⟩ ⟨clean_of_forced hx, clean_of_forced hy⟩
  · have hgt : a.number < b.number :=
      Nat.lt_of_le_of_ne (Nat.not_lt.mp hlt) fun h => hne (NumericType.number_injective h)
    rw [if_neg hlt, (castOperator_of_lt hgt).2]
    refine ⟨.castSecond hop hx hy hgt, ?_⟩
    rw [clean_binary_of_not_mixed hop (not_mixed_of_second rfl)]
    exact iff_of_true ⟨clean_of_forced hx, clean_cast _ hy⟩ ⟨clean_of_forced hx, clean_of_forced hy⟩

theorem treated_coerceNode (hop : isArithmetic op = true) (x y : Ast R) :
    Treated integerToReal forcedTypes op x y
      (coerceNode integerToReal forcedTypes op x y (.binary op x y)) := by
  unfold coerceNode
  cases hx : forced forcedTypes x with
  | none =>
    have hsame : Treated integerToReal forcedTypes op x y (.binary op x y) :=
      treated_same hop (not_mixed_of_first hx)
    cases hy : forced forcedTypes y with
    | none => exact hsame
    | some b =>
      dsimp only
      split
      · next hnum => exact treated_first hop hy hnum
      · exact hsame
  | some a =>
    cases hy : forced forcedTypes y with
    | none =>
      dsimp only
      split
      · next hnum => exact treated_second hop hx hnum
      · exact treated_same hop (not_mixed_of_second hy)
    | some b =>
      dsimp only
      split
      · next hne => exact treated_cast hop hx hy hne
      · next heq =>
        apply treated_same hop
        intro hmixed
        rcases hmixed with ⟨-, a', b', ha, hb, hab⟩
        cases hx.symm.trans ha
        cases hy.symm.trans hb
        exact heq hab

/-- A pair stays a pair and another datum stays what it is, so no new operation comes up. -/
theorem isArithmetic_coercionRun (h : coercionRun integerToReal forcedTypes car = some out)
    (hcar : isArithmetic car ≠ true) : isArithmetic out ≠ true := by
  cases car with
  | cons a d =>
    rw [coercionRun] at h
    split at h
    · rcases Option.map_eq_some_iff.mp h with ⟨xy, -, rfl⟩
      unfold coerceNode
      repeat' split
      all_goals exact Bool.false_ne_true
    · split at h
      · cases h
        exact Bool.false_ne_true
      · cases h
  | _ =>
    cases h
    exact hcar

/-- A run has a result, which differs from the program in permitted ways only, and has no mixed
operation exactly if there is none inside an operand. -/
theorem coercionRun_spec (integerToReal : ℤ → R) (forcedTypes : List (String × NumericType))
    (h : Binary ast) :
    ∃ out, coercionRun integerToReal forcedTypes ast = some out ∧
      Coerced integerToReal forcedTypes ast out ∧
      (Clean forcedTypes out ↔ OperandsClean forcedTypes ast) := by
  induction ast with
  | cons car cdr ihcar ihcdr =>
    rcases h with ⟨hbinary, hcar, hcdr⟩
    by_cases hop : isArithmetic car = true
    · rcases hbinary hop with ⟨x, y, rfl⟩
      rcases treated_coerceNode hop x y with ⟨hcoerced, hclean⟩
      refine ⟨_, ?_, hcoerced, ?_⟩
      · rw [coercionRun, if_pos hop]
        rfl
      · rw [hclean, OperandsClean, if_pos hop]
        exact ⟨fun h => ⟨id, h.1, id, h.2, trivial⟩, fun h => ⟨h.2.1, h.2.2.2.1⟩⟩
    · rcases ihcar hcar with ⟨car', hrun, hcoerced, hclean⟩
      rcases ihcdr hcdr with ⟨cdr', hrun', hcoerced', hclean'⟩
      refine ⟨.cons car' cdr', ?_, .pair hcoerced hcoerced', ?_⟩
      · rw [coercionRun, if_neg hop, hrun, hrun']
      · rw [OperandsClean, if_neg hop, ← hclean, ← hclean']
        have hnot := not_mixed_of_not_arithmetic forcedTypes (isArithmetic_coercionRun hrun hop) cdr'
        exact ⟨fun h => h.2, fun h => ⟨hnot, h⟩⟩
  | _ => exact ⟨_, rfl, .same _, Iff.rfl⟩

/-- The result has no mixed operation exactly if the operands of the operations contain none. -/
theorem coercionRun_clean_iff (integerToReal : ℤ → R) (forcedTypes : List (String × NumericType))
    (h : Binary ast) :
    (∃ out, coercionRun integerToReal forcedTypes ast = some out ∧ Clean forcedTypes out ∧
      Coerced integerToReal forcedTypes ast out) ↔ OperandsClean forcedTypes ast := by
  rcases coercionRun_spec integerToReal forcedTypes h with
    ⟨out, hrun, hcoerced, hclean⟩
  constructor
  · intro hall
    rcases hall with ⟨out', hrun', hclean', -⟩
    cases hrun.symm.trans hrun'
    exact hclean.mp hclean'
  · intro hoperands
    exact ⟨out, hrun, hclean.mpr hoperands, hcoerced⟩

theorem coercionRun_clean_sum :
    let ast : Ast ℤ := .binary (.sym "+") (.sym "a") (.sym "b")
    Binary ast ∧ ((∃ out, coercionRun id [("a", .si64), ("b", .fp64)] ast = some out ∧
      Clean [("a", .si64), ("b", .fp64)] out ∧ Coerced id [("a", .si64), ("b", .fp64)] ast out) ↔
        OperandsClean [("a", .si64), ("b", .fp64)] ast) := by
  have hbinary : Binary (.binary (.sym "+") (.sym "a") (.sym "b") : Ast ℤ) := by
    refine ⟨fun _ => ⟨_, _, rfl⟩, trivial, ?_⟩
    simp [Binary, isArithmetic]
  exact ⟨hbinary, coercionRun_clean_iff id [("a", .si64), ("b", .fp64)] hbinary⟩

/-- `(+ (* a b) c)` with an `i64` and a `double`: the inner operation is not reached. -/
theorem not_clean_nested :
    ¬ ∃ out : Ast ℤ, coercionRun id [("a", .si64), ("b", .fp64)]
        (.binary (.sym "+") (.binary (.sym "*") (.sym "a") (.sym "b")) (.sym "c")) = some out ∧
      Clean [("a", .si64), ("b", .fp64)] out := by
  intro h
  rcases h with ⟨out, hrun, hclean⟩
  cases hrun
  exact hclean.2.2.2.1.1 ⟨rfl, .si64, .fp64, rfl, rfl, by decide⟩

end Extempore.NumericCoercion
