import Mathlib.Algebra.Order.Ring.Int

/-!
# Conversions between integer types

The integer entries of `impc:ir:compiler:bitconvert`, as the cast instruction each of them emits,
and the named casts of `bitcode.ll`. The cast instructions are those of LLVM: `sext` and `zext` take
a wider result, `trunc` a narrower one and `bitcast` one of the same width, and any other use of
them is not accepted.
-/

namespace Extempore.IntegerConversions

inductive CastOp
  | bitcast
  | sext
  | zext
  | trunc
  deriving DecidableEq, Repr

/-- The result of a cast instruction, if it is a well-formed one. -/
def CastOp.exec (op : CastOp) {w : ℕ} (v : BitVec w) (w' : ℕ) : Option (BitVec w') :=
  match op with
  | .bitcast => if h : w = w' then some (v.cast h) else none
  | .sext => if w < w' then some (v.signExtend w') else none
  | .zext => if w < w' then some (v.zeroExtend w') else none
  | .trunc => if w' < w then some (v.truncate w') else none

inductive IntType
  | i1
  | si8
  | si16
  | si32
  | si64
  deriving DecidableEq, Repr

def IntType.width : IntType → ℕ
  | .i1 => 1
  | .si8 => 8
  | .si16 => 16
  | .si32 => 32
  | .si64 => 64

/-- The number a value stands for: `i1` values are 0 and 1, the others are signed. -/
def IntType.read (t : IntType) (v : BitVec t.width) : ℤ :=
  match t with
  | .i1 => v.toNat
  | _ => v.toInt

/-- The table of `impc:ir:compiler:bitconvert`: `from` and `to` are integer types, and the emitted
line names them as the types of its operand and of its result. -/
def bitconvert (s t : IntType) : CastOp :=
  if s = t then .bitcast
  else match t with
  | .si64 => match s with
    | .si32 => .sext
    | .si16 => .sext
    | .si8 => .sext
    | _ => .zext
  | .si32 => match s with
    | .si64 => .trunc
    | .si16 => .sext
    | .si8 => .sext
    | _ => .zext
  | .si16 => match s with
    | .si64 => .trunc
    | .si32 => .sext
    | .si8 => .sext
    | _ => .zext
  | .si8 => match s with
    | .si64 => .trunc
    | .si32 => .trunc
    | .si16 => .trunc
    | _ => .zext
  | .i1 => .trunc

/-- The body of the function of `bitcode.ll` that is named after two different types. -/
def namedCast : IntType → IntType → CastOp
  | .i1, _ => .zext
  | _, .i1 => .trunc
  | .si8, _ => .sext
  | .si16, .si8 => .trunc
  | .si16, _ => .sext
  | .si32, .si64 => .sext
  | .si32, _ => .trunc
  | .si64, _ => .trunc

def convert (s t : IntType) (v : BitVec s.width) : Option (BitVec t.width) :=
  (bitconvert s t).exec v t.width

/-! ## Numbers and their types -/

variable {s t u : IntType}

def Fits (t : IntType) (x : ℤ) : Prop := ∃ w, t.read w = x

theorem ofInt_read (w : BitVec t.width) : BitVec.ofInt t.width (t.read w) = w := by
  cases t with
  | i1 => exact (BitVec.ofInt_natCast ..).trans (BitVec.ofNat_toNat ..)
  | _ => exact BitVec.ofInt_toInt

theorem Fits.read_ofInt {x : ℤ} (h : Fits t x) : t.read (BitVec.ofInt t.width x) = x := by
  rcases h with ⟨w, rfl⟩
  rw [ofInt_read]

theorem exec_bitcast (v : BitVec t.width) :
    CastOp.bitcast.exec v t.width = some (BitVec.ofInt t.width (t.read v)) := by
  rw [ofInt_read, CastOp.exec, dif_pos rfl]
  rfl

theorem exec_zext (h : IntType.i1.width < t.width) (v : BitVec IntType.i1.width) :
    CastOp.zext.exec v t.width = some (BitVec.ofInt t.width (IntType.i1.read v)) := by
  rw [CastOp.exec, if_pos h]
  exact congrArg some ((BitVec.ofInt_natCast ..).trans (BitVec.ofNat_toNat ..)).symm

theorem exec_sext (hs : s ≠ .i1) (h : s.width < t.width) (v : BitVec s.width) :
    CastOp.sext.exec v t.width = some (BitVec.ofInt t.width (s.read v)) := by
  rw [CastOp.exec, if_pos h]
  cases s with
  | i1 => exact absurd rfl hs
  | _ => rfl

theorem exec_trunc (hs : s ≠ .i1) (h : t.width < s.width) (v : BitVec s.width) :
    CastOp.trunc.exec v t.width = some (BitVec.ofInt t.width (s.read v)) := by
  rw [CastOp.exec, if_pos h, BitVec.truncate, ← BitVec.signExtend_eq_setWidth_of_le v (Nat.le_of_lt h)]
  cases s with
  | i1 => exact absurd rfl hs
  | _ => rfl

/-- The one pair of types with the wrong instruction. -/
def Slip (s t : IntType) : Prop := s = .si32 ∧ t = .si16

theorem convert_slip (v : BitVec IntType.si32.width) : convert .si32 .si16 v = none := rfl

theorem namedCast_eq (hne : s ≠ t) (v : BitVec s.width) :
    (namedCast s t).exec v t.width = some (BitVec.ofInt t.width (s.read v)) := by
  cases s with
  | i1 =>
    cases t with
    | i1 => exact absurd rfl hne
    | _ => exact exec_zext (by decide) v
  | si8 =>
    cases t with
    | i1 => exact exec_trunc (by decide) (by decide) v
    | si8 => exact absurd rfl hne
    | _ => exact exec_sext (by decide) (by decide) v
  | si16 =>
    cases t with
    | si16 => exact absurd rfl hne
    | i1 => exact exec_trunc (by decide) (by decide) v
    | si8 => exact exec_trunc (by decide) (by decide) v
    | _ => exact exec_sext (by decide) (by decide) v
  | si32 =>
    cases t with
    | si32 => exact absurd rfl hne
    | si64 => exact exec_sext (by decide) (by decide) v
    | _ => exact exec_trunc (by decide) (by decide) v
  | si64 =>
    cases t with
    | si64 => exact absurd rfl hne
    | _ => exact exec_trunc (by decide) (by decide) v

/-- Apart from one pair the two tables agree. -/
theorem bitconvert_eq (hne : s ≠ t) (h : ¬ Slip s t) : bitconvert s t = namedCast s t := by
  cases s <;> cases t <;> first | rfl | exact absurd rfl hne | exact absurd ⟨rfl, rfl⟩ h

theorem convert_eq (h : ¬ Slip s t) (v : BitVec s.width) :
    convert s t v = some (BitVec.ofInt t.width (s.read v)) := by
  by_cases hne : s = t
  · subst hne
    have hsame : bitconvert s s = .bitcast := if_pos rfl
    rw [convert, hsame, exec_bitcast]
  · rw [convert, bitconvert_eq hne h, namedCast_eq hne]

/-- What it means for the conversion of one value to be coherent. -/
structure Coherent (s t : IntType) (v : BitVec s.width) : Prop where
  value : ∀ w, t.read w = s.read v → convert s t v = some w
  named : s ≠ t → convert s t v = (namedCast s t).exec v t.width
  through : ∀ u, Fits u (s.read v) → (convert s u v).bind (convert u t) = convert s t v

theorem not_slip_iff {v : BitVec s.width} :
    (∀ u, Fits u (s.read v) → ¬ Slip s u ∧ ¬ Slip u t) ↔
      ¬ (t = .si16 ∧ Fits .si32 (s.read v)) ∧ ¬ (s = .si32 ∧ Fits .si16 (s.read v)) := by
  constructor
  · intro h
    exact ⟨fun ht => (h .si32 ht.2).2 ⟨rfl, ht.1⟩, fun hs => (h .si16 hs.2).1 ⟨hs.1, rfl⟩⟩
  · intro h u hu
    exact ⟨fun hslip => h.2 ⟨hslip.1, hslip.2 ▸ hu⟩, fun hslip => h.1 ⟨hslip.2, hslip.1 ▸ hu⟩⟩

/-- The conversions are coherent except where `i32` is converted to `i16`, for which an extension is
emitted. -/
theorem coherent_iff (s t : IntType) (v : BitVec s.width) :
    Coherent s t v ↔
      ¬ (t = .si16 ∧ Fits .si32 (s.read v)) ∧ ¬ (s = .si32 ∧ Fits .si16 (s.read v)) := by
  rw [← not_slip_iff]
  constructor
  · intro h u hu
    have hdirect : ¬ Slip s t := by
      intro hslip
      rcases hslip with ⟨rfl, rfl⟩
      have hnamed := h.named (by decide)
      rw [convert_slip, namedCast_eq (by decide)] at hnamed
      cases hnamed
    have hpath := h.through u hu
    rw [convert_eq hdirect] at hpath
    constructor
    · intro hslip
      rcases hslip with ⟨rfl, rfl⟩
      rw [convert_slip] at hpath
      cases hpath
    · intro hslip
      rcases hslip with ⟨rfl, rfl⟩
      cases hmid : convert s .si32 v with
      | none =>
        rw [hmid] at hpath
        cases hpath
      | some w =>
        rw [hmid, Option.bind_some, convert_slip] at hpath
        cases hpath
  · intro h
    have hdirect : ¬ Slip s t := (h s ⟨v, rfl⟩).2
    constructor
    · intro w hw
      rw [convert_eq hdirect, ← hw, ofInt_read]
    · intro hne
      rw [convert_eq hdirect, namedCast_eq hne]
    · intro u hu
      rw [convert_eq (h u hu).1, Option.bind_some, convert_eq (h u hu).2, hu.read_ofInt,
        convert_eq hdirect]

theorem not_coherent_si32_si16 : ¬ Coherent .si32 .si16 (1 : BitVec 32) := by
  intro h
  cases (h.value (1 : BitVec 16) (by decide)).symm.trans (convert_slip 1)

end Extempore.IntegerConversions
