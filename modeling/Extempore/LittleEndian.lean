import Mathlib.Tactic.Ring

/-!
# Little-endian numbers

`encode n v` is the lowest `n` bytes of `v`, the least significant one first; `decode` is the
number that a list of bytes represents.
-/

namespace Extempore.LittleEndian

def encode : ℕ → ℕ → List UInt8
  | 0, _ => []
  | n + 1, v => UInt8.ofNat v :: encode n (v / 256)

def decode : List UInt8 → ℕ
  | [] => 0
  | b :: bs => b.toNat + 256 * decode bs

@[simp] theorem length_encode (n v : ℕ) : (encode n v).length = n := by
  induction n generalizing v with
  | zero => rfl
  | succ n ih => rw [encode, List.length_cons, ih]

theorem decode_encode (n v : ℕ) : decode (encode n v) = v % 256 ^ n := by
  induction n generalizing v with
  | zero => rw [encode, decode, Nat.pow_zero, Nat.mod_one]
  | succ n ih =>
    rw [encode, decode, ih, Nat.pow_succ', Nat.mod_mul, UInt8.toNat_ofNat']

theorem decode_lt (bs : List UInt8) : decode bs < 256 ^ bs.length := by
  induction bs with
  | nil => exact Nat.one_pos
  | cons b bs ih =>
    have hb := b.toNat_lt
    rw [decode, List.length_cons, Nat.pow_succ]
    omega

/-- Lists of bytes of one length are different numbers. -/
theorem decode_injective {bs cs : List UInt8} (hlength : bs.length = cs.length)
    (h : decode bs = decode cs) : bs = cs := by
  induction bs generalizing cs with
  | nil => exact (List.length_eq_zero_iff.mp hlength.symm).symm
  | cons b bs ih =>
    cases cs with
    | nil => cases hlength
    | cons c cs =>
      have hb := b.toNat_lt
      have hc := c.toNat_lt
      rw [decode, decode] at h
      have hhead : b = c := UInt8.toNat_inj.mp (by omega)
      rw [hhead, ih (Nat.succ.inj hlength) (by omega)]

end Extempore.LittleEndian
