import Mathlib.Tactic.Ring

/-!
# Big-endian numbers

`encode n v` is the lowest `n` bytes of `v`, the most significant one first; `decode` is the
number that a list of bytes represents.
-/

namespace Extempore.BigEndian

def encode : ℕ → ℕ → List UInt8
  | 0, _ => []
  | n + 1, v => encode n (v / 256) ++ [UInt8.ofNat v]

def decode (bs : List UInt8) : ℕ := bs.foldl (fun v b => 256 * v + b.toNat) 0

@[simp] theorem length_encode (n v : ℕ) : (encode n v).length = n := by
  induction n generalizing v with
  | zero => rfl
  | succ n ih => simp [encode, ih]

theorem decode_concat (bs : List UInt8) (b : UInt8) :
    decode (bs ++ [b]) = 256 * decode bs + b.toNat := by
  simp [decode]

theorem decode_encode (n v : ℕ) : decode (encode n v) = v % 256 ^ n := by
  induction n generalizing v with
  | zero => simp [encode, decode, Nat.mod_one]
  | succ n ih =>
    rw [encode, decode_concat, ih, Nat.pow_succ', Nat.mod_mul]
    simp
    omega

end Extempore.BigEndian
