import Mathlib.Tactic.Ring
import Mathlib.Data.Nat.Bitwise

/-!
# Byte memory

A memory gives a byte to every address. `fill` sets a range, `store` writes the lowest `n`
bytes of a number with the least significant one first, `load` reads them back.
-/

namespace Extempore.ByteMemory

abbrev Memory := ℕ → UInt8

variable {m : Memory} {a n x : ℕ}

/-- Set the `n` bytes from `a` on. -/
def fill (m : Memory) (a n : ℕ) (v : UInt8) : Memory :=
  fun x => if a ≤ x ∧ x < a + n then v else m x

/-- Write the lowest `n` bytes of `v` from `a` on. -/
def store (m : Memory) (a n v : ℕ) : Memory :=
  fun x => if a ≤ x ∧ x < a + n then UInt8.ofNat (v / 256 ^ (x - a)) else m x

/-- The number that the `n` bytes from `a` on represent. -/
def load (m : Memory) (a : ℕ) : ℕ → ℕ
  | 0 => 0
  | n + 1 => (m a).toNat + 256 * load m (a + 1) n

theorem fill_apply {v : UInt8} (h : a ≤ x ∧ x < a + n) : fill m a n v x = v := if_pos h

theorem fill_of_notMem {v : UInt8} (h : ¬ (a ≤ x ∧ x < a + n)) : fill m a n v x = m x := if_neg h

theorem store_of_notMem {v : ℕ} (h : ¬ (a ≤ x ∧ x < a + n)) : store m a n v x = m x := if_neg h

/-- Storing one byte more of `v` is storing its lowest byte and the rest behind it. -/
theorem store_succ (v : ℕ) (h : a < x) :
    store m a (n + 1) v x = store m (a + 1) n (v / 256) x := by
  simp only [store]
  by_cases hx : x < a + (n + 1)
  · rw [if_pos ⟨by omega, hx⟩, if_pos ⟨by omega, by omega⟩, Nat.div_div_eq_div_mul,
      ← Nat.pow_succ', show (x - (a + 1)).succ = x - a by omega]
  · rw [if_neg (by omega), if_neg (by omega)]

theorem load_congr {m' : Memory} (h : ∀ x, a ≤ x → x < a + n → m x = m' x) :
    load m a n = load m' a n := by
  induction n generalizing a with
  | zero => rfl
  | succ n ih =>
    rw [load, load, h a le_rfl (by omega), ih fun x hx hx' => h x (by omega) (by omega)]

theorem load_store {v : ℕ} (h : v < 256 ^ n) : load (store m a n v) a n = v := by
  induction n generalizing a v with
  | zero =>
    have hv : v = 0 := by simpa using h
    simp [load, hv]
  | succ n ih =>
    have hdiv : v / 256 < 256 ^ n := by
      rw [Nat.div_lt_iff_lt_mul (by decide)]
      rwa [Nat.pow_succ] at h
    have hrest : load (store m a (n + 1) v) (a + 1) n = v / 256 := by
      rw [load_congr fun x hx _ => store_succ v (by omega : a < x), ih hdiv]
    have hfirst : (store m a (n + 1) v a).toNat = v % 256 := by
      simp [store]
    rw [load, hrest, hfirst]
    omega

end Extempore.ByteMemory
