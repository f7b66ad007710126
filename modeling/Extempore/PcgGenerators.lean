import Extempore.BoundedRandom
import Extempore.CongruentialCycles
import Mathlib.Data.FinEnum

/-!
# The period of the PCG generators

A seeded generator has an odd increment, so that its state passes through all 64-bit words before
it comes back. The output permutes the bits above the lowest 27 for every value of the five bits
at the top, so all 32-bit numbers come equally often, and a number above any threshold comes, too.
-/

namespace Extempore.BoundedRandom
open CongruentialCycles

/-- `xt_pcg_rng_global_state` -/
def xtPcgRngGlobalState : RngState := ⟨0x853c49e6748fea9b, 0xda3e39cb94b95bdb⟩

/-- The state that `xt_pcg32_random_r` leaves. -/
def advance (rng : RngState) : RngState := (pcg32RandomR rng).2

/-- `xt_pcg32_srandom_r`, whatever the state was before. -/
def pcg32SrandomR (initState stateSequence : BitVec 64) : RngState :=
  let rng := advance ⟨0, stateSequence <<< 1 ||| 1⟩
  advance { rng with state := rng.state + initState }

/-- The increment of a generator is odd. -/
def Seeded (rng : RngState) : Prop := rng.inc.toNat % 2 = 1

instance (rng : RngState) : Decidable (Seeded rng) := inferInstanceAs (Decidable (_ = _))

theorem seeded_pcg32SrandomR (initState stateSequence : BitVec 64) :
    Seeded (pcg32SrandomR initState stateSequence) := by
  have hodd : (stateSequence <<< 1 ||| 1).toNat.testBit 0 = true := by simp
  rw [Nat.testBit_zero, decide_eq_true_iff] at hodd
  exact hodd

/-! ## The states -/

def nextState (inc state : BitVec 64) : BitVec 64 := state * 6364136223846793005 + inc

theorem advance_iterate (rng : RngState) (n : ℕ) :
    advance^[n] rng = ⟨(nextState rng.inc)^[n] rng.state, rng.inc⟩ := by
  induction n with
  | zero => rfl
  | succ n ih => rw [Function.iterate_succ_apply', ih, Function.iterate_succ_apply']; rfl

theorem nextState_iterate_modEq (inc state : BitVec 64) (n : ℕ) :
    (((nextState inc)^[n] state).toNat : ℤ) ≡
      (affine 6364136223846793005 inc.toNat)^[n] state.toNat [ZMOD 2 ^ 64] := by
  induction n with
  | zero => rfl
  | succ n ih =>
    rw [Function.iterate_succ_apply', Function.iterate_succ_apply', nextState, BitVec.toNat_add,
      BitVec.toNat_mul]
    push_cast
    refine (Int.mod_modEq _ _).trans (Int.ModEq.add_right _ ?_)
    refine (Int.mod_modEq _ _).trans ?_
    rw [mul_comm]
    exact ih.mul_left _

theorem card_bitVec (w : ℕ) : Nat.card (BitVec w) = 2 ^ w := by
  rw [Nat.card_eq_fintype_card, ← FinEnum.card_eq_fintypeCard, FinEnum.card_bitVec]

/-- The state of a seeded generator comes back after `2 ^ 64` numbers and not before. -/
theorem singleCycle_nextState {inc : BitVec 64} (hinc : inc.toNat % 2 = 1) :
    SingleCycle (nextState inc) := by
  intro state n
  rw [card_bitVec, ← affine_iterate_modEq_iff (a := 6364136223846793005) (c := inc.toNat)
    (by decide) (by omega) state.toNat 64 n]
  have hmod := nextState_iterate_modEq inc state n
  constructor
  · intro heq
    rw [heq] at hmod
    exact hmod.symm
  · intro hback
    apply BitVec.eq_of_toNat_eq
    have hlt := ((nextState inc)^[n] state).isLt
    have hlt' := state.isLt
    have heq := hmod.trans hback
    rw [Int.ModEq, Int.emod_eq_of_lt (by omega) (by exact_mod_cast hlt),
      Int.emod_eq_of_lt (by omega) (by exact_mod_cast hlt')] at heq
    exact_mod_cast heq

/-! ## The numbers -/

def rotated (x rot : BitVec 32) : BitVec 32 := x >>> rot ||| x <<< (-1 * rot &&& 31)

def xorshifted (state : BitVec 64) : BitVec 32 := (((state >>> 18) ^^^ state) >>> 27).truncate 32

/-- The number that a state gives. -/
def output (state : BitVec 64) : BitVec 32 :=
  rotated (xorshifted state) ((state >>> 59).truncate 32)

theorem pcg32RandomR_fst (rng : RngState) : (pcg32RandomR rng).1 = output rng.state := rfl

theorem getLsbD_rotated {x rot : BitVec 32} (hrot : rot.toNat < 32) {j : ℕ} (hj : j < 32) :
    (rotated x rot).getLsbD j = x.getLsbD ((j + rot.toNat) % 32) := by
  have hback : (-1 * rot &&& 31).toNat = (32 - rot.toNat) % 32 := by
    have hmask : (31 : BitVec 32).toNat = 2 ^ 5 - 1 := rfl
    have hneg : -1 * rot = -rot := by
      rw [BitVec.neg_mul]
      exact congrArg _ (BitVec.one_mul rot)
    rw [BitVec.toNat_and, hmask, Nat.and_two_pow_sub_one_eq_mod, hneg, BitVec.toNat_neg]
    omega
  rw [rotated, BitVec.getLsbD_or, BitVec.ushiftRight_eq', BitVec.shiftLeft_eq', hback,
    BitVec.getLsbD_ushiftRight, BitVec.getLsbD_shiftLeft]
  rcases Nat.lt_or_ge (j + rot.toNat) 32 with hlt | hge
  · rw [Nat.mod_eq_of_lt hlt, Nat.add_comm]
    rcases Nat.eq_zero_or_pos rot.toNat with hzero | hpos
    · simp [hzero, hj]
    · simp [Nat.mod_eq_of_lt (show 32 - rot.toNat < 32 by omega), show j < 32 - rot.toNat by omega]
  · rw [Nat.mod_eq_of_lt (show 32 - rot.toNat < 32 by omega), Nat.mod_eq_sub_mod hge,
      Nat.mod_eq_of_lt (by omega), BitVec.getLsbD_of_ge _ _ (by omega)]
    have hsub : j - (32 - rot.toNat) = j + rot.toNat - 32 := by omega
    simp [hj, hsub, show ¬ j < 32 - rot.toNat by omega]

theorem rotated_injective {x y rot : BitVec 32} (hrot : rot.toNat < 32)
    (h : rotated x rot = rotated y rot) : x = y := by
  apply BitVec.eq_of_getLsbD_eq
  intro i hi
  have hbit := congrArg (fun z => z.getLsbD ((i + 32 - rot.toNat) % 32)) h
  have hturn : ((i + 32 - rot.toNat) % 32 + rot.toNat) % 32 = i := by omega
  simpa only [getLsbD_rotated hrot (Nat.mod_lt _ (show 0 < 32 by decide)), hturn] using hbit

theorem getLsbD_xorshifted (state : BitVec 64) {i : ℕ} (hi : 27 ≤ i) (hi' : i < 59) :
    (xorshifted state).getLsbD (i - 27) = (state.getLsbD (i + 18) ^^ state.getLsbD i) := by
  have hadd : 27 + (i - 27) = i := by omega
  rw [xorshifted, BitVec.truncate, BitVec.getLsbD_setWidth, BitVec.getLsbD_ushiftRight,
    BitVec.getLsbD_xor, BitVec.getLsbD_ushiftRight, hadd, Nat.add_comm 18 i]
  simp [show i - 27 < 32 by omega]

theorem getLsbD_of_top {s t : BitVec 64} (h : s >>> 59 = t >>> 59) {i : ℕ} (hi : 59 ≤ i) :
    s.getLsbD i = t.getLsbD i := by
  have hbit := congrArg (fun z => z.getLsbD (i - 59)) h
  simpa [show 59 + (i - 59) = i by omega] using hbit

/-- Between the bits that choose the rotation and those that are shifted out, the word is found
from the top down. -/
theorem eq_of_xorshifted_eq {s t : BitVec 64} (htop : s >>> 59 = t >>> 59)
    (hlow : s.setWidth 27 = t.setWidth 27) (h : xorshifted s = xorshifted t) : s = t := by
  have hstep {i : ℕ} (hi : 27 ≤ i) (hi' : i < 59)
      (hup : s.getLsbD (i + 18) = t.getLsbD (i + 18)) : s.getLsbD i = t.getLsbD i := by
    have hbit := congrArg (fun z => z.getLsbD (i - 27)) h
    simpa only [getLsbD_xorshifted _ hi hi', hup, Bool.xor_right_inj] using hbit
  have hhigh {i : ℕ} (hi : 41 ≤ i) : s.getLsbD i = t.getLsbD i := by
    rcases Nat.lt_or_ge i 59 with hlt | hge
    · exact hstep (by omega) hlt (getLsbD_of_top htop (by omega))
    · exact getLsbD_of_top htop hge
  apply BitVec.eq_of_getLsbD_eq
  intro i _
  rcases Nat.lt_or_ge i 27 with hlt | hge
  · have hbit := congrArg (fun z => z.getLsbD i) hlow
    simpa [hlt] using hbit
  · rcases Nat.lt_or_ge i 41 with hlt | hge'
    · exact hstep hge (by omega) (hhigh (by omega))
    · exact hhigh hge'

/-- The five bits at the top, the 27 lowest bits and the number. -/
def parts (state : BitVec 64) : BitVec 5 × BitVec 27 × BitVec 32 :=
  ((state >>> 59).setWidth 5, state.setWidth 27, output state)

theorem toNat_top_lt (state : BitVec 64) : (state >>> 59).toNat < 32 := by
  rw [BitVec.toNat_ushiftRight, Nat.shiftRight_eq_div_pow]
  have := state.isLt
  omega

theorem parts_injective : Function.Injective parts := by
  intro s t h
  obtain ⟨htop, hrest⟩ := Prod.mk.inj h
  obtain ⟨hlow, hout⟩ := Prod.mk.inj hrest
  have hs := toNat_top_lt s
  have ht := toNat_top_lt t
  have hshift : s >>> 59 = t >>> 59 := by
    apply BitVec.eq_of_toNat_eq
    have hnat := congrArg BitVec.toNat htop
    rw [BitVec.toNat_setWidth, BitVec.toNat_setWidth] at hnat
    omega
  have hrot : ((s >>> 59).truncate 32).toNat < 32 := by
    rw [BitVec.truncate, BitVec.toNat_setWidth]
    omega
  rw [output, output, ← hshift] at hout
  exact eq_of_xorshifted_eq hshift hlow (rotated_injective hrot hout)

theorem parts_bijective : Function.Bijective parts := by
  rw [Nat.bijective_iff_injective_and_card]
  refine ⟨parts_injective, ?_⟩
  rw [Nat.card_prod, Nat.card_prod, card_bitVec, card_bitVec, card_bitVec, card_bitVec]
  norm_num

theorem card_output (v : BitVec 32) : Nat.card {state // output state = v} = 2 ^ 32 := by
  have hsplit : Nat.card {state // output state = v} =
      Nat.card {p : BitVec 5 × BitVec 27 × BitVec 32 // p.2.2 = v} :=
    Nat.card_congr ((Equiv.ofBijective parts parts_bijective).subtypeEquiv fun _ => Iff.rfl)
  have hforget : Nat.card {p : BitVec 5 × BitVec 27 × BitVec 32 // p.2.2 = v} =
      Nat.card (BitVec 5 × BitVec 27) := by
    refine Nat.card_congr ⟨fun p => (p.1.1, p.1.2.1), fun q => ⟨(q.1, q.2, v), rfl⟩, fun p => ?_,
      fun _ => rfl⟩
    obtain ⟨⟨a, b, w⟩, rfl⟩ := p
    rfl
  rw [hsplit, hforget, Nat.card_prod, card_bitVec, card_bitVec]
  norm_num

/-- A round meets every state once, so an output comes as often as there are states that give it. -/
theorem card_round {rng : RngState} (h : Seeded rng) (v : BitVec 32) :
    Nat.card {n : Fin (2 ^ 64) // output (advance^[n] rng).state = v} = 2 ^ 32 := by
  have hround := (singleCycle_nextState h).card_iterate rng.state output v
  rw [card_bitVec, card_output] at hround
  rw [← hround]
  exact Nat.card_congr (Equiv.subtypeEquivRight fun n => by rw [advance_iterate])

/-- Of the `2 ^ 64` numbers of a round every one comes `2 ^ 32` times, whatever the seed. -/
theorem card_draws {rng : RngState} (h : Seeded rng) (v : BitVec 32) :
    Nat.card {n : Fin (2 ^ 64) // (pcg32RandomR (advance^[n] rng)).1 = v} = 2 ^ 32 := by
  simp only [pcg32RandomR_fst]
  exact card_round h v

theorem card_draws_srandom : Nat.card {n : Fin (2 ^ 64) //
    (pcg32RandomR (advance^[n] (pcg32SrandomR 42 54))).1 = 0} = 2 ^ 32 :=
  card_draws (seeded_pcg32SrandomR 42 54) 0

/-! ## The loop of the bounded numbers -/

theorem rejectionLoop_succ {σ : Type} (random : σ → BitVec 32 × σ) (t : BitVec 32) (fuel : ℕ)
    (r : BitVec 32) (state : σ) : rejectionLoop random t (fuel + 1) r state =
      if r.slt t then rejectionLoop random t fuel (random state).1 (random state).2
      else some (r, state) := rfl

/-- The loop goes on until a number is not below the threshold. -/
theorem rejectionLoop_of_draw {σ : Type} {random : σ → BitVec 32 × σ} {t r : BitVec 32} {state : σ}
    {n : ℕ} (h : ((random ((fun state => (random state).2)^[n] state)).1).slt t = false) :
    ∃ last, rejectionLoop random t (n + 2) r state = some last := by
  induction n generalizing r state with
  | zero =>
    rw [Function.iterate_zero_apply] at h
    rw [rejectionLoop_succ, rejectionLoop_succ, h, if_neg Bool.false_ne_true]
    split_ifs
    · exact ⟨_, rfl⟩
    · exact ⟨_, rfl⟩
  | succ n ih =>
    rw [rejectionLoop_succ]
    split_ifs
    · exact ih h
    · exact ⟨_, rfl⟩

end Extempore.BoundedRandom
