import Extempore.ResidueCounts

/-!
# Bounded random numbers

`pcg32_boundedrand_r` of `pcg-rng.xtm` takes numbers from the generator until one is not below a
threshold and returns its remainder by the bound. Numbers are of type `i32`, so comparisons and
remainders are signed.
-/

namespace Extempore.BoundedRandom

open ResidueCounts

/-- `PCG_RNG_State` -/
structure RngState where
  state : BitVec 64
  inc : BitVec 64

/-- `xt_pcg32_random_r` -/
def pcg32RandomR (rng : RngState) : BitVec 32 × RngState :=
  let oldstate := rng.state
  let xorshifted := (((oldstate >>> 18) ^^^ oldstate) >>> 27).truncate 32
  let rot := (oldstate >>> 59).truncate 32
  ((xorshifted >>> rot) ||| (xorshifted <<< (-1 * rot &&& 31)),
    { rng with state := oldstate * 6364136223846793005 + rng.inc })

def threshold (bound : BitVec 32) : BitVec 32 := (0x10000000 - bound).srem bound

/-- The loop of `pcg32_boundedrand_r`, over any generator. -/
def rejectionLoop {σ : Type} (random : σ → BitVec 32 × σ) (threshold : BitVec 32) :
    ℕ → BitVec 32 → σ → Option (BitVec 32 × σ)
  | 0, _, _ => none
  | fuel + 1, r, state =>
    if r.slt threshold then
      let (r, state) := random state
      rejectionLoop random threshold fuel r state
    else some (r, state)

/-- `pcg32_boundedrand_r` -/
def pcg32BoundedrandR {σ : Type} (random : σ → BitVec 32 × σ) (fuel : ℕ) (state : σ)
    (bound : BitVec 32) : Option (BitVec 32 × σ) :=
  let threshold := threshold bound
  let r := threshold - 1
  (rejectionLoop random threshold fuel r state).map fun last => (last.1.srem bound, last.2)

/-- The generator outputs that are accepted and give `v`. -/
def Accepted (bound : BitVec 32) (v : ℤ) (x : BitVec 32) : Prop :=
  x.slt (threshold bound) = false ∧ (x.srem bound).toInt = v

/-- Results are in range, and all of them come from equally many outputs. -/
structure Fair (bound : BitVec 32) : Prop where
  range : ∀ {σ : Type} (random : σ → BitVec 32 × σ) (fuel : ℕ) (state state' : σ) (r : BitVec 32),
    pcg32BoundedrandR random fuel state bound = some (r, state') →
      0 ≤ r.toInt ∧ r.toInt < bound.toInt
  uniform : ∃ c, 1 ≤ c ∧ ∀ v, 0 ≤ v ∧ v < bound.toInt →
    Nat.card {x : BitVec 32 // Accepted bound v x} = c

variable {σ : Type} {bound : BitVec 32}

/-! ## The threshold -/

theorem toInt_sub_bound (h : 1 ≤ bound.toInt) :
    (0x10000000 - bound).toInt = 2 ^ 28 - bound.toInt := by
  have hlt : bound.toInt < 2 ^ 31 := BitVec.toInt_lt
  rw [BitVec.toInt_sub]
  have hconst : (0x10000000 : BitVec 32).toInt = 2 ^ 28 := rfl
  rw [hconst, Int.bmod_eq_of_le (by omega) (by omega)]

theorem toInt_threshold_small (h : 1 ≤ bound.toInt) (hsmall : bound.toInt ≤ 2 ^ 28) :
    (threshold bound).toInt = 2 ^ 28 % bound.toInt := by
  rw [threshold, BitVec.toInt_srem, toInt_sub_bound h,
    Int.tmod_eq_emod_of_nonneg (by omega), Int.sub_emod_right]

theorem toInt_threshold_large (hlarge : 2 ^ 28 < bound.toInt) :
    (threshold bound).toInt = 2 ^ 28 - bound.toInt := by
  rw [threshold, BitVec.toInt_srem, toInt_sub_bound (by omega), ← Int.neg_sub, Int.neg_tmod,
    Int.tmod_eq_of_lt (by omega) (by omega)]

/-! ## The loop -/

/-- Whatever the loop returns was not below the threshold. -/
theorem rejectionLoop_spec {random : σ → BitVec 32 × σ} {t r r' : BitVec 32} {state state' : σ}
    {fuel : ℕ} (h : rejectionLoop random t fuel r state = some (r', state')) :
    t.toInt ≤ r'.toInt := by
  induction fuel generalizing r state with
  | zero => cases h
  | succ fuel ih =>
    rw [rejectionLoop] at h
    split at h
    · exact ih h
    · next hnot =>
      cases h
      rw [BitVec.slt_iff_toInt_lt] at hnot
      omega

theorem toInt_srem_of_nonneg {x : BitVec 32} (hx : 0 ≤ x.toInt) :
    (x.srem bound).toInt = x.toInt % bound.toInt := by
  rw [BitVec.toInt_srem, Int.tmod_eq_emod_of_nonneg hx]

theorem range_of_small (h : 1 ≤ bound.toInt) (hsmall : bound.toInt ≤ 2 ^ 28)
    {random : σ → BitVec 32 × σ} {fuel : ℕ} {state state' : σ} {r : BitVec 32}
    (hr : pcg32BoundedrandR random fuel state bound = some (r, state')) :
    0 ≤ r.toInt ∧ r.toInt < bound.toInt := by
  rcases Option.map_eq_some_iff.mp hr with ⟨⟨x, s⟩, hloop, heq⟩
  cases heq
  have hle := rejectionLoop_spec hloop
  have hnonneg : 0 ≤ x.toInt := by
    rw [toInt_threshold_small h hsmall] at hle
    exact (Int.emod_nonneg _ (by omega)).trans hle
  rw [toInt_srem_of_nonneg hnonneg]
  exact ⟨Int.emod_nonneg _ (by omega), Int.emod_lt_of_pos _ (by omega)⟩

/-- Above `2 ^ 28` the threshold is negative, and `-1` is returned as it is. -/
theorem boundedrand_neg (hlarge : 2 ^ 28 < bound.toInt) :
    pcg32BoundedrandR (fun _ : Unit => (-1, ())) 2 () bound = some (-1, ()) := by
  have ht := toInt_threshold_large hlarge
  have hlt : bound.toInt < 2 ^ 31 := BitVec.toInt_lt
  have hone : (-1 : BitVec 32).toInt = -1 := rfl
  have hfirst : ((threshold bound - 1).slt (threshold bound)) = true := by
    rw [BitVec.slt_iff_toInt_lt, BitVec.toInt_sub, ht]
    have h1 : (1 : BitVec 32).toInt = 1 := rfl
    rw [h1, Int.bmod_eq_of_le (by omega) (by omega)]
    omega
  have hsecond : ((-1 : BitVec 32).slt (threshold bound)) = false := by
    rw [Bool.eq_false_iff, ne_eq, BitVec.slt_iff_toInt_lt, ht, hone]
    omega
  have hrem : (-1 : BitVec 32).srem bound = -1 := by
    apply BitVec.eq_of_toInt_eq
    rw [BitVec.toInt_srem, hone, Int.neg_tmod, Int.tmod_eq_of_lt (by omega) (by omega)]
  have hloop : rejectionLoop (fun _ : Unit => (-1, ())) (threshold bound) 2 (threshold bound - 1) () =
      some (-1, ()) := by
    rw [rejectionLoop, if_pos hfirst]
    show (if (-1 : BitVec 32).slt (threshold bound) then _ else some (-1, ())) = _
    rw [hsecond, if_neg Bool.false_ne_true]
  rw [pcg32BoundedrandR, hloop, Option.map_some, hrem]

theorem Fair.le (h : Fair bound) : bound.toInt ≤ 2 ^ 28 := by
  by_contra hlarge
  have hrange := h.range _ _ _ _ _ (boundedrand_neg (not_le.mp hlarge))
  exact absurd hrange.1 (by decide)

/-! ## Counting the outputs -/

theorem accepted_iff (h : 1 ≤ bound.toInt) (hsmall : bound.toInt ≤ 2 ^ 28) {v : ℤ}
    {x : BitVec 32} : Accepted bound v x ↔
      x.toInt ∈ withResidue (2 ^ 28 % bound.toInt) (2 ^ 31) bound.toInt v := by
  have hnonneg : 0 ≤ 2 ^ 28 % bound.toInt := Int.emod_nonneg _ (by omega)
  have hlt : x.toInt < 2 ^ 31 := BitVec.toInt_lt
  rw [Accepted, Bool.eq_false_iff, ne_eq, BitVec.slt_iff_toInt_lt, toInt_threshold_small h hsmall,
    mem_withResidue, not_lt]
  constructor
  · rintro ⟨hle, hrem⟩
    rw [toInt_srem_of_nonneg (hnonneg.trans hle)] at hrem
    exact ⟨⟨hle, hlt⟩, hrem⟩
  · rintro ⟨⟨hle, -⟩, hrem⟩
    rw [toInt_srem_of_nonneg (hnonneg.trans hle)]
    exact ⟨hle, hrem⟩

/-- The outputs are counted as signed numbers. -/
theorem card_accepted (h : 1 ≤ bound.toInt) (hsmall : bound.toInt ≤ 2 ^ 28) (v : ℤ) :
    Nat.card {x : BitVec 32 // Accepted bound v x} =
      (withResidue (2 ^ 28 % bound.toInt) (2 ^ 31) bound.toInt v).card := by
  have hnonneg : 0 ≤ 2 ^ 28 % bound.toInt := Int.emod_nonneg _ (by omega)
  rw [← Fintype.card_coe, ← Nat.card_eq_fintype_card]
  apply Nat.card_congr
  have hback (i : ℤ) (hi : i ∈ withResidue (2 ^ 28 % bound.toInt) (2 ^ 31) bound.toInt v) :
      (BitVec.ofInt 32 i).toInt = i := by
    have hrange := (mem_withResidue.mp hi).1
    rw [BitVec.toInt_ofInt, Int.bmod_eq_of_le (by omega) (by omega)]
  refine ⟨fun x => ⟨x.1.toInt, (accepted_iff h hsmall).mp x.2⟩,
    fun i => ⟨BitVec.ofInt 32 i.1, (accepted_iff h hsmall).mpr ?_⟩, fun x => ?_, fun i => ?_⟩
  · rw [hback i.1 i.2]
    exact i.2
  · exact Subtype.ext BitVec.ofInt_toInt
  · exact Subtype.ext (hback i.1 i.2)

/-- The accepted outputs fill whole rounds of remainders exactly for these bounds. -/
theorem uniform_iff (h : 1 ≤ bound.toInt) (hsmall : bound.toInt ≤ 2 ^ 28) :
    (∃ c, 1 ≤ c ∧ ∀ v, 0 ≤ v ∧ v < bound.toInt →
      Nat.card {x : BitVec 32 // Accepted bound v x} = c) ↔ bound.toInt ∣ 7 * 2 ^ 28 := by
  have hlt : 2 ^ 28 % bound.toInt < bound.toInt := Int.emod_lt_of_pos _ (by omega)
  have hle : 2 ^ 28 % bound.toInt ≤ 2 ^ 31 := by omega
  have hdvd : bound.toInt ∣ 2 ^ 31 - 2 ^ 28 % bound.toInt ↔ bound.toInt ∣ 7 * 2 ^ 28 := by
    have hsplit : (2 : ℤ) ^ 31 - 2 ^ 28 % bound.toInt =
        7 * 2 ^ 28 + bound.toInt * (2 ^ 28 / bound.toInt) := by
      have hdiv := Int.mul_ediv_add_emod (2 ^ 28) bound.toInt
      omega
    rw [hsplit]
    exact (Int.dvd_add_left (Int.dvd_mul_right _ _))
  rw [← hdvd, ← exists_card_iff (by omega) hle]
  constructor
  · rintro ⟨c, -, hc⟩
    refine ⟨c, fun v hv => ?_⟩
    rw [← card_accepted h hsmall, hc v hv]
  · rintro ⟨c, hc⟩
    refine ⟨c, ?_, fun v hv => ?_⟩
    · have hpos : 0 < (withResidue (2 ^ 28 % bound.toInt) (2 ^ 31) bound.toInt
          (2 ^ 28 % bound.toInt)).card := by
        rw [Finset.card_pos]
        refine ⟨2 ^ 28 % bound.toInt, mem_withResidue.mpr ⟨⟨le_refl _, by omega⟩, ?_⟩⟩
        exact Int.emod_emod_of_dvd _ (dvd_refl _)
      rw [hc _ ⟨Int.emod_nonneg _ (by omega), hlt⟩] at hpos
      exact hpos
    · rw [card_accepted h hsmall, hc v hv]

/-- The threshold is computed from `2 ^ 28`, not from the number of outputs, so the results are in
range and uniform for the divisors of `7 * 2 ^ 28` up to `2 ^ 28` and no other bounds. -/
theorem fair_iff (h : 1 ≤ bound.toInt) :
    Fair bound ↔ bound.toInt ≤ 2 ^ 28 ∧ bound.toInt ∣ 7 * 2 ^ 28 := by
  constructor
  · intro hfair
    exact ⟨hfair.le, (uniform_iff h hfair.le).mp hfair.uniform⟩
  · rintro ⟨hsmall, hdvd⟩
    exact ⟨fun _ _ _ _ _ hr => range_of_small h hsmall hr, (uniform_iff h hsmall).mpr hdvd⟩

theorem fair_seven : Fair 7 := (fair_iff (by decide)).mpr (by decide)

theorem not_fair_three : ¬ Fair 3 := by
  intro h
  have hdvd := (uniform_iff (by decide) h.le).mp h.uniform
  exact absurd hdvd (by decide)

end Extempore.BoundedRandom
