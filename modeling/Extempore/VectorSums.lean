import Mathlib
import Extempore.CountedLoops

/-!
# Vectorised sums

`vsum` of `libs/core/math.xtm` on integers: as many elements as fill whole vectors are added lane by
lane, then the lanes are added up, and the elements that are left are added one by one. The rest
starts at the index at which the first `dotimes` ends. An element is known by its index from the
start of the buffer; what lies around the buffer is a part of the memory, and every index that is
read is recorded.
-/

namespace Extempore.VectorSums

open CountedLoops WhileLoops

universe u

variable {w lanes : ℕ} {σ : Type u}

/-! ## The functions -/

/-- In front of a loop. -/
def enter (i : BitVec 64) (world : σ) : State 64 σ where
  label := .setup
  regs := fun _ => 0
  flags := fun _ => false
  ptr := i
  world := world
  events := []

/-- `dotimes` with an index of type `i64` that is bound outside: the index and the rest of the state
behind the loop. -/
def dotimes (form : Form 64 σ) (fuel : ℕ) (i : BitVec 64) (world : σ) : Option (BitVec 64 × σ) :=
  (loop running (step form) fuel (enter i world)).map fun s => (s.ptr, s.world)

/-- The sum of the vectors, with the indices that were read. -/
structure VectorTotal (w lanes : ℕ) where
  totref : Fin lanes → BitVec w
  reads : List ℤ

/-- The sum of the elements, with the indices that were read. -/
structure Total (w : ℕ) where
  tot : BitVec w
  reads : List ℤ

/-- The loop over the vectors. -/
def vectors (mem : ℤ → BitVec w) (chunks : BitVec 64) : Form 64 (VectorTotal w lanes) where
  count := fun s => (chunks, s)
  start := none
  body := fun i s =>
    { totref := fun k => s.totref k + mem (lanes * i.toInt + k)
      reads := s.reads ++ (List.range lanes).map fun k : ℕ => lanes * i.toInt + k }

/-- The loop over the elements from `buf` on. -/
def elements (mem : ℤ → BitVec w) (buf : ℤ) (len : BitVec 64) : Form 64 (Total w) where
  count := fun s => (len, s)
  start := none
  body := fun i s =>
    { tot := s.tot + mem (buf + i.toInt)
      reads := s.reads ++ [buf + i.toInt] }

/-- The variables in front of the loop over the elements. -/
structure Variables (w : ℕ) where
  total : Total w
  i : BitVec 64
  len : BitVec 64
  buf : ℤ

/-- The part of `vsum` with whole vectors. The lanes are added up by `add`. -/
def chunked (lanes : ℕ) (add : (Fin lanes → BitVec w) → BitVec w) (mem : ℤ → BitVec w)
    (len : BitVec 64) (fuel : ℕ) : Option (Variables w) :=
  if (BitVec.ofNat 64 (lanes - 1)).slt len then
    (dotimes (vectors mem (len.sdiv (BitVec.ofNat 64 lanes))) fuel 0 ⟨fun _ => 0, []⟩).map
      fun r =>
        { total := ⟨add r.2.totref, r.2.reads⟩
          i := r.1
          len := len &&& BitVec.ofNat 64 (lanes - 1)
          buf := (r.1 * BitVec.ofNat 64 lanes).toInt }
  else some ⟨⟨0, []⟩, 0, len, 0⟩

def vsum (lanes : ℕ) (add : (Fin lanes → BitVec w) → BitVec w) (mem : ℤ → BitVec w)
    (len : BitVec 64) (fuel : ℕ) : Option (Total w) :=
  (chunked lanes add mem len fuel).bind fun v =>
    (dotimes (elements mem v.buf v.len) fuel v.i v.total).map Prod.snd

/-- `vsum` on `i32*`. -/
def vsumI32 : (ℤ → BitVec 32) → BitVec 64 → ℕ → Option (Total 32) :=
  vsum 4 fun totref => totref 0 + totref 1 + totref 2 + totref 3

/-- `vsum` on `i64*`. -/
def vsumI64 : (ℤ → BitVec 64) → BitVec 64 → ℕ → Option (Total 64) :=
  vsum 2 fun totref => totref 0 + totref 1

/-- The loop over the elements alone, for the whole buffer. -/
def scalarSum (mem : ℤ → BitVec w) (len : BitVec 64) (fuel : ℕ) : Option (Total w) :=
  (dotimes (elements mem 0 len) fuel 0 ⟨0, []⟩).map Prod.snd

/-! ## What they compute -/

/-- The sum of the first `n` elements in the type of the elements, each read once and in order. -/
def plain (mem : ℤ → BitVec w) (n : ℕ) : Total w where
  tot := BitVec.ofInt w (∑ k ∈ Finset.range n, (mem k).toInt)
  reads := (List.range n).map fun k : ℕ => (k : ℤ)

theorem plain_zero (mem : ℤ → BitVec w) : plain mem 0 = ⟨0, []⟩ := by
  simp [plain]

theorem plain_succ (mem : ℤ → BitVec w) (n : ℕ) :
    plain mem (n + 1) = ⟨(plain mem n).tot + mem n, (plain mem n).reads ++ [(n : ℤ)]⟩ := by
  simp only [plain, Finset.sum_range_succ, List.range_succ, List.map_append, List.map_cons,
    List.map_nil, BitVec.ofInt_add, BitVec.ofInt_toInt]

/-- Adding lane by lane and then the lanes. -/
theorem sum_lanes (f : ℕ → ℤ) (lanes n : ℕ) :
    ∑ k ∈ Finset.range lanes, ∑ j ∈ Finset.range n, f (lanes * j + k) =
      ∑ t ∈ Finset.range (lanes * n), f t := by
  induction n with
  | zero => simp
  | succ n ih =>
    simp only [Finset.sum_range_succ, Finset.sum_add_distrib]
    rw [ih, Nat.mul_succ, Finset.sum_range_add]

/-! ## The loops -/

/-- The rule of the loops: with enough fuel the index ends at the count, and what the body keeps holds
at the end. -/
theorem exists_dotimes {form : Form 64 σ} {world : σ} (i : BitVec 64) (hstart : form.start = none)
    (hcount : 0 ≤ (countValue form world).toInt) {I : ℕ → σ → Prop} (hI : I 0 (form.count world).2)
    (hbody : ∀ k world', k < (countValue form world).toInt.toNat → I k world' →
      I (k + 1) (form.body (BitVec.ofNat 64 k) world')) :
    ∃ world', I (countValue form world).toInt.toNat world' ∧ ∃ fuel, ∀ fuel', fuel ≤ fuel' →
      dotimes form fuel' i world = some (countValue form world, world') := by
  have hw : 0 < 64 := by decide
  have hloop := @exists_ends_of_nonneg _ _ form (enter i world) hw rfl hstart hcount I hI hbody
  obtain ⟨s', ⟨fuel, hfuel⟩, hptr, hI'⟩ := hloop
  refine ⟨s'.world, hI', fuel, fun fuel' hle => ?_⟩
  rw [dotimes, loop_mono hfuel hle, Option.map_some, hptr]
  rfl

theorem toInt_ofNat {k : ℕ} {n : BitVec 64} (hlt : k < n.toInt.toNat) :
    (BitVec.ofNat 64 k).toInt = k := by
  have hhigh : n.toInt < 2 ^ 63 := BitVec.toInt_lt
  exact toInt_ofNat_of_lt (by decide) (by omega)

/-- The loop over the elements goes on from the sum of the elements in front of them. -/
theorem exists_elements (mem : ℤ → BitVec w) (n : ℕ) {len : BitVec 64} (i : BitVec 64)
    (hlen : 0 ≤ len.toInt) :
    ∃ fuel, ∀ fuel', fuel ≤ fuel' → dotimes (elements mem n len) fuel' i (plain mem n) =
      some (len, plain mem (n + len.toInt.toNat)) := by
  have hloop := @exists_dotimes _ (elements mem n len) (plain mem n) i rfl hlen
    (fun k world => world = plain mem (n + k)) rfl ?_
  · obtain ⟨world, rfl, hfuel⟩ := hloop
    exact hfuel
  · rintro k world hk rfl
    rw [← Nat.add_assoc, plain_succ]
    simp only [elements, toInt_ofNat hk, Nat.cast_add]

/-- What the loop over the vectors has added up behind `n` rounds. -/
structure Lanewise (mem : ℤ → BitVec w) (n : ℕ) (s : VectorTotal w lanes) : Prop where
  totref : ∀ k, s.totref k =
    BitVec.ofInt w (∑ j ∈ Finset.range n, (mem ((lanes * j + k : ℕ) : ℤ)).toInt)
  reads : s.reads = (plain mem (lanes * n)).reads

theorem exists_vectors (lanes : ℕ) (mem : ℤ → BitVec w) {chunks : BitVec 64} (i : BitVec 64)
    (hchunks : 0 ≤ chunks.toInt) :
    ∃ s : VectorTotal w lanes, Lanewise mem chunks.toInt.toNat s ∧ ∃ fuel, ∀ fuel', fuel ≤ fuel' →
      dotimes (vectors mem chunks) fuel' i ⟨fun _ => 0, []⟩ = some (chunks, s) := by
  refine @exists_dotimes _ (vectors mem chunks) ⟨fun _ => 0, []⟩ i rfl hchunks (Lanewise mem) ?_ ?_
  · constructor
    · intro k
      simp [vectors]
    · simp [vectors, plain]
  · intro n s hn hs
    constructor
    · intro k
      have hk := hs.totref k
      simp only [vectors, toInt_ofNat hn, Finset.sum_range_succ, BitVec.ofInt_add, BitVec.ofInt_toInt,
        hk, Nat.cast_add, Nat.cast_mul]
    · simp only [vectors, toInt_ofNat hn, hs.reads, plain, Nat.mul_succ, List.range_add,
        List.map_append, List.map_map]
      congr 2

/-! ## Cutting the length -/

/-- The numbers of whole vectors and of elements that are left, for a number of lanes that is a power
of two. -/
structure Cut (lanes : ℕ) (len : BitVec 64) : Prop where
  chunks : (len.sdiv (BitVec.ofNat 64 lanes)).toInt = len.toInt / lanes
  start : (len.sdiv (BitVec.ofNat 64 lanes) * BitVec.ofNat 64 lanes).toInt =
    lanes * (len.toInt / lanes)
  rest : (len &&& BitVec.ofNat 64 (lanes - 1)).toInt = len.toInt % lanes

theorem toInt_eq_toNat {x : BitVec 64} (h : 0 ≤ x.toInt) : x.toInt = x.toNat := by
  have hlt := x.isLt
  rw [BitVec.toInt_eq_toNat_cond] at h ⊢
  split <;> omega

theorem toInt_and_two_pow {e : ℕ} (he : e < 63) {len : BitVec 64} (hlen : 0 ≤ len.toInt) :
    (len &&& BitVec.ofNat 64 (2 ^ e - 1)).toInt = len.toInt % (2 ^ e : ℕ) := by
  have hpow : 2 ^ e < 2 ^ 63 := Nat.pow_lt_pow_right (by decide) he
  have hlt := len.isLt
  have htoNat : (len &&& BitVec.ofNat 64 (2 ^ e - 1)).toNat = len.toNat % 2 ^ e := by
    rw [BitVec.toNat_and, BitVec.toNat_ofNat, Nat.mod_eq_of_lt (by omega),
      Nat.and_two_pow_sub_one_eq_mod]
  have hmod := Nat.mod_lt len.toNat (Nat.two_pow_pos e)
  rw [BitVec.toInt_eq_toNat_of_lt (by omega), htoNat, toInt_eq_toNat hlen, Int.natCast_mod]

theorem cut_two_pow {e : ℕ} (he : e < 63) {len : BitVec 64} (hlen : 0 ≤ len.toInt) :
    Cut (2 ^ e) len := by
  have hrest := toInt_and_two_pow he hlen
  have hhigh : len.toInt < 2 ^ 63 := BitVec.toInt_lt
  have hpow : 2 ^ e < 2 ^ 63 := Nat.pow_lt_pow_right (by decide) he
  have hpos := Nat.two_pow_pos e
  generalize 2 ^ e = lanes at hrest hpow hpos ⊢
  have hlanes : (BitVec.ofNat 64 lanes).toInt = lanes := toInt_ofNat_of_lt (by decide) (by omega)
  have hchunks : (len.sdiv (BitVec.ofNat 64 lanes)).toInt = len.toInt / lanes := by
    rw [BitVec.toInt_sdiv_of_ne_or_ne, hlanes, Int.tdiv_eq_ediv_of_nonneg hlen]
    refine Or.inr fun hneg => ?_
    rw [hneg] at hlanes
    have hminus : (-1#64).toInt = -1 := by decide
    omega
  have hdiv : 0 ≤ len.toInt / lanes := Int.ediv_nonneg hlen (Int.natCast_nonneg lanes)
  have hle : lanes * (len.toInt / lanes) ≤ len.toInt := Int.mul_ediv_self_le (by omega)
  have hprod : 0 ≤ lanes * (len.toInt / lanes) := Int.mul_nonneg (Int.natCast_nonneg lanes) hdiv
  refine ⟨hchunks, ?_, hrest⟩
  rw [BitVec.toInt_mul, hchunks, hlanes, Int.mul_comm]
  apply Int.bmod_eq_of_le <;> omega

/-! ## The vectorised sum -/

/-- `add` adds up all lanes. -/
def AddsLanes (add : (Fin lanes → BitVec w) → BitVec w) : Prop :=
  ∀ f : ℕ → ℤ, add (fun k => BitVec.ofInt w (f k)) = BitVec.ofInt w (∑ k ∈ Finset.range lanes, f k)

section Sum

variable {add : (Fin lanes → BitVec w) → BitVec w} {len : BitVec 64}

theorem total_of_lanewise {mem : ℤ → BitVec w} {n : ℕ} {s : VectorTotal w lanes}
    (hadd : AddsLanes add) (hs : Lanewise mem n s) : (⟨add s.totref, s.reads⟩ : Total w) = plain mem (lanes * n) := by
  have htotref : s.totref = fun k : Fin lanes =>
      BitVec.ofInt w (∑ j ∈ Finset.range n, (mem ((lanes * j + k : ℕ) : ℤ)).toInt) := by
    funext k
    exact hs.totref k
  rw [hs.reads, htotref, hadd fun k => ∑ j ∈ Finset.range n, (mem ((lanes * j + k : ℕ) : ℤ)).toInt,
    sum_lanes fun t => (mem t).toInt]
  rfl

/-- In front of the loop over the elements the first `n` elements have been added up, `buf` is
behind them, and the others are left. -/
theorem exists_chunked (mem : ℤ → BitVec w) (hcut : Cut lanes len) (hadd : AddsLanes add) (hlen : 0 ≤ len.toInt)
    (hpos : 0 < lanes) :
    ∃ n i rest, 0 ≤ rest.toInt ∧ n + rest.toInt.toNat = len.toInt.toNat ∧
      ∃ fuel, ∀ fuel', fuel ≤ fuel' →
        chunked lanes add mem len fuel' = some ⟨plain mem n, i, rest, n⟩ := by
  unfold chunked
  split
  · have hdiv : 0 ≤ len.toInt / lanes := Int.ediv_nonneg hlen (Int.natCast_nonneg lanes)
    have hmod : 0 ≤ len.toInt % lanes := Int.emod_nonneg _ (by omega)
    have hsplit := Int.mul_ediv_add_emod len.toInt lanes
    have hchunks : 0 ≤ (len.sdiv (BitVec.ofNat 64 lanes)).toInt := by rwa [hcut.chunks]
    obtain ⟨s, hs, fuel, hfuel⟩ := exists_vectors lanes mem 0 hchunks
    have hn : ((lanes * (len.sdiv (BitVec.ofNat 64 lanes)).toInt.toNat : ℕ) : ℤ) =
        lanes * (len.toInt / lanes) := by
      rw [hcut.chunks, Nat.cast_mul, Int.toNat_of_nonneg hdiv]
    refine ⟨lanes * (len.sdiv (BitVec.ofNat 64 lanes)).toInt.toNat,
      len.sdiv (BitVec.ofNat 64 lanes), len &&& BitVec.ofNat 64 (lanes - 1), ?_, ?_, fuel, ?_⟩
    · rwa [hcut.rest]
    · rw [hcut.rest]
      omega
    · intro fuel' hle
      rw [hfuel fuel' hle, Option.map_some, total_of_lanewise hadd hs, hcut.start, hn]
  · refine ⟨0, 0, len, hlen, Nat.zero_add _, 0, fun fuel' _ => ?_⟩
    rw [plain_zero]
    rfl

/-- The vectorised sum is the plain one, for a number of lanes that cuts the length. -/
theorem exists_vsum (mem : ℤ → BitVec w) (hcut : Cut lanes len) (hadd : AddsLanes add) (hlen : 0 ≤ len.toInt)
    (hpos : 0 < lanes) :
    ∃ fuel, ∀ fuel', fuel ≤ fuel' →
      vsum lanes add mem len fuel' = some (plain mem len.toInt.toNat) := by
  obtain ⟨n, i, rest, hrest, hsum, fuel, hchunked⟩ := exists_chunked mem hcut hadd hlen hpos
  obtain ⟨fuel₁, helements⟩ := exists_elements mem n i hrest
  refine ⟨max fuel fuel₁, fun fuel' hle => ?_⟩
  rw [vsum, hchunked fuel' (le_of_max_le_left hle), Option.bind_some,
    helements fuel' (le_of_max_le_right hle), Option.map_some, hsum]

theorem exists_scalarSum (mem : ℤ → BitVec w) (hlen : 0 ≤ len.toInt) :
    ∃ fuel, ∀ fuel', fuel ≤ fuel' → scalarSum mem len fuel' = some (plain mem len.toInt.toNat) := by
  obtain ⟨fuel, helements⟩ := exists_elements mem 0 0 hlen
  refine ⟨fuel, fun fuel' hle => ?_⟩
  have hloop := helements fuel' hle
  rw [plain_zero, Nat.cast_zero, Nat.zero_add] at hloop
  rw [scalarSum, hloop, Option.map_some]

end Sum

theorem addsLanes_four :
    AddsLanes fun totref : Fin 4 → BitVec w => totref 0 + totref 1 + totref 2 + totref 3 := by
  intro f
  simp only [Finset.sum_range_succ, Finset.sum_range_zero, Int.zero_add, BitVec.ofInt_add]
  rfl

theorem addsLanes_two : AddsLanes fun totref : Fin 2 → BitVec w => totref 0 + totref 1 := by
  intro f
  simp only [Finset.sum_range_succ, Finset.sum_range_zero, Int.zero_add, BitVec.ofInt_add]
  rfl

/-- With enough fuel `sum` gives the sum of the first `len` elements modulo `2 ^ w`, as the loop over
all elements does, and has read each of them once and nothing else. -/
def SumsPlainly (sum : (ℤ → BitVec w) → BitVec 64 → ℕ → Option (Total w)) (mem : ℤ → BitVec w)
    (len : BitVec 64) : Prop :=
  ∃ fuel, ∀ fuel', fuel ≤ fuel' → ∃ r, sum mem len fuel' = some r ∧ scalarSum mem len fuel' = some r ∧
    r.tot = BitVec.ofInt w (∑ k ∈ Finset.range len.toInt.toNat, (mem k).toInt) ∧
    r.reads.Nodup ∧ ∀ k, k ∈ r.reads ↔ 0 ≤ k ∧ k < len.toInt

theorem sumsPlainly_of_vsum {lanes : ℕ} {add : (Fin lanes → BitVec w) → BitVec w}
    (hadd : AddsLanes add) {e : ℕ} (he : e < 63) (hlanes : lanes = 2 ^ e) (mem : ℤ → BitVec w)
    {len : BitVec 64} (hlen : 0 ≤ len.toInt) : SumsPlainly (vsum lanes add) mem len := by
  have hcut : Cut lanes len := by
    rw [hlanes]
    exact cut_two_pow he hlen
  have hpos : 0 < lanes := by
    rw [hlanes]
    exact Nat.two_pow_pos e
  obtain ⟨fuel, hvsum⟩ := exists_vsum mem hcut hadd hlen hpos
  obtain ⟨fuel₁, hscalar⟩ := exists_scalarSum mem hlen
  refine ⟨max fuel fuel₁, fun fuel' hle => ⟨plain mem len.toInt.toNat, ?_, ?_, rfl, ?_, ?_⟩⟩
  · exact hvsum fuel' (le_of_max_le_left hle)
  · exact hscalar fuel' (le_of_max_le_right hle)
  · exact List.nodup_range.map Nat.cast_injective
  · intro k
    rw [plain, List.mem_map]
    constructor
    · rintro ⟨n, hn, rfl⟩
      rw [List.mem_range] at hn
      omega
    · intro hk
      exact ⟨k.toNat, List.mem_range.mpr (by omega), by omega⟩

end Extempore.VectorSums
