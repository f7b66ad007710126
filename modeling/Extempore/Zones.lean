import Mathlib.Data.Nat.Bitwise
import Extempore.ByteMemory
import Extempore.GuardedRuns

/-!
# Zone allocation

A zone hands out blocks from one memory segment by moving `offset` forward. A full zone gets
a new segment of twice the size; the old one goes on the `memories` chain. Sizes are 64-bit
unsigned numbers, with the wrap-around written out.
-/

namespace Extempore.Zones
open ByteMemory GuardedRuns

def LLVM_ZONE_ALIGN : ℕ := 32

/-- Reduction to `uint64_t`. -/
def wrap (n : ℕ) : ℕ := n % 2 ^ 64

/-- The conversion to `int` and back to `uint64_t`. -/
def throughInt (n : ℕ) : ℕ :=
  if n % 2 ^ 32 < 2 ^ 31 then n % 2 ^ 32 else n % 2 ^ 32 + (2 ^ 64 - 2 ^ 32)

/-- `(size + LLVM_ZONE_ALIGNPAD) & ~LLVM_ZONE_ALIGNPAD`, where the complement is taken on an
`unsigned` of 32 bits. -/
def roundUp (size : ℕ) : ℕ := wrap (size + 31) &&& 0xffffffe0

/-- A segment that is no longer allocated from. -/
structure Segment where
  memory : Option ℕ
  size : ℕ
  deriving DecidableEq, Repr

/-- `llvm_zone_t`; a null pointer is `none`. -/
structure Zone where
  memory : Option ℕ
  offset : ℕ
  mark : ℕ
  size : ℕ
  memories : List Segment
  deriving DecidableEq, Repr

/-- `llvm_zone_create`, with the memory that the system returned. -/
def llvmZoneCreate (size : ℕ) (memory : Option ℕ) : Zone where
  memory
  offset := 0
  mark := 0
  size := if memory.isSome then size else 0
  memories := []

def llvmZoneReset (zone : Zone) : Zone := { zone with offset := 0 }

/-- The branch of `llvm_zone_malloc` for a full zone; `size` includes the header. -/
def extend (zone : Zone) (size : ℕ) (memory : Option ℕ) : Zone :=
  let newSize := wrap ((if size > zone.size then size else zone.size) * 2)
  let newSize := if newSize < 1024 then 1024 else newSize
  let newzone := llvmZoneCreate newSize memory
  let zone' := if zone.size = 0 then { zone with size := newSize, memory := newzone.memory }
    else { zone with
      size := newSize
      memory := newzone.memory
      memories := ⟨zone.memory, throughInt zone.size⟩ :: zone.memories }
  llvmZoneReset zone'

/-- A block carved from the current segment, and what was asked for. -/
structure Block where
  start : ℕ
  length : ℕ
  requested : ℕ
  deriving DecidableEq, Repr

/-- The zone, the memory of the process, and the blocks carved from the current segment
since it was last reset or obtained, the newest one first. -/
structure Heap where
  zone : Zone
  bytes : Memory
  carved : List Block

/-- `llvm_zone_malloc` once the zone has room: clear the block, store its size in front of
the payload, move the offset. -/
def carve (h : Heap) (requested size : ℕ) : Heap :=
  let length := roundUp size
  let newptr := h.zone.memory.getD 0 + h.zone.offset
  { zone := { h.zone with offset := wrap (h.zone.offset + length) }
    bytes := store (fill h.bytes newptr length 0) (newptr + LLVM_ZONE_ALIGN - 8) 8 length
    carved := ⟨h.zone.offset, length, requested⟩ :: h.carved }

/-- `llvm_zone_malloc`; `memory` is what the system returns if the zone is extended. -/
def llvmZoneMalloc (h : Heap) (size : ℕ) (memory : Option ℕ) : Heap :=
  let size' := wrap (size + LLVM_ZONE_ALIGN)
  if wrap (h.zone.offset + size') ≥ h.zone.size then
    carve { h with zone := extend h.zone size' memory, carved := [] } size size'
  else carve h size size'

/-- `llvm_zone_malloc` finds the zone full. -/
def Full (zone : Zone) (size : ℕ) : Prop :=
  wrap (zone.offset + wrap (size + LLVM_ZONE_ALIGN)) ≥ zone.size

instance (zone : Zone) (size : ℕ) : Decidable (Full zone size) :=
  inferInstanceAs (Decidable (_ ≤ _))

/-- The operations on a zone. Between them the program may write anything to its memory, so
that an allocation finds arbitrary `bytes`. -/
inductive Operation where
  | malloc (size : ℕ) (memory : Option ℕ) (bytes : Memory)
  | reset

def step (h : Heap) : Operation → Option Heap
  | .malloc size memory bytes => some (llvmZoneMalloc { h with bytes } size memory)
  | .reset => some { h with zone := llvmZoneReset h.zone, carved := [] }

/-- A new zone of a 64-bit size. -/
def create (size : ℕ) (memory : Option ℕ) (bytes : Memory) : Heap where
  zone := llvmZoneCreate (wrap size) memory
  bytes
  carved := []

/-! ## Rounding -/

private theorem and_mask (x : ℕ) : x &&& 0xffffffe0 = x % 2 ^ 32 / 32 * 32 := by
  have hmask : (0xffffffe0 : ℕ) = (2 ^ 27 - 1) <<< 5 := by decide
  have hand (y : ℕ) : x &&& y <<< 5 = ((x >>> 5) &&& y) <<< 5 := by
    refine Nat.eq_of_testBit_eq fun i => ?_
    by_cases hi : 5 ≤ i
    · simp [Nat.testBit_shiftLeft, hi]
    · simp [Nat.testBit_shiftLeft, hi]
  rw [hmask, hand, Nat.and_two_pow_sub_one_eq_mod, Nat.shiftLeft_eq, Nat.shiftRight_eq_div_pow]
  omega

theorem roundUp_eq (size : ℕ) : roundUp size = (size + 31) % 2 ^ 32 / 32 * 32 := by
  rw [roundUp, and_mask, wrap]
  omega

/-- The size of a block for a request, if nothing overflows: header and payload, rounded up. -/
def blockSize (requested : ℕ) : ℕ := (requested + 63) / 32 * 32

/-- The 32-bit mask leaves enough bytes just for requests that keep below 4 GiB with their
header. -/
theorem le_roundUp_iff (requested : ℕ) :
    requested + 32 ≤ roundUp (wrap (requested + 32)) ↔ requested + 64 ≤ 2 ^ 32 := by
  rw [roundUp_eq, wrap]
  omega

theorem roundUp_eq_blockSize {requested : ℕ} (h : requested + 64 ≤ 2 ^ 32) :
    roundUp (wrap (requested + 32)) = blockSize requested := by
  rw [roundUp_eq, wrap, blockSize]
  omega

/-! ## Blocks inside the segment -/

/-- What the users of the allocator rely on. -/
structure Sound (h : Heap) : Prop where
  inside : ∀ b ∈ h.carved, h.zone.memory.isSome ∧ b.start + b.length ≤ h.zone.size
  disjoint : h.carved.Pairwise fun b c =>
    b.start + b.length ≤ c.start ∨ c.start + c.length ≤ b.start
  aligned : ∀ b ∈ h.carved, (b.start + LLVM_ZONE_ALIGN) % 32 = 0
  enough : ∀ b ∈ h.carved, b.requested + LLVM_ZONE_ALIGN ≤ b.length
  /-- The block that was just handed out is cleared and knows its size. -/
  cleared : ∀ memory b, h.zone.memory = some memory → h.carved.head? = some b →
    (∀ x, memory + b.start + LLVM_ZONE_ALIGN ≤ x → x < memory + b.start + b.length →
      h.bytes x = 0) ∧
    load h.bytes (memory + b.start + LLVM_ZONE_ALIGN - 8) 8 = b.length

/-- The invariant behind it: the carved blocks lie below the offset. -/
structure Tight (h : Heap) : Prop extends Sound h where
  below : ∀ b ∈ h.carved, b.start + b.length ≤ h.zone.offset
  offset_le : h.zone.offset ≤ h.zone.size
  offset_aligned : h.zone.offset % 32 = 0
  memory : 0 < h.zone.size → h.zone.memory.isSome
  size_lt : h.zone.size < 2 ^ 64

/-- The request is below 4 GiB; in a zone that is not found full the rounded block still ends
inside; a zone that is extended gets memory, and a doubled size that overflows still holds
the block. -/
def Safe (h : Heap) : Operation → Prop
  | .malloc size memory _ => size + 64 ≤ 2 ^ 32 ∧
    if wrap (h.zone.offset + (size + 32)) < h.zone.size then
      h.zone.offset + blockSize size ≤ h.zone.size
    else memory.isSome ∧
      (2 ^ 64 ≤ 2 * h.zone.size → blockSize size ≤ max 1024 (2 * h.zone.size - 2 ^ 64))
  | .reset => True

theorem tight_create (size : ℕ) (memory : Option ℕ) (bytes : Memory) :
    Tight (create size memory bytes) := by
  refine ⟨⟨by simp [create], by simp [create], by simp [create], by simp [create],
    by simp [create]⟩, by simp [create], ?_, ?_, ?_, ?_⟩
  · simp [create, llvmZoneCreate]
  · simp [create, llvmZoneCreate]
  · simp only [create, llvmZoneCreate]
    split <;> simp_all
  · simp only [create, llvmZoneCreate, wrap]
    split <;> omega

theorem tight_reset {h : Heap} (ht : Tight h) :
    Tight { h with zone := llvmZoneReset h.zone, carved := [] } :=
  ⟨⟨by simp, by simp, by simp, by simp, by simp⟩, by simp, Nat.zero_le _, rfl, ht.memory,
    ht.size_lt⟩

/-- An extended zone starts again at offset 0 of a segment of at least 1024 bytes. -/
theorem extend_spec (zone : Zone) (size : ℕ) (memory : Option ℕ) :
    (extend zone size memory).offset = 0 ∧ (extend zone size memory).memory = memory ∧
      (extend zone size memory).size = max 1024 (wrap (max size zone.size * 2)) := by
  have hmax : (if size > zone.size then size else zone.size) = max size zone.size := by
    split <;> omega
  have hmin (n : ℕ) : (if n < 1024 then 1024 else n) = max 1024 n := by
    split <;> omega
  simp only [extend, hmax, hmin]
  split <;> exact ⟨rfl, rfl, rfl⟩

/-- The geometry of a carved block alone decides if it is sound. -/
theorem carve_tight_iff {h : Heap} (requested : ℕ) (hoff : h.zone.offset % 32 = 0)
    (hsize : h.zone.size < 2 ^ 64)
    (hold : ∀ b ∈ h.carved, h.zone.memory.isSome ∧ b.start + b.length ≤ h.zone.offset ∧
      (b.start + LLVM_ZONE_ALIGN) % 32 = 0 ∧ b.requested + LLVM_ZONE_ALIGN ≤ b.length)
    (hpair : h.carved.Pairwise fun b c =>
      b.start + b.length ≤ c.start ∨ c.start + c.length ≤ b.start) :
    (Sound (carve h requested (wrap (requested + 32))) →
      requested + 64 ≤ 2 ^ 32 ∧ h.zone.memory.isSome ∧
        h.zone.offset + blockSize requested ≤ h.zone.size) ∧
    (requested + 64 ≤ 2 ^ 32 → h.zone.memory.isSome →
      h.zone.offset + blockSize requested ≤ h.zone.size →
      Tight (carve h requested (wrap (requested + 32)))) := by
  constructor
  · intro hs
    have hreq := (le_roundUp_iff requested).mp (hs.enough _ List.mem_cons_self)
    obtain ⟨hmem, hin⟩ := hs.inside _ List.mem_cons_self
    rw [roundUp_eq_blockSize hreq] at hin
    exact ⟨hreq, hmem, hin⟩
  · intro hreq hmem hin
    have hlen := roundUp_eq_blockSize hreq
    have hle : requested + LLVM_ZONE_ALIGN ≤ blockSize requested := by
      simp only [blockSize, LLVM_ZONE_ALIGN]
      omega
    have hmod : blockSize requested % 32 = 0 := by simp [blockSize]
    have hwrap : wrap (h.zone.offset + blockSize requested) =
        h.zone.offset + blockSize requested := Nat.mod_eq_of_lt (by omega)
    have hlt : blockSize requested < 256 ^ 8 := by
      simp only [blockSize]
      omega
    simp only [carve, hlen, hwrap]
    refine ⟨⟨?_, ?_, ?_, ?_, ?_⟩, ?_, hin, ?_, fun _ => hmem, hsize⟩
    · rw [List.forall_mem_cons]
      refine ⟨⟨hmem, hin⟩, fun b hb => ⟨hmem, ?_⟩⟩
      have hb' := (hold b hb).2.1
      show b.start + b.length ≤ h.zone.size
      omega
    · exact List.pairwise_cons.mpr ⟨fun b hb => .inr (hold b hb).2.1, hpair⟩
    · rw [List.forall_mem_cons]
      refine ⟨?_, fun b hb => (hold b hb).2.2.1⟩
      simp only [LLVM_ZONE_ALIGN]
      omega
    · rw [List.forall_mem_cons]
      exact ⟨hle, fun b hb => (hold b hb).2.2.2⟩
    · intro memory b hm hb
      obtain rfl := Option.some.inj hb
      have hm' : h.zone.memory = some memory := hm
      rw [hm', Option.getD_some]
      refine ⟨fun x hx hx' => ?_, load_store hlt⟩
      simp only [LLVM_ZONE_ALIGN] at hx hx' ⊢
      rw [store_of_notMem (by omega), fill_apply (by omega)]
    · rw [List.forall_mem_cons]
      refine ⟨le_rfl, fun b hb => ?_⟩
      have hb' := (hold b hb).2.1
      show b.start + b.length ≤ h.zone.offset + blockSize requested
      omega
    · show (h.zone.offset + blockSize requested) % 32 = 0
      omega

/-- The request alone cannot make the doubled size overflow. -/
theorem doubled_fits {requested size : ℕ} (hle : requested + 64 ≤ 2 ^ 32) (hlt : size < 2 ^ 64) :
    blockSize requested ≤ max 1024 (wrap (max (wrap (requested + 32)) size * 2)) ↔
      (2 ^ 64 ≤ 2 * size → blockSize requested ≤ max 1024 (2 * size - 2 ^ 64)) := by
  have hsum : wrap (requested + 32) = requested + 32 := Nat.mod_eq_of_lt (by omega)
  have hblock : blockSize requested ≤ requested + 63 := Nat.div_mul_le_self _ _
  rw [hsum]
  by_cases hbig : 2 ^ 64 ≤ 2 * size
  · have hdouble : wrap (max (requested + 32) size * 2) = 2 * size - 2 ^ 64 := by
      rw [max_eq_right (by omega), wrap, Nat.mod_eq_sub_mod (by omega),
        Nat.mod_eq_of_lt (by omega), Nat.mul_comm]
    rw [hdouble]
    exact ⟨fun h _ => h, fun h => h hbig⟩
  · have hdouble : wrap (max (requested + 32) size * 2) = max (requested + 32) size * 2 :=
      Nat.mod_eq_of_lt (by omega)
    rw [hdouble]
    refine iff_of_true ?_ fun h => absurd h hbig
    omega

theorem llvmZoneMalloc_eq (h : Heap) (size : ℕ) (memory : Option ℕ) :
    llvmZoneMalloc h size memory =
      if wrap (h.zone.offset + (size + 32)) < h.zone.size then carve h size (wrap (size + 32))
      else carve { h with zone := extend h.zone (wrap (size + 32)) memory, carved := [] } size
        (wrap (size + 32)) := by
  have hfull : wrap (h.zone.offset + wrap (size + 32)) = wrap (h.zone.offset + (size + 32)) := by
    simp only [wrap]
    omega
  simp only [llvmZoneMalloc, LLVM_ZONE_ALIGN, hfull, ge_iff_le, ← not_lt, ite_not]

/-- One operation on a sound zone leaves a sound one just when it is safe. -/
theorem step_tight {h h' : Heap} {o : Operation} (ht : Tight h) (hs : step h o = some h') :
    (Sound h' → Safe h o) ∧ (Safe h o → Tight h') := by
  cases o with
  | reset =>
    obtain rfl := Option.some.inj hs
    exact ⟨fun _ => trivial, fun _ => tight_reset ht⟩
  | malloc size memory bytes =>
    obtain rfl := Option.some.inj hs
    simp only [llvmZoneMalloc_eq, Safe]
    by_cases hroom : wrap (h.zone.offset + (size + 32)) < h.zone.size
    · rw [if_pos hroom, if_pos hroom]
      obtain ⟨hneed, hkeep⟩ := @carve_tight_iff { h with bytes } size
        ht.offset_aligned ht.size_lt
        (fun b hb => ⟨(ht.inside b hb).1, ht.below b hb, ht.aligned b hb, ht.enough b hb⟩)
        ht.disjoint
      exact ⟨fun hsound => ⟨(hneed hsound).1, (hneed hsound).2.2⟩,
        fun hsafe => hkeep hsafe.1 (ht.memory (by omega)) hsafe.2⟩
    · rw [if_neg hroom, if_neg hroom]
      obtain ⟨hoff, hmem, hsize⟩ := extend_spec h.zone (wrap (size + 32)) memory
      have hlt : max 1024 (wrap (max (wrap (size + 32)) h.zone.size * 2)) < 2 ^ 64 :=
        max_lt (by decide) (Nat.mod_lt _ (by decide))
      obtain ⟨hneed, hkeep⟩ := @carve_tight_iff
        { zone := extend h.zone (wrap (size + 32)) memory, bytes, carved := [] } size
        (by simp [hoff]) (by rw [hsize]; exact hlt) (by simp) (by simp)
      simp only [hoff, hmem, hsize, Nat.zero_add] at hneed hkeep
      have hlt' := ht.size_lt
      have hfit (hle : size + 64 ≤ 2 ^ 32) := doubled_fits hle hlt'
      constructor
      · intro hsound
        obtain ⟨h1, h2, h3⟩ := hneed hsound
        exact ⟨h1, h2, (hfit h1).mp h3⟩
      · rintro ⟨h1, h2, h3⟩
        exact hkeep h1 h2 ((hfit h1).mpr h3)

/-- Along a run of allocations and resets every carved block lies inside the segment, apart
from the others, aligned, large enough and cleared, just when every allocation is safe. -/
theorem always_sound_iff (size : ℕ) (memory : Option ℕ) (bytes : Memory)
    (os : List Operation) :
    Always Sound step (create size memory bytes) os ↔
      Meets Safe step (create size memory bytes) os := by
  obtain ⟨h', hr⟩ : ∃ h', run step (create size memory bytes) os = some h' := by
    generalize create size memory bytes = h
    induction os generalizing h with
    | nil => exact ⟨h, rfl⟩
    | cons o os ih => cases o <;> exact ih _
  exact always_iff_meets (fun _ ht => ht.toSound) (fun _ _ _ ht hs => (step_tight ht hs).1)
    (fun _ _ _ ht ha hs => (step_tight ht hs).2 ha) (tight_create size memory bytes) hr

/-- A zone of 40 bytes hands out a block of 64 bytes. -/
theorem not_sound_of_unaligned_size :
    ¬ Always Sound step (create 40 (some 0) fun _ => 0) [.malloc 4 none fun _ => 0] := by
  intro h
  have hs := h _ [] _ (List.append_nil _).symm rfl
  exact absurd (hs.inside ⟨0, 64, 4⟩ (by decide)).2 (by decide)

end Extempore.Zones
