import Mathlib.Data.List.Pairwise
import Extempore.BlockMemory
import Extempore.Zones

/-!
# Copies between zone blocks

A process has any number of zones and carves blocks from them. `llvm_zone_copy_ptr` copies the
payload of a block, with the length that is stored in front of it; that length counts the header
as well.
-/

namespace Extempore.ZoneCopies
open ByteMemory GuardedRuns Zones

/-- `memcpy` between ranges that do not overlap. -/
def memcpy (bytes : Memory) (dst src n : ℕ) : Memory :=
  fun x => if dst ≤ x ∧ x < dst + n then bytes (src + (x - dst)) else bytes x

def llvmZonePtrSize (bytes : Memory) (ptr : ℕ) : ℕ := load bytes (ptr - 8) 8

/-- The memory afterwards and the value returned. -/
def llvmZoneCopyPtr (bytes : Memory) (ptr1 ptr2 : ℕ) : Memory × Bool :=
  let size1 := llvmZonePtrSize bytes ptr1
  let size2 := llvmZonePtrSize bytes ptr2
  if size1 ≠ size2 then (bytes, true)
  else if size1 = 0 then (bytes, true)
  else (memcpy bytes ptr2 ptr1 size1, false)

/-! ## Histories -/

/-- A block in use, header and payload, and the zone that it was carved from. -/
structure Carved extends BlockMemory.Block where
  zone : ℕ
  deriving DecidableEq, Repr

/-- The pointer that was handed out. -/
def Carved.ptr (b : Carved) : ℕ := b.addr + LLVM_ZONE_ALIGN

/-- The segment that the zone carves from. -/
def segment (z : Zone) : BlockMemory.Block := ⟨z.memory.getD 0, z.size⟩

/-- The memory, the zones by the order of their creation, `none` for a destroyed one, and the
blocks in use. -/
structure Process where
  bytes : Memory
  zones : List (Option Zone)
  blocks : List Carved

/-- No block and no zone of the process uses the range. -/
def Process.Fresh (p : Process) (range : BlockMemory.Block) : Prop :=
  (∀ z ∈ p.zones.filterMap id, range.Apart (segment z)) ∧ ∀ b ∈ p.blocks, range.Apart b.toBlock

instance (p : Process) (range : BlockMemory.Block) : Decidable (p.Fresh range) :=
  inferInstanceAs (Decidable (_ ∧ _))

/-- What a process does with its zones. `memory` is what the system returns. Between the other
operations anything is written to the memory but the headers of the blocks. -/
inductive Operation where
  | create (size : ℕ) (memory : Option ℕ)
  | malloc (zone size : ℕ) (memory : Option ℕ)
  | reset (zone : ℕ)
  | destroy (zone : ℕ)
  | write (bytes : Memory)
  | copy (src dst : Carved)

/-- The zone after it carved a block. -/
def Process.place (p : Process) (i : ℕ) (h : Heap) : Process where
  bytes := h.bytes
  zones := p.zones.set i (some h.zone)
  blocks := h.carved.map (fun b => ⟨⟨h.zone.memory.getD 0 + b.start, b.length⟩, i⟩) ++ p.blocks

/-- A segment is fresh when the system returns it. A reset and a destroyed zone give up their
blocks. -/
def step (p : Process) : Operation → Option Process
  | .create size memory =>
    let z := llvmZoneCreate (wrap size) memory
    if p.Fresh (segment z) then some { p with zones := p.zones ++ [some z] } else none
  | .malloc i size memory => do
    let z ← p.zones[i]?.join
    let h := llvmZoneMalloc ⟨z, p.bytes, []⟩ size memory
    if Full z size → p.Fresh (segment h.zone) then some (p.place i h) else none
  | .reset i => do
    let z ← p.zones[i]?.join
    some { p with
      zones := p.zones.set i (some (llvmZoneReset z))
      blocks := p.blocks.filter fun b => b.toBlock.Apart (segment z) }
  | .destroy i => do
    let _ ← p.zones[i]?.join
    some { p with zones := p.zones.set i none, blocks := p.blocks.filter (·.zone != i) }
  | .write bytes =>
    if ∀ b ∈ p.blocks, ∀ i < LLVM_ZONE_ALIGN, bytes (b.addr + i) = p.bytes (b.addr + i) then
      some { p with bytes }
    else none
  | .copy src dst =>
    if src ∈ p.blocks ∧ dst ∈ p.blocks then
      some { p with bytes := (llvmZoneCopyPtr p.bytes src.ptr dst.ptr).1 }
    else none

def initial (bytes : Memory) : Process := ⟨bytes, [], []⟩

/-! ## Copies -/

/-- The payload of `dst` takes the bytes of that of `src`, and no other byte changes. -/
structure CopiesInside (bytes : Memory) (src dst : Carved) : Prop where
  frame : ∀ x, ¬ (dst.ptr ≤ x ∧ x < dst.addr + dst.size) →
    (llvmZoneCopyPtr bytes src.ptr dst.ptr).1 x = bytes x
  equal : ∀ i, dst.ptr + i < dst.addr + dst.size →
    (llvmZoneCopyPtr bytes src.ptr dst.ptr).1 (dst.ptr + i) =
      (llvmZoneCopyPtr bytes src.ptr dst.ptr).1 (src.ptr + i)

/-- The 32 bytes behind the one block are those behind the other. -/
def SameBehind (bytes : Memory) (src dst : Carved) : Prop :=
  ∀ i < LLVM_ZONE_ALIGN, bytes (src.addr + src.size + i) = bytes (dst.addr + dst.size + i)

instance (bytes : Memory) (src dst : Carved) : Decidable (SameBehind bytes src dst) :=
  inferInstanceAs (Decidable (∀ i < LLVM_ZONE_ALIGN, _ = _))

/-- An allocation stays inside its segment; a copy finds the same bytes behind both blocks. -/
def Careful (p : Process) : Operation → Prop
  | .malloc i size memory => ∀ z, p.zones[i]?.join = some z →
      Safe ⟨z, p.bytes, []⟩ (.malloc size memory p.bytes)
  | .copy src dst => llvmZonePtrSize p.bytes src.ptr = llvmZonePtrSize p.bytes dst.ptr →
      SameBehind p.bytes src dst
  | _ => True

variable {p p' : Process} {src dst : Carved}

/-- What holds of the zones and blocks of a process. -/
structure Laid (p : Process) : Prop where
  apart : p.blocks.Pairwise fun b c => b.toBlock.Apart c.toBlock
  header : ∀ b ∈ p.blocks, llvmZonePtrSize p.bytes b.ptr = b.size
  least : ∀ b ∈ p.blocks, LLVM_ZONE_ALIGN ≤ b.size
  segments : ∀ (i j : ℕ) (z w : Zone), i ≠ j →
    p.zones[i]? = some (some z) → p.zones[j]? = some (some w) → (segment z).Apart (segment w)
  zone : ∀ (i : ℕ) (z : Zone), p.zones[i]? = some (some z) → z.offset ≤ z.size ∧ z.size < 2 ^ 64
  below : ∀ (i : ℕ) (z : Zone), p.zones[i]? = some (some z) → ∀ b ∈ p.blocks,
    (segment z).addr ≤ b.addr ∧ b.addr + b.size ≤ (segment z).addr + z.offset ∨
      b.toBlock.Apart (segment z)

/-- Two blocks in use are the same or share no address. -/
theorem Laid.eq_or_apart (hp : Laid p) (hsrc : src ∈ p.blocks) (hdst : dst ∈ p.blocks) :
    src = dst ∨ src.toBlock.Apart dst.toBlock := by
  by_cases heq : src = dst
  · exact .inl heq
  · have hsymm : Std.Symm fun b c : Carved => b.toBlock.Apart c.toBlock := ⟨fun _ _ h => h.symm⟩
    exact .inr (hp.apart.forall hsrc hdst heq)

theorem llvmZoneCopyPtr_eq (hp : Laid p) (hsrc : src ∈ p.blocks)
    (hsize : llvmZonePtrSize p.bytes src.ptr = llvmZonePtrSize p.bytes dst.ptr) :
    (llvmZoneCopyPtr p.bytes src.ptr dst.ptr).1 = memcpy p.bytes dst.ptr src.ptr src.size := by
  have hpos : src.size ≠ 0 := by
    have hleast := hp.least src hsrc
    simp only [LLVM_ZONE_ALIGN] at hleast
    omega
  rw [llvmZoneCopyPtr, if_neg (not_not.mpr hsize), hp.header src hsrc, if_neg hpos]

/-- A copy stays inside the destination just if the bytes behind the two blocks agree. -/
theorem Laid.inside_iff (hp : Laid p) (hsrc : src ∈ p.blocks) (hdst : dst ∈ p.blocks)
    (hsize : llvmZonePtrSize p.bytes src.ptr = llvmZonePtrSize p.bytes dst.ptr) :
    CopiesInside p.bytes src dst ↔ SameBehind p.bytes src dst := by
  have hsize' : src.size = dst.size := by
    rw [← hp.header src hsrc, ← hp.header dst hdst, hsize]
  have hcopy := llvmZoneCopyPtr_eq hp hsrc hsize
  have hleast := hp.least src hsrc
  constructor
  · intro hc i hi
    have hframe := hc.frame (dst.addr + dst.size + i) (by omega)
    have hfrom : src.addr + src.size + i =
        src.ptr + (dst.addr + dst.size + i - dst.ptr) := by
      simp only [Carved.ptr]
      omega
    rw [hcopy, memcpy, if_pos (by simp only [Carved.ptr]; omega)] at hframe
    rw [hfrom, hframe]
  · intro hsame
    have hframe (x : ℕ) (hx : ¬ (dst.ptr ≤ x ∧ x < dst.addr + dst.size)) :
        memcpy p.bytes dst.ptr src.ptr src.size x = p.bytes x := by
      by_cases hin : dst.ptr ≤ x ∧ x < dst.ptr + src.size
      · rw [memcpy, if_pos hin]
        have hbehind := hsame (x - (dst.addr + dst.size)) (by
          simp only [Carved.ptr] at hin hx
          omega)
        have hsrc' : src.ptr + (x - dst.ptr) =
            src.addr + src.size + (x - (dst.addr + dst.size)) := by
          simp only [Carved.ptr] at hin hx ⊢
          omega
        have hdst' : dst.addr + dst.size + (x - (dst.addr + dst.size)) = x := by
          simp only [Carved.ptr] at hin hx
          omega
        rw [hsrc', hbehind, hdst']
      · rw [memcpy, if_neg hin]
    refine ⟨?_, ?_⟩
    · rw [hcopy]
      exact hframe
    · intro i hi
      rw [hcopy]
      have hwritten : memcpy p.bytes dst.ptr src.ptr src.size (dst.ptr + i) =
          p.bytes (src.ptr + i) := by
        rw [memcpy, if_pos (by simp only [Carved.ptr] at hi ⊢; omega), Nat.add_sub_cancel_left]
      rw [hwritten]
      cases hp.eq_or_apart hsrc hdst with
      | inl heq => rw [← hwritten, heq]
      | inr hapart =>
        refine (hframe (src.ptr + i) ?_).symm
        simp only [Carved.ptr, BlockMemory.Block.Apart] at hi hapart ⊢
        omega

/-! ## What every history keeps -/

theorem getElem?_set_eq_some {zones : List (Option Zone)} {i j : ℕ} {z w : Zone}
    (h : (zones.set i (some z))[j]? = some (some w)) :
    i = j ∧ z = w ∨ i ≠ j ∧ zones[j]? = some (some w) := by
  by_cases hij : i = j
  · rw [hij, List.getElem?_set_self'] at h
    refine .inl ⟨hij, ?_⟩
    cases hj : zones[j]? with
    | none => simp [hj] at h
    | some _ => simpa [hj] using h
  · rw [List.getElem?_set_ne hij] at h
    exact .inr ⟨hij, h⟩

theorem Process.Fresh.zone {range : BlockMemory.Block} {i : ℕ} {z : Zone} (h : p.Fresh range)
    (hz : p.zones[i]? = some (some z)) : range.Apart (segment z) :=
  h.1 z (List.mem_filterMap.mpr ⟨some z, List.mem_of_getElem? hz, rfl⟩)

theorem laid_initial (bytes : Memory) : Laid (initial bytes) := by
  refine ⟨List.Pairwise.nil, ?_, ?_, ?_, ?_, ?_⟩
  all_goals simp [initial]

/-- The segments stay apart if one zone changes and keeps apart from the others. -/
theorem Laid.segments_set {i : ℕ} {z : Zone} (hp : Laid p)
    (hz : ∀ (j : ℕ) (w : Zone), i ≠ j → p.zones[j]? = some (some w) →
      (segment z).Apart (segment w)) (j k : ℕ) (w v : Zone) (hjk : j ≠ k)
    (hw : (p.zones.set i (some z))[j]? = some (some w))
    (hv : (p.zones.set i (some z))[k]? = some (some v)) : (segment w).Apart (segment v) := by
  rcases getElem?_set_eq_some hw with ⟨hij, hzw⟩ | ⟨hij, hw'⟩
  · rcases getElem?_set_eq_some hv with ⟨hik, -⟩ | ⟨hik, hv'⟩
    · exact absurd (hij.symm.trans hik) hjk
    · rw [← hzw]
      exact hz k v hik hv'
  · rcases getElem?_set_eq_some hv with ⟨-, hzv⟩ | ⟨-, hv'⟩
    · rw [← hzv]
      exact (hz j w hij hw').symm
    · exact hp.segments j k w v hjk hw' hv'

/-- A zone may get another segment that is not in use, and start to carve from it. -/
theorem Laid.renew {i : ℕ} {z : Zone} (hp : Laid p) (hfresh : p.Fresh (segment z))
    (hoffset : z.offset = 0) (hsize : z.size < 2 ^ 64) :
    Laid { p with zones := p.zones.set i (some z) } where
  apart := hp.apart
  header := hp.header
  least := hp.least
  segments := hp.segments_set fun _ _ _ hw => hfresh.zone hw
  zone j w hw := by
    rcases getElem?_set_eq_some hw with ⟨-, hzw⟩ | ⟨-, hw'⟩
    · rw [← hzw, hoffset]
      exact ⟨Nat.zero_le _, hsize⟩
    · exact hp.zone j w hw'
  below j w hw b hb := by
    rcases getElem?_set_eq_some hw with ⟨-, hzw⟩ | ⟨-, hw'⟩
    · rw [← hzw]
      exact .inr (hfresh.2 b hb).symm
    · exact hp.below j w hw' b hb

/-- What `llvm_zone_malloc` does to a zone with room for the block. -/
theorem place_carve (p : Process) (i : ℕ) (z : Zone) {size : ℕ} (hreq : size + 64 ≤ 2 ^ 32)
    (hin : z.offset + blockSize size ≤ z.size) (hsize : z.size < 2 ^ 64) :
    p.place i (carve ⟨z, p.bytes, []⟩ size (wrap (size + 32))) =
      { bytes := store (fill p.bytes (z.memory.getD 0 + z.offset) (blockSize size) 0)
          (z.memory.getD 0 + z.offset + 24) 8 (blockSize size)
        zones := p.zones.set i (some { z with offset := z.offset + blockSize size })
        blocks := ⟨⟨z.memory.getD 0 + z.offset, blockSize size⟩, i⟩ :: p.blocks } := by
  have hwrap : wrap (z.offset + blockSize size) = z.offset + blockSize size :=
    Nat.mod_eq_of_lt (by omega)
  rw [Process.place, carve, roundUp_eq_blockSize hreq, hwrap]
  rfl

/-- A zone with room carves a block apart from the others. -/
theorem Laid.carve {i size : ℕ} {z : Zone} (hp : Laid p) (hz : p.zones[i]? = some (some z))
    (hreq : size + 64 ≤ 2 ^ 32) (hin : z.offset + blockSize size ≤ z.size) :
    Laid (p.place i (carve ⟨z, p.bytes, []⟩ size (wrap (size + 32)))) := by
  have hsize := (hp.zone i z hz).2
  have hmin : 32 ≤ blockSize size := by
    simp only [blockSize]
    omega
  have hlt : blockSize size < 256 ^ 8 := by omega
  have hfree (b) (hb : b ∈ p.blocks) :
      BlockMemory.Block.Apart ⟨z.memory.getD 0 + z.offset, blockSize size⟩ b.toBlock := by
    have hbelow := hp.below i z hz b hb
    simp only [BlockMemory.Block.Apart, segment] at hbelow ⊢
    omega
  rw [place_carve p i z hreq hin hsize]
  refine ⟨List.pairwise_cons.mpr ⟨hfree, hp.apart⟩, ?_, ?_, ?_, ?_, ?_⟩
  · rw [List.forall_mem_cons]
    constructor
    · exact load_store hlt
    · intro b hb
      have hapart := hfree b hb
      rw [← hp.header b hb, llvmZonePtrSize, llvmZonePtrSize]
      refine load_congr fun x hx hx' => ?_
      have hleast := hp.least b hb
      simp only [BlockMemory.Block.Apart, Carved.ptr, LLVM_ZONE_ALIGN] at hapart hx hx' hleast
      refine (store_of_notMem ?_).trans (fill_of_notMem ?_)
      · omega
      · omega
  · exact List.forall_mem_cons.mpr ⟨hmin, hp.least⟩
  · exact hp.segments_set fun j w hij hw => hp.segments i j z w hij hz hw
  · intro j w hw
    rcases getElem?_set_eq_some hw with ⟨-, hzw⟩ | ⟨-, hw'⟩
    · rw [← hzw]
      exact ⟨hin, hsize⟩
    · exact hp.zone j w hw'
  · intro j w hw b hb
    rcases getElem?_set_eq_some hw with ⟨-, hzw⟩ | ⟨hij, hw'⟩
    · rw [← hzw]
      cases List.mem_cons.mp hb with
      | inl heq =>
        rw [heq]
        exact .inl ⟨Nat.le_add_right _ _, (Nat.add_assoc _ _ _).le⟩
      | inr hb' =>
        refine (hp.below i z hz b hb').imp_left fun hle => ⟨hle.1, hle.2.trans ?_⟩
        exact Nat.add_le_add_left (Nat.le_add_right _ _) _
    · cases List.mem_cons.mp hb with
      | inl heq =>
        have hapart := hp.segments i j z w hij hz hw'
        rw [heq]
        simp only [BlockMemory.Block.Apart, segment] at hapart ⊢
        omega
      | inr hb' => exact hp.below j w hw' b hb'

/-- A safe allocation. -/
theorem Laid.malloc {i size : ℕ} {z : Zone} {memory : Option ℕ} (hp : Laid p)
    (hz : p.zones[i]? = some (some z)) (hsafe : Safe ⟨z, p.bytes, []⟩ (.malloc size memory p.bytes))
    (hfresh : Full z size → p.Fresh (segment (llvmZoneMalloc ⟨z, p.bytes, []⟩ size memory).zone)) :
    Laid (p.place i (llvmZoneMalloc ⟨z, p.bytes, []⟩ size memory)) := by
  obtain ⟨hreq, hroom⟩ := hsafe
  have hfull : Full z size ↔ ¬ wrap (z.offset + (size + 32)) < z.size := by
    rw [Full, not_lt, LLVM_ZONE_ALIGN]
    simp only [wrap]
    omega
  rw [llvmZoneMalloc_eq] at hfresh ⊢
  dsimp only at hroom hfresh ⊢
  by_cases hlt : wrap (z.offset + (size + 32)) < z.size
  · rw [if_pos hlt] at hroom ⊢
    exact hp.carve hz hreq hroom
  · rw [if_neg hlt] at hroom hfresh ⊢
    obtain ⟨hoffset, hmemory, hsize⟩ := extend_spec z (wrap (size + 32)) memory
    have hfit := (doubled_fits hreq (hp.zone i z hz).2).mpr hroom.2
    have hbound : (extend z (wrap (size + 32)) memory).size < 2 ^ 64 := by
      rw [hsize]
      exact max_lt (by decide) (Nat.mod_lt _ (by decide))
    have hsegment : p.Fresh (segment (extend z (wrap (size + 32)) memory)) :=
      hfresh (hfull.mpr hlt)
    have hset : (p.zones.set i (some (extend z (wrap (size + 32)) memory)))[i]? =
        some (some (extend z (wrap (size + 32)) memory)) := by
      rw [List.getElem?_set_self', hz]
      rfl
    have hcarved := (hp.renew hsegment hoffset hbound).carve hset hreq (by
      rw [hoffset, hsize, Nat.zero_add]
      exact hfit)
    rw [Process.place, List.set_set] at hcarved
    exact hcarved

theorem Laid.create {z : Zone} (hp : Laid p) (hfresh : p.Fresh (segment z))
    (hoffset : z.offset = 0) (hsize : z.size < 2 ^ 64) :
    Laid { p with zones := p.zones ++ [some z] } := by
  have hzones {j : ℕ} {w : Zone} (hw : (p.zones ++ [some z])[j]? = some (some w)) :
      p.zones[j]? = some (some w) ∨ j = p.zones.length ∧ z = w := by
    rw [List.getElem?_append] at hw
    split at hw
    · exact .inl hw
    · have hj := (List.getElem?_eq_some_iff.mp hw).1
      rw [List.length_singleton] at hj
      have hzero : j - p.zones.length = 0 := by omega
      rw [hzero] at hw
      exact .inr ⟨by omega, Option.some.inj (Option.some.inj hw)⟩
  refine ⟨hp.apart, hp.header, hp.least, ?_, ?_, ?_⟩
  · intro j k w v hjk hw hv
    rcases hzones hw with hw' | ⟨hj, hzw⟩
    · rcases hzones hv with hv' | ⟨-, hzv⟩
      · exact hp.segments j k w v hjk hw' hv'
      · rw [← hzv]
        exact (hfresh.zone hw').symm
    · rcases hzones hv with hv' | ⟨hk, -⟩
      · rw [← hzw]
        exact hfresh.zone hv'
      · exact absurd (hj.trans hk.symm) hjk
  · intro j w hw
    rcases hzones hw with hw' | ⟨-, hzw⟩
    · exact hp.zone j w hw'
    · rw [← hzw, hoffset]
      exact ⟨Nat.zero_le _, hsize⟩
  · intro j w hw b hb
    rcases hzones hw with hw' | ⟨-, hzw⟩
    · exact hp.below j w hw' b hb
    · rw [← hzw]
      exact .inr (hfresh.2 b hb).symm

/-- Blocks may be given up. -/
theorem Laid.filter (hp : Laid p) (keep : Carved → Bool) :
    Laid { p with blocks := p.blocks.filter keep } where
  apart := hp.apart.filter keep
  header b hb := hp.header b (List.mem_filter.mp hb).1
  least b hb := hp.least b (List.mem_filter.mp hb).1
  segments := hp.segments
  zone := hp.zone
  below i z hz b hb := hp.below i z hz b (List.mem_filter.mp hb).1

/-- A reset zone starts again, without the blocks of its segment. -/
theorem Laid.reset {i : ℕ} {z : Zone} (hp : Laid p) (hz : p.zones[i]? = some (some z)) :
    Laid { p with
      zones := p.zones.set i (some (llvmZoneReset z))
      blocks := p.blocks.filter fun b => b.toBlock.Apart (segment z) } := by
  have hkeep := hp.filter fun b => b.toBlock.Apart (segment z)
  refine ⟨hkeep.apart, hkeep.header, hkeep.least, ?_, ?_, ?_⟩
  · exact hp.segments_set fun j w hij hw => hp.segments i j z w hij hz hw
  · intro j w hw
    rcases getElem?_set_eq_some hw with ⟨-, hzw⟩ | ⟨-, hw'⟩
    · rw [← hzw]
      exact ⟨Nat.zero_le _, (hp.zone i z hz).2⟩
    · exact hp.zone j w hw'
  · intro j w hw b hb
    rcases getElem?_set_eq_some hw with ⟨-, hzw⟩ | ⟨-, hw'⟩
    · rw [← hzw]
      exact .inr (of_decide_eq_true (List.mem_filter.mp hb).2)
    · exact hkeep.below j w hw' b hb

theorem Laid.destroy (hp : Laid p) (i : ℕ) :
    Laid { p with zones := p.zones.set i none, blocks := p.blocks.filter (·.zone != i) } := by
  have hkeep := hp.filter (·.zone != i)
  have hzones {j : ℕ} {w : Zone} (hw : (p.zones.set i none)[j]? = some (some w)) :
      p.zones[j]? = some (some w) := by
    rw [List.getElem?_set] at hw
    split at hw
    · split at hw
      · cases hw
      · cases hw
    · exact hw
  refine ⟨hkeep.apart, hkeep.header, hkeep.least, ?_, ?_, ?_⟩
  · intro j k w v hjk hw hv
    exact hp.segments j k w v hjk (hzones hw) (hzones hv)
  · intro j w hw
    exact hp.zone j w (hzones hw)
  · intro j w hw
    exact hkeep.below j w (hzones hw)

/-- The memory may change outside the headers. -/
theorem Laid.write {bytes : Memory} (hp : Laid p)
    (hbytes : ∀ b ∈ p.blocks, ∀ i < LLVM_ZONE_ALIGN, bytes (b.addr + i) = p.bytes (b.addr + i)) :
    Laid { p with bytes } := by
  refine ⟨hp.apart, ?_, hp.least, hp.segments, hp.zone, hp.below⟩
  intro b hb
  rw [← hp.header b hb, llvmZonePtrSize, llvmZonePtrSize]
  refine load_congr fun x hx hx' => ?_
  simp only [Carved.ptr, LLVM_ZONE_ALIGN] at hx hx'
  have hbyte := hbytes b hb (x - b.addr) (by simp only [LLVM_ZONE_ALIGN]; omega)
  have haddr : b.addr + (x - b.addr) = x := by omega
  rwa [haddr] at hbyte

/-- A copy that stays inside leaves all headers as they are. -/
theorem Laid.copy (hp : Laid p) (hsrc : src ∈ p.blocks) (hdst : dst ∈ p.blocks)
    (hcareful : Careful p (.copy src dst)) :
    Laid { p with bytes := (llvmZoneCopyPtr p.bytes src.ptr dst.ptr).1 } := by
  refine hp.write fun b hb i hi => ?_
  by_cases hsize : llvmZonePtrSize p.bytes src.ptr = llvmZonePtrSize p.bytes dst.ptr
  · have hframe := ((hp.inside_iff hsrc hdst hsize).mpr (hcareful hsize)).frame
    refine hframe (b.addr + i) ?_
    have hleast := hp.least b hb
    cases hp.eq_or_apart hb hdst with
    | inl heq =>
      rw [← heq, Carved.ptr]
      omega
    | inr hapart =>
      simp only [BlockMemory.Block.Apart, Carved.ptr] at hapart ⊢
      omega
  · rw [llvmZoneCopyPtr, if_pos hsize]

theorem join_eq_some {zones : List (Option Zone)} {i : ℕ} {z : Zone}
    (h : zones[i]?.join = some z) : zones[i]? = some (some z) :=
  Option.join_eq_some_iff.mp h

theorem laid_step {o : Operation} (hp : Laid p) (hcareful : Careful p o)
    (hs : step p o = some p') : Laid p' := by
  cases o with
  | create size memory =>
    simp only [step] at hs
    split at hs
    · next hfresh =>
      obtain rfl := Option.some.inj hs
      refine hp.create hfresh rfl ?_
      rw [llvmZoneCreate]
      dsimp only
      split
      · exact Nat.mod_lt _ (by decide)
      · decide
    · cases hs
  | malloc i size memory =>
    obtain ⟨z, hz, hs⟩ := Option.bind_eq_some_iff.mp hs
    dsimp only at hs
    split at hs
    · next hfresh =>
      obtain rfl := Option.some.inj hs
      exact hp.malloc (join_eq_some hz) (hcareful z hz) hfresh
    · cases hs
  | reset i =>
    obtain ⟨z, hz, hs⟩ := Option.bind_eq_some_iff.mp hs
    obtain rfl := Option.some.inj hs
    exact hp.reset (join_eq_some hz)
  | destroy i =>
    obtain ⟨z, hz, hs⟩ := Option.bind_eq_some_iff.mp hs
    obtain rfl := Option.some.inj hs
    exact hp.destroy i
  | write bytes =>
    simp only [step] at hs
    split at hs
    · next hbytes =>
      obtain rfl := Option.some.inj hs
      exact hp.write hbytes
    · cases hs
  | copy src dst =>
    simp only [step] at hs
    split at hs
    · next hmem =>
      obtain rfl := Option.some.inj hs
      exact hp.copy hmem.1 hmem.2 hcareful
    · cases hs

/-- After a history of safe allocations and copies that found the same bytes behind both blocks, a
copy between two blocks of one size stays inside the payload of the destination and makes the
payloads equal just if the 32 bytes behind the one block are those behind the other. -/
theorem copiesInside_iff {bytes : Memory} {os : List Operation}
    (hr : run step (initial bytes) os = some p) (hm : Meets Careful step (initial bytes) os)
    (hsrc : src ∈ p.blocks) (hdst : dst ∈ p.blocks)
    (hsize : llvmZonePtrSize p.bytes src.ptr = llvmZonePtrSize p.bytes dst.ptr) :
    CopiesInside p.bytes src dst ↔ SameBehind p.bytes src dst := by
  have hp := run_invariant (fun _ _ _ hp ha hs => laid_step hp ha hs) (laid_initial bytes) hm hr
  exact hp.inside_iff hsrc hdst hsize

/-- A zone of 1024 bytes with three blocks of 64 bytes, all payloads zero. -/
theorem copiesInside_alike :
    ∃ p, run step (initial fun _ => 0) [.create 1024 (some 4096), .malloc 0 32 none,
        .malloc 0 32 none, .malloc 0 32 none] = some p ∧
      CopiesInside p.bytes ⟨⟨4096, 64⟩, 0⟩ ⟨⟨4160, 64⟩, 0⟩ := by
  have hsafe (h : Zones.Heap) (hsize : h.zone.size = 1024) (hoffset : h.zone.offset < 512) :
      Safe h (.malloc 32 none h.bytes) := by
    have hwrap : wrap (h.zone.offset + (32 + 32)) = h.zone.offset + (32 + 32) :=
      Nat.mod_eq_of_lt (by omega)
    refine ⟨by decide, ?_⟩
    rw [hwrap, if_pos (by omega), hsize]
    simp only [blockSize]
    omega
  have hmeets : Meets Careful step (initial fun _ => 0) [.create 1024 (some 4096),
      .malloc 0 32 none, .malloc 0 32 none, .malloc 0 32 none] := by
    apply meets_cons rfl trivial
    apply meets_cons rfl (fun z hz => Option.some.inj hz ▸ hsafe _ rfl (by decide))
    apply meets_cons rfl (fun z hz => Option.some.inj hz ▸ hsafe _ rfl (by decide))
    apply meets_cons rfl (fun z hz => Option.some.inj hz ▸ hsafe _ rfl (by decide))
    trivial
  refine ⟨_, rfl, ?_⟩
  apply (@copiesInside_iff _ ⟨⟨4096, 64⟩, 0⟩ ⟨⟨4160, 64⟩, 0⟩ _ _ rfl hmeets _ _ _).mpr
  · decide
  · decide
  · decide
  · decide

/-- Two blocks of 64 bytes and one of 160 behind them. A copy from the first to the second writes
the length of the second into the header of the third. -/
theorem not_copiesInside_header :
    ∃ p, run step (initial fun _ => 0) [.create 1024 (some 4096), .malloc 0 32 none,
        .malloc 0 32 none, .malloc 0 100 none] = some p ∧
      (⟨⟨4096, 64⟩, 0⟩ : Carved) ∈ p.blocks ∧ (⟨⟨4160, 64⟩, 0⟩ : Carved) ∈ p.blocks ∧
      llvmZonePtrSize p.bytes 4128 = llvmZonePtrSize p.bytes 4192 ∧
      ¬ CopiesInside p.bytes ⟨⟨4096, 64⟩, 0⟩ ⟨⟨4160, 64⟩, 0⟩ := by
  refine ⟨_, rfl, by decide, by decide, by decide, ?_⟩
  intro h
  have hbyte := h.frame 4248 (by decide)
  revert hbyte
  decide

end Extempore.ZoneCopies
