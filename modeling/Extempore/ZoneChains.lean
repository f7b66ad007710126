import Mathlib.Data.List.Forall2
import Mathlib.Data.List.Nodup
import Extempore.BlockMemory
import Extempore.Zones

/-!
# The chain of a zone

A zone that is extended keeps its old segment on a chain of zone records. `llvm_ptr_in_zone` and
`llvm_zone_destroy` walk along this chain. The size of an old segment gets there through an `int`.
-/

namespace Extempore.ZoneChains
open ByteMemory GuardedRuns Zones
open scoped List

/-- The test of `llvm_ptr_in_zone` for one record. -/
def outsideRecord (s : Zones.Segment) (ptr : ℕ) : Bool :=
  ptr < s.memory.getD 0 || ptr ≥ wrap (s.memory.getD 0 + s.size)

/-- The loop of `llvm_ptr_in_zone`. -/
def ptrInRecords : List Zones.Segment → ℕ → Bool
  | [], _ => false
  | s :: records, ptr => if outsideRecord s ptr then ptrInRecords records ptr else true

def llvmPtrInZone (zone : Zone) (ptr : ℕ) : Bool :=
  ptrInRecords (⟨zone.memory, zone.size⟩ :: zone.memories) ptr

/-- `llvm_zone_destroy` for the addresses and memories of the records: what is freed, in order. A
null pointer is not freed. -/
def llvmZoneDestroy : List (ℕ × Option ℕ) → List ℕ
  | [] => []
  | (record, memory) :: memories => llvmZoneDestroy memories ++ memory.toList ++ [record]

/-- A zone with the addresses of its record and of those chained to it, the segments that it got
from the system, all addresses that it got and did not free, and the pointers handed out. -/
structure Chain where
  heap : Heap
  records : List ℕ
  segments : List BlockMemory.Block
  held : List ℕ
  pointers : List ℕ

def Chain.zone (c : Chain) : Zone := c.heap.zone

/-- The records with their memories, as they are linked. -/
def Chain.linked (c : Chain) : List (ℕ × Option ℕ) :=
  c.records.zip (c.zone.memory :: c.zone.memories.map (·.memory))

/-- `llvm_zone_create` with the addresses that the system returned. -/
def create (size record : ℕ) (memory : Option ℕ) (bytes : Memory) : Chain where
  heap := Zones.create size memory bytes
  records := [record]
  segments := memory.toList.map fun m => ⟨m, wrap size⟩
  held := record :: memory.toList
  pointers := []

/-- The last address is below this. -/
def addressEnd : ℕ := 2 ^ 63

/-- The system may return `memory` for a segment of `size` bytes and `record` for a record. -/
structure Fresh (c : Chain) (memory size record : ℕ) : Prop where
  apart : ∀ s ∈ c.segments, BlockMemory.Block.Apart ⟨memory, size⟩ s
  memory_notMem : memory ∉ c.held
  record_notMem : record ∉ c.held
  ne : memory ≠ record
  bound : memory + size ≤ addressEnd

instance (c : Chain) (memory size record : ℕ) : Decidable (Fresh c memory size record) :=
  decidable_of_iff ((∀ s ∈ c.segments, BlockMemory.Block.Apart ⟨memory, size⟩ s) ∧
    memory ∉ c.held ∧ record ∉ c.held ∧ memory ≠ record ∧ memory + size ≤ addressEnd)
    ⟨fun h => ⟨h.1, h.2.1, h.2.2.1, h.2.2.2.1, h.2.2.2.2⟩, fun h =>
      ⟨h.apart, h.memory_notMem, h.record_notMem, h.ne, h.bound⟩⟩

/-- The records and what was got from the system, once a full zone is extended. The new record
comes behind that of the zone; an empty zone has no use for it and frees it. -/
def Chain.extended (c : Chain) (memory size record : ℕ) : Chain where
  heap := c.heap
  records := if c.zone.size = 0 then c.records
    else c.records.take 1 ++ record :: c.records.drop 1
  segments := ⟨memory, size⟩ :: c.segments
  held := if c.zone.size = 0 then (memory :: record :: c.held).erase record
    else memory :: record :: c.held
  pointers := c.pointers

/-- The operations on a zone, with what the system returns and what the program has written. -/
inductive Operation where
  | malloc (size memory record : ℕ) (bytes : Memory)
  | reset

/-- The sum in the test for a full zone does not wrap around, and the block with its header lies
inside the segment. -/
def Inside (c : Chain) (size : ℕ) (h : Heap) (b : Zones.Block) : Prop :=
  c.zone.offset + (size + LLVM_ZONE_ALIGN) < 2 ^ 64 ∧
    b.start + max b.length LLVM_ZONE_ALIGN ≤ h.zone.size

instance (c : Chain) (size : ℕ) (h : Heap) (b : Zones.Block) : Decidable (Inside c size h b) :=
  inferInstanceAs (Decidable (_ ∧ _))

/-- An allocation that writes behind its segment has no result. -/
def step (c : Chain) : Operation → Option Chain
  | .malloc size memory record bytes =>
    let h := llvmZoneMalloc { c.heap with bytes } size (some memory)
    match h.carved with
    | [] => none
    | b :: _ =>
      if Inside c size h b ∧ (Full c.zone size → Fresh c memory h.zone.size record) then
        let c' := if Full c.zone size then c.extended memory h.zone.size record else c
        some { c' with
          heap := h
          pointers := (h.zone.memory.getD 0 + b.start + LLVM_ZONE_ALIGN) :: c.pointers }
      else none
  | .reset => some { c with heap := { c.heap with zone := llvmZoneReset c.zone, carved := [] } }

/-! ## Membership and release -/

/-- The address lies in the segment. -/
def Contains (s : BlockMemory.Block) (p : ℕ) : Prop := s.addr ≤ p ∧ p < s.addr + s.size

/-- Membership is exact, and the end of the zone frees what it holds, each address once. -/
structure Exact (c : Chain) : Prop where
  inside : ∀ p ∈ c.pointers, llvmPtrInZone c.zone p = true
  outside : ∀ p, (∀ s ∈ c.segments, ¬ Contains s p) → llvmPtrInZone c.zone p = false
  destroyed : (llvmZoneDestroy c.linked).Perm c.held
  once : (llvmZoneDestroy c.linked).Nodup

/-- Where the segment of the zone will end once its size has gone through an `int`. -/
def recordedEnd (zone : Zone) : ℕ := wrap (zone.memory.getD 0 + throughInt zone.size)

/-- When a zone is extended, it has no memory if it is empty, and else its segment does not get
longer on the chain and is cut behind all its pointers only. -/
def Kept (c : Chain) : Operation → Prop
  | .malloc size _ _ _ => Full c.zone size →
    if c.zone.size = 0 then c.zone.memory = none
    else recordedEnd c.zone ≤ c.zone.memory.getD 0 + c.zone.size ∧
      ∀ p ∈ c.pointers, Contains ⟨c.zone.memory.getD 0, c.zone.size⟩ p → p < recordedEnd c.zone
  | .reset => True

/-- What the chain holds of a segment lies in that segment. -/
structure Recorded (s : Zones.Segment) (b : BlockMemory.Block) : Prop where
  memory : s.memory = some b.addr
  le : wrap (b.addr + s.size) ≤ b.addr + b.size

/-- The segment of the zone and those of the chain. -/
inductive Linked : Option ℕ → ℕ → List Zones.Segment → List BlockMemory.Block → Prop
  | null : Linked none 0 [] []
  | memory {m size : ℕ} {memories : List Zones.Segment} {rest : List BlockMemory.Block}
      (chained : List.Forall₂ Recorded memories rest) :
      Linked (some m) size memories (⟨m, size⟩ :: rest)

/-- What every run keeps. -/
structure Sound (c : Chain) : Prop where
  inside : ∀ p ∈ c.pointers, llvmPtrInZone c.zone p = true
  linked : Linked c.zone.memory c.zone.size c.zone.memories c.segments
  apart : c.segments.Pairwise BlockMemory.Block.Apart
  bound : ∀ s ∈ c.segments, s.addr + s.size ≤ addressEnd
  records : c.records.length = c.zone.memories.length + 1
  held : c.held.Perm (c.records ++ c.segments.map (·.addr))
  nodup : c.held.Nodup
  empty : c.zone.size = 0 → c.zone.memories = []

variable {c c' : Chain} {p size memory record : ℕ}

theorem ptrInRecords_iff {records : List Zones.Segment} :
    ptrInRecords records p = true ↔ ∃ s ∈ records,
      s.memory.getD 0 ≤ p ∧ p < wrap (s.memory.getD 0 + s.size) := by
  induction records with
  | nil => simp [ptrInRecords]
  | cons s records ih =>
    rw [ptrInRecords, List.exists_mem_cons_iff, ← ih]
    by_cases hout : outsideRecord s p = true
    · have hnot : ¬ (s.memory.getD 0 ≤ p ∧ p < wrap (s.memory.getD 0 + s.size)) := by
        simp only [outsideRecord, Bool.or_eq_true, decide_eq_true_eq] at hout
        omega
      rw [if_pos hout]
      exact (or_iff_right hnot).symm
    · have hin : s.memory.getD 0 ≤ p ∧ p < wrap (s.memory.getD 0 + s.size) := by
        simp only [outsideRecord, Bool.or_eq_true, decide_eq_true_eq] at hout
        omega
      rw [if_neg hout]
      exact iff_of_true rfl (.inl hin)

/-- All records and all memories are freed. -/
theorem llvmZoneDestroy_perm {records : List ℕ} {memories : List (Option ℕ)}
    (h : records.length = memories.length) :
    (llvmZoneDestroy (records.zip memories)).Perm (records ++ memories.filterMap id) := by
  induction records generalizing memories with
  | nil =>
    have hnil := List.eq_nil_of_length_eq_zero h.symm
    rw [hnil]
    exact List.Perm.refl _
  | cons record records ih =>
    cases memories with
    | nil => cases h
    | cons memory memories =>
      have hrest := ih (Nat.succ.inj h)
      have hmemories : (memory :: memories).filterMap id =
          memory.toList ++ memories.filterMap id := by
        cases memory <;> rfl
      rw [List.zip_cons_cons, llvmZoneDestroy, hmemories]
      calc llvmZoneDestroy (records.zip memories) ++ memory.toList ++ [record]
        _ ~ record :: (llvmZoneDestroy (records.zip memories) ++ memory.toList) :=
          List.perm_append_singleton _ _
        _ ~ record :: (records ++ memories.filterMap id ++ memory.toList) :=
          (hrest.append_right _).cons _
        _ ~ record :: (records ++ (memory.toList ++ memories.filterMap id)) := by
          rw [List.append_assoc]
          exact (List.perm_append_comm.append_left _).cons _

/-! ## What the steps keep -/

theorem not_contains {a b : BlockMemory.Block} (hapart : a.Apart b) (hp : Contains a p) :
    ¬ Contains b p := by
  simp only [BlockMemory.Block.Apart, Contains] at hapart hp ⊢
  omega

/-- An address that a chained record holds lies in its segment. -/
theorem exists_contains {memories : List Zones.Segment} {rest : List BlockMemory.Block}
    (h : List.Forall₂ Recorded memories rest) {s : Zones.Segment} (hs : s ∈ memories)
    (hp : s.memory.getD 0 ≤ p ∧ p < wrap (s.memory.getD 0 + s.size)) :
    ∃ b ∈ rest, Contains b p := by
  induction h with
  | nil => cases hs
  | cons hr _ ih =>
    cases List.mem_cons.mp hs with
    | inl heq =>
      rw [heq, hr.memory, Option.getD_some] at hp
      exact ⟨_, List.mem_cons_self, hp.1, hp.2.trans_le hr.le⟩
    | inr hmem =>
      obtain ⟨b, hb, hcontains⟩ := ih hmem
      exact ⟨b, List.mem_cons_of_mem _ hb, hcontains⟩

theorem Linked.exists_contains {m : Option ℕ} {memories : List Zones.Segment}
    {segments : List BlockMemory.Block} (h : Linked m size memories segments)
    (hp : ptrInRecords (⟨m, size⟩ :: memories) p = true) : ∃ b ∈ segments, Contains b p := by
  obtain ⟨s, hs, hrange⟩ := ptrInRecords_iff.mp hp
  cases h with
  | null =>
    rw [List.mem_singleton.mp hs] at hrange
    exact absurd hrange.2 (Nat.not_lt_zero _)
  | @memory m _ _ rest chained =>
    cases List.mem_cons.mp hs with
    | inl heq =>
      rw [heq] at hrange
      exact ⟨_, List.mem_cons_self, hrange.1, hrange.2.trans_le (Nat.mod_le _ _)⟩
    | inr hmem =>
      obtain ⟨b, hb, hcontains⟩ := ZoneChains.exists_contains chained hmem hrange
      exact ⟨b, List.mem_cons_of_mem _ hb, hcontains⟩

/-- The memories of the records are the segments. -/
theorem Linked.memories_eq {m : Option ℕ} {memories : List Zones.Segment}
    {segments : List BlockMemory.Block} (h : Linked m size memories segments) :
    (m :: memories.map (·.memory)).filterMap id = segments.map (·.addr) := by
  cases h with
  | null => rfl
  | memory chained =>
    rw [List.filterMap_cons_some (f := id) rfl, List.map_cons]
    congr 1
    induction chained with
    | nil => rfl
    | cons hr _ ih =>
      rw [List.map_cons, hr.memory, List.filterMap_cons_some (f := id) rfl, List.map_cons, ih]

theorem Sound.exact (h : Sound c) : Exact c := by
  have hperm : (llvmZoneDestroy c.linked).Perm c.held := by
    have hlength : c.records.length = (c.zone.memory :: c.zone.memories.map (·.memory)).length := by
      rw [h.records, List.length_cons, List.length_map]
    have hfreed := llvmZoneDestroy_perm hlength
    rw [h.linked.memories_eq] at hfreed
    exact hfreed.trans h.held.symm
  refine ⟨h.inside, ?_, hperm, hperm.nodup_iff.mpr h.nodup⟩
  intro p hp
  by_contra hin
  obtain ⟨b, hb, hcontains⟩ := h.linked.exists_contains (Bool.eq_true_of_not_eq_false hin)
  exact hp b hb hcontains

theorem extend_memories (zone : Zone) (size : ℕ) (memory : Option ℕ) :
    (extend zone size memory).memories =
      if zone.size = 0 then zone.memories
      else ⟨zone.memory, throughInt zone.size⟩ :: zone.memories := by
  simp only [extend]
  split
  · rfl
  · rfl

/-- An allocation in a zone with room. -/
structure Carves (c c' : Chain) : Prop where
  zone_memory : c'.zone.memory = c.zone.memory
  zone_size : c'.zone.size = c.zone.size
  memories : c'.zone.memories = c.zone.memories
  records : c'.records = c.records
  segments : c'.segments = c.segments
  held : c'.held = c.held
  pointers : c'.pointers = (c.zone.memory.getD 0 + c.zone.offset + LLVM_ZONE_ALIGN) :: c.pointers
  lt : c.zone.offset + LLVM_ZONE_ALIGN < c.zone.size

/-- An allocation that extends the zone by `newSize` bytes. -/
structure Extends (c c' : Chain) (memory record newSize : ℕ) : Prop where
  zone_memory : c'.zone.memory = some memory
  zone_size : c'.zone.size = newSize
  memories : c'.zone.memories = if c.zone.size = 0 then c.zone.memories
    else ⟨c.zone.memory, throughInt c.zone.size⟩ :: c.zone.memories
  records : c'.records = (c.extended memory newSize record).records
  segments : c'.segments = ⟨memory, newSize⟩ :: c.segments
  held : c'.held = (c.extended memory newSize record).held
  pointers : c'.pointers = (memory + LLVM_ZONE_ALIGN) :: c.pointers
  fresh : Fresh c memory newSize record
  le : 1024 ≤ newSize

theorem step_malloc {bytes : Memory} (h : step c (.malloc size memory record bytes) = some c') :
    if Full c.zone size then ∃ newSize, Extends c c' memory record newSize else Carves c c' := by
  by_cases hfull : Full c.zone size
  · rw [if_pos hfull]
    have hmalloc : llvmZoneMalloc { c.heap with bytes } size (some memory) =
        carve ⟨extend c.zone (wrap (size + LLVM_ZONE_ALIGN)) (some memory), bytes, []⟩ size
          (wrap (size + LLVM_ZONE_ALIGN)) := if_pos hfull
    obtain ⟨hoffset, hmemory, hsize⟩ :=
      extend_spec c.zone (wrap (size + LLVM_ZONE_ALIGN)) (some memory)
    rw [step, hmalloc] at h
    simp only [carve] at h
    split at h
    · next hinside =>
      obtain rfl := Option.some.inj h
      refine ⟨_, ⟨hmemory, rfl, extend_memories _ _ _, rfl, rfl, rfl, ?_, hinside.2 hfull, ?_⟩⟩
      · rw [hmemory, hoffset]
        rfl
      · rw [hsize]
        exact le_max_left _ _
    · cases h
  · rw [if_neg hfull]
    have hmalloc : llvmZoneMalloc { c.heap with bytes } size (some memory) =
        carve { c.heap with bytes } size (wrap (size + LLVM_ZONE_ALIGN)) := if_neg hfull
    rw [step, hmalloc] at h
    simp only [carve] at h
    split at h
    · next hinside =>
      obtain rfl := Option.some.inj h
      refine ⟨rfl, rfl, rfl, rfl, rfl, rfl, rfl, ?_⟩
      have hsum := hinside.1.1
      simp only [Full, wrap, LLVM_ZONE_ALIGN] at hfull hsum ⊢
      omega
    · cases h

theorem wrap_eq (h : p ≤ addressEnd) : wrap p = p :=
  Nat.mod_eq_of_lt (h.trans_lt (by decide))

theorem Sound.of_none (h : Sound c) (hm : c.zone.memory = none) :
    c.zone.size = 0 ∧ c.zone.memories = [] ∧ c.segments = [] := by
  have hlinked := h.linked
  rw [hm] at hlinked
  generalize c.zone.size = size, c.zone.memories = memories, c.segments = segments at hlinked
  cases hlinked with
  | null => exact ⟨rfl, rfl, rfl⟩

theorem Sound.of_some (h : Sound c) {m : ℕ} (hm : c.zone.memory = some m) :
    ∃ rest, c.segments = ⟨m, c.zone.size⟩ :: rest ∧ List.Forall₂ Recorded c.zone.memories rest := by
  have hlinked := h.linked
  rw [hm] at hlinked
  generalize c.zone.size = size, c.zone.memories = memories, c.segments = segments at hlinked
  cases hlinked with
  | memory chained => exact ⟨_, rfl, chained⟩

theorem Sound.head_le (h : Sound c) {m : ℕ} (hm : c.zone.memory = some m) :
    m + c.zone.size ≤ addressEnd := by
  obtain ⟨rest, hsegments, -⟩ := h.of_some hm
  have hhead := h.bound ⟨m, c.zone.size⟩ (by rw [hsegments]; exact List.mem_cons_self)
  exact hhead

/-- The whole segment of a zone is in the zone. -/
theorem inZone_head {zone : Zone} {m : ℕ} (hm : zone.memory = some m)
    (hle : m + zone.size ≤ addressEnd) (hp : Contains ⟨m, zone.size⟩ p) :
    llvmPtrInZone zone p = true := by
  refine ptrInRecords_iff.mpr ⟨_, List.mem_cons_self, ?_⟩
  rw [hm, Option.getD_some, wrap_eq hle]
  exact hp

/-- A block behind the others in the segment. -/
theorem Sound.carves (h : Sound c) (hc : Carves c c') : Sound c' := by
  have hin (p : ℕ) : llvmPtrInZone c'.zone p = llvmPtrInZone c.zone p := by
    rw [llvmPtrInZone, hc.zone_memory, hc.zone_size, hc.memories, llvmPtrInZone]
  refine ⟨?_, ?_, ?_, ?_, ?_, ?_, ?_, ?_⟩
  · intro p hp
    rw [hin]
    rw [hc.pointers] at hp
    cases List.mem_cons.mp hp with
    | inr hmem => exact h.inside p hmem
    | inl heq =>
      have hlt := hc.lt
      cases hm : c.zone.memory with
      | none =>
        have hsize := (h.of_none hm).1
        omega
      | some m =>
        rw [hm, Option.getD_some] at heq
        apply inZone_head hm (h.head_le hm)
        rw [heq, Contains]
        dsimp only
        omega
  · rw [hc.zone_memory, hc.zone_size, hc.memories, hc.segments]
    exact h.linked
  · rw [hc.segments]
    exact h.apart
  · rw [hc.segments]
    exact h.bound
  · rw [hc.records, hc.memories]
    exact h.records
  · rw [hc.held, hc.records, hc.segments]
    exact h.held
  · rw [hc.held]
    exact h.nodup
  · rw [hc.zone_size, hc.memories]
    exact h.empty

/-- An empty zone without memory gets its first segment. -/
theorem Sound.first {newSize : ℕ} (h : Sound c) (he : Extends c c' memory record newSize)
    (hsize : c.zone.size = 0) (hm : c.zone.memory = none) : Sound c' := by
  obtain ⟨-, hmemories, hsegments⟩ := h.of_none hm
  have hfresh := he.fresh
  have hle := he.le
  have hnone (p) : p ∉ c.pointers := by
    intro hp
    have hin := h.inside p hp
    obtain ⟨s, hs, hrange⟩ := ptrInRecords_iff.mp hin
    rw [hmemories, hm, hsize] at hs
    rw [List.mem_singleton.mp hs] at hrange
    exact absurd hrange.2 (Nat.not_lt_zero _)
  have hmemories' := he.memories
  rw [if_pos hsize, hmemories] at hmemories'
  have hrecords : c'.records = c.records := he.records.trans (if_pos hsize)
  have herase : (memory :: record :: c.held).erase record = memory :: c.held := by
    rw [List.erase_cons_tail (by simpa using hfresh.ne), List.erase_cons_head]
  have hheld : c'.held = memory :: c.held := he.held.trans ((if_pos hsize).trans herase)
  have hsegments' := he.segments
  rw [hsegments] at hsegments'
  refine ⟨?_, ?_, ?_, ?_, ?_, ?_, ?_, ?_⟩
  · intro p hp
    rw [he.pointers] at hp
    cases List.mem_cons.mp hp with
    | inr hmem => exact absurd hmem (hnone p)
    | inl heq =>
      apply inZone_head he.zone_memory
      · rw [he.zone_size]
        exact hfresh.bound
      · rw [he.zone_size, heq, Contains, LLVM_ZONE_ALIGN]
        dsimp only
        omega
  · rw [he.zone_memory, he.zone_size, hmemories', hsegments']
    exact .memory .nil
  · rw [hsegments']
    exact List.pairwise_singleton _ _
  · rw [hsegments']
    intro s hs
    rw [List.mem_singleton.mp hs]
    exact hfresh.bound
  · rw [hrecords, hmemories', h.records, hmemories]
  · rw [hheld, hrecords, hsegments']
    have hold := h.held
    rw [hsegments, List.map_nil, List.append_nil] at hold
    exact (hold.cons memory).trans (List.perm_append_singleton _ _).symm
  · rw [hheld]
    exact List.nodup_cons.mpr ⟨hfresh.memory_notMem, h.nodup⟩
  · intro hzero
    rw [he.zone_size] at hzero
    omega

/-- The records behind an extension. -/
theorem take_append_drop_perm (records : List ℕ) (record : ℕ) :
    (records.take 1 ++ record :: records.drop 1) ~ record :: records := by
  have h : (records.take 1 ++ record :: records.drop 1) ~
      record :: (records.take 1 ++ records.drop 1) := List.perm_middle
  rwa [List.take_append_drop] at h

/-- The old segment of a zone goes on the chain. -/
theorem Sound.grows {newSize m : ℕ} (h : Sound c) (he : Extends c c' memory record newSize)
    (hsize : c.zone.size ≠ 0) (hm : c.zone.memory = some m)
    (hle : recordedEnd c.zone ≤ m + c.zone.size)
    (hkept : ∀ p ∈ c.pointers, Contains ⟨m, c.zone.size⟩ p → p < recordedEnd c.zone) :
    Sound c' := by
  obtain ⟨rest, hsegments, hchained⟩ := h.of_some hm
  have hfresh := he.fresh
  have hnew := he.le
  have hmemories := he.memories
  rw [if_neg hsize, hm] at hmemories
  have hrecords : c'.records = c.records.take 1 ++ record :: c.records.drop 1 :=
    he.records.trans (if_neg hsize)
  have hheld : c'.held = memory :: record :: c.held := he.held.trans (if_neg hsize)
  rw [recordedEnd, hm, Option.getD_some] at hle hkept
  refine ⟨?_, ?_, ?_, ?_, ?_, ?_, ?_, ?_⟩
  · intro p hp
    rw [he.pointers] at hp
    cases List.mem_cons.mp hp with
    | inl heq =>
      apply inZone_head he.zone_memory
      · rw [he.zone_size]
        exact hfresh.bound
      · rw [he.zone_size, heq, Contains, LLVM_ZONE_ALIGN]
        dsimp only
        omega
    | inr hmem =>
      obtain ⟨s, hs, hrange⟩ := ptrInRecords_iff.mp (h.inside p hmem)
      apply ptrInRecords_iff.mpr
      rw [hmemories]
      cases List.mem_cons.mp hs with
      | inl heq =>
        rw [heq, hm, Option.getD_some, wrap_eq (h.head_le hm)] at hrange
        exact ⟨_, List.mem_cons_of_mem _ List.mem_cons_self, hrange.1, hkept p hmem hrange⟩
      | inr hmem' =>
        exact ⟨s, List.mem_cons_of_mem _ (List.mem_cons_of_mem _ hmem'), hrange⟩
  · rw [he.zone_memory, he.zone_size, hmemories, he.segments, hsegments]
    exact .memory (.cons ⟨rfl, hle⟩ hchained)
  · rw [he.segments]
    exact List.pairwise_cons.mpr ⟨hfresh.apart, h.apart⟩
  · rw [he.segments]
    exact List.forall_mem_cons.mpr ⟨hfresh.bound, h.bound⟩
  · rw [hrecords, hmemories, (take_append_drop_perm _ _).length_eq, List.length_cons, h.records,
      List.length_cons]
  · rw [hheld, hrecords, he.segments]
    calc memory :: record :: c.held
      _ ~ memory :: record :: (c.records ++ c.segments.map (·.addr)) :=
        (h.held.cons record).cons memory
      _ ~ record :: c.records ++ memory :: c.segments.map (·.addr) :=
        (@List.perm_middle _ memory (record :: c.records) _).symm
      _ ~ c.records.take 1 ++ record :: c.records.drop 1 ++ memory :: c.segments.map (·.addr) :=
        (take_append_drop_perm _ _).symm.append_right _
  · rw [hheld]
    refine List.nodup_cons.mpr ⟨?_, List.nodup_cons.mpr ⟨hfresh.record_notMem, h.nodup⟩⟩
    exact List.not_mem_cons_of_ne_of_not_mem hfresh.ne hfresh.memory_notMem
  · intro hzero
    rw [he.zone_size] at hzero
    omega

/-- The size that comes out of an `int` is that of the lowest 32 bits, or huge. -/
theorem throughInt_cases (n : ℕ) :
    throughInt n = n % 2 ^ 32 ∨ throughInt n = n % 2 ^ 32 + (2 ^ 64 - 2 ^ 32) := by
  rw [throughInt]
  split
  · exact .inl rfl
  · exact .inr rfl

/-- An end behind the segment is an end behind all segments. -/
theorem addressEnd_lt_recordedEnd {zone : Zone} {m : ℕ} (hm : zone.memory = some m)
    (hle : m + zone.size ≤ addressEnd) (h : m + zone.size < recordedEnd zone) :
    addressEnd < recordedEnd zone := by
  rw [recordedEnd, hm, Option.getD_some] at h ⊢
  have hmod := Nat.mod_le zone.size (2 ^ 32)
  cases throughInt_cases zone.size with
  | inl heq =>
    rw [heq] at h
    have hwrap := Nat.mod_le (m + zone.size % 2 ^ 32) (2 ^ 64)
    rw [wrap] at h
    omega
  | inr heq =>
    rw [heq] at h ⊢
    simp only [wrap, addressEnd] at h hle ⊢
    omega

/-- The memory of an empty zone is not freed once it is replaced. -/
theorem memory_eq_none {newSize : ℕ} (h : Sound c) (he : Extends c c' memory record newSize)
    (hexact : Exact c') (hsize : c.zone.size = 0) : c.zone.memory = none := by
  cases hm : c.zone.memory with
  | none => rfl
  | some m =>
    obtain ⟨rest, hsegments, -⟩ := h.of_some hm
    have hmemories := he.memories
    rw [if_pos hsize, h.empty hsize] at hmemories
    have hrecords : c'.records = c.records := he.records.trans (if_pos hsize)
    have hlength : c.records.length = 1 := by rw [h.records, h.empty hsize, List.length_nil]
    have hfreed : (llvmZoneDestroy c'.linked).Perm (c.records ++ [memory]) := by
      rw [Chain.linked, hrecords, he.zone_memory, hmemories]
      exact llvmZoneDestroy_perm hlength
    have hold := h.held
    rw [hsegments, List.map_cons] at hold
    have hin : m ∈ c.held :=
      hold.mem_iff.mpr (List.mem_append_right _ List.mem_cons_self)
    have hheld : m ∈ c'.held := by
      have hne : m ≠ record := fun heq => he.fresh.record_notMem (heq ▸ hin)
      have hmem := List.mem_cons_of_mem memory (List.mem_cons_of_mem record hin)
      rw [he.held.trans (if_pos hsize)]
      exact (List.mem_erase_of_ne hne).mpr hmem
    cases List.mem_append.mp (hfreed.mem_iff.mp (hexact.destroyed.mem_iff.mpr hheld)) with
    | inl hrecord =>
      have hnodup := (hold.nodup_iff.mp h.nodup)
      exact absurd rfl ((List.nodup_append.mp hnodup).2.2 m hrecord m List.mem_cons_self)
    | inr hmemory =>
      rw [List.mem_singleton.mp hmemory] at hin
      exact absurd hin he.fresh.memory_notMem

/-- The recorded size of the old segment does not reach behind it. -/
theorem recordedEnd_le {newSize m : ℕ} (h : Sound c) (he : Extends c c' memory record newSize)
    (hexact : Exact c') (hsize : c.zone.size ≠ 0) (hm : c.zone.memory = some m) :
    recordedEnd c.zone ≤ m + c.zone.size := by
  by_contra hgt
  have hend := addressEnd_lt_recordedEnd hm (h.head_le hm) (Nat.lt_of_not_le hgt)
  have hmemories := he.memories
  rw [if_neg hsize, hm] at hmemories
  have hout := hexact.outside addressEnd ?_
  · have hin : llvmPtrInZone c'.zone addressEnd = true := by
      refine ptrInRecords_iff.mpr ⟨⟨some m, throughInt c.zone.size⟩, ?_, ?_⟩
      · rw [hmemories]
        exact List.mem_cons_of_mem _ List.mem_cons_self
      · rw [recordedEnd, hm] at hend
        exact ⟨(Nat.le_add_right _ _).trans (h.head_le hm), hend⟩
    rw [hin] at hout
    cases hout
  · rw [he.segments]
    intro s hs hcontains
    have hbound : s.addr + s.size ≤ addressEnd := by
      cases List.mem_cons.mp hs with
      | inl heq =>
        rw [heq]
        exact he.fresh.bound
      | inr hmem => exact h.bound s hmem
    exact absurd hcontains.2 (Nat.not_lt.mpr hbound)

/-- No pointer is cut off from the old segment. -/
theorem lt_recordedEnd {newSize m : ℕ} (h : Sound c) (he : Extends c c' memory record newSize)
    (hexact : Exact c') (hsize : c.zone.size ≠ 0) (hm : c.zone.memory = some m)
    (hp : p ∈ c.pointers) (hcontains : Contains ⟨m, c.zone.size⟩ p) : p < recordedEnd c.zone := by
  obtain ⟨rest, hsegments, hchained⟩ := h.of_some hm
  have hmemories := he.memories
  rw [if_neg hsize, hm] at hmemories
  have hin := hexact.inside p (by rw [he.pointers]; exact List.mem_cons_of_mem _ hp)
  obtain ⟨s, hs, hrange⟩ := ptrInRecords_iff.mp hin
  rw [hmemories, List.mem_cons, List.mem_cons] at hs
  rcases hs with heq | heq | hmem
  · rw [heq, he.zone_memory, he.zone_size, Option.getD_some, wrap_eq he.fresh.bound] at hrange
    have happart := he.fresh.apart ⟨m, c.zone.size⟩ (by rw [hsegments]; exact List.mem_cons_self)
    exact absurd hcontains (not_contains happart hrange)
  · rw [heq] at hrange
    rw [recordedEnd, hm]
    exact hrange.2
  · obtain ⟨b, hb, hold⟩ := exists_contains hchained hmem hrange
    have hapart := h.apart
    rw [hsegments] at hapart
    exact absurd hold (not_contains ((List.pairwise_cons.mp hapart).1 b hb) hcontains)

theorem sound_reset (h : Sound c) (hs : step c .reset = some c') : Sound c' := by
  obtain rfl := Option.some.inj hs
  exact ⟨h.inside, h.linked, h.apart, h.bound, h.records, h.held, h.nodup, h.empty⟩

theorem kept_of_exact {o : Operation} (h : Sound c) (hs : step c o = some c')
    (hexact : Exact c') : Kept c o := by
  cases o with
  | reset => trivial
  | malloc size memory record bytes =>
    intro hfull
    have hstep := step_malloc hs
    rw [if_pos hfull] at hstep
    obtain ⟨newSize, he⟩ := hstep
    by_cases hsize : c.zone.size = 0
    · rw [if_pos hsize]
      exact memory_eq_none h he hexact hsize
    · rw [if_neg hsize]
      cases hm : c.zone.memory with
      | none => exact absurd (h.of_none hm).1 hsize
      | some m =>
        exact ⟨recordedEnd_le h he hexact hsize hm, fun p hp =>
          lt_recordedEnd h he hexact hsize hm hp⟩

theorem sound_step {o : Operation} (h : Sound c) (hkept : Kept c o) (hs : step c o = some c') :
    Sound c' := by
  cases o with
  | reset => exact sound_reset h hs
  | malloc size memory record bytes =>
    have hstep := step_malloc hs
    by_cases hfull : Full c.zone size
    · rw [if_pos hfull] at hstep
      obtain ⟨newSize, he⟩ := hstep
      have hkept' := hkept hfull
      by_cases hsize : c.zone.size = 0
      · rw [if_pos hsize] at hkept'
        exact h.first he hsize hkept'
      · rw [if_neg hsize] at hkept'
        cases hm : c.zone.memory with
        | none => exact absurd (h.of_none hm).1 hsize
        | some m =>
          rw [hm] at hkept'
          exact h.grows he hsize hm hkept'.1 hkept'.2
    · rw [if_neg hfull] at hstep
      exact h.carves hstep

/-- The system returned a new record and memory for it, or a null pointer. -/
structure Returned (size record : ℕ) (memory : Option ℕ) : Prop where
  ne : ∀ m ∈ memory, m ≠ record
  bound : ∀ m ∈ memory, m + wrap size ≤ addressEnd

theorem sound_create {memory : Option ℕ} (bytes : Memory) (h : Returned size record memory) :
    Sound (create size record memory bytes) := by
  cases memory with
  | none =>
    refine ⟨?_, .null, .nil, ?_, rfl, List.Perm.refl _, List.nodup_singleton _, fun _ => rfl⟩
    · intro p hp
      cases hp
    · intro s hs
      cases hs
  | some m =>
    refine ⟨?_, .memory .nil, List.pairwise_singleton _ _, ?_, rfl, List.Perm.refl _, ?_,
      fun _ => rfl⟩
    · intro p hp
      cases hp
    · intro s hs
      rw [List.mem_singleton.mp hs]
      exact h.bound m rfl
    · refine List.nodup_cons.mpr ⟨?_, List.nodup_singleton _⟩
      rw [Option.toList_some, List.mem_singleton]
      exact (h.ne m rfl).symm

/-- Along a run of allocations and resets that write inside the segments, membership is exact and
the end of the zone frees each segment and record once, just when every extension finds a zone
without memory or a segment whose recorded size is not too long and keeps all its pointers. -/
theorem always_exact_iff {memory : Option ℕ} {bytes : Memory} {os : List Operation}
    (h : Returned size record memory) (hr : run step (create size record memory bytes) os = some c) :
    Always Exact step (create size record memory bytes) os ↔
      Meets Kept step (create size record memory bytes) os := by
  apply always_iff_meets (J := Sound)
  · exact fun c hc => hc.exact
  · exact fun c o c' hc hs hexact => kept_of_exact hc hs hexact
  · exact fun c o c' hc hkept hs => sound_step hc hkept hs
  · exact sound_create bytes h
  · exact hr

/-- A zone of 1024 bytes is extended. -/
theorem always_exact_extended :
    Always Exact step (create 1024 100 (some 4096) fun _ => 0)
      [.malloc 2000 8192 200 fun _ => 0] := by
  have hreturned : Returned 1024 100 (some 4096) := by
    constructor
    · intro m hm
      rw [← Option.some.inj hm]
      decide
    · intro m hm
      rw [← Option.some.inj hm]
      decide
  have hrun : run step (create 1024 100 (some 4096) fun _ => 0)
      [.malloc 2000 8192 200 fun _ => 0] = some _ := rfl
  apply (always_exact_iff hreturned hrun).mpr
  refine ⟨?_, fun _ _ => trivial⟩
  intro _
  rw [if_neg (by decide)]
  refine ⟨?_, ?_⟩
  · simp [recordedEnd, Chain.zone, create, Zones.create, llvmZoneCreate, wrap, throughInt]
  · intro p hp
    cases hp

/-- The size `2 ^ 31` of an old segment gets to the chain as `2 ^ 64 - 2 ^ 31`. -/
theorem not_exact_half :
    ¬ Always Exact step (create (2 ^ 31) 100 (some (2 ^ 40)) fun _ => 0)
      [.malloc 32 0 0 fun _ => 0, .malloc (2 ^ 31) (2 ^ 41) 200 fun _ => 0] := by
  intro h
  have hexact := h _ [] _ (List.append_nil _).symm rfl
  have hin := hexact.inside (2 ^ 40 + 32) (by decide)
  revert hin
  decide

end Extempore.ZoneChains
