import Extempore.ClosureAddressTable
import Extempore.Zones

/-!
# The recorded size of a closure

The code that makes a closure marks its zone, allocates the closure structure, the environment
and one address-table entry for each variable, and writes the distance from the mark to the
new offset in front of the closure structure.
-/

namespace Extempore.ClosureSizes
open ByteMemory ClosureAddressTable GuardedRuns Zones

/-- Where the blocks come from: the forms `__make-closure-h`, `-s` and `-z`. -/
inductive Kind where
  | heap | stack | zone
  deriving DecidableEq, Repr

/-- A variable of the environment and its type as printed. -/
structure Variable where
  name : List UInt8
  type : List UInt8
  deriving DecidableEq, Repr

inductive Instruction where
  | zoneMark
  | closure (kind : Kind) (size : ℕ)
  | environment (kind : Kind) (size : ℕ)
  | newAddressTable
  | addAddressTable (name : List UInt8) (offset : ℕ) (type : List UInt8) (alloctype : ℕ)
  | fillClosure (func : ℕ)
  | zonePtrSetSize
  deriving DecidableEq, Repr

/-- `impc:ir:get-type-size` of a structure of `n` pointers; without a field it divides by the
largest alignment 0. -/
def pointersSize (n : ℕ) : Option ℕ := if n = 0 then none else some (8 * n)

/-- The name without the suffix `__sub`. -/
def variableName (name : List UInt8) : List UInt8 :=
  if SchemeReader.ascii "__sub" <:+ name then name.dropLast.dropLast.dropLast.dropLast.dropLast
  else name

def alloctype : Kind → ℕ
  | .heap => 1
  | .stack => 2
  | .zone => 3

/-- The entries of the address table; `ptridx` counts bytes. -/
def entries (kind : Kind) (ptridx : ℕ) : List Variable → List Instruction
  | [] => []
  | e :: env => .addAddressTable (variableName e.name) ptridx e.type (alloctype kind) ::
      entries kind (ptridx + 8) env

/-- `impc:ir:compile:make-closureenv` up to the recorded size. -/
def makeClosureenv (kind : Kind) (func : ℕ) (env : List Variable) : Option (List Instruction) :=
  (pointersSize 3).bind fun closureSize => (pointersSize env.length).map fun estructSize =>
    [.zoneMark, .closure kind closureSize, .environment kind estructSize, .newAddressTable] ++
      entries kind 0 env ++ [.fillClosure func, .zonePtrSetSize]

/-- What the system answers to the `k`-th allocation, and where it put the string constants. -/
structure Machine where
  malloc : ℕ → ℕ → Option ℕ
  alloca : ℕ → ℕ
  text : List UInt8 → ℕ

/-- An allocated block: its first byte, the bytes in front of the payload, all its bytes, and
what was asked for. -/
structure Reserved where
  start : ℕ
  header : ℕ
  length : ℕ
  requested : ℕ
  deriving DecidableEq, Repr

/-- The newest block comes first. -/
structure State where
  heap : Heap
  blocks : List Reserved
  clsptr : ℕ
  envptr : ℕ
  table : ℕ

def start (heap : Heap) : State := ⟨heap, [], 0, 0, 0⟩

/-- The pointer and the new state. A `memset` through a null pointer ends the process. -/
def allocate (m : Machine) (s : State) (size : ℕ) : Kind → Option (ℕ × State)
  | .heap => (m.malloc s.blocks.length size).map fun p =>
      (p, { s with blocks := ⟨p, 0, size, size⟩ :: s.blocks })
  | .stack =>
      let p := m.alloca s.blocks.length
      some (p, { s with blocks := ⟨p, 0, size, size⟩ :: s.blocks })
  | .zone =>
      let newSize := (extend s.heap.zone (wrap (size + LLVM_ZONE_ALIGN)) none).size
      let heap := llvmZoneMalloc s.heap size (m.malloc s.blocks.length newSize)
      match heap.zone.memory, heap.carved with
      | some memory, b :: _ => some (memory + b.start + LLVM_ZONE_ALIGN,
          { s with heap, blocks := ⟨memory + b.start, LLVM_ZONE_ALIGN, b.length, size⟩ :: s.blocks })
      | _, _ => none

/-- The fields of a new `closure_address_table` at `t`. -/
def storeEntry (m : Machine) (bytes : Memory) (t : ℕ) (name : List UInt8) (offset : ℕ)
    (type : List UInt8) (next : ℕ) : Memory :=
  store (store (store (store (store bytes t 8 (stringHash name)) (t + 8) 8 (m.text name))
    (t + 16) 4 offset) (t + 24) 8 (m.text type)) (t + 32) 8 next

/-- `llvm_zone_mark_size`. -/
def zoneMarkSize (zone : Zone) : ℕ := wrap (zone.offset + (2 ^ 64 - zone.mark))

def step (m : Machine) (s : State) : Instruction → Option State
  | .zoneMark => some { s with
      heap := { s.heap with zone := { s.heap.zone with mark := s.heap.zone.offset } } }
  | .closure kind size => (allocate m s size kind).map fun r => { r.2 with clsptr := r.1 }
  | .environment kind size => (allocate m s size kind).map fun r => { r.2 with envptr := r.1 }
  | .newAddressTable => some { s with table := 0 }
  | .addAddressTable name offset type alloctype =>
      (allocate m s 40 (if alloctype = 1 then .heap else .zone)).map fun r => { r.2 with
        heap := { r.2.heap with
          bytes := storeEntry m r.2.heap.bytes r.1 name offset type r.2.table }
        table := r.1 }
  | .fillClosure func => some { s with heap := { s.heap with
      bytes := store (store (store s.heap.bytes s.clsptr 8 s.table) (s.clsptr + 8) 8 s.envptr)
        (s.clsptr + 16) 8 func } }
  | .zonePtrSetSize => some { s with heap := { s.heap with
      bytes := store s.heap.bytes (s.clsptr - 8) 8 (zoneMarkSize s.heap.zone) } }

/-! ## The property -/

def total (blocks : List Reserved) : ℕ := (blocks.map Reserved.length).sum

/-- Every block begins where the one allocated before it ends. -/
def Adjacent (blocks : List Reserved) : Prop :=
  blocks.IsChain fun newer older => newer.start = older.start + older.length

/-- The size stands in the header of the closure structure, and it is the size of the
adjacent blocks that hold what was asked for. -/
structure Covered (s : State) : Prop where
  header : ∃ b, s.blocks.getLast? = some b ∧ b.start ≤ s.clsptr - 8 ∧
    s.clsptr - 8 + 8 ≤ b.start + b.header
  enough : ∀ b ∈ s.blocks, b.requested + b.header ≤ b.length
  adjacent : Adjacent s.blocks
  size : load s.heap.bytes (s.clsptr - 8) 8 = total s.blocks

theorem adjacent_cons {b c : Reserved} {blocks : List Reserved} :
    Adjacent (c :: b :: blocks) ↔ c.start = b.start + b.length ∧ Adjacent (b :: blocks) :=
  List.isChain_cons_cons

theorem total_cons (b : Reserved) (blocks : List Reserved) :
    total (b :: blocks) = b.length + total blocks := by
  simp [total]

/-- Adjacent blocks fill the range from the first byte of the oldest one to the end of the
newest one. -/
theorem adjacent_spec {c : Reserved} {blocks : List Reserved} (ha : Adjacent (c :: blocks))
    {b : Reserved} (hb : (c :: blocks).getLast? = some b) :
    b.start + total (c :: blocks) = c.start + c.length ∧
      ∀ x, b.start ≤ x ∧ x < c.start + c.length ↔
        ∃ d ∈ c :: blocks, d.start ≤ x ∧ x < d.start + d.length := by
  induction blocks generalizing c with
  | nil =>
    have hbc : c = b := by simpa using hb
    subst hbc
    simp [total]
  | cons d blocks ih =>
    obtain ⟨hcd, had⟩ := adjacent_cons.mp ha
    rw [List.getLast?_cons_cons] at hb
    obtain ⟨htotal, hcover⟩ := ih had hb
    have hle : b.start ≤ d.start + d.length := by omega
    constructor
    · rw [total_cons]
      omega
    · intro x
      rw [List.exists_mem_cons_iff, ← hcover x]
      omega

/-- Copying the recorded size from the closure's header on copies its blocks and nothing
else. -/
theorem copied_iff {blocks : List Reserved} (ha : Adjacent blocks) {b : Reserved}
    (hb : blocks.getLast? = some b) (x : ℕ) :
    b.start ≤ x ∧ x < b.start + total blocks ↔
      ∃ c ∈ blocks, c.start ≤ x ∧ x < c.start + c.length := by
  cases blocks with
  | nil => simp at hb
  | cons c blocks =>
    obtain ⟨htotal, hcover⟩ := adjacent_spec ha hb
    rw [htotal, hcover]

/-! ## One allocation -/

/-- What holds of a zone in a real process: no segment has 2^63 bytes, and the offset passes
the size by less than the rounding. -/
structure Real (zone : Zone) : Prop where
  size_lt : zone.size < 2 ^ 63
  offset_lt : zone.offset < zone.size + 32

/-- `malloc` refuses more than `PTRDIFF_MAX` bytes. -/
def Machine.Honest (m : Machine) : Prop := ∀ k n, 2 ^ 63 ≤ n → m.malloc k n = none

/-- The zone has room for a request and its header. -/
def Room (zone : Zone) (size : ℕ) : Prop := zone.offset + (size + 32) < zone.size

instance (zone : Zone) (size : ℕ) : Decidable (Room zone size) :=
  inferInstanceAs (Decidable (_ < _))

theorem blockSize_spec (size : ℕ) : size + 32 ≤ blockSize size ∧ blockSize size ≤ size + 63 := by
  simp only [blockSize]
  omega

/-- The request is below 4 GiB, and the system does not serve a segment of 2^63 bytes. -/
def Served (h : Heap) : Operation → Prop
  | .malloc size _ _ => size + 64 ≤ 2 ^ 32 ∧
      (Room h.zone size ∨ max (size + 32) h.zone.size * 2 < 2 ^ 63)
  | .reset => True

/-- Whatever a zone went through, its state is that of a real process. -/
theorem real_run {size : ℕ} {memory : Option ℕ} {bytes : Memory} {os : List Operation} {h : Heap}
    (hsize : size < 2 ^ 63) (hok : Meets Served Zones.step (create size memory bytes) os)
    (hr : run Zones.step (create size memory bytes) os = some h) : Real h.zone := by
  refine @run_invariant _ _ Zones.step Served (fun h => Real h.zone) ?_ _ _ _ ?_ hok hr
  · intro g o g' hg hserved hstep
    have h1 := hg.size_lt
    have h2 := hg.offset_lt
    cases o with
    | reset =>
      obtain rfl := Option.some.inj hstep
      exact ⟨h1, Nat.lt_add_left _ (Nat.succ_pos 31)⟩
    | malloc size memory bytes =>
      obtain rfl := Option.some.inj hstep
      obtain ⟨hreq, hfit⟩ := hserved
      have hblock := blockSize_spec size
      have hwrap : wrap (size + 32) = size + 32 := Nat.mod_eq_of_lt (by omega)
      have hsum : wrap (g.zone.offset + (size + 32)) = g.zone.offset + (size + 32) :=
        Nat.mod_eq_of_lt (by omega)
      have hlength := roundUp_eq_blockSize hreq
      simp only [llvmZoneMalloc_eq, hsum, Room] at hfit ⊢
      split
      case isTrue hlt =>
        have hoffset : wrap (g.zone.offset + blockSize size) = g.zone.offset + blockSize size :=
          Nat.mod_eq_of_lt (by omega)
        refine ⟨h1, ?_⟩
        simp only [carve, hlength, hoffset]
        omega
      case isFalse hge =>
        have hdouble : wrap (max (wrap (size + 32)) g.zone.size * 2) =
            max (size + 32) g.zone.size * 2 := by
          rw [hwrap]
          exact Nat.mod_eq_of_lt (by omega)
        have hoffset : wrap (blockSize size) = blockSize size := Nat.mod_eq_of_lt (by omega)
        have hext := extend_spec g.zone (wrap (size + 32)) memory
        rw [hdouble] at hext
        have hsmall := hfit.resolve_left hge
        constructor
        · simp only [carve, hext]
          omega
        · simp only [carve, hext, hlength, Nat.zero_add, hoffset]
          omega
  · have hcreate : wrap size = size := Nat.mod_eq_of_lt (by omega)
    refine ⟨?_, Nat.lt_add_left _ (Nat.succ_pos 31)⟩
    simp only [create, llvmZoneCreate, hcreate]
    split
    · exact hsize
    · decide

/-- A zone that has room keeps its segment; another one starts at offset 0 of a new one. -/
theorem allocate_zone {m : Machine} {s s' : State} {size p : ℕ} (hz : Real s.heap.zone)
    (hsize : size + 64 ≤ 2 ^ 32) (h : allocate m s size .zone = some (p, s')) :
    ∃ memory start, s'.heap.zone.memory = some memory ∧
      s'.heap.zone.mark = s.heap.zone.mark ∧ p = start + 32 ∧
      s'.blocks = ⟨start, 32, blockSize size, size⟩ :: s.blocks ∧
      s'.heap.zone.offset + memory = start + blockSize size ∧
      (Room s.heap.zone size → start = memory + s.heap.zone.offset ∧
        s.heap.zone.memory = some memory ∧ s'.heap.zone.size = s.heap.zone.size) ∧
      (¬ Room s.heap.zone size → start = memory ∧
        m.malloc s.blocks.length (max 1024 (max (size + 32) s.heap.zone.size * 2)) = some memory ∧
        s'.heap.zone.size = max 1024 (max (size + 32) s.heap.zone.size * 2)) := by
  have hlength := roundUp_eq_blockSize hsize
  have hblock := blockSize_spec size
  have hwrap : wrap (size + 32) = size + 32 := Nat.mod_eq_of_lt (by omega)
  have hroom : wrap (s.heap.zone.offset + (size + 32)) < s.heap.zone.size ↔
      Room s.heap.zone size := by
    have h1 := hz.size_lt
    have h2 := hz.offset_lt
    rw [Room, wrap, Nat.mod_eq_of_lt (by omega)]
  have hdouble : wrap (max (wrap (size + 32)) s.heap.zone.size * 2) =
      max (size + 32) s.heap.zone.size * 2 := by
    have h1 := hz.size_lt
    rw [hwrap]
    exact Nat.mod_eq_of_lt (by omega)
  by_cases hr : Room s.heap.zone size
  · have hmalloc (memory : Option ℕ) : llvmZoneMalloc s.heap size memory =
        carve s.heap size (wrap (size + 32)) := by
      rw [llvmZoneMalloc_eq, if_pos (hroom.mpr hr)]
    have hoffset : wrap (s.heap.zone.offset + blockSize size) =
        s.heap.zone.offset + blockSize size := by
      have h1 := hz.size_lt
      have h2 := hz.offset_lt
      exact Nat.mod_eq_of_lt (by omega)
    simp only [allocate, hmalloc, carve, hlength, hoffset, LLVM_ZONE_ALIGN] at h
    cases hmem : s.heap.zone.memory with
    | none => simp [hmem] at h
    | some memory =>
      simp only [hmem, Option.some.injEq, Prod.mk.injEq] at h
      obtain ⟨rfl, rfl⟩ := h
      exact ⟨memory, _, rfl, rfl, rfl, rfl, by simp only; omega, fun _ => ⟨rfl, rfl, rfl⟩,
        fun hn => absurd hr hn⟩
  · obtain ⟨hoffset, -, hnewsize⟩ := extend_spec s.heap.zone (wrap (size + 32)) none
    have hmalloc (memory : Option ℕ) : llvmZoneMalloc s.heap size memory =
        carve { s.heap with zone := extend s.heap.zone (wrap (size + 32)) memory, carved := [] }
          size (wrap (size + 32)) := by
      rw [llvmZoneMalloc_eq, if_neg (fun hlt => hr (hroom.mp hlt))]
    have hext (memory : Option ℕ) := extend_spec s.heap.zone (wrap (size + 32)) memory
    have hmark (memory : Option ℕ) :
        (extend s.heap.zone (wrap (size + 32)) memory).mark = s.heap.zone.mark := by
      simp only [extend, llvmZoneReset]
      split <;> rfl
    rw [hdouble] at hnewsize
    simp only [hdouble] at hext
    simp only [allocate, hmalloc, carve, hlength, LLVM_ZONE_ALIGN, hext] at h
    cases hmem : m.malloc s.blocks.length (max 1024 (max (size + 32) s.heap.zone.size * 2)) with
    | none => simp [hmem] at h
    | some memory =>
      simp only [hmem, Option.some.injEq, Prod.mk.injEq] at h
      obtain ⟨rfl, rfl⟩ := h
      refine ⟨memory, memory, rfl, hmark _, rfl, rfl, ?_, fun hp => absurd hp hr,
        fun _ => ⟨rfl, rfl, rfl⟩⟩
      have hlt : wrap (0 + blockSize size) = blockSize size := by
        rw [wrap, Nat.zero_add]
        exact Nat.mod_eq_of_lt (by omega)
      show wrap (0 + blockSize size) + memory = memory + blockSize size
      omega

/-! ## The account of a sequence of allocations -/

/-- `lost` sums the offsets at which the zone was extended since the mark. -/
structure Account (mark lost : ℕ) (s : State) : Prop where
  real : Real s.heap.zone
  mark_eq : s.heap.zone.mark = mark
  balance : s.heap.zone.offset + lost = mark + total s.blocks
  bound : lost ≤ 2 * s.heap.zone.size

/-- Where nothing is lost the newest block ends at the offset. -/
def Ends (s : State) : Prop :=
  ∀ b ∈ s.blocks.head?, ∃ memory, s.heap.zone.memory = some memory ∧
    s.heap.zone.offset + memory = b.start + b.length

/-- No allocation of the sequence finds the zone full. -/
def Fits (offset size : ℕ) : List ℕ → Prop
  | [] => True
  | r :: rs => offset + (r + 32) < size ∧ Fits (offset + blockSize r) size rs

/-- One allocation keeps the account; what it adds to the loss is the offset of a full
zone. -/
theorem account_allocate {m : Machine} (hm : m.Honest) {mark lost : ℕ} {s s' : State}
    {size p : ℕ} (ha : Account mark lost s) (hsize : size + 64 ≤ 2 ^ 32)
    (h : allocate m s size .zone = some (p, s')) :
    ∃ start, p = start + 32 ∧ s'.blocks = ⟨start, 32, blockSize size, size⟩ :: s.blocks ∧
      0 < s'.heap.zone.offset ∧ Ends s' ∧
      (Room s.heap.zone size → Account mark lost s' ∧
        s'.heap.zone.offset = s.heap.zone.offset + blockSize size ∧
        s'.heap.zone.size = s.heap.zone.size ∧
        (Ends s → Adjacent s.blocks → Adjacent s'.blocks)) ∧
      (¬ Room s.heap.zone size → Account mark (lost + s.heap.zone.offset) s' ∧
        s'.heap.zone.offset = blockSize size ∧
        s'.heap.zone.size = max 1024 (max (size + 32) s.heap.zone.size * 2)) := by
  obtain ⟨memory, start, hmem, hmark, hp, hblocks, hend, hroom, hfull⟩ :=
    allocate_zone ha.real hsize h
  have hblock := blockSize_spec size
  have htotal : total s'.blocks = blockSize size + total s.blocks := by
    rw [hblocks, total_cons]
  have h1 := ha.real.size_lt
  have h2 := ha.real.offset_lt
  have h3 := ha.balance
  have h4 := ha.bound
  refine ⟨start, hp, hblocks, ?_, ?_, fun hr => ?_, fun hr => ?_⟩
  · by_cases hr : Room s.heap.zone size
    · have := (hroom hr).1
      omega
    · have := (hfull hr).1
      omega
  · intro b hb
    rw [hblocks] at hb
    obtain rfl := Option.some.inj hb
    exact ⟨memory, hmem, hend⟩
  · obtain ⟨hstart, hmem', hsame⟩ := hroom hr
    have hoffset : s'.heap.zone.offset = s.heap.zone.offset + blockSize size := by omega
    refine ⟨⟨⟨by omega, ?_⟩, hmark.trans ha.mark_eq, by omega, by omega⟩, hoffset, hsame, ?_⟩
    · simp only [Room] at hr
      omega
    · intro hends hadj
      rw [hblocks]
      cases hb : s.blocks with
      | nil => exact List.IsChain.singleton _
      | cons b blocks =>
        rw [adjacent_cons, ← hb]
        refine ⟨?_, hadj⟩
        obtain ⟨memory', hmemory, hlast⟩ := hends b (by rw [hb]; rfl)
        have hsome : memory' = memory := Option.some.inj (hmemory.symm.trans hmem')
        show start = b.start + b.length
        omega
  · obtain ⟨hstart, hmalloc, hnew⟩ := hfull hr
    have hoffset : s'.heap.zone.offset = blockSize size := by omega
    have hlt : max 1024 (max (size + 32) s.heap.zone.size * 2) < 2 ^ 63 := by
      by_contra hge
      rw [hm _ _ (not_lt.mp hge)] at hmalloc
      cases hmalloc
    refine ⟨⟨⟨by omega, by omega⟩, hmark.trans ha.mark_eq, by omega, by omega⟩, hoffset, hnew⟩

/-- The states agree on what the account is about. -/
structure SameBlocks (s s' : State) : Prop where
  zone : s'.heap.zone = s.heap.zone
  blocks : s'.blocks = s.blocks

theorem Account.congr {mark lost : ℕ} {s s' : State} (ha : Account mark lost s)
    (h : SameBlocks s s') : Account mark lost s' := by
  refine ⟨?_, ?_, ?_, ?_⟩
  · rw [h.zone]
    exact ha.real
  · rw [h.zone]
    exact ha.mark_eq
  · rw [h.zone, h.blocks]
    exact ha.balance
  · rw [h.zone]
    exact ha.bound

theorem Ends.congr {s s' : State} (he : Ends s) (h : SameBlocks s s') : Ends s' := by
  rw [Ends, h.zone, h.blocks]
  exact he

/-- Zone allocations of the given sizes, with anything between them that leaves the zone
alone. -/
def Allocated (m : Machine) : State → List ℕ → State → Prop
  | s, [], s' => SameBlocks s s'
  | s, r :: rs, s' => ∃ p t u, allocate m s r .zone = some (p, t) ∧ SameBlocks t u ∧
      Allocated m u rs s'

/-- Behind the first block nothing more is lost just when the zone is never extended. -/
theorem account_allocated {m : Machine} (hm : m.Honest) {mark lost : ℕ} {s s' : State}
    {rs : List ℕ} (hrs : ∀ r ∈ rs, r + 64 ≤ 2 ^ 32) (ha : Account mark lost s)
    (hpos : 0 < s.heap.zone.offset) (hends : Ends s) (h : Allocated m s rs s') :
    ∃ lost', Account mark lost' s' ∧ lost ≤ lost' ∧
      (lost' = lost ↔ Fits s.heap.zone.offset s.heap.zone.size rs) ∧
      (Fits s.heap.zone.offset s.heap.zone.size rs → Adjacent s.blocks → Adjacent s'.blocks) ∧
      ∀ b ∈ s'.blocks, b ∈ s.blocks ∨ b.requested + b.header ≤ b.length := by
  induction rs generalizing s lost with
  | nil =>
    have hsame : SameBlocks s s' := h
    refine ⟨lost, ha.congr hsame, le_rfl, iff_of_true rfl trivial, fun _ hadj => ?_, fun b hb => ?_⟩
    · rw [hsame.blocks]
      exact hadj
    · rw [hsame.blocks] at hb
      exact .inl hb
  | cons r rs ih =>
    obtain ⟨p, t, u, halloc, hsame, hrest⟩ := h
    rw [List.forall_mem_cons] at hrs
    obtain ⟨start, -, hblocks, hpos', hends', hroom, hfull⟩ := account_allocate hm ha hrs.1 halloc
    have henough (b : Reserved) (hb : b ∈ u.blocks) :
        b ∈ s.blocks ∨ b.requested + b.header ≤ b.length := by
      rw [hsame.blocks, hblocks, List.mem_cons] at hb
      cases hb with
      | inl hb =>
        subst hb
        exact .inr (blockSize_spec r).1
      | inr hb => exact .inl hb
    rw [← hsame.zone] at hpos'
    by_cases hr : Room s.heap.zone r
    · obtain ⟨hacc, hoffset, hsize, hadj⟩ := hroom hr
      obtain ⟨lost', hacc', hle, hiff, hadj', hmem⟩ :=
        ih hrs.2 (hacc.congr hsame) hpos' (hends'.congr hsame) hrest
      have hfits : Fits s.heap.zone.offset s.heap.zone.size (r :: rs) ↔
          Fits u.heap.zone.offset u.heap.zone.size rs := by
        rw [hsame.zone, hoffset, hsize]
        exact and_iff_right hr
      rw [hfits]
      refine ⟨lost', hacc', hle, hiff, fun hf ha' => hadj' hf ?_, fun b hb => ?_⟩
      · rw [hsame.blocks]
        exact hadj hends ha'
      · cases hmem b hb with
        | inl hb => exact henough b hb
        | inr hb => exact .inr hb
    · obtain ⟨hacc, -, -⟩ := hfull hr
      obtain ⟨lost', hacc', hle, -, -, hmem⟩ :=
        ih hrs.2 (hacc.congr hsame) hpos' (hends'.congr hsame) hrest
      have hnot : ¬ Fits s.heap.zone.offset s.heap.zone.size (r :: rs) := fun hf => hr hf.1
      refine ⟨lost', hacc', by omega, iff_of_false (by omega) hnot, fun hf => absurd hf hnot,
        fun b hb => ?_⟩
      cases hmem b hb with
      | inl hb => exact henough b hb
      | inr hb => exact .inr hb

/-! ## The emitted sequence -/

/-- Every allocation adds one block. -/
theorem allocate_blocks {m : Machine} {s s' : State} {size p : ℕ} {kind : Kind}
    (h : allocate m s size kind = some (p, s')) :
    ∃ b, s'.blocks = b :: s.blocks ∧ p = b.start + b.header ∧ b.requested = size ∧
      s'.clsptr = s.clsptr ∧ (kind = .zone → b.header = 32 ∧
        b.length = roundUp (wrap (size + 32))) ∧ (kind ≠ .zone → b.header = 0) := by
  cases kind with
  | heap =>
    simp only [allocate, Option.map_eq_some_iff, Prod.mk.injEq] at h
    obtain ⟨q, -, rfl, rfl⟩ := h
    exact ⟨_, rfl, rfl, rfl, rfl, (fun hk => by cases hk), fun _ => rfl⟩
  | stack =>
    simp only [allocate, Option.some.injEq, Prod.mk.injEq] at h
    obtain ⟨rfl, rfl⟩ := h
    exact ⟨_, rfl, rfl, rfl, rfl, (fun hk => by cases hk), fun _ => rfl⟩
  | zone =>
    have hlength (memory : Option ℕ) : ∀ b ∈ (llvmZoneMalloc s.heap size memory).carved.head?,
        b.length = roundUp (wrap (size + 32)) := by
      rw [llvmZoneMalloc_eq]
      split
      · intro b hb
        obtain rfl := Option.some.inj hb
        rfl
      · intro b hb
        obtain rfl := Option.some.inj hb
        rfl
    simp only [allocate] at h
    split at h
    case h_1 memory b bs hmem hcarved =>
      simp only [Option.some.injEq, Prod.mk.injEq] at h
      obtain ⟨rfl, rfl⟩ := h
      refine ⟨_, rfl, rfl, rfl, rfl, fun _ => ⟨rfl, ?_⟩, fun hk => absurd rfl hk⟩
      apply hlength
      rw [hcarved]
      rfl
    case h_2 => cases h

/-- The entries add blocks in front and leave the closure's pointer alone. -/
theorem run_entries {m : Machine} {kind : Kind} {env : List Variable} {ptridx : ℕ} {s s' : State}
    (h : run (step m) s (entries kind ptridx env) = some s') :
    s'.clsptr = s.clsptr ∧ ∃ blocks, s'.blocks = blocks ++ s.blocks := by
  induction env generalizing s ptridx with
  | nil =>
    obtain rfl := Option.some.inj h
    exact ⟨rfl, [], rfl⟩
  | cons e env ih =>
    obtain ⟨t, ht, hrest⟩ := run_cons_eq_some.mp h
    simp only [step, Option.map_eq_some_iff] at ht
    obtain ⟨⟨p, u⟩, halloc, rfl⟩ := ht
    obtain ⟨b, hblocks, -, -, hclsptr, -⟩ := allocate_blocks halloc
    obtain ⟨hclsptr', blocks, hblocks'⟩ := ih hrest
    refine ⟨hclsptr'.trans hclsptr, blocks ++ [b], hblocks'.trans ?_⟩
    show blocks ++ u.blocks = blocks ++ [b] ++ s.blocks
    rw [hblocks, List.append_assoc]
    rfl

theorem run_entries_zone {m : Machine} {env : List Variable} {ptridx : ℕ} {s s' : State}
    (h : run (step m) s (entries .zone ptridx env) = some s') :
    Allocated m s (List.replicate env.length 40) s' := by
  induction env generalizing s ptridx with
  | nil =>
    obtain rfl := Option.some.inj h
    exact ⟨rfl, rfl⟩
  | cons e env ih =>
    obtain ⟨t, ht, hrest⟩ := run_cons_eq_some.mp h
    simp only [step, Option.map_eq_some_iff] at ht
    obtain ⟨⟨p, u⟩, halloc, rfl⟩ := ht
    refine ⟨p, u, _, halloc, ?_, ih hrest⟩
    exact ⟨rfl, rfl⟩

/-- The state in which the closure structure is allocated. -/
def marked (h : Heap) : State :=
  start { h with zone := { h.zone with mark := h.zone.offset } }

/-- What a completed sequence went through. -/
theorem run_makeClosureenv {m : Machine} {kind : Kind} {func : ℕ} {env : List Variable}
    {instructions : List Instruction} (he : makeClosureenv kind func env = some instructions)
    {h : Heap} {s : State} (hr : run (step m) (start h) instructions = some s) :
    ∃ p t q u v, allocate m (marked h) 24 kind = some (p, t) ∧
      allocate m { t with clsptr := p } (8 * env.length) kind = some (q, u) ∧
      run (step m) { u with envptr := q, table := 0 } (entries kind 0 env) = some v ∧
      SameBlocks v s ∧ s.clsptr = v.clsptr ∧
      load s.heap.bytes (s.clsptr - 8) 8 = zoneMarkSize s.heap.zone := by
  have hthree : pointersSize 3 = some 24 := rfl
  simp only [makeClosureenv, hthree, Option.bind_some, Option.map_eq_some_iff] at he
  obtain ⟨size, hsize, rfl⟩ := he
  have hsize' : size = 8 * env.length := by
    rw [pointersSize] at hsize
    split at hsize
    · cases hsize
    · exact (Option.some.inj hsize).symm
  subst hsize'
  rw [List.append_assoc] at hr
  simp only [List.cons_append, List.nil_append] at hr
  obtain ⟨s₁, h₁, hr⟩ := run_cons_eq_some.mp hr
  obtain rfl := Option.some.inj h₁
  obtain ⟨s₂, h₂, hr⟩ := run_cons_eq_some.mp hr
  simp only [step, Option.map_eq_some_iff] at h₂
  obtain ⟨⟨p, t⟩, hclosure, rfl⟩ := h₂
  obtain ⟨s₃, h₃, hr⟩ := run_cons_eq_some.mp hr
  simp only [step, Option.map_eq_some_iff] at h₃
  obtain ⟨⟨q, u⟩, henvironment, rfl⟩ := h₃
  obtain ⟨s₄, h₄, hr⟩ := run_cons_eq_some.mp hr
  obtain rfl := Option.some.inj h₄
  rw [run_append, Option.bind_eq_some_iff] at hr
  obtain ⟨v, hentries, hr⟩ := hr
  obtain rfl := Option.some.inj hr
  refine ⟨p, t, q, u, v, hclosure, henvironment, hentries, ⟨rfl, rfl⟩, rfl, ?_⟩
  exact load_store (Nat.mod_lt _ (by decide))

/-- The requests of the sequence in a zone. -/
def requests (env : List Variable) : List ℕ :=
  24 :: 8 * env.length :: List.replicate env.length 40

/-- The closure is made in a zone, the environment with its header stays below 4 GiB, and
no block makes the zone grow, or only the first one in an empty zone of at most 56 bytes. -/
def Roomy (kind : Kind) (env : List Variable) (zone : Zone) : Prop :=
  kind = .zone ∧ 8 * env.length + 64 ≤ 2 ^ 32 ∧
    (Fits zone.offset zone.size (requests env) ∨
      zone.offset = 0 ∧ zone.size ≤ 56 ∧ Fits 0 1024 (requests env))

/-- The difference of the offsets is the size of the blocks just when nothing was lost. -/
theorem zoneMarkSize_eq_iff {mark lost : ℕ} {s : State} (ha : Account mark lost s)
    (hmark : mark < 2 ^ 64) : zoneMarkSize s.heap.zone = total s.blocks ↔ lost = 0 := by
  have h1 := ha.balance
  have h2 := ha.bound
  have h3 := ha.real.size_lt
  have h4 := ha.real.offset_lt
  rw [zoneMarkSize, ha.mark_eq, wrap]
  omega

theorem small_requests {env : List Variable} (hsize : 8 * env.length + 64 ≤ 2 ^ 32) :
    ∀ r ∈ 8 * env.length :: List.replicate env.length 40, r + 64 ≤ 2 ^ 32 := by
  intro r hr
  cases List.mem_cons.mp hr with
  | inl hr =>
    rw [hr]
    exact hsize
  | inr hr =>
    rw [List.eq_of_mem_replicate hr]
    decide

/-- The block of the closure itself is the oldest one, and the size is stored in its header. -/
theorem exists_closure_block {m : Machine} {env : List Variable} {p q start : ℕ} {t u v s : State}
    (hblocks : t.blocks = [⟨start, 32, blockSize 24, 24⟩]) (hp : p = start + 32)
    (henvironment : allocate m { t with clsptr := p } (8 * env.length) .zone = some (q, u))
    (hentries : run (step m) { u with envptr := q, table := 0 } (entries .zone 0 env) = some v)
    (hsame : SameBlocks v s) (hclsptr : s.clsptr = v.clsptr) :
    ∃ b, s.blocks.getLast? = some b ∧ b.start ≤ s.clsptr - 8 ∧
      s.clsptr - 8 + 8 ≤ b.start + b.header := by
  obtain ⟨b, hu, -, -, hcls, -⟩ := allocate_blocks henvironment
  obtain ⟨hcls', blocks, hv⟩ := run_entries hentries
  have hptr : s.clsptr = start + 32 := hclsptr.trans (hcls'.trans (hcls.trans hp))
  refine ⟨⟨start, 32, blockSize 24, 24⟩, ?_, ?_, ?_⟩
  · have hu' : u.blocks = [b, ⟨start, 32, blockSize 24, 24⟩] := by
      rw [hu]
      exact congrArg (b :: ·) hblocks
    rw [hsame.blocks, hv]
    show (blocks ++ u.blocks).getLast? = _
    rw [hu', List.getLast?_append]
    rfl
  · simp only
    omega
  · simp only
    omega

/-- Blocks that hold what was requested are covered just when nothing was lost between them. -/
theorem covered_iff_adjacent {mark lost : ℕ} {v s : State} (ha : Account mark lost v)
    (hmark : mark < 2 ^ 64) (hsame : SameBlocks v s)
    (hlast : ∃ b, s.blocks.getLast? = some b ∧ b.start ≤ s.clsptr - 8 ∧
      s.clsptr - 8 + 8 ≤ b.start + b.header)
    (hload : load s.heap.bytes (s.clsptr - 8) 8 = zoneMarkSize s.heap.zone)
    (hholds : ∀ b ∈ v.blocks, b.requested + b.header ≤ b.length) :
    Covered s ↔ lost = 0 ∧ Adjacent v.blocks := by
  have hiff := zoneMarkSize_eq_iff (ha.congr hsame) hmark
  constructor
  · intro hc
    refine ⟨hiff.mp (hload.symm.trans hc.size), ?_⟩
    rw [← hsame.blocks]
    exact hc.adjacent
  · rintro ⟨hlost, hadj⟩
    refine ⟨hlast, fun b hb => ?_, ?_, hload.trans (hiff.mpr hlost)⟩
    · rw [hsame.blocks] at hb
      exact hholds b hb
    · rw [hsame.blocks]
      exact hadj

/-- In a zone the blocks of a closure are covered just when none of them, except perhaps the
first one in an empty zone, makes the zone grow. -/
theorem covered_zone_iff {m : Machine} (hm : m.Honest) {env : List Variable} {h : Heap}
    (hz : Real h.zone) {p q : ℕ} {t u v s : State}
    (hclosure : allocate m (marked h) 24 .zone = some (p, t))
    (henvironment : allocate m { t with clsptr := p } (8 * env.length) .zone = some (q, u))
    (hentries : run (step m) { u with envptr := q, table := 0 } (entries .zone 0 env) = some v)
    (hsame : SameBlocks v s) (hclsptr : s.clsptr = v.clsptr)
    (hload : load s.heap.bytes (s.clsptr - 8) 8 = zoneMarkSize s.heap.zone)
    (hsize : 8 * env.length + 64 ≤ 2 ^ 32) :
    Covered s ↔ Fits h.zone.offset h.zone.size (requests env) ∨
      h.zone.offset = 0 ∧ h.zone.size ≤ 56 ∧ Fits 0 1024 (requests env) := by
  have hstart : Account h.zone.offset 0 (marked h) :=
    ⟨⟨hz.size_lt, hz.offset_lt⟩, rfl, rfl, Nat.zero_le _⟩
  obtain ⟨start, hp, hblocks, hpos, hends, hroom, hfull⟩ :=
    account_allocate hm hstart (by decide) hclosure
  replace hblocks : t.blocks = [⟨start, 32, blockSize 24, 24⟩] := hblocks
  have hrest : Allocated m { t with clsptr := p }
      (8 * env.length :: List.replicate env.length 40) v := by
    refine ⟨q, u, _, henvironment, ?_, run_entries_zone hentries⟩
    exact ⟨rfl, rfl⟩
  have hsmall := small_requests hsize
  have hlast := exists_closure_block hblocks hp henvironment hentries hsame hclsptr
  have hone : Adjacent t.blocks := by
    rw [hblocks]
    exact List.IsChain.singleton _
  have hfirst : ∀ b ∈ t.blocks, b.requested + b.header ≤ b.length := by
    intro b hb
    rw [hblocks, List.mem_singleton] at hb
    rw [hb]
    exact (blockSize_spec 24).1
  have hchain {lost : ℕ} (ha : Account h.zone.offset lost t) :=
    @account_allocated m hm _ lost { t with clsptr := p } v _ hsmall (ha.congr ⟨rfl, rfl⟩) hpos
      hends hrest
  have hcovered {lost : ℕ} (ha : Account h.zone.offset lost v)
      (hmem : ∀ b ∈ v.blocks, b ∈ t.blocks ∨ b.requested + b.header ≤ b.length) :
      Covered s ↔ lost = 0 ∧ Adjacent v.blocks := by
    have h1 := hz.size_lt
    have h2 := hz.offset_lt
    exact covered_iff_adjacent ha (by omega) hsame hlast hload fun b hb =>
      (hmem b hb).elim (hfirst b) id
  by_cases hr : Room (marked h).heap.zone 24
  · obtain ⟨hacc, hoffset, hsize', -⟩ := hroom hr
    obtain ⟨lost, ha, -, hiff, hadj, hmem⟩ := hchain hacc
    have hfits : Fits h.zone.offset h.zone.size (requests env) ↔
        Fits t.heap.zone.offset t.heap.zone.size
          (8 * env.length :: List.replicate env.length 40) := by
      rw [hoffset, hsize']
      exact and_iff_right hr
    have hbig : ¬ h.zone.size ≤ 56 := by
      have hr' : h.zone.offset + (24 + 32) < h.zone.size := hr
      omega
    rw [hcovered ha hmem, hfits]
    constructor
    · rintro ⟨hlost, -⟩
      exact .inl (hiff.mp hlost)
    · intro hor
      have hf := hor.resolve_right fun hright => hbig hright.2.1
      exact ⟨hiff.mpr hf, hadj hf hone⟩
  · obtain ⟨hacc, hoffset, hsize'⟩ := hfull hr
    obtain ⟨lost, ha, hle, hiff, hadj, hmem⟩ := hchain hacc
    have hnot : ¬ Fits h.zone.offset h.zone.size (requests env) := fun hf => hr hf.1
    have hr' : ¬ h.zone.offset + (24 + 32) < h.zone.size := hr
    have hmarked : (marked h).heap.zone.offset = h.zone.offset := rfl
    have hmarked' : (marked h).heap.zone.size = h.zone.size := rfl
    rw [hmarked, Nat.zero_add] at hle hiff
    rw [hmarked'] at hsize'
    have hfits (hempty : h.zone.offset = 0) : Fits 0 1024 (requests env) ↔
        Fits t.heap.zone.offset t.heap.zone.size
          (8 * env.length :: List.replicate env.length 40) := by
      have hnew : t.heap.zone.size = 1024 := by omega
      rw [hoffset, hnew]
      exact and_iff_right (by decide)
    rw [hcovered ha hmem]
    constructor
    · rintro ⟨hlost, -⟩
      have hempty : h.zone.offset = 0 := by omega
      exact .inr ⟨hempty, by omega, (hfits hempty).mpr (hiff.mp (by omega))⟩
    · intro hor
      obtain ⟨hempty, -, hf⟩ := hor.resolve_left hnot
      have hf' := (hfits hempty).mp hf
      exact ⟨(hiff.mpr hf').trans hempty, hadj hf' hone⟩

/-- The size recorded for a closure covers exactly its own blocks just when the zone has room
for all of them. -/
theorem covered_iff {m : Machine} (hm : m.Honest) {kind : Kind} {func : ℕ} {env : List Variable}
    {instructions : List Instruction} (he : makeClosureenv kind func env = some instructions)
    {h : Heap} (hz : Real h.zone) {s : State}
    (hr : run (step m) (start h) instructions = some s) : Covered s ↔ Roomy kind env h.zone := by
  obtain ⟨p, t, q, u, v, hclosure, henvironment, hentries, hsame, hclsptr, hload⟩ :=
    run_makeClosureenv he hr
  obtain ⟨b, ht, hp, -, -, -, hbare⟩ := allocate_blocks hclosure
  obtain ⟨c, hu, -, hrequested, hcls, hzone, -⟩ := allocate_blocks henvironment
  obtain ⟨hcls', blocks, hv⟩ := run_entries hentries
  have hblocks : s.blocks = blocks ++ [c, b] := by
    have hu' : u.blocks = [c, b] := by
      rw [hu]
      exact congrArg (c :: ·) ht
    rw [hsame.blocks, hv]
    exact congrArg (blocks ++ ·) hu'
  have hneed (hc : Covered s) : kind = .zone ∧ 8 * env.length + 64 ≤ 2 ^ 32 := by
    have hkind : kind = .zone := by
      by_contra hk
      obtain ⟨d, hd, hfrom, hin⟩ := hc.header
      rw [hblocks, List.getLast?_append] at hd
      have hbd : b = d := Option.some.inj hd
      subst hbd
      have hptr : s.clsptr = p := hclsptr.trans (hcls'.trans hcls)
      have hheader := hbare hk
      omega
    obtain ⟨hheader, hlength⟩ := hzone hkind
    have hlong := hc.enough c (by rw [hblocks]; simp)
    rw [hlength, hheader, hrequested] at hlong
    exact ⟨hkind, (le_roundUp_iff _).mp hlong⟩
  constructor
  · intro hc
    obtain ⟨hkind, hsize⟩ := hneed hc
    subst hkind
    exact ⟨rfl, hsize, (covered_zone_iff hm hz hclosure henvironment hentries hsame hclsptr hload
      hsize).mp hc⟩
  · rintro ⟨hkind, hsize, hfits⟩
    subst hkind
    exact (covered_zone_iff hm hz hclosure henvironment hentries hsame hclsptr hload
      hsize).mpr hfits

/-- A machine whose `malloc` serves requests below 2^63 at `base`. -/
def fixedMachine (base : ℕ) : Machine where
  malloc _ n := if n < 2 ^ 63 then some base else none
  alloca _ := base
  text _ := base

theorem fixedMachine_honest (base : ℕ) : (fixedMachine base).Honest := by
  intro k n hn
  exact if_neg (not_lt.mpr hn)

/-- A zone of `size` bytes at address 4096, allocated from up to `offset`. -/
def zoneAt (size offset : ℕ) : Heap :=
  ⟨⟨some 4096, offset, 0, size, []⟩, fun _ => 0, []⟩

def oneVariable : List Variable := [⟨SchemeReader.ascii "x", SchemeReader.ascii "i64"⟩]

/-- A closure with one variable in a zone with plenty of room. -/
theorem covered_iff_roomy : ∃ instructions s,
    makeClosureenv .zone 7 oneVariable = some instructions ∧
      run (step (fixedMachine 65536)) (start (zoneAt 4096 64)) instructions = some s ∧
      Covered s := by
  have hz : Real (zoneAt 4096 64).zone := ⟨by decide, by decide⟩
  have he : makeClosureenv .zone 7 oneVariable = some _ := rfl
  refine ⟨_, _, he, rfl, (covered_iff (fixedMachine_honest 65536) he hz rfl).mpr ?_⟩
  exact ⟨rfl, by decide, .inl ⟨by decide, by decide, by decide, trivial⟩⟩

/-- The zone grows at the environment: the closure structure stays behind in the old
segment. -/
theorem not_covered_grown : ¬ ∀ (m : Machine), m.Honest → ∀ kind func env instructions,
    makeClosureenv kind func env = some instructions → ∀ h : Heap, Real h.zone → ∀ s,
      run (step m) (start h) instructions = some s → Covered s := by
  intro hall
  have hc := hall (fixedMachine 65536) (fixedMachine_honest 65536) .zone 7 oneVariable _ rfl
    (zoneAt 128 64) ⟨by decide, by decide⟩ _ rfl
  have hadj := adjacent_cons.mp (adjacent_cons.mp hc.adjacent).2
  exact absurd hadj.1 (by decide)

end Extempore.ClosureSizes
