import Mathlib.Data.List.TakeWhile
import Extempore.BlockMemory

/-!
# String output ports

A port from `open-output-string` has a buffer of its own. What does not fit makes
`realloc_port_string` copy the buffer to a longer one. `get-output-string` copies what has been
written so far.
-/

namespace Extempore.OutputPorts
open BlockMemory
open ByteMemory (fill fill_of_notMem)

def blockSize : ℕ := 256

/-- The `string` representation of a port. -/
structure Port where
  srfi6 : Bool
  start : ℕ
  pastTheEnd : ℕ
  curr : ℕ
  deriving DecidableEq, Repr

/-- `port_rep_from_scratch`, without the record of the port itself. -/
def portRepFromScratch (alloc : Allocator) (h : Heap) : Option (Heap × Port) := do
  let (h, start) ← malloc alloc h blockSize
  let h ← memset h start start 32 (blockSize - 1)
  let h ← store h start (start + blockSize - 1) 0
  some (h, ⟨true, start, start + blockSize - 1, start⟩)

/-- `realloc_port_string`, with whether there was memory. -/
def reallocPortString (alloc : Allocator) (h : Heap) (p : Port) : Option (Bool × Heap × Port) :=
  let newSize := p.pastTheEnd - p.start + 1 + blockSize
  match malloc alloc h newSize with
  | none => some (false, h, p)
  | some (h, str) => do
    let h ← memset h str str 32 (newSize - 1)
    let h ← store h str (str + newSize - 1) 0
    let h ← strcpy h str str p.start newSize
    some (true, free h p.start,
      { p with start := str, pastTheEnd := str + newSize - 1, curr := p.curr - p.start + str })

/-- One character of `putstr`, `putchars` and `putcharacter`; it is left out if there is no room. -/
def putByte (alloc : Allocator) (h : Heap) (p : Port) (c : UInt8) : Option (Heap × Port) := do
  if p.curr ≠ p.pastTheEnd then
    let h ← store h p.start p.curr c
    some (h, { p with curr := p.curr + 1 })
  else if p.srfi6 then
    let (ok, h, p) ← reallocPortString alloc h p
    if ok then
      let h ← store h p.start p.curr c
      some (h, { p with curr := p.curr + 1 })
    else some (h, p)
  else some (h, p)

def putBytes (alloc : Allocator) (h : Heap) (p : Port) : List UInt8 → Option (Heap × Port)
  | [] => some (h, p)
  | c :: cs => do
    let (h, p) ← putByte alloc h p c
    putBytes alloc h p cs

/-- The calls by which characters get to the port. -/
inductive Output where
  | putcharacter (c : UInt8)
  | putstr (s : List UInt8)
  | putchars (s : List UInt8)
  deriving DecidableEq, Repr

def put (alloc : Allocator) (h : Heap) (p : Port) : Output → Option (Heap × Port)
  | .putcharacter c => putByte alloc h p c
  | .putstr s => putBytes alloc h p (s.takeWhile (· != 0))
  | .putchars s => putBytes alloc h p s

/-- `get-output-string`; the string is `#f` without memory. -/
def getOutputString (alloc : Allocator) (h : Heap) (p : Port) :
    Option (Option (List UInt8) × Heap) :=
  let size := p.curr - p.start + 1
  match malloc alloc h size with
  | none => some (none, h)
  | some (h, str) => do
    let h ← memcpy h str str p.start (size - 1)
    let h ← store h str (str + size - 1) 0
    let s ← stringAt h.bytes str size
    some (some s, free h str)

/-- `write-char`, `display` and `write` come down to a row of calls. -/
inductive Operation where
  | write (outputs : List Output)
  | getOutputString
  deriving DecidableEq, Repr

def putAll (alloc : Allocator) (h : Heap) (p : Port) : List Output → Option (Heap × Port)
  | [] => some (h, p)
  | o :: os => do
    let (h, p) ← put alloc h p o
    putAll alloc h p os

def step (alloc : Allocator) (h : Heap) (p : Port) : Operation → Option (Heap × Port)
  | .write outputs => putAll alloc h p outputs
  | .getOutputString => do
    let (_, h) ← getOutputString alloc h p
    some (h, p)

def run (alloc : Allocator) (h : Heap) (p : Port) : List Operation → Option (Heap × Port)
  | [] => some (h, p)
  | op :: ops => do
    let (h, p) ← step alloc h p op
    run alloc h p ops

def Output.text : Output → List UInt8
  | putcharacter c => [c]
  | putstr s => s
  | putchars s => s

/-- The characters that the operation writes. -/
def Operation.text : Operation → List UInt8
  | write outputs => outputs.flatMap Output.text
  | getOutputString => []

/-! ## The buffer -/

/-- The buffer is live, `curr` is behind the text and a zero behind the room that is left. -/
structure Holding (h : Heap) (p : Port) (text : List UInt8) : Prop where
  srfi6 : p.srfi6 = true
  live : ⟨p.start, p.pastTheEnd - p.start + 1⟩ ∈ h.live
  curr : p.curr = p.start + text.length
  le : p.curr ≤ p.pastTheEnd
  written : TextAt h.bytes p.start text
  end_zero : h.bytes p.pastTheEnd = 0
  no_zero : 0 ∉ text

variable {alloc : Allocator} {h : Heap} {p : Port} {text : List UInt8} {c : UInt8}

theorem blockSize_pos : 0 < blockSize := by decide

theorem holding_portRepFromScratch (halloc : Allocates alloc) (h : Heap) :
    ∃ h' p, portRepFromScratch alloc h = some (h', p) ∧ Holding h' p [] := by
  have hpos := blockSize_pos
  obtain ⟨start, hmalloc, -⟩ := exists_malloc halloc h blockSize
  have hblock := holds_add h start blockSize
  have hset := memset_eq (v := 32) (hblock.sub (k := blockSize - 1) le_rfl (by omega))
  have hstore := store_eq (v := 0)
    ((hblock.sub (x := start + blockSize - 1) (k := 1) (by omega) (by omega)).update
      (fill (h.add ⟨start, blockSize⟩).bytes start (blockSize - 1) 32))
  let m := Function.update (fill h.bytes start (blockSize - 1) 32) (start + blockSize - 1) 0
  refine ⟨{ h.add ⟨start, blockSize⟩ with bytes := m },
    ⟨true, start, start + blockSize - 1, start⟩, ?_, rfl, ?_, rfl, ?_, trivial, ?_,
    List.not_mem_nil⟩
  · rw [portRepFromScratch, hmalloc]
    show (memset _ _ _ _ _).bind _ = _
    rw [hset]
    show (store _ _ _ _).bind _ = _
    rw [hstore]
    rfl
  · show (⟨start, start + blockSize - 1 - start + 1⟩ : Block) ∈ _ :: h.live
    have hsize : start + blockSize - 1 - start + 1 = blockSize := by omega
    rw [hsize]
    exact List.mem_cons_self
  · show start ≤ start + blockSize - 1
    omega
  · exact Function.update_self _ _ _

theorem Holding.block (hp : Holding h p text) :
    Holds h p.start p.start (p.pastTheEnd - p.start + 1) :=
  ⟨⟨_, hp.live, le_rfl⟩, le_rfl⟩

/-- There is room for one character more. -/
theorem Holding.store (hp : Holding h p text) (hroom : p.curr ≠ p.pastTheEnd) (hc : c ≠ 0) :
    ∃ h', BlockMemory.store h p.start p.curr c = some h' ∧
      Holding h' { p with curr := p.curr + 1 } (text ++ [c]) := by
  have hcurr := hp.curr
  have hle := hp.le
  have hstore := store_eq (v := c)
    (hp.block.sub (x := p.curr) (k := 1) (by omega) (by omega))
  refine ⟨{ h with bytes := Function.update h.bytes p.curr c }, hstore, hp.srfi6, hp.live, ?_, ?_,
    ?_, ?_, ?_⟩
  · rw [List.length_append]
    show p.curr + 1 = p.start + (text.length + 1)
    omega
  · show p.curr + 1 ≤ p.pastTheEnd
    omega
  · refine TextAt.concat (hp.written.congr fun x _ hx => Function.update_of_ne (by omega) _ _) ?_
    show Function.update h.bytes p.curr c (p.start + text.length) = c
    rw [← hcurr, Function.update_self]
  · exact (Function.update_of_ne (Ne.symm hroom) _ _).trans hp.end_zero
  · rw [List.mem_append, List.mem_singleton, not_or]
    exact ⟨hp.no_zero, Ne.symm hc⟩

/-- The text is copied to a buffer with room behind it. -/
theorem Holding.realloc (halloc : Allocates alloc) (hp : Holding h p text)
    (hfull : p.curr = p.pastTheEnd) :
    ∃ h' p', reallocPortString alloc h p = some (true, h', p') ∧ Holding h' p' text ∧
      p'.curr ≠ p'.pastTheEnd := by
  have hpos := blockSize_pos
  have hcurr := hp.curr
  have hsize : p.pastTheEnd - p.start + 1 + blockSize = text.length + 1 + blockSize := by omega
  obtain ⟨newSize, hnew⟩ : ∃ n, n = text.length + 1 + blockSize := ⟨_, rfl⟩
  obtain ⟨str, hmalloc, hapart⟩ := exists_malloc halloc h newSize
  have hold := hapart _ hp.live
  dsimp only at hold
  have hblock := holds_add h str newSize
  have hset := memset_eq (v := 32) (hblock.sub (k := newSize - 1) le_rfl (by omega))
  have hstore := store_eq (v := 0)
    ((hblock.sub (x := str + newSize - 1) (k := 1) (by omega) (by omega)).update
      (fill (h.add ⟨str, newSize⟩).bytes str (newSize - 1) 32))
  let m := Function.update (fill h.bytes str (newSize - 1) 32) (str + newSize - 1) 0
  have hsame (x : ℕ) (hx : p.start ≤ x) (hx' : x ≤ p.start + text.length) : m x = h.bytes x := by
    show Function.update _ _ _ x = _
    rw [Function.update_of_ne (by omega), fill_of_notMem (by omega)]
  have hend : m (p.start + text.length) = 0 := by
    rw [hsame _ (by omega) le_rfl, ← hcurr, hfull]
    exact hp.end_zero
  obtain ⟨m', hcpy, hwritten⟩ := strcpy_spec
    ((hblock.sub (k := text.length + 1) le_rfl (by omega)).update m)
    (hp.written.congr fun x hx hx' => hsame x hx (by omega)) hp.no_zero hend
    (by omega) (k := newSize) (by omega)
  refine ⟨free { h.add ⟨str, newSize⟩ with bytes := m' } p.start,
    ⟨p.srfi6, str, str + newSize - 1, p.curr - p.start + str⟩, ?_,
    ⟨hp.srfi6, ?_, ?_, ?_, hwritten.text, ?_, hp.no_zero⟩, ?_⟩
  · rw [reallocPortString, hsize, ← hnew]
    dsimp only
    rw [hmalloc]
    show (memset _ _ _ _ _).bind _ = _
    rw [hset]
    show (BlockMemory.store _ _ _ _).bind _ = _
    rw [hstore]
    show (strcpy { h.add ⟨str, newSize⟩ with bytes := m } str str p.start newSize).bind _ = _
    rw [hcpy]
    rfl
  · refine mem_free ?_ ?_
    · show (⟨str, str + newSize - 1 - str + 1⟩ : Block) ∈ _ :: h.live
      have hsize : str + newSize - 1 - str + 1 = newSize := by omega
      rw [hsize]
      exact List.mem_cons_self
    · show str ≠ p.start
      omega
  · show p.curr - p.start + str = str + text.length
    omega
  · show p.curr - p.start + str ≤ str + newSize - 1
    omega
  · show m' (str + newSize - 1) = 0
    rw [hwritten.frame _ (by omega)]
    exact Function.update_self _ _ _
  · show p.curr - p.start + str ≠ str + newSize - 1
    omega

/-- A character goes to the end of the text, whether or not the buffer has to grow. -/
theorem Holding.putByte (halloc : Allocates alloc) (hp : Holding h p text) (hc : c ≠ 0) :
    ∃ h' p', putByte alloc h p c = some (h', p') ∧ Holding h' p' (text ++ [c]) := by
  rw [OutputPorts.putByte]
  split
  · rename_i hroom
    obtain ⟨h', hstore, hheld⟩ := hp.store hroom hc
    exact ⟨h', _, by rw [hstore]; rfl, hheld⟩
  · rename_i hfull
    rw [not_not] at hfull
    obtain ⟨h', p', hrealloc, hp', hroom⟩ := hp.realloc halloc hfull
    obtain ⟨h'', hstore, hheld⟩ := hp'.store hroom hc
    refine ⟨h'', _, ?_, hheld⟩
    rw [if_pos hp.srfi6, hrealloc]
    show (BlockMemory.store _ _ _ _).bind _ = _
    rw [hstore]
    rfl

theorem Holding.putBytes (halloc : Allocates alloc) {s : List UInt8} (hp : Holding h p text)
    (hs : 0 ∉ s) : ∃ h' p', putBytes alloc h p s = some (h', p') ∧ Holding h' p' (text ++ s) := by
  induction s generalizing h p text with
  | nil => exact ⟨h, p, rfl, by rwa [List.append_nil]⟩
  | cons c cs ih =>
    rw [List.mem_cons, not_or] at hs
    obtain ⟨h', p', hput, hp'⟩ := hp.putByte halloc (Ne.symm hs.1)
    obtain ⟨h'', p'', hrest, hp''⟩ := ih hp' hs.2
    refine ⟨h'', p'', ?_, by rwa [List.append_assoc] at hp''⟩
    rw [OutputPorts.putBytes, hput]
    exact hrest

theorem Holding.put (halloc : Allocates alloc) {o : Output} (hp : Holding h p text)
    (ho : 0 ∉ o.text) : ∃ h' p', put alloc h p o = some (h', p') ∧ Holding h' p' (text ++ o.text) := by
  cases o with
  | putcharacter c => exact hp.putByte halloc (by simpa [Output.text, eq_comm] using ho)
  | putstr s =>
    have hall : s.takeWhile (· != 0) = s := by
      refine List.takeWhile_eq_self_iff.mpr ?_
      intro b hb
      rw [bne_iff_ne]
      rintro rfl
      exact ho hb
    rw [OutputPorts.put, hall]
    exact hp.putBytes halloc ho
  | putchars s => exact hp.putBytes halloc ho

theorem Holding.putAll (halloc : Allocates alloc) {outputs : List Output} (hp : Holding h p text)
    (ho : 0 ∉ outputs.flatMap Output.text) :
    ∃ h' p', putAll alloc h p outputs = some (h', p') ∧
      Holding h' p' (text ++ outputs.flatMap Output.text) := by
  induction outputs generalizing h p text with
  | nil => exact ⟨h, p, rfl, by rwa [List.flatMap_nil, List.append_nil]⟩
  | cons o os ih =>
    rw [List.flatMap_cons, List.mem_append, not_or] at ho
    obtain ⟨h', p', hput, hp'⟩ := hp.put halloc ho.1
    obtain ⟨h'', p'', hrest, hp''⟩ := ih hp' ho.2
    refine ⟨h'', p'', ?_, by rwa [List.append_assoc, ← List.flatMap_cons] at hp''⟩
    rw [OutputPorts.putAll, hput]
    exact hrest

/-- The string is the text, and the buffer stays as it is. -/
theorem Holding.getOutputString (halloc : Allocates alloc) (hp : Holding h p text) :
    ∃ h', getOutputString alloc h p = some (some text, h') ∧ Holding h' p text := by
  have hcurr := hp.curr
  have hle := hp.le
  have hsize : p.curr - p.start + 1 = text.length + 1 := by omega
  obtain ⟨str, hmalloc, hapart⟩ := exists_malloc halloc h (text.length + 1)
  have hold := hapart _ hp.live
  dsimp only at hold
  have hblock := holds_add h str (text.length + 1)
  obtain ⟨m, hcpy, hwritten⟩ := memcpy_spec (hblock.sub (k := text.length) le_rfl (by omega))
    hp.written (by omega)
  have hstore := store_eq (v := 0)
    ((hblock.sub (x := str + (text.length + 1) - 1) (k := 1) (by omega) (by omega)).update m)
  let m' := Function.update m (str + (text.length + 1) - 1) 0
  have hstring : stringAt m' str (text.length + 1) = some text := by
    refine stringAt_eq (hwritten.text.congr fun x _ hx => Function.update_of_ne (by omega) _ _)
      hp.no_zero ?_ (by omega)
    show Function.update m _ 0 (str + text.length) = 0
    exact Function.update_self _ _ _
  have hsame (x : ℕ) (hx : p.start ≤ x) (hx' : x ≤ p.pastTheEnd) : m' x = h.bytes x := by
    show Function.update _ _ _ x = _
    rw [Function.update_of_ne (by omega), hwritten.frame _ (by omega)]
    rfl
  refine ⟨free { h.add ⟨str, text.length + 1⟩ with bytes := m' } str, ?_, hp.srfi6,
    mem_free (List.mem_cons_of_mem _ hp.live) ?_, hcurr, hle, ?_, ?_, hp.no_zero⟩
  · rw [OutputPorts.getOutputString, hsize]
    dsimp only
    rw [hmalloc]
    show (memcpy _ _ _ _ _).bind _ = _
    rw [Nat.add_sub_cancel, hcpy]
    show (BlockMemory.store _ _ _ _).bind _ = _
    rw [hstore]
    show (stringAt m' str (text.length + 1)).bind _ = _
    rw [hstring]
    rfl
  · show p.start ≠ str
    omega
  · exact hp.written.congr fun x hx hx' => hsame x hx (by omega)
  · exact (hsame _ (by omega) le_rfl).trans hp.end_zero

theorem Holding.run (halloc : Allocates alloc) {ops : List Operation} (hp : Holding h p text)
    (hops : 0 ∉ ops.flatMap Operation.text) :
    ∃ h' p', run alloc h p ops = some (h', p') ∧
      Holding h' p' (text ++ ops.flatMap Operation.text) := by
  induction ops generalizing h p text with
  | nil => exact ⟨h, p, rfl, by rwa [List.flatMap_nil, List.append_nil]⟩
  | cons op ops ih =>
    rw [List.flatMap_cons, List.mem_append, not_or] at hops
    have hstep : ∃ h' p', step alloc h p op = some (h', p') ∧ Holding h' p' (text ++ op.text) := by
      cases op with
      | write outputs => exact hp.putAll halloc hops.1
      | getOutputString =>
        obtain ⟨h', hget, hp'⟩ := hp.getOutputString halloc
        refine ⟨h', p, ?_, by rwa [Operation.text, List.append_nil]⟩
        rw [step, hget]
        rfl
    obtain ⟨h', p', hstep, hp'⟩ := hstep
    obtain ⟨h'', p'', hrest, hp''⟩ := ih hp' hops.2
    refine ⟨h'', p'', ?_, by rwa [List.append_assoc, ← List.flatMap_cons] at hp''⟩
    rw [OutputPorts.run, hstep]
    exact hrest

/-- A port holds everything that has been written to it. No byte is stored outside of the buffer at
that time, since there would be no result then. -/
theorem getOutputString_run (halloc : Allocates alloc) (h : Heap) {ops : List Operation}
    (hops : 0 ∉ ops.flatMap Operation.text) :
    ∃ h₀ p₀ h₁ p₁ h₂, portRepFromScratch alloc h = some (h₀, p₀) ∧
      run alloc h₀ p₀ ops = some (h₁, p₁) ∧
      getOutputString alloc h₁ p₁ = some (some (ops.flatMap Operation.text), h₂) := by
  obtain ⟨h₀, p₀, hopen, hp₀⟩ := holding_portRepFromScratch halloc h
  obtain ⟨h₁, p₁, hrun, hp₁⟩ := hp₀.run halloc hops
  obtain ⟨h₂, hget, -⟩ := hp₁.getOutputString halloc
  exact ⟨h₀, p₀, h₁, p₁, h₂, hopen, hrun, hget⟩

/-- A character and a string around a call of `get-output-string`. -/
theorem getOutputString_run_twice :
    ∃ h₀ p₀ h₁ p₁ h₂, portRepFromScratch bump ⟨fun _ => 0, [], 0⟩ = some (h₀, p₀) ∧
      run bump h₀ p₀ [.write [.putcharacter 97], .getOutputString, .write [.putchars [98, 99]]] =
        some (h₁, p₁) ∧
      getOutputString bump h₁ p₁ = some (some [97, 98, 99], h₂) :=
  @getOutputString_run bump allocates_bump ⟨fun _ => 0, [], 0⟩ [.write [.putcharacter 97],
    .getOutputString, .write [.putchars [98, 99]]] (by decide)

end Extempore.OutputPorts
