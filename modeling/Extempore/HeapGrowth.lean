import Mathlib.Algebra.GroupWithZero.Nat
import Extempore.TreadmillRing

/-!
# Growing the heap

When a flip finds memory low it threads a new block of cells into the ring, between the last white
cell and `bottom`. The size of the block is what the vectors made since the last flip add up to,
less one.
-/

namespace Extempore.HeapGrowth
open TreadmillRing LinkedRings GuardedRuns

/-- The `alloc_size` of the branch that adds memory. -/
def allocSize (t : Treadmill) : ℕ :=
  if 0 ≤ t.allocationRequest then t.allocationRequest.toNat else 100000

/-- The first `i` turns of the loop that threads the new cells into the ring. -/
def thread (t : Treadmill) (newmem n i : ℕ) : Treadmill :=
  (List.range' newmem i).foldl (addCell newmem (newmem + n - 1)) t

/-- `mk_vector`: a cell is taken, and the length is added to the request. -/
def mkVector (t : Treadmill) (len : ℕ) : Option (ℕ × Treadmill) :=
  (getCell t).map fun r =>
    (r.1, { r.2 with allocationRequest := r.2.allocationRequest + len })

variable {cells white ecru grey black : List ℕ} {t u : Treadmill} {newmem n i p : ℕ}

theorem addMemory_eq (t : Treadmill) (newmem : ℕ) :
    addMemory t newmem =
      thread { t with totalMemoryAllocated := t.totalMemoryAllocated + allocSize t } newmem
        (allocSize t) (allocSize t) := rfl

theorem thread_succ (t : Treadmill) (newmem n i : ℕ) :
    thread t newmem n (i + 1) =
      addCell newmem (newmem + n - 1) (thread t newmem n i) (newmem + i) := by
  rw [thread, List.range'_concat, Nat.one_mul, List.foldl_append]
  rfl

/-! ## The loop over the new cells -/

/-- `u` is `t` with the first `i` of `n` new cells threaded in. The last white cell and `bottom`
are only relinked by the first and the last turn. -/
structure Threaded (t : Treadmill) (newmem n i : ℕ) (u : Treadmill) : Prop where
  cw : ∀ q, u.links.cw q =
    if newmem ≤ q ∧ q < newmem + i then (if q = newmem + n - 1 then t.bottom else q + 1)
    else if q = t.links.ccw t.bottom ∧ i ≠ 0 then newmem else t.links.cw q
  ccw : ∀ q, u.links.ccw q =
    if newmem ≤ q ∧ q < newmem + i then (if q = newmem then t.links.ccw t.bottom else q - 1)
    else if q = t.bottom ∧ i = n then newmem + n - 1 else t.links.ccw q
  colour : ∀ q, u.colour q = if newmem ≤ q ∧ q < newmem + i then !t.dark else t.colour q
  rest : u = { t with links := u.links, colour := u.colour }

theorem threaded_zero (hn : n ≠ 0) : Threaded t newmem n 0 (thread t newmem n 0) where
  cw q := by
    rw [if_neg (by omega), if_neg (by omega)]
    rfl
  ccw q := by
    rw [if_neg (by omega), if_neg (by omega)]
    rfl
  colour q := by
    rw [if_neg (by omega)]
    rfl
  rest := rfl

/-- The first turn, which links the last white cell to the block. -/
theorem addCell_first (u : Treadmill) {first last : ℕ} (h : first ≠ last) (q : ℕ) :
    (addCell first last u first).links.cw q =
        (if q = first then first + 1
          else if q = u.links.ccw u.bottom then first else u.links.cw q) ∧
      (addCell first last u first).links.ccw q =
        if q = first then u.links.ccw u.bottom else u.links.ccw q := by
  simp only [addCell, if_neg h, if_true, Function.update_apply]
  exact ⟨trivial, trivial⟩

/-- A later turn; the last one links `bottom` to the block. -/
theorem addCell_later (u : Treadmill) {first last p : ℕ} (h : p ≠ first) (q : ℕ) :
    (addCell first last u p).links.cw q =
        (if q = p then if p = last then u.bottom else p + 1 else u.links.cw q) ∧
      (addCell first last u p).links.ccw q =
        if q = p then p - 1
        else if p = last ∧ q = u.bottom then p else u.links.ccw q := by
  simp only [addCell, if_neg h, Function.update_apply]
  refine ⟨trivial, ?_⟩
  by_cases hlast : p = last
  · simp only [hlast, if_true, Function.update_apply, true_and]
  · simp only [hlast, if_false, false_and]

/-- One turn, for a block of several cells that has neither the last white cell nor `bottom`. -/
theorem Threaded.addCell (h : Threaded t newmem n i u) (hn : 2 ≤ n) (hi : i < n)
    (hbottom : ¬ (newmem ≤ t.bottom ∧ t.bottom < newmem + n))
    (hlast : ¬ (newmem ≤ t.links.ccw t.bottom ∧ t.links.ccw t.bottom < newmem + n)) :
    Threaded t newmem n (i + 1) (addCell newmem (newmem + n - 1) u (newmem + i)) := by
  have hub : u.bottom = t.bottom := by rw [h.rest]
  have hud : u.dark = t.dark := by rw [h.rest]
  have hccw : u.links.ccw t.bottom = t.links.ccw t.bottom := by
    rw [h.ccw, if_neg (by omega), if_neg (by omega)]
  refine ⟨?_, ?_, ?_, ?_⟩
  · intro q
    have hq := h.cw q
    cases i with
    | zero =>
      rw [if_neg (by omega), if_neg (by omega)] at hq
      rw [Nat.add_zero, (addCell_first u (by omega) q).1, hub, hccw, hq]
      split_ifs <;> omega
    | succ i =>
      rw [(addCell_later u (by omega) q).1, hub, hq]
      split_ifs <;> omega
  · intro q
    have hq := h.ccw q
    cases i with
    | zero =>
      rw [if_neg (by omega), if_neg (by omega)] at hq
      rw [Nat.add_zero, (addCell_first u (by omega) q).2, hub, hccw, hq]
      split_ifs <;> omega
    | succ i =>
      rw [(addCell_later u (by omega) q).2, hub, hq]
      split_ifs <;> omega
  · intro q
    have hq := h.colour q
    simp only [TreadmillRing.addCell, hud, Function.update_apply, hq]
    split_ifs <;> first | rfl | omega
  · rw [h.rest]
    rfl

theorem threaded_thread (hn : 2 ≤ n) (hi : i ≤ n)
    (hbottom : ¬ (newmem ≤ t.bottom ∧ t.bottom < newmem + n))
    (hlast : ¬ (newmem ≤ t.links.ccw t.bottom ∧ t.links.ccw t.bottom < newmem + n)) :
    Threaded t newmem n i (thread t newmem n i) := by
  induction i with
  | zero => exact threaded_zero (by omega)
  | succ i ih =>
    rw [thread_succ]
    exact (ih (by omega)).addCell hn (by omega) hbottom hlast

/-- The new cells as a chain from the last white cell `a` to `bottom`. -/
theorem Threaded.isChain {a : ℕ} (h : Threaded t newmem n n u) (hn : n ≠ 0)
    (ha : t.links.ccw t.bottom = a)
    (hbottom : ¬ (newmem ≤ t.bottom ∧ t.bottom < newmem + n))
    (hlast : ¬ (newmem ≤ a ∧ a < newmem + n)) :
    List.IsChain u.links.Linked (a :: (List.range' newmem n ++ [t.bottom])) := by
  have hblock : List.IsChain u.links.Linked (List.range' newmem n) := by
    refine (List.isChain_range' newmem n 1).imp_of_mem_imp ?_
    intro c d hc hd hcd
    cases hcd
    rw [List.mem_range'_1] at hc hd
    refine ⟨?_, ?_⟩
    · rw [h.cw, if_pos hc, if_neg (by omega)]
    · rw [h.ccw, if_pos hd, if_neg (by omega)]
      omega
  have hend : List.IsChain u.links.Linked (List.range' newmem n ++ [t.bottom]) := by
    refine hblock.append (List.isChain_singleton t.bottom) ?_
    intro c hc d hd
    obtain rfl : t.bottom = d := by simpa using hd
    rw [List.getLast?_range', if_neg hn] at hc
    obtain rfl := Option.some.inj hc
    refine ⟨?_, ?_⟩
    · rw [h.cw, if_pos (by omega), if_pos (by omega)]
    · rw [h.ccw, if_neg hbottom, if_pos ⟨rfl, rfl⟩]
  refine (List.isChain_singleton a).append hend ?_
  intro c hc d hd
  obtain rfl : a = c := by simpa using hc
  have hhead : (List.range' newmem n ++ [t.bottom]).head? = some newmem := by
    rw [List.head?_append, List.head?_range', if_neg hn]
    rfl
  obtain rfl : newmem = d := Option.some.inj (hhead.symm.trans hd)
  refine ⟨?_, ?_⟩
  · rw [h.cw, if_neg hlast, if_pos ⟨ha.symm, hn⟩]
  · rw [h.ccw, if_pos (by omega), if_pos rfl, ha]

/-- No cell of the ring is in the block that `malloc` has returned. -/
def Fresh (cells : List ℕ) (newmem n : ℕ) : Prop := ∀ p ∈ cells, ¬ (newmem ≤ p ∧ p < newmem + n)

/-- A block of several cells extends the white segment at its end. -/
theorem segments_thread (h : Segments cells t white ecru grey black) (hwhite : white ≠ [])
    (hfresh : Fresh cells newmem n) (hn : 2 ≤ n) :
    Segments (cells ++ List.range' newmem n) (thread t newmem n n) (white ++ List.range' newmem n)
      ecru grey black := by
  obtain ⟨ws, a, rfl⟩ : ∃ ws a, white = ws ++ [a] :=
    ⟨_, _, (List.dropLast_append_getLast hwhite).symm⟩
  obtain ⟨b, es, rfl⟩ : ∃ b es, ecru = b :: es := by
    refine List.exists_cons_of_ne_nil ?_
    rintro rfl
    simpa using h.bottom_eq
  have hb : b = t.bottom := by simpa using h.bottom_eq
  have hring : Ring t.links ((ws ++ [a]) ++ b :: (es ++ grey ++ black)) := by simpa using h.ring
  have ha : t.links.ccw t.bottom = a := by
    have hring' : Ring t.links (ws ++ a :: b :: (es ++ grey ++ black)) := by simpa using hring
    rw [← hb]
    exact hring'.linked.2
  have hmem {c : ℕ} (hc : c ∈ (ws ++ [a]) ++ b :: (es ++ grey ++ black)) :
      ¬ (newmem ≤ c ∧ c < newmem + n) := by
    refine hfresh c (h.perm.mem_iff.mp ?_)
    simpa using hc
  have hbottom : ¬ (newmem ≤ t.bottom ∧ t.bottom < newmem + n) := hmem (by simp [hb])
  have hlast : ¬ (newmem ≤ a ∧ a < newmem + n) := hmem (by simp)
  have hthread := threaded_thread hn le_rfl hbottom (ha.symm ▸ hlast)
  generalize thread t newmem n n = u at hthread ⊢
  have hcw (c : ℕ) (hc : c ∈ (ws ++ [a]) ++ b :: (es ++ grey ++ black)) (hca : c ≠ a) :
      u.links.cw c = t.links.cw c := by
    rw [hthread.cw, if_neg (hmem hc), if_neg (fun hcon => hca (hcon.1.trans ha))]
  have hccw (c : ℕ) (hc : c ∈ (ws ++ [a]) ++ b :: (es ++ grey ++ black)) (hcb : c ≠ b) :
      u.links.ccw c = t.links.ccw c := by
    rw [hthread.ccw, if_neg (hmem hc), if_neg (fun hcon => hcb (hcon.1.trans hb.symm))]
  have hcolour (c : ℕ) (hc : c ∈ (ws ++ [a]) ++ b :: (es ++ grey ++ black)) :
      u.colour c = t.colour c := by
    rw [hthread.colour, if_neg (hmem hc)]
  have hdark : u.dark = t.dark := by rw [hthread.rest]
  have hperm : ((ws ++ [a]) ++ List.range' newmem n ++ b :: (es ++ grey ++ black)).Perm
      ((ws ++ [a]) ++ b :: (es ++ grey ++ black) ++ List.range' newmem n) := by
    rw [List.append_assoc (ws ++ [a]) (List.range' newmem n),
      List.append_assoc (ws ++ [a]) (b :: (es ++ grey ++ black))]
    exact List.Perm.append_left _ List.perm_append_comm
  have hnodup : ((ws ++ [a]) ++ List.range' newmem n ++ b :: (es ++ grey ++ black)).Nodup := by
    rw [hperm.nodup_iff, List.nodup_append]
    refine ⟨hring.nodup, List.nodup_range', ?_⟩
    rintro c hc d hd rfl
    exact hmem hc (List.mem_range'_1.mp hd)
  refine ⟨?_, ?_, ?_, ?_, ?_, ?_, ?_, ?_, ?_⟩
  · have hchain := hthread.isChain (by omega) ha hbottom hlast
    rw [← hb] at hchain
    simpa using hring.splice hnodup hchain hcw hccw
  · have hcells : ((ws ++ [a]) ++ b :: (es ++ grey ++ black)).Perm cells := by simpa using h.perm
    simpa using hperm.trans (hcells.append_right _)
  · have hfree := h.free_eq
    rw [hthread.rest]
    simpa [List.head?_append] using hfree
  · rw [hthread.rest]
    exact h.bottom_eq
  · rw [hthread.rest]
    exact h.top_eq
  · rw [hthread.rest]
    exact h.scan_eq
  · intro c hc
    rw [hcolour c (by simp at hc ⊢; tauto), hdark]
    exact h.ecru_light c hc
  · intro c hc
    rw [hcolour c (by simp at hc ⊢; tauto), hdark]
    exact h.dark c hc
  · simp

/-- A block of one cell is linked to itself: `bottom` has the new cell as its neighbour by the time
the old neighbour is looked up. -/
theorem ccw_thread_one (t : Treadmill) (newmem : ℕ) :
    (thread t newmem 1 1).links.ccw newmem = newmem := by
  simp [thread, TreadmillRing.addCell]

theorem not_ring_thread_one {xs : List ℕ} (hp : newmem ∈ xs) (hq : p ∈ xs) (hne : p ≠ newmem) :
    ¬ Ring (thread t newmem 1 1).links xs := by
  intro h
  have hself := ccw_thread_one t newmem
  have hcw := h.cw_ccw hp
  rw [hself] at hcw
  exact h.cw_ne hq hp hne hcw

/-! ## The branch of the flip -/

/-- The new cells are between the white cells and `bottom` on one ring with all others, they are
white, and the counter has the number of all cells. -/
structure Grown (white rest : List ℕ) (newmem n : ℕ) (t : Treadmill) : Prop where
  ring : Ring t.links (white ++ List.range' newmem n ++ rest)
  white_iff : ∀ p, White t p ↔ p ∈ white ++ List.range' newmem n
  total : t.totalMemoryAllocated = (white ++ List.range' newmem n ++ rest).length

theorem allocSize_of_sum {lengths : List ℕ} (h : t.allocationRequest = -1 + lengths.sum) :
    allocSize t = if lengths.sum = 0 then 100000 else lengths.sum - 1 := by
  rw [allocSize, h]
  split_ifs <;> omega

/-- Without a request for exactly one cell the branch keeps the segments. -/
theorem segments_addMemory (h : Segments cells t white ecru grey black) (hwhite : white ≠ [])
    (hfresh : Fresh cells newmem (allocSize t)) (hsize : allocSize t ≠ 1) :
    Segments (cells ++ List.range' newmem (allocSize t)) (addMemory t newmem)
      (white ++ List.range' newmem (allocSize t)) ecru grey black := by
  rw [addMemory_eq]
  have h' := h.with_counters t.insertsPerCycle (t.totalMemoryAllocated + allocSize t)
    t.allocationRequest
  by_cases hzero : allocSize t = 0
  · rw [hzero] at h' ⊢
    rw [List.range'_zero, List.append_nil, List.append_nil]
    exact h'
  · exact segments_thread h' hwhite hfresh (by omega)

theorem totalMemoryAllocated_thread (t : Treadmill) (newmem n i : ℕ) :
    (thread t newmem n i).totalMemoryAllocated = t.totalMemoryAllocated := by
  induction i with
  | zero => rfl
  | succ i ih =>
    rw [thread_succ]
    exact ih

theorem totalMemoryAllocated_addMemory (t : Treadmill) (newmem : ℕ) :
    (addMemory t newmem).totalMemoryAllocated = t.totalMemoryAllocated + allocSize t := by
  rw [addMemory_eq, totalMemoryAllocated_thread]

/-- On a ring that a flip has turned, with the request that any vectors since the last flip have
left, the branch adds its cells as it should, unless the vectors had two elements in all. -/
theorem grown_iff {lengths : List ℕ} (h : Segments cells t [] ecru [] black)
    (htotal : t.totalMemoryAllocated = cells.length)
    (hrequest : t.allocationRequest = -1 + lengths.sum)
    (hfresh : Fresh cells newmem (allocSize t)) :
    Grown ecru black newmem (allocSize t) (addMemory (turn t) newmem) ↔ lengths.sum ≠ 2 := by
  have hturn := h.turn_segments
  have hecru : ecru ≠ [] := by
    rintro rfl
    simpa using h.bottom_eq
  have hblack : black ≠ [] := by simpa using h.used
  have hsize : allocSize (turn t) = allocSize t := rfl
  constructor
  · intro hgrown hsum
    have hone : allocSize t = 1 := by rw [allocSize_of_sum hrequest, hsum]; rfl
    obtain ⟨c, es, rfl⟩ := List.exists_cons_of_ne_nil hecru
    have hc : c ∈ cells := hturn.mem_cells.mpr (.inl List.mem_cons_self)
    have hring := hgrown.ring
    rw [addMemory_eq, hsize, hone] at hring
    rw [hone] at hfresh
    have hne : c ≠ newmem := by
      rintro rfl
      exact hfresh c hc ⟨le_rfl, Nat.lt_succ_self c⟩
    exact not_ring_thread_one (by simp) (by simp) hne hring
  · intro hsum
    have hne : allocSize (turn t) ≠ 1 := by
      rw [hsize, allocSize_of_sum hrequest]
      split_ifs <;> omega
    have hgrown := segments_addMemory hturn hecru (hsize ▸ hfresh) hne
    rw [hsize] at hgrown
    refine ⟨?_, ?_, ?_⟩
    · simpa using hgrown.ring
    · intro p
      exact hgrown.white_iff
    · have hlength := hgrown.perm.length_eq
      rw [totalMemoryAllocated_addMemory, hsize]
      show t.totalMemoryAllocated + allocSize t = _
      rw [htotal]
      simpa using hlength.symm

/-- The first heap when all its white cells are taken: a vector of two elements was made, and
almost all cells were shaded. -/
def exhausted (newp n : ℕ) : Treadmill :=
  { allocCellseg newp n with
    free := newp + n / 2
    colour := fun p => decide (p < newp + n / 2)
    insertsPerCycle := n / 2 - 1
    allocationRequest := 1 }

theorem segments_exhausted (newp : ℕ) (hn : 2 ≤ n) :
    Segments (List.range' newp n) (exhausted newp n) []
      (List.range' (newp + n / 2) (n - n / 2)) [] (List.range' newp (n / 2)) := by
  have h := @segments_allocCellseg newp n hn
  have hring := h.ring
  have hperm := h.perm
  rw [List.append_nil, List.append_nil] at hring hperm
  refine ⟨?_, ?_, ?_, h.bottom_eq, h.top_eq, h.scan_eq, ?_, ?_, ?_⟩
  · rw [List.nil_append, List.append_nil]
    exact hring.rotate
  · rw [List.nil_append, List.append_nil]
    exact List.perm_append_comm.trans hperm
  · rw [List.nil_append, List.head?_range', if_neg (by omega)]
    rfl
  · intro c hc
    rw [List.mem_range'_1] at hc
    have hlight : (exhausted newp n).colour c = false := decide_eq_false (by omega)
    rw [hlight]
    exact Bool.false_ne_true
  · intro c hc
    rw [List.nil_append, List.mem_range'_1] at hc
    exact decide_eq_true hc.2
  · simp only [List.append_nil, List.nil_append, ne_eq, List.range'_eq_nil_iff]
    omega

theorem memoryLow_exhausted (newp : ℕ) : memoryLow (exhausted newp 1500000) = true := by
  rw [memoryLow]
  exact decide_eq_true (by show (1500000 / 2 + (2 ^ 64 - 20000)) % 2 ^ 64 < 1500000 / 2 - 1; omega)

theorem fresh_exhausted : Fresh (List.range' 0 1500000) 1500000 1 := by
  intro p hp
  rw [List.mem_range'_1] at hp
  omega

theorem grown_iff_exhausted :
    Grown (List.range' (0 + 1500000 / 2) (1500000 - 1500000 / 2)) (List.range' 0 (1500000 / 2))
      1500000 (allocSize (exhausted 0 1500000)) (addMemory (turn (exhausted 0 1500000)) 1500000) ↔
    [2].sum ≠ 2 :=
  grown_iff (segments_exhausted 0 (by omega)) List.length_range'.symm rfl fresh_exhausted

/-- The first heap, with its `CELL_SEGSIZE` cells, after `(vector 1 2)`. -/
theorem not_grown_exhausted :
    ¬ ∀ (cells ecru black lengths : List ℕ) (t : Treadmill) (newmem : ℕ),
      Segments cells t [] ecru [] black → t.totalMemoryAllocated = cells.length →
        memoryLow t = true → t.allocationRequest = -1 + lengths.sum →
          Fresh cells newmem (allocSize t) →
            Grown ecru black newmem (allocSize t) (addMemory (turn t) newmem) := by
  intro h
  have hgrown := h _ _ _ [2] (exhausted 0 1500000) 1500000 (segments_exhausted 0 (by omega))
    List.length_range'.symm (memoryLow_exhausted 0) rfl fresh_exhausted
  have hring := hgrown.ring
  have hfirst : (0 : ℕ) ∈ List.range' 0 (1500000 / 2) := List.mem_range'_1.mpr ⟨le_rfl, by omega⟩
  have hnew : 1500000 ∈ List.range' 1500000 (allocSize (exhausted 0 1500000)) :=
    List.mem_range'_1.mpr ⟨le_rfl, Nat.lt_succ_self _⟩
  exact not_ring_thread_one (List.mem_append_left _ (List.mem_append_right _ hnew))
    (List.mem_append_right _ hfirst) (by omega) hring

/-! ## Runs in which the heap grows -/

/-- The operations on the ring, with `mk_vector` and with the block that a flip may add. -/
inductive Operation where
  | getCell
  | mkVector (len : ℕ)
  | insertTreadmill (p : ℕ)
  | advance
  | treadmillFlip (newmem : ℕ) (roots : List ℕ)

def step (t : Treadmill) : Operation → Option Treadmill
  | .getCell => (getCell t).map Prod.snd
  | .mkVector len => (mkVector t len).map Prod.snd
  | .insertTreadmill p => some (insertTreadmill t p)
  | .advance => if t.scan = t.top then none else some (advance t)
  | .treadmillFlip newmem roots =>
    if t.free = t.bottom ∧ t.scan = t.top then some (treadmillFlip t newmem roots) else none

/-- `p` is on the way around the ring. -/
def OnRing (t : Treadmill) (p : ℕ) : Prop := ∃ i, t.links.cw^[i] t.free = p

/-- A cell of the ring outside the white segment that is not the last ecru cell. -/
def Insertable (t : Treadmill) (p : ℕ) : Prop :=
  OnRing t p ∧ ¬ White t p ∧ ¬ (p = t.top ∧ p = t.bottom)

/-- The block is new, and not a single cell. -/
def Growable (t : Treadmill) (newmem : ℕ) : Prop :=
  t.allocationRequest ≠ 1 ∧
    ∀ p, newmem ≤ p → p < newmem + allocSize t → ¬ OnRing t p

/-- Inserts are insertable when they happen, and a flip that finds memory low can grow the heap. -/
def Allowed (t : Treadmill) : Operation → Prop
  | .insertTreadmill p => Insertable t p
  | .treadmillFlip newmem roots => (memoryLow t = true → Growable t newmem) ∧
    Meets Insertable (fun t p => some (insertTreadmill t p)) (flipRing t newmem) roots
  | _ => True

/-- The ring has its four segments, and the counter has the number of its cells. -/
def Whole (t : Treadmill) : Prop :=
  ∃ cells white ecru grey black, Segments cells t white ecru grey black ∧
    t.totalMemoryAllocated = cells.length

theorem onRing_iff (h : Segments cells t white ecru grey black) : OnRing t p ↔ p ∈ cells := by
  rw [← h.perm.mem_iff]
  have hfree : t.free ∈ white ++ ecru ++ grey ++ black := List.mem_of_head? h.ring_head?
  constructor
  · rintro ⟨i, rfl⟩
    induction i with
    | zero => exact hfree
    | succ i ih =>
      rw [Function.iterate_succ_apply']
      exact h.ring.cw_mem ih
  · intro hp
    obtain ⟨i, hi⟩ := List.mem_iff_getElem?.mp hp
    have hlt := (List.getElem?_eq_some_iff.mp hi).1
    rw [h.ring.getElem?_iterate_cw h.ring_head? hlt] at hi
    exact ⟨i, Option.some.inj hi⟩

theorem totalMemoryAllocated_insertTreadmill (t : Treadmill) (p : ℕ) :
    (insertTreadmill t p).totalMemoryAllocated = t.totalMemoryAllocated := by
  rw [insertTreadmill]
  split_ifs <;> rfl

theorem Whole.insertTreadmill (h : Whole t) (hp : Insertable t p) :
    Whole (insertTreadmill t p) := by
  rcases h with ⟨cells, white, ecru, grey, black, hseg, htotal⟩
  have hp' : TreadmillRing.Insertable cells t p := ⟨(onRing_iff hseg).mp hp.1, hp.2⟩
  rcases hseg.insertTreadmill hp' with ⟨ecru', grey', hseg'⟩
  refine ⟨_, _, _, _, _, hseg', ?_⟩
  rw [totalMemoryAllocated_insertTreadmill, htotal]

theorem Whole.foldl_insertTreadmill {roots : List ℕ} (h : Whole t)
    (hroots : Meets Insertable (fun t p => some (TreadmillRing.insertTreadmill t p)) t roots) :
    Whole (roots.foldl TreadmillRing.insertTreadmill t) := by
  induction roots generalizing t with
  | nil => exact h
  | cons p roots ih => exact ih (h.insertTreadmill hroots.1) (hroots.2 _ rfl)

theorem Whole.with_counters (h : Whole t) (i : ℕ) (r : ℤ) :
    Whole { t with insertsPerCycle := i, allocationRequest := r } := by
  rcases h with ⟨cells, white, ecru, grey, black, hseg, htotal⟩
  exact ⟨_, _, _, _, _, hseg.with_counters i t.totalMemoryAllocated r, htotal⟩

/-- A flip of the ring, with or without new memory. -/
theorem Whole.flipRing (h : Segments cells t [] ecru [] black)
    (htotal : t.totalMemoryAllocated = cells.length)
    (hgrow : memoryLow t = true → Growable t newmem) : Whole (flipRing t newmem) := by
  have hturn := h.turn_segments
  have hecru : ecru ≠ [] := by
    rintro rfl
    simpa using h.bottom_eq
  simp only [TreadmillRing.flipRing, memoryLow_turn]
  cases hlow : memoryLow t with
  | false =>
    have hwhole : Whole (turn t) := ⟨_, _, _, _, _, hturn, htotal⟩
    exact hwhole.with_counters _ (-1)
  | true =>
    have hfresh : Fresh cells newmem (allocSize t) := by
      intro p hp hblock
      exact (hgrow hlow).2 p hblock.1 hblock.2 ((onRing_iff h).mpr hp)
    have hsize : allocSize (turn t) ≠ 1 := by
      have hrequest := (hgrow hlow).1
      show allocSize t ≠ 1
      rw [allocSize]
      split_ifs <;> omega
    have hwhole : Whole (addMemory (turn t) newmem) := by
      refine ⟨_, _, _, _, _, segments_addMemory hturn hecru hfresh hsize, ?_⟩
      rw [totalMemoryAllocated_addMemory, List.length_append, List.length_range', ← htotal]
      rfl
    exact hwhole.with_counters _ (-1)

theorem Whole.step {t' : Treadmill} {o : Operation} (h : Whole t) (ha : Allowed t o)
    (hs : step t o = some t') : Whole t' := by
  have hget {c : ℕ} {u : Treadmill} (hc : getCell t = some (c, u)) : Whole u := by
    rcases h with ⟨cells, white, ecru, grey, black, hseg, htotal⟩
    cases white with
    | nil =>
      rw [hseg.getCell_eq_none] at hc
      cases hc
    | cons d white =>
      rcases hseg.getCell_white with ⟨u', hu', hseg'⟩
      have hu : u' = u := by
        rw [hu'] at hc
        cases hc
        rfl
      refine ⟨_, _, _, _, _, hu ▸ hseg', ?_⟩
      rw [getCell] at hc
      split_ifs at hc
      cases hc
      exact htotal
  cases o with
  | getCell =>
    rcases Option.map_eq_some_iff.mp hs with ⟨⟨c, u⟩, hc, rfl⟩
    exact hget hc
  | mkVector len =>
    rw [HeapGrowth.step, mkVector, Option.map_map] at hs
    rcases Option.map_eq_some_iff.mp hs with ⟨⟨c, u⟩, hc, rfl⟩
    exact (hget hc).with_counters _ _
  | insertTreadmill p =>
    obtain rfl := Option.some.inj hs
    exact h.insertTreadmill ha
  | advance =>
    rw [HeapGrowth.step] at hs
    split_ifs at hs with hne
    obtain rfl := Option.some.inj hs
    rcases h with ⟨cells, white, ecru, grey, black, hseg, htotal⟩
    cases grey using List.reverseRecOn with
    | nil => exact absurd (hseg.scan_eq_top.mpr rfl) hne
    | append_singleton grey c => exact ⟨_, _, _, _, _, hseg.advance_grey.2, htotal⟩
  | treadmillFlip newmem roots =>
    rw [HeapGrowth.step] at hs
    split_ifs at hs with hready
    obtain rfl := Option.some.inj hs
    rcases h with ⟨cells, white, ecru, grey, black, hseg, htotal⟩
    obtain rfl := hseg.free_eq_bottom.mp hready.1
    obtain rfl := hseg.scan_eq_top.mp hready.2
    have hflip := Whole.flipRing hseg htotal ha.1
    exact (hflip.foldl_insertTreadmill ha.2).with_counters 0 _

/-- After every run in which no growing flip has a request for one cell, the ring is whole. -/
theorem whole_run {newp : ℕ} {os : List Operation} (hn : 2 ≤ n)
    (hok : Meets Allowed step (allocCellseg newp n) os)
    (hrun : run step (allocCellseg newp n) os = some t) : Whole t := by
  apply run_invariant (fun _ _ _ h ha hs => h.step ha hs) _ hok hrun
  refine ⟨_, _, _, _, _, segments_allocCellseg hn, ?_⟩
  rw [List.length_range']
  rfl

/-- The lengths of the vectors made since the last flip. -/
def sinceFlip (lengths : List ℕ) : List Operation → List ℕ
  | [] => lengths
  | .mkVector len :: os => sinceFlip (len :: lengths) os
  | .treadmillFlip _ _ :: os => sinceFlip [] os
  | _ :: os => sinceFlip lengths os

theorem allocationRequest_insertTreadmill (t : Treadmill) (p : ℕ) :
    (insertTreadmill t p).allocationRequest = t.allocationRequest := by
  rw [insertTreadmill]
  split_ifs <;> rfl

theorem allocationRequest_treadmillFlip (t : Treadmill) (newmem : ℕ) (roots : List ℕ) :
    (treadmillFlip t newmem roots).allocationRequest = -1 := by
  have hfold (u : Treadmill) (hu : u.allocationRequest = -1) :
      (roots.foldl insertTreadmill u).allocationRequest = -1 := by
    induction roots generalizing u with
    | nil => exact hu
    | cons p roots ih =>
      exact ih _ (by rw [allocationRequest_insertTreadmill, hu])
  exact hfold _ rfl

/-- The request is what the vectors since the last flip add up to, less one. -/
theorem allocationRequest_run {lengths : List ℕ} {os : List Operation}
    (h : t.allocationRequest = -1 + lengths.sum) (hrun : run step t os = some u) :
    u.allocationRequest = -1 + (sinceFlip lengths os).sum := by
  induction os generalizing t lengths with
  | nil =>
    obtain rfl := Option.some.inj hrun
    exact h
  | cons o os ih =>
    rcases run_cons_eq_some.mp hrun with ⟨s, hs, hrun⟩
    have hget {c : ℕ} {s : Treadmill} (hc : getCell t = some (c, s)) :
        s.allocationRequest = t.allocationRequest := by
      rw [getCell] at hc
      split_ifs at hc
      cases hc
      rfl
    cases o with
    | getCell =>
      rcases Option.map_eq_some_iff.mp hs with ⟨⟨c, s'⟩, hc, rfl⟩
      exact ih ((hget hc).trans h) hrun
    | mkVector len =>
      rw [step, mkVector, Option.map_map] at hs
      rcases Option.map_eq_some_iff.mp hs with ⟨⟨c, s'⟩, hc, rfl⟩
      refine ih ?_ hrun
      show s'.allocationRequest + len = _
      rw [hget hc, h, List.sum_cons]
      omega
    | insertTreadmill p =>
      obtain rfl := Option.some.inj hs
      exact ih ((allocationRequest_insertTreadmill t p).trans h) hrun
    | advance =>
      rw [step] at hs
      split_ifs at hs
      obtain rfl := Option.some.inj hs
      exact ih (t := advance t) h hrun
    | treadmillFlip newmem roots =>
      rw [step] at hs
      split_ifs at hs
      obtain rfl := Option.some.inj hs
      exact ih (allocationRequest_treadmillFlip t newmem roots) hrun

end Extempore.HeapGrowth
