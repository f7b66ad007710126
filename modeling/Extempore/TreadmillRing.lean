import Mathlib.Data.List.Perm.Basic
import Extempore.LinkedRings
import Extempore.GuardedRuns

/-!
# The treadmill of the Scheme heap

All cells of a Scheme process sit on one doubly linked ring. The pointers `free`,
`bottom`, `top` and `scan` cut it, going clockwise, into a white segment
`[free, bottom)`, an ecru segment `[bottom, top]`, a grey segment `(top, scan]` and a
black segment `(scan, free)`. Allocation takes the cell at `free`, the write barrier
moves an ecru cell to the grey end, the scanner walks counter-clockwise from `scan` to
`top`, and a flip renames the segments without touching a link.
-/

namespace Extempore.TreadmillRing
open LinkedRings GuardedRuns

/-- The part of `scheme` and `cell` that the treadmill uses; a pointer is the index of a
cell in memory. `insertsPerCycle`,
`totalMemoryAllocated` and `allocationRequest` only decide when a flip adds memory. -/
structure Treadmill where
  links : Links ℕ
  colour : ℕ → Bool
  dark : Bool
  free : ℕ
  bottom : ℕ
  top : ℕ
  scan : ℕ
  insertsPerCycle : ℕ
  totalMemoryAllocated : ℕ
  allocationRequest : ℤ

/-- `alloc_cellseg`: the `n` cells from `newp` on, half of them free, the rest ecru.
The source has one segment of `CELL_SEGSIZE = 1500000` cells. -/
def allocCellseg (newp n : ℕ) : Treadmill :=
  let links : Links ℕ :=
    { cw := fun p => if p = newp + n - 1 then newp else p + 1
      ccw := fun p => if p = newp then newp + n - 1 else p - 1 }
  { links
    colour := fun _ => false
    dark := true
    free := newp
    bottom := links.cw^[n / 2] newp
    top := links.ccw newp
    scan := links.ccw newp
    insertsPerCycle := 0
    totalMemoryAllocated := n
    allocationRequest := -1 }

/-- The common tail of `insert_treadmill`: `p` leaves its place and becomes the grey
cell next to `top`. -/
def relink (t : Treadmill) (p : ℕ) : Treadmill :=
  { t with
    scan := if t.scan = t.top then p else t.scan
    insertsPerCycle := t.insertsPerCycle + 1
    links := t.links.moveAfter p t.top
    colour := Function.update t.colour p t.dark }

/-- `insert_treadmill`. A dark cell stays where it is; `top` and `bottom` step aside
when they are the cell to be moved. The last test is the error exit for a free cell. -/
def insertTreadmill (t : Treadmill) (p : ℕ) : Treadmill :=
  if t.colour p = t.dark then t
  else if p = t.top then
    relink { t with top := t.links.ccw t.top } p
  else if p = t.bottom then
    relink { t with
      free := if t.bottom = t.free then t.links.cw t.bottom else t.free
      bottom := t.links.cw t.bottom } p
  else if p = t.free then t
  else relink t p

/-- `get_cell` once a free cell is there; `none` is the state in which it flips first. -/
def getCell (t : Treadmill) : Option (ℕ × Treadmill) :=
  if t.free = t.bottom then none
  else some (t.free, { t with
    free := t.links.cw t.free
    colour := Function.update t.colour t.free t.dark })

/-- The last statement of a scanner iteration. -/
def advance (t : Treadmill) : Treadmill := { t with scan := t.links.ccw t.scan }

/-- The pointer assignments of `treadmill_flip`. -/
def turn (t : Treadmill) : Treadmill :=
  { t with
    dark := !t.dark
    bottom := t.links.cw t.top
    top := t.links.ccw t.free
    scan := t.links.ccw t.free }

/-- The unsigned comparison with which a flip decides to add memory. -/
@[irreducible] def memoryLow (t : Treadmill) : Bool :=
  decide ((t.totalMemoryAllocated / 2 + (2 ^ 64 - 20000)) % 2 ^ 64 < t.insertsPerCycle)

/-- One turn of the loop that threads the cell `p` of a fresh block into the ring. -/
def addCell (first last : ℕ) (t : Treadmill) (p : ℕ) : Treadmill :=
  let colour := Function.update t.colour p (!t.dark)
  let ccw := if p = last then Function.update t.links.ccw t.bottom p else t.links.ccw
  let cw := if p = first then Function.update t.links.cw (ccw t.bottom) p else t.links.cw
  let cw := Function.update cw p (if p = last then t.bottom else p + 1)
  let ccw := Function.update ccw p (if p = first then ccw t.bottom else p - 1)
  { t with colour, links := { cw, ccw } }

/-- The memory-growing branch of `treadmill_flip`, with the block that `malloc` returned. -/
def addMemory (t : Treadmill) (newmem : ℕ) : Treadmill :=
  let allocSize := if 0 ≤ t.allocationRequest then t.allocationRequest.toNat else 100000
  let t := { t with totalMemoryAllocated := t.totalMemoryAllocated + allocSize }
  (List.range' newmem allocSize).foldl (addCell newmem (newmem + allocSize - 1)) t

/-- `treadmill_flip` up to the call of `treadmill_mark_roots`. -/
def flipRing (t : Treadmill) (newmem : ℕ) : Treadmill :=
  let t := turn t
  { (if memoryLow t then addMemory t newmem else t) with allocationRequest := -1 }

/-- `treadmill_flip`: turn the ring, mark the roots, start a new cycle count. -/
def treadmillFlip (t : Treadmill) (newmem : ℕ) (roots : List ℕ) : Treadmill :=
  { roots.foldl insertTreadmill (flipRing t newmem) with insertsPerCycle := 0 }

/-- `p` lies on the clockwise way from `free` before `bottom`. -/
def White (t : Treadmill) (p : ℕ) : Prop :=
  ∃ i, t.links.cw^[i] t.free = p ∧ ∀ j ≤ i, t.links.cw^[j] t.free ≠ t.bottom

/-- The four segments of the ring over the allocated cells, each listed clockwise. -/
structure Segments (cells : List ℕ) (t : Treadmill)
    (white ecru grey black : List ℕ) : Prop where
  ring : Ring t.links (white ++ ecru ++ grey ++ black)
  perm : (white ++ ecru ++ grey ++ black).Perm cells
  free_eq : (white ++ ecru).head? = some t.free
  bottom_eq : ecru.head? = some t.bottom
  top_eq : ecru.getLast? = some t.top
  scan_eq : (ecru ++ grey).getLast? = some t.scan
  ecru_light : ∀ c ∈ ecru, t.colour c ≠ t.dark
  dark : ∀ c ∈ grey ++ black, t.colour c = t.dark
  /-- The white segment never runs out before something was allocated or shaded. -/
  used : white ++ grey ++ black ≠ []

namespace Segments

variable {cells white ecru grey black : List ℕ} {t : Treadmill} {p : ℕ}

theorem nodup (h : Segments cells t white ecru grey black) :
    (white ++ ecru ++ grey ++ black).Nodup := h.ring.nodup

theorem mem_cells (h : Segments cells t white ecru grey black) :
    p ∈ cells ↔ p ∈ white ∨ p ∈ ecru ∨ p ∈ grey ∨ p ∈ black := by
  rw [← h.perm.mem_iff]
  simp

theorem free_eq_bottom (h : Segments cells t white ecru grey black) :
    t.free = t.bottom ↔ white = [] := by
  have hf := h.free_eq
  have hb := h.bottom_eq
  cases white with
  | nil => simpa [hb, eq_comm] using hf
  | cons c white =>
    have hc : c = t.free := by simpa using hf
    have hm : t.bottom ∈ ecru := List.mem_of_head? hb
    have hn : c ∉ ecru := fun hce => by
      have hnd := h.nodup
      simp only [List.cons_append, List.nodup_cons, List.mem_append] at hnd
      exact hnd.1 (by simp [hce])
    subst hc
    simp only [reduceCtorEq, iff_false]
    rintro he
    exact hn (he ▸ hm)

theorem scan_eq_top (h : Segments cells t white ecru grey black) :
    t.scan = t.top ↔ grey = [] := by
  have ht := h.top_eq
  have hs := h.scan_eq
  rcases List.eq_nil_or_concat' grey with rfl|⟨grey, c, rfl⟩
  · simpa [ht, eq_comm] using hs
  · have hc : c = t.scan := by simpa using hs
    have hm : t.top ∈ ecru := List.mem_of_getLast? ht
    have hnd := h.nodup
    simp only [List.nodup_append, List.mem_append] at hnd
    subst hc
    simp only [List.append_eq_nil_iff, List.cons_ne_self, and_false, iff_false]
    intro he
    exact hnd.1.2.2 t.top (.inr hm) t.scan (by simp) he.symm

/-- A light cell outside the white segment is ecru. -/
theorem mem_ecru (h : Segments cells t white ecru grey black) (hp : p ∈ cells)
    (hw : p ∉ white) (hc : t.colour p ≠ t.dark) : p ∈ ecru := by
  rcases h.mem_cells.mp hp with hm|hm|hm|hm
  · exact absurd hm hw
  · exact hm
  · exact absurd (h.dark p (by simp [hm])) hc
  · exact absurd (h.dark p (by simp [hm])) hc

/-- The common tail of all three ways in which an ecru cell is moved: `at` is the last
ecru cell that stays, the ring is known after the move. -/
private theorem relink_spec {t' : Treadmill} {l r : List ℕ}
    (h : Segments cells t white (l ++ p :: r) grey black)
    (hring : Ring (t'.links.moveAfter p t'.top) (white ++ (l ++ r) ++ p :: grey ++ black))
    (hcol : t'.colour = t.colour) (hdark : t'.dark = t.dark)
    (hfree : (white ++ (l ++ r)).head? = some t'.free)
    (hbottom : (l ++ r).head? = some t'.bottom)
    (htop : (l ++ r).getLast? = some t'.top)
    (hscan : (l ++ r ++ p :: grey).getLast? = some (if t'.scan = t'.top then p else t'.scan)) :
    Segments cells (relink t' p) white (l ++ r) (p :: grey) black := by
  have hnd := hring.nodup
  refine ⟨hring, ?_, hfree, hbottom, htop, hscan, ?_, ?_, by simp⟩
  · refine List.Perm.trans ?_ h.perm
    simp only [List.append_assoc, List.cons_append]
    refine List.Perm.append_left white (List.Perm.append_left l ?_)
    exact List.perm_middle
  · intro c hc
    have hcp : c ≠ p := by grind
    have hl := h.ecru_light c (by simp at hc ⊢; tauto)
    simpa [relink, hcp, hcol, hdark] using hl
  · intro c hc
    by_cases hcp : c = p
    · simp [relink, hcp, hdark]
    · have hl := h.dark c (by simp at hc ⊢; tauto)
      simpa [relink, hcp, hcol, hdark] using hl

/-- The cell at `top` is moved, and `top` steps one cell counter-clockwise. -/
private theorem insertTreadmill_top {l : List ℕ} {x : ℕ}
    (h : Segments cells t white (l ++ [x] ++ [p]) grey black) :
    Segments cells (insertTreadmill t p) white (l ++ [x] ++ []) (p :: grey) black := by
  have hlight : t.colour p ≠ t.dark := h.ecru_light p (by simp)
  have hnd := h.nodup
  have htop : p = t.top := by simpa using h.top_eq
  have hring : Ring t.links ((white ++ l) ++ x :: ([] ++ p :: (grey ++ black))) := by
    simpa using h.ring
  have hx : t.links.ccw t.top = x := by
    rw [← htop]
    exact hring.linked.2
  have hscan : t.scan ≠ x := by
    have hs := h.scan_eq
    rintro he
    rw [he] at hs
    have hm : x ∈ p :: grey := by
      have hs' : (p :: grey).getLast? = some x := by simpa [List.getLast?_append] using hs
      exact List.mem_of_getLast? hs'
    grind
  have hmove : Ring (t.links.moveAfter p x) (white ++ (l ++ [x] ++ []) ++ p :: grey ++ black) := by
    simpa using hring.moveAfter_of_after
  have he : insertTreadmill t p = relink { t with top := x } p := by
    rw [insertTreadmill, if_neg hlight, if_pos htop, hx]
  rw [he]
  refine relink_spec h hmove rfl rfl ?_ ?_ (by simp) ?_
  · simpa [List.head?_append] using h.free_eq
  · simpa [List.head?_append] using h.bottom_eq
  · have hs := h.scan_eq
    simp only [if_neg hscan]
    simpa [List.getLast?_append] using hs

/-- What a move of a cell in front of the last ecru cell `z` leaves: the ring behind the move and
the place of `scan`. -/
private structure MovedBefore (t : Treadmill) (p : ℕ) (white l r grey black : List ℕ) (z : ℕ) :
    Prop where
  top : z = t.top
  ne_top : p ≠ t.top
  ring : Ring (t.links.moveAfter p t.top) (white ++ (l ++ (r ++ [z])) ++ p :: grey ++ black)
  scan : (l ++ (r ++ [z]) ++ p :: grey).getLast? = some (if t.scan = t.top then p else t.scan)

private theorem movedBefore {l r : List ℕ} {z : ℕ}
    (h : Segments cells t white (l ++ p :: (r ++ [z])) grey black) :
    MovedBefore t p white l r grey black z := by
  have hnd := h.nodup
  have htop : z = t.top := by
    have ht := h.top_eq
    rw [← List.cons_append, ← List.append_assoc, List.getLast?_concat] at ht
    exact Option.some.inj ht
  refine ⟨htop, ?_, ?_, ?_⟩
  · rw [← htop]
    grind
  · have hring : Ring t.links ((white ++ l) ++ p :: (r ++ z :: (grey ++ black))) := by
      simpa using h.ring
    rw [← htop]
    simpa using hring.moveAfter_of_before
  · rcases List.eq_nil_or_concat' grey with rfl|⟨g, c, rfl⟩
    · simp [h.scan_eq_top.mpr rfl]
    · have hs : t.scan ≠ t.top := by simp [h.scan_eq_top]
      have hc := h.scan_eq
      rw [← List.append_assoc, List.getLast?_concat] at hc
      rw [← List.cons_append, ← List.append_assoc, List.getLast?_concat, hc, if_neg hs]

/-- The cell at `bottom` is moved, and `bottom` steps one cell clockwise, `free` with it if there is
no white cell. -/
private theorem insertTreadmill_bottom {r : List ℕ} {z : ℕ}
    (h : Segments cells t white (p :: (r ++ [z])) grey black) :
    Segments cells (insertTreadmill t p) white (r ++ [z]) (p :: grey) black := by
  have hlight : t.colour p ≠ t.dark := h.ecru_light p (by simp)
  have hmoved := @movedBefore _ _ _ _ _ _ [] r z h
  have hpb : p = t.bottom := by simpa using h.bottom_eq
  obtain ⟨y, r', hy⟩ : ∃ y r', r ++ [z] = y :: r' := List.exists_cons_of_ne_nil (by simp)
  have hcw : t.links.cw t.bottom = y := by
    have hring := h.ring
    have hr : Ring t.links (white ++ p :: y :: (r' ++ grey ++ black)) := by
      rw [hy] at hring
      simpa using hring
    rw [← hpb]
    exact hr.linked.1
  have he : insertTreadmill t p = relink { t with
      free := if t.bottom = t.free then y else t.free, bottom := y } p := by
    rw [insertTreadmill, if_neg hlight, if_neg hmoved.ne_top, if_pos hpb, hcw]
  rw [he]
  refine @relink_spec _ _ _ _ _ _ _ [] (r ++ [z]) h hmoved.ring rfl rfl ?_ ?_ ?_ hmoved.scan
  · have hf := h.free_eq
    have hfb := h.free_eq_bottom
    rw [hy]
    cases white with
    | nil => simp [hfb.mpr rfl]
    | cons c white =>
      have hne : t.bottom ≠ t.free := fun he => by simpa using hfb.mp he.symm
      simpa [hne] using hf
  · simp [hy]
  · simp [hmoved.top]

/-- A cell between `bottom` and `top` is moved. -/
private theorem insertTreadmill_between {b z : ℕ} {l r : List ℕ}
    (h : Segments cells t white (b :: l ++ p :: (r ++ [z])) grey black) :
    Segments cells (insertTreadmill t p) white (b :: l ++ (r ++ [z])) (p :: grey) black := by
  have hlight : t.colour p ≠ t.dark := h.ecru_light p (by simp)
  have hnd := h.nodup
  have hmoved := movedBefore h
  have hb : b = t.bottom := by simpa using h.bottom_eq
  have hpb : p ≠ t.bottom := by
    rw [← hb]
    grind
  have hpf : p ≠ t.free := by
    have hf := h.free_eq
    rintro rfl
    rcases white with _ | ⟨c, white⟩
    · exact hpb (h.free_eq_bottom.mpr rfl)
    · have hc : c = t.free := by simpa using hf
      grind
  have he : insertTreadmill t p = relink t p := by
    rw [insertTreadmill, if_neg hlight, if_neg hmoved.ne_top, if_neg hpb, if_neg hpf]
  rw [he]
  refine relink_spec h hmoved.ring rfl rfl ?_ ?_ ?_ hmoved.scan
  · simpa [List.head?_append] using h.free_eq
  · simpa using h.bottom_eq
  · rw [← List.append_assoc, List.getLast?_concat, hmoved.top]

/-- `insert_treadmill` on an ecru cell other than the last one takes it out of the ecru
segment and makes it the grey cell next to `top`. -/
theorem insertTreadmill_ecru {l r : List ℕ}
    (h : Segments cells t white (l ++ p :: r) grey black) (hlr : l ++ r ≠ []) :
    Segments cells (insertTreadmill t p) white (l ++ r) (p :: grey) black := by
  rcases List.eq_nil_or_concat' r with rfl|⟨r, z, rfl⟩
  · rcases List.eq_nil_or_concat' l with rfl|⟨l, x, rfl⟩
    · exact absurd rfl hlr
    · exact insertTreadmill_top h
  · cases l with
    | nil => exact insertTreadmill_bottom h
    | cons b l => exact insertTreadmill_between h

/-- `get_cell` hands out the first white cell and leaves it black. -/
theorem getCell_white (h : Segments cells t (p :: white) ecru grey black) :
    ∃ t', getCell t = some (p, t') ∧ Segments cells t' white ecru grey (black ++ [p]) := by
  have hp : p = t.free := by simpa using h.free_eq
  have hfb : t.free ≠ t.bottom := fun he => by simpa using h.free_eq_bottom.mp he
  have hnd := h.nodup
  refine ⟨{ t with free := t.links.cw t.free, colour := Function.update t.colour t.free t.dark },
    by rw [getCell, if_neg hfb, hp], ?_, ?_, ?_, h.bottom_eq, h.top_eq, h.scan_eq, ?_, ?_, by simp⟩
  · have hr : Ring t.links ([p] ++ (white ++ ecru ++ grey ++ black)) := by simpa using h.ring
    simpa using hr.rotate
  · refine List.Perm.trans ?_ h.perm
    rw [← List.append_assoc]
    exact List.perm_append_singleton _ _
  · -- the clockwise neighbour of the old `free` is the first cell of what remains
    obtain ⟨c, l, hc⟩ : ∃ c l, white ++ ecru = c :: l := by
      refine List.exists_cons_of_ne_nil ?_
      have hb := h.bottom_eq
      rintro he
      simp [(List.append_eq_nil_iff.mp he).2] at hb
    have hr : Ring t.links (p :: c :: (l ++ grey ++ black)) := by
      have hr := h.ring
      simp only [List.cons_append, hc] at hr
      simpa using hr
    rw [hc, ← hp]
    simp [hr.linked_head.1]
  · intro c hc
    have hcp : c ≠ t.free := by rw [← hp]; grind
    simpa [hcp] using h.ecru_light c hc
  · intro c hc
    by_cases hcp : c = t.free
    · simp [hcp]
    · have hc' : c ∈ grey ++ black := by simp [← hp] at hc hcp ⊢; tauto
      simpa [hcp] using h.dark c hc'

theorem getCell_eq_none (h : Segments cells t [] ecru grey black) : getCell t = none := by
  rw [getCell, if_pos (h.free_eq_bottom.mpr rfl)]

/-- A scanner iteration turns the grey cell at `scan` black. -/
theorem advance_grey (h : Segments cells t white ecru (grey ++ [p]) black) :
    t.scan = p ∧ Segments cells (advance t) white ecru grey (p :: black) := by
  have hp : p = t.scan := by
    have hs := h.scan_eq
    rw [← List.append_assoc, List.getLast?_concat] at hs
    exact Option.some.inj hs
  refine ⟨hp.symm, by simpa [advance] using h.ring, by simpa [advance] using h.perm, h.free_eq,
    h.bottom_eq, h.top_eq, ?_, h.ecru_light, by simpa [advance, or_assoc] using h.dark, by simp⟩
  obtain ⟨l, c, hc⟩ : ∃ l c, ecru ++ grey = l ++ [c] := by
    rcases List.eq_nil_or_concat' (ecru ++ grey) with he|he
    · have hb := h.bottom_eq
      simp [(List.append_eq_nil_iff.mp he).1] at hb
    · exact he
  have hr : Ring t.links ((white ++ l) ++ c :: p :: black) := by
    have hr := h.ring
    rw [show white ++ ecru ++ (grey ++ [p]) ++ black = white ++ (ecru ++ grey) ++ p :: black by simp,
      hc] at hr
    simpa using hr
  rw [hc, advance, ← hp, hr.linked.2]
  simp

/-- With nothing white and nothing grey, turning the ring makes the ecru cells white and
the black cells ecru. -/
theorem turn_segments (h : Segments cells t [] ecru [] black) :
    Segments cells (turn t) ecru black [] [] := by
  have hfb := h.free_eq_bottom.mpr rfl
  obtain ⟨c, l, hc⟩ : ∃ c l, black = c :: l :=
    List.exists_cons_of_ne_nil (by simpa using h.used)
  obtain ⟨l', z, hz⟩ : ∃ l' z, black = l' ++ [z] := by
    rcases List.eq_nil_or_concat' black with he|he
    · simp [he] at hc
    · exact he
  obtain ⟨b, m, hb⟩ : ∃ b m, ecru = b :: m := by
    refine List.exists_cons_of_ne_nil ?_
    rintro rfl
    simpa using h.bottom_eq
  obtain ⟨m', y, hy⟩ : ∃ m' y, ecru = m' ++ [y] := by
    rcases List.eq_nil_or_concat' ecru with he|he
    · simp [he] at hb
    · exact he
  have hbot : b = t.bottom := by simpa [hb] using h.bottom_eq
  have htop : y = t.top := by simpa [hy] using h.top_eq
  have hcw : t.links.cw t.top = c := by
    have hr : Ring t.links (m' ++ y :: c :: l) := by simpa [hy, hc] using h.ring
    rw [← htop]
    exact hr.linked.1
  have hccw : t.links.ccw t.free = z := by
    have hr : Ring t.links (b :: ((m ++ l') ++ [z])) := by simpa [hb, hz] using h.ring
    rw [hfb, ← hbot]
    exact hr.linked_closing.2
  refine ⟨by simpa [turn] using h.ring, by simpa using h.perm, ?_, ?_, ?_, ?_, ?_, by simp, ?_⟩
  · simp [hb, turn, hfb, hbot]
  · simp [hc, turn, hcw]
  · simp [hz, turn, hccw]
  · simp [hz, turn, hccw]
  · intro d hd
    have hdark := h.dark d (by simpa using hd)
    simp [turn, hdark]
  · simp [hb]

end Segments

/-- The counters are no part of the ring. -/
theorem Segments.with_counters {cells white ecru grey black : List ℕ} {t : Treadmill}
    (h : Segments cells t white ecru grey black) (i m : ℕ) (r : ℤ) :
    Segments cells
      { t with insertsPerCycle := i, totalMemoryAllocated := m, allocationRequest := r }
      white ecru grey black :=
  ⟨h.ring, h.perm, h.free_eq, h.bottom_eq, h.top_eq, h.scan_eq, h.ecru_light, h.dark, h.used⟩

@[simp] theorem memoryLow_turn (t : Treadmill) : memoryLow (turn t) = memoryLow t := by
  simp only [memoryLow, turn]

/-- Without new memory a flip of the ring is only a renaming of its segments. -/
theorem flipRing_segments {cells ecru black : List ℕ} {t : Treadmill}
    (h : Segments cells t [] ecru [] black) (hm : memoryLow t = false) (newmem : ℕ) :
    Segments cells (flipRing t newmem) ecru black [] [] := by
  simp only [flipRing, memoryLow_turn, hm, Bool.false_eq_true, if_false]
  exact h.turn_segments.with_counters _ _ (-1)

/-! ## The segment that `alloc_cellseg` builds -/

private theorem iterate_cw_allocCellseg (newp : ℕ) {n i : ℕ} (hi : i < n) :
    (allocCellseg newp n).links.cw^[i] newp = newp + i := by
  induction i with
  | zero => rfl
  | succ i ih =>
    rw [Function.iterate_succ_apply', ih (by omega)]
    simp only [allocCellseg]
    split <;> omega

private theorem ring_allocCellseg (newp : ℕ) {n : ℕ} (hn : 0 < n) :
    Ring (allocCellseg newp n).links (List.range' newp n) := by
  obtain ⟨m, rfl⟩ : ∃ m, n = m + 1 := ⟨n - 1, by omega⟩
  rw [List.range'_succ]
  refine Ring.of_isChain (by simpa [List.range'_succ] using List.nodup_range' (n := m + 1)) ?_
  rw [← List.cons_append, ← List.range'_succ]
  refine List.IsChain.append ?_ (List.isChain_singleton newp) ?_
  · refine (List.isChain_range' newp (m + 1) 1).imp_of_mem_imp ?_
    intro a b ha hb hab
    obtain ⟨hab⟩ := hab
    rw [List.mem_range'_1] at ha hb
    simp only [Links.Linked, allocCellseg]
    constructor <;> split <;> omega
  · intro a ha b hb
    simp [List.getLast?_range'] at ha
    obtain rfl : newp = b := by simpa using hb
    simp only [Links.Linked, allocCellseg, if_true]
    constructor
    · split <;> omega
    · omega

/-- The initial ring: half of the cells are white, the others ecru. -/
theorem segments_allocCellseg {newp n : ℕ} (hn : 2 ≤ n) :
    Segments (List.range' newp n) (allocCellseg newp n) (List.range' newp (n / 2))
      (List.range' (newp + n / 2) (n - n / 2)) [] [] := by
  have happ : List.range' newp (n / 2) ++ List.range' (newp + n / 2) (n - n / 2) =
      List.range' newp n := by
    have h := @List.range'_append newp (n / 2) (n - n / 2) 1
    rwa [Nat.one_mul, show n / 2 + (n - n / 2) = n by omega] at h
  have hlast : (allocCellseg newp n).links.ccw newp = newp + n - 1 := by simp [allocCellseg]
  have hbot : (allocCellseg newp n).bottom = newp + n / 2 :=
    iterate_cw_allocCellseg newp (by omega)
  refine ⟨?_, ?_, ?_, ?_, ?_, ?_, ?_, by simp, ?_⟩
  · simpa [happ] using ring_allocCellseg newp (by omega : 0 < n)
  · simp [happ]
  · rw [happ, List.head?_range', if_neg (by omega)]
    rfl
  · rw [List.head?_range', if_neg (by omega), hbot]
  · rw [List.getLast?_range', if_neg (by omega)]
    simp only [allocCellseg, if_true]
    congr 1
    omega
  · rw [List.append_nil, List.getLast?_range', if_neg (by omega)]
    simp only [allocCellseg, if_true]
    congr 1
    omega
  · intro c _
    simp [allocCellseg]
  · simp only [List.append_nil, ne_eq, List.range'_eq_nil_iff]
    omega

/-! ## Runs of the ring -/

/-- The operations on the ring. A flip names the cells that it marks as roots; a `get_cell`
that finds no free cell is such a flip and a `get_cell` after it. -/
inductive Operation where
  | getCell
  | insertTreadmill (p : ℕ)
  | advance
  | treadmillFlip (roots : List ℕ)
  deriving DecidableEq

/-- One operation, `none` where it is not enabled. A flip waits until no free cell is left
and the scanner has caught up. -/
def step (t : Treadmill) : Operation → Option Treadmill
  | .getCell => (getCell t).map Prod.snd
  | .insertTreadmill p => some (insertTreadmill t p)
  | .advance => if t.scan = t.top then none else some (advance t)
  | .treadmillFlip roots =>
    if t.free = t.bottom ∧ t.scan = t.top then some (treadmillFlip t 0 roots) else none

/-- An insert is about a cell outside the white segment and not the last ecru cell. -/
def Insertable (cells : List ℕ) (t : Treadmill) (p : ℕ) : Prop :=
  p ∈ cells ∧ ¬ White t p ∧ ¬ (p = t.top ∧ p = t.bottom)

/-- Inserts are insertable when they happen, flips do not have to add memory. -/
def Allowed (cells : List ℕ) (t : Treadmill) : Operation → Prop
  | .insertTreadmill p => Insertable cells t p
  | .treadmillFlip roots => memoryLow t = false ∧
    Meets (Insertable cells) (fun t p => some (insertTreadmill t p)) (flipRing t 0) roots
  | _ => True

theorem Segments.ring_head? {cells white ecru grey black : List ℕ} {t : Treadmill}
    (h : Segments cells t white ecru grey black) :
    (white ++ ecru ++ grey ++ black).head? = some t.free := by
  rw [List.append_assoc, List.head?_append, h.free_eq]
  rfl

theorem Segments.white_iff {cells white ecru grey black : List ℕ} {t : Treadmill} {p : ℕ}
    (h : Segments cells t white ecru grey black) : White t p ↔ p ∈ white := by
  obtain ⟨b, l, hb⟩ : ∃ b l, ecru = b :: l := by
    refine List.exists_cons_of_ne_nil ?_
    rintro rfl
    simpa using h.bottom_eq
  have hbot : b = t.bottom := by simpa [hb] using h.bottom_eq
  have hlen : white.length < (white ++ ecru ++ grey ++ black).length := by
    simp only [hb, List.length_append, List.length_cons]
    omega
  have hget {i : ℕ} (hi : i ≤ white.length) :
      (white ++ (ecru ++ (grey ++ black)))[i]? = some (t.links.cw^[i] t.free) := by
    simpa using h.ring.getElem?_iterate_cw h.ring_head? (by omega : i < _)
  have hwhite {i : ℕ} (hi : i < white.length) : white[i]? = some (t.links.cw^[i] t.free) := by
    rw [← hget hi.le, List.getElem?_append_left hi]
  have hend : t.links.cw^[white.length] t.free = t.bottom := by
    have hg := hget le_rfl
    rw [List.getElem?_append_right le_rfl] at hg
    simpa [hb, hbot, eq_comm] using hg
  constructor
  · rintro ⟨i, rfl, hne⟩
    have hiw : i < white.length := by
      by_contra hcon
      exact hne white.length (by omega) hend
    exact List.mem_of_getElem? (hwhite hiw)
  · intro hp
    obtain ⟨i, hi⟩ := List.mem_iff_getElem?.mp hp
    have hiw : i < white.length := (List.getElem?_eq_some_iff.mp hi).1
    refine ⟨i, Option.some.inj ((hwhite hiw).symm.trans hi), ?_⟩
    intro j hj he
    have hm : t.bottom ∈ white := he ▸ List.mem_of_getElem? (hwhite (by omega : j < _))
    have hm' : t.bottom ∈ ecru := List.mem_of_head? h.bottom_eq
    have hnd := h.nodup
    grind

/-- An insert leaves the white and the black segment alone. -/
theorem Segments.insertTreadmill {cells white ecru grey black : List ℕ} {t : Treadmill} {p : ℕ}
    (h : Segments cells t white ecru grey black) (hp : Insertable cells t p) :
    ∃ ecru' grey', Segments cells (insertTreadmill t p) white ecru' grey' black := by
  by_cases hc : t.colour p = t.dark
  · rw [TreadmillRing.insertTreadmill, if_pos hc]
    exact ⟨_, _, h⟩
  · have hm := h.mem_ecru hp.1 (fun hw => hp.2.1 (h.white_iff.mpr hw)) hc
    obtain ⟨l, r, rfl⟩ := List.append_of_mem hm
    have hlr : l ++ r ≠ [] := by
      intro hnil
      obtain ⟨rfl, rfl⟩ := List.append_eq_nil_iff.mp hnil
      exact hp.2.2 ⟨by simpa using h.top_eq, by simpa using h.bottom_eq⟩
    exact ⟨_, _, h.insertTreadmill_ecru hlr⟩

theorem Segments.foldl_insertTreadmill {cells white ecru grey black roots : List ℕ}
    {t : Treadmill} (h : Segments cells t white ecru grey black)
    (hr : Meets (Insertable cells) (fun t p => some (TreadmillRing.insertTreadmill t p)) t roots) :
    ∃ ecru' grey',
      Segments cells (roots.foldl TreadmillRing.insertTreadmill t) white ecru' grey' black := by
  induction roots generalizing t ecru grey with
  | nil => exact ⟨_, _, h⟩
  | cons p roots ih =>
    obtain ⟨ecru', grey', h'⟩ := h.insertTreadmill hr.1
    exact ih h' (hr.2 _ rfl)

/-- A flip without new memory: the old ecru cells are the new white ones, and the old black
cells are the new ecru ones, from which the marked roots become grey. -/
theorem Segments.treadmillFlip {cells white ecru grey black roots : List ℕ} {t t' : Treadmill}
    (h : Segments cells t white ecru grey black)
    (ha : Allowed cells t (.treadmillFlip roots)) (hs : step t (.treadmillFlip roots) = some t') :
    white = [] ∧ grey = [] ∧ Segments cells (flipRing t 0) ecru black [] [] ∧
      ∃ ecru' grey', (ecru' ++ grey').Perm black ∧ Segments cells t' ecru ecru' grey' [] := by
  simp only [step] at hs
  split at hs
  · rename_i hft
    obtain rfl : TreadmillRing.treadmillFlip t 0 roots = t' := by simpa using hs
    obtain rfl := h.free_eq_bottom.mp hft.1
    obtain rfl := h.scan_eq_top.mp hft.2
    have hf := flipRing_segments h ha.1 0
    obtain ⟨ecru', grey', hseg⟩ := hf.foldl_insertTreadmill ha.2
    refine ⟨rfl, rfl, hf, ecru', grey', ?_, hseg.with_counters 0 _ _⟩
    have hperm := hseg.perm.trans hf.perm.symm
    simpa [List.perm_append_left_iff] using hperm
  · cases hs

/-- One step keeps the four segments, with the cells it is meant to move and no others. -/
theorem step_segments {cells white ecru grey black : List ℕ} {t t' : Treadmill} {o : Operation}
    (h : Segments cells t white ecru grey black) (ha : Allowed cells t o)
    (hs : step t o = some t') :
    ∃ white' ecru' grey' black', Segments cells t' white' ecru' grey' black' := by
  cases o with
  | getCell =>
    rcases white with _ | ⟨c, white⟩
    · simp [step, h.getCell_eq_none] at hs
    · obtain ⟨u, hu, hseg⟩ := h.getCell_white
      obtain rfl : u = t' := by simpa [step, hu] using hs
      exact ⟨_, _, _, _, hseg⟩
  | insertTreadmill p =>
    obtain rfl : insertTreadmill t p = t' := by simpa [step] using hs
    obtain ⟨_, _, h'⟩ := h.insertTreadmill ha
    exact ⟨_, _, _, _, h'⟩
  | advance =>
    simp only [step] at hs
    split at hs
    · cases hs
    · rename_i hne
      obtain rfl : advance t = t' := by simpa using hs
      rcases List.eq_nil_or_concat' grey with rfl|⟨grey, c, rfl⟩
      · exact absurd (h.scan_eq_top.mpr rfl) hne
      · exact ⟨_, _, _, _, h.advance_grey.2⟩
  | treadmillFlip roots =>
    obtain ⟨_, _, _, _, _, _, h'⟩ := h.treadmillFlip ha hs
    exact ⟨_, _, _, _, h'⟩

/-- After every run the links are mutually inverse and form one circle through every
cell; going clockwise from `free` it consists of the white cells `[free, bottom)`, the
ecru cells `[bottom, top]`, the grey cells `(top, scan]` and the black cells, with the
colour bit telling ecru from grey and black. A `get_cell` returns the first white cell,
and a flip makes the old ecru cells white and the old black cells ecru. -/
theorem treadmill_structure {newp n : ℕ} (hn : 2 ≤ n) {os : List Operation} {t : Treadmill}
    (hok : Meets (Allowed (List.range' newp n)) step (allocCellseg newp n) os)
    (hr : run step (allocCellseg newp n) os = some t) :
    ∃ white ecru grey black,
      Segments (List.range' newp n) t white ecru grey black ∧
      List.iterate t.links.cw t.free n = white ++ ecru ++ grey ++ black ∧
      (∀ c ∈ List.range' newp n, t.links.ccw (t.links.cw c) = c ∧ t.links.cw (t.links.ccw c) = c) ∧
      (∀ c, White t c ↔ c ∈ white) ∧
      (∀ c t', getCell t = some (c, t') → White t c ∧
        ∃ white', white = c :: white' ∧
          Segments (List.range' newp n) t' white' ecru grey (black ++ [c])) ∧
      (∀ roots t', Allowed (List.range' newp n) t (.treadmillFlip roots) →
        step t (.treadmillFlip roots) = some t' → white = [] ∧ grey = [] ∧
        Segments (List.range' newp n) (flipRing t 0) ecru black [] [] ∧
        ∃ ecru' grey', (ecru' ++ grey').Perm black ∧
          Segments (List.range' newp n) t' ecru ecru' grey' []) := by
  obtain ⟨white, ecru, grey, black, h⟩ := run_invariant
    (I := fun t => ∃ white ecru grey black, Segments (List.range' newp n) t white ecru grey black)
    (fun _ _ _ ⟨_, _, _, _, h⟩ ha hs => step_segments h ha hs)
    ⟨_, _, _, _, segments_allocCellseg hn⟩ hok hr
  have hlen : (white ++ ecru ++ grey ++ black).length = n := by
    rw [h.perm.length_eq, List.length_range']
  refine ⟨white, ecru, grey, black, h, ?_, ?_, fun c => h.white_iff, ?_,
    fun roots t' ha hs => h.treadmillFlip ha hs⟩
  · have hit := h.ring.iterate_cw h.ring_head?
    rwa [hlen] at hit
  · intro c hc
    have hm := h.perm.mem_iff.mpr hc
    exact ⟨h.ring.ccw_cw hm, h.ring.cw_ccw hm⟩
  · intro c t' hg
    rcases white with _ | ⟨d, white⟩
    · rw [h.getCell_eq_none] at hg
      cases hg
    · obtain ⟨u, hu, hseg⟩ := h.getCell_white
      rw [hu] at hg
      cases hg
      exact ⟨h.white_iff.mpr (by simp), white, rfl, hseg⟩

/-- A ring of four cells through an allocation, a barrier, a scan and a flip. -/
theorem treadmill_structure_four :
    ∃ t, run step (allocCellseg 0 4)
        [.getCell, .getCell, .insertTreadmill 2, .advance, .treadmillFlip [1]] = some t ∧
      ∃ white ecru grey black, Segments (List.range' 0 4) t white ecru grey black := by
  have hlow (t : Treadmill) (h : t.insertsPerCycle = 1 ∧ t.totalMemoryAllocated = 4) :
      memoryLow t = false := by
    simp [memoryLow, h.1, h.2]
  have hok : Meets (Allowed (List.range' 0 4)) step (allocCellseg 0 4)
      [.getCell, .getCell, .insertTreadmill 2, .advance, .treadmillFlip [1]] := by
    refine meets_cons rfl trivial <| meets_cons rfl trivial <|
      meets_cons rfl ⟨by decide, fun ⟨_, _, h⟩ => h 0 (Nat.zero_le _) rfl, by decide⟩ <|
        meets_cons rfl trivial <| meets_cons rfl ⟨hlow _ ⟨rfl, rfl⟩, ?_⟩ trivial
    rw [flipRing, memoryLow_turn, hlow _ ⟨rfl, rfl⟩]
    refine meets_cons rfl ⟨by decide, ?_, by decide⟩ trivial
    rintro ⟨i, hi, hne⟩
    rcases i with _ | i
    · exact absurd hi (by decide)
    · exact hne 1 (by omega) rfl
  obtain ⟨t, ht⟩ : ∃ t, run step (allocCellseg 0 4)
      [.getCell, .getCell, .insertTreadmill 2, .advance, .treadmillFlip [1]] = some t :=
    ⟨_, rfl⟩
  obtain ⟨white, ecru, grey, black, h, _⟩ := treadmill_structure (by decide) hok ht
  exact ⟨t, ht, white, ecru, grey, black, h⟩

end Extempore.TreadmillRing
