import Extempore.HeapCollector

/-!
# The treadmill as a marking

The segments of the ring tell the shade of every cell; a cell that is not on the ring counts as
white. Each operation on the ring changes the shades the way a move of the marking does.
-/

namespace Extempore.ShadedSegments
open LinkedRings GuardedRuns TreadmillRing HeapGrowth TricolourMarking Relation
open HeapCollector (NotLast)

/-- The shade that the segments give to a cell. -/
def shadeOf (ecru grey black : List ℕ) (p : ℕ) : Shade :=
  if p ∈ ecru then .ecru else if p ∈ grey then .grey else if p ∈ black then .black else .white

variable {cells white ecru grey black : List ℕ} {t : Treadmill} {p q : ℕ}

theorem shadeOf_eq_ecru : shadeOf ecru grey black p = .ecru ↔ p ∈ ecru := by
  rw [shadeOf]
  split_ifs <;> simp_all

theorem shadeOf_eq_white :
    shadeOf ecru grey black p = .white ↔ p ∉ ecru ∧ p ∉ grey ∧ p ∉ black := by
  rw [shadeOf]
  split_ifs <;> simp_all

/-- No cell is in two segments. -/
theorem disjoint (h : Segments cells t white ecru grey black) :
    (∀ p ∈ white, p ∉ ecru ∧ p ∉ grey ∧ p ∉ black) ∧ (∀ p ∈ ecru, p ∉ grey ∧ p ∉ black) ∧
      ∀ p ∈ grey, p ∉ black := by
  have hnd := h.nodup
  simp only [List.nodup_append, List.mem_append] at hnd
  grind

theorem shadeOf_eq_grey (h : Segments cells t white ecru grey black) :
    shadeOf ecru grey black p = .grey ↔ p ∈ grey := by
  have hd := disjoint h
  rw [shadeOf]
  split_ifs <;> grind

theorem shadeOf_eq_black (h : Segments cells t white ecru grey black) :
    shadeOf ecru grey black p = .black ↔ p ∈ black := by
  have hd := disjoint h
  rw [shadeOf]
  split_ifs <;> grind

theorem shadeOf_white (h : Segments cells t white ecru grey black) (hp : p ∈ white) :
    shadeOf ecru grey black p = .white :=
  shadeOf_eq_white.mpr ((disjoint h).1 p hp)

/-- On the ring the dark bit tells the ecru cells from the others that are in use. -/
theorem dark_iff (h : Segments cells t white ecru grey black)
    (hp : shadeOf ecru grey black p ≠ .white) :
    t.colour p = t.dark ↔ shadeOf ecru grey black p ≠ .ecru := by
  rw [ne_eq, shadeOf_eq_ecru]
  constructor
  · intro hc he
    exact h.ecru_light p he hc
  · intro he
    refine h.dark p ?_
    by_contra hcon
    simp only [List.mem_append, not_or] at hcon
    exact hp (shadeOf_eq_white.mpr ⟨he, hcon⟩)

theorem scan_mem (h : Segments cells t white ecru grey black) (hg : grey ≠ []) : t.scan ∈ grey := by
  obtain ⟨g, c, rfl⟩ := (List.eq_nil_or_concat' grey).resolve_left hg
  have hs := h.scan_eq
  rw [← List.append_assoc, List.getLast?_concat] at hs
  obtain rfl := Option.some.inj hs
  simp

/-- A found cell stays where it is. -/
theorem insertTreadmill_dark (hc : t.colour p = t.dark) : insertTreadmill t p = t := by
  rw [insertTreadmill, if_pos hc]

/-- An ecru cell becomes grey. If there were grey cells before, `scan` stays. -/
theorem insertTreadmill_shade (h : Segments cells t white ecru grey black) (hp : p ∈ ecru)
    (hlast : NotLast t p) :
    ∃ ecru' grey', Segments cells (insertTreadmill t p) white ecru' grey' black ∧
      shadeOf ecru' grey' black = Function.update (shadeOf ecru grey black) p .grey ∧
      (∀ q, q ∈ ecru' ↔ q ∈ ecru ∧ q ≠ p) ∧ grey' = p :: grey ∧
      (ecru' ++ grey').Perm (ecru ++ grey) ∧
      (grey ≠ [] → (insertTreadmill t p).scan = t.scan) := by
  obtain ⟨l, r, rfl⟩ := List.append_of_mem hp
  have hlr : l ++ r ≠ [] := by
    intro hnil
    obtain ⟨rfl, rfl⟩ := List.append_eq_nil_iff.mp hnil
    exact hlast ⟨by simpa using h.top_eq, by simpa using h.bottom_eq⟩
  have h' := h.insertTreadmill_ecru hlr
  have hpn : p ∉ l ++ r := by
    have hd := (disjoint h').2.1
    intro hm
    exact (hd p hm).1 List.mem_cons_self
  refine ⟨_, _, h', ?_, ?_, rfl, ?_, ?_⟩
  · funext q
    by_cases hqp : q = p
    · subst hqp
      rw [Function.update_self]
      exact (shadeOf_eq_grey h').mpr List.mem_cons_self
    · rw [Function.update_of_ne hqp]
      simp [shadeOf, hqp]
  · intro q
    by_cases hqp : q = p
    · subst hqp
      simpa using hpn
    · simp [hqp]
  · simp only [List.append_assoc, List.cons_append]
    refine List.Perm.append_left l ?_
    exact List.perm_middle
  · intro hg
    obtain ⟨g, c, rfl⟩ := (List.eq_nil_or_concat' grey).resolve_left hg
    have hs := h.scan_eq
    have hs' := h'.scan_eq
    rw [← List.append_assoc, List.getLast?_concat] at hs
    rw [← List.cons_append, ← List.append_assoc, List.getLast?_concat] at hs'
    exact Option.some.inj (hs'.symm.trans hs)

/-- A white cell is taken and becomes black. -/
theorem getCell_shade {t' : Treadmill} {x : ℕ} (h : Segments cells t white ecru grey black)
    (hg : getCell t = some (x, t')) :
    x ∈ white ∧ ∃ white', Segments cells t' white' ecru grey (black ++ [x]) ∧
      shadeOf ecru grey (black ++ [x]) = Function.update (shadeOf ecru grey black) x .black ∧
      t'.scan = t.scan := by
  cases white with
  | nil =>
    rw [h.getCell_eq_none] at hg
    cases hg
  | cons c white =>
    obtain ⟨u, hu, h'⟩ := h.getCell_white
    rw [hu] at hg
    obtain ⟨rfl, rfl⟩ := Prod.mk.inj (Option.some.inj hg)
    refine ⟨List.mem_cons_self, white, h', ?_, ?_⟩
    · funext q
      by_cases hqc : q = c
      · subst hqc
        rw [Function.update_self]
        exact (shadeOf_eq_black h').mpr (by simp)
      · rw [Function.update_of_ne hqc]
        simp [shadeOf, hqc]
    · rw [getCell] at hu
      split_ifs at hu
      obtain ⟨-, rfl⟩ := Prod.mk.inj (Option.some.inj hu)
      rfl

/-- The grey cell at `scan` becomes black. -/
theorem advance_shade (h : Segments cells t white ecru grey black) (hs : t.scan ≠ t.top) :
    t.scan ∈ grey ∧ ∃ grey', Segments cells (advance t) white ecru grey' (t.scan :: black) ∧
      shadeOf ecru grey' (t.scan :: black) =
        Function.update (shadeOf ecru grey black) t.scan .black ∧
      grey = grey' ++ [t.scan] := by
  rcases List.eq_nil_or_concat' grey with rfl|⟨g, c, rfl⟩
  · exact absurd (h.scan_eq_top.mpr rfl) hs
  · obtain ⟨hc, h'⟩ := h.advance_grey
    rw [hc]
    refine ⟨by simp, g, h', ?_, rfl⟩
    funext q
    by_cases hqc : q = c
    · subst hqc
      rw [Function.update_self]
      exact (shadeOf_eq_black h').mpr List.mem_cons_self
    · rw [Function.update_of_ne hqc]
      simp [shadeOf, hqc]

/-! ## A flip -/

theorem colour_thread (t : Treadmill) (n : ℕ) {newmem i : ℕ} (hp : ¬ (newmem ≤ p ∧ p < newmem + i)) :
    (thread t newmem n i).colour p = t.colour p ∧ (thread t newmem n i).dark = t.dark := by
  induction i with
  | zero => exact ⟨rfl, rfl⟩
  | succ i ih =>
    obtain ⟨hc, hd⟩ := ih (by omega)
    rw [thread_succ]
    simp only [addCell, Function.update_of_ne (show p ≠ newmem + i by omega)]
    exact ⟨hc, hd⟩

theorem colour_addMemory (t : Treadmill) {newmem : ℕ}
    (hp : ¬ (newmem ≤ p ∧ p < newmem + allocSize t)) :
    (addMemory t newmem).colour p = t.colour p ∧ (addMemory t newmem).dark = t.dark := by
  rw [addMemory_eq]
  exact colour_thread _ _ hp

/-- The old ecru cells are the new white ones, with the block that may have been added behind
them, and they have the colour of the dark cells: no insert will take them. -/
theorem flipRing_shade {newmem : ℕ} (h : Segments cells t [] ecru [] black)
    (hgrow : memoryLow t = true → Growable t newmem) :
    ∃ fresh, (∀ p ∈ fresh, p ∉ cells) ∧
      Segments (cells ++ fresh) (flipRing t newmem) (ecru ++ fresh) black [] [] ∧
      ∀ p ∈ ecru, (flipRing t newmem).colour p = (flipRing t newmem).dark := by
  have hturn := h.turn_segments
  have hecru : ecru ≠ [] := by
    rintro rfl
    simpa using h.bottom_eq
  have hlight {p : ℕ} (hp : p ∈ ecru) : (turn t).colour p = (turn t).dark := by
    have hc := h.ecru_light p hp
    simp only [turn]
    cases ht : t.colour p <;> cases hd : t.dark <;> simp_all
  by_cases hlow : memoryLow t = true
  · have hflip : flipRing t newmem = { addMemory (turn t) newmem with allocationRequest := -1 } := by
      simp only [flipRing, memoryLow_turn, hlow, if_true]
    have hfresh : Fresh cells newmem (allocSize (turn t)) := by
      intro p hp hblock
      exact (hgrow hlow).2 p hblock.1 hblock.2 ((onRing_iff h).mpr hp)
    have hsize : allocSize (turn t) ≠ 1 := by
      have hrequest : (turn t).allocationRequest ≠ 1 := (hgrow hlow).1
      rw [allocSize]
      split_ifs <;> omega
    have hnew := segments_addMemory hturn hecru hfresh hsize
    have hcol {p : ℕ} (hp : p ∈ ecru) : (addMemory (turn t) newmem).colour p =
        (addMemory (turn t) newmem).dark := by
      obtain ⟨hc, hd⟩ := colour_addMemory (turn t)
        (hfresh p (h.mem_cells.mpr (.inr (.inl hp))))
      rw [hc, hd]
      exact hlight hp
    refine ⟨List.range' newmem (allocSize (turn t)), ?_, ?_, ?_⟩
    · intro p hp hc
      exact hfresh p hc (List.mem_range'_1.mp hp)
    · rw [hflip]
      exact hnew.with_counters _ _ (-1)
    · intro p hp
      rw [hflip]
      exact hcol hp
  · have hflip : flipRing t newmem = { turn t with allocationRequest := -1 } := by
      simp [flipRing, hlow]
    refine ⟨[], by simp, ?_, fun p hp => ?_⟩
    · rw [hflip]
      simpa using hturn.with_counters _ _ (-1)
    · rw [hflip]
      exact hlight hp

/-- An insert of a cell with the colour of the dark cells changes no other cell of that colour. -/
theorem insertTreadmill_colour (t : Treadmill) (p : ℕ) {q : ℕ} (hq : t.colour q = t.dark) :
    (insertTreadmill t p).colour q = (insertTreadmill t p).dark := by
  rw [insertTreadmill]
  split_ifs
  all_goals first
    | exact hq
    | (simp only [relink, Function.update_apply]; split_ifs <;> simp [hq])

/-- The roots are inserted one after the other: those that are ecru become grey, and the others
stay, those that the flip has made white included. -/
theorem foldl_insertTreadmill_shade {roots : List ℕ} (h : Segments cells t white ecru grey black)
    (hroots : ∀ p ∈ roots, p ∈ ecru ∨ t.colour p = t.dark)
    (hlast : Meets NotLast (fun t p => some (insertTreadmill t p)) t roots) :
    ∃ ecru' grey', Segments cells (roots.foldl insertTreadmill t) white ecru' grey' black ∧
      (∀ q, q ∈ ecru' ↔ q ∈ ecru ∧ q ∉ roots) ∧
      ∀ q, q ∈ grey' ↔ q ∈ grey ∨ (q ∈ ecru ∧ q ∈ roots) := by
  induction roots generalizing t ecru grey with
  | nil => exact ⟨ecru, grey, h, by simp, by simp⟩
  | cons p roots ih =>
    have hrest := hlast.2 _ rfl
    by_cases hp : p ∈ ecru
    · obtain ⟨ecru₁, grey₁, h₁, -, hecru, rfl, -, -⟩ := insertTreadmill_shade h hp hlast.1
      obtain ⟨ecru', grey', h', he, hg⟩ := ih h₁ (fun q hq => by
        rcases hroots q (List.mem_cons_of_mem p hq) with hqe|hqc
        · by_cases hqp : q = p
          · subst hqp
            exact .inr (h₁.dark q (by simp))
          · exact .inl ((hecru q).mpr ⟨hqe, hqp⟩)
        · exact .inr (insertTreadmill_colour t p hqc)) hrest
      refine ⟨ecru', grey', h', fun q => ?_, fun q => ?_⟩
      · rw [he, hecru, List.mem_cons]
        tauto
      · rw [hg, hecru, List.mem_cons, List.mem_cons]
        by_cases hqp : q = p
        · simp [hqp, hp]
        · simp [hqp]
    · have hc := (hroots p List.mem_cons_self).resolve_left hp
      have hrest' := hrest
      rw [insertTreadmill_dark hc] at hrest'
      obtain ⟨ecru', grey', h', he, hg⟩ :=
        ih h (fun q hq => hroots q (List.mem_cons_of_mem p hq)) hrest'
      refine ⟨ecru', grey', ?_, fun q => ?_, fun q => ?_⟩
      · rwa [List.foldl_cons, insertTreadmill_dark hc]
      · rw [he, List.mem_cons]
        grind
      · rw [hg, List.mem_cons]
        grind

end Extempore.ShadedSegments
