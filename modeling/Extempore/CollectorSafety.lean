import Extempore.CollectorMoves

/-!
# What the collector keeps and what it frees

The write barrier shades what is stored, never what is overwritten, and the roots are only looked
at in a flip. So a cell that the interpreter can still use is lost just when a flip finds a root
that is not dark; and none is, as long as no store overwrites the pointer to a cell that has not
been found yet.
-/

namespace Extempore.HeapCollector
open LinkedRings GuardedRuns TreadmillRing TricolourMarking ShadedSegments Relation

variable {s s' : Process} {cells white ecru grey black : List ℕ} {p newp n : ℕ}

theorem Kept.safe (h : Kept s cells white ecru grey black) : Safe s := by
  intro p hp hw
  have hpw := h.segments.white_iff.mp hw
  exact h.sound.live hp (shadeOf_white h.segments hpw)

/-- `get_cell` hands out white cells only. -/
theorem white_of_getCell {t t' : Treadmill} {x : ℕ} (hg : getCell t = some (x, t')) :
    White t x := by
  rw [getCell] at hg
  split_ifs at hg with hfree
  obtain ⟨rfl, -⟩ := Prod.mk.inj (Option.some.inj hg)
  refine ⟨0, rfl, fun j hj => ?_⟩
  obtain rfl := Nat.le_zero.mp hj
  exact hfree

/-- The process starts with five black cells, which are its roots. -/
theorem kept_init (hn : 10 ≤ n) : ∃ s, init newp n = some s ∧
    ∃ cells white ecru black, Kept s cells white ecru [] black ∧
      (marking s ecru [] black).Careful := by
  have h₀ : Segments (List.range' newp n) (allocCellseg newp n) (List.range' newp (n / 2))
      (List.range' (newp + n / 2) (n - n / 2)) [] [] := segments_allocCellseg (by omega)
  obtain ⟨c₁, c₂, c₃, c₄, c₅, w, hw⟩ : ∃ c₁ c₂ c₃ c₄ c₅ w,
      List.range' newp (n / 2) = c₁ :: c₂ :: c₃ :: c₄ :: c₅ :: w := by
    obtain ⟨k, hk⟩ : ∃ k, n / 2 = k + 1 + 1 + 1 + 1 + 1 := ⟨n / 2 - 5, by omega⟩
    simp only [hk, List.range'_succ]
    exact ⟨_, _, _, _, _, _, rfl⟩
  rw [hw] at h₀
  obtain ⟨t₁, hg₁, h₁⟩ := h₀.getCell_white
  obtain ⟨t₂, hg₂, h₂⟩ := h₁.getCell_white
  obtain ⟨t₃, hg₃, h₃⟩ := h₂.getCell_white
  obtain ⟨t₄, hg₄, h₄⟩ := h₃.getCell_white
  obtain ⟨t₅, hg₅, h₅⟩ := h₄.getCell_white
  simp only [List.nil_append, List.cons_append] at h₅
  have hne {p : ℕ} (hp : p ∈ [c₁, c₂, c₃, c₄, c₅]) :
      shadeOf (List.range' (newp + n / 2) (n - n / 2)) [] [c₁, c₂, c₃, c₄, c₅] p ≠ .white := by
    simp [(shadeOf_eq_black h₅).mpr hp]
  have hecru {p : ℕ} (hp : p ∈ [c₁, c₂, c₃, c₄, c₅]) :
      p ∉ List.range' (newp + n / 2) (n - n / 2) := fun he => ((disjoint h₅).2.1 p he).2 hp
  have hslots {p q : ℕ} (hq : q ∈ ((started t₅ c₁ c₂ c₃ c₄ c₅).heap p).slots) : q = c₁ := by
    simp only [started] at hq
    split_ifs at hq
    · simpa [Object.slots] using hq
    · simp [Object.slots] at hq
  have hroot {r : ℕ} (hr : r ∈ roots (started t₅ c₁ c₂ c₃ c₄ c₅)) : r ∈ [c₁, c₂, c₃, c₄, c₅] := by
    simp only [roots, treadmillMarkRoots, started] at hr
    simp at hr ⊢
    tauto
  refine ⟨started t₅ c₁ c₂ c₃ c₄ c₅, by simp [init, hg₁, hg₂, hg₃, hg₄, hg₅], _, w, _, _,
    ⟨h₅, ⟨?_, ?_, ?_, fun r hr => hne (hroot hr), by simp [marking, owed, started]⟩, ⟨hecru (by simp [started]), by simp [started], by simp [started],
      fun _ => ⟨rfl, rfl⟩, Nat.zero_le _⟩⟩,
    fun r hr he => absurd (shadeOf_eq_ecru.mp he) (hecru (hroot hr))⟩
  · intro p q _ hq
    obtain rfl := hslots hq
    exact hne (by simp)
  · intro p i hp
    exact .inl ((shadeOf_eq_black h₅).mp hp)
  · intro p i q _ hq he
    obtain rfl := hslots (List.mem_of_getElem? hq)
    exact absurd (shadeOf_eq_ecru.mp he) (hecru (by simp))

/-- An allowed run keeps the invariant as long as the flips find dark roots. -/
theorem kept_step {o : Operation} (h : ∃ cells white ecru grey black, Kept s cells white ecru grey black)
    (ha : Allowed s o) (hdark : RootsDark s o) (hs : step s o = some s') :
    ∃ cells white ecru grey black, Kept s' cells white ecru grey black := by
  obtain ⟨cells, white, ecru, grey, black, h⟩ := h
  by_cases hf : ∃ a b newmem, o = .flip a b newmem
  · obtain ⟨a, b, newmem, rfl⟩ := hf
    obtain ⟨fresh, ecru', grey', -, h'⟩ := h.flip ha hdark hs
    exact ⟨_, _, _, _, _, h'⟩
  · obtain ⟨white', ecru', grey', black', h', -⟩ :=
      h.step ha (fun a b newmem ho => hf ⟨a, b, newmem, ho⟩) hs
    exact ⟨_, _, _, _, _, h'⟩

/-- A root that is not dark when a flip happens is on the free list after it. -/
theorem Kept.rootsDark {o : Operation} (h : Kept s cells white ecru grey black)
    (ha : Allowed s o) (hs : HeapCollector.step s o = some s') (hsafe : Safe s') : RootsDark s o := by
  cases o with
  | flip a b newmem =>
    intro p hp
    obtain ⟨fresh, ecru', grey', hfl⟩ := h.flipped ha hs
    obtain ⟨rfl, rfl, htodo, -, -, rfl⟩ := h.flip_idle hs
    refine (dark_iff h.segments (h.sound.live (live_of_mem_markRoots ha.2 hp))).mpr fun he => ?_
    refine hsafe p (Marking.live_root (m := marking _ [] [] []) (mem_roots_iff.mp hp)) ?_
    exact hfl.segments.white_iff.mpr (List.mem_append_left _ (shadeOf_eq_ecru.mp he))
  | _ => trivial

/-! ## A process of twelve cells

The five constants and one pair are taken; after a flip the scanner finds the constants, six atoms
are made, and the next flip frees the pair. -/

instance (t : Treadmill) (p : ℕ) : Decidable (NotLast t p) :=
  inferInstanceAs (Decidable (¬ (p = t.top ∧ p = t.bottom)))

/-- A test that is enough for a step to be allowed, for a flip to find dark roots, and for a store
to overwrite a pointer to a dark cell. -/
def Checked (s : Process) (o : Operation) : Prop :=
  (∀ p ∈ operands o, p ∈ roots s) ∧
    match o with
    | .shade => ∀ e ∈ s.pending.head?, NotLast s.ring e
    | .instr => ∀ i ∈ s.todo.head?, (∀ p ∈ i.inserted, NotLast s.ring p) ∧
        ∀ w ∈ overwritten s i, s.ring.colour w = s.ring.dark
    | .flip a b newmem => memoryLow s.ring = false ∧
        Meets NotLast (fun t p => some (insertTreadmill t p)) (flipRing s.ring newmem)
          (treadmillMarkRoots s.registers a b) ∧
        ∀ p ∈ treadmillMarkRoots s.registers a b, s.ring.colour p = s.ring.dark
    | .mkContinuation _ => False
    | .setRegisters r => r.nil = s.registers.nil
    | _ => True

instance (s : Process) (o : Operation) : Decidable (Checked s o) := by
  unfold Checked
  cases o <;> infer_instance

theorem Checked.allowed {o : Operation} (h : Checked s o) :
    Allowed s o ∧ RootsDark s o ∧ OverwritesDark s o := by
  have hlive (p : ℕ) (hp : p ∈ operands o) : Live s p :=
    Marking.live_root (m := marking s [] [] []) (h.1 p hp)
  have hc := h.2
  cases o with
  | shade => exact ⟨⟨hc, hlive, trivial⟩, trivial, trivial⟩
  | instr =>
    refine ⟨⟨fun p hp => (hc _ hp).1 p rfl, hlive, trivial⟩, trivial, fun w hw => ?_⟩
    obtain ⟨i, hi, hwi⟩ := Option.bind_eq_some_iff.mp hw
    exact (hc i hi).2 w hwi
  | flip a b newmem =>
    exact ⟨⟨⟨fun hlow => absurd hlow (by simp [hc.1]), hc.2.1⟩, hlive, trivial⟩, hc.2.2, trivial⟩
  | mkContinuation y => exact hc.elim
  | setRegisters r => exact ⟨⟨trivial, hlive, hc⟩, trivial, trivial⟩
  | _ => exact ⟨⟨trivial, hlive, trivial⟩, trivial, trivial⟩

theorem meets_of_checked {ok : Process → Operation → Prop} {os : List Operation}
    (hok : ∀ s o, Checked s o → ok s o) (h : Meets Checked step s os) : Meets ok step s os :=
  meets_of_invariant (J := fun _ => True) (fun _ _ _ _ _ _ => trivial) (fun s o _ => hok s o)
    trivial h

/-- A pair of two empty lists is made and forgotten. -/
def forgottenPair : List Operation := [.cons 0 0, .instr, .instr, .instr, .instr]

/-- The scanner finds all that can be reached, and the free cells are used up. -/
def wholeCycle : List Operation :=
  [.advance, .advance, .advance, .look, .shade, .look, .shade, .advance, .look, .look, .shade,
    .shade, .advance, .mkAtom, .mkAtom, .mkAtom, .mkAtom, .mkAtom, .mkAtom]

set_option synthInstance.maxSize 400 in
set_option synthInstance.maxHeartbeats 100000 in
/-- The process of twelve cells, before each of its two flips and after them. -/
theorem twelve_cells : ∃ s₀ ∈ init 0 12, ∃ s ∈ run step s₀ forgottenPair,
    ∃ s₁ ∈ step s (.flip 0 0 0), ∃ s₂ ∈ run step s₁ wholeCycle, ∃ s₃ ∈ step s₂ (.flip 0 0 0),
      Meets Checked step s₀ (forgottenPair ++ .flip 0 0 0 :: (wholeCycle ++ [.flip 0 0 0])) ∧
      (∀ r ∈ roots s₁, r < 5) ∧ (∀ p < 5, ∀ q ∈ (s₁.heap p).slots, q < 5) ∧
      s₁.ring.links.cw^[6] s₁.ring.free = 5 ∧ s₁.ring.bottom = 5 := by
  decide +kernel

/-- A step other than a flip that overwrites no pointer to an ecru cell keeps the roots on their
way to be found. -/
theorem Kept.step_careful {o : Operation} (h : Kept s cells white ecru grey black)
    (hc : (marking s ecru grey black).Careful) (ha : Allowed s o) (hd : OverwritesDark s o)
    (hf : ∀ a b newmem, o ≠ .flip a b newmem) (hs : HeapCollector.step s o = some s') :
    ∃ white' ecru' grey' black', Kept s' cells white' ecru' grey' black' ∧
      (marking s' ecru' grey' black').Careful := by
  obtain ⟨white', ecru', grey', black', h', hm⟩ := h.step ha hf hs
  refine ⟨white', ecru', grey', black', h', hc.moves h.sound ?_⟩
  exact ReflTransGen.mono (fun m m' hmove => hmove.mono fun w hw => hw hd) _ _ hm

/-- When all roots are on their way to be found, a flip finds them dark. -/
theorem Kept.rootsDark_of_careful {o : Operation} (h : Kept s cells white ecru grey black)
    (hc : (marking s ecru grey black).Careful) (ha : Allowed s o)
    (hs : HeapCollector.step s o = some s') : RootsDark s o := by
  cases o with
  | flip a b newmem =>
    intro p hp
    obtain ⟨-, rfl, htodo, -, hpend, -⟩ := h.flip_idle hs
    have hlive := live_of_mem_markRoots ha.2 hp
    refine (dark_iff h.segments (h.sound.live hlive)).mpr (hc.found h.sound ?_ ?_ hlive)
    · intro q hq
      have hg := (shadeOf_eq_grey h.segments).mp hq
      cases hg
    · simp [marking, hpend, htodo, owed]
  | _ => trivial

theorem careful_step {o : Operation}
    (h : ∃ cells white ecru grey black, Kept s cells white ecru grey black ∧
      (marking s ecru grey black).Careful)
    (ha : Allowed s o ∧ OverwritesDark s o) (hs : step s o = some s') :
    ∃ cells white ecru grey black, Kept s' cells white ecru grey black ∧
      (marking s' ecru grey black).Careful := by
  obtain ⟨cells, white, ecru, grey, black, h, hc⟩ := h
  by_cases hf : ∃ a b newmem, o = .flip a b newmem
  · obtain ⟨a, b, newmem, rfl⟩ := hf
    obtain ⟨fresh, ecru', grey', hfl, h'⟩ := h.flip ha.1 (h.rootsDark_of_careful hc ha.1 hs) hs
    refine ⟨_, _, _, _, _, h', fun r hr he => ?_⟩
    obtain ⟨-, -, -, -, -, rfl⟩ := h.flip_idle hs
    exact absurd (mem_roots_iff.mpr hr) ((hfl.ecru r).mp (shadeOf_eq_ecru.mp he)).2
  · obtain ⟨white', ecru', grey', black', h', hc'⟩ :=
      h.step_careful hc ha.1 ha.2 (fun a b newmem ho => hf ⟨a, b, newmem, ho⟩) hs
    exact ⟨_, _, _, _, _, h', hc'⟩

theorem careful_init {s₀ : Process} (hn : 10 ≤ n) (hinit : init newp n = some s₀) :
    ∃ cells white ecru grey black, Kept s₀ cells white ecru grey black ∧
      (marking s₀ ecru grey black).Careful := by
  obtain ⟨s₁, hs₁, _, _, _, _, h, hc⟩ := kept_init hn
  obtain rfl := Option.some.inj (hinit.symm.trans hs₁)
  exact ⟨_, _, _, _, _, h, hc⟩

/-- A cell of the ring that is in use and that the interpreter cannot reach. -/
def Garbage (s : Process) (p : ℕ) : Prop :=
  HeapGrowth.OnRing s.ring p ∧ ¬ White s.ring p ∧ ¬ Live s p

theorem Kept.used_iff (h : Kept s cells white ecru grey black) :
    shadeOf ecru grey black p ≠ .white ↔ HeapGrowth.OnRing s.ring p ∧ ¬ White s.ring p := by
  rw [HeapGrowth.onRing_iff h.segments, h.segments.white_iff, h.segments.mem_cells, ne_eq,
    shadeOf_eq_white]
  have hd := (disjoint h.segments).1 p
  tauto

/-- What is garbage right after a flip is apart from all that the interpreter does from then on. -/
theorem Kept.flip_apart {a b newmem : ℕ} (h : Kept s cells white ecru grey black)
    (ha : Allowed s (.flip a b newmem)) (hdark : RootsDark s (.flip a b newmem))
    (hs : HeapCollector.step s (.flip a b newmem) = some s') :
    ∃ cells white ecru grey black, Kept s' cells white ecru grey black ∧
      (marking s' ecru grey black).Apart (Garbage s') := by
  obtain ⟨fresh, ecru', grey', hfl, h'⟩ := h.flip ha hdark hs
  obtain ⟨-, -, htodo, -, hpend, hs'⟩ := h.flip_idle hs
  have hroots : roots s' =
      treadmillMarkRoots s.registers s.registers.nil s.registers.nil ++ [a, b] := by
    rw [hs', roots]
  have hdebt : (marking s' ecru' grey' []).debt = [] := by
    rw [hs']
    simp [marking, hpend, htodo, owed]
  have hblack (q : ℕ) : (marking s' ecru' grey' []).shade q ≠ .black := fun hq =>
    List.not_mem_nil ((shadeOf_eq_black h'.segments).mp hq)
  have hgrey (q : ℕ) (hq : (marking s' ecru' grey' []).shade q = .grey) :
      (marking s' ecru' grey' []).Live q := by
    have hm := ((hfl.grey q).mp ((shadeOf_eq_grey h'.segments).mp hq)).2
    refine Marking.live_root ?_
    show q ∈ roots s'
    rw [hroots]
    exact mem_roots_iff.mp hm
  have hD : Garbage s' = fun q => (marking s' ecru' grey' []).shade q ≠ .white ∧
      ¬ (marking s' ecru' grey' []).Live q := by
    funext q
    rw [Garbage, ← and_assoc, ← h'.used_iff]
    rfl
  exact ⟨_, _, _, _, _, h', hD ▸ Marking.apart_dead hblack hgrey hdebt⟩

theorem apart_step {D : ℕ → Prop} {o : Operation}
    (h : ∃ cells white ecru grey black, Kept s cells white ecru grey black ∧
      (marking s ecru grey black).Apart D)
    (ha : Allowed s o ∧ ∀ a b newmem, o ≠ .flip a b newmem) (hs : step s o = some s') :
    ∃ cells white ecru grey black, Kept s' cells white ecru grey black ∧
      (marking s' ecru grey black).Apart D := by
  obtain ⟨cells, white, ecru, grey, black, h, hd⟩ := h
  obtain ⟨white', ecru', grey', black', h', hm⟩ := h.step ha.1 ha.2 hs
  exact ⟨_, _, _, _, _, h', hd.moves h.sound hm⟩

/-- A step of the scanner. -/
def Operation.Scans : Operation → Prop
  | .look | .shade | .advance => True
  | _ => False

/-- What the scanner still has to do for a cell: read each slot, insert what it reads, go on. -/
def workOn (s : Process) (q : ℕ) : ℕ :=
  2 * ((s.heap q).slots.length - if q = s.ring.scan then s.next else 0) + 1

/-- What the scanner has to do if all ecru cells are found. -/
def work (s : Process) (ecru grey : List ℕ) : ℕ :=
  ((ecru ++ grey).map (workOn s)).sum + s.pending.length

theorem workOn_of_ne {q : ℕ} (hq : q ≠ s.ring.scan) :
    workOn s q = 2 * (s.heap q).slots.length + 1 := by
  rw [workOn, if_neg hq, Nat.sub_zero]

/-- `scan` is the last grey cell, and the other cells to scan are not yet begun. -/
theorem Kept.work_eq (h : Kept s cells white ecru grey black) (hg : grey ≠ []) :
    ∃ rest, grey = rest ++ [s.ring.scan] ∧ s.ring.scan ∉ ecru ++ rest ∧
      work s ecru grey = ((ecru ++ rest).map fun q => 2 * (s.heap q).slots.length + 1).sum +
        (2 * ((s.heap s.ring.scan).slots.length - s.next) + 1) + s.pending.length := by
  obtain ⟨rest, c, rfl⟩ := (List.eq_nil_or_concat' grey).resolve_left hg
  have hc : c = s.ring.scan := by
    have hs := h.segments.scan_eq
    rw [← List.append_assoc, List.getLast?_concat] at hs
    exact Option.some.inj hs
  subst hc
  have hn : s.ring.scan ∉ ecru ++ rest := by
    have hnd := h.segments.nodup
    simp only [List.nodup_append, List.mem_append] at hnd ⊢
    grind
  refine ⟨rest, rfl, hn, ?_⟩
  rw [work, ← List.append_assoc, List.map_append, List.sum_append]
  congr 2
  · refine congrArg List.sum (List.map_congr_left fun q hq => workOn_of_ne ?_)
    rintro rfl
    exact hn hq
  · simp [workOn]

/-- Each step of the scanner leaves it one less to do. -/
theorem Kept.scans {o : Operation} (h : Kept s cells white ecru grey black) (ho : o.Scans)
    (ha : RingAllows s o) (hs : HeapCollector.step s o = some s') :
    ∃ white' ecru' grey' black', Kept s' cells white' ecru' grey' black' ∧
      work s' ecru' grey' + 1 = work s ecru grey := by
  cases o with
  | look =>
    have hlook : GoesTo (fun _ _ => True) cells s ecru grey black s' white ecru grey black ∧ _ :=
      h.look hs
    obtain ⟨hgo, hg, hlt, e, rfl⟩ := hlook
    refine ⟨_, _, _, _, h.kept hgo, ?_⟩
    obtain ⟨rest, rfl, -, hw⟩ := h.work_eq hg
    obtain ⟨rest', hrest, -, hw'⟩ := (h.kept hgo).work_eq hg
    obtain rfl := (List.append_left_inj _).mp hrest
    rw [hw, hw']
    simp only [List.length_append, List.length_singleton]
    omega
  | shade =>
    have hshade : ∃ e pending ecru' grey', s.pending = e :: pending ∧
        s' = { s with ring := TreadmillRing.insertTreadmill s.ring e, pending } ∧
        Inserted (fun _ _ => True) s cells white ecru grey black e ecru' grey' ∧
        GoesTo (fun _ _ => True) cells s ecru grey black s' white ecru' grey' black :=
      h.shade ha hs
    obtain ⟨e, pending, ecru', grey', hpend, rfl, hi, hgo⟩ := hshade
    refine ⟨_, _, _, _, h.kept hgo, ?_⟩
    have hg : grey ≠ [] := fun hg => by
      have hidle := (h.orderly.idle hg).2
      rw [hpend] at hidle
      cases hidle
    have hwork (q : ℕ) : workOn { s with ring := TreadmillRing.insertTreadmill s.ring e, pending } q =
        workOn s q := by
      simp only [workOn, hi.scan hg]
    rw [work, work, hpend, List.length_cons]
    simp only [funext hwork]
    rw [(hi.perm.map (workOn s)).sum_eq]
    omega
  | advance =>
    have hadvance : ∃ grey', GoesTo (fun _ _ => True) cells s ecru grey black s' white ecru grey'
        (s.ring.scan :: black) ∧ _ := h.advance hs
    obtain ⟨grey', hgo, rfl, hnext, hpend, rfl⟩ := hadvance
    refine ⟨_, _, _, _, h.kept hgo, ?_⟩
    obtain ⟨rest, hrest, -, hw⟩ := h.work_eq (by simp)
    obtain rfl := (List.append_left_inj _).mp hrest
    have hwork (q : ℕ) : workOn { s with ring := TreadmillRing.advance s.ring, next := 0 } q =
        2 * (s.heap q).slots.length + 1 := by
      simp [workOn]
    rw [hw, work, List.map_congr_left fun q _ => hwork q, hpend, hnext]
    simp
  | _ => exact absurd ho (by simp [Operation.Scans])

end Extempore.HeapCollector
