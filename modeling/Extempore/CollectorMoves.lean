import Extempore.ShadedSegments

/-!
# Steps of the collector as moves of a marking

The pointers that the scanner has read and those that the interpreter is about to insert are in
debt. Every step of either thread other than a flip is a few moves of the marking.
-/

namespace Extempore.HeapCollector
open LinkedRings GuardedRuns TreadmillRing TricolourMarking ShadedSegments Relation

/-- The cells that an instruction works with. -/
def Instr.cells : Instr → List ℕ
  | .insertTreadmill p => [p]
  | .setCar x p => [x, p]
  | .setCdr x p => [x, p]
  | .setElem x _ p => [x, p]

def Instr.stored : Instr → Option ℕ
  | .insertTreadmill _ => none
  | .setCar _ p => some p
  | .setCdr _ p => some p
  | .setElem _ _ p => some p

def Instr.inserted : Instr → Option ℕ
  | .insertTreadmill p => some p
  | _ => none

@[simp] theorem cells_insertTreadmill (p : ℕ) : (Instr.insertTreadmill p).cells = [p] := rfl

@[simp] theorem stored_insertTreadmill (p : ℕ) : (Instr.insertTreadmill p).stored = none := rfl

/-- The cells that the rest of a call is going to insert. -/
def owed (todo : List Instr) : List ℕ := todo.filterMap Instr.inserted

/-- What the interpreter can use. -/
def roots (s : Process) : List ℕ :=
  treadmillMarkRoots s.registers s.registers.nil s.registers.nil ++ s.locals

def marking (s : Process) (ecru grey black : List ℕ) : Marking ℕ where
  shade := shadeOf ecru grey black
  slots q := (s.heap q).slots
  traced q i := q ∈ black ∨ (q ∈ grey ∧ q = s.ring.scan ∧ i < s.next)
  debt := s.pending ++ owed s.todo
  roots := roots s

/-- What holds of a process besides the marking: `NIL` has been found, a call works with cells
that the interpreter can use, what it stores it inserts, and the scanner is within its cell. -/
structure Orderly (s : Process) (ecru grey : List ℕ) : Prop where
  nil_found : s.registers.nil ∉ ecru
  usable : ∀ i ∈ s.todo, ∀ p ∈ i.cells, p ∈ roots s
  stored : ∀ i ∈ s.todo, ∀ v, i.stored = some v → v ∈ ecru → v ∈ owed s.todo
  idle : grey = [] → s.next = 0 ∧ s.pending = []
  reading : s.next ≤ (s.heap s.ring.scan).slots.length

structure Kept (s : Process) (cells white ecru grey black : List ℕ) : Prop where
  segments : Segments cells s.ring white ecru grey black
  sound : (marking s ecru grey black).Sound
  orderly : Orderly s ecru grey

variable {s s' : Process} {cells white ecru grey black : List ℕ} {p x : ℕ}
  {lost : Marking ℕ → ℕ → Prop}

theorem mem_treadmillMarkRoots {r : Registers} {a b : ℕ} :
    p ∈ treadmillMarkRoots r a b ↔ p ∈ treadmillMarkRoots r r.nil r.nil ∨ p = a ∨ p = b := by
  simp only [treadmillMarkRoots, List.mem_append, List.mem_cons]
  tauto

theorem nil_mem_roots (s : Process) : s.registers.nil ∈ roots s :=
  List.mem_append_left _ (mem_treadmillMarkRoots.mpr (.inr (.inl rfl)))

theorem mem_owed {todo : List Instr} : p ∈ owed todo ↔ .insertTreadmill p ∈ todo := by
  simp only [owed, List.mem_filterMap]
  constructor
  · rintro ⟨i, hi, hp⟩
    cases i with
    | insertTreadmill q =>
      obtain rfl := Option.some.inj hp
      exact hi
    | setCar | setCdr | setElem => cases hp
  · intro hp
    exact ⟨_, hp, rfl⟩

/-- The body of a call works with the cells of the call, and inserts what it stores. -/
structure Barriered (params : List ℕ) (body : List Instr) : Prop where
  cells : ∀ i ∈ body, ∀ p ∈ i.cells, p ∈ params
  stored : ∀ i ∈ body, ∀ v, i.stored = some v → v ∈ owed body

theorem Barriered.owed_mem {params : List ℕ} {body : List Instr} (h : Barriered params body)
    (hp : p ∈ owed body) : p ∈ params :=
  h.cells _ (mem_owed.mp hp) p List.mem_cons_self

theorem barriered_nil (params : List ℕ) : Barriered params [] := ⟨by simp, by simp⟩

theorem barriered_initPair (x a b : ℕ) : Barriered (x :: [a, b]) (initPair x a b) := by
  constructor <;> simp [initPair, Instr.cells, Instr.stored, mem_owed]

theorem barriered_fillVector (num vec obj : ℕ) : Barriered [vec, obj] (fillVector num vec obj) := by
  constructor
  · intro i hi p hp
    rcases List.mem_cons.mp hi with rfl|hi
    · simp_all [Instr.cells]
    · obtain ⟨j, -, rfl⟩ := List.mem_map.mp hi
      simpa [Instr.cells] using hp
  · intro i hi v hv
    refine mem_owed.mpr (List.mem_cons.mpr (.inl ?_))
    rcases List.mem_cons.mp hi with rfl|hi
    · cases hv
    · obtain ⟨j, -, rfl⟩ := List.mem_map.mp hi
      obtain rfl := Option.some.inj hv
      rfl

/-- A store of `v` in `x` with the insert on either side. -/
theorem barriered_store {x v : ℕ} {i : Instr} (hc : i.cells = [x, v]) (hs : i.stored = some v) :
    Barriered [x, v] [.insertTreadmill v, i] ∧ Barriered [x, v] [i, .insertTreadmill v] := by
  constructor <;> constructor <;> simp [mem_owed, hc, hs]

/-! ## The steps of the scanner -/

/-- An insert of a cell in debt, before the debt is dropped. -/
structure Inserted (lost : Marking ℕ → ℕ → Prop) (s : Process) (cells white ecru grey black : List ℕ)
    (p : ℕ) (ecru' grey' : List ℕ) : Prop where
  segments : Segments cells (insertTreadmill s.ring p) white ecru' grey' black
  moves : ReflTransGen (Marking.Move lost) (marking s ecru grey black)
    { marking s ecru grey black with shade := shadeOf ecru' grey' black }
  found : p ∉ ecru'
  mem : ∀ q ∈ ecru', q ∈ ecru
  traced : ∀ q i, q ∈ grey' ∧ q = (insertTreadmill s.ring p).scan ∧ i < s.next →
    (marking s ecru grey black).traced q i
  idle : grey' = [] → grey = []
  scan : grey ≠ [] → (insertTreadmill s.ring p).scan = s.ring.scan
  perm : (ecru' ++ grey').Perm (ecru ++ grey)

/-- An insert leaves the scanner within its cell. -/
theorem Inserted.reading {ecru' grey' : List ℕ} (hi : Inserted lost s cells white ecru grey black p ecru' grey')
    (h : Orderly s ecru grey) :
    s.next ≤ (s.heap (insertTreadmill s.ring p).scan).slots.length := by
  by_cases hg : grey = []
  · rw [(h.idle hg).1]
    exact Nat.zero_le _
  · rw [hi.scan hg]
    exact h.reading

theorem Kept.insert (h : Kept s cells white ecru grey black)
    (hp : p ∈ (marking s ecru grey black).debt) (hlast : NotLast s.ring p) :
    ∃ ecru' grey', Inserted lost s cells white ecru grey black p ecru' grey' := by
  have hw := h.sound.debt p hp
  by_cases he : p ∈ ecru
  · obtain ⟨ecru', grey', hseg, hshade, hecru, rfl, hperm, hscan⟩ :=
      insertTreadmill_shade h.segments he hlast
    refine ⟨ecru', p :: grey, hseg, ?_, ?_, fun q hq => ((hecru q).mp hq).1, ?_, by simp, hscan,
      hperm⟩
    · rw [hshade]
      exact .single (.darken p (shadeOf_eq_ecru.mpr he) hp)
    · intro hm
      exact ((hecru p).mp hm).2 rfl
    · rintro q i ⟨hq, rfl, hi⟩
      by_cases hg : grey = []
      · have hnext := (h.orderly.idle hg).1
        omega
      · rw [hscan hg]
        exact .inr ⟨scan_mem h.segments hg, rfl, hi⟩
  · have hc := (dark_iff h.segments hw).mpr fun hcon => he (shadeOf_eq_ecru.mp hcon)
    refine ⟨ecru, grey, ?_, .refl, he, fun q hq => hq, ?_, id, fun _ => ?_, .refl _⟩
    · rw [insertTreadmill_dark hc]
      exact h.segments
    · rw [insertTreadmill_dark hc]
      rintro q i ⟨hq, hs, hi⟩
      exact .inr ⟨hq, hs, hi⟩
    · rw [insertTreadmill_dark hc]

/-- The segments and the marking after a step. -/
structure GoesTo (lost : Marking ℕ → ℕ → Prop) (cells : List ℕ) (s : Process)
    (ecru grey black : List ℕ) (s' : Process) (white' ecru' grey' black' : List ℕ) : Prop where
  segments : Segments cells s'.ring white' ecru' grey' black'
  orderly : Orderly s' ecru' grey'
  moves : ReflTransGen (Marking.Move lost) (marking s ecru grey black)
    (marking s' ecru' grey' black')

theorem Kept.kept {white' ecru' grey' black' : List ℕ} (h : Kept s cells white ecru grey black)
    (hg : GoesTo lost cells s ecru grey black s' white' ecru' grey' black') :
    Kept s' cells white' ecru' grey' black' :=
  ⟨hg.segments, h.sound.moves hg.moves, hg.orderly⟩

/-- The way that every step other than a flip takes. -/
def Goes (lost : Marking ℕ → ℕ → Prop) (cells : List ℕ) (s : Process) (ecru grey black : List ℕ)
    (s' : Process) : Prop :=
  ∃ white' ecru' grey' black', GoesTo lost cells s ecru grey black s' white' ecru' grey' black'

theorem Kept.look (h : Kept s cells white ecru grey black) (hs : step s .look = some s') :
    GoesTo lost cells s ecru grey black s' white ecru grey black ∧ grey ≠ [] ∧
      s.next < (s.heap s.ring.scan).slots.length ∧
      ∃ e, s' = { s with next := s.next + 1, pending := s.pending ++ [e] } := by
  simp only [step] at hs
  split_ifs at hs with hst
  obtain ⟨e, he, rfl⟩ := Option.map_eq_some_iff.mp hs
  have hg : grey ≠ [] := fun hg => hst (h.segments.scan_eq_top.mpr hg)
  have hscan := scan_mem h.segments hg
  have hlt := (List.getElem?_eq_some_iff.mp he).1
  refine ⟨⟨h.segments, ⟨h.orderly.nil_found, h.orderly.usable, h.orderly.stored,
    fun hcon => absurd hcon hg, hlt⟩, ?_⟩, hg, hlt, e, rfl⟩
  refine .tail (.single (.look s.ring.scan s.next e ((shadeOf_eq_grey h.segments).mpr hscan) he))
    (.settles rfl rfl ?_ ?_ ?_ ?_ fun r hr => Marking.live_root hr)
  · rintro q i (hq|⟨hq, rfl, hi⟩)
    · exact .inr (.inl hq)
    · by_cases hin : i = s.next
      · exact .inl ⟨rfl, hin⟩
      · exact .inr (.inr ⟨hq, rfl, Nat.lt_of_le_of_ne (Nat.le_of_lt_succ hi) hin⟩)
  · intro q i hq
    exact .inl ((shadeOf_eq_black h.segments).mp hq)
  · intro q hq
    simp only [marking, List.mem_append, List.mem_cons] at hq ⊢
    tauto
  · intro q hq _
    simp only [marking, List.mem_append, List.mem_cons] at hq ⊢
    tauto

theorem Kept.shade (h : Kept s cells white ecru grey black)
    (ha : RingAllows s .shade) (hs : step s .shade = some s') :
    ∃ e pending ecru' grey', s.pending = e :: pending ∧
      s' = { s with ring := insertTreadmill s.ring e, pending } ∧
      Inserted lost s cells white ecru grey black e ecru' grey' ∧
      GoesTo lost cells s ecru grey black s' white ecru' grey' black := by
  simp only [step] at hs
  rcases hpend : s.pending with _ | ⟨e, pending⟩
  · simp [hpend] at hs
  · simp only [hpend, Option.some.injEq] at hs
    subst hs
    have hdebt : e ∈ (marking s ecru grey black).debt := by simp [marking, hpend]
    have hins : ∃ ecru' grey', Inserted lost s cells white ecru grey black e ecru' grey' :=
      h.insert hdebt (ha e (by simp [hpend]))
    obtain ⟨ecru', grey', hi⟩ := hins
    refine ⟨e, pending, ecru', grey', rfl, rfl, hi, hi.segments, ⟨?_, h.orderly.usable, ?_, ?_,
      hi.reading h.orderly⟩,
      hi.moves.tail (.settles rfl rfl ?_ ?_ ?_ ?_ fun r hr => Marking.live_root hr)⟩
    · exact fun hcon => h.orderly.nil_found (hi.mem _ hcon)
    · exact fun i hm v hv hve => h.orderly.stored i hm v hv (hi.mem v hve)
    · intro hg
      have hidle := (h.orderly.idle (hi.idle hg)).2
      simp [hpend] at hidle
    · rintro q i (hq|hq)
      · exact .inl hq
      · exact hi.traced q i hq
    · intro q i hq
      exact .inl ((shadeOf_eq_black hi.segments).mp hq)
    · intro q hq
      refine .inl ?_
      simp only [marking, hpend, List.mem_append, List.mem_cons] at hq ⊢
      tauto
    · intro q hq hqe
      have hqp : q ≠ e := by
        rintro rfl
        exact hi.found (shadeOf_eq_ecru.mp hqe)
      simp only [marking, hpend, List.mem_append, List.mem_cons, hqp, false_or] at hq ⊢
      exact hq

theorem Kept.advance (h : Kept s cells white ecru grey black) (hs : step s .advance = some s') :
    ∃ grey', GoesTo lost cells s ecru grey black s' white ecru grey' (s.ring.scan :: black) ∧
      grey = grey' ++ [s.ring.scan] ∧ s.next = (s.heap s.ring.scan).slots.length ∧
      s.pending = [] ∧ s' = { s with ring := TreadmillRing.advance s.ring, next := 0 } := by
  simp only [step] at hs
  split_ifs at hs with hst
  obtain rfl := Option.some.inj hs
  obtain ⟨htop, hnext, hpend⟩ := hst
  obtain ⟨hscan, grey', hseg, hshade, hgrey⟩ := advance_shade h.segments htop
  refine ⟨grey', ⟨hseg, ⟨h.orderly.nil_found, h.orderly.usable, h.orderly.stored,
    fun _ => ⟨rfl, hpend⟩, Nat.zero_le _⟩, ?_⟩, hgrey, hnext, hpend, rfl⟩
  refine .tail (.single (.blacken s.ring.scan ((shadeOf_eq_grey h.segments).mpr hscan) ?_))
    (.settles hshade rfl ?_ ?_ (fun e he => .inl he) (fun e he _ => he)
      fun r hr => Marking.live_root hr)
  · intro i hi
    exact .inr ⟨hscan, rfl, hnext ▸ hi⟩
  · rintro q i (hq|⟨_, _, hi⟩)
    · rcases List.mem_cons.mp hq with rfl|hq
      · exact .inl rfl
      · exact .inr (.inl hq)
    · exact absurd hi (Nat.not_lt_zero i)
  · intro q i hq
    refine .inl ((shadeOf_eq_black hseg).mp ?_)
    rw [hshade]
    exact hq

/-! ## The steps of the interpreter -/

/-- A call that does not allocate only takes its parameters. -/
theorem Kept.call {params : List ℕ} {body : List Instr} (h : Kept s cells white ecru grey black)
    (hlive : ∀ p ∈ params, Live s p) (hb : Barriered params body)
    (hs : call s params body = some s') : Goes lost cells s ecru grey black s' := by
  rw [HeapCollector.call] at hs
  split_ifs at hs with htodo
  obtain rfl := Option.some.inj hs
  refine ⟨white, ecru, grey, black, h.segments, ⟨h.orderly.nil_found, ?_, ?_, h.orderly.idle,
    h.orderly.reading⟩, .single (.settles rfl rfl (fun q i hq => hq) ?_ ?_ ?_ ?_)⟩
  · intro i hi p hp
    exact List.mem_append_right _ (hb.cells i hi p hp)
  · exact fun i hi v hv _ => hb.stored i hi v hv
  · exact fun q i hq => .inl ((shadeOf_eq_black h.segments).mp hq)
  · intro e he
    rcases List.mem_append.mp he with he|he
    · exact .inl (List.mem_append_left _ he)
    · exact .inr (hlive e (hb.owed_mem he))
  · intro e he _
    refine List.mem_append_left _ ?_
    simpa [marking, htodo, owed] using he
  · intro r hr
    rcases List.mem_append.mp hr with hr|hr
    · exact Marking.live_root (List.mem_append_left _ hr)
    · exact hlive r hr

/-- A call that allocates fills its cell with found pointers before it stores others. -/
theorem Kept.alloc {get : Option (ℕ × Treadmill)} {params : List ℕ} {o : Object}
    {body : ℕ → List Instr} (h : Kept s cells white ecru grey black)
    (hs : alloc s get params o body = some s')
    (hget : ∀ x ring, get = some (x, ring) → ∃ ring₀ r, getCell s.ring = some (x, ring₀) ∧
      ring = { ring₀ with allocationRequest := r })
    (hlive : ∀ p ∈ params, Live s p) (hb : ∀ x, Barriered (x :: params) (body x))
    (hslots : ∀ p ∈ o.slots, p ∉ ecru)
    (hparams : ∀ p ∈ o.slots, p ∈ treadmillMarkRoots s.registers s.registers.nil s.registers.nil ∨
      p ∈ params) :
    Goes lost cells s ecru grey black s' := by
  rw [HeapCollector.alloc] at hs
  split_ifs at hs with htodo
  obtain ⟨⟨x, ring'⟩, hg', rfl⟩ := Option.map_eq_some_iff.mp hs
  obtain ⟨ring, r, hg, rfl⟩ := hget x ring' hg'
  replace hb := hb x
  obtain ⟨hx, white', hseg, hshade, hscan⟩ := getCell_shade h.segments hg
  have hmem {p : ℕ} (hp : p ∈ o.slots) :
      p ∈ treadmillMarkRoots s.registers s.registers.nil s.registers.nil ++ params := by
    simpa using hparams p hp
  have hroot {p : ℕ}
      (hp : p ∈ treadmillMarkRoots s.registers s.registers.nil s.registers.nil ++ params) :
      Live s p := by
    rcases List.mem_append.mp hp with hp|hp
    · exact Marking.live_root (m := marking s ecru grey black) (List.mem_append_left _ hp)
    · exact hlive p hp
  -- the interpreter forgets its other locals before it takes the cell
  let m₁ : Marking ℕ := { marking s ecru grey black with
    roots := treadmillMarkRoots s.registers s.registers.nil s.registers.nil ++ params }
  have hforget : Marking.Move lost (marking s ecru grey black) m₁ :=
    .settles rfl rfl (fun q i hq => hq)
      (fun q i hq => .inl ((shadeOf_eq_black h.segments).mp hq)) (fun e he => .inl he)
      (fun e he _ => he) fun r hr => hroot hr
  have halloc : Marking.Move lost m₁ { m₁ with
      shade := Function.update m₁.shade x .black
      slots := Function.update m₁.slots x o.slots
      traced := fun p i => p = x ∨ m₁.traced p i
      roots := x :: m₁.roots } :=
    .allocate x o.slots (shadeOf_white h.segments hx)
      (fun q hq => ⟨h.sound.live (hroot (hmem hq)), fun he => hslots q hq (shadeOf_eq_ecru.mp he)⟩)
      fun q hq => Marking.live_root (hmem hq)
  have hreading : s.next ≤ (Function.update s.heap x o ring.scan).slots.length := by
    by_cases hgrey : grey = []
    · rw [(h.orderly.idle hgrey).1]
      exact Nat.zero_le _
    · have hne : ring.scan ≠ x := by
        rintro rfl
        exact ((disjoint h.segments).1 _ hx).2.1 (hscan ▸ scan_mem h.segments hgrey)
      rw [Function.update_of_ne hne, hscan]
      exact h.orderly.reading
  refine ⟨white', ecru, grey, black ++ [x],
    hseg.with_counters ring.insertsPerCycle ring.totalMemoryAllocated r, ⟨h.orderly.nil_found, ?_, ?_, h.orderly.idle,
      hreading⟩, .tail (.tail (.single hforget) halloc) (.settles hshade ?_ ?_ ?_ ?_ ?_ ?_)⟩
  · intro i hi p hp
    exact List.mem_append_right _ (hb.cells i hi p hp)
  · exact fun i hi v hv _ => hb.stored i hi v hv
  · funext q
    by_cases hqx : q = x
    · subst hqx
      simp [marking]
    · simp [marking, m₁, hqx]
  · rintro q i (hq|⟨hq, hqs, hi⟩)
    · rcases List.mem_append.mp hq with hq|hq
      · exact .inr (.inl hq)
      · exact .inl (List.mem_singleton.mp hq)
    · exact .inr (.inr ⟨hq, hqs.trans hscan, hi⟩)
  · intro q i hq
    refine .inl ((shadeOf_eq_black hseg).mp ?_)
    rw [hshade]
    exact hq
  · intro e he
    rcases List.mem_append.mp he with he|he
    · exact .inl (List.mem_append_left _ he)
    · refine .inr (Marking.live_root ?_)
      rcases List.mem_cons.mp (hb.owed_mem he) with rfl|he
      · exact List.mem_cons_self
      · exact List.mem_cons_of_mem _ (List.mem_append_right _ he)
  · intro e he _
    refine List.mem_append_left _ ?_
    simpa [m₁, marking, htodo, owed] using he
  · intro r hr
    refine Marking.live_root ?_
    simp only [marking, roots, m₁, List.mem_append, List.mem_cons] at hr ⊢
    tauto

/-- The next insert of a call. -/
theorem Kept.instr_insert {todo : List Instr} (h : Kept s cells white ecru grey black)
    (htodo : s.todo = .insertTreadmill p :: todo) (hlast : NotLast s.ring p) :
    Goes lost cells s ecru grey black { s with ring := insertTreadmill s.ring p, todo } := by
  have howed {q : ℕ} : q ∈ owed s.todo ↔ q = p ∨ q ∈ owed todo := by simp [htodo, mem_owed]
  have hdebt : p ∈ (marking s ecru grey black).debt :=
    List.mem_append_right _ (howed.mpr (.inl rfl))
  have hins : ∃ ecru' grey', Inserted lost s cells white ecru grey black p ecru' grey' :=
    h.insert hdebt hlast
  obtain ⟨ecru', grey', hi⟩ := hins
  have hne {q : ℕ} (hq : q ∈ ecru') : q ≠ p := by
    rintro rfl
    exact hi.found hq
  refine ⟨white, ecru', grey', black, hi.segments,
    ⟨fun hcon => h.orderly.nil_found (hi.mem _ hcon), ?_, ?_,
      fun hg => h.orderly.idle (hi.idle hg), hi.reading h.orderly⟩,
    hi.moves.tail (.settles rfl rfl ?_ ?_ ?_ ?_ fun r hr => Marking.live_root hr)⟩
  · exact fun i hm => h.orderly.usable i (htodo ▸ List.mem_cons_of_mem _ hm)
  · intro i hm v hv hve
    have hmem := h.orderly.stored i (htodo ▸ List.mem_cons_of_mem _ hm) v hv (hi.mem v hve)
    exact (howed.mp hmem).resolve_left (hne hve)
  · rintro q i (hq|hq)
    · exact .inl hq
    · exact hi.traced q i hq
  · intro q i hq
    exact .inl ((shadeOf_eq_black hi.segments).mp hq)
  · intro q hq
    refine .inl ?_
    simp only [marking, List.mem_append, howed] at hq ⊢
    tauto
  · intro q hq hqe
    have hqp := hne (shadeOf_eq_ecru.mp hqe)
    simp only [marking, List.mem_append, howed, hqp, false_or] at hq ⊢
    exact hq

/-- The next store of a call, in slot `j` of `x`. -/
theorem Kept.instr_store {i : Instr} {todo : List Instr} {j v w : ℕ} {o : Object}
    (h : Kept s cells white ecru grey black) (htodo : s.todo = i :: todo)
    (hcells : i.cells = [x, v]) (hstored : i.stored = some v) (hins : i.inserted = none)
    (hw : (s.heap x).slots[j]? = some w) (ho : o.slots = (s.heap x).slots.set j v)
    (hlost : lost (marking s ecru grey black) w) :
    Goes lost cells s ecru grey black { s with heap := Function.update s.heap x o, todo } := by
  have hi : i ∈ s.todo := htodo ▸ List.mem_cons_self
  have hlive {q : ℕ} (hq : q ∈ i.cells) : (marking s ecru grey black).Live q :=
    Marking.live_root (h.orderly.usable i hi q hq)
  have howed : owed s.todo = owed todo := by simp [htodo, owed, hins]
  have hmove : Marking.Move lost (marking s ecru grey black) { marking s ecru grey black with
      slots := Function.update (marking s ecru grey black).slots x
        (((marking s ecru grey black).slots x).set j v) } :=
    .store x j v w (hlive (by simp [hcells])) (hlive (by simp [hcells]))
      (fun he => List.mem_append_right _ (h.orderly.stored i hi v hstored (shadeOf_eq_ecru.mp he)))
      hw hlost
  have hreading : s.next ≤ (Function.update s.heap x o s.ring.scan).slots.length := by
    by_cases hx : s.ring.scan = x
    · rw [hx, Function.update_self, ho, List.length_set]
      exact hx ▸ h.orderly.reading
    · rw [Function.update_of_ne hx]
      exact h.orderly.reading
  refine ⟨white, ecru, grey, black, h.segments, ⟨h.orderly.nil_found, ?_, ?_, h.orderly.idle,
    hreading⟩, .tail (.single hmove) (.settles rfl ?_ (fun q i hq => hq) ?_ ?_ ?_
      fun r hr => Marking.live_root hr)⟩
  · exact fun i hm => h.orderly.usable i (htodo ▸ List.mem_cons_of_mem _ hm)
  · intro i hm v hv hve
    exact howed ▸ h.orderly.stored i (htodo ▸ List.mem_cons_of_mem _ hm) v hv hve
  · funext q
    by_cases hqx : q = x
    · subst hqx
      simp [marking, ho]
    · simp [marking, hqx]
  · intro q i hq
    exact .inl ((shadeOf_eq_black h.segments).mp hq)
  · intro e he
    refine .inl ?_
    simpa [marking, howed] using he
  · intro e he _
    simpa [marking, howed] using he

/-- What is overwritten is a slot of a cell that the interpreter can use. -/
theorem Kept.overwritten {i : Instr} {w : ℕ} (h : Kept s cells white ecru grey black)
    (hi : i ∈ s.todo) (hw : overwritten s i = some w) :
    (marking s ecru grey black).Live w := by
  have hslot {x j : ℕ} (hx : x ∈ i.cells) (hj : (s.heap x).slots[j]? = some w) :
      (marking s ecru grey black).Live w :=
    (Marking.live_root (h.orderly.usable i hi x hx)).slot (List.mem_of_getElem? hj)
  cases i with
  | insertTreadmill p => cases hw
  | setCar x p => exact hslot (by simp [Instr.cells]) hw
  | setCdr x p => exact hslot (by simp [Instr.cells]) hw
  | setElem x i p => exact hslot (by simp [Instr.cells]) hw

theorem Kept.instr (h : Kept s cells white ecru grey black) (ha : RingAllows s .instr)
    (hs : step s .instr = some s') :
    Goes (fun m w => OverwritesDark s .instr → m.shade w ≠ .ecru) cells s ecru grey black s' := by
  simp only [step] at hs
  rcases htodo : s.todo with _ | ⟨i, todo⟩
  · simp [htodo] at hs
  · simp only [htodo] at hs
    obtain ⟨u, hu, rfl⟩ := Option.map_eq_some_iff.mp hs
    have hi : i ∈ s.todo := htodo ▸ List.mem_cons_self
    have hlost {w : ℕ} (hw : HeapCollector.overwritten s i = some w) :
        OverwritesDark s .instr → (marking s ecru grey black).shade w ≠ .ecru := by
      intro hd
      have hwhite := h.sound.live (h.overwritten hi hw)
      exact (dark_iff h.segments hwhite).mp (hd w (by simp [htodo, hw]))
    cases i with
    | insertTreadmill p =>
      obtain rfl := Option.some.inj hu
      exact h.instr_insert htodo (ha p (by simp [htodo]))
    | setCar x p =>
      simp only [exec] at hu
      split at hu
      · rename_i car cdr hx
        obtain rfl := Option.some.inj hu
        have hget : (s.heap x).slots[0]? = some car := by simp [hx, Object.slots]
        exact h.instr_store htodo rfl rfl rfl hget (by simp [hx, Object.slots]) (hlost hget)
      · cases hu
    | setCdr x p =>
      simp only [exec] at hu
      split at hu
      · rename_i car cdr hx
        obtain rfl := Option.some.inj hu
        have hget : (s.heap x).slots[1]? = some cdr := by simp [hx, Object.slots]
        exact h.instr_store htodo rfl rfl rfl hget (by simp [hx, Object.slots]) (hlost hget)
      · cases hu
    | setElem x j p =>
      simp only [exec] at hu
      split at hu
      · rename_i elems hx
        split_ifs at hu with hj
        obtain rfl := Option.some.inj hu
        have hget : (s.heap x).slots[j]? = some elems[j] := by simp [hx, Object.slots, hj]
        exact h.instr_store htodo rfl rfl rfl hget (by simp [hx, Object.slots]) (hlost hget)
      · cases hu

theorem Kept.setRegisters {r : Registers} (h : Kept s cells white ecru grey black)
    (ha : Honest s (.setRegisters r)) (hs : step s (.setRegisters r) = some s') :
    Goes lost cells s ecru grey black s' := by
  simp only [step] at hs
  split_ifs at hs with htodo
  obtain rfl := Option.some.inj hs
  refine ⟨white, ecru, grey, black, h.segments, ⟨?_, by simp [htodo], by simp [htodo],
    h.orderly.idle, h.orderly.reading⟩, .single (.settles rfl rfl (fun q i hq => hq) ?_ (fun e he => .inl he)
      (fun e he _ => he) ?_)⟩
  · rw [ha.2]
    exact h.orderly.nil_found
  · exact fun q i hq => .inl ((shadeOf_eq_black h.segments).mp hq)
  · intro q hq
    rcases List.mem_append.mp hq with hq|hq
    · exact ha.1 q hq
    · exact Marking.live_root (List.mem_append_right _ hq)

theorem exists_getCell {ring : Treadmill} (hg : getCell s.ring = some (x, ring)) :
    ∃ ring₀ r, getCell s.ring = some (x, ring₀) ∧ ring = { ring₀ with allocationRequest := r } :=
  ⟨ring, ring.allocationRequest, hg, rfl⟩

/-- A cell on the dump stack is a root. -/
theorem mem_roots_of_dump
    (hp : p ∈ s.registers.dump.flatMap (fun f => [f.envir, f.args, f.code])) :
    p ∈ treadmillMarkRoots s.registers s.registers.nil s.registers.nil := by
  obtain ⟨f, hf, hpf⟩ := List.mem_flatMap.mp hp
  have hm : p ∈ s.registers.dump.flatMap (fun f => [f.args, f.envir, f.code]) := by
    refine List.mem_flatMap.mpr ⟨f, hf, ?_⟩
    simp only [List.mem_cons, List.not_mem_nil, or_false] at hpf ⊢
    tauto
  simp only [treadmillMarkRoots, List.mem_append]
  exact .inl (.inl (.inr hm))

/-- What a step other than a flip does to the marking. -/
theorem Kept.goes {o : Operation} (h : Kept s cells white ecru grey black) (ha : Allowed s o)
    (hf : ∀ a b newmem, o ≠ .flip a b newmem) (hs : step s o = some s') :
    Goes (fun m w => OverwritesDark s o → m.shade w ≠ .ecru) cells s ecru grey black s' := by
  have hnil : s.registers.nil ∈ treadmillMarkRoots s.registers s.registers.nil s.registers.nil :=
    mem_treadmillMarkRoots.mpr (.inr (.inl rfl))
  have hlive := ha.2.1
  cases o with
  | look => exact ⟨_, _, _, _, (h.look hs).1⟩
  | shade =>
    obtain ⟨_, _, _, _, -, -, -, hg⟩ := h.shade ha.1 hs
    exact ⟨_, _, _, _, hg⟩
  | advance =>
    obtain ⟨_, hg, -⟩ := h.advance hs
    exact ⟨_, _, _, _, hg⟩
  | flip a b newmem => exact absurd rfl (hf a b newmem)
  | cons a b =>
    simp only [step] at hs
    exact h.alloc hs (fun x ring => exists_getCell) hlive (fun x => barriered_initPair x a b)
      (by simpa [Object.slots] using h.orderly.nil_found) (by simp [Object.slots, hnil])
  | mkClosure c e =>
    simp only [step] at hs
    exact h.alloc hs (fun x ring => exists_getCell) hlive (fun x => barriered_initPair x c e)
      (by simpa [Object.slots] using h.orderly.nil_found) (by simp [Object.slots, hnil])
  | mkAtom =>
    simp only [step] at hs
    exact h.alloc hs (fun x ring => exists_getCell) hlive (fun x => barriered_nil _)
      (by simp [Object.slots]) (by simp [Object.slots])
  | mkVector len =>
    simp only [step] at hs
    refine h.alloc hs (fun x ring hg => ?_) (fun p hp => ?_)
      (fun x => barriered_fillVector len x s.registers.nil) ?_ ?_
    · obtain ⟨⟨y, ring₀⟩, hg', hpair⟩ := Option.map_eq_some_iff.mp hg
      obtain ⟨rfl, rfl⟩ := Prod.mk.inj hpair
      exact ⟨ring₀, _, hg', rfl⟩
    · obtain rfl := List.mem_singleton.mp hp
      exact Marking.live_root (m := marking s ecru grey black) (nil_mem_roots s)
    · intro p hp
      rw [List.eq_of_mem_replicate hp]
      exact h.orderly.nil_found
    · intro p hp
      rw [List.eq_of_mem_replicate hp]
      exact .inl hnil
  | mkContinuation y =>
    simp only [step] at hs
    have hroot {p : ℕ} (hp : p ∈ s.registers.dump.flatMap (fun f => [f.envir, f.args, f.code])) :
        Live s p :=
      Marking.live_root (m := marking s ecru grey black)
        (List.mem_append_left _ (mem_roots_of_dump hp))
    have hdark {p : ℕ} (hp : Live s p) (hc : s.ring.colour p = s.ring.dark) : p ∉ ecru :=
      fun he => (dark_iff h.segments (h.sound.live hp)).mp hc (shadeOf_eq_ecru.mpr he)
    have hy : y ∉ ecru := hdark (hlive y (by simp [operands])) (ha.2.2 y List.mem_cons_self)
    refine h.alloc hs (fun x ring => exists_getCell) hlive (fun x => barriered_nil _) ?_ ?_
    · intro p hp
      simp only [Object.slots, List.mem_append, List.mem_cons, List.not_mem_nil, or_false] at hp
      rcases hp with hp|rfl|rfl
      · exact hdark (hroot hp) (ha.2.2 p (List.mem_cons_of_mem _ hp))
      · exact h.orderly.nil_found
      · exact hy
    · intro p hp
      simp only [Object.slots, List.mem_append, List.mem_cons, List.not_mem_nil, or_false] at hp
      rcases hp with hp|rfl|rfl
      · exact .inl (mem_roots_of_dump hp)
      · exact .inl hnil
      · exact .inr List.mem_cons_self
  | fillVector vec obj => exact h.call hlive (barriered_fillVector _ vec obj) hs
  | setVectorElem vec index val => exact h.call hlive (barriered_store rfl rfl).1 hs
  | setSlotInEnv slot value => exact h.call hlive (barriered_store rfl rfl).1 hs
  | newSlotSpecInEnv env tmp => exact h.call hlive (barriered_store rfl rfl).1 hs
  | opSetcar p v => exact h.call hlive (barriered_store rfl rfl).1 hs
  | opSetcdr p v => exact h.call hlive (barriered_store rfl rfl).1 hs
  | opCons args v => exact h.call hlive (barriered_store rfl rfl).2 hs
  | instr => exact h.instr ha.1 hs
  | setRegisters r => exact h.setRegisters ha.2 hs

/-- A step other than a flip keeps the invariant. -/
theorem Kept.step {o : Operation} (h : Kept s cells white ecru grey black) (ha : Allowed s o)
    (hf : ∀ a b newmem, o ≠ .flip a b newmem) (hs : step s o = some s') :
    ∃ white' ecru' grey' black', Kept s' cells white' ecru' grey' black' ∧
      ReflTransGen (Marking.Move fun m w => OverwritesDark s o → m.shade w ≠ .ecru)
        (marking s ecru grey black) (marking s' ecru' grey' black') := by
  obtain ⟨white', ecru', grey', black', hg⟩ := h.goes ha hf hs
  exact ⟨white', ecru', grey', black', h.kept hg, hg.moves⟩

/-! ## The flip -/

/-- What a flip leaves: the old ecru cells are white, with `fresh` cells behind them, and of the
old black cells the roots are grey and the others ecru. -/
structure Flipped (cells ecru black fresh roots : List ℕ) (s' : Process) (ecru' grey' : List ℕ) :
    Prop where
  segments : Segments (cells ++ fresh) s'.ring (ecru ++ fresh) ecru' grey' []
  ecru : ∀ q, q ∈ ecru' ↔ q ∈ black ∧ q ∉ roots
  grey : ∀ q, q ∈ grey' ↔ q ∈ black ∧ q ∈ roots

/-- A flip happens at the end of a cycle, with no call under way. -/
theorem Kept.flip_idle {a b newmem : ℕ} (h : Kept s cells white ecru grey black)
    (hs : HeapCollector.step s (.flip a b newmem) = some s') :
    white = [] ∧ grey = [] ∧ s.todo = [] ∧ s.next = 0 ∧ s.pending = [] ∧ s' = { s with
      ring := treadmillFlip s.ring newmem (treadmillMarkRoots s.registers a b)
      locals := [a, b] } := by
  simp only [HeapCollector.step] at hs
  split_ifs at hs with hst
  obtain ⟨htodo, hfree, hscan⟩ := hst
  have hg := h.segments.scan_eq_top.mp hscan
  have hidle := h.orderly.idle hg
  exact ⟨h.segments.free_eq_bottom.mp hfree, hg, htodo, hidle.1, hidle.2,
    (Option.some.inj hs).symm⟩

theorem mem_roots_iff {r : Registers} {a b q : ℕ} :
    q ∈ treadmillMarkRoots r a b ↔ q ∈ treadmillMarkRoots r r.nil r.nil ++ [a, b] := by
  rw [mem_treadmillMarkRoots, List.mem_append]
  simp

theorem live_of_mem_markRoots {a b newmem : ℕ} (ha : Honest s (.flip a b newmem))
    (hp : p ∈ treadmillMarkRoots s.registers a b) : Live s p := by
  rcases mem_treadmillMarkRoots.mp hp with hp|rfl|rfl
  · exact Marking.live_root (m := marking s [] [] []) (List.mem_append_left _ hp)
  · exact ha.1 p (by simp [operands])
  · exact ha.1 p (by simp [operands])

theorem Kept.flipped {a b newmem : ℕ} (h : Kept s cells white ecru grey black)
    (ha : Allowed s (.flip a b newmem)) (hs : HeapCollector.step s (.flip a b newmem) = some s') :
    ∃ fresh ecru' grey',
      Flipped cells ecru black fresh (treadmillMarkRoots s.registers a b) s' ecru' grey' := by
  obtain ⟨rfl, rfl, -, -, -, rfl⟩ := h.flip_idle hs
  obtain ⟨fresh, -, hseg, hcol⟩ := flipRing_shade h.segments ha.1.1
  obtain ⟨ecru', grey', h', he, hg⟩ := foldl_insertTreadmill_shade hseg (fun p hp => by
    have hw := h.sound.live (live_of_mem_markRoots ha.2 hp)
    by_cases hpe : p ∈ ecru
    · exact .inr (hcol p hpe)
    · refine .inl ?_
      by_contra hpb
      exact hw (shadeOf_eq_white.mpr ⟨hpe, by simp, hpb⟩)) ha.1.2
  refine ⟨fresh, ecru', grey', h'.with_counters 0 _ _, he, fun q => ?_⟩
  rw [hg]
  simp

/-- A flip that finds every root dark keeps the invariant. -/
theorem Kept.flip {a b newmem : ℕ} (h : Kept s cells white ecru grey black)
    (ha : Allowed s (.flip a b newmem)) (hdark : RootsDark s (.flip a b newmem))
    (hs : HeapCollector.step s (.flip a b newmem) = some s') :
    ∃ fresh ecru' grey',
      Flipped cells ecru black fresh (treadmillMarkRoots s.registers a b) s' ecru' grey' ∧
        Kept s' (cells ++ fresh) (ecru ++ fresh) ecru' grey' [] := by
  obtain ⟨fresh, ecru', grey', hfl⟩ := h.flipped ha hs
  refine ⟨fresh, ecru', grey', hfl, ?_⟩
  obtain ⟨rfl, rfl, htodo, hnext, hpend, rfl⟩ := h.flip_idle hs
  have hrootLive {p : ℕ} (hp : p ∈ treadmillMarkRoots s.registers a b) : Live s p :=
    live_of_mem_markRoots ha.2 hp
  have hblack {p : ℕ} (hp : p ∈ treadmillMarkRoots s.registers a b) : p ∈ black := by
    have hw := h.sound.live (hrootLive hp)
    have he := (dark_iff h.segments hw).mp (hdark p hp)
    by_contra hpb
    exact hw (shadeOf_eq_white.mpr ⟨fun hcon => he (shadeOf_eq_ecru.mpr hcon), by simp, hpb⟩)
  -- the process just before the turn, with the arguments of `get_cell` as its only locals
  let m : Marking ℕ :=
    { marking s ecru [] black with debt := [], roots := treadmillMarkRoots s.registers a b }
  have hforget : Marking.Move (fun _ _ => True) (marking s ecru [] black) m :=
    .settles rfl rfl (fun q i hq => hq)
      (fun q i hq => .inl ((shadeOf_eq_black h.segments).mp hq)) (fun e he => by cases he)
      (fun e he _ => by simp [marking, hpend, htodo, owed] at he) fun r hr => hrootLive hr
  have hgrey (p : ℕ) : m.shade p ≠ .grey := by
    intro hp
    have hg := (shadeOf_eq_grey h.segments).mp hp
    cases hg
  have hturned : m.turned.Sound := ((h.sound.move hforget).turned_iff hgrey rfl).mpr fun r hr he =>
    ((disjoint h.segments).2.1 r (shadeOf_eq_ecru.mp he)).2 (hblack hr)
  have hshade (q : ℕ) : m.turned.shade q = if q ∈ black then .ecru else .white := by
    by_cases hq : q ∈ black
    · have hqs : m.shade q = .black := (shadeOf_eq_black h.segments).mpr hq
      simp [Marking.turned, hqs, hq]
    · have hqs : m.shade q ≠ .black := fun hcon => hq ((shadeOf_eq_black h.segments).mp hcon)
      rw [if_neg hq]
      simp only [Marking.turned]
  have hshade' (q : ℕ) : shadeOf ecru' grey' [] q =
      if q ∈ treadmillMarkRoots s.registers a b ∧ m.turned.shade q = .ecru then .grey
      else m.turned.shade q := by
    rw [shadeOf, hshade]
    simp only [hfl.ecru, hfl.grey]
    by_cases hqb : q ∈ black <;> by_cases hqr : q ∈ treadmillMarkRoots s.registers a b <;>
      simp [hqb, hqr]
  let m₁ : Marking ℕ := { m.turned with debt := treadmillMarkRoots s.registers a b }
  have hborrow : Marking.Move (fun _ _ => True) m.turned m₁ := by
    refine .settles rfl rfl (fun q i hq => hq) (fun q i hq => ?_)
      (fun e he => .inr (Marking.live_root he)) (fun e he _ => by cases he)
      fun r hr => Marking.live_root hr
    rw [hshade] at hq
    split_ifs at hq
  have hdarken : ReflTransGen (Marking.Move fun _ _ => True) m₁
      { m₁ with shade := shadeOf ecru' grey' [] } :=
    Marking.moves_darken (fun p hp => hp) hshade'
  have hpay : Marking.Move (fun _ _ => True) { m₁ with shade := shadeOf ecru' grey' [] }
      (marking { s with
        ring := treadmillFlip s.ring newmem (treadmillMarkRoots s.registers a b)
        locals := [a, b] } ecru' grey' []) := by
    refine .settles rfl rfl ?_ ?_ ?_ ?_ fun r hr => Marking.live_root (mem_roots_iff.mpr hr)
    · rintro q i (hq|⟨_, _, hi⟩)
      · cases hq
      · simp [hnext] at hi
    · intro q i hq
      have hq' := (shadeOf_eq_black hfl.segments).mp hq
      cases hq'
    · intro e he
      simp [marking, hpend, htodo, owed] at he
    · intro e he hec
      exact absurd he ((hfl.ecru e).mp (shadeOf_eq_ecru.mp hec)).2
  refine ⟨hfl.segments, ((hturned.move hborrow).moves hdarken).move hpay,
    ⟨fun hcon => ?_, by simp [htodo], by simp [htodo], fun _ => ⟨hnext, hpend⟩,
      by simp [hnext]⟩⟩
  exact ((hfl.ecru _).mp hcon).2 (mem_treadmillMarkRoots.mpr (.inl
    (mem_treadmillMarkRoots.mpr (.inr (.inl rfl)))))

end Extempore.HeapCollector
