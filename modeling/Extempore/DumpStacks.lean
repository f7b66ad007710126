import Mathlib.Algebra.GroupWithZero.Nat
import Extempore.CellLists
import Extempore.GuardedRuns

/-!
# The dump stack

`call/cc` copies the frames of the dump stack, and calling the continuation copies the copy back.
Evaluation goes on with the frames that are on the stack, and writes to what it can get at.
-/

namespace Extempore.DumpStacks
open CellLists GuardedRuns

/-- A frame of the dump stack. -/
structure Frame where
  op : ℕ
  args : ℕ
  envir : ℕ
  code : ℕ
  deriving DecidableEq, Repr

/-- What the loops of `dump_stack_copy` and `dump_stack_continuation_set` do for one frame. -/
def copyFrame (fuel : ℕ) (m : Memory) (f : Frame) : Option (Memory × Frame) :=
  (listCopy fuel m f.args).bind fun r =>
    match r.1.cells f.code with
    | .symbol _ name =>
      let r' := mkSymbol r.1 name
      some (r'.1, { f with args := r.2, code := r'.2 })
    | _ => (listCopy fuel r.1 f.code).map fun r' => (r'.1, { f with args := r.2, code := r'.2 })

def copyFrames (fuel : ℕ) (m : Memory) : List Frame → Option (Memory × List Frame)
  | [] => some (m, [])
  | f :: fs =>
    (copyFrame fuel m f).bind fun r =>
      (copyFrames fuel r.1 fs).map fun r' => (r'.1, r.2 :: r'.2)

/-- A copy of the dump stack, with the number of frames in 32 bits. -/
structure Dump where
  nframes : ℕ
  frames : List Frame

/-- `held` are the cells that evaluation has come across so far, `conts` the continuations. -/
structure State where
  mem : Memory
  held : List ℕ
  frames : List Frame
  dumpSize : ℕ
  conts : List Dump

def start : State :=
  ⟨⟨fun _ => .object 0 0, 1, fun _ => none⟩, [0], [], 0, []⟩

def stackGrowth : ℕ := 3

/-- `s_save`; `none` is an overflow of `dump_size`, which is an `int`. -/
def save (s : State) (f : Frame) : Option State :=
  if s.frames.length ≥ s.dumpSize then
    if s.dumpSize + stackGrowth < 2 ^ 31 then
      some { s with dumpSize := s.dumpSize + stackGrowth, frames := s.frames ++ [f] }
    else none
  else some { s with frames := s.frames ++ [f] }

def dumpStackCopy (fuel : ℕ) (s : State) : Option State :=
  (copyFrames fuel s.mem s.frames).map fun r =>
    { s with mem := r.1, conts := s.conts ++ [⟨s.frames.length % 2 ^ 32, r.2⟩] }

/-- The copy goes to the frames that are allocated; `none` is also a copy that does not fit. -/
def dumpStackContinuationSet (fuel : ℕ) (s : State) (d : Dump) : Option State :=
  if d.nframes ≤ s.dumpSize then
    (copyFrames fuel s.mem (d.frames.take d.nframes)).map fun r =>
      { s with mem := r.1, frames := r.2 }
  else none

/-- What evaluation can do. It gets at the cells that it holds and at what is in them, makes new
cells and writes to those that are no symbols, and pushes and pops frames. -/
inductive Op where
  | read (c : ℕ)
  | alloc (cell : Cell)
  | write (c : ℕ) (cell : Cell)
  | mkSymbol (name : Name)
  | save (f : Frame)
  | sReturn
  | reset
  | capture (fuel : ℕ)
  | invoke (fuel k : ℕ)

def step (s : State) : Op → Option State
  | .read c =>
    if c ∈ s.held then
      (s.mem.cells c).fields.map fun r => { s with held := r.1 :: r.2 :: s.held }
    else none
  | .alloc cell =>
    if cell.heldBy s.held then
      some { s with mem := s.mem.alloc cell, held := s.mem.next :: s.held }
    else none
  | .write c cell =>
    if c ∈ s.held ∧ c ≠ 0 ∧ (s.mem.cells c).isSymbol = false ∧ cell.heldBy s.held then
      some { s with mem := { s.mem with cells := Function.update s.mem.cells c cell } }
    else none
  | .mkSymbol name =>
    some { s with mem := (mkSymbol s.mem name).1, held := (mkSymbol s.mem name).2 :: s.held }
  | .save f =>
    if f.args ∈ s.held ∧ f.envir ∈ s.held ∧ f.code ∈ s.held then save s f else none
  | .sReturn =>
    s.frames.getLast?.map fun f =>
      { s with frames := s.frames.dropLast, held := f.args :: f.envir :: f.code :: s.held }
  | .reset => some { s with frames := [] }
  | .capture fuel => dumpStackCopy fuel s
  | .invoke fuel k => s.conts[k]?.bind (dumpStackContinuationSet fuel s)

variable {cells cells' : ℕ → Cell} {m m' : Memory} {S : ℕ → Prop}

/-! ## Copying frames -/

/-- The frame `g` is a copy of `f`. -/
structure Copied (m : Memory) (f : Frame) (m' : Memory) (g : Frame) : Prop where
  op_eq : g.op = f.op
  envir_eq : g.envir = f.envir
  args : ∃ xs, Walk m.cells f.args xs ∧ ListIn m m' xs g.args
  code : (∃ nameCell name, m.cells f.code = .symbol nameCell name ∧ m'.oblist name = some g.code) ∨
    (m.cells f.code).isSymbol = false ∧ ∃ ys, Walk m.cells f.code ys ∧ ListIn m m' ys g.code

/-- What is to be copied is there, with elements outside of `S`. -/
structure Reads (S : ℕ → Prop) (m : Memory) (f : Frame) : Prop where
  args_lt : f.args < m.next
  code_lt : f.code < m.next
  envir_lt : f.envir < m.next ∧ ¬ S f.envir
  args_apart : ∀ xs, Walk m.cells f.args xs → ∀ x ∈ xs, ¬ S x
  code_apart : ∀ ys, Walk m.cells f.code ys → ∀ y ∈ ys, ¬ S y

/-- The loops for the frame are over after fewer than `n` rounds. -/
def EndsWithin (n : ℕ) (m : Memory) (f : Frame) : Prop :=
  (∃ xs, Walk m.cells f.args xs ∧ xs.length < n) ∧
    ((m.cells f.code).isSymbol = true ∨ ∃ ys, Walk m.cells f.code ys ∧ ys.length < n)

/-- The cells of a frame are outside of `S`. -/
def Frame.Apart (S : ℕ → Prop) (m : Memory) (f : Frame) : Prop :=
  (f.args < m.next ∧ ¬ S f.args) ∧ (f.envir < m.next ∧ ¬ S f.envir) ∧ f.code < m.next ∧ ¬ S f.code

theorem Copied.extends {m'' : Memory} {f g : Frame} (h : Copied m f m' g) (hext : Extends m' m'') :
    Copied m f m'' g where
  op_eq := h.op_eq
  envir_eq := h.envir_eq
  args := by
    obtain ⟨xs, hxs, hin⟩ := h.args
    exact ⟨xs, hxs, hin.extends hext⟩
  code := by
    cases h.code with
    | inl hsym =>
      obtain ⟨nameCell, name, hcell, hx⟩ := hsym
      exact Or.inl ⟨nameCell, name, hcell, hext.oblist_of _ _ hx⟩
    | inr hlist =>
      obtain ⟨hsym, ys, hys, hin⟩ := hlist
      exact Or.inr ⟨hsym, ys, hys, hin.extends hext⟩

theorem Copied.of_extends {m₀ : Memory} {f g : Frame} (hm : Closed m₀) (hext : Extends m₀ m)
    (hargs : f.args < m₀.next) (hcode : f.code < m₀.next) (h : Copied m f m' g) :
    Copied m₀ f m' g where
  op_eq := h.op_eq
  envir_eq := h.envir_eq
  args := by
    obtain ⟨xs, hxs, hin⟩ := h.args
    exact ⟨xs, (walk_congr hm hargs hext.cells_eq).mp hxs, hin.of_le hext.next_le⟩
  code := by
    have hcell := hext.cells_eq _ hcode
    cases h.code with
    | inl hsym => exact Or.inl (hcell ▸ hsym)
    | inr hlist =>
      obtain ⟨hsym, ys, hys, hin⟩ := hlist
      exact Or.inr ⟨hcell ▸ hsym, ys, (walk_congr hm hcode hext.cells_eq).mp hys,
        hin.of_le hext.next_le⟩

theorem Reads.extends {f : Frame} (hm : Closed m) (h : Reads S m f) (hext : Extends m m') :
    Reads S m' f where
  args_lt := Nat.lt_of_lt_of_le h.args_lt hext.next_le
  code_lt := Nat.lt_of_lt_of_le h.code_lt hext.next_le
  envir_lt := ⟨Nat.lt_of_lt_of_le h.envir_lt.1 hext.next_le, h.envir_lt.2⟩
  args_apart xs hxs := h.args_apart xs ((walk_congr hm h.args_lt hext.cells_eq).mp hxs)
  code_apart ys hys := h.code_apart ys ((walk_congr hm h.code_lt hext.cells_eq).mp hys)

theorem EndsWithin.extends {f : Frame} {n : ℕ} (hm : Closed m) (hf : Reads S m f)
    (h : EndsWithin n m f) (hext : Extends m m') : EndsWithin n m' f := by
  obtain ⟨⟨xs, hxs, hlen⟩, hcode⟩ := h
  refine ⟨⟨xs, (walk_congr hm hf.args_lt hext.cells_eq).mpr hxs, hlen⟩, ?_⟩
  rw [hext.cells_eq _ hf.code_lt]
  refine hcode.imp id fun hys => ?_
  obtain ⟨ys, hys, hlen⟩ := hys
  exact ⟨ys, (walk_congr hm hf.code_lt hext.cells_eq).mpr hys, hlen⟩

theorem Frame.Apart.extends {f : Frame} (h : f.Apart S m) (hext : Extends m m') : f.Apart S m' := by
  have hle := hext.next_le
  obtain ⟨⟨ha, hSa⟩, ⟨he, hSe⟩, hc, hSc⟩ := h
  exact ⟨⟨Nat.lt_of_lt_of_le ha hle, hSa⟩, ⟨Nat.lt_of_lt_of_le he hle, hSe⟩,
    Nat.lt_of_lt_of_le hc hle, hSc⟩

theorem copyFrame_spec {fuel : ℕ} {f : Frame} {r : Memory × Frame} (hm : Apart S m)
    (hf : Reads S m f) (h : copyFrame fuel m f = some r) :
    Apart S r.1 ∧ Extends m r.1 ∧ Copied m f r.1 r.2 ∧ r.2.Apart S r.1 := by
  obtain ⟨r₁, hr₁, h⟩ := Option.bind_eq_some_iff.mp h
  obtain ⟨⟨hm₁, hlt₁, hS₁⟩, hext₁, xs, hxs, hin⟩ := hm.listCopy hf.args_lt hf.args_apart hr₁
  have hf₁ := hf.extends hm.toClosed hext₁
  have hcell := hext₁.cells_eq _ hf.code_lt
  split at h
  · rename_i nameCell name hsymbol
    cases h
    obtain ⟨hm₂, hext₂, hname⟩ := hm₁.mkSymbol name
    obtain ⟨hlt₂, hS₂, -⟩ := hm₂.oblist_symbol _ _ hname
    have henvir := Nat.lt_of_lt_of_le hf₁.envir_lt.1 hext₂.next_le
    refine ⟨hm₂, hext₁.trans hext₂, ⟨rfl, rfl, ⟨xs, hxs, hin.extends hext₂⟩, Or.inl ?_⟩,
      ⟨Nat.lt_of_lt_of_le hlt₁ hext₂.next_le, hS₁⟩, ⟨henvir, hf.envir_lt.2⟩, hlt₂, hS₂⟩
    exact ⟨nameCell, name, hcell ▸ hsymbol, hname⟩
  · rename_i hother
    obtain ⟨r₂, hr₂, h⟩ := Option.map_eq_some_iff.mp h
    subst h
    obtain ⟨⟨hm₂, hlt₂, hS₂⟩, hext₂, ys, hys, hin₂⟩ :=
      hm₁.listCopy hf₁.code_lt hf₁.code_apart hr₂
    have henvir := Nat.lt_of_lt_of_le hf₁.envir_lt.1 hext₂.next_le
    refine ⟨hm₂, hext₁.trans hext₂, ⟨rfl, rfl, ⟨xs, hxs, hin.extends hext₂⟩, Or.inr ⟨?_, ys, ?_, ?_⟩⟩,
      ⟨Nat.lt_of_lt_of_le hlt₁ hext₂.next_le, hS₁⟩, ⟨henvir, hf.envir_lt.2⟩, hlt₂, hS₂⟩
    · rw [← hcell]
      cases hc : r₁.1.cells f.code with
      | symbol nameCell name => exact absurd hc (hother nameCell name)
      | pair a d => rfl
      | object a d => rfl
      | atom => rfl
    · exact (walk_congr hm.toClosed hf.code_lt hext₁.cells_eq).mp hys
    · exact hin₂.of_le hext₁.next_le

theorem copyFrames_spec {fuel : ℕ} {fs : List Frame} {r : Memory × List Frame} (hm : Apart S m)
    (hfs : ∀ f ∈ fs, Reads S m f) (h : copyFrames fuel m fs = some r) :
    Apart S r.1 ∧ Extends m r.1 ∧ List.Forall₂ (fun f g => Copied m f r.1 g) fs r.2 ∧
      ∀ g ∈ r.2, g.Apart S r.1 := by
  induction fs generalizing m r with
  | nil =>
    cases h
    exact ⟨hm, .refl m, .nil, by simp⟩
  | cons f fs ih =>
    obtain ⟨r₁, hr₁, h⟩ := Option.bind_eq_some_iff.mp h
    obtain ⟨r₂, hr₂, h⟩ := Option.map_eq_some_iff.mp h
    subst h
    have hf := hfs f List.mem_cons_self
    obtain ⟨hm₁, hext₁, hcopied, hapart⟩ := copyFrame_spec hm hf hr₁
    obtain ⟨hm₂, hext₂, hrest, haparts⟩ := ih hm₁
      (fun g hg => (hfs g (List.mem_cons_of_mem _ hg)).extends hm.toClosed hext₁) hr₂
    refine ⟨hm₂, hext₁.trans hext₂, .cons (hcopied.extends hext₂) ?_, ?_⟩
    · refine (List.forall₂_iff_get.mpr ?_)
      obtain ⟨hlen, hget⟩ := List.forall₂_iff_get.mp hrest
      refine ⟨hlen, fun i hi hi' => ?_⟩
      have hg := hfs _ (List.mem_cons_of_mem _ (List.get_mem fs ⟨i, hi⟩))
      exact (hget i hi hi').of_extends hm.toClosed hext₁ hg.args_lt hg.code_lt
    · intro g hg
      cases hg with
      | head => exact hapart.extends hext₂
      | tail _ hg => exact haparts g hg

theorem copyFrame_some {fuel : ℕ} {f : Frame} (hm : Apart S m) (hf : Reads S m f)
    (hends : EndsWithin fuel m f) : ∃ r, copyFrame fuel m f = some r := by
  obtain ⟨⟨xs, hxs, hlen⟩, hcode⟩ := hends
  obtain ⟨m₁, y₁, hcopy, his⟩ := listCopy_spec hm.toClosed hf.args_lt hxs hlen
  have hcell := his.cells_eq _ hf.code_lt
  rw [copyFrame, hcopy, Option.bind_some]
  split
  · exact ⟨_, rfl⟩
  · rename_i hother
    have hclosed : Closed m₁ := (his.apart hm fun x hx =>
      ⟨hxs.lt hm.toClosed hf.args_lt x hx, hf.args_apart xs hxs x hx⟩).1.toClosed
    cases hcode with
    | inl hsymbol =>
      cases hc : m.cells f.code with
      | symbol nameCell name => exact absurd (hcell.trans hc) (hother nameCell name)
      | pair a d => simp [hc, Cell.isSymbol] at hsymbol
      | object a d => simp [hc, Cell.isSymbol] at hsymbol
      | atom => simp [hc, Cell.isSymbol] at hsymbol
    | inr hwalk =>
      obtain ⟨ys, hys, hlen'⟩ := hwalk
      have hys₁ := (walk_congr hm.toClosed hf.code_lt his.cells_eq).mpr hys
      have hlt := Nat.lt_of_lt_of_le hf.code_lt his.extends.next_le
      obtain ⟨m₂, y₂, hcopy₂, -⟩ := listCopy_spec hclosed hlt hys₁ hlen'
      rw [hcopy₂]
      exact ⟨_, rfl⟩

/-- Frames whose lists end can be copied. -/
theorem copyFrames_some {fuel : ℕ} {fs : List Frame} (hm : Apart S m)
    (hfs : ∀ f ∈ fs, Reads S m f) (hends : ∀ f ∈ fs, EndsWithin fuel m f) :
    ∃ r, copyFrames fuel m fs = some r := by
  induction fs generalizing m with
  | nil => exact ⟨_, rfl⟩
  | cons f fs ih =>
    have hf := hfs f List.mem_cons_self
    obtain ⟨r₁, hr₁⟩ := copyFrame_some hm hf (hends f List.mem_cons_self)
    obtain ⟨hm₁, hext₁, -, -⟩ := copyFrame_spec hm hf hr₁
    obtain ⟨r₂, hr₂⟩ := ih hm₁
      (fun g hg => (hfs g (List.mem_cons_of_mem _ hg)).extends hm.toClosed hext₁)
      (fun g hg => (hends g (List.mem_cons_of_mem _ hg)).extends hm.toClosed
        (hfs g (List.mem_cons_of_mem _ hg)) hext₁)
    rw [copyFrames, hr₁, Option.bind_some, hr₂]
    exact ⟨_, rfl⟩

theorem Frame.Apart.reads {f : Frame} (hm : CellLists.Apart S m) (h : f.Apart S m) :
    Reads S m f where
  args_lt := h.1.1
  code_lt := h.2.2.1
  envir_lt := h.2.1
  args_apart _ hxs := hxs.apart hm h.1.1 h.1.2
  code_apart _ hys := hys.apart hm h.2.2.1 h.2.2.2

theorem EndsWithin.mono {f : Frame} {n n' : ℕ} (h : EndsWithin n m f) (hle : n ≤ n') :
    EndsWithin n' m f := by
  obtain ⟨⟨xs, hxs, hlen⟩, hcode⟩ := h
  refine ⟨⟨xs, hxs, Nat.lt_of_lt_of_le hlen hle⟩, hcode.imp id fun hys => ?_⟩
  obtain ⟨ys, hys, hlen'⟩ := hys
  exact ⟨ys, hys, Nat.lt_of_lt_of_le hlen' hle⟩

/-- Finitely many loops have a common bound. -/
theorem exists_endsWithin {fs : List Frame} (h : ∀ f ∈ fs, ∃ n, EndsWithin n m f) :
    ∃ n, ∀ f ∈ fs, EndsWithin n m f := by
  induction fs with
  | nil => exact ⟨0, by simp⟩
  | cons f fs ih =>
    obtain ⟨n, hn⟩ := h f List.mem_cons_self
    obtain ⟨n', hn'⟩ := ih fun g hg => h g (List.mem_cons_of_mem _ hg)
    refine ⟨max n n', ?_⟩
    intro g hg
    cases hg with
    | head => exact hn.mono (Nat.le_max_left ..)
    | tail _ hg => exact (hn' g hg).mono (Nat.le_max_right ..)

theorem copyFrame_oblist {fuel : ℕ} {f : Frame} {r : Memory × Frame} (hm : Apart S m)
    (hf : Reads S m f)
    (hsymbol : ∀ nameCell name, m.cells f.code = .symbol nameCell name →
      m.oblist name = some f.code) (h : copyFrame fuel m f = some r) : r.1.oblist = m.oblist := by
  obtain ⟨⟨m₁, y₁⟩, hr₁, h⟩ := Option.bind_eq_some_iff.mp h
  obtain ⟨xs, hxs, -, hcopy⟩ := listCopy_eq_some hm.toClosed hf.args_lt hr₁
  have hcell := hcopy.cells_eq _ hf.code_lt
  split at h
  · rename_i nameCell name hcode
    cases h
    have hfound := hsymbol nameCell name (hcell ▸ hcode)
    rw [mkSymbol, hcopy.oblist_eq, hfound]
    exact hcopy.oblist_eq
  · obtain ⟨⟨m₂, y₂⟩, hr₂, rfl⟩ := Option.map_eq_some_iff.mp h
    have hm₁ := (hcopy.apart hm fun x hx =>
      ⟨hxs.lt hm.toClosed hf.args_lt x hx, hf.args_apart xs hxs x hx⟩).1
    have hlt := Nat.lt_of_lt_of_le hf.code_lt hcopy.extends.next_le
    obtain ⟨ys, -, -, hcopy₂⟩ := listCopy_eq_some hm₁.toClosed hlt hr₂
    exact hcopy₂.oblist_eq.trans hcopy.oblist_eq

theorem copyFrames_oblist {fuel : ℕ} {fs : List Frame} {r : Memory × List Frame} (hm : Apart S m)
    (hfs : ∀ f ∈ fs, Reads S m f)
    (hsymbol : ∀ f ∈ fs, ∀ nameCell name, m.cells f.code = .symbol nameCell name →
      m.oblist name = some f.code) (h : copyFrames fuel m fs = some r) : r.1.oblist = m.oblist := by
  induction fs generalizing m r with
  | nil =>
    cases h
    rfl
  | cons f fs ih =>
    obtain ⟨r₁, hr₁, h⟩ := Option.bind_eq_some_iff.mp h
    obtain ⟨r₂, hr₂, rfl⟩ := Option.map_eq_some_iff.mp h
    have hf := hfs f List.mem_cons_self
    obtain ⟨hm₁, hext₁, -, -⟩ := copyFrame_spec hm hf hr₁
    have hoblist := copyFrame_oblist hm hf (hsymbol f List.mem_cons_self) hr₁
    rw [ih hm₁ ?_ ?_ hr₂, hoblist]
    · intro g hg
      exact (hfs g (List.mem_cons_of_mem _ hg)).extends hm.toClosed hext₁
    · intro g hg nameCell name hcell
      rw [hoblist]
      rw [hext₁.cells_eq _ (hfs g (List.mem_cons_of_mem _ hg)).code_lt] at hcell
      exact hsymbol g (List.mem_cons_of_mem _ hg) nameCell name hcell

/-! ## What evaluation keeps -/

/-- A proper list of pairs in `S` with elements outside. -/
def KeptList (S : ℕ → Prop) (m : Memory) (y : ℕ) : Prop :=
  ∃ ps, (∀ p ∈ ps, S p.1 ∧ ¬ S p.2 ∧ p.2 < m.next) ∧ Chain m.cells ps y

/-- A frame whose lists are in `S`. -/
structure KeptFrame (S : ℕ → Prop) (m : Memory) (f : Frame) : Prop where
  envir : f.envir < m.next ∧ ¬ S f.envir
  args : KeptList S m f.args
  code : (f.code < m.next ∧ ¬ S f.code ∧ (m.cells f.code).isSymbol = true) ∨ KeptList S m f.code

/-- Evaluation gets at no pair of the lists in the continuation `k`. -/
structure Separated (S : ℕ → Prop) (k : Option ℕ) (s : State) : Prop where
  mem : Apart S s.mem
  held : ∀ c ∈ s.held, c < s.mem.next ∧ ¬ S c
  frames : ∀ f ∈ s.frames, f.Apart S s.mem
  conts : ∀ i d, s.conts[i]? = some d → some i ≠ k → ∀ f ∈ d.frames, f.Apart S s.mem
  kept : ∀ i d, s.conts[i]? = some d → some i = k → ∀ f ∈ d.frames, KeptFrame S s.mem f
  kept_lt : ∀ i, some i = k → i < s.conts.length
  size : s.frames.length ≤ s.dumpSize ∧ s.dumpSize < 2 ^ 31

/-- What no step changes. -/
structure Persists (S : ℕ → Prop) (s s' : State) : Prop where
  next_le : s.mem.next ≤ s'.mem.next
  cells_eq : ∀ c, S c → s'.mem.cells c = s.mem.cells c
  symbol_eq : ∀ c < s.mem.next, (s.mem.cells c).isSymbol = true →
    s'.mem.cells c = s.mem.cells c
  oblist_of : ∀ name x, s.mem.oblist name = some x → s'.mem.oblist name = some x
  dumpSize_le : s.dumpSize ≤ s'.dumpSize
  conts : ∀ (i : ℕ) d, s.conts[i]? = some d → s'.conts[i]? = some d

variable {k : Option ℕ} {s s' : State}

theorem Persists.refl (s : State) : Persists S s s :=
  ⟨Nat.le_refl _, fun _ _ => rfl, fun _ _ _ => rfl, fun _ _ h => h, Nat.le_refl _, fun _ _ h => h⟩

theorem Persists.trans {s₁ s₂ s₃ : State} (h : Persists S s₁ s₂) (h' : Persists S s₂ s₃) :
    Persists S s₁ s₃ where
  next_le := Nat.le_trans h.next_le h'.next_le
  cells_eq c hc := (h'.cells_eq c hc).trans (h.cells_eq c hc)
  symbol_eq c hc hsymbol := by
    have heq := h.symbol_eq c hc hsymbol
    rw [← heq]
    exact h'.symbol_eq c (Nat.lt_of_lt_of_le hc h.next_le) (heq ▸ hsymbol)
  oblist_of name x hx := h'.oblist_of name x (h.oblist_of name x hx)
  dumpSize_le := Nat.le_trans h.dumpSize_le h'.dumpSize_le
  conts i d hd := h'.conts i d (h.conts i d hd)

theorem KeptFrame.persists {f : Frame} (h : KeptFrame S s.mem f) (hp : Persists S s s') :
    KeptFrame S s'.mem f := by
  have hlist {y : ℕ} (hy : KeptList S s.mem y) : KeptList S s'.mem y := by
    obtain ⟨ps, hps, hchain⟩ := hy
    refine ⟨ps, ?_, hchain.congr fun p hp' => hp.cells_eq _ (hps p hp').1⟩
    intro p hp'
    exact ⟨(hps p hp').1, (hps p hp').2.1, Nat.lt_of_lt_of_le (hps p hp').2.2 hp.next_le⟩
  refine ⟨⟨Nat.lt_of_lt_of_le h.envir.1 hp.next_le, h.envir.2⟩, hlist h.args, ?_⟩
  cases h.code with
  | inl hsymbol =>
    obtain ⟨hlt, hS, hsym⟩ := hsymbol
    exact Or.inl ⟨Nat.lt_of_lt_of_le hlt hp.next_le, hS, by rw [hp.symbol_eq _ hlt hsym, hsym]⟩
  | inr hcode => exact Or.inr (hlist hcode)

theorem KeptList.lt {y : ℕ} (hm : Apart S m) (h : KeptList S m y) : y < m.next := by
  obtain ⟨ps, hps, hchain⟩ := h
  cases hchain.cell.1 with
  | inl hnil =>
    rw [hnil]
    exact hm.next_pos
  | inr hmem =>
    obtain ⟨p, hp, rfl⟩ := List.mem_map.mp hmem
    exact hm.lt _ (hps p hp).1

theorem KeptList.walk_apart {y : ℕ} (h : KeptList S m y) {xs : List ℕ} (hxs : Walk m.cells y xs) :
    ∀ x ∈ xs, ¬ S x := by
  obtain ⟨ps, hps, hchain⟩ := h
  obtain rfl := hxs.unique hchain.properList.walk
  intro x hx
  obtain ⟨p, hp, rfl⟩ := List.mem_map.mp hx
  exact (hps p hp).2.1

theorem KeptFrame.reads {f : Frame} (hm : Apart S m) (h : KeptFrame S m f) : Reads S m f where
  args_lt := h.args.lt hm
  code_lt := by
    cases h.code with
    | inl hsymbol => exact hsymbol.1
    | inr hcode => exact hcode.lt hm
  envir_lt := h.envir
  args_apart _ hxs := h.args.walk_apart hxs
  code_apart _ hys := by
    cases h.code with
    | inl hsymbol => exact hys.apart hm hsymbol.1 hsymbol.2.1
    | inr hcode => exact hcode.walk_apart hys

/-- The memory has grown, and all the rest is as it was. -/
theorem Separated.grow (h : Separated S k s) (hmem : Apart S s'.mem) (hext : Extends s.mem s'.mem)
    (hheld : ∀ c ∈ s'.held, c < s'.mem.next ∧ ¬ S c) (hframes : ∀ f ∈ s'.frames, f.Apart S s'.mem)
    (hsize : s'.frames.length ≤ s'.dumpSize ∧ s'.dumpSize < 2 ^ 31) (hdump : s.dumpSize ≤ s'.dumpSize)
    (hconts : s'.conts = s.conts ∨
      ∃ d, s'.conts = s.conts ++ [d] ∧ ∀ f ∈ d.frames, f.Apart S s'.mem) :
    Separated S k s' ∧ Persists S s s' := by
  have hold (i : ℕ) (d : Dump) (hd : s.conts[i]? = some d) : s'.conts[i]? = some d := by
    rcases hconts with heq | ⟨d', heq, -⟩
    · rw [heq, hd]
    · rw [heq, List.getElem?_append_left (List.getElem?_eq_some_iff.mp hd).1, hd]
  have hback (i : ℕ) (d : Dump) (hd : s'.conts[i]? = some d) :
      s.conts[i]? = some d ∨ i = s.conts.length ∧ ∀ f ∈ d.frames, f.Apart S s'.mem := by
    rcases hconts with heq | ⟨d', heq, hd'⟩
    · exact Or.inl (heq ▸ hd)
    · rw [heq, List.getElem?_append] at hd
      split at hd
      · exact Or.inl hd
      · rename_i hge
        have hi : i - s.conts.length = 0 := by
          by_contra hne
          rw [List.getElem?_eq_none (by simp; omega)] at hd
          cases hd
        rw [hi] at hd
        cases hd
        exact Or.inr ⟨by omega, hd'⟩
  have hpersists : Persists S s s' :=
    ⟨hext.next_le, fun c hc => hext.cells_eq c (h.mem.lt c hc), fun c hc _ => hext.cells_eq c hc,
      hext.oblist_of, hdump, hold⟩
  refine ⟨⟨hmem, hheld, hframes, ?_, ?_, ?_, hsize⟩, hpersists⟩
  · intro i d hd hi f hf
    cases hback i d hd with
    | inl hd' => exact (h.conts i d hd' hi f hf).extends hext
    | inr hnew => exact hnew.2 f hf
  · intro i d hd hi f hf
    cases hback i d hd with
    | inl hd' => exact (h.kept i d hd' hi f hf).persists hpersists
    | inr hnew =>
      have := h.kept_lt i hi
      omega
  · intro i hi
    have := h.kept_lt i hi
    rcases hconts with heq | ⟨d', heq, -⟩
    · rwa [heq]
    · rw [heq, List.length_append]
      omega

theorem Separated.reads (h : Separated S k s) {i : ℕ} {d : Dump} (hd : s.conts[i]? = some d) :
    ∀ f ∈ d.frames, Reads S s.mem f := by
  intro f hf
  by_cases hi : some i = k
  · exact (h.kept i d hd hi f hf).reads h.mem
  · exact (h.conts i d hd hi f hf).reads h.mem

theorem heldBy_apart {cell : Cell} (h : Separated S k s) (hcell : cell.heldBy s.held = true)
    {a d : ℕ} (hfields : cell.fields = some (a, d)) :
    (a < s.mem.next ∧ ¬ S a) ∧ d < s.mem.next ∧ ¬ S d := by
  rw [Cell.heldBy, hfields] at hcell
  simp only [Bool.and_eq_true, List.contains_iff_mem] at hcell
  exact ⟨h.held a hcell.1, h.held d hcell.2⟩

theorem Separated.read (h : Separated S k s) {c : ℕ} (hs : step s (.read c) = some s') :
    Separated S k s' ∧ Persists S s s' := by
  simp only [step] at hs
  split at hs
  · rename_i hc
    obtain ⟨⟨a, d⟩, hfields, rfl⟩ := Option.map_eq_some_iff.mp hs
    obtain ⟨hlt, hS⟩ := h.held c hc
    have hin := h.mem.fields_lt c hlt a d hfields
    have hout := h.mem.cells_apart c hlt hS a d hfields
    refine h.grow h.mem (.refl _) ?_ h.frames h.size (Nat.le_refl _) (Or.inl rfl)
    intro b hb
    cases hb with
    | head => exact ⟨hin.1, hout.1⟩
    | tail _ hb =>
      cases hb with
      | head => exact ⟨hin.2, hout.2⟩
      | tail _ hb => exact h.held b hb
  · cases hs

theorem Separated.alloc (h : Separated S k s) {cell : Cell} (hs : step s (.alloc cell) = some s') :
    Separated S k s' ∧ Persists S s s' := by
  simp only [step] at hs
  split at hs
  · rename_i hcell
    cases hs
    obtain ⟨hm, hext⟩ := h.mem.alloc fun a d had => heldBy_apart h hcell had
    refine h.grow hm hext ?_ (fun f hf => (h.frames f hf).extends hext) h.size (Nat.le_refl _)
      (Or.inl rfl)
    intro b hb
    cases hb with
    | head => exact ⟨Nat.lt_succ_self _, h.mem.next_apart⟩
    | tail _ hb => exact ⟨Nat.lt_succ_of_lt (h.held b hb).1, (h.held b hb).2⟩
  · cases hs

/-- A write goes to a cell outside of `S` that is no symbol. -/
theorem Separated.write (h : Separated S k s) {c : ℕ} {cell : Cell}
    (hs : step s (.write c cell) = some s') : Separated S k s' ∧ Persists S s s' := by
  simp only [step] at hs
  split at hs
  · rename_i hguard
    obtain ⟨hc, hne, hsymbol, hcell⟩ := hguard
    cases hs
    obtain ⟨hlt, hS⟩ := h.held c hc
    have hpersists : Persists S s
        { s with mem := { s.mem with cells := Function.update s.mem.cells c cell } } := by
      refine ⟨Nat.le_refl _, ?_, ?_, fun _ _ hx => hx, Nat.le_refl _, fun _ _ hd => hd⟩
      · intro b hb
        apply Function.update_of_ne
        rintro rfl
        exact hS hb
      · intro b _ hb
        apply Function.update_of_ne
        rintro rfl
        rw [hb] at hsymbol
        cases hsymbol
    have hnil : Function.update s.mem.cells c cell 0 = .object 0 0 :=
      (Function.update_of_ne (Ne.symm hne) _ _).trans h.mem.nil_cell
    refine ⟨⟨⟨⟨h.mem.next_pos, hnil, ?_⟩, ?_, h.mem.lt, h.mem.nil_apart, ?_⟩, h.held, h.frames, h.conts,
      ?_, h.kept_lt, h.size⟩, hpersists⟩
    · intro b hb a d hfields
      by_cases heq : b = c
      · subst heq
        simp only [Function.update_self] at hfields
        have := heldBy_apart h hcell hfields
        exact ⟨this.1.1, this.2.1⟩
      · simp only [Function.update_of_ne heq] at hfields
        exact h.mem.fields_lt b hb a d hfields
    · intro b hb hSb a d hfields
      by_cases heq : b = c
      · subst heq
        simp only [Function.update_self] at hfields
        have := heldBy_apart h hcell hfields
        exact ⟨this.1.2, this.2.2⟩
      · simp only [Function.update_of_ne heq] at hfields
        exact h.mem.cells_apart b hb hSb a d hfields
    · intro name x hx
      obtain ⟨hxlt, hxS, nameCell, hxcell⟩ := h.mem.oblist_symbol name x hx
      refine ⟨hxlt, hxS, nameCell, ?_⟩
      rw [← hxcell]
      exact hpersists.symbol_eq x hxlt (by rw [hxcell]; rfl)
    · intro i d hd hi f hf
      exact (h.kept i d hd hi f hf).persists hpersists
  · cases hs

theorem Separated.mkSymbol (h : Separated S k s) {name : Name}
    (hs : step s (.mkSymbol name) = some s') : Separated S k s' ∧ Persists S s s' := by
  obtain rfl := Option.some.inj hs
  obtain ⟨hm, hext, hname⟩ := h.mem.mkSymbol name
  obtain ⟨hlt, hS, -⟩ := hm.oblist_symbol _ _ hname
  refine h.grow hm hext ?_ (fun f hf => (h.frames f hf).extends hext) h.size (Nat.le_refl _)
    (Or.inl rfl)
  intro b hb
  cases hb with
  | head => exact ⟨hlt, hS⟩
  | tail _ hb => exact ⟨Nat.lt_of_lt_of_le (h.held b hb).1 hext.next_le, (h.held b hb).2⟩

theorem save_eq_some {f : Frame} (hsize : s.frames.length ≤ s.dumpSize) (h : save s f = some s') :
    ∃ n ≥ s.dumpSize, s' = { s with dumpSize := n, frames := s.frames ++ [f] } ∧
      s.frames.length < n ∧ (s.dumpSize < 2 ^ 31 → n < 2 ^ 31) := by
  rw [save, stackGrowth] at h
  split at h
  · split at h
    · cases h
      exact ⟨s.dumpSize + 3, Nat.le_add_right _ _, rfl, by omega, by omega⟩
    · cases h
  · cases h
    exact ⟨s.dumpSize, Nat.le_refl _, rfl, by omega, id⟩

/-- `s_save` makes room for the frame. -/
theorem Separated.save (h : Separated S k s) {f : Frame} (hs : step s (.save f) = some s') :
    Separated S k s' ∧ Persists S s s' := by
  have hsize := h.size
  simp only [step] at hs
  split at hs
  · rename_i hguard
    obtain ⟨n, hn, rfl, hlt, hfits⟩ := save_eq_some hsize.1 hs
    refine h.grow h.mem (.refl _) h.held ?_ ⟨?_, hfits hsize.2⟩ hn (Or.inl rfl)
    · intro g hg
      rcases List.mem_append.mp hg with hg|hg
      · exact h.frames g hg
      · obtain rfl := List.mem_singleton.mp hg
        exact ⟨h.held _ hguard.1, h.held _ hguard.2.1, h.held _ hguard.2.2⟩
    · rw [List.length_append, List.length_singleton]
      exact hlt
  · cases hs

theorem Separated.sReturn (h : Separated S k s) (hs : step s .sReturn = some s') :
    Separated S k s' ∧ Persists S s s' := by
  obtain ⟨f, hf, rfl⟩ := Option.map_eq_some_iff.mp hs
  have hapart := h.frames f (List.mem_of_getLast? hf)
  refine h.grow h.mem (.refl _) ?_ (fun g hg => h.frames g ((List.dropLast_sublist _).subset hg)) ?_
    (Nat.le_refl _) (Or.inl rfl)
  · intro b hb
    simp only [List.mem_cons] at hb
    rcases hb with rfl|rfl|rfl|hb
    · exact hapart.1
    · exact hapart.2.1
    · exact hapart.2.2
    · exact h.held b hb
  · have hsize := h.size
    simp only [List.length_dropLast]
    omega

theorem Separated.capture (h : Separated S k s) {fuel : ℕ} (hs : step s (.capture fuel) = some s') :
    Separated S k s' ∧ Persists S s s' := by
  obtain ⟨r, hr, rfl⟩ := Option.map_eq_some_iff.mp hs
  obtain ⟨hm, hext, -, haparts⟩ := copyFrames_spec h.mem (fun f hf => (h.frames f hf).reads h.mem) hr
  refine h.grow hm hext ?_ (fun f hf => (h.frames f hf).extends hext) h.size (Nat.le_refl _)
    (Or.inr ⟨_, rfl, haparts⟩)
  intro b hb
  exact ⟨Nat.lt_of_lt_of_le (h.held b hb).1 hext.next_le, (h.held b hb).2⟩

theorem Separated.invoke (h : Separated S k s) {fuel i : ℕ}
    (hs : step s (.invoke fuel i) = some s') : Separated S k s' ∧ Persists S s s' := by
  obtain ⟨d, hd, hs⟩ := Option.bind_eq_some_iff.mp hs
  rw [dumpStackContinuationSet] at hs
  split at hs
  · rename_i hfits
    obtain ⟨r, hr, rfl⟩ := Option.map_eq_some_iff.mp hs
    obtain ⟨hm, hext, hcopied, haparts⟩ :=
      copyFrames_spec h.mem (fun f hf => h.reads hd f (List.mem_of_mem_take hf)) hr
    refine h.grow hm hext ?_ haparts ?_ (Nat.le_refl _) (Or.inl rfl)
    · intro b hb
      exact ⟨Nat.lt_of_lt_of_le (h.held b hb).1 hext.next_le, (h.held b hb).2⟩
    · have hlen := hcopied.length_eq
      rw [List.length_take] at hlen
      refine ⟨?_, h.size.2⟩
      show r.2.length ≤ s.dumpSize
      omega
  · cases hs

theorem Separated.step {op : Op} (h : Separated S k s) (hs : step s op = some s') :
    Separated S k s' ∧ Persists S s s' := by
  cases op with
  | read c => exact h.read hs
  | alloc cell => exact h.alloc hs
  | write c cell => exact h.write hs
  | mkSymbol name => exact h.mkSymbol hs
  | save f => exact h.save hs
  | sReturn => exact h.sReturn hs
  | reset =>
    cases hs
    exact h.grow h.mem (.refl _) h.held (by simp) ⟨Nat.zero_le _, h.size.2⟩ (Nat.le_refl _)
      (Or.inl rfl)
  | capture fuel => exact h.capture hs
  | invoke fuel i => exact h.invoke hs

theorem Separated.run {ops : List Op} (h : Separated S k s) (hr : run DumpStacks.step s ops = some s') :
    Separated S k s' ∧ Persists S s s' := by
  induction ops generalizing s with
  | nil =>
    obtain rfl : s = s' := by simpa using hr
    exact ⟨h, .refl s⟩
  | cons op ops ih =>
    obtain ⟨t, ht, hr⟩ := run_cons_eq_some.mp hr
    obtain ⟨hsep, hp⟩ := h.step ht
    obtain ⟨hsep', hp'⟩ := ih hsep hr
    exact ⟨hsep', hp.trans hp'⟩

theorem separated_start : Separated (fun _ => False) none start where
  mem := by
    refine ⟨⟨Nat.zero_lt_one, rfl, ?_⟩, ?_, ?_, id, ?_⟩
    · intro c hc a d hfields
      cases hfields
      exact ⟨Nat.zero_lt_one, Nat.zero_lt_one⟩
    · simp
    · simp
    · simp [start]
  held := by simp [start]
  frames := by simp [start]
  conts := by simp [start]
  kept := by simp [start]
  kept_lt := by simp
  size := ⟨Nat.le_refl _, show 0 < 2 ^ 31 by decide⟩

end Extempore.DumpStacks
