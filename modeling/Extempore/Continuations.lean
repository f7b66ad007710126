import Extempore.DumpStacks

/-!
# Continuations

A continuation is faithful if calling it puts back the frames that were on the dump stack, whatever
was evaluated since. The lists of arguments and of code are copied twice, because the evaluator
reverses lists of arguments in place, and what is not a symbol is copied as a list.
-/

namespace Extempore.Continuations
open CellLists DumpStacks GuardedRuns

variable {cells cells' : ℕ → Cell} {m m' : Memory} {S : ℕ → Prop} {k : Option ℕ} {s s' : State}

/-- The same object, or lists of pairs with the same elements up to there. -/
inductive Same (cells cells' : ℕ → Cell) : ℕ → ℕ → Prop where
  | refl (x : ℕ) : Same cells cells' x x
  | pair {x y a d d' : ℕ} : cells x = .pair a d → cells' y = .pair a d' → Same cells cells' d d' →
      Same cells cells' x y

/-- The frame `g` in the memory `m'` stands for the frame `f` in the memory `m`. -/
structure Reinstates (m : Memory) (f : Frame) (m' : Memory) (g : Frame) : Prop where
  op_eq : g.op = f.op
  envir_eq : g.envir = f.envir
  args : Same m.cells m'.cells f.args g.args
  code : Same m.cells m'.cells f.code g.code

/-- `call/cc` makes a continuation, and whenever it is called later on, it puts the frames back. -/
def Faithful (s : State) : Prop :=
  ∃ fuel s₁, step s (.capture fuel) = some s₁ ∧
    ∀ ops s₂, run step s₁ ops = some s₂ →
      ∃ n, ∀ fuel ≥ n, ∃ s₃, step s₂ (.invoke fuel s.conts.length) = some s₃ ∧
        s₃.frames.length = s.frames.length ∧
        List.Forall₂ (fun f g => Reinstates s.mem f s₃.mem g) s.frames s₃.frames

/-- The arguments are a proper list, and the code is one, too, or a symbol of the symbol table. -/
def CopyableFrame (m : Memory) (f : Frame) : Prop :=
  (∃ xs, ProperList m.cells f.args xs) ∧
    ((∃ nameCell name, m.cells f.code = .symbol nameCell name ∧ m.oblist name = some f.code) ∨
      ∃ ys, ProperList m.cells f.code ys)

def Copyable (s : State) : Prop := ∀ f ∈ s.frames, CopyableFrame s.mem f

theorem same_of_properList {x y : ℕ} {xs : List ℕ} (hx : ProperList cells x xs)
    (hy : ProperList cells' y xs) : Same cells cells' x y := by
  induction hx generalizing y with
  | nil =>
    cases hy
    exact .refl 0
  | cons hc hcell _ ih =>
    cases hy with
    | cons hc' hcell' htail => exact .pair hcell hcell' (ih htail)

/-- What is the same as a list of new pairs is a proper list. -/
theorem properList_of_same {x y : ℕ} {ps : List (ℕ × ℕ)} (hm : Closed m) (hnil : cells' 0 = .object 0 0)
    (hx : x < m.next) (hps : ∀ p ∈ ps, m.next ≤ p.1) (hy : Chain cells' ps y)
    (h : Same m.cells cells' x y) : ProperList m.cells x (ps.map Prod.snd) := by
  induction ps generalizing x y with
  | nil =>
    obtain rfl : y = 0 := hy
    cases h with
    | refl => exact .nil
    | pair _ hcell =>
      rw [hnil] at hcell
      cases hcell
  | cons p ps ih =>
    obtain ⟨c, e⟩ := p
    obtain ⟨rfl, -, d₀, hcell₀, hrest⟩ := hy
    have hge : m.next ≤ y := hps _ List.mem_cons_self
    cases h with
    | refl => omega
    | pair hcell hcell' htail =>
      rw [hcell₀] at hcell'
      cases hcell'
      have hx0 : x ≠ 0 := by
        rintro rfl
        rw [hm.nil_cell] at hcell
        cases hcell
      have hd := (hm.fields_lt x hx _ _ (by rw [hcell]; rfl)).2
      exact .cons hx0 hcell (ih hd (fun q hq => hps q (List.mem_cons_of_mem _ hq)) hrest htail)

theorem CopyableFrame.endsWithin {f : Frame} (h : CopyableFrame m f) : ∃ n, EndsWithin n m f := by
  obtain ⟨⟨xs, hxs⟩, hcode⟩ := h
  cases hcode with
  | inl hsymbol =>
    obtain ⟨nameCell, name, hcell, -⟩ := hsymbol
    exact ⟨xs.length + 1, ⟨xs, hxs.walk, Nat.lt_succ_self _⟩, Or.inl (by rw [hcell]; rfl)⟩
  | inr hlist =>
    obtain ⟨ys, hys⟩ := hlist
    exact ⟨xs.length + ys.length + 1, ⟨xs, hxs.walk, by omega⟩, Or.inr ⟨ys, hys.walk, by omega⟩⟩

theorem CopyableFrame.interned {f : Frame} (hm : Closed m) (h : CopyableFrame m f) {nameCell : ℕ}
    {name : Name} (hcell : m.cells f.code = .symbol nameCell name) :
    m.oblist name = some f.code := by
  cases h.2 with
  | inl hsymbol =>
    obtain ⟨nameCell', name', hcell', hname⟩ := hsymbol
    rw [hcell] at hcell'
    cases hcell'
    exact hname
  | inr hlist =>
    obtain ⟨ys, hys⟩ := hlist
    cases hys.cell with
    | inl hnil =>
      rw [hnil, hm.nil_cell] at hcell
      cases hcell
    | inr hpair =>
      obtain ⟨a, d, hpair⟩ := hpair
      rw [hcell] at hpair
      cases hpair

theorem exists_of_mem_right {α β : Type} {R : α → β → Prop} {as : List α} {bs : List β}
    (h : List.Forall₂ R as bs) {b : β} (hb : b ∈ bs) : ∃ a ∈ as, R a b := by
  induction h with
  | nil => cases hb
  | cons hab _ ih =>
    cases hb with
    | head => exact ⟨_, List.mem_cons_self, hab⟩
    | tail _ hb =>
      obtain ⟨a, ha, hR⟩ := ih hb
      exact ⟨a, List.mem_cons_of_mem _ ha, hR⟩

theorem forall₂_trans {α β γ : Type} {R : α → β → Prop} {Q : β → γ → Prop} {P : α → γ → Prop}
    {as : List α} {bs : List β} {cs : List γ} (h : List.Forall₂ R as bs)
    (h' : List.Forall₂ Q bs cs) (hP : ∀ a ∈ as, ∀ b ∈ bs, ∀ c, R a b → Q b c → P a c) :
    List.Forall₂ P as cs := by
  induction h generalizing cs with
  | nil =>
    cases h'
    exact .nil
  | cons hab _ ih =>
    cases h' with
    | cons hbc htail =>
      refine .cons (hP _ List.mem_cons_self _ List.mem_cons_self _ hab hbc) (ih htail ?_)
      intro a ha b hb
      exact hP a (List.mem_cons_of_mem _ ha) b (List.mem_cons_of_mem _ hb)

/-- The pairs of the copies are reachable from the continuation only. -/
theorem separated_capture {fuel : ℕ} {r : Memory × List Frame}
    (h : Separated (fun _ => False) none s) (hcopy : Copyable s)
    (hr : copyFrames fuel s.mem s.frames = some r) :
    Separated (fun c => s.mem.next ≤ c ∧ c < r.1.next) (some s.conts.length)
      { s with mem := r.1, conts := s.conts ++ [⟨s.frames.length % 2 ^ 32, r.2⟩] } := by
  have hreads : ∀ f ∈ s.frames, Reads (fun _ => False) s.mem f :=
    fun f hf => (h.frames f hf).reads h.mem
  obtain ⟨hm, hext, hcopied, -⟩ := copyFrames_spec h.mem hreads hr
  have hoblist := copyFrames_oblist h.mem hreads
    (fun f hf nameCell name hcell => (hcopy f hf).interned h.mem.toClosed hcell) hr
  have hold {c : ℕ} (hc : c < s.mem.next) :
      c < r.1.next ∧ ¬ (s.mem.next ≤ c ∧ c < r.1.next) :=
    ⟨Nat.lt_of_lt_of_le hc hext.next_le, fun hS => by omega⟩
  have hframe {f : Frame} (hf : f.Apart (fun _ => False) s.mem) :
      f.Apart (fun c => s.mem.next ≤ c ∧ c < r.1.next) r.1 :=
    ⟨hold hf.1.1, hold hf.2.1.1, hold hf.2.2.1⟩
  refine ⟨⟨hm.toClosed, ?_, fun c hc => hc.2, fun hS => ?_, ?_⟩, fun c hc => hold (h.held c hc).1,
    fun f hf => hframe (h.frames f hf), ?_, ?_, ?_, h.size⟩
  · intro c hc hS a d hfields
    have hlt : c < s.mem.next := by
      by_contra hge
      exact hS ⟨by omega, hc⟩
    rw [hext.cells_eq c hlt] at hfields
    have hin := h.mem.fields_lt c hlt a d hfields
    exact ⟨(hold hin.1).2, (hold hin.2).2⟩
  · have := h.mem.next_pos
    omega
  · intro name x hx
    have hx' : s.mem.oblist name = some x := by rw [← hoblist, hx]
    obtain ⟨-, -, hsymbol⟩ := hm.oblist_symbol name x hx
    have hlt := (h.mem.oblist_symbol name x hx').1
    exact ⟨(hold hlt).1, (hold hlt).2, hsymbol⟩
  · intro i d hd hi f hf
    have hd' : s.conts[i]? = some d := by
      rw [List.getElem?_append] at hd
      split at hd
      · exact hd
      · rename_i hge
        have hi' : i - s.conts.length = 0 := by
          by_contra hne
          rw [List.getElem?_eq_none (by simp; omega)] at hd
          cases hd
        exact absurd (congrArg some (by omega : i = s.conts.length)) hi
    exact hframe (h.conts i d hd' (by simp) f hf)
  · intro i d hd hi g hg
    obtain rfl : i = s.conts.length := Option.some.inj hi
    rw [List.getElem?_concat_length] at hd
    cases hd
    obtain ⟨f, hf, hfg⟩ := exists_of_mem_right hcopied hg
    have hfapart := h.frames f hf
    have hlist {x y : ℕ} {xs : List ℕ} (hx : x < s.mem.next) (hxs : Walk s.mem.cells x xs)
        (hin : ListIn s.mem r.1 xs y) :
        KeptList (fun c => s.mem.next ≤ c ∧ c < r.1.next) r.1 y := by
      obtain ⟨ps, rfl, hrange, hchain⟩ := hin
      refine ⟨ps, fun p hp => ⟨hrange p hp, ?_⟩, hchain⟩
      have hlt := hxs.lt h.mem.toClosed hx p.2 (List.mem_map_of_mem hp)
      exact ⟨(hold hlt).2, (hold hlt).1⟩
    obtain ⟨xs, hxs, hin⟩ := hfg.args
    refine ⟨?_, hlist hfapart.1.1 hxs hin, ?_⟩
    · rw [hfg.envir_eq]
      exact hold hfapart.2.1.1
    · cases hfg.code with
      | inl hsymbol =>
        obtain ⟨nameCell, name, hcell, hx⟩ := hsymbol
        rw [hoblist, (hcopy f hf).interned h.mem.toClosed hcell] at hx
        rw [← Option.some.inj hx]
        have hlt := hfapart.2.2.1
        refine Or.inl ⟨(hold hlt).1, (hold hlt).2, ?_⟩
        show (r.1.cells f.code).isSymbol = true
        rw [hext.cells_eq _ hlt, hcell]
        rfl
      | inr hcode =>
        obtain ⟨-, ys, hys, hin'⟩ := hcode
        exact Or.inr (hlist hfapart.2.2.1 hys hin')
  · intro i hi
    obtain rfl : i = s.conts.length := Option.some.inj hi
    simp

/-- A continuation whose lists are kept puts back what was captured. -/
theorem reinstates_of_copied {m₁ m₂ m₃ : Memory} {f g g' : Frame} (hm : Closed m) (hm₂ : Closed m₂)
    (hcopy : CopyableFrame m f) (hfg : Copied m f m₁ g)
    (hcells : ∀ c, m.next ≤ c → c < m₁.next → m₂.cells c = m₁.cells c)
    (hsymbol : (m.cells f.code).isSymbol = true → m₂.cells f.code = m.cells f.code)
    (hoblist : m₁.oblist = m.oblist)
    (hoblist_of : ∀ name x, m.oblist name = some x → m₃.oblist name = some x)
    (hgg : Copied m₂ g m₃ g') : Reinstates m f m₃ g' := by
  have hlist {x y z : ℕ} {xs zs : List ℕ} (hx : ∃ xs, ProperList m.cells x xs)
      (hxs : Walk m.cells x xs) (hy : ListIn m m₁ xs y) (hzs : Walk m₂.cells y zs)
      (hz : ListIn m₂ m₃ zs z) : Same m.cells m₃.cells x z := by
    obtain ⟨xs', hx⟩ := hx
    obtain rfl := hxs.unique hx.walk
    obtain ⟨ps, rfl, hrange, hchain⟩ := hy
    have hchain₂ := hchain.congr fun p hp => hcells p.1 (hrange p hp).1 (hrange p hp).2
    obtain rfl := hzs.unique hchain₂.properList.walk
    obtain ⟨qs, hqs, -, hchain₃⟩ := hz
    exact same_of_properList hx (hqs ▸ hchain₃.properList)
  refine ⟨hgg.op_eq.trans hfg.op_eq, hgg.envir_eq.trans hfg.envir_eq, ?_, ?_⟩
  · obtain ⟨xs, hxs, hin⟩ := hfg.args
    obtain ⟨zs, hzs, hin'⟩ := hgg.args
    exact hlist hcopy.1 hxs hin hzs hin'
  · cases hfg.code with
    | inl hcode =>
      obtain ⟨nameCell, name, hcell, hname⟩ := hcode
      have hinterned := hcopy.interned hm hcell
      rw [hoblist, hinterned] at hname
      have heq : f.code = g.code := Option.some.inj hname
      have hcell₂ : m₂.cells g.code = .symbol nameCell name := by
        rw [← heq, hsymbol (by rw [hcell]; rfl), hcell]
      cases hgg.code with
      | inl hcode' =>
        obtain ⟨nameCell', name', hcell', hname'⟩ := hcode'
        rw [hcell₂] at hcell'
        cases hcell'
        rw [hoblist_of _ _ hinterned] at hname'
        rw [← Option.some.inj hname']
        exact .refl _
      | inr hcode' =>
        rw [hcell₂] at hcode'
        exact absurd hcode'.1 (by simp [Cell.isSymbol])
    | inr hcode =>
      obtain ⟨hnot, ys, hys, hin⟩ := hcode
      have hproper : ∃ ys, ProperList m.cells f.code ys := by
        cases hcopy.2 with
        | inl hsym =>
          obtain ⟨nameCell, name, hcell, -⟩ := hsym
          rw [hcell] at hnot
          exact absurd hnot (by simp [Cell.isSymbol])
        | inr hlist => exact hlist
      cases hgg.code with
      | inl hcode' =>
        obtain ⟨nameCell', name', hcell', -⟩ := hcode'
        obtain ⟨ps, -, hrange, hchain⟩ := hin
        have hchain₂ := hchain.congr fun p hp => hcells p.1 (hrange p hp).1 (hrange p hp).2
        have hfalse := isSymbol_of_chain hm₂.nil_cell hchain₂
        rw [hcell', Cell.isSymbol] at hfalse
        cases hfalse
      | inr hcode' =>
        obtain ⟨-, zs, hzs, hin'⟩ := hcode'
        exact hlist hproper hys hin hzs hin'

theorem faithful_of_copyable (h : Separated (fun _ => False) none s) (hcopy : Copyable s) :
    Faithful s := by
  have hreads : ∀ f ∈ s.frames, Reads (fun _ => False) s.mem f :=
    fun f hf => (h.frames f hf).reads h.mem
  obtain ⟨n, hn⟩ := exists_endsWithin fun f hf => (hcopy f hf).endsWithin
  obtain ⟨r, hr⟩ := copyFrames_some h.mem hreads hn
  obtain ⟨-, hext, hcopied, -⟩ := copyFrames_spec h.mem hreads hr
  have hoblist := copyFrames_oblist h.mem hreads
    (fun f hf nameCell name hcell => (hcopy f hf).interned h.mem.toClosed hcell) hr
  have hsep := separated_capture h hcopy hr
  refine ⟨n, _, by rw [step, dumpStackCopy, hr]; rfl, ?_⟩
  intro ops s₂ hrun
  obtain ⟨hsep₂, hp⟩ := hsep.run hrun
  have hd := hp.conts s.conts.length ⟨s.frames.length % 2 ^ 32, r.2⟩ List.getElem?_concat_length
  have hlen := hcopied.length_eq
  have hcount : s.frames.length % 2 ^ 32 = s.frames.length := by
    have hsize := h.size
    exact Nat.mod_eq_of_lt (by omega)
  have htake : r.2.take (s.frames.length % 2 ^ 32) = r.2 := by
    rw [hcount, hlen, List.take_length]
  have hfits : s.frames.length % 2 ^ 32 ≤ s₂.dumpSize := by
    rw [hcount]
    exact Nat.le_trans h.size.1 hp.dumpSize_le
  have hreads₂ := hsep₂.reads hd
  -- the kept lists end, so that they can be copied again
  have hends : ∀ g ∈ r.2, ∃ n, EndsWithin n s₂.mem g := by
    intro g hg
    have hkept := hsep₂.kept _ _ hd rfl g hg
    obtain ⟨ps, -, hps⟩ := hkept.args
    cases hkept.code with
    | inl hsymbol =>
      exact ⟨_, ⟨_, hps.properList.walk, Nat.lt_succ_self _⟩, Or.inl hsymbol.2.2⟩
    | inr hcode =>
      obtain ⟨qs, -, hqs⟩ := hcode
      refine ⟨ps.length + qs.length + 1, ⟨_, hps.properList.walk, ?_⟩,
        Or.inr ⟨_, hqs.properList.walk, ?_⟩⟩
      · rw [List.length_map]
        omega
      · rw [List.length_map]
        omega
  obtain ⟨n₂, hn₂⟩ := exists_endsWithin hends
  refine ⟨n₂, ?_⟩
  intro fuel hfuel
  obtain ⟨r₂, hr₂⟩ := copyFrames_some hsep₂.mem hreads₂ fun g hg => (hn₂ g hg).mono hfuel
  obtain ⟨-, hext₂, hcopied₂, -⟩ := copyFrames_spec hsep₂.mem hreads₂ hr₂
  refine ⟨{ s₂ with mem := r₂.1, frames := r₂.2 }, ?_, ?_, ?_⟩
  · rw [step, hd, Option.bind_some, dumpStackContinuationSet, if_pos hfits, htake, hr₂]
    rfl
  · exact (hlen.trans hcopied₂.length_eq).symm
  · refine forall₂_trans hcopied hcopied₂ ?_
    intro f hf g _ g' hfg hgg
    have hcells : ∀ c, s.mem.next ≤ c → c < r.1.next → s₂.mem.cells c = r.1.cells c :=
      fun c hc hc' => hp.cells_eq c ⟨hc, hc'⟩
    have hlt := (h.frames f hf).2.2.1
    have hsymbol : (s.mem.cells f.code).isSymbol = true →
        s₂.mem.cells f.code = s.mem.cells f.code := by
      intro hsym
      have heq := hext.cells_eq _ hlt
      rw [← heq] at hsym ⊢
      exact hp.symbol_eq _ (Nat.lt_of_lt_of_le hlt hext.next_le) hsym
    have hoblist_of : ∀ name x, s.mem.oblist name = some x → r₂.1.oblist name = some x :=
      fun name x hx => hext₂.oblist_of name x (hp.oblist_of name x (hoblist ▸ hx))
    exact reinstates_of_copied h.mem.toClosed hsep₂.mem.toClosed (hcopy f hf) hfg hcells hsymbol
      hoblist hoblist_of hgg

theorem eq_of_same_symbol {x y nameCell : ℕ} {name : Name} (h : Same cells cells' x y)
    (hcell : cells x = .symbol nameCell name) : x = y := by
  cases h with
  | refl => rfl
  | pair hpair =>
    rw [hcell] at hpair
    cases hpair

/-- A frame that comes back is one that can be copied. -/
theorem copyable_of_reinstates {m₁ m₂ : Memory} {f g g' : Frame} (hm : Closed m) (hm₁ : Apart S m₁)
    (hnil : m₂.cells 0 = .object 0 0) (hargs : f.args < m.next) (hcode : f.code < m.next)
    (hext : Extends m m₁) (hext₁ : Extends m₁ m₂) (hfg : Copied m f m₁ g) (hgg : Copied m₁ g m₂ g')
    (h : Reinstates m f m₂ g') : CopyableFrame m f := by
  have hlist {x y : ℕ} {ys : List ℕ} (hx : x < m.next) (hsame : Same m.cells m₂.cells x y)
      (hy : ListIn m₁ m₂ ys y) : ∃ xs, ProperList m.cells x xs := by
    obtain ⟨ps, -, hrange, hchain⟩ := hy
    exact ⟨_, properList_of_same hm hnil hx
      (fun p hp => Nat.le_trans hext.next_le (hrange p hp).1) hchain hsame⟩
  constructor
  · obtain ⟨xs, -, hin⟩ := hgg.args
    exact hlist hargs h.args hin
  · cases hfg.code with
    | inl hsymbol =>
      obtain ⟨nameCell, name, hcell, hname⟩ := hsymbol
      obtain ⟨-, -, nameCell₁, hcell₁⟩ := hm₁.oblist_symbol name g.code hname
      have heq : g'.code = g.code := by
        cases hgg.code with
        | inl hcode' =>
          obtain ⟨nameCell', name', hcell', hname'⟩ := hcode'
          rw [hcell₁] at hcell'
          cases hcell'
          rw [hext₁.oblist_of _ _ hname] at hname'
          exact (Option.some.inj hname').symm
        | inr hcode' =>
          rw [hcell₁] at hcode'
          exact absurd hcode'.1 (by simp [Cell.isSymbol])
      have hsame : f.code = g.code := eq_of_same_symbol (heq ▸ h.code) hcell
      refine Or.inl ⟨nameCell, name, hcell, ?_⟩
      rw [← hsame] at hname
      cases hext.oblist_new name f.code hname with
      | inl hold => exact hold
      | inr hge => omega
    | inr hother =>
      obtain ⟨-, ys, -, ps, -, -, hchain⟩ := hother
      cases hgg.code with
      | inl hcode' =>
        obtain ⟨nameCell', name', hcell', -⟩ := hcode'
        have hfalse := isSymbol_of_chain hm₁.nil_cell hchain
        rw [hcell', Cell.isSymbol] at hfalse
        cases hfalse
      | inr hcode' =>
        obtain ⟨-, zs, -, hin⟩ := hcode'
        exact Or.inr (hlist hcode h.code hin)

theorem forall_of_forall₂ {α β γ : Type} {R : α → β → Prop} {Q : β → γ → Prop} {P : α → γ → Prop}
    {as : List α} {bs : List β} {cs : List γ} (h : List.Forall₂ R as bs)
    (h' : List.Forall₂ Q bs cs) (hP : List.Forall₂ P as cs) :
    ∀ a ∈ as, ∃ b ∈ bs, ∃ c ∈ cs, R a b ∧ Q b c ∧ P a c := by
  induction h generalizing cs with
  | nil => simp
  | cons hab _ ih =>
    cases h' with
    | cons hbc htail =>
      cases hP with
      | cons hac htail' =>
        intro a ha
        cases ha with
        | head =>
          exact ⟨_, List.mem_cons_self, _, List.mem_cons_self, hab, hbc, hac⟩
        | tail _ ha =>
          obtain ⟨b, hb, c, hc, hall⟩ := ih htail htail' a ha
          exact ⟨b, List.mem_cons_of_mem _ hb, c, List.mem_cons_of_mem _ hc, hall⟩

theorem copyable_of_faithful (h : Separated (fun _ => False) none s) (hfaith : Faithful s) :
    Copyable s := by
  obtain ⟨fuel, s₁, hcapture, hall⟩ := hfaith
  obtain ⟨n, hn⟩ := hall [] s₁ rfl
  obtain ⟨s₃, hinvoke, -, hframes⟩ := hn n (Nat.le_refl n)
  have hsep₁ := (h.capture hcapture).1
  obtain ⟨r, hr, rfl⟩ := Option.map_eq_some_iff.mp hcapture
  obtain ⟨hm₁, hext, hcopied, -⟩ := copyFrames_spec h.mem (fun f hf => (h.frames f hf).reads h.mem) hr
  have hd : (s.conts ++ [⟨s.frames.length % 2 ^ 32, r.2⟩])[s.conts.length]? = some _ :=
    List.getElem?_concat_length
  have hreads := hsep₁.reads hd
  simp only [step, hd, Option.bind_some, dumpStackContinuationSet] at hinvoke
  split at hinvoke
  · obtain ⟨r₂, hr₂, rfl⟩ := Option.map_eq_some_iff.mp hinvoke
    obtain ⟨hm₂, hext₂, hcopied₂, -⟩ := copyFrames_spec hm₁
      (fun g hg => hreads g (List.mem_of_mem_take hg)) hr₂
    have hsize := h.size
    have htake : r.2.take (s.frames.length % 2 ^ 32) = r.2 := by
      rw [Nat.mod_eq_of_lt (by omega), hcopied.length_eq, List.take_length]
    rw [htake] at hcopied₂
    intro f hf
    obtain ⟨g, -, g', -, hfg, hgg, hback⟩ := forall_of_forall₂ hcopied hcopied₂ hframes f hf
    have hfapart := h.frames f hf
    exact copyable_of_reinstates h.mem.toClosed hm₁ hm₂.nil_cell hfapart.1.1 hfapart.2.2.1 hext hext₂
      hfg hgg hback
  · cases hinvoke

/-- After any evaluation, the continuation that `call/cc` makes is faithful just when all frames on
the dump stack can be copied. -/
theorem faithful_iff {ops : List Op} (hr : run step start ops = some s) :
    Faithful s ↔ Copyable s := by
  have h := (separated_start.run hr).1
  exact ⟨copyable_of_faithful h, faithful_of_copyable h⟩

/-- A promise is forced: its frame has the promise as code. -/
def forcing : List Op := [.alloc (.pair 0 0), .alloc (.object 1 0), .save ⟨0, 0, 0, 2⟩]

theorem not_always_faithful : ¬ ∀ ops s, run step start ops = some s → Faithful s := by
  intro h
  have hr : (run step start forcing).isSome := by decide
  obtain ⟨s, hr⟩ := Option.isSome_iff_exists.mp hr
  have hcopy := copyable_of_faithful (separated_start.run hr).1 (h _ _ hr)
  cases hr
  cases (hcopy ⟨0, 0, 0, 2⟩ (by decide)).2 with
  | inl hsymbol =>
    obtain ⟨_, _, hcell, -⟩ := hsymbol
    cases hcell
  | inr hlist =>
    obtain ⟨ys, hys⟩ := hlist
    cases hys with
    | cons _ hcell _ => cases hcell

/-- The symbol `x` is defined, with `(x)` as argument. -/
def defining : List Op := [.mkSymbol [120], .alloc (.pair 2 0), .save ⟨1, 3, 0, 2⟩]

theorem faithful_iff_defining : ∃ s, run step start defining = some s ∧ Faithful s := by
  refine ⟨_, rfl, ?_⟩
  apply (faithful_iff (show run step start defining = some _ from rfl)).mpr
  intro f hf
  obtain rfl := List.mem_singleton.mp hf
  refine ⟨⟨[2], ?_⟩, Or.inl ⟨1, [120], rfl, rfl⟩⟩
  exact .cons (by decide) rfl .nil

end Extempore.Continuations

