import Mathlib.Data.Nat.Notation
import Mathlib.Logic.Function.Basic
import Mathlib.Logic.Relation

/-!
# Tricolour marking

A collector and a program share a graph of cells. A cell is white when it is not in use, ecru
when it is in use and not yet found, grey when it has been found, and black when all its slots
have been looked at. The program keeps the targets of its stores in debt: a cell in debt is going
to be found whatever else happens. A turn makes the ecru cells white and the black cells ecru.
-/

namespace Extempore.TricolourMarking
open Relation

universe u

inductive Shade where
  | white
  | ecru
  | grey
  | black
  deriving DecidableEq

/-- `q` is reached from the roots through slots. -/
def Live {α : Type u} (slots : α → List α) (roots : List α) (q : α) : Prop :=
  ∃ r ∈ roots, ReflTransGen (fun p q => q ∈ slots p) r q

/-- The cells as the collector sees them. `traced p i` says that slot `i` of `p` has been looked
at, `roots` is what the program can still use. -/
structure Marking (α : Type u) where
  shade : α → Shade
  slots : α → List α
  traced : α → ℕ → Prop
  debt : List α
  roots : List α

namespace Marking

variable {α : Type u} {m m' : Marking α} {p q r x v w : α} {i : ℕ}

def Live (m : Marking α) (q : α) : Prop := TricolourMarking.Live m.slots m.roots q

theorem live_root (hr : r ∈ m.roots) : m.Live r := ⟨r, hr, .refl⟩

theorem Live.slot (hp : m.Live p) (hq : q ∈ m.slots p) : m.Live q := by
  obtain ⟨r, hr, hrp⟩ := hp
  exact ⟨r, hr, hrp.tail hq⟩

/-- What holds of the roots and passes to the slots of a live cell holds of every live cell. -/
theorem Live.induct (P : α → Prop) (hroot : ∀ r ∈ m.roots, P r)
    (hslot : ∀ p q, m.Live p → P p → q ∈ m.slots p → P q) (hq : m.Live q) : P q := by
  obtain ⟨r, hr, hrq⟩ := hq
  induction hrq with
  | refl => exact hroot r hr
  | tail hrp hpq ih => exact hslot _ _ ⟨r, hr, hrp⟩ ih hpq

/-! ## What the collector and the program can do -/

variable [DecidableEq α]

/-- One move of the collector or of the program within a cycle. `lost` is what is known of a
pointer that a store overwrites. -/
inductive Move (lost : Marking α → α → Prop) (m : Marking α) : Marking α → Prop where
  /-- A white cell is taken into use; its slots are filled with found cells. -/
  | allocate (x : α) (ss : List α) (hx : m.shade x = .white)
      (hss : ∀ q ∈ ss, m.shade q ≠ .white ∧ m.shade q ≠ .ecru) (hlive : ∀ q ∈ ss, m.Live q) :
      Move lost m
        { m with
          shade := Function.update m.shade x .black
          slots := Function.update m.slots x ss
          traced := fun p i => p = x ∨ m.traced p i
          roots := x :: m.roots }
  /-- A cell in debt is found. -/
  | darken (p : α) (hp : m.shade p = .ecru) (hdebt : p ∈ m.debt) :
      Move lost m { m with shade := Function.update m.shade p .grey }
  /-- The program forgets what it could use or reads a slot, it is going to shade cells that it can
  use, and debts on found cells are dropped. -/
  | settle (traced : α → ℕ → Prop) (debt roots : List α)
      (htraced : ∀ q i, traced q i → m.traced q i) (hblack : ∀ q i, m.shade q = .black → traced q i)
      (hsub : ∀ e ∈ debt, e ∈ m.debt ∨ m.Live e)
      (hdebt : ∀ e ∈ m.debt, m.shade e = .ecru → e ∈ debt) (hroots : ∀ r ∈ roots, m.Live r) :
      Move lost m { m with traced, debt, roots }
  | store (x : α) (i : ℕ) (v w : α) (hx : m.Live x) (hv : m.Live v)
      (hdebt : m.shade v = .ecru → v ∈ m.debt) (hw : (m.slots x)[i]? = some w) (hlost : lost m w) :
      Move lost m { m with slots := Function.update m.slots x ((m.slots x).set i v) }
  /-- The collector looks at slot `i` of a grey cell. -/
  | look (p : α) (i : ℕ) (e : α) (hp : m.shade p = .grey) (he : (m.slots p)[i]? = some e) :
      Move lost m
        { m with traced := fun q j => (q = p ∧ j = i) ∨ m.traced q j, debt := e :: m.debt }
  | blacken (p : α) (hp : m.shade p = .grey) (hall : ∀ i < (m.slots p).length, m.traced p i) :
      Move lost m
        { m with
          shade := Function.update m.shade p .black
          traced := fun q i => q = p ∨ m.traced q i }

/-- The turn that ends a cycle. -/
def turned (m : Marking α) : Marking α :=
  { m with
    shade := fun p => match m.shade p with
      | .black => .ecru
      | _ => .white
    traced := fun _ _ => False }

theorem Move.mono {lost lost' : Marking α → α → Prop} (h : Move lost m m')
    (hlost : ∀ w, lost m w → lost' m w) : Move lost' m m' := by
  cases h with
  | allocate x ss hx hss hlive => exact .allocate x ss hx hss hlive
  | darken p hp hdebt => exact .darken p hp hdebt
  | settle traced debt roots htraced hblack hsub hdebt hroots =>
    exact .settle traced debt roots htraced hblack hsub hdebt hroots
  | store x i v w hx hv hdebt hw h => exact .store x i v w hx hv hdebt hw (hlost w h)
  | look p i e hp he => exact .look p i e hp he
  | blacken p hp hall => exact .blacken p hp hall

theorem Move.settles {lost : Marking α → α → Prop} (hshade : m'.shade = m.shade)
    (hslots : m'.slots = m.slots) (htraced : ∀ q i, m'.traced q i → m.traced q i)
    (hblack : ∀ q i, m.shade q = .black → m'.traced q i)
    (hsub : ∀ e ∈ m'.debt, e ∈ m.debt ∨ m.Live e)
    (hdebt : ∀ e ∈ m.debt, m.shade e = .ecru → e ∈ m'.debt) (hroots : ∀ r ∈ m'.roots, m.Live r) :
    Move lost m m' := by
  obtain ⟨shade, slots, traced, debt, roots⟩ := m'
  obtain rfl : shade = m.shade := hshade
  obtain rfl : slots = m.slots := hslots
  exact .settle traced debt roots htraced hblack hsub hdebt hroots

/-- All cells in debt can be found one after the other. -/
theorem moves_darken {lost : Marking α → α → Prop} {shade : α → Shade} {ps : List α}
    (hps : ∀ p ∈ ps, p ∈ m.debt)
    (hshade : ∀ q, shade q = if q ∈ ps ∧ m.shade q = .ecru then .grey else m.shade q) :
    ReflTransGen (Move lost) m { m with shade } := by
  induction ps generalizing m with
  | nil =>
    obtain rfl : shade = m.shade := funext fun q => by simp [hshade]
    exact .refl
  | cons p ps ih =>
    have hrest := fun q hq => hps q (List.mem_cons_of_mem p hq)
    by_cases hp : m.shade p = .ecru
    · refine .head (.darken p hp (hps p List.mem_cons_self)) (ih hrest fun q => ?_)
      rw [hshade]
      by_cases hqp : q = p
      · simp [hqp, hp]
      · simp [hqp]
    · refine ih hrest fun q => ?_
      rw [hshade]
      by_cases hqp : q = p
      · simp [hqp, hp]
      · simp [hqp]

/-! ## The tricolour invariant -/

/-- No cell in use points to a white cell, and what has been looked at has been found. -/
structure Sound (m : Marking α) : Prop where
  closed : ∀ p q, m.shade p ≠ .white → q ∈ m.slots p → m.shade q ≠ .white
  black : ∀ p i, m.shade p = .black → m.traced p i
  found : ∀ p i q, m.traced p i → (m.slots p)[i]? = some q → m.shade q = .ecru → q ∈ m.debt
  roots : ∀ r ∈ m.roots, m.shade r ≠ .white
  debt : ∀ e ∈ m.debt, m.shade e ≠ .white

omit [DecidableEq α] in
theorem Sound.live (h : Sound m) (hq : m.Live q) : m.shade q ≠ .white :=
  hq.induct (m.shade · ≠ .white) h.roots fun p q _ hp hpq => h.closed p q hp hpq

theorem Sound.move {lost : Marking α → α → Prop} (h : Sound m) (hm : Move lost m m') :
    Sound m' := by
  cases hm with
  | allocate x ss hx hss hlive =>
    have hne {q : α} (hq : m.shade q ≠ .white) : q ≠ x := by
      rintro rfl
      exact hq hx
    have hkeep {q : α} (hq : m.shade q ≠ .white) :
        Function.update m.shade x .black q ≠ .white := by
      simp only [Function.update_of_ne (hne hq)]
      exact hq
    refine ⟨?_, fun p i hp => ?_, ?_, ?_, fun e he => hkeep (h.debt e he)⟩
    · intro p q hp hq
      by_cases hpx : p = x
      · subst hpx
        simp only [Function.update_self] at hq
        exact hkeep (hss q hq).1
      · simp only [Function.update_of_ne hpx] at hp hq
        exact hkeep (h.closed p q hp hq)
    · by_cases hpx : p = x
      · exact .inl hpx
      · simp only [Function.update_of_ne hpx] at hp
        exact .inr (h.black p i hp)
    · intro p i q ht hq he
      have hqx : q ≠ x := by
        rintro rfl
        simp at he
      simp only [Function.update_of_ne hqx] at he
      by_cases hpx : p = x
      · subst hpx
        simp only [Function.update_self] at hq
        exact absurd he (hss q (List.mem_of_getElem? hq)).2
      · simp only [Function.update_of_ne hpx] at hq
        exact h.found p i q (ht.resolve_left hpx) hq he
    · intro r hr
      rcases List.mem_cons.mp hr with rfl|hr
      · simp
      · exact hkeep (h.roots r hr)
  | darken p hp hdebt =>
    have hkeep {q : α} (hq : m.shade q ≠ .white) :
        Function.update m.shade p .grey q ≠ .white := by
      by_cases hqp : q = p
      · simp [hqp]
      · rwa [Function.update_of_ne hqp]
    refine ⟨?_, ?_, ?_, fun r hr => hkeep (h.roots r hr), fun e he => hkeep (h.debt e he)⟩
    · intro q s hq hs
      refine hkeep (h.closed q s ?_ hs)
      by_cases hqp : q = p
      · simp [hqp, hp]
      · simpa only [Function.update_of_ne hqp] using hq
    · intro q i hq
      have hqp : q ≠ p := by
        rintro rfl
        simp at hq
      simp only [Function.update_of_ne hqp] at hq
      exact h.black q i hq
    · intro q i s ht hs he
      have hsp : s ≠ p := by
        rintro rfl
        simp at he
      simp only [Function.update_of_ne hsp] at he
      exact h.found q i s ht hs he
  | settle traced debt roots htraced hblack hsub hdebt hroots =>
    refine ⟨h.closed, hblack, ?_, fun r hr => h.live (hroots r hr), ?_⟩
    · intro p i q ht hq he
      exact hdebt q (h.found p i q (htraced p i ht) hq he) he
    · intro e he
      rcases hsub e he with hd|hl
      · exact h.debt e hd
      · exact h.live hl
  | store x i v w hx hv hdebt hw hlost =>
    refine ⟨?_, h.black, ?_, h.roots, h.debt⟩
    · intro p q hp hq
      by_cases hpx : p = x
      · subst hpx
        simp only [Function.update_self] at hq
        rcases List.mem_or_eq_of_mem_set hq with hq|rfl
        · exact h.closed p q hp hq
        · exact h.live hv
      · simp only [Function.update_of_ne hpx] at hq
        exact h.closed p q hp hq
    · intro p j q ht hq he
      by_cases hpx : p = x
      · subst hpx
        simp only [Function.update_self, List.getElem?_set] at hq
        by_cases hij : i = j
        · rw [if_pos hij] at hq
          split at hq
          · obtain rfl := Option.some.inj hq
            exact hdebt he
          · cases hq
        · rw [if_neg hij] at hq
          exact h.found p j q ht hq he
      · simp only [Function.update_of_ne hpx] at hq
        exact h.found p j q ht hq he
  | look p i e hp he =>
    have hpw : m.shade p ≠ .white := by simp [hp]
    refine ⟨h.closed, fun q j hq => .inr (h.black q j hq), ?_, h.roots, ?_⟩
    · rintro q j s (⟨rfl, rfl⟩|ht) hs hec
      · rw [he] at hs
        obtain rfl := Option.some.inj hs
        exact List.mem_cons_self
      · exact List.mem_cons_of_mem e (h.found q j s ht hs hec)
    · intro e' he'
      rcases List.mem_cons.mp he' with rfl|he'
      · exact h.closed p e' hpw (List.mem_of_getElem? he)
      · exact h.debt e' he'
  | blacken p hp hall =>
    have hkeep {q : α} : Function.update m.shade p .black q ≠ .white ↔ m.shade q ≠ .white := by
      by_cases hqp : q = p
      · simp [hqp, hp]
      · simp only [Function.update_of_ne hqp]
    have hecru {q : α} (hq : Function.update m.shade p .black q = .ecru) : m.shade q = .ecru := by
      by_cases hqp : q = p
      · simp [hqp] at hq
      · simpa only [Function.update_of_ne hqp] using hq
    refine ⟨fun q s hq hs => hkeep.mpr (h.closed q s (hkeep.mp hq) hs), ?_, ?_,
      fun r hr => hkeep.mpr (h.roots r hr), fun e he => hkeep.mpr (h.debt e he)⟩
    · intro q i hq
      by_cases hqp : q = p
      · exact .inl hqp
      · simp only [Function.update_of_ne hqp] at hq
        exact .inr (h.black q i hq)
    · rintro q i s (rfl|ht) hs he
      · have hi := (List.getElem?_eq_some_iff.mp hs).1
        exact h.found q i s (hall i hi) hs (hecru he)
      · exact h.found q i s ht hs (hecru he)

theorem Sound.moves {lost : Marking α → α → Prop} (h : Sound m)
    (hm : ReflTransGen (Move lost) m m') : Sound m' := by
  induction hm with
  | refl => exact h
  | tail _ hmove ih => exact ih.move hmove

omit [DecidableEq α] in
/-- A turn between two cycles keeps the invariant just when every root has been found. -/
theorem Sound.turned_iff (h : Sound m) (hgrey : ∀ p, m.shade p ≠ .grey) (hdebt : m.debt = []) :
    Sound m.turned ↔ ∀ r ∈ m.roots, m.shade r ≠ .ecru := by
  have hblack {p : α} : m.turned.shade p ≠ .white ↔ m.shade p = .black := by
    simp only [turned]
    cases m.shade p <;> simp
  constructor
  · intro ht r hr he
    have hb := hblack.mp (ht.roots r hr)
    rw [he] at hb
    cases hb
  · intro hroots
    refine ⟨?_, ?_, fun p i q ht => ht.elim, ?_, ?_⟩
    · intro p q hp hq
      have hpb := hblack.mp hp
      refine hblack.mpr ?_
      obtain ⟨i, hi⟩ := List.mem_iff_getElem?.mp hq
      have hw := h.closed p q (by simp [hpb]) hq
      have he : m.shade q ≠ .ecru := by
        intro he
        have hd := h.found p i q (h.black p i hpb) hi he
        simp [hdebt] at hd
      have hg := hgrey q
      cases hs : m.shade q <;> simp_all
    · intro p i hp
      simp only [turned] at hp
      split at hp <;> cases hp
    · intro r hr
      have hw := h.roots r hr
      have he := hroots r hr
      have hg := hgrey r
      refine hblack.mpr ?_
      cases hs : m.shade r <;> simp_all
    · intro e he
      have he' : e ∈ m.debt := he
      simp [hdebt] at he'

/-! ## Cells that will be found -/

/-- An ecru cell on a way of ecru cells that starts in debt or in a slot of a grey cell. -/
def Guarded (m : Marking α) (q : α) : Prop :=
  ∃ e, (e ∈ m.debt ∨ ∃ g, m.shade g = .grey ∧ e ∈ m.slots g) ∧ m.shade e = .ecru ∧
    ReflTransGen (fun p q => q ∈ m.slots p ∧ m.shade q = .ecru) e q

omit [DecidableEq α] in
theorem guarded_of_debt (hq : q ∈ m.debt) (he : m.shade q = .ecru) : Guarded m q :=
  ⟨q, .inl hq, he, .refl⟩

omit [DecidableEq α] in
theorem guarded_of_grey (hp : m.shade p = .grey) (hq : q ∈ m.slots p) (he : m.shade q = .ecru) :
    Guarded m q :=
  ⟨q, .inr ⟨p, hp, hq⟩, he, .refl⟩

omit [DecidableEq α] in
theorem Guarded.slot (h : Guarded m p) (hq : q ∈ m.slots p) (he : m.shade q = .ecru) :
    Guarded m q := by
  obtain ⟨e, hstart, hee, hep⟩ := h
  exact ⟨e, hstart, hee, hep.tail ⟨hq, he⟩⟩

omit [DecidableEq α] in
/-- A guarded cell that stays ecru stays guarded if each step of its way does. -/
theorem Guarded.change (h : Guarded m q)
    (hdebt : ∀ e ∈ m.debt, m.shade e = .ecru → m'.shade e = .ecru → Guarded m' e)
    (hgrey : ∀ g e, m.shade g = .grey → e ∈ m.slots g → m.shade e = .ecru →
      m'.shade e = .ecru → Guarded m' e)
    (hstep : ∀ p q, m.shade p = .ecru → q ∈ m.slots p → m.shade q = .ecru → m'.shade q = .ecru →
      (m'.shade p = .ecru → Guarded m' p) → Guarded m' q)
    (hq : m'.shade q = .ecru) : Guarded m' q := by
  obtain ⟨e, hstart, hee, heq⟩ := h
  have hp {p : α} (hep : ReflTransGen (fun p q => q ∈ m.slots p ∧ m.shade q = .ecru) e p) :
      m.shade p = .ecru := by
    cases hep with
    | refl => exact hee
    | tail _ h => exact h.2
  induction heq with
  | refl =>
    rcases hstart with hd|⟨g, hg, hs⟩
    · exact hdebt e hd hee hq
    · exact hgrey g e hg hs hee hq
  | tail hep hpq ih => exact hstep _ _ (hp hep) hpq.1 hpq.2 hq ih

/-- Every root is found or will be found. -/
def Careful (m : Marking α) : Prop := ∀ r ∈ m.roots, m.shade r = .ecru → Guarded m r

omit [DecidableEq α] in
/-- What is found or will be found at the roots is so at every live cell. -/
theorem Careful.live (hc : Careful m) (h : Sound m) (hq : m.Live q) (he : m.shade q = .ecru) :
    Guarded m q := by
  revert he
  refine hq.induct (fun q => m.shade q = .ecru → Guarded m q) hc ?_
  intro p q hp ih hpq he
  have hw := h.live hp
  cases hs : m.shade p with
  | white => exact absurd hs hw
  | ecru => exact (ih hs).slot hpq he
  | grey => exact guarded_of_grey hs hpq he
  | black =>
    obtain ⟨i, hi⟩ := List.mem_iff_getElem?.mp hpq
    exact guarded_of_debt (h.found p i q (h.black p i hs) hi he) he

omit [DecidableEq α] in
/-- At the end of a cycle all that is live has been found. -/
theorem Careful.found (hc : Careful m) (h : Sound m) (hgrey : ∀ p, m.shade p ≠ .grey)
    (hdebt : m.debt = []) (hq : m.Live q) : m.shade q ≠ .ecru := by
  intro he
  obtain ⟨e, hd|⟨g, hg, _⟩, _⟩ := hc.live h hq he
  · simp [hdebt] at hd
  · exact hgrey g hg

/-- A move that overwrites only pointers to found cells keeps the way to every root. -/
theorem Careful.move (hc : Careful m) (h : Sound m)
    (hm : Move (fun m w => m.shade w ≠ .ecru) m m') : Careful m' := by
  cases hm with
  | allocate x ss hx hss hlive =>
    have hne {q : α} (hq : m.shade q ≠ .white) : q ≠ x := by
      rintro rfl
      exact hq hx
    intro r hr he
    have hrx : r ≠ x := by
      rintro rfl
      simp at he
    simp only [Function.update_of_ne hrx] at he
    have hold := hc r ((List.mem_cons.mp hr).resolve_left hrx) he
    refine hold.change (fun e hd _ he' => guarded_of_debt hd he') ?_ ?_ (by
      simpa only [Function.update_of_ne hrx] using he)
    · intro g e hg hs _ he'
      have hgx := hne (q := g) (by simp [hg])
      exact guarded_of_grey (p := g) (by simpa only [Function.update_of_ne hgx] using hg)
        (by simpa only [Function.update_of_ne hgx] using hs) he'
    · intro p q hp hq _ he' ih
      have hpx := hne (q := p) (by simp [hp])
      exact (ih (by simpa only [Function.update_of_ne hpx] using hp)).slot
        (by simpa only [Function.update_of_ne hpx] using hq) he'
  | darken p hp hdebt =>
    intro r hr he
    have hrp : r ≠ p := by
      rintro rfl
      simp at he
    have he' := he
    simp only [Function.update_of_ne hrp] at he'
    refine (hc r hr he').change (fun e hd _ he' => guarded_of_debt hd he') ?_ ?_ he
    · intro g e hg hs _ he'
      have hgp : g ≠ p := by
        rintro rfl
        rw [hp] at hg
        cases hg
      exact guarded_of_grey (p := g) (by simpa only [Function.update_of_ne hgp] using hg) hs he'
    · intro a b ha hab _ he' ih
      by_cases hap : a = p
      · exact guarded_of_grey (p := a) (by simp [hap]) hab he'
      · exact (ih (by simpa only [Function.update_of_ne hap] using ha)).slot hab he'
  | settle traced debt roots htraced hblack hsub hdebt hroots =>
    intro r hr hre
    exact (hc.live h (hroots r hr) hre).change (fun e hd he _ => guarded_of_debt (hdebt e hd he) he)
      (fun g e' hg hs _ he' => guarded_of_grey hg hs he')
      (fun a b ha hab _ he' ih => (ih ha).slot hab he') hre
  | store x i v w hx hv hdebt hw hlost =>
    -- the way does not go through the slot that is overwritten
    have hkeep {a b : α} (hab : b ∈ m.slots a) (hb : m.shade b = .ecru) :
        b ∈ Function.update m.slots x ((m.slots x).set i v) a := by
      by_cases hax : a = x
      · subst hax
        simp only [Function.update_self]
        obtain ⟨j, hj⟩ := List.mem_iff_getElem?.mp hab
        have hij : i ≠ j := by
          rintro rfl
          rw [hw] at hj
          obtain rfl := Option.some.inj hj
          exact hlost hb
        refine List.mem_of_getElem? (i := j) ?_
        rwa [List.getElem?_set_ne hij]
      · rwa [Function.update_of_ne hax]
    intro r hr hre
    exact (hc r hr hre).change (fun e hd _ he' => guarded_of_debt hd he')
      (fun g e hg hs _ he' => guarded_of_grey (p := g) hg (hkeep hs he') he')
      (fun a b ha hab hb he' ih => (ih ha).slot (hkeep hab hb) he') hre
  | look p i e hp he =>
    intro r hr hre
    exact (hc r hr hre).change
      (fun e' hd _ he' => guarded_of_debt (List.mem_cons_of_mem e hd) he')
      (fun g e' hg hs _ he' => guarded_of_grey hg hs he')
      (fun a b ha hab _ he' ih => (ih ha).slot hab he') hre
  | blacken p hp hall =>
    have hne {q : α} (hq : m.shade q = .ecru) : q ≠ p := by
      rintro rfl
      rw [hp] at hq
      cases hq
    intro r hr hre
    have hrp : r ≠ p := by
      rintro rfl
      simp at hre
    have hre' := hre
    simp only [Function.update_of_ne hrp] at hre'
    refine (hc r hr hre').change (fun e hd _ he' => guarded_of_debt hd he') ?_ ?_ hre
    · intro g e hg hs hse he'
      by_cases hgp : g = p
      · subst hgp
        obtain ⟨i, hi⟩ := List.mem_iff_getElem?.mp hs
        have hlt := (List.getElem?_eq_some_iff.mp hi).1
        exact guarded_of_debt (h.found g i e (hall i hlt) hi hse) he'
      · exact guarded_of_grey (p := g) (by simpa only [Function.update_of_ne hgp] using hg) hs he'
    · intro a b ha hab _ he' ih
      exact (ih (by simpa only [Function.update_of_ne (hne ha)] using ha)).slot hab he'

theorem Careful.moves (hc : Careful m) (h : Sound m)
    (hm : ReflTransGen (Move fun m w => m.shade w ≠ .ecru) m m') : Careful m' := by
  have hboth : Careful m' ∧ Sound m' := by
    induction hm with
    | refl => exact ⟨hc, h⟩
    | tail _ hmove ih => exact ⟨ih.1.move ih.2 hmove, ih.2.move hmove⟩
  exact hboth.1

/-! ## Cells that stay unfound -/

/-- The cells of `D` are ecru, and nothing that is used or waits to be found leads to them. -/
structure Apart (D : α → Prop) (m : Marking α) : Prop where
  ecru : ∀ p, D p → m.shade p = .ecru
  closed : ∀ p q, m.shade p ≠ .white → ¬ D p → q ∈ m.slots p → ¬ D q
  roots : ∀ r ∈ m.roots, ¬ D r
  debt : ∀ e ∈ m.debt, ¬ D e

omit [DecidableEq α] in
theorem Apart.live {D : α → Prop} (hd : Apart D m) (h : Sound m) (hq : m.Live q) : ¬ D q :=
  hq.induct (¬ D ·) hd.roots fun p q hp ih hpq => hd.closed p q (h.live hp) ih hpq

theorem Apart.move {lost : Marking α → α → Prop} {D : α → Prop} (hd : Apart D m) (h : Sound m)
    (hm : Move lost m m') : Apart D m' := by
  cases hm with
  | allocate x ss hx hss hlive =>
    have hDx : ¬ D x := fun hDx => by
      have he := hd.ecru x hDx
      rw [hx] at he
      cases he
    refine ⟨fun p hp => ?_, ?_, ?_, hd.debt⟩
    · have hpx : p ≠ x := by
        rintro rfl
        exact hDx hp
      simp only [Function.update_of_ne hpx]
      exact hd.ecru p hp
    · intro p q hp hDp hq
      by_cases hpx : p = x
      · subst hpx
        simp only [Function.update_self] at hq
        exact hd.live h (hlive q hq)
      · simp only [Function.update_of_ne hpx] at hp hq
        exact hd.closed p q hp hDp hq
    · intro r hr
      rcases List.mem_cons.mp hr with rfl|hr
      · exact hDx
      · exact hd.roots r hr
  | darken p hp hdebt =>
    refine ⟨fun q hq => ?_, ?_, hd.roots, hd.debt⟩
    · have hqp : q ≠ p := by
        rintro rfl
        exact hd.debt q hdebt hq
      simp only [Function.update_of_ne hqp]
      exact hd.ecru q hq
    · intro a b ha hDa hab
      refine hd.closed a b ?_ hDa hab
      by_cases hap : a = p
      · simp [hap, hp]
      · simpa only [Function.update_of_ne hap] using ha
  | settle traced debt roots htraced hblack hsub hdebt hroots =>
    refine ⟨hd.ecru, hd.closed, fun r hr => hd.live h (hroots r hr), fun e he => ?_⟩
    rcases hsub e he with hde|hl
    · exact hd.debt e hde
    · exact hd.live h hl
  | store x i v w hx hv hdebt hw hlost =>
    refine ⟨hd.ecru, ?_, hd.roots, hd.debt⟩
    intro p q hp hDp hq
    by_cases hpx : p = x
    · subst hpx
      simp only [Function.update_self] at hq
      rcases List.mem_or_eq_of_mem_set hq with hq|rfl
      · exact hd.closed p q hp hDp hq
      · exact hd.live h hv
    · simp only [Function.update_of_ne hpx] at hq
      exact hd.closed p q hp hDp hq
  | look p i e hp he =>
    refine ⟨hd.ecru, hd.closed, hd.roots, fun e' he' => ?_⟩
    rcases List.mem_cons.mp he' with rfl|he'
    · have hDp : ¬ D p := fun hDp => by
        have hec := hd.ecru p hDp
        rw [hp] at hec
        cases hec
      exact hd.closed p e' (by simp [hp]) hDp (List.mem_of_getElem? he)
    · exact hd.debt e' he'
  | blacken p hp hall =>
    have hkeep {q : α} : Function.update m.shade p .black q ≠ .white ↔ m.shade q ≠ .white := by
      by_cases hqp : q = p
      · simp [hqp, hp]
      · simp only [Function.update_of_ne hqp]
    refine ⟨fun q hq => ?_, fun a b ha => hd.closed a b (hkeep.mp ha), hd.roots, hd.debt⟩
    have he := hd.ecru q hq
    have hqp : q ≠ p := by
      rintro rfl
      rw [hp] at he
      cases he
    simpa only [Function.update_of_ne hqp] using he

theorem Apart.moves {lost : Marking α → α → Prop} {D : α → Prop} (hd : Apart D m) (h : Sound m)
    (hm : ReflTransGen (Move lost) m m') : Apart D m' := by
  have hboth : Apart D m' ∧ Sound m' := by
    induction hm with
    | refl => exact ⟨hd, h⟩
    | tail _ hmove ih => exact ⟨ih.1.move ih.2 hmove, ih.2.move hmove⟩
  exact hboth.1

omit [DecidableEq α] in
/-- At the start of a cycle, when the grey cells are roots and no cell is black, the cells in use
that are not live are apart. -/
theorem apart_dead (hblack : ∀ p, m.shade p ≠ .black)
    (hgrey : ∀ p, m.shade p = .grey → m.Live p) (hdebt : m.debt = []) :
    Apart (fun p => m.shade p ≠ .white ∧ ¬ m.Live p) m where
  ecru p hp := by
    have hb := hblack p
    cases hs : m.shade p with
    | white => exact absurd hs hp.1
    | ecru => rfl
    | grey => exact absurd (hgrey p hs) hp.2
    | black => exact absurd hs hb
  closed p q hp hDp hq := by
    rintro ⟨_, hdead⟩
    have hlive : m.Live p := by
      by_contra hcon
      exact hDp ⟨hp, hcon⟩
    exact hdead (hlive.slot hq)
  roots r hr := by
    rintro ⟨_, hdead⟩
    exact hdead (live_root hr)
  debt e he := by simp [hdebt] at he

end Marking

end Extempore.TricolourMarking
