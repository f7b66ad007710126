import Mathlib.Data.List.Chain

/-!
# Patterns matched with backtracking

A pattern takes something from the front of a text. `results` lists what it may leave, in the
order in which a matcher with backtracking gets to it: the first alternative first, and a star as
often as possible first. The first result is the match; `Fails` says that there is none.
-/

namespace Extempore.OrderedPatterns

universe u

inductive Pattern (α : Type u) where
  | empty
  | set (f : α → Bool)
  | seq (p q : Pattern α)
  | alt (p q : Pattern α)
  | star (p : Pattern α)
  | notAhead (p : Pattern α)
  | atomic (p : Pattern α)

variable {α : Type u}

/-- A star with `n` rounds at most. A round that takes nothing is the last one. -/
def iterate (f : List α → List (List α)) : ℕ → List α → List (List α)
  | 0, _ => []
  | n + 1, s =>
    ((f s).flatMap fun s' => if s'.length < s.length then iterate f n s' else [s']) ++ [s]

/-- What the pattern may leave of the text. -/
def Pattern.results : Pattern α → List α → List (List α)
  | .empty, s => [s]
  | .set _, [] => []
  | .set f, a :: s => if f a then [s] else []
  | .seq p q, s => (p.results s).flatMap q.results
  | .alt p q, s => p.results s ++ q.results s
  | .star p, s => iterate p.results (s.length + 1) s
  | .notAhead p, s => if (p.results s).isEmpty then [s] else []
  | .atomic p, s => (p.results s).head?.toList

attribute [local simp] Pattern.results iterate

/-- The pattern that calls itself, up to a depth. -/
def nested (body : Pattern α → Pattern α) : ℕ → Pattern α
  | 0 => .set fun _ => false
  | n + 1 => body (nested body n)

def Pattern.opt (p : Pattern α) : Pattern α := .alt p .empty

def Pattern.plus (p : Pattern α) : Pattern α := .seq p (.star p)

/-- The pattern matches at the front of the text. -/
def Pattern.test (p : Pattern α) (s : List α) : Bool := !(p.results s).isEmpty

/-- The first place where the pattern matches: the length of what is in front of the match, and
that together with the match. -/
def Pattern.find (p : Pattern α) : List α → Option (ℕ × ℕ)
  | [] => (p.results []).head?.map fun _ => (0, 0)
  | a :: s =>
    match (p.results (a :: s)).head? with
    | some r => some (0, (a :: s).length - r.length)
    | none => (p.find s).map fun m => (m.1 + 1, m.2 + 1)

/-- A group between two patterns, at the front of the text: what the group takes, and what the
whole match leaves. -/
def groupAt (p g q : Pattern α) (s : List α) : Option (List α × List α) :=
  ((p.results s).flatMap fun s₁ => (g.results s₁).flatMap fun s₂ =>
    (q.results s₂).map fun r => (s₁.take (s₁.length - s₂.length), r)).head?

/-- A group between two patterns, at the first place: what is in front of the match, the group, and
what is behind. -/
def findGroup (p g q : Pattern α) : List α → Option (List α × List α × List α)
  | [] => (groupAt p g q []).map fun m => ([], m)
  | a :: s =>
    match groupAt p g q (a :: s) with
    | some m => some ([], m)
    | none => (findGroup p g q s).map fun m => (a :: m.1, m.2)

/-- The first result of the pattern. -/
def First (p : Pattern α) (s r : List α) : Prop := (p.results s).head? = some r

/-- The pattern does not match. -/
def Fails (p : Pattern α) (s : List α) : Prop := p.results s = []

variable {p q g : Pattern α} {s s' r : List α} {f : α → Bool} {a : α} {n : ℕ}

/-! ## First results -/

theorem first_empty (s : List α) : First .empty s s := rfl

theorem first_set (h : f a = true) : First (.set f) (a :: s) s := by
  rw [First, Pattern.results, if_pos h]
  rfl

theorem fails_set_nil (f : α → Bool) : Fails (.set f) [] := rfl

theorem fails_set (h : f a = false) : Fails (.set f) (a :: s) := by
  rw [Fails, Pattern.results, h]
  rfl

theorem first_seq (hp : First p s s') (hq : First q s' r) : First (.seq p q) s r := by
  rw [First] at hp hq ⊢
  rw [Pattern.results]
  cases h : p.results s with
  | nil =>
    rw [h] at hp
    cases hp
  | cons s₁ rest =>
    rw [h, List.head?_cons] at hp
    rw [List.flatMap_cons, List.head?_append, Option.some.inj hp, hq]
    rfl

theorem fails_seq (h : ∀ s' ∈ p.results s, Fails q s') : Fails (.seq p q) s := by
  rw [Fails, Pattern.results, List.flatMap_eq_nil_iff]
  exact h

theorem fails_seq_left (h : Fails p s) : Fails (.seq p q) s := by
  apply fails_seq
  intro s' hs'
  rw [h] at hs'
  cases hs'

theorem first_alt_left (h : First p s r) : First (.alt p q) s r := by
  rw [First] at h ⊢
  rw [Pattern.results, List.head?_append, h]
  rfl

theorem first_alt_right (hp : Fails p s) (hq : First q s r) : First (.alt p q) s r := by
  rw [Fails] at hp
  rw [First, Pattern.results, hp, List.nil_append]
  exact hq

theorem fails_alt (hp : Fails p s) (hq : Fails q s) : Fails (.alt p q) s := by
  rw [Fails] at hp hq
  rw [Fails, Pattern.results, hp, hq, List.nil_append]

theorem first_opt (h : First p s r) : First p.opt s r := first_alt_left h

theorem first_opt_skip (h : Fails p s) : First p.opt s s := first_alt_right h (first_empty s)

theorem results_opt (p : Pattern α) (s : List α) : p.opt.results s = p.results s ++ [s] := rfl

theorem first_notAhead (h : Fails p s) : First (.notAhead p) s s := by
  rw [Fails] at h
  rw [First, Pattern.results, h]
  rfl

theorem fails_notAhead (h : First p s r) : Fails (.notAhead p) s := by
  rw [First] at h
  rw [Fails, Pattern.results]
  cases hp : p.results s with
  | nil =>
    rw [hp] at h
    cases h
  | cons _ _ => rfl

theorem first_atomic (h : First p s r) : First (.atomic p) s r := by
  rw [First] at h ⊢
  rw [Pattern.results, h]
  rfl

theorem fails_atomic (h : Fails p s) : Fails (.atomic p) s := by
  rw [Fails] at h
  rw [Fails, Pattern.results, h]
  rfl

/-! ## Stars -/

/-- More rounds than there are elements change nothing. -/
theorem iterate_of_lt {h : List α → List (List α)} {m n : ℕ} (hm : s.length < m)
    (hn : s.length < n) : iterate h m s = iterate h n s := by
  induction m generalizing n s with
  | zero => cases hm
  | succ m ih =>
    cases n with
    | zero => cases hn
    | succ n =>
      have hrounds (s' : List α) : (if s'.length < s.length then iterate h m s' else [s']) =
          if s'.length < s.length then iterate h n s' else [s'] := by
        split
        · next hlt => exact ih (by omega) (by omega)
        · rfl
      rw [iterate, iterate]
      simp only [hrounds]

/-- One round of a star and the rest. -/
theorem results_star (p : Pattern α) (s : List α) :
    (Pattern.star p).results s = ((p.results s).flatMap fun s' =>
      if s'.length < s.length then (Pattern.star p).results s' else [s']) ++ [s] := by
  have hrounds (s' : List α) : (if s'.length < s.length then iterate p.results s.length s' else [s'])
      = if s'.length < s.length then (Pattern.star p).results s' else [s'] := by
    split
    · next hlt => exact iterate_of_lt hlt (Nat.lt_succ_self _)
    · rfl
  rw [Pattern.results, iterate]
  simp only [hrounds]

theorem first_star_stop (h : Fails p s) : First (.star p) s s := by
  rw [Fails] at h
  rw [First, results_star, h]
  rfl

theorem first_star_step (hp : First p s s') (hlt : s'.length < s.length)
    (hr : First (.star p) s' r) : First (.star p) s r := by
  rw [First] at hp hr ⊢
  rw [results_star]
  cases h : p.results s with
  | nil =>
    rw [h] at hp
    cases hp
  | cons s₁ rest =>
    rw [h, List.head?_cons] at hp
    rw [List.flatMap_cons, Option.some.inj hp, if_pos hlt, List.append_assoc, List.head?_append, hr]
    rfl

/-- A star of single elements takes all it can. -/
theorem first_star_set {u : List α} (hu : ∀ a ∈ u, f a = true) (hr : ∀ a ∈ r.head?, f a = false) :
    First (.star (.set f)) (u ++ r) r := by
  induction u with
  | nil =>
    apply first_star_stop
    cases r with
    | nil => exact fails_set_nil f
    | cons a r => exact fails_set (hr a rfl)
  | cons a u ih =>
    have hrest := ih fun b hb => hu b (List.mem_cons_of_mem a hb)
    exact first_star_step (first_set (hu a List.mem_cons_self)) (Nat.lt_succ_self _) hrest

/-! ## All results -/

theorem test_iff : p.test s = true ↔ ∃ r, r ∈ p.results s := by
  rw [Pattern.test]
  cases p.results s with
  | nil => simp
  | cons r rest => simp

theorem test_eq_false (h : Fails p s) : p.test s = false := by
  rw [Fails] at h
  rw [Pattern.test, h]
  rfl

theorem mem_results_set : r ∈ (Pattern.set f).results s ↔ ∃ a, f a = true ∧ s = a :: r := by
  cases s with
  | nil => simp [Pattern.results]
  | cons b s =>
    rw [Pattern.results]
    by_cases hb : f b = true
    · rw [if_pos hb, List.mem_singleton]
      constructor
      · intro heq
        exact ⟨b, hb, by rw [heq]⟩
      · intro h
        obtain ⟨a, -, heq⟩ := h
        exact (List.cons.inj heq).2.symm
    · rw [if_neg hb]
      refine iff_of_false List.not_mem_nil fun h => ?_
      obtain ⟨a, ha, heq⟩ := h
      rw [(List.cons.inj heq).1] at hb
      exact hb ha

theorem mem_results_seq :
    r ∈ (Pattern.seq p q).results s ↔ ∃ s', s' ∈ p.results s ∧ r ∈ q.results s' := by
  rw [Pattern.results, List.mem_flatMap]

theorem mem_results_alt :
    r ∈ (Pattern.alt p q).results s ↔ r ∈ p.results s ∨ r ∈ q.results s := by
  rw [Pattern.results, List.mem_append]

theorem results_star_cons (h : f a = true) :
    (Pattern.star (.set f)).results (a :: s) = (Pattern.star (.set f)).results s ++ [a :: s] := by
  have hlt : s.length < (a :: s).length := Nat.lt_succ_self _
  rw [results_star, Pattern.results, if_pos h, List.flatMap_singleton, if_pos hlt]

theorem results_star_of_fails (h : Fails p s) : (Pattern.star p).results s = [s] := by
  rw [Fails] at h
  rw [results_star, h]
  rfl

theorem mem_results_star_set :
    r ∈ (Pattern.star (.set f)).results s ↔ ∃ u, s = u ++ r ∧ ∀ a ∈ u, f a = true := by
  induction s with
  | nil =>
    rw [results_star_of_fails (fails_set_nil f), List.mem_singleton]
    constructor
    · intro h
      exact ⟨[], h.symm, by simp⟩
    · intro h
      obtain ⟨u, heq, -⟩ := h
      exact (List.append_eq_nil_iff.mp heq.symm).2
  | cons b s ih =>
    by_cases hb : f b = true
    · rw [results_star_cons hb, List.mem_append, ih, List.mem_singleton]
      constructor
      · intro h
        rcases h with ⟨u, heq, hu⟩ | heq
        · exact ⟨b :: u, by rw [heq]; rfl, List.forall_mem_cons.mpr ⟨hb, hu⟩⟩
        · exact ⟨[], heq.symm, by simp⟩
      · intro h
        obtain ⟨u, heq, hu⟩ := h
        cases u with
        | nil => exact .inr heq.symm
        | cons a u =>
          exact .inl ⟨u, (List.cons.inj heq).2, fun x hx => hu x (List.mem_cons_of_mem a hx)⟩
    · rw [results_star_of_fails (fails_set (Bool.eq_false_iff.mpr hb)), List.mem_singleton]
      constructor
      · intro h
        exact ⟨[], h.symm, by simp⟩
      · intro h
        obtain ⟨u, heq, hu⟩ := h
        cases u with
        | nil => exact heq.symm
        | cons a u =>
          rw [(List.cons.inj heq).1] at hb
          exact absurd (hu a List.mem_cons_self) hb

theorem suffix_of_mem_iterate {h : List α → List (List α)} (hh : ∀ s, ∀ r ∈ h s, r <:+ s) :
    ∀ s, ∀ r ∈ iterate h n s, r <:+ s := by
  induction n with
  | zero => exact fun _ _ hr => absurd hr List.not_mem_nil
  | succ n ih =>
    intro s r hr
    rcases List.mem_append.mp hr with hr | hr
    · rcases List.mem_flatMap.mp hr with ⟨s', hs', hr⟩
      split at hr
      · exact (ih s' r hr).trans (hh s s' hs')
      · rw [List.mem_singleton.mp hr]
        exact hh s s' hs'
    · cases List.mem_singleton.mp hr
      exact List.suffix_refl _

/-- A pattern takes something from the front. -/
theorem suffix_of_mem_results (p : Pattern α) : ∀ s, ∀ r ∈ p.results s, r <:+ s := by
  induction p with
  | empty =>
    intro s r hr
    cases List.mem_singleton.mp hr
    exact List.suffix_refl _
  | set f =>
    intro s r hr
    obtain ⟨a, -, heq⟩ := mem_results_set.mp hr
    exact ⟨[a], heq.symm⟩
  | seq p q ihp ihq =>
    intro s r hr
    obtain ⟨s', hs', hr⟩ := mem_results_seq.mp hr
    exact (ihq s' r hr).trans (ihp s s' hs')
  | alt p q ihp ihq =>
    intro s r hr
    rcases mem_results_alt.mp hr with hr | hr
    · exact ihp s r hr
    · exact ihq s r hr
  | star p ih => exact fun s => suffix_of_mem_iterate ih s
  | notAhead p _ =>
    intro s r hr
    rw [Pattern.results] at hr
    split at hr
    · cases List.mem_singleton.mp hr
      exact List.suffix_refl _
    · cases hr
  | atomic p ih =>
    intro s r hr
    rw [Pattern.results, Option.mem_toList] at hr
    exact ih s r (List.mem_of_mem_head? hr)

/-! ## The first place -/

theorem find_of_first {u : List α} (h : First p (u ++ r) r) :
    p.find (u ++ r) = some (0, u.length) := by
  have hlength : (u ++ r).length - r.length = u.length := by
    rw [List.length_append, Nat.add_sub_cancel]
  rw [First] at h
  cases hs : u ++ r with
  | nil =>
    rw [hs] at h
    rw [Pattern.find, h, (List.append_eq_nil_iff.mp hs).1]
    rfl
  | cons a s =>
    rw [hs] at h hlength
    rw [Pattern.find, h, ← hlength]

/-- Behind elements at which the pattern never matches. -/
theorem find_append {before : List α} (hbefore : ∀ a ∈ before, ∀ t, Fails p (a :: t))
    (s : List α) : p.find (before ++ s) =
      (p.find s).map fun m => (before.length + m.1, before.length + m.2) := by
  induction before with
  | nil => simp
  | cons a before ih =>
    have hfails := hbefore a List.mem_cons_self (before ++ s)
    rw [Fails] at hfails
    rw [List.cons_append, Pattern.find, hfails, List.head?_nil]
    dsimp only
    rw [ih fun b hb => hbefore b (List.mem_cons_of_mem a hb), Option.map_map]
    congr 1
    funext m
    simp only [Function.comp_apply, List.length_cons, Prod.mk.injEq]
    omega

theorem find_eq_none (h : ∀ a ∈ s, ∀ t, Fails p (a :: t)) (hnil : Fails p []) :
    p.find s = none := by
  have hfind := find_append h []
  rw [Fails] at hnil
  rw [List.append_nil, Pattern.find, hnil] at hfind
  exact hfind

/-! ## Groups -/

theorem groupAt_eq_none (h : ∀ s₁ ∈ p.results s, ∀ s₂ ∈ g.results s₁, Fails q s₂) :
    groupAt p g q s = none := by
  rw [groupAt, List.head?_eq_none_iff, List.flatMap_eq_nil_iff]
  intro s₁ h₁
  rw [List.flatMap_eq_nil_iff]
  intro s₂ h₂
  rw [h s₁ h₁ s₂ h₂]
  rfl

/-- What comes first behind a star that takes `u` and cannot take more. -/
theorem head?_flatMap_star {β : Type u} {k : List α → List β} {u v : List α} {b : β}
    (hu : ∀ a ∈ u, f a = true)
    (hv : ∀ x y, v = x ++ y → x ≠ [] → (∀ a ∈ x, f a = true) → k y = [])
    (hb : (k v).head? = some b) :
    (((Pattern.star (.set f)).results (u ++ v)).flatMap k).head? = some b := by
  induction u with
  | nil =>
    rw [List.nil_append]
    cases v with
    | nil =>
      rw [results_star_of_fails (fails_set_nil f), List.flatMap_singleton]
      exact hb
    | cons a v =>
      by_cases ha : f a = true
      · have hnil : ((Pattern.star (.set f)).results v).flatMap k = [] := by
          rw [List.flatMap_eq_nil_iff]
          intro y hy
          obtain ⟨x, heq, hx⟩ := mem_results_star_set.mp hy
          exact hv (a :: x) y (by rw [heq]; rfl) (List.cons_ne_nil a x)
            (List.forall_mem_cons.mpr ⟨ha, hx⟩)
        rw [results_star_cons ha, List.flatMap_append, hnil, List.nil_append,
          List.flatMap_singleton]
        exact hb
      · rw [results_star_of_fails (fails_set (Bool.eq_false_iff.mpr ha)), List.flatMap_singleton]
        exact hb
  | cons a u ih =>
    rw [List.cons_append, results_star_cons (hu a List.mem_cons_self), List.flatMap_append,
      List.head?_append, ih fun x hx => hu x (List.mem_cons_of_mem a hx)]
    rfl

/-- A group that takes as much as possible ends where what follows matches for the last time. -/
theorem groupAt_star {u v : List α} (hp : p.results s = [u ++ v]) (hu : ∀ a ∈ u, f a = true)
    (hv : ∀ x y, v = x ++ y → x ≠ [] → (∀ a ∈ x, f a = true) → Fails q y) (hq : First q v r) :
    groupAt p (.star (.set f)) q s = some (u, r) := by
  rw [groupAt, hp, List.flatMap_singleton]
  apply head?_flatMap_star hu
  · intro x y hxy hx hfx
    rw [hv x y hxy hx hfx]
    rfl
  · rw [First] at hq
    rw [List.head?_map, hq, List.length_append, Nat.add_sub_cancel, List.take_left]
    rfl

theorem findGroup_of_groupAt {m : List α × List α} (h : groupAt p g q s = some m) :
    findGroup p g q s = some ([], m) := by
  cases s with
  | nil =>
    rw [findGroup, h]
    rfl
  | cons a s => rw [findGroup, h]

theorem findGroup_append {before : List α}
    (h : ∀ x y, before = x ++ y → y ≠ [] → groupAt p g q (y ++ s) = none) :
    findGroup p g q (before ++ s) = (findGroup p g q s).map fun m => (before ++ m.1, m.2) := by
  induction before with
  | nil => simp
  | cons a before ih =>
    have hnone := h [] (a :: before) rfl (List.cons_ne_nil a before)
    rw [List.cons_append] at hnone
    rw [List.cons_append, findGroup, hnone,
      ih fun x y hxy hy => h (a :: x) y (by rw [hxy]; rfl) hy, Option.map_map]
    rfl

/-! ## Brackets -/

/-- Texts in which the brackets `o` and `c` are balanced. -/
inductive Balanced (o c : α) : List α → Prop
  | nil : Balanced o c []
  | plain {a : α} {w : List α} (ho : a ≠ o) (hc : a ≠ c) (h : Balanced o c w) :
      Balanced o c (a :: w)
  | nested {b w : List α} (hb : Balanced o c b) (hw : Balanced o c w) :
      Balanced o c (o :: (b ++ c :: w))

variable {o c : α} {w t : List α}

theorem Balanced.append (hs : Balanced o c s) (hw : Balanced o c w) : Balanced o c (s ++ w) := by
  induction hs with
  | nil => exact hw
  | plain ho hc _ ih => exact .plain ho hc ih
  | nested hb _ _ ih =>
    rw [List.cons_append, List.append_assoc]
    exact .nested hb ih

theorem balanced_of_forall (h : ∀ a ∈ s, a ≠ o ∧ a ≠ c) : Balanced o c s := by
  induction s with
  | nil => exact .nil
  | cons a s ih =>
    have ha := h a List.mem_cons_self
    exact .plain ha.1 ha.2 (ih fun b hb => h b (List.mem_cons_of_mem a hb))

/-- Without its first elements, which are no brackets, a text stays balanced. -/
theorem Balanced.drop {u : List α} (h : Balanced o c w) (hu : ∀ a ∈ u, a ≠ o ∧ a ≠ c)
    (heq : w ++ c :: t = u ++ r) : ∃ v, w = u ++ v ∧ r = v ++ c :: t ∧ Balanced o c v := by
  induction u generalizing w with
  | nil => exact ⟨w, rfl, heq.symm, h⟩
  | cons a u ih =>
    have ha := hu a List.mem_cons_self
    cases h with
    | nil => exact absurd (List.cons.inj heq).1.symm ha.2
    | nested _ _ => exact absurd (List.cons.inj heq).1.symm ha.1
    | plain _ _ h =>
      obtain ⟨hb, hrest⟩ := List.cons.inj heq
      obtain ⟨v, hw, hr, hv⟩ := ih h (fun b hb => hu b (List.mem_cons_of_mem a hb)) hrest
      exact ⟨v, by rw [hb, hw]; rfl, hr, hv⟩

/-- The body of a pattern for balanced texts, with a call of itself between brackets. Elements that
are not `fine`, and pairs of elements that are `bad`, are where it may stop. -/
structure Brackets (o c : α) (fine : α → Prop) (bad : α → α → Prop)
    (body : Pattern α → Pattern α) : Prop where
  close : ∀ g t, Fails (body g) (c :: t)
  plain : ∀ g a t, a ≠ o → a ≠ c → fine a → (∀ b ∈ t.head?, ¬ bad a b) →
    First (body g) (a :: t) t
  nest : ∀ g t t', First (.star (.atomic g)) t (c :: t') →
    ∃ u r, t' = u ++ r ∧ (∀ a ∈ u, a ≠ o ∧ a ≠ c) ∧ First (body g) (o :: t) r
  notBad : ∀ a, ¬ bad a c

/-- There is nothing at which the pattern may stop. -/
structure Even (fine : α → Prop) (bad : α → α → Prop) (w : List α) : Prop where
  fine : ∀ a ∈ w, fine a
  notBad : w.IsChain fun a b => ¬ bad a b

variable {fine : α → Prop} {bad : α → α → Prop} {body : Pattern α → Pattern α}

theorem Even.infix (h : Even fine bad w) (before after : List α) (hw : w = before ++ s ++ after) :
    Even fine bad s where
  fine a ha := h.fine a (by rw [hw]; simp [ha])
  notBad := h.notBad.infix ⟨before, after, hw.symm⟩

/-- The star over the body runs up to the closing bracket, from inside and from outside. -/
theorem Brackets.first_star (h : Brackets o c fine bad body) (hw : Balanced o c w)
    (heven : Even fine bad w) (hn : w.length < n) :
    First (.star (nested body n)) (w ++ c :: t) (c :: t) ∧
      First (.star (.atomic (nested body n))) (w ++ c :: t) (c :: t) := by
  induction n generalizing w t with
  | zero => cases hn
  | succ n ihn =>
    induction hk : w.length using Nat.strongRecOn generalizing w with
    | ind k ihk =>
      cases hw with
      | nil =>
        have hfails : Fails (nested body (n + 1)) (c :: t) := h.close _ t
        exact ⟨first_star_stop hfails, first_star_stop (fails_atomic hfails)⟩
      | @plain a w ho hc hw =>
        have hfirst : First (nested body (n + 1)) (a :: (w ++ c :: t)) (w ++ c :: t) := by
          apply h.plain _ a _ ho hc (heven.fine a List.mem_cons_self)
          cases w with
          | nil =>
            intro b hb
            rw [← Option.some.inj hb]
            exact h.notBad a
          | cons b w =>
            intro b' hb
            rw [← Option.some.inj hb]
            exact (List.isChain_cons_cons.mp heven.notBad).1
        rw [List.length_cons] at hk hn
        have hevenw : Even fine bad w := heven.infix [a] [] (by simp)
        obtain ⟨hstar, hatomic⟩ := ihk w.length (by omega) hw hevenw (by omega) rfl
        have hlt : (w ++ c :: t).length < (a :: (w ++ c :: t)).length := Nat.lt_succ_self _
        exact ⟨first_star_step hfirst hlt hstar,
          first_star_step (first_atomic hfirst) hlt hatomic⟩
      | @nested b w hb hw =>
        rw [List.length_cons, List.length_append, List.length_cons] at hk hn
        have hevenb : Even fine bad b := heven.infix [o] (c :: w) (by simp)
        have hinner := (@ihn b (w ++ c :: t) hb hevenb (by omega)).2
        obtain ⟨u, r, heq, hu, hfirst⟩ := h.nest _ _ _ hinner
        obtain ⟨v, hwv, hr, hv⟩ := hw.drop hu heq
        have hevenv : Even fine bad v :=
          heven.infix (o :: (b ++ c :: u)) [] (by rw [hwv]; simp)
        have hlength := congrArg List.length hwv
        rw [List.length_append] at hlength
        obtain ⟨hstar, hatomic⟩ := ihk v.length (by omega) hv hevenv (by omega) rfl
        rw [hr] at hfirst
        have hlt : (v ++ c :: t).length < (o :: (b ++ c :: w) ++ c :: t).length := by
          simp only [List.length_append, List.length_cons]
          omega
        have hfirst' : First (nested body (n + 1)) (o :: (b ++ c :: w) ++ c :: t) (v ++ c :: t) := by
          rw [List.cons_append, List.append_assoc]
          exact hfirst
        exact ⟨first_star_step hfirst' hlt hstar,
          first_star_step (first_atomic hfirst') hlt hatomic⟩

end Extempore.OrderedPatterns
