import Extempore.SchemeData
import Mathlib.Data.Nat.Notation

/-!
# Quasiquotations

The macro `quasiquote` turns a template into an expression of `quote`, `cons` and `append` with
the unquoted expressions in it. Where a part needs no evaluation it quotes that part as it stands.
What a template means is said by `Fills`, for any evaluator that reads those three as they are.
-/

namespace Extempore.Quasiquote
open SchemeData

/-- `(list 'quote d)` -/
def quoted (d : Val) : Val := .list [.symbol "quote", d]

/-- `(car v)`; only of pairs. -/
def carOf : Val → Option Val
  | .pair a _ => some a
  | _ => none

/-- `(car (cdr v))` -/
def cadrOf : Val → Option Val
  | .pair _ d => carOf d
  | _ => none

section Expansion
-- `eq?` on whatever it is called with, the other atoms that are procedures or numbers, and the
-- one of them that is the procedure `vector`
variable (eq : Val → Val → Bool) (plain : ℕ → Bool) (vector : ℕ)

/-- `(or (procedure? form) (number? form) (string? form))` -/
def isPlain : Val → Bool
  | .closure _ _ _ | .integer _ | .string _ => true
  | .other id => plain id
  | _ => false

/-- Whether `v` is a quotation of `d`. -/
def quotes (v d : Val) : Option Bool :=
  match v with
  | .pair (.symbol "quote") _ => (cadrOf v).map fun x => eq x d
  | _ => some false

/-- `mcons`, for the expansions `l` and `r` of the parts of `f`. -/
def mcons (f l r : Val) : Option Val := do
  if ← (do if ← quotes eq r (cdr f) then quotes eq l (car f) else some false) then
    some (if isPlain plain f then f else quoted f)
  -- here the source evaluates `r` at once and makes a vector of it
  else if l = .other vector then none
  else some (.list [.symbol "cons", l, r])

def mappend (f l r : Val) : Option Val := do
  if cdr f = .nil || (← quotes eq r .nil) then some l
  else some (.list [.symbol "append", l, r])

/-- `foo`. `none` is an error of the expansion, or a template that holds the procedure `vector`. -/
def foo : ℕ → Val → Option Val
  | level, .pair a d =>
    if a = .symbol "quasiquote" then do
      mcons eq plain vector (.pair a d) (quoted (.symbol "quasiquote")) (← foo (level + 1) d)
    else
      match level with
      | 0 =>
        if a = .symbol "unquote" then carOf d
        else if a = .symbol "unquote-splicing" then none
        else if carOf a = some (.symbol "unquote-splicing") then do
          mappend eq (.pair a d) (← cadrOf a) (← foo 0 d)
        else do mcons eq plain vector (.pair a d) (← foo 0 a) (← foo 0 d)
      | level + 1 =>
        if a = .symbol "unquote" then do
          mcons eq plain vector (.pair a d) (quoted (.symbol "unquote")) (← foo level d)
        else if a = .symbol "unquote-splicing" then do
          mcons eq plain vector (.pair a d) (quoted (.symbol "unquote-splicing")) (← foo level d)
        else do mcons eq plain vector (.pair a d) (← foo (level + 1) a) (← foo (level + 1) d)
  | _, form => some (if isPlain plain form then form else quoted form)

/-- The macro on `(quasiquote template)`. -/
def quasiquote (l : Val) : Option Val := do foo eq plain vector 0 (← cadrOf l)

end Expansion

/-! ## What a template means -/

/-- The elements that `append` copies. -/
def elements : Val → List Val
  | .pair a d => a :: elements d
  | _ => []

/-- `append` of two arguments. -/
def append (a d : Val) : Val := .listStar d (elements a)

variable {σ : Type*}

/-- `ev e s v s'` says that `e` has the value `v` and takes the state from `s` to `s'`. -/
structure Reads (plain : ℕ → Bool) (ev : Val → σ → Val → σ → Prop) : Prop where
  plain : ∀ {e s v s'}, isPlain plain e = true → (ev e s v s' ↔ v = e ∧ s' = s)
  quote : ∀ {d rest s v s'}, ev (.pair (.symbol "quote") (.pair d rest)) s v s' ↔ v = d ∧ s' = s
  cons : ∀ {l r s v s'}, ev (.list [.symbol "cons", l, r]) s v s' ↔
    ∃ x s₁ y, ev l s x s₁ ∧ ev r s₁ y s' ∧ v = .pair x y
  append : ∀ {l r s v s'}, ev (.list [.symbol "append", l, r]) s v s' ↔
    ∃ x s₁ y, ev l s x s₁ ∧ ev r s₁ y s' ∧ v = append x y

/-- Filling a template: its parts from left to right, unquoted expressions at their level by
their values, everything else as it stands. -/
def Fills (ev : Val → σ → Val → σ → Prop) : ℕ → Val → σ → Val → σ → Prop
  | level, .pair a d, s, v, s' =>
    if a = .symbol "quasiquote" then ∃ y, Fills ev (level + 1) d s y s' ∧ v = .pair a y
    else
      match level with
      | 0 =>
        if a = .symbol "unquote" then ∃ e, carOf d = some e ∧ ev e s v s'
        else if carOf a = some (.symbol "unquote-splicing") then
          ∃ e x s₁ y, cadrOf a = some e ∧ ev e s x s₁ ∧ Fills ev 0 d s₁ y s' ∧ v = append x y
        else ∃ x s₁ y, Fills ev 0 a s x s₁ ∧ Fills ev 0 d s₁ y s' ∧ v = .pair x y
      | level + 1 =>
        if a = .symbol "unquote" ∨ a = .symbol "unquote-splicing" then
          ∃ y, Fills ev level d s y s' ∧ v = .pair a y
        else ∃ x s₁ y, Fills ev (level + 1) a s x s₁ ∧ Fills ev (level + 1) d s₁ y s' ∧ v = .pair x y
  | _, form, s, v, s' => v = form ∧ s' = s

/-- The expressions whose elements a template takes over. -/
def spliced : ℕ → Val → List Val
  | level, .pair a d =>
    if a = .symbol "quasiquote" then spliced (level + 1) d
    else
      match level with
      | 0 =>
        if a = .symbol "unquote" then []
        else if carOf a = some (.symbol "unquote-splicing") then (cadrOf a).toList ++ spliced 0 d
        else spliced 0 a ++ spliced 0 d
      | level + 1 =>
        if a = .symbol "unquote" ∨ a = .symbol "unquote-splicing" then spliced level d
        else spliced (level + 1) a ++ spliced (level + 1) d
  | _, _ => []

/-! ## The expansion of a template has its meaning -/

section
variable {eq : Val → Val → Bool} {plain : ℕ → Bool} {vector : ℕ} {ev : Val → σ → Val → σ → Prop}
  {f l r e d v : Val} {s s' : σ} {level : ℕ}

theorem append_nil (vs : List Val) : append (.list vs) .nil = .list vs := by
  have helements : elements (.list vs) = vs := by
    induction vs with
    | nil => rfl
    | cons v vs ih => simp [Val.list, elements, ih]
  rw [append, helements]
  clear helements
  induction vs with
  | nil => rfl
  | cons v vs ih => rw [Val.listStar, ih, Val.list]

theorem ev_quoted (h : Reads plain ev) : ev (quoted d) s v s' ↔ v = d ∧ s' = s := h.quote

/-- What is a quotation of `d` has the value `d`. -/
theorem ev_of_quotes (h : Reads plain ev) (heq : ∀ a b, eq a b = true → a = b)
    (hq : quotes eq l d = some true) : ev l s v s' ↔ v = d ∧ s' = s := by
  unfold quotes at hq
  split at hq
  · rename_i rest
    obtain ⟨x, hx, hxd⟩ := Option.map_eq_some_iff.mp hq
    obtain rfl := heq x d hxd
    cases rest with
    | pair a b =>
      obtain rfl : a = x := by simpa [cadrOf, carOf] using hx
      exact h.quote
    | _ => simp [cadrOf, carOf] at hx
  · simp at hq

/-- `mcons` builds the pair of what its parts build. -/
theorem ev_mcons (h : Reads plain ev) (heq : ∀ a b, eq a b = true → a = b) {a : Val}
    (he : mcons eq plain vector (.pair a d) l r = some e) :
    ev e s v s' ↔ ∃ x s₁ y, ev l s x s₁ ∧ ev r s₁ y s' ∧ v = .pair x y := by
  simp only [mcons, Option.bind_eq_bind, Option.bind_eq_some_iff] at he
  obtain ⟨b, ⟨br, hr, hb⟩, he⟩ := he
  have hpair : isPlain plain (.pair a d) = false := rfl
  rw [hpair, if_neg Bool.false_ne_true] at he
  split_ifs at he with hboth
  · subst hboth
    cases br with
    | false => simp at hb
    | true =>
    have hl : quotes eq l (car (.pair a d)) = some true := hb
    obtain rfl := Option.some.inj he
    simp only [ev_quoted h, ev_of_quotes h heq hr, ev_of_quotes h heq hl, car, cdr]
    constructor
    · rintro ⟨rfl, rfl⟩
      exact ⟨a, s', d, ⟨rfl, rfl⟩, ⟨rfl, rfl⟩, rfl⟩
    · rintro ⟨x, s₁, y, ⟨rfl, rfl⟩, ⟨rfl, rfl⟩, rfl⟩
      exact ⟨rfl, rfl⟩
  · obtain rfl := Option.some.inj he
    exact h.cons

theorem ev_mcons_quoted (h : Reads plain ev) (heq : ∀ a b, eq a b = true → a = b) {a : Val}
    (he : mcons eq plain vector (.pair a d) (quoted a) r = some e) :
    ev e s v s' ↔ ∃ y, ev r s y s' ∧ v = .pair a y := by
  rw [ev_mcons h heq he]
  constructor
  · rintro ⟨x, s₁, y, hx, hy, rfl⟩
    obtain ⟨rfl, rfl⟩ := (ev_quoted h).mp hx
    exact ⟨y, hy, rfl⟩
  · rintro ⟨y, hy, rfl⟩
    exact ⟨a, s, y, (ev_quoted h).mpr ⟨rfl, rfl⟩, hy, rfl⟩

/-- `mappend` appends what its parts build, as long as the first is a list. -/
theorem ev_mappend (h : Reads plain ev) (heq : ∀ a b, eq a b = true → a = b) {a : Val}
    (hl : ∀ s x s₁, ev l s x s₁ → ∃ vs, x = .list vs)
    (hnil : d = .nil → ∀ s y s', ev r s y s' ↔ y = .nil ∧ s' = s)
    (he : mappend eq (.pair a d) l r = some e) :
    ev e s v s' ↔ ∃ x s₁ y, ev l s x s₁ ∧ ev r s₁ y s' ∧ v = append x y := by
  simp only [mappend, Option.bind_eq_bind, Option.bind_eq_some_iff] at he
  obtain ⟨br, hr, he⟩ := he
  split_ifs at he with hempty
  · obtain rfl := Option.some.inj he
    have hr' : ∀ s y s', ev r s y s' ↔ y = .nil ∧ s' = s := by
      rcases Bool.or_eq_true_iff.mp hempty with hd | rfl
      · exact hnil (of_decide_eq_true hd)
      · exact fun _ _ _ => ev_of_quotes h heq hr
    constructor
    · intro hx
      obtain ⟨vs, rfl⟩ := hl s v s' hx
      exact ⟨_, s', .nil, hx, (hr' _ _ _).mpr ⟨rfl, rfl⟩, (append_nil vs).symm⟩
    · rintro ⟨x, s₁, y, hx, hy, rfl⟩
      obtain ⟨rfl, rfl⟩ := (hr' _ _ _).mp hy
      obtain ⟨vs, rfl⟩ := hl s x s' hx
      rw [append_nil]
      exact hx
  · obtain rfl := Option.some.inj he
    exact h.append

theorem ev_atom (h : Reads plain ev) :
    ev (if isPlain plain f then f else quoted f) s v s' ↔ v = f ∧ s' = s := by
  split_ifs with hf
  · exact h.plain hf
  · exact ev_quoted h

/-- Evaluating the expansion is filling the template. -/
theorem ev_foo (h : Reads plain ev) (heq : ∀ a b, eq a b = true → a = b) {form : Val}
    (hl : ∀ e ∈ spliced level form, ∀ s x s₁, ev e s x s₁ → ∃ vs, x = .list vs)
    (he : foo eq plain vector level form = some e) : ev e s v s' ↔ Fills ev level form s v s' := by
  induction form generalizing level e s v s' with
  | pair a d iha ihd =>
    cases level with
    | zero =>
      simp only [foo, Option.bind_eq_bind] at he
      simp only [Fills]
      simp only [spliced] at hl
      split_ifs at he hl ⊢ with hqq hu hs ha
      · obtain ⟨r, hr, he⟩ := Option.bind_eq_some_iff.mp he
        rw [← hqq] at he
        simp only [ev_mcons_quoted h heq he, ihd hl hr]
      · simp [he]
      · obtain ⟨l, hcadr, he⟩ := Option.bind_eq_some_iff.mp he
        obtain ⟨r, hr, he⟩ := Option.bind_eq_some_iff.mp he
        have hlist := hl l (by simp [hcadr])
        have hrest : ∀ s y s', ev r s y s' ↔ Fills ev 0 d s y s' := fun _ _ _ =>
          ihd (fun e' he' => hl e' (List.mem_append_right _ he')) hr
        have hnil : d = .nil → ∀ s y s', ev r s y s' ↔ y = .nil ∧ s' = s := by
          rintro rfl s y s'
          rw [hrest, Fills]
          simp
        rw [ev_mappend h heq hlist hnil he]
        simp only [hcadr, hrest, Option.some.injEq, exists_and_left, exists_eq_left']
      · obtain ⟨l, hleft, he⟩ := Option.bind_eq_some_iff.mp he
        obtain ⟨r, hr, he⟩ := Option.bind_eq_some_iff.mp he
        rw [ev_mcons h heq he]
        simp only [iha (fun e' he' => hl e' (List.mem_append_left _ he')) hleft,
          ihd (fun e' he' => hl e' (List.mem_append_right _ he')) hr]
    | succ level =>
      simp only [foo, Option.bind_eq_bind] at he
      simp only [Fills]
      simp only [spliced] at hl
      by_cases hqq : a = .symbol "quasiquote"
      · rw [if_pos hqq] at he hl ⊢
        obtain ⟨r, hr, he⟩ := Option.bind_eq_some_iff.mp he
        rw [← hqq] at he
        simp only [ev_mcons_quoted h heq he, ihd hl hr]
      · rw [if_neg hqq] at he hl ⊢
        by_cases hu : a = .symbol "unquote" ∨ a = .symbol "unquote-splicing"
        · rw [if_pos hu] at hl ⊢
          have hmcons : ((foo eq plain vector level d).bind fun r =>
              mcons eq plain vector (.pair a d) (quoted a) r) = some e := by
            rcases hu with rfl | rfl
            · exact he
            · exact he
          obtain ⟨r, hr, he⟩ := Option.bind_eq_some_iff.mp hmcons
          simp only [ev_mcons_quoted h heq he, ihd hl hr]
        · rw [if_neg hu] at hl ⊢
          obtain ⟨hu, hs⟩ := not_or.mp hu
          rw [if_neg hu, if_neg hs] at he
          obtain ⟨l, hleft, he⟩ := Option.bind_eq_some_iff.mp he
          obtain ⟨r, hr, he⟩ := Option.bind_eq_some_iff.mp he
          rw [ev_mcons h heq he]
          simp only [iha (fun e' he' => hl e' (List.mem_append_left _ he')) hleft,
            ihd (fun e' he' => hl e' (List.mem_append_right _ he')) hr]
  | _ =>
    simp only [foo, Option.some.injEq] at he
    rw [← he]
    exact (ev_atom h).trans (by simp [Fills])

end

/-- The value of an expression in the three operators and variables, and the variables read. -/
def compute (plain : ℕ → Bool) (env : String → Option Val) :
    Val → List String → Option (Val × List String)
  | .pair (.symbol f) (.pair l rest), s =>
    if f = "quote" then some (l, s)
    else
      match rest with
      | .pair r .nil => do
        let (x, s₁) ← compute plain env l s
        let (y, s₂) ← compute plain env r s₁
        if f = "cons" then some (.pair x y, s₂)
        else if f = "append" then some (append x y, s₂)
        else none
      | _ => none
  | .symbol x, s => (env x).map fun v => (v, s ++ [x])
  | e, s => if isPlain plain e then some (e, s) else none

theorem reads_compute (plain : ℕ → Bool) (env : String → Option Val) :
    Reads plain fun e s v s' => compute plain env e s = some (v, s') where
  plain := by
    intro e s v s' he
    have hcompute : compute plain env e s = some (e, s) := by
      cases e <;> simp_all [compute, isPlain]
    rw [hcompute, Option.some.injEq, Prod.mk.injEq, eq_comm, eq_comm (a := s)]
  quote := by
    intro d rest s v s'
    have hcompute : compute plain env (.pair (.symbol "quote") (.pair d rest)) s = some (d, s) := by
      rw [compute.eq_def]
      exact if_pos rfl
    rw [hcompute, Option.some.injEq, Prod.mk.injEq, eq_comm, eq_comm (a := s)]
  cons := by
    intro l r s v s'
    have hcompute : compute plain env (.list [.symbol "cons", l, r]) s =
        (compute plain env l s).bind fun x => (compute plain env r x.2).bind fun y =>
          some (.pair x.1 y.1, y.2) := rfl
    simp only [hcompute, Option.bind_eq_some_iff, Prod.exists, Option.some.injEq, Prod.mk.injEq]
    constructor
    · rintro ⟨x, s₁, hx, y, _, hy, rfl, rfl⟩
      exact ⟨x, s₁, y, hx, hy, rfl⟩
    · rintro ⟨x, s₁, y, hx, hy, rfl⟩
      exact ⟨x, s₁, hx, y, s', hy, rfl, rfl⟩
  append := by
    intro l r s v s'
    have hcompute : compute plain env (.list [.symbol "append", l, r]) s =
        (compute plain env l s).bind fun x => (compute plain env r x.2).bind fun y =>
          some (append x.1 y.1, y.2) := rfl
    simp only [hcompute, Option.bind_eq_some_iff, Prod.exists, Option.some.injEq, Prod.mk.injEq]
    constructor
    · rintro ⟨x, s₁, hx, y, _, hy, rfl, rfl⟩
      exact ⟨x, s₁, y, hx, hy, rfl⟩
    · rintro ⟨x, s₁, y, hx, hy, rfl⟩
      exact ⟨x, s₁, hx, y, s', hy, rfl, rfl⟩

/-- The environment `((x . 3) (y . (1 2)))`. -/
def twoVariables (x : String) : Option Val :=
  if x = "x" then some (.integer 3)
  else if x = "y" then some (.list [.integer 1, .integer 2])
  else none

/-- The template of `` `(a ,x ,@y `(b ,(c ,x))) ``. -/
def nestedTemplate : Val :=
  .list [.symbol "a", .list [.symbol "unquote", .symbol "x"],
    .list [.symbol "unquote-splicing", .symbol "y"],
    .list [.symbol "quasiquote", .list [.symbol "b",
      .list [.symbol "unquote", .list [.symbol "c", .list [.symbol "unquote", .symbol "x"]]]]]]

end Extempore.Quasiquote
