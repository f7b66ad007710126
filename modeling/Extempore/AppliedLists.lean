import Mathlib.Logic.Relation
import Mathlib.Tactic.Ring
import Extempore.ListProcedures

/-!
# Calls with lists that are already there

`apply` hands the user's list itself to the procedure as the list of the arguments. `cons`, `list*`
and `apply` write to the last pair but one of the list they get.
-/

namespace Extempore.AppliedLists

open CellLists ListProcedures Relation

inductive Builtin where
  | cons | listStar | append | vector | apply
  deriving DecidableEq, Repr

/-- The least number of arguments in the dispatch table. -/
def Builtin.minArity : Builtin → ℤ
  | .cons => 2
  | .listStar | .apply => 1
  | .append | .vector => 0

/-- The greatest number of arguments; `INF_ARG` is `0xffff`. -/
def Builtin.maxArity : Builtin → ℤ
  | .cons => 2
  | .listStar | .apply | .append | .vector => 0xffff

/-- The loop of `list_length`. -/
def lengthLoop (m : Memory) : ℕ → ℕ → ℤ → Option ℤ
  | 0, _, _ => none
  | fuel + 1, a, v =>
    if isPair m a then lengthLoop m fuel (cdr m a) (v + 1) else some (if a = 0 then v else -1)

def listLength (fuel : ℕ) (m : Memory) (a : ℕ) : Option ℤ := lengthLoop m fuel a 0

/-- The loop of `list_star`, where `d` is a copy of the pair `p` of which only the `cdr` is used. -/
def starLoop : ℕ → Memory → ℕ → Option (Memory × ℕ)
  | 0, _, _ => none
  | fuel + 1, m, p =>
    if cdr m (cdr m p) = 0 then some (m, p)
    else
      let (m', d) := cons m (car m p) (cdr m p)
      starLoop fuel m' (if cdr m' (cdr m' p) = 0 then p else cdr m' d)

def listStar (fuel : ℕ) (m : Memory) (d : ℕ) : Option (Memory × ℕ) :=
  if cdr m d = 0 then some (m, car m d)
  else
    let (m', q) := cons m (car m d) (cdr m d)
    (starLoop fuel m' q).map fun r => (setCdr r.1 r.2 (car r.1 (cdr r.1 r.2)), q)

/-- The elements that `OP_VECTOR` puts in the new vector. -/
def elementsLoop (m : Memory) : ℕ → ℕ → Option (List ℕ)
  | 0, _ => none
  | fuel + 1, x =>
    if isPair m x then (elementsLoop m fuel (cdr m x)).map (car m x :: ·) else some []

/-- The machine at `OP_APPLY`, with a value, with a new vector, after an error, or at a procedure
that is not one of these. -/
inductive State where
  | apply (m : Memory) (code args : ℕ)
  | returned (m : Memory) (value : ℕ)
  | vector (m : Memory) (value : ℕ) (elements : List ℕ)
  | failed (m : Memory)
  | elsewhere (m : Memory) (code args : ℕ)

def State.memory : State → Memory
  | .apply m _ _ | .returned m _ | .vector m _ _ | .failed m | .elsewhere m _ _ => m

/-- The opcodes of the procedures. -/
def execute (fuel : ℕ) (m : Memory) (args : ℕ) : Builtin → Option State
  | .cons => some (.returned (setCdr m args (car m (cdr m args))) args)
  | .listStar => (listStar fuel m args).map fun r => .returned r.1 r.2
  | .append => (opAppend fuel m args).map fun r => .returned r.1 r.2
  | .vector => (elementsLoop m fuel args).map fun xs => .vector (m.alloc .atom) m.next xs
  | .apply =>
    (listStar fuel m (cdr m args)).map fun r =>
      if isPair r.1 r.2 = false ∧ r.2 ≠ 0 then .failed r.1 else .apply r.1 (car m args) r.2

/-- `OP_APPLY`, with the checks of the number of arguments in `Eval_Cycle`. -/
def step (procedure : ℕ → Option Builtin) (fuel : ℕ) : State → Option State
  | .apply m code args =>
    match procedure code with
    | none => some (.elsewhere m code args)
    | some f =>
      (listLength fuel m args).bind fun n =>
        if n < f.minArity ∨ f.maxArity < n then some (.failed m) else execute fuel m args f
  | _ => none

def Step (procedure : ℕ → Option Builtin) (s s' : State) : Prop :=
  ∃ fuel, step procedure fuel s = some s'

/-- `OP_E1ARGS` for the values of a combination, of which the first is the procedure. -/
def evalArgs (fuel : ℕ) : Memory → ℕ → List ℕ → Option State
  | m, args, [] =>
    (reverseInPlace fuel m 0 args).map fun r => .apply r.1 (car r.1 r.2) (cdr r.1 r.2)
  | m, args, value :: values => evalArgs fuel (cons m value args).1 (cons m value args).2 values

/-! ## What is written -/

/-- With `n` arguments, the procedure writes to the last pair but one of their list. -/
def Builtin.writes : Builtin → ℕ → Prop
  | .cons, n => n = 2
  | .listStar, n => 3 ≤ n ∧ n ≤ 0xffff
  | .apply, n => 4 ≤ n ∧ n ≤ 0xffff
  | .append, _ | .vector, _ => False

theorem Builtin.minArity_nonneg (f : Builtin) : 0 ≤ f.minArity := by
  cases f <;> simp [minArity]

theorem Builtin.writes.arity {f : Builtin} {n : ℕ} (h : f.writes n) :
    f.minArity ≤ n ∧ n ≤ f.maxArity := by
  cases f with
  | cons =>
    obtain rfl : n = 2 := h
    exact ⟨le_refl _, le_refl _⟩
  | listStar | apply =>
    rw [Builtin.writes] at h
    rw [minArity, maxArity]
    omega
  | append | vector => exact False.elim h

/-- What the last pair but one gets for its `cdr`. -/
def overwrite (m : Memory) (q : ℕ × ℕ) : ℕ → Cell :=
  Function.update m.cells q.1 (.pair q.2 (car m (cdr m q.1)))

/-- The pair `q` is written to when `code` is applied to `args`. -/
def Written (procedure : ℕ → Option Builtin) (m : Memory) (code args : ℕ) (q : ℕ × ℕ) : Prop :=
  ∃ f ps, procedure code = some f ∧ Chain m.cells ps args ∧ f.writes ps.length ∧
    ps.dropLast.getLast? = some q

/-- The pair that is written to was made after `base`, or it has that `cdr` already. -/
def Spares (procedure : ℕ → Option Builtin) (base : ℕ) : State → Prop
  | .apply m code args =>
    ∀ q, Written procedure m code args q → base ≤ q.1 ∨ cdr m q.1 = car m (cdr m q.1)
  | _ => True

/-- Cells that can be reached from the values. -/
inductive Reached (m : Memory) (values : List ℕ) : ℕ → Prop where
  | value {v : ℕ} : v ∈ values → Reached m values v
  | car {c a d : ℕ} : Reached m values c → (m.cells c).fields = some (a, d) → Reached m values a
  | cdr {c a d : ℕ} : Reached m values c → (m.cells c).fields = some (a, d) → Reached m values d

/-- The pairs that could be reached from the values are as they were. -/
def Kept (m : Memory) (values : List ℕ) (s : State) : Prop :=
  ∀ c < m.next, Reached m values c → isPair m c = true → s.memory.cells c = m.cells c

/-! ## The loops -/

variable {m m' : Memory} {fuel : ℕ}

theorem Chain.isPair {c x y : ℕ} {ps : List (ℕ × ℕ)} (h : Chain m.cells ((c, x) :: ps) y) :
    isPair m y = true := by
  obtain ⟨rfl, -, d, hcell, -⟩ := h
  exact isPair_of_cell hcell

theorem lengthLoop_of_chain {a : ℕ} {v : ℤ} {ps : List (ℕ × ℕ)} (hm : Closed m)
    (h : Chain m.cells ps a) (hfuel : ps.length < fuel) :
    lengthLoop m fuel a v = some (v + ps.length) := by
  induction ps generalizing fuel a v with
  | nil =>
    obtain ⟨fuel, rfl⟩ := Nat.exists_eq_succ_of_ne_zero (Nat.ne_of_gt hfuel)
    obtain rfl : a = 0 := h
    rw [lengthLoop, if_neg (by rw [Closed.isPair_nil hm]; exact Bool.false_ne_true), if_pos rfl]
    simp
  | cons p ps ih =>
    obtain ⟨fuel, rfl⟩ := Nat.exists_eq_succ_of_ne_zero (Nat.ne_of_gt (Nat.zero_lt_of_lt hfuel))
    rw [lengthLoop, if_pos (Chain.isPair h)]
    obtain ⟨c, x⟩ := p
    obtain ⟨rfl, -, d, hcell, hrest⟩ := h
    rw [cdr_of_cell hcell, ih hrest (by simpa using hfuel), List.length_cons]
    congr 1
    push_cast
    ring

/-- The loop is over when there is no pair; the length is `-1` when this is not `NIL`. -/
theorem lengthLoop_eq_some {a : ℕ} {v n : ℤ} (hm : Closed m) (h : lengthLoop m fuel a v = some n) :
    (n = -1 ∧ ∀ ps, ¬ Chain m.cells ps a) ∨
      ∃ ps, Chain m.cells ps a ∧ n = v + ps.length ∧ ps.length < fuel := by
  induction fuel generalizing a v with
  | zero => cases h
  | succ fuel ih =>
    rw [lengthLoop] at h
    split at h
    · rename_i hpair
      cases ih h with
      | inl h =>
        refine Or.inl ⟨h.1, fun ps hchain => ?_⟩
        cases ps with
        | nil =>
          obtain rfl : a = 0 := hchain
          rw [Closed.isPair_nil hm] at hpair
          cases hpair
        | cons p ps =>
          obtain ⟨c, x⟩ := p
          obtain ⟨rfl, -, d, hcell, hrest⟩ := hchain
          rw [cdr_of_cell hcell] at h
          exact h.2 ps hrest
      | inr h =>
        obtain ⟨ps, hchain, hn, hlt⟩ := h
        right
        refine ⟨(a, car m a) :: ps, ⟨rfl, ?_, cdr m a, cell_of_isPair hpair, hchain⟩, ?_, ?_⟩
        · rintro rfl
          rw [Closed.isPair_nil hm] at hpair
          cases hpair
        · rw [hn, List.length_cons]
          push_cast
          ring
        · simpa using hlt
    · split at h
      · rename_i hnil
        cases h
        exact Or.inr ⟨[], hnil, by simp, Nat.succ_pos _⟩
      · rename_i hpair hnil
        cases h
        refine Or.inl ⟨rfl, fun ps hchain => ?_⟩
        cases ps with
        | nil => exact hnil hchain
        | cons p ps => exact hpair (Chain.isPair hchain)

/-! ## The list of the arguments -/

/-- What is in the cells of `S` is in `S`. -/
structure Inside (base : ℕ) (S : ℕ → Prop) (m : Memory) : Prop extends Closed m where
  base_le : base ≤ m.next
  fields_inside : ∀ c < m.next, S c → ∀ a d, (m.cells c).fields = some (a, d) → S a ∧ S d

section inside

variable {base : ℕ} {S : ℕ → Prop} (hnil : S 0) (hnew : ∀ c, base ≤ c → S c)

include hnil in
theorem Inside.car (hm : Inside base S m) {c : ℕ} (hc : c < m.next) (hS : S c) : S (car m c) := by
  rw [ListProcedures.car]
  split
  · rename_i a d hfields
    exact (hm.fields_inside c hc hS a d hfields).1
  · exact hnil

include hnil in
theorem Inside.cdr (hm : Inside base S m) {c : ℕ} (hc : c < m.next) (hS : S c) : S (cdr m c) := by
  rw [ListProcedures.cdr]
  split
  · rename_i a d hfields
    exact (hm.fields_inside c hc hS a d hfields).2
  · exact hnil

theorem Inside.cons (hm : Inside base S m) {a d : ℕ} (ha : a < m.next ∧ S a)
    (hd : d < m.next ∧ S d) : Inside base S (cons m a d).1 where
  toClosed := hm.toClosed.alloc fun a' d' h => by
    cases h
    exact ⟨ha.1.le, hd.1.le⟩
  base_le := Nat.le_succ_of_le hm.base_le
  fields_inside c hc hS a' d' hfields := by
    by_cases heq : c = m.next
    · subst heq
      rw [CellLists.cons, alloc_next] at hfields
      cases hfields
      exact ⟨ha.2, hd.2⟩
    · have hc' : c < m.next + 1 := hc
      rw [CellLists.cons, alloc_of_lt (by omega)] at hfields
      exact hm.fields_inside c (by omega) hS a' d' hfields

/-- The `cdr` of a pair is overwritten. -/
theorem Inside.setCdr (hm : Inside base S m) {c x y d : ℕ} (hc : c < m.next) (hS : S c)
    (hne : c ≠ 0) (hcell : m.cells c = .pair x y) (hd : d < m.next ∧ S d) :
    Inside base S (setCdr m c d) ∧ (setCdr m c d).next = m.next ∧
      (setCdr m c d).cells = Function.update m.cells c (.pair x d) := by
  have hset : CellLists.setCdr m c d =
      { m with cells := Function.update m.cells c (.pair x d) } := by
    rw [CellLists.setCdr, hcell]
  rw [hset]
  refine ⟨⟨⟨hm.next_pos, ?_, ?_⟩, hm.base_le, ?_⟩, rfl, rfl⟩
  · exact (Function.update_of_ne hne.symm _ _).trans hm.nil_cell
  · intro b hb a' d' hfields
    by_cases heq : b = c
    · subst heq
      simp only [Function.update_self] at hfields
      cases hfields
      exact ⟨(hm.fields_lt b hb _ _ (congrArg Cell.fields hcell)).1, hd.1⟩
    · simp only [Function.update_of_ne heq] at hfields
      exact hm.fields_lt b hb a' d' hfields
  · intro b hb hSb a' d' hfields
    by_cases heq : b = c
    · subst heq
      simp only [Function.update_self] at hfields
      cases hfields
      exact ⟨(hm.fields_inside b hb hSb _ _ (congrArg Cell.fields hcell)).1, hd.2⟩
    · simp only [Function.update_of_ne heq] at hfields
      exact hm.fields_inside b hb hSb a' d' hfields

theorem Chain.lt {ps : List (ℕ × ℕ)} {y : ℕ} (hm : Closed m) (hy : y < m.next)
    (h : Chain m.cells ps y) : ∀ p ∈ ps, p.1 < m.next ∧ cdr m p.1 < m.next := by
  induction ps generalizing y with
  | nil => simp
  | cons p ps ih =>
    obtain ⟨c, x⟩ := p
    obtain ⟨rfl, -, d, hcell, hrest⟩ := h
    have hd := (hm.fields_lt y hy _ _ (congrArg Cell.fields hcell)).2
    intro p hp
    cases hp with
    | head => exact ⟨hy, by rw [cdr_of_cell hcell]; exact hd⟩
    | tail _ hp => exact ih hd hrest p hp

theorem starLoop_last {p x : ℕ} {q : ℕ × ℕ} (hchain : Chain m.cells [(p, x), q] p) :
    starLoop (fuel + 1) m p = some (m, p) := by
  obtain ⟨-, -, d, hcell, rfl, -, e, hcell', he⟩ := hchain
  obtain rfl : e = 0 := he
  rw [starLoop, cdr_of_cell hcell, cdr_of_cell hcell', if_pos rfl]

theorem starLoop_succ {p x : ℕ} {q q' : ℕ × ℕ} {ps : List (ℕ × ℕ)} (hm : Closed m) (hp : p < m.next)
    (hchain : Chain m.cells ((p, x) :: q :: q' :: ps) p) :
    starLoop (fuel + 1) m p = starLoop fuel (cons m x q.1).1 q.1 ∧
      Chain (cons m x q.1).1.cells (q :: q' :: ps) q.1 := by
  obtain ⟨-, -, d, hcell, hrest⟩ := hchain
  have hq := hrest
  obtain ⟨rfl, -, e, hcell', hrest'⟩ := hq
  have he : e ≠ 0 := by
    obtain ⟨rfl, hne, -⟩ := hrest'
    exact hne
  have hd := (hm.fields_lt p hp _ _ (congrArg Cell.fields hcell)).2
  have hold {c : ℕ} (hc : c < m.next) : (cons m x q.1).1.cells c = m.cells c := alloc_of_lt hc
  have hcellp : (cons m x q.1).1.cells p = .pair x q.1 := by rw [hold hp, hcell]
  have hcellq : (cons m x q.1).1.cells q.1 = .pair q.2 e := by rw [hold hd, hcell']
  have hnew : (cons m x q.1).1.cells (cons m x q.1).2 = .pair x q.1 := alloc_next _
  constructor
  · rw [starLoop, cdr_of_cell hcell, cdr_of_cell hcell', if_neg he, car_of_cell hcell]
    simp only [cdr_of_cell hcellp, cdr_of_cell hcellq, if_neg he, cdr_of_cell hnew]
  · apply hrest.congr
    intro b hb
    exact hold (Chain.lt hm hd hrest b hb).1

/-- The loop only makes new pairs, and stops at the last pair but one. -/
theorem starLoop_inv {p x : ℕ} {q : ℕ × ℕ} {ps : List (ℕ × ℕ)} {r : Memory × ℕ}
    (hm : Inside base S m) (hp : p < m.next) (hS : S p)
    (hchain : Chain m.cells ((p, x) :: q :: ps) p) (h : starLoop fuel m p = some r) :
    (Inside base S r.1 ∧ m.next ≤ r.1.next ∧ ∀ c < m.next, r.1.cells c = m.cells c) ∧
      S r.2 ∧ ∃ z, ((p, x) :: q :: ps).dropLast.getLast? = some (r.2, z) := by
  induction ps generalizing fuel m p x q with
  | nil =>
    cases fuel with
    | zero => cases h
    | succ fuel =>
      rw [starLoop_last hchain] at h
      cases h
      exact ⟨⟨hm, Nat.le_refl _, fun _ _ => rfl⟩, hS, x, rfl⟩
  | cons q' ps ih =>
    cases fuel with
    | zero => cases h
    | succ fuel =>
      obtain ⟨hsucc, hrest⟩ := starLoop_succ hm.toClosed hp hchain
      rw [hsucc] at h
      obtain ⟨-, -, d, hcell, rfl, -⟩ := hchain
      have hd := hm.fields_lt p hp _ _ (congrArg Cell.fields hcell)
      have hSd := hm.fields_inside p hp hS _ _ (congrArg Cell.fields hcell)
      have hm' := hm.cons ⟨hd.1, hSd.1⟩ ⟨hd.2, hSd.2⟩
      obtain ⟨⟨hin, hle, hcells⟩, hSr, z, hz⟩ := ih hm' (Nat.lt_succ_of_lt hd.2) hSd.2 hrest h
      refine ⟨⟨hin, Nat.le_of_succ_le hle, ?_⟩, hSr, z, hz⟩
      intro c hc
      rw [hcells c (Nat.lt_succ_of_lt hc)]
      exact alloc_of_lt hc

theorem exists_starLoop {p x : ℕ} {q : ℕ × ℕ} {ps : List (ℕ × ℕ)} (hm : Closed m) (hp : p < m.next)
    (hchain : Chain m.cells ((p, x) :: q :: ps) p) (hfuel : ps.length < fuel) :
    ∃ r, starLoop fuel m p = some r := by
  obtain ⟨fuel, rfl⟩ := Nat.exists_eq_succ_of_ne_zero (Nat.ne_of_gt (Nat.zero_lt_of_lt hfuel))
  induction ps generalizing fuel m p x q with
  | nil => exact ⟨(m, p), starLoop_last hchain⟩
  | cons q' ps ih =>
    rw [List.length_cons] at hfuel
    obtain ⟨fuel, rfl⟩ := Nat.exists_eq_succ_of_ne_zero (show fuel ≠ 0 by omega)
    obtain ⟨hsucc, hrest⟩ := starLoop_succ hm hp hchain
    rw [hsucc]
    obtain ⟨-, -, d, hcell, rfl, -⟩ := hchain
    have hd := hm.fields_lt p hp _ _ (congrArg Cell.fields hcell)
    have hm' : Closed (cons m x q.1).1 := hm.alloc fun a d had => by
      cases had
      omega
    exact ih hm' (Nat.lt_succ_of_lt hd.2) hrest fuel (by omega)

/-- A new pair in front of the rest. -/
theorem Chain.copyFirst {x d : ℕ} {ps : List (ℕ × ℕ)} (hm : Closed m) (hd : d < m.next)
    (h : Chain m.cells ps d) : Chain (CellLists.cons m x d).1.cells ((m.next, x) :: ps) m.next := by
  refine ⟨rfl, Nat.ne_of_gt hm.next_pos, d, alloc_next _, ?_⟩
  apply h.congr
  intro b hb
  exact alloc_of_lt (Chain.lt hm hd h b hb).1

/-- A pair of a chain has a cell, which is not `NIL`. -/
theorem Chain.mem {ps : List (ℕ × ℕ)} {y : ℕ} (h : Chain m.cells ps y) {q : ℕ × ℕ} (hq : q ∈ ps) :
    q.1 ≠ 0 ∧ m.cells q.1 = .pair q.2 (cdr m q.1) := by
  induction ps generalizing y with
  | nil => cases hq
  | cons p ps ih =>
    obtain ⟨c, x⟩ := p
    obtain ⟨rfl, hne, d, hcell, hrest⟩ := h
    cases hq with
    | head => exact ⟨hne, by rw [cdr_of_cell hcell, hcell]⟩
    | tail _ hq => exact ih hrest hq

theorem mem_of_dropLast_getLast? {ps : List (ℕ × ℕ)} {q : ℕ × ℕ}
    (h : ps.dropLast.getLast? = some q) : q ∈ ps :=
  List.dropLast_subset _ (List.mem_of_getLast? h)

theorem cdr_congr {c : ℕ} (h : m'.cells c = m.cells c) : cdr m' c = cdr m c := by
  rw [cdr, h, cdr]

theorem car_congr {c : ℕ} (h : m'.cells c = m.cells c) : car m' c = car m c := by
  rw [car, h, car]

include hnil hnew in
/-- `list*` writes to the last pair but one, unless this is the copy of the first pair. -/
theorem listStar_inv {d : ℕ} {ps : List (ℕ × ℕ)} {r : Memory × ℕ} (hm : Inside base S m)
    (hd : d < m.next) (hS : S d) (hchain : Chain m.cells ps d) (h : listStar fuel m d = some r) :
    Inside base S r.1 ∧ (r.2 < r.1.next ∧ S r.2) ∧ m.next ≤ r.1.next ∧
      (ps.length < 3 → ∀ c < m.next, r.1.cells c = m.cells c) ∧
      ∀ q, 3 ≤ ps.length → ps.dropLast.getLast? = some q →
        ∀ c < m.next, r.1.cells c = overwrite m q c := by
  rw [listStar] at h
  match ps, hchain with
  | [], hchain =>
    obtain rfl : d = 0 := hchain
    have hcar : car m 0 = 0 := by
      rw [car, hm.nil_cell]
      rfl
    rw [if_pos (by rw [cdr, hm.nil_cell]; rfl)] at h
    cases h
    refine ⟨hm, ?_, Nat.le_refl _, fun _ _ _ => rfl, fun q h => absurd h (by simp)⟩
    rw [hcar]
    exact ⟨hm.next_pos, hnil⟩
  | [(c, x)], hchain =>
    obtain ⟨rfl, -, e, hcell, he⟩ := hchain
    obtain rfl : e = 0 := he
    rw [if_pos (cdr_of_cell hcell)] at h
    cases h
    refine ⟨hm, ?_, Nat.le_refl _, fun _ _ _ => rfl, fun q h => absurd h (by simp)⟩
    exact ⟨Closed.car_lt hm.toClosed hd, hm.car hnil hd hS⟩
  | (c, x) :: q :: ps, hchain =>
    obtain ⟨rfl, -, e, hcell, hrest⟩ := hchain
    obtain ⟨rfl, hne⟩ : e = q.1 ∧ q.1 ≠ 0 := by
      obtain ⟨rfl, hne, -⟩ := hrest
      exact ⟨rfl, hne⟩
    rw [cdr_of_cell hcell, if_neg hne, car_of_cell hcell] at h
    obtain ⟨s, hs, rfl⟩ := Option.map_eq_some_iff.mp h
    have he := hm.fields_lt d hd _ _ (congrArg Cell.fields hcell)
    have hSe := hm.fields_inside d hd hS _ _ (congrArg Cell.fields hcell)
    have hm₁ := hm.cons ⟨he.1, hSe.1⟩ ⟨he.2, hSe.2⟩
    have hlt₁ : m.next < (cons m x q.1).1.next := Nat.lt_succ_self _
    have hold {b : ℕ} (hb : b < m.next) : (cons m x q.1).1.cells b = m.cells b := alloc_of_lt hb
    have hchain₁ := Chain.copyFirst (x := x) hm.toClosed he.2 hrest
    have hSnext : S m.next := hnew _ hm.base_le
    obtain ⟨⟨hin, hle, hcells⟩, hSs, z, hz⟩ := starLoop_inv hm₁ hlt₁ hSnext hchain₁ hs
    have hmem := mem_of_dropLast_getLast? hz
    have hs₁ := (Chain.lt hm₁.toClosed hlt₁ hchain₁ _ hmem).1
    obtain ⟨hs0, hcell₁⟩ := Chain.mem hchain₁ hmem
    rw [← hcells _ hs₁] at hcell₁
    have hs₂ := Nat.lt_of_lt_of_le hs₁ hle
    have hcdr := Closed.cdr_lt hin.toClosed hs₂
    have hvalue : car s.1 (cdr s.1 s.2) < s.1.next ∧ S (car s.1 (cdr s.1 s.2)) :=
      ⟨Closed.car_lt hin.toClosed hcdr, hin.car hnil hcdr (hin.cdr hnil hs₂ hSs)⟩
    obtain ⟨hset, hnext, hupdate⟩ := hin.setCdr hs₂ hSs hs0 hcell₁ hvalue
    refine ⟨hset, ⟨?_, hSnext⟩, ?_, ?_, ?_⟩
    · show m.next < (setCdr s.1 s.2 _).next
      rw [hnext]
      exact Nat.lt_of_lt_of_le hlt₁ hle
    · show m.next ≤ (setCdr s.1 s.2 _).next
      rw [hnext]
      exact (Nat.lt_of_lt_of_le hlt₁ hle).le
    · intro hlen b hb
      obtain rfl : ps = [] := by
        apply List.length_eq_zero_iff.mp
        simp only [List.length_cons] at hlen
        omega
      have hs : s.2 = m.next := (congrArg Prod.fst (Option.some.inj hz)).symm
      show (setCdr s.1 s.2 _).cells b = _
      rw [hupdate, hs, Function.update_of_ne (Nat.ne_of_lt hb), hcells b (Nat.lt_trans hb hlt₁),
        hold hb]
    · intro q₁ hlen hq₁ b hb
      show (setCdr s.1 s.2 _).cells b = _
      cases ps with
      | nil => exact absurd hlen (by simp)
      | cons q' ps =>
        obtain rfl : q₁ = (s.2, z) := Option.some.inj (hq₁.symm.trans hz)
        have hq := Chain.lt hm.toClosed he.2 hrest (s.2, z) (mem_of_dropLast_getLast? hz)
        rw [hupdate, overwrite]
        have hcdr' : cdr s.1 s.2 = cdr m s.2 :=
          cdr_congr ((hcells _ (Nat.lt_trans hq.1 hlt₁)).trans (hold hq.1))
        have hcar' : car s.1 (cdr m s.2) = car m (cdr m s.2) :=
          car_congr ((hcells _ (Nat.lt_trans hq.2 hlt₁)).trans (hold hq.2))
        rw [hcdr', hcar']
        by_cases heq : b = s.2
        · subst heq
          rw [Function.update_self, Function.update_self]
        · rw [Function.update_of_ne heq, Function.update_of_ne heq, hcells b (Nat.lt_trans hb hlt₁),
            hold hb]

theorem exists_listStar {d : ℕ} {ps : List (ℕ × ℕ)} (hm : Closed m) (hd : d < m.next)
    (hchain : Chain m.cells ps d) (hfuel : ps.length < fuel) : ∃ r, listStar fuel m d = some r := by
  rw [listStar]
  by_cases hcdr : cdr m d = 0
  · exact ⟨(m, car m d), if_pos hcdr⟩
  · rw [if_neg hcdr]
    match ps, hchain with
    | [], hchain =>
      obtain rfl : d = 0 := hchain
      exact absurd (by rw [cdr, hm.nil_cell]; rfl) hcdr
    | [(c, x)], hchain =>
      obtain ⟨rfl, -, e, hcell, he⟩ := hchain
      obtain rfl : e = 0 := he
      exact absurd (cdr_of_cell hcell) hcdr
    | (c, x) :: q :: ps, hchain =>
      obtain ⟨rfl, -, e, hcell, hrest⟩ := hchain
      obtain rfl : e = q.1 := hrest.1
      have he := hm.fields_lt d hd _ _ (congrArg Cell.fields hcell)
      rw [cdr_of_cell hcell, car_of_cell hcell]
      have hm₁ : Closed (cons m x q.1).1 := hm.alloc fun a d had => by
        cases had
        omega
      obtain ⟨s, hs⟩ := exists_starLoop hm₁ (Nat.lt_succ_self _) (Chain.copyFirst hm he.2 hrest)
        (show ps.length < fuel by simp only [List.length_cons] at hfuel; omega)
      exact ⟨_, Option.map_eq_some_iff.mpr ⟨s, hs, rfl⟩⟩

/-! ## One call -/

theorem Chain.unique {ps qs : List (ℕ × ℕ)} {y : ℕ} (h : Chain m.cells ps y)
    (h' : Chain m.cells qs y) : ps = qs := by
  induction ps generalizing qs y with
  | nil =>
    obtain rfl : y = 0 := h
    cases qs with
    | nil => rfl
    | cons q qs => exact absurd h'.1.symm h'.2.1
  | cons p ps ih =>
    obtain ⟨c, x⟩ := p
    obtain ⟨rfl, hne, d, hcell, hrest⟩ := h
    cases qs with
    | nil => exact absurd h' hne
    | cons q qs =>
      obtain ⟨c, x'⟩ := q
      obtain ⟨rfl, -, d', hcell', hrest'⟩ := h'
      rw [hcell] at hcell'
      cases hcell'
      rw [ih hrest hrest']

theorem dropLast_getLast?_cons (p : ℕ × ℕ) {ps : List (ℕ × ℕ)} (h : 2 ≤ ps.length) :
    (p :: ps).dropLast.getLast? = ps.dropLast.getLast? := by
  match ps, h with
  | _ :: _ :: _, _ => rfl

theorem exists_dropLast_getLast? {ps : List (ℕ × ℕ)} (h : 2 ≤ ps.length) :
    ∃ q, ps.dropLast.getLast? = some q := by
  match ps, h with
  | p :: q :: ps, _ =>
    rw [List.dropLast_cons_cons]
    exact ⟨_, List.getLast?_eq_some_getLast (List.cons_ne_nil _ _)⟩

variable {procedure : ℕ → Option Builtin} {code args : ℕ} {s s' : State}

theorem Written.eq {f : Builtin} {ps : List (ℕ × ℕ)} {q : ℕ × ℕ} (hf : procedure code = some f)
    (hchain : Chain m.cells ps args) (h : Written procedure m code args q) :
    f.writes ps.length ∧ ps.dropLast.getLast? = some q := by
  obtain ⟨f', ps', hf', hchain', hwrites, hq⟩ := h
  rw [hf] at hf'
  cases hf'
  rw [Chain.unique hchain hchain']
  exact ⟨hwrites, hq⟩

/-- A call writes to one pair at most of those that were there, and hands over no others. -/
structure StepInv (procedure : ℕ → Option Builtin) (base : ℕ) (S : ℕ → Prop) (m : Memory)
    (code args : ℕ) (s' : State) : Prop where
  writes : ∀ q, Written procedure m code args q → ∀ c < m.next,
    s'.memory.cells c = overwrite m q c
  keeps : (∀ q, ¬ Written procedure m code args q) → ∀ c < m.next, s'.memory.cells c = m.cells c
  apply : ∀ m' code' args', s' = .apply m' code' args' →
    Inside base S m' ∧ args' < m'.next ∧ S args' ∧ m.next ≤ m'.next

/-- A call that writes nothing, after which nothing is called. -/
theorem StepInv.of_keeps (hwritten : ∀ q, ¬ Written procedure m code args q)
    (hcells : ∀ c < m.next, s'.memory.cells c = m.cells c)
    (hs' : ∀ m' code' args', s' ≠ .apply m' code' args') :
    StepInv procedure base S m code args s' where
  writes q hq := absurd hq (hwritten q)
  keeps _ := hcells
  apply m' code' args' h := absurd h (hs' m' code' args')

include hnil hnew in
theorem execute_inv {f : Builtin} {ps : List (ℕ × ℕ)} (hm : Inside base S m) (hargs : args < m.next)
    (hS : S args) (hf : procedure code = some f) (hchain : Chain m.cells ps args)
    (harity : f.minArity ≤ ps.length ∧ ps.length ≤ f.maxArity)
    (h : execute fuel m args f = some s') : StepInv procedure base S m code args s' := by
  cases f with
  | cons =>
    cases h
    have hmin : (2 : ℤ) ≤ ps.length := harity.1
    have hmax : (ps.length : ℤ) ≤ 2 := harity.2
    obtain ⟨⟨c, x⟩, q, rfl⟩ := List.length_eq_two.mp (show ps.length = 2 by omega)
    have hfirst : Written procedure m code args (c, x) := ⟨.cons, _, hf, hchain, rfl, rfl⟩
    refine ⟨?_, fun hnone => absurd hfirst (hnone _), fun _ _ _ h => by cases h⟩
    intro q' hq' b hb
    obtain rfl : (c, x) = q' := Option.some.inj (hq'.eq hf hchain).2
    obtain ⟨rfl, -, d, hcell, -⟩ := hchain
    show (setCdr m args _).cells b = _
    rw [setCdr, hcell, overwrite]
  | listStar =>
    obtain ⟨r, hr, rfl⟩ := Option.map_eq_some_iff.mp h
    obtain ⟨-, -, -, hshort, hlong⟩ := listStar_inv hnil hnew hm hargs hS hchain hr
    refine ⟨?_, ?_, fun _ _ _ h => by cases h⟩
    · intro q hq
      have hq' := hq.eq hf hchain
      exact hlong q hq'.1.1 hq'.2
    · intro hnone
      apply hshort
      by_contra hlen
      obtain ⟨q, hq⟩ := exists_dropLast_getLast? (show 2 ≤ ps.length by omega)
      have hmax : (ps.length : ℤ) ≤ 0xffff := harity.2
      exact hnone q ⟨.listStar, ps, hf, hchain, ⟨by omega, by omega⟩, hq⟩
  | append =>
    obtain ⟨r, hr, rfl⟩ := Option.map_eq_some_iff.mp h
    apply StepInv.of_keeps (fun q hq => (hq.eq hf hchain).1)
    · exact opAppend_frame hm.next_pos hr
    · intro _ _ _ h
      cases h
  | vector =>
    obtain ⟨xs, -, rfl⟩ := Option.map_eq_some_iff.mp h
    apply StepInv.of_keeps (fun q hq => (hq.eq hf hchain).1)
    · intro c hc
      exact alloc_of_lt hc
    · intro _ _ _ h
      cases h
  | apply =>
    obtain ⟨r, hr, rfl⟩ := Option.map_eq_some_iff.mp h
    have hmin : (1 : ℤ) ≤ ps.length := harity.1
    have hmax : (ps.length : ℤ) ≤ 0xffff := harity.2
    obtain ⟨⟨c, x⟩, ps, rfl⟩ : ∃ p qs, ps = p :: qs := by
      apply List.exists_cons_of_length_pos
      omega
    have hrest : Chain m.cells ps (cdr m args) := by
      obtain ⟨rfl, -, d, hcell, hrest⟩ := hchain
      rw [cdr_of_cell hcell]
      exact hrest
    obtain ⟨hin, hvalue, hle, hshort, hlong⟩ := listStar_inv hnil hnew hm
      (Closed.cdr_lt hm.toClosed hargs) (hm.cdr hnil hargs hS) hrest hr
    rw [List.length_cons] at hmax
    have hmemory : State.memory (if isPair r.1 r.2 = false ∧ r.2 ≠ 0 then .failed r.1
        else .apply r.1 (car m args) r.2) = r.1 := by
      split <;> rfl
    refine ⟨?_, ?_, ?_⟩
    · intro q hq
      rw [hmemory]
      obtain ⟨hwrites, hq⟩ := hq.eq hf hchain
      rw [Builtin.writes, List.length_cons] at hwrites
      apply hlong q (by omega)
      rw [← hq, dropLast_getLast?_cons _ (by omega)]
    · intro hnone
      rw [hmemory]
      apply hshort
      by_contra hlen
      obtain ⟨q, hq⟩ := exists_dropLast_getLast? (show 2 ≤ ps.length by omega)
      refine hnone q ⟨.apply, _, hf, hchain, ?_, ?_⟩
      · rw [Builtin.writes, List.length_cons]
        omega
      · rw [← hq, dropLast_getLast?_cons _ (by omega)]
    · intro m' code' args' h
      split at h
      · cases h
      · cases h
        exact ⟨hin, hvalue.1, hvalue.2, hle⟩

include hnil hnew in
theorem step_inv (hm : Inside base S m) (hargs : args < m.next) (hS : S args)
    (h : step procedure fuel (.apply m code args) = some s') :
    StepInv procedure base S m code args s' := by
  rw [step] at h
  split at h
  · rename_i hf
    cases h
    refine .of_keeps ?_ (fun _ _ => rfl) (fun _ _ _ h => by cases h)
    intro q hq
    obtain ⟨f, -, hf', -⟩ := hq
    rw [hf] at hf'
    cases hf'
  · rename_i f hf
    obtain ⟨n, hn, h⟩ := Option.bind_eq_some_iff.mp h
    have hlength := lengthLoop_eq_some hm.toClosed hn
    split at h
    · rename_i hbad
      cases h
      refine .of_keeps ?_ (fun _ _ => rfl) (fun _ _ _ h => by cases h)
      intro q hq
      obtain ⟨f', ps, hf', hchain, hwrites, -⟩ := hq
      rw [hf] at hf'
      cases hf'
      cases hlength with
      | inl h => exact h.2 ps hchain
      | inr h =>
        obtain ⟨ps', hchain', rfl, -⟩ := h
        obtain rfl := Chain.unique hchain hchain'
        have := hwrites.arity
        omega
    · rename_i hok
      rw [not_or, not_lt, not_lt] at hok
      cases hlength with
      | inl h =>
        have := f.minArity_nonneg
        omega
      | inr hlength =>
        obtain ⟨ps, hchain, rfl, -⟩ := hlength
        rw [zero_add] at hok
        exact execute_inv hnil hnew hm hargs hS hf hchain hok h

theorem Chain.inside {ps : List (ℕ × ℕ)} {y : ℕ} (hm : Inside base S m) (hy : y < m.next)
    (hS : S y) (h : Chain m.cells ps y) : ∀ p ∈ ps, S p.1 := by
  induction ps generalizing y with
  | nil => simp
  | cons p ps ih =>
    obtain ⟨c, x⟩ := p
    obtain ⟨rfl, -, d, hcell, hrest⟩ := h
    have hd := (hm.fields_lt y hy _ _ (congrArg Cell.fields hcell)).2
    have hSd := (hm.fields_inside y hy hS _ _ (congrArg Cell.fields hcell)).2
    intro p hp
    cases hp with
    | head => exact hS
    | tail _ hp => exact ih hd hSd hrest p hp

end inside

theorem exists_step {q : ℕ × ℕ} (hm : Closed m) (hargs : args < m.next)
    (h : Written procedure m code args q) : ∃ s', Step procedure (.apply m code args) s' := by
  obtain ⟨f, ps, hf, hchain, hwrites, -⟩ := h
  have harity := hwrites.arity
  have hlength : listLength (ps.length + 1) m args = some (ps.length : ℤ) := by
    rw [listLength, lengthLoop_of_chain hm hchain (Nat.lt_succ_self _), zero_add]
  suffices hexecute : ∃ s', execute (ps.length + 1) m args f = some s' by
    obtain ⟨s', hs'⟩ := hexecute
    refine ⟨s', ps.length + 1, ?_⟩
    rw [step, hf]
    simp only [hlength, Option.bind_some]
    rw [if_neg (by omega), hs']
  cases f with
  | cons => exact ⟨_, rfl⟩
  | listStar =>
    obtain ⟨r, hr⟩ := exists_listStar hm hargs hchain (Nat.lt_succ_self _)
    exact ⟨_, Option.map_eq_some_iff.mpr ⟨r, hr, rfl⟩⟩
  | append | vector => exact False.elim hwrites
  | apply =>
    cases ps with
    | nil => exact absurd hwrites.1 (by simp)
    | cons p ps =>
      obtain ⟨rfl, -, d, hcell, hrest⟩ := hchain
      have hfuel : ps.length < (p :: ps).length + 1 := by
        simp only [List.length_cons]
        omega
      obtain ⟨r, hr⟩ :=
        exists_listStar hm (Closed.cdr_lt hm hargs) (cdr_of_cell hcell ▸ hrest) hfuel
      exact ⟨_, Option.map_eq_some_iff.mpr ⟨r, hr, rfl⟩⟩

/-! ## Runs -/

/-- `NIL`, the new cells and those that could be reached from the values. -/
def Known (m : Memory) (values : List ℕ) (c : ℕ) : Prop := c = 0 ∨ m.next ≤ c ∨ Reached m values c

/-- All cells are as they were, and the arguments are among the known cells. -/
structure Good (m : Memory) (values : List ℕ) (s : State) : Prop where
  kept : ∀ c < m.next, s.memory.cells c = m.cells c
  apply : ∀ m' code args, s = .apply m' code args →
    Inside m.next (Known m values) m' ∧ args < m'.next ∧ Known m values args

variable {values : List ℕ}

theorem Good.step (hs : Good m values s) (hspares : Spares procedure m.next s)
    (h : Step procedure s s') : Good m values s' := by
  obtain ⟨fuel, h⟩ := h
  match s with
  | .returned _ _ | .vector _ _ _ | .failed _ | .elsewhere _ _ _ => cases h
  | .apply m' code args =>
    obtain ⟨hm', hargs, hknown⟩ := hs.apply m' code args rfl
    have hinv := step_inv (Or.inl rfl) (fun c hc => Or.inr (Or.inl hc)) hm' hargs hknown h
    refine ⟨?_, fun m'' code' args' heq => ?_⟩
    · intro c hc
      have hold : m'.cells c = m.cells c := hs.kept c hc
      have hc' := Nat.lt_of_lt_of_le hc hm'.base_le
      rw [← hold]
      by_cases hwritten : ∃ q, Written procedure m' code args q
      · obtain ⟨q, hq⟩ := hwritten
        rw [hinv.writes q hq c hc', overwrite]
        by_cases heq : c = q.1
        · subst heq
          have hwrites := hq
          obtain ⟨f, ps, -, hchain, -, hlast⟩ := hwrites
          cases hspares q hq with
          | inl hnew => exact absurd hc (Nat.not_lt.mpr hnew)
          | inr hsame =>
            rw [Function.update_self, ← hsame]
            exact (Chain.mem hchain (mem_of_dropLast_getLast? hlast)).2.symm
        · exact Function.update_of_ne heq _ _
      · exact hinv.keeps (fun q hq => hwritten ⟨q, hq⟩) c hc'
    · obtain ⟨hin, hlt, hS, -⟩ := hinv.apply m'' code' args' heq
      exact ⟨hin, hlt, hS⟩

/-- A call that is not spared changes a pair that could be reached. -/
theorem Good.spares (hs : Good m values s)
    (hkept : ∀ s', Step procedure s s' → Kept m values s') : Spares procedure m.next s := by
  match s with
  | .returned _ _ | .vector _ _ _ | .failed _ | .elsewhere _ _ _ => exact True.intro
  | .apply m' code args =>
    intro q hq
    obtain ⟨hm', hargs, hknown⟩ := hs.apply m' code args rfl
    obtain ⟨s', hstep⟩ := exists_step hm'.toClosed hargs hq
    have hwrites := hq
    obtain ⟨f, ps, -, hchain, -, hlast⟩ := hwrites
    have hmem := mem_of_dropLast_getLast? hlast
    obtain ⟨hne, hcell⟩ := Chain.mem hchain hmem
    have hlt := (Chain.lt hm'.toClosed hargs hchain q hmem).1
    have hreached := Chain.inside hm' hargs hknown hchain q hmem
    by_contra hbad
    rw [not_or, Nat.not_le] at hbad
    have hold : m'.cells q.1 = m.cells q.1 := hs.kept q.1 hbad.1
    have hpair : isPair m q.1 = true := isPair_of_cell (hold ▸ hcell)
    have hafter : s'.memory.cells q.1 = m.cells q.1 := by
      cases hreached with
      | inl h => exact absurd h hne
      | inr h =>
        cases h with
        | inl h => exact absurd hbad.1 (Nat.not_lt.mpr h)
        | inr h => exact hkept s' hstep q.1 hbad.1 h hpair
    obtain ⟨fuel, hstep⟩ := hstep
    have hinv := step_inv (Or.inl rfl) (fun c hc => Or.inr (Or.inl hc)) hm' hargs hknown hstep
    rw [hinv.writes q hq q.1 hlt, overwrite, Function.update_self, ← hold, hcell] at hafter
    exact hbad.2 (Cell.pair.inj hafter).2.symm

theorem evalArgs_eq (values : List ℕ) (args : ℕ) :
    evalArgs fuel m args values =
      (reverseInPlace fuel (consAll m args values).1 0 (consAll m args values).2).map fun r =>
        .apply r.1 (car r.1 r.2) (cdr r.1 r.2) := by
  induction values generalizing m args with
  | nil => rfl
  | cons value values ih => exact ih _

/-- The list of the arguments is new. -/
theorem exists_good (hm : Closed m) (hvalues : ∀ v ∈ values, v < m.next)
    (hfuel : values.length < fuel) :
    ∃ s, evalArgs fuel m 0 values = some s ∧ Good m values s := by
  obtain ⟨m', y, hloop, hsegment, hnext, -, hcells⟩ :=
    reverseLoop_consAll values 0 hm.next_pos hfuel
  have happended : Appended m values 0 (m', y) := ⟨hsegment, hnext, hcells⟩
  obtain ⟨hclosed, hy⟩ := happended.closed hm hvalues hm.next_pos
  have hlink {d : ℕ} (hd : d = 0 ∨ d ∈ (copied m values).map Prod.fst) : Known m values d := by
    cases hd with
    | inl hnil => exact Or.inl hnil
    | inr hmem => exact Or.inr (Or.inl (mem_copied.mp hmem).1)
  have hin : Inside m.next (Known m values) m' := by
    refine ⟨hclosed, by rw [hnext]; exact Nat.le_add_right _ _, ?_⟩
    intro c hc hknown a d hfields
    by_cases hold : c < m.next
    · rw [hcells c hold] at hfields
      cases hknown with
      | inl hnil =>
        rw [hnil, hm.nil_cell] at hfields
        cases hfields
        exact ⟨Or.inl rfl, Or.inl rfl⟩
      | inr hknown =>
        cases hknown with
        | inl hnew => exact absurd hold (Nat.not_lt.mpr hnew)
        | inr hreached =>
          exact ⟨Or.inr (Or.inr (hreached.car hfields)), Or.inr (Or.inr (hreached.cdr hfields))⟩
    · rw [hnext] at hc
      obtain ⟨p, hp, rfl⟩ := List.mem_map.mp (mem_copied.mpr ⟨Nat.le_of_not_lt hold, hc⟩)
      obtain ⟨e, hcell, he⟩ := hsegment.cell.2 p hp
      rw [hcell] at hfields
      cases hfields
      have hmem : p.2 ∈ (copied m values).map Prod.snd := List.mem_map_of_mem hp
      rw [copied_snd] at hmem
      exact ⟨Or.inr (Or.inr (.value hmem)), hlink he⟩
  refine ⟨.apply m' (car m' y) (cdr m' y), ?_, hcells, ?_⟩
  · rw [evalArgs_eq]
    exact Option.map_eq_some_iff.mpr ⟨(m', y), hloop, rfl⟩
  · intro m'' code args h
    cases h
    exact ⟨hin, Closed.cdr_lt hclosed hy, hin.cdr (Or.inl rfl) hy (hlink hsegment.cell.1)⟩

/-- Every call on the way keeps what the values have, exactly when each of them spares it. -/
theorem kept_iff (procedure : ℕ → Option Builtin) (hm : Closed m)
    (hvalues : ∀ v ∈ values, v < m.next) (hfuel : values.length < fuel) :
    ∃ s₀, evalArgs fuel m 0 values = some s₀ ∧
      ((∀ s, ReflTransGen (Step procedure) s₀ s → Kept m values s) ↔
        ∀ s, ReflTransGen (Step procedure) s₀ s → Spares procedure m.next s) := by
  obtain ⟨s₀, hs₀, hgood⟩ := exists_good hm hvalues hfuel
  refine ⟨s₀, hs₀, ?_⟩
  constructor
  · intro hkept s hrun
    have hspares {s : State} (hs : Good m values s) (hrun : ReflTransGen (Step procedure) s₀ s) :
        Spares procedure m.next s := hs.spares fun s' h => hkept s' (hrun.tail h)
    have hall : Good m values s := by
      induction hrun with
      | refl => exact hgood
      | tail hrun hstep ih => exact ih.step (hspares ih hrun) hstep
    exact hspares hall hrun
  · intro hspares s hrun
    have hall : Good m values s := by
      induction hrun with
      | refl => exact hgood
      | tail hrun hstep ih => exact ih.step (hspares _ hrun) hstep
    exact fun c hc _ _ => hall.kept c hc

/-- `apply`, `cons` and a list of two elements. -/
def callerList : Memory where
  cells c := match c with
    | 0 => .object 0 0
    | 3 => .pair 5 4
    | 4 => .pair 6 0
    | _ => .atom
  next := 7
  oblist _ := none

def callerProcedures : ℕ → Option Builtin
  | 1 => some .apply
  | 2 => some .cons
  | _ => none

theorem closed_callerList : Closed callerList where
  next_pos := by decide
  nil_cell := rfl
  fields_lt c hc a d h := by
    have hc' : c < 7 := hc
    show a < 7 ∧ d < 7
    match c, hc' with
    | 0, _ | 3, _ | 4, _ =>
      cases h
      decide
    | 1, _ | 2, _ | 5, _ | 6, _ => cases h

theorem kept_iff_callerList :
    ∃ s₀, evalArgs 4 callerList 0 [1, 2, 3] = some s₀ ∧
      ((∀ s, ReflTransGen (Step callerProcedures) s₀ s → Kept callerList [1, 2, 3] s) ↔
        ∀ s, ReflTransGen (Step callerProcedures) s₀ s → Spares callerProcedures 7 s) :=
  kept_iff callerProcedures closed_callerList (by decide) (by decide)

/-- `(apply cons l)` for a list `l` of two elements makes `l` into their pair. -/
theorem not_kept_callerList :
    ¬ ∀ (procedure : ℕ → Option Builtin) (m : Memory) (values : List ℕ) (fuel : ℕ) (s₀ s : State),
      Closed m → (∀ v ∈ values, v < m.next) → evalArgs fuel m 0 values = some s₀ →
      ReflTransGen (Step procedure) s₀ s → Kept m values s := by
  intro h
  have hrun : ∃ s, ReflTransGen (Step callerProcedures)
      ((evalArgs 4 callerList 0 [1, 2, 3]).getD (.failed callerList)) s ∧
      s.memory.cells 3 = .pair 5 6 :=
    ⟨_, .tail (.tail .refl ⟨4, rfl⟩) ⟨4, rfl⟩, rfl⟩
  obtain ⟨s, hrun, hcell⟩ := hrun
  have hkept := h callerProcedures callerList [1, 2, 3] 4 _ s closed_callerList (by decide) rfl hrun
  have hreached : Reached callerList [1, 2, 3] 3 := .value (by decide)
  have hsame := hkept 3 (by decide) hreached rfl
  rw [hcell] at hsame
  cases hsame

/-- The pairs of the arguments of a combination are new. -/
theorem spares_evalArgs {s₀ : State} (hm : Closed m) (hvalues : ∀ v ∈ values, v < m.next)
    (hfuel : values.length < fuel) (h : evalArgs fuel m 0 values = some s₀) :
    Spares procedure m.next s₀ := by
  obtain ⟨m', y, hloop, hsegment, hnext, -, hcells⟩ :=
    reverseLoop_consAll values 0 hm.next_pos hfuel
  have happended : Appended m values 0 (m', y) := ⟨hsegment, hnext, hcells⟩
  have hclosed := happended.closed hm hvalues hm.next_pos
  rw [evalArgs_eq, reverseInPlace, hloop] at h
  cases h
  intro q hq
  obtain ⟨f, ps, -, hchain, -, hlast⟩ := hq
  have hmem := mem_of_dropLast_getLast? hlast
  left
  have hall := chain_iff_segment.mpr hsegment
  have hsub : ∀ p ∈ ps, p ∈ copied m values := by
    cases hcopied : copied m values with
    | nil =>
      rw [hcopied] at hall
      obtain rfl : y = 0 := hall
      have hcdr : cdr m' 0 = 0 := by
        rw [cdr, hclosed.1.nil_cell]
        rfl
      rw [show cdr (m', 0).1 (m', 0).2 = 0 from hcdr] at hchain
      rw [Chain.unique hchain (show Chain m'.cells [] 0 from rfl)]
      exact fun _ hp => hp
    | cons p ps' =>
      rw [hcopied] at hall
      obtain ⟨c, x⟩ := p
      obtain ⟨rfl, -, d, hcell, hrest⟩ := hall
      rw [show cdr (m', y).1 (m', y).2 = d from cdr_of_cell hcell] at hchain
      rw [Chain.unique hchain hrest]
      exact fun _ hp => List.mem_cons_of_mem _ hp
  exact (mem_copied.mp (List.mem_map_of_mem (hsub q hmem))).1

/-- Only `apply` calls another procedure. -/
theorem step_of_not_apply {f : Builtin} (hf : procedure code = some f) (hne : f ≠ .apply)
    (h : step procedure fuel (.apply m code args) = some s') (s'' : State) :
    ¬ Step procedure s' s'' := by
  rw [step, hf] at h
  obtain ⟨n, -, h⟩ := Option.bind_eq_some_iff.mp h
  rintro ⟨fuel', h'⟩
  split at h
  · cases h
    cases h'
  · cases f with
    | cons =>
      cases h
      cases h'
    | listStar | append | vector =>
      obtain ⟨r, -, rfl⟩ := Option.map_eq_some_iff.mp h
      cases h'
    | apply => exact hne rfl

/-- A call of a procedure that is not `apply` keeps what its arguments have. -/
theorem kept_of_not_apply {s₀ : State} {v : ℕ} {f : Builtin} (hm : Closed m)
    (hvalues : ∀ w ∈ v :: values, w < m.next) (hfuel : (v :: values).length < fuel)
    (h : evalArgs fuel m 0 (v :: values) = some s₀) (hv : procedure v = some f) (hf : f ≠ .apply)
    (hrun : ReflTransGen (Step procedure) s₀ s) : Kept m (v :: values) s := by
  obtain ⟨s₁, hs₁, hgood⟩ := exists_good hm hvalues hfuel
  rw [h] at hs₁
  cases hs₁
  obtain ⟨m', y, hloop, hsegment, -⟩ := reverseLoop_consAll (v :: values) 0 hm.next_pos hfuel
  obtain ⟨args, rfl⟩ : ∃ args, s₀ = .apply m' v args := by
    rw [evalArgs_eq, reverseInPlace, hloop] at h
    obtain ⟨rfl, -, d, hcell, -⟩ := hsegment
    cases h
    refine ⟨cdr m' m.next, ?_⟩
    show State.apply m' (car m' m.next) _ = _
    rw [car_of_cell hcell]
  have hspares : Spares procedure m.next _ := spares_evalArgs hm hvalues hfuel h
  have hall : Good m (v :: values) s := by
    cases ReflTransGen.cases_head hrun with
    | inl heq =>
      rw [← heq]
      exact hgood
    | inr hhead =>
      obtain ⟨s', hstep, hrest⟩ := hhead
      have hnext := hgood.step hspares hstep
      obtain ⟨fuel', hstep⟩ := hstep
      cases ReflTransGen.cases_head hrest with
      | inl heq =>
        rw [← heq]
        exact hnext
      | inr hmore =>
        obtain ⟨s'', hmore, -⟩ := hmore
        exact absurd hmore (step_of_not_apply hv hf hstep s'')
  exact fun c hc _ _ => hall.kept c hc

end Extempore.AppliedLists
