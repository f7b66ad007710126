import Extempore.CellLists
import Extempore.CycleDetection

/-!
# Procedures on lists

`list?` follows the pairs with a slow and a fast pointer. `append` reverses what it has so far into
new pairs and turns these around, in front of the next list.
-/

namespace Extempore.ListProcedures

open CellLists CycleDetection Function

def isPair (m : Memory) (c : ℕ) : Bool :=
  match m.cells c with
  | .pair _ _ => true
  | _ => false

def car (m : Memory) (c : ℕ) : ℕ :=
  match (m.cells c).fields with
  | some (a, _) => a
  | none => 0

def cdr (m : Memory) (c : ℕ) : ℕ :=
  match (m.cells c).fields with
  | some (_, d) => d
  | none => 0

/-- The loop of `list?`; `none` is a loop that is not over after `fuel` rounds. -/
def listpLoop (m : Memory) : ℕ → ℕ → ℕ → Option Bool
  | 0, _, _ => none
  | fuel + 1, slow, fast =>
    if !isPair m fast then some (fast == 0)
    else if !isPair m (cdr m fast) then some (cdr m fast == 0)
    else if cdr m (cdr m fast) = cdr m slow then some false
    else listpLoop m fuel (cdr m slow) (cdr m (cdr m fast))

def listp (fuel : ℕ) (m : Memory) (args : ℕ) : Option Bool :=
  listpLoop m fuel (car m args) (car m args)

/-- The loop of `reverse`. -/
def consLoop : ℕ → Memory → ℕ → ℕ → Option (Memory × ℕ)
  | 0, _, _, _ => none
  | fuel + 1, m, a, p =>
    if isPair m a then consLoop fuel (cons m (car m a) p).1 (cdr m a) (cons m (car m a) p).2
    else some (m, p)

def reverse (fuel : ℕ) (m : Memory) (a : ℕ) : Option (Memory × ℕ) :=
  if a = 0 then some (m, 0) else consLoop fuel m a 0

/-- The second loop is that of `reverse_in_place`. -/
def append (fuel : ℕ) (m : Memory) (a b : ℕ) : Option (Memory × ℕ) :=
  if a = 0 then some (m, b)
  else (reverse fuel m a).bind fun r => reverseLoop fuel r.1 b r.2

/-- The loop of `OP_APPEND`, for the rest `y` of the arguments. -/
def appendLoop (fuel : ℕ) : ℕ → Memory → ℕ → ℕ → Option (Memory × ℕ)
  | 0, _, _, _ => none
  | rounds + 1, m, x, y =>
    if y = 0 then some (m, x)
    else (append fuel m x (car m y)).bind fun r => appendLoop fuel rounds r.1 r.2 (cdr r.1 y)

def opAppend (fuel : ℕ) (m : Memory) (args : ℕ) : Option (Memory × ℕ) :=
  if args = 0 then some (m, 0)
  else if cdr m args = 0 then some (m, args)
  else appendLoop fuel fuel m (car m args) (cdr m args)

variable {m : Memory}

theorem isPair_of_cell {c a d : ℕ} (h : m.cells c = .pair a d) : isPair m c = true := by
  rw [isPair, h]

theorem car_of_cell {c a d : ℕ} (h : m.cells c = .pair a d) : car m c = a := by
  rw [car, h]
  rfl

theorem cdr_of_cell {c a d : ℕ} (h : m.cells c = .pair a d) : cdr m c = d := by
  rw [cdr, h]
  rfl

theorem cell_of_isPair {c : ℕ} (h : isPair m c = true) : m.cells c = .pair (car m c) (cdr m c) := by
  rw [isPair] at h
  split at h
  · rename_i a d hcell
    rw [car_of_cell hcell, cdr_of_cell hcell, hcell]
  · cases h

theorem Closed.isPair_nil (hm : Closed m) : isPair m 0 = false := by
  rw [isPair, hm.nil_cell]

theorem Closed.car_lt (hm : Closed m) {c : ℕ} (hc : c < m.next) : car m c < m.next := by
  rw [car]
  split
  · rename_i a d hfields
    exact (hm.fields_lt c hc a d hfields).1
  · exact hm.next_pos

theorem Closed.cdr_lt (hm : Closed m) {c : ℕ} (hc : c < m.next) : cdr m c < m.next := by
  rw [cdr]
  split
  · rename_i a d hfields
    exact (hm.fields_lt c hc a d hfields).2
  · exact hm.next_pos

/-! ## The predicate for lists -/

/-- The loop is the one with a slow and a fast pointer. -/
theorem listpLoop_eq (fuel slow fast : ℕ) :
    listpLoop m fuel slow fast =
      (chase (cdr m) (fun c => !isPair m c) fuel slow fast).map fun
        | some y => y == 0
        | none => false := by
  induction fuel generalizing slow fast with
  | zero => rfl
  | succ fuel ih =>
    rw [listpLoop, chase]
    split
    · rfl
    · split
      · rfl
      · split
        · rfl
        · exact ih _ _

/-- The pairs of a proper list come to an end, which is `NIL`. -/
theorem ProperList.endsAfter (hm : Closed m) {c : ℕ} {xs : List ℕ} (h : ProperList m.cells c xs) :
    ∃ n, EndsAfter (cdr m) (fun c => !isPair m c) c n ∧ (cdr m)^[n] c = 0 := by
  induction h with
  | nil =>
    refine ⟨0, ⟨?_, fun j hj => absurd hj (Nat.not_lt_zero j)⟩, rfl⟩
    show (!isPair m 0) = true
    rw [Closed.isPair_nil hm]
    rfl
  | cons hne hcell _ ih =>
    obtain ⟨n, hends, hnil⟩ := ih
    rw [← cdr_of_cell hcell] at hends hnil
    refine ⟨n + 1, ⟨hends.stops, ?_⟩, hnil⟩
    intro j hj
    cases j with
    | zero =>
      show (!isPair m _) = false
      rw [iterate_zero_apply, isPair_of_cell hcell]
      rfl
    | succ j => exact hends.goes_on j (by omega)

theorem properList_of_endsAfter (hm : Closed m) {c n : ℕ}
    (h : EndsAfter (cdr m) (fun c => !isPair m c) c n) (hnil : (cdr m)^[n] c = 0) :
    ∃ xs, ProperList m.cells c xs := by
  induction n generalizing c with
  | zero =>
    obtain rfl : c = 0 := hnil
    exact ⟨[], .nil⟩
  | succ n ih =>
    have hpair : isPair m c = true := by
      have hgoes : (!isPair m c) = false := h.goes_on 0 (Nat.succ_pos n)
      rw [Bool.not_eq_false'] at hgoes
      exact hgoes
    obtain ⟨xs, hxs⟩ := ih ⟨h.stops, fun j hj => h.goes_on (j + 1) (Nat.succ_lt_succ hj)⟩ hnil
    refine ⟨car m c :: xs, .cons ?_ (cell_of_isPair hpair) hxs⟩
    rintro rfl
    rw [Closed.isPair_nil hm] at hpair
    cases hpair

/-- `list?` ends, also on pairs that go round in a cycle. -/
theorem listp_iff (hm : Closed m) {args fuel : ℕ} (hargs : args < m.next) (hfuel : m.next ≤ fuel) :
    ∃ b, listp fuel m args = some b ∧ (b = true ↔ ∃ xs, ProperList m.cells (car m args) xs) := by
  rw [listp, listpLoop_eq]
  generalize hx : car m args = x
  have hlt (j : ℕ) : (cdr m)^[j] x ∈ Finset.range m.next := by
    rw [Finset.mem_range]
    induction j with
    | zero =>
      rw [← hx]
      exact Closed.car_lt hm hargs
    | succ j ih =>
      rw [iterate_succ_apply']
      exact Closed.cdr_lt hm ih
  cases exists_endsAfter_or_endless (cdr m) (fun c => !isPair m c) x with
  | inl hends =>
    obtain ⟨n, hends⟩ := hends
    have hn := hends.lt_card fun j _ => hlt j
    rw [Finset.card_range] at hn
    rw [chase_of_ends hends (by omega)]
    refine ⟨(cdr m)^[n] x == 0, rfl, ?_⟩
    rw [beq_iff_eq]
    constructor
    · intro hnil
      exact properList_of_endsAfter hm hends hnil
    · intro ⟨xs, hxs⟩
      obtain ⟨n', hends', hnil⟩ := ProperList.endsAfter hm hxs
      rw [hends.unique hends', hnil]
  | inr hendless =>
    rw [chase_of_endless hendless hlt (by rw [Finset.card_range]; exact hfuel)]
    refine ⟨false, rfl, ?_⟩
    constructor
    · intro h
      cases h
    · intro ⟨xs, hxs⟩
      obtain ⟨n, hends, -⟩ := ProperList.endsAfter hm hxs
      exact absurd hendless hends.not_endless

/-- A list of three pairs, of which the last goes back to the second. -/
def cyclic : Memory where
  cells c := match c with
    | 0 => .object 0 0
    | 1 => .pair 2 0
    | 2 => .pair 0 3
    | 3 => .pair 0 4
    | 4 => .pair 0 3
    | _ => .atom
  next := 5
  oblist _ := none

theorem closed_cyclic : Closed cyclic where
  next_pos := by decide
  nil_cell := rfl
  fields_lt c hc a d h := by
    have hc' : c < 5 := hc
    show a < 5 ∧ d < 5
    match c, hc' with
    | 0, _ | 1, _ | 2, _ | 3, _ | 4, _ =>
      cases h
      decide

theorem listp_iff_cyclic :
    ∃ b, listp 5 cyclic 1 = some b ∧ (b = true ↔ ∃ xs, ProperList cyclic.cells 2 xs) :=
  listp_iff closed_cyclic (by decide) (by decide)

/-! ## Concatenation -/

theorem consLoop_eq {fuel a p : ℕ} {xs : List ℕ} (hm : Closed m) (ha : a < m.next) (hp : p < m.next)
    (h : ProperList m.cells a xs) (hfuel : xs.length < fuel) :
    consLoop fuel m a p = some (consAll m p xs) := by
  induction xs generalizing fuel m a p with
  | nil =>
    cases h
    obtain ⟨fuel, rfl⟩ := Nat.exists_eq_succ_of_ne_zero (Nat.ne_of_gt hfuel)
    rw [consLoop, if_neg (by rw [Closed.isPair_nil hm]; exact Bool.false_ne_true)]
    rfl
  | cons x xs ih =>
    cases h with
    | cons hne hcell htail =>
      obtain ⟨fuel, rfl⟩ := Nat.exists_eq_succ_of_ne_zero (Nat.ne_of_gt (Nat.zero_lt_of_lt hfuel))
      have hlt := hm.fields_lt _ ha _ _ (congrArg Cell.fields hcell)
      rw [consLoop, if_pos (isPair_of_cell hcell), car_of_cell hcell, cdr_of_cell hcell]
      have hclosed : Closed (cons m x p).1 := hm.alloc fun a d had => by
        cases had
        omega
      apply ih hclosed
      · exact Nat.lt_succ_of_lt hlt.2
      · exact Nat.lt_succ_self _
      · exact htail.congr hm hlt.2 fun c hc => alloc_of_lt hc
      · simpa using hfuel

/-- The memory and the value after the elements `xs` were put in new pairs in front of `b`. -/
structure Appended (m : Memory) (xs : List ℕ) (b : ℕ) (r : Memory × ℕ) : Prop where
  segment : Segment r.1.cells (copied m xs) r.2 b
  next_eq : r.1.next = m.next + xs.length
  cells_eq : ∀ c < m.next, r.1.cells c = m.cells c

theorem append_spec {fuel a b : ℕ} {xs : List ℕ} (hm : Closed m) (ha : a < m.next)
    (h : ProperList m.cells a xs) (hfuel : xs.length < fuel) :
    ∃ r, append fuel m a b = some r ∧ Appended m xs b r := by
  rw [append]
  by_cases hnil : a = 0
  · subst hnil
    have hxs : xs = [] := by
      cases h with
      | nil => rfl
      | cons hne => exact absurd rfl hne
    subst hxs
    rw [if_pos rfl]
    exact ⟨(m, b), rfl, rfl, rfl, fun _ _ => rfl⟩
  · rw [if_neg hnil, reverse, if_neg hnil, consLoop_eq hm ha hm.next_pos h hfuel, Option.bind_some]
    obtain ⟨m', y, hloop, hsegment, hnext, -, hcells⟩ := reverseLoop_consAll xs b hm.next_pos hfuel
    exact ⟨(m', y), hloop, hsegment, hnext, hcells⟩

theorem consLoop_eq_some {fuel a p : ℕ} {r : Memory × ℕ} (h : consLoop fuel m a p = some r) :
    ∃ xs, xs.length < fuel ∧ r = consAll m p xs := by
  induction fuel generalizing m a p with
  | zero => cases h
  | succ fuel ih =>
    rw [consLoop] at h
    split at h
    · obtain ⟨xs, hlt, hr⟩ := ih h
      exact ⟨car m a :: xs, Nat.succ_lt_succ hlt, hr⟩
    · cases h
      exact ⟨[], Nat.succ_pos _, rfl⟩

/-- No list is changed, whatever the arguments are. -/
theorem append_frame {fuel a b : ℕ} {r : Memory × ℕ} (hpos : 0 < m.next)
    (h : append fuel m a b = some r) :
    m.next ≤ r.1.next ∧ ∀ c < m.next, r.1.cells c = m.cells c := by
  rw [append] at h
  split at h
  · cases h
    exact ⟨Nat.le_refl _, fun _ _ => rfl⟩
  · rename_i hnil
    rw [reverse, if_neg hnil] at h
    obtain ⟨s, hs, hloop⟩ := Option.bind_eq_some_iff.mp h
    obtain ⟨xs, hlt, rfl⟩ := consLoop_eq_some hs
    obtain ⟨m', y, hloop', -, hnext, -, hcells⟩ := reverseLoop_consAll xs b hpos hlt
    rw [hloop'] at hloop
    cases hloop
    refine ⟨?_, hcells⟩
    rw [hnext]
    exact Nat.le_add_right _ _

theorem appendLoop_frame {fuel rounds x y : ℕ} {r : Memory × ℕ} (hpos : 0 < m.next)
    (h : appendLoop fuel rounds m x y = some r) : ∀ c < m.next, r.1.cells c = m.cells c := by
  induction rounds generalizing m x y with
  | zero => cases h
  | succ rounds ih =>
    rw [appendLoop] at h
    split at h
    · cases h
      exact fun _ _ => rfl
    · obtain ⟨s, hs, hloop⟩ := Option.bind_eq_some_iff.mp h
      obtain ⟨hle, hcells⟩ := append_frame hpos hs
      intro c hc
      rw [ih (Nat.lt_of_lt_of_le hpos hle) hloop c (Nat.lt_of_lt_of_le hc hle), hcells c hc]

theorem opAppend_frame {fuel args : ℕ} {r : Memory × ℕ} (hpos : 0 < m.next)
    (h : opAppend fuel m args = some r) : ∀ c < m.next, r.1.cells c = m.cells c := by
  rw [opAppend] at h
  split at h
  · cases h
    exact fun _ _ => rfl
  · split at h
    · cases h
      exact fun _ _ => rfl
    · exact appendLoop_frame hpos h

theorem Appended.closed {xs : List ℕ} {b : ℕ} {r : Memory × ℕ} (hm : Closed m)
    (hxs : ∀ x ∈ xs, x < m.next) (hb : b < m.next) (h : Appended m xs b r) :
    Closed r.1 ∧ r.2 < r.1.next := by
  have hle : m.next ≤ r.1.next := by
    rw [h.next_eq]
    exact Nat.le_add_right _ _
  have hlink {d : ℕ} (hd : d = b ∨ d ∈ (copied m xs).map Prod.fst) : d < r.1.next := by
    cases hd with
    | inl heq =>
      rw [heq]
      exact Nat.lt_of_lt_of_le hb hle
    | inr hmem =>
      rw [h.next_eq]
      exact (mem_copied.mp hmem).2
  refine ⟨⟨Nat.lt_of_lt_of_le hm.next_pos hle, ?_, ?_⟩, hlink h.segment.cell.1⟩
  · rw [h.cells_eq 0 hm.next_pos, hm.nil_cell]
  · intro c hc a d hfields
    by_cases hold : c < m.next
    · rw [h.cells_eq c hold] at hfields
      have := hm.fields_lt c hold a d hfields
      exact ⟨Nat.lt_of_lt_of_le this.1 hle, Nat.lt_of_lt_of_le this.2 hle⟩
    · rw [h.next_eq] at hc
      obtain ⟨p, hp, rfl⟩ := List.mem_map.mp (mem_copied.mpr ⟨Nat.le_of_not_lt hold, hc⟩)
      obtain ⟨e, hcell, he⟩ := h.segment.cell.2 p hp
      rw [hcell] at hfields
      cases hfields
      have hmem : p.2 ∈ (copied m xs).map Prod.snd := List.mem_map_of_mem hp
      rw [copied_snd] at hmem
      exact ⟨Nat.lt_of_lt_of_le (hxs _ hmem) hle, hlink he⟩

/-- The elements `xs` are in new pairs in front of `last`, and the cells that were there are as they
were. -/
structure EndsIn (m : Memory) (xs : List ℕ) (last : ℕ) (r : Memory × ℕ) : Prop where
  cells_eq : ∀ c < m.next, r.1.cells c = m.cells c
  segment : ∃ ps, ps.map Prod.snd = xs ∧ (∀ p ∈ ps, m.next ≤ p.1) ∧ (ps.map Prod.fst).Nodup ∧
    Segment r.1.cells ps r.2 last

theorem Appended.endsIn {xs : List ℕ} {b : ℕ} {r : Memory × ℕ} (h : Appended m xs b r) :
    EndsIn m xs b r where
  cells_eq := h.cells_eq
  segment := by
    refine ⟨copied m xs, copied_snd m xs, ?_, ?_, h.segment⟩
    · intro p hp
      exact (mem_copied.mp (List.mem_map_of_mem (f := Prod.fst) hp)).1
    · rw [copied_fst]
      exact List.nodup_range'

/-- The rest of the arguments is `b` and `ys`; what was appended so far is the proper list `x`. -/
theorem appendLoop_spec {fuel rounds x y b : ℕ} {xs ys : List ℕ} {xss : List (List ℕ)}
    (hm : Closed m) (hx : x < m.next) (hy : y < m.next) (hxs : ProperList m.cells x xs)
    (hys : ProperList m.cells y (b :: ys))
    (hlists : List.Forall₂ (ProperList m.cells) (b :: ys).dropLast xss)
    (hfuel : (xs ++ xss.flatten).length < fuel) (hrounds : ys.length + 1 < rounds) :
    ∃ r, appendLoop fuel rounds m x y = some r ∧
      EndsIn m (xs ++ xss.flatten) ((b :: ys).getLast (List.cons_ne_nil b ys)) r := by
  induction ys generalizing rounds m x y b xs xss with
  | nil =>
    cases hys with
    | cons hne hcell htail =>
      cases htail
      cases hlists
      obtain ⟨rounds, rfl⟩ : ∃ n, rounds = n + 1 + 1 := ⟨rounds - 2, by simp at hrounds; omega⟩
      rw [List.flatten_nil, List.append_nil] at hfuel ⊢
      obtain ⟨r, hr, happended⟩ := append_spec (b := b) hm hx hxs hfuel
      refine ⟨r, ?_, happended.endsIn⟩
      rw [appendLoop, if_neg hne, car_of_cell hcell, hr, Option.bind_some, cdr,
        happended.cells_eq y hy, hcell]
      rfl
  | cons b' ys ih =>
    cases hys with
    | cons hne hcell htail =>
      rw [List.dropLast_cons_cons] at hlists
      cases hlists with
      | cons hb hlists =>
        rename_i bs xss
        obtain ⟨rounds, rfl⟩ : ∃ n, rounds = n + 1 := ⟨rounds - 1, by omega⟩
        have hlt := hm.fields_lt y hy _ _ (congrArg Cell.fields hcell)
        rw [List.flatten_cons, ← List.append_assoc] at hfuel ⊢
        obtain ⟨r, hr, happended⟩ :=
          append_spec (b := b) hm hx hxs (Nat.lt_of_le_of_lt (by simp) hfuel)
        have hclosed := happended.closed hm (hxs.walk.lt hm hx) hlt.1
        have hle : m.next ≤ r.1.next := by
          rw [happended.next_eq]
          exact Nat.le_add_right _ _
        have hproper := happended.segment.properList (hb.congr hm hlt.1 happended.cells_eq)
        rw [copied_snd] at hproper
        have hrest := htail.congr hm hlt.2 happended.cells_eq
        have hlists' : List.Forall₂ (ProperList r.1.cells) (b' :: ys).dropLast xss := by
          have hlts : ∀ l ∈ (b' :: ys).dropLast, l < m.next := fun l hl =>
            htail.walk.lt hm hlt.2 l (List.dropLast_subset _ hl)
          apply ((List.forall₂_and_left _ _).mpr ⟨hlts, hlists⟩).imp
          intro l zs hl
          exact hl.2.congr hm hl.1 happended.cells_eq
        obtain ⟨r', hr', hends⟩ := ih hclosed.1 hclosed.2 (Nat.lt_of_lt_of_le hlt.2 hle) hproper
          hrest hlists' hfuel (by simpa using hrounds)
        refine ⟨r', ?_, fun c hc => ?_, ?_⟩
        · rw [appendLoop, if_neg hne, car_of_cell hcell, hr, Option.bind_some, cdr,
            happended.cells_eq y hy, hcell]
          exact hr'
        · rw [hends.cells_eq c (Nat.lt_of_lt_of_le hc hle), happended.cells_eq c hc]
        · obtain ⟨ps, hps, hnew, hnodup, hsegment⟩ := hends.segment
          exact ⟨ps, hps, fun p hp => Nat.le_trans hle (hnew p hp), hnodup, hsegment⟩

/-- The concatenation of lists: `NIL` if there are none, and else the elements of all lists but the
last, in front of the last. -/
def Concatenates (m : Memory) (ls xs : List ℕ) (r : Memory × ℕ) : Prop :=
  match ls.getLast? with
  | none => (∀ c < m.next, r.1.cells c = m.cells c) ∧ r.2 = 0
  | some last => EndsIn m xs last r

theorem endsIn_nil {last : ℕ} {r : Memory × ℕ} (h : EndsIn m [] last r) : r.2 = last := by
  obtain ⟨ps, hps, -, -, hsegment⟩ := h.segment
  rw [List.map_eq_nil_iff.mp hps] at hsegment
  exact hsegment

/-- With one argument, the value is the list of the arguments in place of the argument. -/
theorem concatenates_iff (hm : Closed m) {args fuel : ℕ} {ls : List ℕ} {xss : List (List ℕ)}
    (hargs : args < m.next) (hls : ProperList m.cells args ls)
    (hlists : List.Forall₂ (ProperList m.cells) ls.dropLast xss)
    (hfuel : xss.flatten.length + ls.length < fuel) :
    (∃ r, opAppend fuel m args = some r ∧ Concatenates m ls xss.flatten r) ↔
      ls.length ≠ 1 ∨ ls = [args] := by
  cases hls with
  | nil =>
    cases hlists
    refine ⟨fun _ => Or.inl (Nat.zero_ne_one), fun _ => ⟨(m, 0), rfl, fun _ _ => rfl, rfl⟩⟩
  | cons hne hcell htail =>
    rename_i a d as
    rw [opAppend, if_neg hne, car_of_cell hcell, cdr_of_cell hcell]
    have hlt := hm.fields_lt args hargs _ _ (congrArg Cell.fields hcell)
    cases as with
    | nil =>
      cases htail
      cases hlists
      rw [if_pos rfl]
      constructor
      · intro h
        obtain ⟨r, hr, hends⟩ := h
        cases hr
        have heq : args = a := endsIn_nil hends
        right
        rw [← heq]
      · intro h
        cases h with
        | inl h => exact absurd rfl h
        | inr h =>
          cases h
          exact ⟨(m, args), rfl, fun _ _ => rfl, [], rfl, by simp, List.nodup_nil, rfl⟩
    | cons b bs =>
      have hd : d ≠ 0 := by
        cases htail with
        | cons hd => exact hd
      rw [if_neg hd, List.dropLast_cons_cons] at *
      cases hlists with
      | cons ha hlists =>
        simp only [List.flatten_cons, List.length_cons] at hfuel
        have hrounds : bs.length + 1 < fuel := by omega
        obtain ⟨r, hr, hends⟩ :=
          appendLoop_spec hm hlt.1 hlt.2 ha htail hlists
            (Nat.lt_of_le_of_lt (Nat.le_add_right _ _) hfuel) hrounds
        refine ⟨fun _ => Or.inl (by simp), fun _ => ⟨r, hr, ?_⟩⟩
        rw [Concatenates, List.getLast?_cons_cons,
          List.getLast?_eq_some_getLast (List.cons_ne_nil b bs), List.flatten_cons]
        exact hends

/-- The arguments are one list, which has one element. -/
def oneList : Memory where
  cells c := match c with
    | 0 => .object 0 0
    | 1 => .pair 2 0
    | 2 => .pair 0 0
    | _ => .atom
  next := 3
  oblist _ := none

theorem closed_oneList : Closed oneList where
  next_pos := by decide
  nil_cell := rfl
  fields_lt c hc a d h := by
    have hc' : c < 3 := hc
    show a < 3 ∧ d < 3
    match c, hc' with
    | 0, _ | 1, _ | 2, _ =>
      cases h
      decide

theorem properList_oneList : ProperList oneList.cells 1 [2] := .cons (by decide) rfl .nil

theorem not_concatenates_oneList :
    ¬ ∀ (m : Memory) (args fuel : ℕ) (ls : List ℕ) (xss : List (List ℕ)), Closed m → args < m.next →
      ProperList m.cells args ls → List.Forall₂ (ProperList m.cells) ls.dropLast xss →
      xss.flatten.length + ls.length < fuel →
      ∃ r, opAppend fuel m args = some r ∧ Concatenates m ls xss.flatten r := by
  intro h
  obtain ⟨r, hr, hends⟩ := h oneList 1 2 [2] [] closed_oneList (by decide) properList_oneList .nil
    (by decide)
  cases hr
  have heq : 1 = 2 := endsIn_nil hends
  cases heq

/-- Two lists of one element. -/
def twoLists : Memory where
  cells c := match c with
    | 0 => .object 0 0
    | 1 => .pair 3 2
    | 2 => .pair 4 0
    | 3 => .pair 0 0
    | 4 => .pair 0 0
    | _ => .atom
  next := 5
  oblist _ := none

theorem closed_twoLists : Closed twoLists where
  next_pos := by decide
  nil_cell := rfl
  fields_lt c hc a d h := by
    have hc' : c < 5 := hc
    show a < 5 ∧ d < 5
    match c, hc' with
    | 0, _ | 1, _ | 2, _ | 3, _ | 4, _ =>
      cases h
      decide

theorem concatenates_twoLists :
    (∃ r, opAppend 4 twoLists 1 = some r ∧ Concatenates twoLists [3, 4] [0] r) ↔
      [3, 4].length ≠ 1 ∨ [3, 4] = [1] :=
  concatenates_iff closed_twoLists (by decide)
    (.cons (by decide) rfl (.cons (by decide) rfl .nil))
    (.cons (.cons (by decide) rfl .nil) .nil) (by decide)

end Extempore.ListProcedures
