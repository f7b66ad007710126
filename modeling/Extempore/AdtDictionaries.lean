import Extempore.AdtCells

/-!
# Association dictionaries

`dict_get`, `dict_set` and `dict_update` of `libs/core/adt.xtm`: a dictionary is a list of pointers
to pairs of a key and a value. An existing pair is overwritten in place, a new one is put into a new
cell behind the last cell of the list. Seen through `dict_get` a dictionary is a function from keys
to values, null being the value of a key without a pair, and the calls update this function.
-/

namespace Extempore.AdtDictionaries

open SinglyLinkedCells AdtCells

/-- The text of a `String`: its bytes in front of the terminating one. -/
abbrev Text := List UInt8

def strcmp : Text → Text → ℤ
  | [], [] => 0
  | [], _ :: _ => -1
  | _ :: _, [] => 1
  | a :: s, b :: t => if a = b then strcmp s t else if a < b then -1 else 1

/-- `equal` of two strings. -/
def equal (s₁ s₂ : Text) : Bool := decide (strcmp s₁ s₂ = 0)

theorem equal_iff (s t : Text) : equal s t = true ↔ s = t := by
  unfold equal
  rw [decide_eq_true_iff]
  induction s generalizing t with
  | nil => cases t <;> simp [strcmp]
  | cons a s ih =>
    cases t with
    | nil => simp [strcmp]
    | cons b t =>
      rw [strcmp, List.cons.injEq]
      by_cases hab : a = b
      · rw [if_pos hab, ih]
        exact ⟨fun h => ⟨hab, h⟩, fun h => h.2⟩
      · rw [if_neg hab]
        exact ⟨fun h => (by split at h <;> cases h), fun h => absurd h.1 hab⟩

variable {V : Type}

/-- The cells of the lists, with the addresses of pairs, and the pairs. -/
structure DictMemory (V : Type) where
  lists : ListMemory ℕ
  pairs : Memory (Text × V)

/-- `last` -/
def last : ℕ → ListMemory ℕ → Option ℕ → Option (Option ℕ)
  | 0, _, _ => none
  | fuel + 1, m, a => do
    let rest ← cdr m a
    if rest = none then some a else last fuel m rest

def appendDestructive (fuel : ℕ) (m : ListMemory ℕ) (a b : Option ℕ) :
    Option (ListMemory ℕ × Option ℕ) :=
  match a with
  | none => some (m, b)
  | some _ => do
    let end_ ← last fuel m a
    let m ← setCdr m end_ b
    some (m, a)

section Null

variable (null : V)

def dictGet : ℕ → DictMemory V → Option ℕ → Text → Option V
  | 0, _, _, _ => none
  | _ + 1, _, none, _ => some null
  | fuel + 1, m, some a, key => do
    let address ← car m.lists (some a)
    let pair ← m.pairs.read (some address)
    if equal pair.1 key then some pair.2
    else
      let rest ← cdr m.lists (some a)
      dictGet fuel m rest key

/-- What `dict_set` and `dict_update` share: they differ in the value that is stored, given the
old one. The old value is returned. -/
def dictStore (newValue : V → V) :
    ℕ → DictMemory V → Option ℕ → Text → Option (DictMemory V × V)
  | 0, _, _, _ => none
  | _ + 1, m, none, _ => some (m, null)
  | fuel + 1, m, some a, key => do
    let address ← car m.lists (some a)
    let pair ← m.pairs.read (some address)
    if equal pair.1 key then
      let pairs ← m.pairs.modify (some address) fun pair => (pair.1, newValue pair.2)
      some ({ m with pairs := pairs }, pair.2)
    else
      let rest ← cdr m.lists (some a)
      if rest = none then
        let cell := cons m.lists m.pairs.bound none
        let appended ← appendDestructive fuel cell.1 (some a) cell.2
        some (⟨appended.1, m.pairs.alloc (key, newValue null)⟩, null)
      else dictStore newValue fuel m rest key

def dictSet (fuel : ℕ) (m : DictMemory V) (dict : Option ℕ) (key : Text) (value : V) :
    Option (DictMemory V × V) :=
  dictStore null (fun _ => value) fuel m dict key

def dictUpdate (fuel : ℕ) (m : DictMemory V) (dict : Option ℕ) (key : Text) (updateFn : V → V) :
    Option (DictMemory V × V) :=
  dictStore null updateFn fuel m dict key

end Null

/-- A call that changes a dictionary. -/
inductive Call (V : Type)
  | set (key : Text) (value : V)
  | update (key : Text) (updateFn : V → V)

def Call.key : Call V → Text
  | .set key _ => key
  | .update key _ => key

/-- The value that is stored, from the one before. -/
def Call.newValue : Call V → V → V
  | .set _ value => fun _ => value
  | .update _ updateFn => updateFn

def Call.run (null : V) (fuel : ℕ) (m : DictMemory V) (dict : Option ℕ) :
    Call V → Option (DictMemory V × V)
  | .set key value => dictSet null fuel m dict key value
  | .update key updateFn => dictUpdate null fuel m dict key updateFn

/-- The calls in order, with what they return. -/
def runCalls (null : V) (fuel : ℕ) (dict : Option ℕ) :
    DictMemory V → List (Call V) → Option (DictMemory V × List V)
  | m, [] => some (m, [])
  | m, call :: calls => do
    let called ← call.run null fuel m dict
    let rest ← runCalls null fuel dict called.1 calls
    some (rest.1, called.2 :: rest.2)

/-- The function from keys to values after the calls. -/
def valuesAfter : (Text → V) → List (Call V) → Text → V
  | f, [] => f
  | f, call :: calls => valuesAfter (Function.update f call.key (call.newValue (f call.key))) calls

/-- For each call the value that was there before it. -/
def valuesBefore : (Text → V) → List (Call V) → List V
  | _, [] => []
  | f, call :: calls =>
    f call.key :: valuesBefore (Function.update f call.key (call.newValue (f call.key))) calls

/-! ## Entries -/

/-- The list at the pointer, with the addresses of its cells and of its pairs. -/
structure Entries (m : DictMemory V) (dict : Option ℕ) (l : List (ℕ × ℕ)) (es : List (Text × V)) :
    Prop where
  segment : Segment m.lists.cells dict l none
  pairs : l.map (fun ax => m.pairs.cells ax.2) = es.map some

/-- A dictionary with these entries, of distinct keys. -/
def Dictionary (m : DictMemory V) (dict : Option ℕ) (es : List (Text × V)) : Prop :=
  (∃ l, Entries m dict l es) ∧ (es.map Prod.fst).Nodup

/-- The value of a key. -/
def lookup (null : V) : List (Text × V) → Text → V
  | [], _ => null
  | (k, v) :: es, key => if k = key then v else lookup null es key

/-- The entries after a new value was stored. -/
def stored (null : V) (newValue : V → V) : List (Text × V) → Text → List (Text × V)
  | [], key => [(key, newValue null)]
  | (k, v) :: es, key =>
    if k = key then (k, newValue v) :: es else (k, v) :: stored null newValue es key

variable {null : V} {newValue : V → V} {m : DictMemory V} {dict : Option ℕ} {l : List (ℕ × ℕ)}
  {es : List (Text × V)} {key : Text} {fuel : ℕ}

theorem lookup_stored (es : List (Text × V)) (key k : Text) :
    lookup null (stored null newValue es key) k =
      if k = key then newValue (lookup null es key) else lookup null es k := by
  induction es with
  | nil =>
    rw [stored, lookup, lookup, lookup]
    by_cases hk : k = key
    · rw [if_pos hk.symm, if_pos hk]
    · rw [if_neg (Ne.symm hk), if_neg hk]
      rfl
  | cons e es ih =>
    rw [stored]
    by_cases he : e.1 = key
    · rw [if_pos he, lookup, lookup, lookup, if_pos he, he]
      by_cases hk : k = key
      · rw [if_pos hk.symm, if_pos hk]
      · rw [if_neg (Ne.symm hk), if_neg hk, if_neg (Ne.symm hk)]
    · rw [if_neg he, lookup, lookup, lookup, if_neg he, ih]
      by_cases hek : e.1 = k
      · rw [if_pos hek, if_pos hek, if_neg (hek ▸ he)]
      · rw [if_neg hek, if_neg hek]

theorem mem_keys_stored (es : List (Text × V)) (key k : Text) :
    k ∈ (stored null newValue es key).map Prod.fst ↔ k ∈ es.map Prod.fst ∨ k = key := by
  induction es with
  | nil => simp [stored]
  | cons e es ih =>
    rw [stored]
    by_cases he : e.1 = key
    · rw [if_pos he, List.map_cons, List.map_cons, List.mem_cons, ← he]
      exact ⟨Or.inl, fun h => h.elim id Or.inl⟩
    · rw [if_neg he, List.map_cons, List.map_cons, List.mem_cons, List.mem_cons, ih, or_assoc]

theorem nodup_keys_stored (h : (es.map Prod.fst).Nodup) (key : Text) :
    ((stored null newValue es key).map Prod.fst).Nodup := by
  induction es with
  | nil => exact List.nodup_singleton key
  | cons e es ih =>
    rw [List.map_cons, List.nodup_cons] at h
    rw [stored]
    by_cases he : e.1 = key
    · rw [if_pos he]
      exact List.nodup_cons.mpr h
    · rw [if_neg he, List.map_cons, List.nodup_cons, mem_keys_stored, not_or]
      exact ⟨⟨h.1, he⟩, ih h.2⟩

/-! ## One call -/

theorem Entries.tail {ax : ℕ × ℕ} {e : Text × V} (h : Entries m dict (ax :: l) (e :: es)) :
    ∃ c, dict = some ax.1 ∧ m.lists.cells ax.1 = some c ∧ c.value = ax.2 ∧
      m.pairs.cells ax.2 = some e ∧ Entries m c.next l es := by
  rcases h with ⟨⟨hp, c, hc, hx, hrest⟩, hpairs⟩
  rw [List.map_cons, List.map_cons, List.cons.injEq] at hpairs
  exact ⟨c, hp, hc, hx, hpairs.1, hrest, hpairs.2⟩

theorem Entries.length_eq (h : Entries m dict l es) : l.length = es.length := by
  have hlen := congrArg List.length h.pairs
  rwa [List.length_map, List.length_map] at hlen

theorem dictGet_entries (h : Entries m dict l es) (hfuel : es.length < fuel) (key : Text) :
    dictGet null fuel m dict key = some (lookup null es key) := by
  induction es generalizing fuel dict l with
  | nil =>
    cases List.eq_nil_of_length_eq_zero h.length_eq
    rw [show dict = none from h.segment]
    cases fuel with
    | zero => exact absurd hfuel (Nat.not_lt_zero _)
    | succ fuel => rfl
  | cons e es ih =>
    cases l with
    | nil => cases h.length_eq
    | cons ax l =>
      rcases h.tail with ⟨c, rfl, hc, hx, he, hrest⟩
      cases fuel with
      | zero => exact absurd hfuel (Nat.not_lt_zero _)
      | succ fuel =>
        simp only [dictGet, car_of_cell hc, cdr_of_cell hc, hx, Option.bind_eq_bind,
          Option.bind_some, Memory.read_some, he, lookup, equal_iff]
        by_cases hk : e.1 = key
        · rw [if_pos hk, if_pos hk]
        · rw [if_neg hk, if_neg hk]
          exact ih hrest (Nat.lt_of_succ_lt_succ hfuel)

theorem appendDestructive_last {cells : ListMemory ℕ} {a : ℕ} {c : Cell Origin ℕ}
    (hc : cells.cells a = some c) (hnext : c.next = none) (hfuel : 0 < fuel) (b : Option ℕ) :
    appendDestructive fuel cells (some a) b =
      some (cells.store a { c with next := b } (Memory.lt_bound hc), some a) := by
  cases fuel with
  | zero => exact absurd hfuel (Nat.lt_irrefl _)
  | succ fuel =>
    simp only [appendDestructive, last, cdr_of_cell hc, hnext, Option.bind_eq_bind,
      Option.bind_some, if_true, setCdr_of_cell hc]

/-- What storing under a key establishes for the list that is walked: the new entries, and all other
cells and pairs as they were. -/
structure Stored (null : V) (newValue : V → V) (m m' : DictMemory V) (dict : Option ℕ)
    (l : List (ℕ × ℕ)) (es : List (Text × V)) (key : Text) (l' : List (ℕ × ℕ)) : Prop where
  entries : Entries m' dict l' (stored null newValue es key)
  lists : ∀ a < m.lists.bound, a ∉ l.map Prod.fst → m'.lists.cells a = m.lists.cells a
  pairs : ∀ a < m.pairs.bound, a ∉ l.map Prod.snd → m'.pairs.cells a = m.pairs.cells a

/-- Pairs of distinct keys are distinct objects. -/
theorem Entries.notMem_pairs {ax : ℕ × ℕ} {e : Text × V} (h : Entries m dict (ax :: l) (e :: es))
    (hkeys : ((e :: es).map Prod.fst).Nodup) : ax.2 ∉ l.map Prod.snd := by
  rcases h.tail with ⟨c, -, -, -, he, hrest⟩
  intro hmem
  rcases List.mem_map.mp hmem with ⟨bx, hbx, haddr⟩
  have hsome : some e ∈ es.map some := by
    rw [← hrest.pairs, ← he, ← haddr]
    exact List.mem_map_of_mem (f := fun ax : ℕ × ℕ => m.pairs.cells ax.2) hbx
  rcases List.mem_map.mp hsome with ⟨e', he', heq⟩
  exact (List.nodup_cons.mp hkeys).1 (Option.some.inj heq ▸ List.mem_map_of_mem he')

/-- Entries at which nothing changed. -/
theorem Entries.congr {m' : DictMemory V} (h : Entries m dict l es)
    (hlists : ∀ a ∈ l.map Prod.fst, m'.lists.cells a = m.lists.cells a)
    (hpairs : ∀ a ∈ l.map Prod.snd, m'.pairs.cells a = m.pairs.cells a) :
    Entries m' dict l es where
  segment := h.segment.congr fun _ hax => hlists _ (List.mem_map_of_mem hax)
  pairs := by
    rw [← h.pairs]
    apply List.map_congr_left
    intro ax hax
    exact hpairs ax.2 (List.mem_map_of_mem hax)

theorem Entries.cons {ax : ℕ × ℕ} {e : Text × V} {c : Cell Origin ℕ}
    (hdict : dict = some ax.1) (hc : m.lists.cells ax.1 = some c) (hx : c.value = ax.2)
    (he : m.pairs.cells ax.2 = some e) (hrest : Entries m c.next l es) :
    Entries m dict (ax :: l) (e :: es) where
  segment := ⟨hdict, c, hc, hx, hrest.segment⟩
  pairs := by
    rw [List.map_cons, List.map_cons, hrest.pairs, he]

theorem dictStore_here (null : V) (newValue : V → V) (fuel : ℕ) {ax : ℕ × ℕ} {e : Text × V}
    (h : Entries m dict (ax :: l) (e :: es))
    (hkeys : ((e :: es).map Prod.fst).Nodup) (hkey : e.1 = key) :
    ∃ m', dictStore null newValue (fuel + 1) m dict key = some (m', e.2) ∧
      Stored null newValue m m' dict (ax :: l) (e :: es) key (ax :: l) := by
  have hnot := h.notMem_pairs hkeys
  rcases h.tail with ⟨c, rfl, hc, hx, he, hrest⟩
  have hlt := Memory.lt_bound he
  refine ⟨{ m with pairs := m.pairs.store ax.2 (e.1, newValue e.2) hlt }, ?_, ?_⟩
  · simp only [dictStore, car_of_cell hc, hx, Option.bind_eq_bind, Option.bind_some,
      Memory.read_some, he, equal_iff, if_pos hkey, Memory.modify_of_eq_some he]
  · constructor
    · rw [stored, if_pos hkey]
      refine Entries.cons (m := ⟨m.lists, m.pairs.store ax.2 _ hlt⟩) rfl hc hx
        (Memory.store_self hlt) ?_
      refine hrest.congr (fun _ _ => rfl) ?_
      intro a ha
      exact Memory.store_of_ne hlt fun heq => hnot (heq ▸ ha)
    · intro a _ _
      rfl
    · intro a _ ha
      exact Memory.store_of_ne hlt fun heq => ha (heq ▸ List.mem_cons_self)

theorem dictStore_last (null : V) (newValue : V → V) {ax : ℕ × ℕ} {e : Text × V}
    (h : Entries m dict [ax] [e])
    (hkey : e.1 ≠ key) (hfuel : 0 < fuel) :
    ∃ m' l', dictStore null newValue (fuel + 1) m dict key = some (m', null) ∧
      Stored null newValue m m' dict [ax] [e] key l' := by
  rcases h.tail with ⟨c, rfl, hc, hx, he, hrest⟩
  have hnext : c.next = none := hrest.segment
  have hold := Memory.alloc_of_eq_some (c := ⟨m.pairs.bound, none, Origin.zone⟩) hc
  refine ⟨⟨Memory.store _ ax.1 { c with next := some m.lists.bound } (Memory.lt_bound hold),
    m.pairs.alloc (key, newValue null)⟩, [ax, (m.lists.bound, m.pairs.bound)], ?_, ?_⟩
  · simp only [dictStore, car_of_cell hc, hx, Option.bind_eq_bind, Option.bind_some,
      Memory.read_some, he, equal_iff, if_neg hkey, cdr_of_cell hc, hnext, if_true, cons, alloc,
      appendDestructive_last hold hnext hfuel]
  · have hlt := Memory.lt_bound hc
    constructor
    · rw [stored, if_neg hkey, stored]
      refine Entries.cons (c := { c with next := some m.lists.bound }) rfl
        (Memory.store_self (Memory.lt_bound hold)) hx
        (Memory.alloc_of_eq_some he) ?_
      refine Entries.cons (c := ⟨m.pairs.bound, none, Origin.zone⟩) rfl ?_ rfl ?_ ?_
      · exact (Memory.store_of_ne (Memory.lt_bound hold) (by omega)).trans Memory.alloc_self
      · exact Memory.alloc_self
      · exact ⟨rfl, rfl⟩
    · intro a ha hout
      rw [List.map_cons, List.mem_cons, not_or] at hout
      exact (Memory.store_of_ne (Memory.lt_bound hold) hout.1).trans (Memory.alloc_of_lt ha)
    · intro a ha _
      exact Memory.alloc_of_lt ha

theorem dictStore_entries (null : V) (newValue : V → V) (h : Entries m dict l es) (hkeys : (es.map Prod.fst).Nodup)
    (hne : es ≠ []) (hfuel : es.length < fuel) (key : Text) :
    ∃ m' l', dictStore null newValue fuel m dict key = some (m', lookup null es key) ∧
      Stored null newValue m m' dict l es key l' := by
  induction es generalizing fuel dict l with
  | nil => exact absurd rfl hne
  | cons e es ih =>
    cases l with
    | nil => cases h.length_eq
    | cons ax l =>
      cases fuel with
      | zero => exact absurd hfuel (Nat.not_lt_zero _)
      | succ fuel =>
        rw [List.length_cons] at hfuel
        rw [lookup]
        by_cases hkey : e.1 = key
        · rw [if_pos hkey]
          rcases dictStore_here null newValue fuel h hkeys hkey with ⟨m', hstore, hstored⟩
          exact ⟨m', ax :: l, hstore, hstored⟩
        · rw [if_neg hkey]
          cases es with
          | nil =>
            cases List.eq_nil_of_length_eq_zero (Nat.succ.inj h.length_eq)
            exact dictStore_last null newValue h hkey (by omega)
          | cons e' es =>
            have hnot := h.notMem_pairs hkeys
            have hout := (nodup_fst (show Segment _ _ ([] ++ ax :: l) none from h.segment)).2
            rcases h.tail with ⟨c, rfl, hc, hx, he, hrest⟩
            rcases ih hrest (List.nodup_cons.mp hkeys).2 (List.cons_ne_nil e' es)
              (Nat.lt_of_succ_lt_succ hfuel) with ⟨m', l', hstore, hstored⟩
            have hnext : c.next ≠ none := by
              cases l with
              | nil => cases hrest.length_eq
              | cons bx l =>
                rw [hrest.segment.1]
                exact Option.some_ne_none bx.1
            refine ⟨m', ax :: l', ?_, ?_⟩
            · simp only [dictStore, car_of_cell hc, hx, Option.bind_eq_bind, Option.bind_some,
                Memory.read_some, he, equal_iff, if_neg hkey, cdr_of_cell hc, if_neg hnext]
              exact hstore
            · constructor
              · rw [stored, if_neg hkey]
                exact Entries.cons rfl ((hstored.lists _ (Memory.lt_bound hc) hout).trans hc) hx
                  ((hstored.pairs _ (Memory.lt_bound he) hnot).trans he) hstored.entries
              · intro a ha hmem
                exact hstored.lists a ha fun h => hmem (List.mem_cons_of_mem _ h)
              · intro a ha hmem
                exact hstored.pairs a ha fun h => hmem (List.mem_cons_of_mem _ h)

/-! ## Runs -/

theorem lookup_stored_eq (es : List (Text × V)) (key : Text) :
    lookup null (stored null newValue es key) =
      Function.update (lookup null es) key (newValue (lookup null es key)) := by
  funext k
  rw [lookup_stored, Function.update_apply]

theorem length_stored_le (null : V) (newValue : V → V) (es : List (Text × V)) (key : Text) :
    (stored null newValue es key).length ≤ es.length + 1 := by
  induction es with
  | nil => exact Nat.le_refl _
  | cons e es ih =>
    rw [stored]
    split
    · exact Nat.le_succ _
    · exact Nat.succ_le_succ ih

theorem stored_ne_nil (es : List (Text × V)) (key : Text) : stored null newValue es key ≠ [] := by
  cases es with
  | nil => exact List.cons_ne_nil _ _
  | cons e es =>
    rw [stored]
    split
    · exact List.cons_ne_nil _ _
    · exact List.cons_ne_nil _ _

/-- One call on a dictionary. -/
theorem run_spec (null : V) (h : Dictionary m dict es) (hne : es ≠ []) (hfuel : es.length < fuel)
    (call : Call V) :
    ∃ m', call.run null fuel m dict = some (m', lookup null es call.key) ∧
      Dictionary m' dict (stored null call.newValue es call.key) := by
  rcases h with ⟨⟨l, hl⟩, hkeys⟩
  rcases dictStore_entries null call.newValue hl hkeys hne hfuel call.key with
    ⟨m', l', hstore, hstored⟩
  refine ⟨m', ?_, ⟨l', hstored.entries⟩, nodup_keys_stored hkeys call.key⟩
  cases call with
  | set key value => exact hstore
  | update key updateFn => exact hstore

/-- The entries after the calls. -/
def entriesAfter (null : V) : List (Text × V) → List (Call V) → List (Text × V)
  | es, [] => es
  | es, call :: calls => entriesAfter null (stored null call.newValue es call.key) calls

theorem runCalls_spec (null : V) (calls : List (Call V)) (h : Dictionary m dict es) (hne : es ≠ [])
    (hfuel : es.length + calls.length ≤ fuel) :
    ∃ m', runCalls null fuel dict m calls = some (m', valuesBefore (lookup null es) calls) ∧
      Dictionary m' dict (entriesAfter null es calls) := by
  induction calls generalizing m es with
  | nil => exact ⟨m, rfl, h⟩
  | cons call calls ih =>
    rw [List.length_cons] at hfuel
    rcases run_spec null h hne (show es.length < fuel by omega) call with ⟨m₁, hrun, hm₁⟩
    have hlen := length_stored_le null call.newValue es call.key
    rcases ih hm₁ (stored_ne_nil es call.key) (by omega) with ⟨m', hcalls, hm'⟩
    refine ⟨m', ?_, hm'⟩
    rw [lookup_stored_eq] at hcalls
    simp only [runCalls, hrun, hcalls, Option.bind_eq_bind, Option.bind_some, valuesBefore]

theorem lookup_entriesAfter (es : List (Text × V)) (calls : List (Call V)) :
    lookup null (entriesAfter null es calls) = valuesAfter (lookup null es) calls := by
  induction calls generalizing es with
  | nil => rfl
  | cons call calls ih => rw [entriesAfter, ih, lookup_stored_eq, valuesAfter]

theorem length_entriesAfter_le (null : V) (es : List (Text × V)) (calls : List (Call V)) :
    (entriesAfter null es calls).length ≤ es.length + calls.length := by
  induction calls generalizing es with
  | nil => exact Nat.le_refl _
  | cons call calls ih =>
    have hlen := length_stored_le null call.newValue es call.key
    have hrest := ih (stored null call.newValue es call.key)
    rw [entriesAfter, List.length_cons]
    omega

theorem lookup_of_notMem (h : key ∉ es.map Prod.fst) : lookup null es key = null := by
  induction es with
  | nil => rfl
  | cons e es ih =>
    rw [List.map_cons, List.mem_cons, not_or] at h
    rw [lookup, if_neg (Ne.symm h.1), ih h.2]

theorem valuesAfter_of_ne (f : Text → V) {calls : List (Call V)} (h : ∀ c ∈ calls, c.key ≠ key) :
    valuesAfter f calls key = f key := by
  induction calls generalizing f with
  | nil => rfl
  | cons call calls ih =>
    rw [valuesAfter, ih _ fun c hc => h c (List.mem_cons_of_mem call hc),
      Function.update_of_ne (h call List.mem_cons_self).symm]

/-- A dictionary that is not empty behaves as a finite map, whatever the calls: every call returns
the value before it, `dict_get` returns the values that the calls leave, the keys stay distinct, a
key that was never stored has the value null, and a call does not touch other keys. -/
theorem dictionary_run (null : V) (h : Dictionary m dict es) (hne : es ≠ []) (calls : List (Call V))
    (hfuel : es.length + calls.length < fuel) :
    ∃ m' es', runCalls null fuel dict m calls = some (m', valuesBefore (lookup null es) calls) ∧
      Dictionary m' dict es' ∧ (es'.map Prod.fst).Nodup ∧
      (∀ key, dictGet null fuel m dict key = some (lookup null es key)) ∧
      (∀ key, dictGet null fuel m' dict key = some (valuesAfter (lookup null es) calls key)) ∧
      (∀ key, key ∉ es.map Prod.fst → (∀ c ∈ calls, c.key ≠ key) →
        dictGet null fuel m' dict key = some null) ∧
      ∀ key, (∀ c ∈ calls, c.key ≠ key) →
        dictGet null fuel m' dict key = dictGet null fuel m dict key := by
  rcases runCalls_spec null calls h hne (Nat.le_of_lt hfuel) with ⟨m', hrun, hm'⟩
  rcases h with ⟨⟨l, hl⟩, -⟩
  have hlen := length_entriesAfter_le null es calls
  have hbefore : ∀ key, dictGet null fuel m dict key = some (lookup null es key) :=
    fun key => dictGet_entries hl (by omega) key
  have hafter : ∀ key,
      dictGet null fuel m' dict key = some (valuesAfter (lookup null es) calls key) := by
    intro key
    rcases hm'.1 with ⟨l', hl'⟩
    rw [dictGet_entries hl' (by omega), lookup_entriesAfter]
  refine ⟨m', _, hrun, hm', hm'.2, hbefore, hafter, fun key hkey hcalls => ?_, fun key hcalls => ?_⟩
  · rw [hafter, valuesAfter_of_ne _ hcalls, lookup_of_notMem hkey]
  · rw [hafter, hbefore, valuesAfter_of_ne _ hcalls]

/-- `(list (Pair key value))` in a memory without cells. -/
def single (key : Text) (value : V) : DictMemory V :=
  ⟨(list [0]).1, Memory.alloc ⟨fun _ => none, 0, fun _ _ => rfl⟩ (key, value)⟩

theorem dictionary_single (key : Text) (value : V) :
    Dictionary (single key value) (some 0) [(key, value)] :=
  ⟨⟨[(0, 0)], ⟨rfl, _, rfl, rfl, rfl⟩, rfl⟩, List.nodup_singleton key⟩

theorem dictionary_run_single :
    Dictionary (single [97] (1 : ℤ)) (some 0) [([97], 1)] ∧ [([97], 1)] ≠ ([] : List (Text × ℤ)) ∧
      ∃ m', runCalls 0 4 (some 0) (single [97] (1 : ℤ)) [.set [98] 2, .update [97] (· + 1)] =
        some (m', [0, 1]) ∧ dictGet 0 4 m' (some 0) [97] = some 2 := by
  refine ⟨dictionary_single [97] 1, List.cons_ne_nil _ _, ?_⟩
  rcases dictionary_run 0 (dictionary_single [97] (1 : ℤ)) (List.cons_ne_nil _ _)
    [.set [98] 2, .update [97] (· + 1)] (show 1 + 2 < 4 by decide) with ⟨m', es', hrun, -, -, -, hafter, -, -⟩
  refine ⟨m', hrun, (hafter [97]).trans ?_⟩
  decide

end Extempore.AdtDictionaries
