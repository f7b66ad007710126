/-!
# Variables in trees

Trees are read with rules, which say for each part of a tree in which role it stands and which
names are bound there. A variable is free in a tree if its name is bound nowhere on the way to
it. A part that is moved to another tree keeps its free variables iff none of them has a name
that is bound on the new way only.
-/

namespace Extempore.ScopedTrees

universe u v w x

/-- A part of a tree, in a role, and the names that are bound on the way to it. -/
structure Place (T : Type u) (R : Type v) (N : Type x) where
  role : R
  tree : T
  names : List N

structure Rules (T : Type u) (R : Type v) (D : Type w) (N : Type x) where
  /-- The part in a direction, with the names that are bound there. -/
  child : R → T → D → Option (Place T R N)
  /-- The name of a tree that is a variable. -/
  variableOf : R → T → Option N

variable {T : Type u} {R : Type v} {D : Type w} {N : Type x}

namespace Rules

variable (rules : Rules T R D N)

/-- The part at the end of a path. -/
def walk : R → T → List D → Option (Place T R N)
  | r, t, [] => some ⟨r, t, []⟩
  | r, t, d :: path =>
    (rules.child r t d).bind fun a => (walk a.role a.tree path).map fun b =>
      ⟨b.role, b.tree, a.names ++ b.names⟩

/-- A variable named `n` stands at the end of the path, and is bound nowhere on it. -/
def Free (r : R) (t : T) (path : List D) (n : N) : Prop :=
  ∃ a, rules.walk r t path = some a ∧ rules.variableOf a.role a.tree = some n ∧ n ∉ a.names

variable {rules} {r r' r'' : R} {t t' t'' : T} {d : D} {path path' : List D}
variable {a a' : Place T R N} {names names' : List N} {n : N}

@[simp] theorem walk_nil : rules.walk r t [] = some ⟨r, t, []⟩ := rfl

theorem walk_cons (h : rules.child r t d = some ⟨r', t', names⟩)
    (htail : rules.walk r' t' path = some ⟨r'', t'', names'⟩) :
    rules.walk r t (d :: path) = some ⟨r'', t'', names ++ names'⟩ := by
  rw [walk, h, Option.bind_some, htail, Option.map_some]

/-- A step that binds nothing. -/
theorem walk_step (h : rules.child r t d = some ⟨r', t', []⟩) :
    rules.walk r t (d :: path) = rules.walk r' t' path := by
  rw [walk, h, Option.bind_some]
  cases hwalk : rules.walk r' t' path <;> simp

theorem free_step (h : rules.child r t d = some ⟨r', t', []⟩) :
    rules.Free r t (d :: path) n ↔ rules.Free r' t' path n := by
  rw [Free, walk_step h]
  rfl

theorem walk_append (h : rules.walk r t path = some a) :
    rules.walk r t (path ++ path') = (rules.walk a.role a.tree path').map fun b =>
      ⟨b.role, b.tree, a.names ++ b.names⟩ := by
  induction path generalizing r t a with
  | nil =>
    cases h
    cases hwalk : rules.walk r t path' <;> simp [hwalk]
  | cons d path ih =>
    rw [walk, Option.bind_eq_some_iff] at h
    obtain ⟨c, hchild, htail⟩ := h
    rw [Option.map_eq_some_iff] at htail
    obtain ⟨b, hb, rfl⟩ := htail
    rw [List.cons_append, walk, hchild, Option.bind_some, ih hb, Option.map_map]
    congr 1
    funext b'
    simp [List.append_assoc]

theorem walk_trans (h : rules.walk r t path = some ⟨r', t', names⟩)
    (h' : rules.walk r' t' path' = some ⟨r'', t'', names'⟩) :
    rules.walk r t (path ++ path') = some ⟨r'', t'', names ++ names'⟩ := by
  rw [walk_append h, h', Option.map_some]

theorem free_append (h : rules.walk r t path = some a) :
    rules.Free r t (path ++ path') n ↔ rules.Free a.role a.tree path' n ∧ n ∉ a.names := by
  constructor
  · intro hfree
    obtain ⟨b, hb, hvariable, hnames⟩ := hfree
    rw [walk_append h, Option.map_eq_some_iff] at hb
    obtain ⟨c, hc, rfl⟩ := hb
    rw [List.mem_append, not_or] at hnames
    exact ⟨⟨c, hc, hvariable, hnames.2⟩, hnames.1⟩
  · intro hfree
    obtain ⟨⟨c, hc, hvariable, hnames⟩, hn⟩ := hfree
    refine ⟨_, walk_trans h hc, hvariable, ?_⟩
    rw [List.mem_append, not_or]
    exact ⟨hn, hnames⟩

/-! ## Moved parts -/

variable (rules) in
/-- What is free in the part at `path` of a tree is free in the part at `path'` of another. -/
def Keeps (r : R) (t : T) (path : List D) (r' : R) (t' : T) (path' : List D) : Prop :=
  ∀ p n, rules.Free r t (path ++ p) n → rules.Free r' t' (path' ++ p) n

/-- A part that is the same in both trees, as far as its free variables are concerned. -/
theorem keeps_iff {role role' : R} {tree tree' : T} {introduced : List N}
    (h : rules.walk r t path = some ⟨role, tree, names⟩)
    (h' : rules.walk r' t' path' = some ⟨role', tree', introduced ++ names⟩)
    (hfree : ∀ p n, rules.Free role tree p n ↔ rules.Free role' tree' p n) :
    rules.Keeps r t path r' t' path' ↔
      ∀ p n, rules.Free r t (path ++ p) n → n ∉ introduced := by
  apply forall₂_congr
  intro p n
  apply imp_congr_right
  intro hn
  obtain ⟨hpart, hnames⟩ := (free_append h).mp hn
  rw [free_append h', ← hfree, List.mem_append, not_or]
  constructor
  · exact fun hkept => hkept.2.1
  · exact fun hintroduced => ⟨hpart, hintroduced, hnames⟩

end Rules

end Extempore.ScopedTrees
