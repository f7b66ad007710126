import Extempore.ClosureConversion

/-!
# Lifetimes of captured variables

The code generators take the storage of a variable from the tag of its `let` or `lambda`, and the
storage of a closure from its kind. A closure on the heap may outlive what it captures: `make-env`
has no branch for the tag of the heap, and the tag of a function with closures of different kinds
is the largest one, which is not that of the longest life.
-/

namespace Extempore.StorageLifetimes

open XtlangForms ReturnMarks ClosureConversion VisibleNames

/-! ## Storage -/

inductive Storage
  | stack
  | zone
  | heap
deriving DecidableEq

def Storage.lifetime : Storage → ℕ
  | .stack => 0
  | .zone => 1
  | .heap => 2

/-- `impc:ir:compile:make-env` -/
def letStorage (tag : ℤ) : Storage := if tag = 3 then .zone else .stack

/-- `impc:ir:compile:make-closure`, where it sets up the arguments. -/
def paramStorage (tag : ℤ) : Storage :=
  if tag > 0 then
    if tag = 1 then .heap
    else if tag = 2 then .stack
    else .zone
  else .stack

/-- `impc:ir:compile:make-closureenv` -/
def closureStorage (car : Sexpr) : Storage :=
  if car = .sym "__make-closure-h" then .heap
  else if car = .sym "__make-closure-s" then .stack
  else .zone

/-- Names that are bound together, in one storage. -/
def bindAll {β : Type} (names : List Name) (b : β) : List (Name × β) := names.map fun x => (x, b)

mutual

/-- In the converted form `s` of `e`, what a closure captures lives as long as the closure. -/
def Outlives (scope : List (Name × Storage)) : Expr → Sexpr → Prop
  | .atom a, s => s = a.toSexpr
  | .if2 marked test thn, s =>
    ∃ test' thn', s = .list [ifSymbol marked, test', thn'] ∧ Outlives scope test test' ∧
      Outlives scope thn thn'
  | .if3 marked test thn els, s =>
    ∃ test' thn' els', s = .list [ifSymbol marked, test', thn', els'] ∧
      Outlives scope test test' ∧ Outlives scope thn thn' ∧ Outlives scope els els'
  | .lets _ bindings body, s =>
    ∃ tag inits body', s = .list [.sym "__make-env", .int tag, inits, .cons (.sym "begin") body'] ∧
      LetOutlives (bindAll (letNames bindings) (letStorage tag) ++ scope) bindings inits ∧
      BodyOutlives (bindAll (letNames bindings) (letStorage tag) ++ scope) body body'
  | .seq body, s => ∃ body', s = .cons (.sym "begin") body' ∧ BodyOutlives scope body body'
  | .lambda _ params body, s =>
    ∃ car tag env body', s = .list [car, .int tag, nameList env, nameList params,
        .cons (.sym "begin") body'] ∧
      (∀ v ∈ env, ∃ storage, scope.lookup v = some storage ∧
        (closureStorage car).lifetime ≤ storage.lifetime) ∧
      BodyOutlives (bindAll params (paramStorage tag) ++ scope) body body'
  | .call g args, s =>
    ∃ g' args', s = .cons g' args' ∧ Outlives scope g g' ∧ ArgsOutlive scope args args'
  | .ret name e, s => ∃ e', s = .list [.sym "ret->", .sym name.text, e'] ∧ Outlives scope e e'

def BodyOutlives (scope : List (Name × Storage)) : Body → Sexpr → Prop
  | .last e, s => ∃ e', s = .list [e'] ∧ Outlives scope e e'
  | .cons e rest, s =>
    ∃ e' rest', s = .cons e' rest' ∧ Outlives scope e e' ∧ BodyOutlives scope rest rest'

def ArgsOutlive (scope : List (Name × Storage)) : Args → Sexpr → Prop
  | .nil, s => s = .nil
  | .cons e rest, s =>
    ∃ e' rest', s = .cons e' rest' ∧ Outlives scope e e' ∧ ArgsOutlive scope rest rest'

def LetOutlives (scope : List (Name × Storage)) : Bindings → Sexpr → Prop
  | .nil, s => s = .nil
  | .cons x init rest, s =>
    ∃ init' rest', s = .cons (.list [.sym x.text, init']) rest' ∧ Outlives scope init init' ∧
      LetOutlives scope rest rest'

end

/-! ## Tags -/

mutual

/-- The kinds of the lambdas in a form. -/
def lambdaKinds : Expr → List LambdaKind
  | .atom _ => []
  | .if2 _ test thn => lambdaKinds test ++ lambdaKinds thn
  | .if3 _ test thn els => lambdaKinds test ++ (lambdaKinds thn ++ lambdaKinds els)
  | .lets _ bindings body => letKinds bindings ++ bodyKinds body
  | .seq body => bodyKinds body
  | .lambda kind _ body => kind :: bodyKinds body
  | .call f args => lambdaKinds f ++ argsKinds args
  | .ret _ e => lambdaKinds e

def bodyKinds : Body → List LambdaKind
  | .last e => lambdaKinds e
  | .cons e rest => lambdaKinds e ++ bodyKinds rest

def argsKinds : Args → List LambdaKind
  | .nil => []
  | .cons e rest => lambdaKinds e ++ argsKinds rest

def letKinds : Bindings → List LambdaKind
  | .nil => []
  | .cons _ init rest => lambdaKinds init ++ letKinds rest

end

def kindTag : LambdaKind → ℕ
  | .lambda | .lambdaz => 3
  | .lambdah => 1
  | .lambdas => 2

def maxTag : List LambdaKind → ℕ
  | [] => 0
  | kind :: kinds => max (kindTag kind) (maxTag kinds)

section Tags

variable {kind : LambdaKind} {kinds kinds' : List LambdaKind}

theorem maxTag_append : maxTag (kinds ++ kinds') = max (maxTag kinds) (maxTag kinds') := by
  induction kinds with
  | nil => simp [maxTag]
  | cons kind kinds ih => rw [List.cons_append, maxTag, maxTag, ih, Nat.max_assoc]

theorem kindTag_le_maxTag (h : kind ∈ kinds) : kindTag kind ≤ maxTag kinds := by
  induction kinds with
  | nil => cases h
  | cons kind' kinds ih =>
    rw [maxTag]
    cases h with
    | head => exact Nat.le_max_left _ _
    | tail _ h => exact Nat.le_trans (ih h) (Nat.le_max_right _ _)

theorem maxTag_le {n : ℕ} (h : ∀ kind ∈ kinds, kindTag kind ≤ n) : maxTag kinds ≤ n := by
  induction kinds with
  | nil => exact Nat.zero_le n
  | cons kind kinds ih =>
    rw [maxTag]
    exact Nat.max_le.mpr ⟨h kind List.mem_cons_self,
      ih fun kind' h' => h kind' (List.mem_cons_of_mem _ h')⟩

theorem allocateVar_cons (car cdr : Sexpr) :
    allocateVar (.cons car cdr) = max (allocateVar car) (allocateVar cdr) := by
  rw [allocateVar]
  split <;> omega

theorem allocateVar_name (x : Name) : allocateVar (.sym x.text) = 0 := by
  have hne {s : String} (hs : s ∈ keywords) : x.text ≠ s := fun h => x.notMem_keywords (h ▸ hs)
  simp [allocateVar, hne (s := "lambda") (by decide), hne (s := "lambdaz") (by decide),
    hne (s := "lambdah") (by decide), hne (s := "lambdas") (by decide)]

theorem allocateVar_nameList : ∀ xs, allocateVar (nameList xs) = 0
  | [] => rfl
  | x :: xs => by
    have ih := allocateVar_nameList xs
    rw [nameList] at ih ⊢
    rw [List.map_cons, Sexpr.list, allocateVar_cons, allocateVar_name, ih]
    rfl

theorem allocateVar_letKind (kind : LetKind) : allocateVar (.sym kind.text) = 0 := by
  cases kind <;> decide

theorem allocateVar_lambdaKind (kind : LambdaKind) :
    allocateVar (.sym kind.text) = kindTag kind := by
  cases kind <;> decide

theorem allocateVar_ifSymbol (marked : Bool) : allocateVar (ifSymbol marked) = 0 := by
  cases marked <;> decide

theorem allocateVar_begin : allocateVar (.sym "begin") = 0 := by decide

theorem allocateVar_ret : allocateVar (.sym "ret->") = 0 := by decide

theorem allocateVar_nil : allocateVar .nil = 0 := rfl

mutual

theorem allocateVar_toSexpr : ∀ e : Expr, allocateVar e.toSexpr = maxTag (lambdaKinds e)
  | .atom a => by
    cases a with
    | name x => exact allocateVar_name x
    | _ => rfl
  | .if2 marked test thn => by
    simp only [Expr.toSexpr, Sexpr.list, lambdaKinds, allocateVar_cons, allocateVar_ifSymbol,
      allocateVar_nil, allocateVar_toSexpr test, allocateVar_toSexpr thn, maxTag_append]
    omega
  | .if3 marked test thn els => by
    simp only [Expr.toSexpr, Sexpr.list, lambdaKinds, allocateVar_cons, allocateVar_ifSymbol,
      allocateVar_nil, allocateVar_toSexpr test, allocateVar_toSexpr thn,
      allocateVar_toSexpr els, maxTag_append]
    omega
  | .lets kind bindings body => by
    simp only [Expr.toSexpr, Sexpr.list, lambdaKinds, allocateVar_cons, allocateVar_letKind,
      allocateVar_begin, allocateVar_nil, allocateVar_bindings bindings, allocateVar_body body,
      maxTag_append]
    omega
  | .seq body => by
    simp only [Expr.toSexpr, lambdaKinds, allocateVar_cons, allocateVar_begin,
      allocateVar_body body]
    omega
  | .lambda kind params body => by
    simp only [Expr.toSexpr, Sexpr.list, lambdaKinds, allocateVar_cons, allocateVar_lambdaKind,
      allocateVar_nameList, allocateVar_begin, allocateVar_nil, allocateVar_body body, maxTag]
    omega
  | .call f args => by
    simp only [Expr.toSexpr, lambdaKinds, allocateVar_cons, allocateVar_toSexpr f,
      allocateVar_args args, maxTag_append]
  | .ret name e => by
    simp only [Expr.toSexpr, Sexpr.list, lambdaKinds, allocateVar_cons, allocateVar_ret,
      allocateVar_name, allocateVar_nil, allocateVar_toSexpr e]
    omega

theorem allocateVar_body : ∀ body : Body, allocateVar body.toSexpr = maxTag (bodyKinds body)
  | .last e => by
    simp only [Body.toSexpr, Sexpr.list, bodyKinds, allocateVar_cons, allocateVar_nil,
      allocateVar_toSexpr e]
    omega
  | .cons e rest => by
    simp only [Body.toSexpr, bodyKinds, allocateVar_cons, allocateVar_toSexpr e,
      allocateVar_body rest, maxTag_append]

theorem allocateVar_args : ∀ args : Args, allocateVar args.toSexpr = maxTag (argsKinds args)
  | .nil => rfl
  | .cons e rest => by
    simp only [Args.toSexpr, argsKinds, allocateVar_cons, allocateVar_toSexpr e,
      allocateVar_args rest, maxTag_append]

theorem allocateVar_bindings : ∀ bindings : Bindings,
    allocateVar bindings.toSexpr = maxTag (letKinds bindings)
  | .nil => rfl
  | .cons x init rest => by
    simp only [Bindings.toSexpr, Sexpr.list, letKinds, allocateVar_cons, allocateVar_name,
      allocateVar_nil, allocateVar_toSexpr init, allocateVar_bindings rest, maxTag_append]
    omega

end

end Tags

/-! ## Closures on the heap -/

/-- Whether a parameter of the function with this body is on the heap for each closure on the
heap inside: all lambdas inside are of the kind `lambdah`. -/
def onlyHeap (body : Body) : Bool := (bodyKinds body).all fun kind => kind = .lambdah

mutual

/-- Whatever a `lambdah` captures is the parameter of a function with no lambdas but `lambdah`.
The scope says of each variable whether it is. -/
def HeapSafe (f : Name) (scope : List (Name × Bool)) : Expr → Prop
  | .atom _ => True
  | .if2 _ test thn => HeapSafe f scope test ∧ HeapSafe f scope thn
  | .if3 _ test thn els => HeapSafe f scope test ∧ HeapSafe f scope thn ∧ HeapSafe f scope els
  | .lets _ bindings body =>
    LetHeapSafe f (bindAll (letNames bindings) false ++ scope) bindings ∧
      BodyHeapSafe f (bindAll (letNames bindings) false ++ scope) body
  | .seq body => BodyHeapSafe f scope body
  | .lambda kind params body =>
    (kind = .lambdah → AllButOutermost (fun safe => safe = true) f [] scope) ∧
      BodyHeapSafe f (bindAll params (onlyHeap body) ++ scope) body
  | .call g args => HeapSafe f scope g ∧ ArgsHeapSafe f scope args
  | .ret _ e => HeapSafe f scope e

def BodyHeapSafe (f : Name) (scope : List (Name × Bool)) : Body → Prop
  | .last e => HeapSafe f scope e
  | .cons e rest => HeapSafe f scope e ∧ BodyHeapSafe f scope rest

def ArgsHeapSafe (f : Name) (scope : List (Name × Bool)) : Args → Prop
  | .nil => True
  | .cons e rest => HeapSafe f scope e ∧ ArgsHeapSafe f scope rest

def LetHeapSafe (f : Name) (scope : List (Name × Bool)) : Bindings → Prop
  | .nil => True
  | .cons _ init rest => HeapSafe f scope init ∧ LetHeapSafe f scope rest

end

section Lifetimes

variable {kind : LambdaKind} {kinds kinds' : List LambdaKind}
  {storages : List (Name × Storage)} {scope : List (Name × Bool)}

/-- A storage lives long enough for closures of these kinds iff those on the heap are safe. -/
def Suits (kinds : List LambdaKind) (storage : Storage) (safe : Bool) : Prop :=
  ∀ kind ∈ kinds, (closureStorage (closureSymbol (.sym kind.text))).lifetime ≤ storage.lifetime ↔
    (kind = .lambdah → safe = true)

theorem maxTag_eq_three (hmem : kind ∈ kinds) (hkind : kindTag kind = 3) : maxTag kinds = 3 := by
  have hmax : maxTag kinds ≤ 3 := maxTag_le fun kind _ => by cases kind <;> decide
  exact Nat.le_antisymm hmax (hkind ▸ kindTag_le_maxTag hmem)

theorem suits_letStorage (kinds : List LambdaKind) :
    Suits kinds (letStorage (maxTag kinds)) false := by
  intro kind hmem
  cases kind with
  | lambda | lambdaz =>
    have htag := maxTag_eq_three hmem rfl
    simp [htag, letStorage, closureSymbol, LambdaKind.text, closureStorage, Storage.lifetime]
  | lambdas =>
    simp [closureSymbol, LambdaKind.text, closureStorage, Storage.lifetime]
  | lambdah =>
    rw [letStorage]
    split <;> simp [closureSymbol, LambdaKind.text, closureStorage, Storage.lifetime]

theorem suits_paramStorage (kinds : List LambdaKind) :
    Suits kinds (paramStorage (maxTag kinds)) (kinds.all fun kind => kind = .lambdah) := by
  intro kind hmem
  have hle := kindTag_le_maxTag hmem
  cases kind with
  | lambda | lambdaz =>
    have htag := maxTag_eq_three hmem rfl
    simp [htag, paramStorage, closureSymbol, LambdaKind.text, closureStorage, Storage.lifetime]
  | lambdas =>
    simp [closureSymbol, LambdaKind.text, closureStorage, Storage.lifetime]
  | lambdah =>
    have hheap : (kinds.all fun kind => kind = .lambdah) = true ↔ maxTag kinds = 1 := by
      rw [List.all_eq_true]
      constructor
      · intro h
        apply Nat.le_antisymm _ hle
        apply maxTag_le
        intro kind hkind
        exact Nat.le_of_eq (congrArg kindTag (of_decide_eq_true (h kind hkind)))
      · intro h kind hkind
        have hone := kindTag_le_maxTag hkind
        rw [h] at hone
        cases kind <;> simp [kindTag] at hone ⊢
    rw [hheap, paramStorage]
    rw [show kindTag .lambdah = 1 from rfl] at hle
    by_cases hone : maxTag kinds = 1
    · simp [hone, closureSymbol, LambdaKind.text, closureStorage, Storage.lifetime]
    · rw [if_pos (by omega), if_neg (by omega)]
      split <;> simp [hone, closureSymbol, LambdaKind.text, closureStorage, Storage.lifetime]

/-- The scopes bind the same names, in storages that suit the lambdas that are still to come. -/
def Agree (kinds : List LambdaKind) (storages : List (Name × Storage))
    (scope : List (Name × Bool)) : Prop :=
  List.Forall₂ (fun entry entry' => entry.1 = entry'.1 ∧ Suits kinds entry.2 entry'.2)
    storages scope

theorem Agree.mono (h : Agree kinds storages scope) (hkinds : ∀ kind ∈ kinds', kind ∈ kinds) :
    Agree kinds' storages scope :=
  h.imp fun _ _ hentry => ⟨hentry.1, fun kind hkind => hentry.2 kind (hkinds kind hkind)⟩

theorem Agree.bindAll {storage : Storage} {safe : Bool} (h : Agree kinds storages scope)
    (hsuits : Suits kinds storage safe) :
    ∀ names : List Name, Agree kinds (bindAll names storage ++ storages)
      (bindAll names safe ++ scope)
  | [] => h
  | _ :: names => List.Forall₂.cons ⟨rfl, hsuits⟩ (Agree.bindAll h hsuits names)

theorem bindAll_names {β : Type} (names : List Name) (b : β) (scope : List (Name × β)) :
    (StorageLifetimes.bindAll names b ++ scope).map Prod.fst = names ++ scope.map Prod.fst := by
  rw [List.map_append, StorageLifetimes.bindAll, List.map_map]
  simp [Function.comp_def]

/-- What a closure captures. -/
theorem outlives_env (f : Name) (h : Agree kinds storages scope) (hkind : kind ∈ kinds) :
    (∀ v ∈ captured (storages.map Prod.fst ++ [f]), ∃ storage, storages.lookup v = some storage ∧
      (closureStorage (closureSymbol (.sym kind.text))).lifetime ≤ storage.lifetime) ↔
    (kind = .lambdah → AllButOutermost (fun safe => safe = true) f [] scope) := by
  simp only [captured, List.mem_reverse]
  rw [← allButOutermost_iff (p := fun storage : Storage =>
    (closureStorage (closureSymbol (.sym kind.text))).lifetime ≤ storage.lifetime)]
  rw [allButOutermost_congr (q := fun safe => kind = .lambdah → safe = true)
    (h.imp fun _ _ hentry => ⟨hentry.1, hentry.2 kind hkind⟩)]
  by_cases hheap : kind = .lambdah
  · simp only [hheap, true_imp_iff]
  · simp only [hheap, false_imp_iff, allButOutermost_true]

theorem nameList_inj {xs ys : List Name} : nameList xs = nameList ys ↔ xs = ys :=
  ⟨nameList_injective, fun h => h ▸ rfl⟩

mutual

theorem outlives_convertExpr (f : Name) :
    ∀ (e : Expr) (storages : List (Name × Storage)) (scope : List (Name × Bool)),
      Agree (lambdaKinds e) storages scope →
        (Outlives storages e (convertExpr (storages.map Prod.fst ++ [f]) e) ↔ HeapSafe f scope e)
  | .atom _, _, _, _ => iff_of_true rfl True.intro
  | .if2 _ test thn, storages, scope, h => by
    have ih := outlives_convertExpr f test storages scope
      (h.mono fun _ => List.mem_append_left _)
    have ih' := outlives_convertExpr f thn storages scope
      (h.mono fun _ => List.mem_append_right _)
    simp only [Outlives, convertExpr, Sexpr.list, Sexpr.cons.injEq, and_true, true_and, HeapSafe]
    rw [← ih, ← ih']
    exact ⟨fun ⟨_, _, ⟨h₁, h₂⟩, h⟩ => h₁ ▸ h₂ ▸ h, fun h => ⟨_, _, ⟨rfl, rfl⟩, h⟩⟩
  | .if3 _ test thn els, storages, scope, h => by
    have hinner := h.mono fun _ => List.mem_append_right (lambdaKinds test)
    have ih := outlives_convertExpr f test storages scope
      (h.mono fun _ => List.mem_append_left _)
    have ih' := outlives_convertExpr f thn storages scope
      (hinner.mono fun _ => List.mem_append_left _)
    have ih'' := outlives_convertExpr f els storages scope
      (hinner.mono fun _ => List.mem_append_right _)
    simp only [Outlives, convertExpr, Sexpr.list, Sexpr.cons.injEq, and_true, true_and, HeapSafe]
    rw [← ih, ← ih', ← ih'']
    exact ⟨fun ⟨_, _, _, ⟨h₁, h₂, h₃⟩, h⟩ => h₁ ▸ h₂ ▸ h₃ ▸ h,
      fun h => ⟨_, _, _, ⟨rfl, rfl, rfl⟩, h⟩⟩
  | .lets kind bindings body, storages, scope, h => by
    have hbind := h.bindAll (suits_letStorage _) (letNames bindings)
    have ih := letOutlives_convertBindings f bindings _ _
      (hbind.mono fun _ => List.mem_append_left _)
    have ih' := bodyOutlives_convertBody f body _ _
      (hbind.mono fun _ => List.mem_append_right _)
    rw [bindAll_names, List.append_assoc] at ih ih'
    simp only [Outlives, convertExpr, Sexpr.list, Sexpr.cons.injEq, Sexpr.int.injEq, and_true,
      true_and, HeapSafe, allocateVar_toSexpr]
    rw [← ih, ← ih']
    exact ⟨fun ⟨_, _, _, ⟨h₁, h₂, h₃⟩, h⟩ => h₁ ▸ h₂ ▸ h₃ ▸ h,
      fun h => ⟨_, _, _, ⟨rfl, rfl, rfl⟩, h⟩⟩
  | .seq body, storages, scope, h => by
    have ih := bodyOutlives_convertBody f body storages scope h
    simp only [Outlives, convertExpr, Sexpr.cons.injEq, true_and, HeapSafe]
    rw [← ih]
    exact ⟨fun ⟨_, h₁, h⟩ => h₁ ▸ h, fun h => ⟨_, rfl, h⟩⟩
  | .lambda kind params body, storages, scope, h => by
    have hbody := h.mono fun _ => List.mem_cons_of_mem kind
    have ih := bodyOutlives_convertBody f body _ _
      (hbody.bindAll (suits_paramStorage _) params)
    have htag : allocateVar (.cons (nameList params) (.cons (.cons (.sym "begin") body.toSexpr)
        .nil)) = maxTag (bodyKinds body) := by
      simp only [allocateVar_cons, allocateVar_nameList, allocateVar_begin,
        allocateVar_nil, allocateVar_body]
      omega
    rw [bindAll_names, List.append_assoc] at ih
    simp only [Outlives, convertExpr, Sexpr.list, Sexpr.cons.injEq, Sexpr.int.injEq, and_true,
      true_and, HeapSafe, htag, nameList_inj]
    rw [← outlives_env f h List.mem_cons_self, onlyHeap, ← ih]
    exact ⟨fun ⟨_, _, _, _, ⟨h₁, h₂, h₃, h₄⟩, h⟩ => h₁ ▸ h₂ ▸ h₃ ▸ h₄ ▸ h,
      fun h => ⟨_, _, _, _, ⟨rfl, rfl, rfl, rfl⟩, h⟩⟩
  | .call g args, storages, scope, h => by
    have ih := outlives_convertExpr f g storages scope
      (h.mono fun _ => List.mem_append_left _)
    have ih' := argsOutlive_convertArgs f args storages scope
      (h.mono fun _ => List.mem_append_right _)
    simp only [Outlives, convertExpr, Sexpr.cons.injEq, HeapSafe]
    rw [← ih, ← ih']
    exact ⟨fun ⟨_, _, ⟨h₁, h₂⟩, h⟩ => h₁ ▸ h₂ ▸ h, fun h => ⟨_, _, ⟨rfl, rfl⟩, h⟩⟩
  | .ret _ e, storages, scope, h => by
    have ih := outlives_convertExpr f e storages scope h
    simp only [Outlives, convertExpr, Sexpr.list, Sexpr.cons.injEq, and_true, true_and, HeapSafe]
    rw [← ih]
    exact ⟨fun ⟨_, h₁, h⟩ => h₁ ▸ h, fun h => ⟨_, rfl, h⟩⟩

theorem bodyOutlives_convertBody (f : Name) :
    ∀ (body : Body) (storages : List (Name × Storage)) (scope : List (Name × Bool)),
      Agree (bodyKinds body) storages scope →
        (BodyOutlives storages body (convertBody (storages.map Prod.fst ++ [f]) body) ↔
          BodyHeapSafe f scope body)
  | .last e, storages, scope, h => by
    have ih := outlives_convertExpr f e storages scope h
    simp only [BodyOutlives, convertBody, Sexpr.list, Sexpr.cons.injEq, and_true, BodyHeapSafe]
    rw [← ih]
    exact ⟨fun ⟨_, h₁, h⟩ => h₁ ▸ h, fun h => ⟨_, rfl, h⟩⟩
  | .cons e rest, storages, scope, h => by
    have ih := outlives_convertExpr f e storages scope
      (h.mono fun _ => List.mem_append_left _)
    have ih' := bodyOutlives_convertBody f rest storages scope
      (h.mono fun _ => List.mem_append_right _)
    simp only [BodyOutlives, convertBody, Sexpr.cons.injEq, BodyHeapSafe]
    rw [← ih, ← ih']
    exact ⟨fun ⟨_, _, ⟨h₁, h₂⟩, h⟩ => h₁ ▸ h₂ ▸ h, fun h => ⟨_, _, ⟨rfl, rfl⟩, h⟩⟩

theorem argsOutlive_convertArgs (f : Name) :
    ∀ (args : Args) (storages : List (Name × Storage)) (scope : List (Name × Bool)),
      Agree (argsKinds args) storages scope →
        (ArgsOutlive storages args (convertArgs (storages.map Prod.fst ++ [f]) args) ↔
          ArgsHeapSafe f scope args)
  | .nil, _, _, _ => iff_of_true rfl True.intro
  | .cons e rest, storages, scope, h => by
    have ih := outlives_convertExpr f e storages scope
      (h.mono fun _ => List.mem_append_left _)
    have ih' := argsOutlive_convertArgs f rest storages scope
      (h.mono fun _ => List.mem_append_right _)
    simp only [ArgsOutlive, convertArgs, Sexpr.cons.injEq, ArgsHeapSafe]
    rw [← ih, ← ih']
    exact ⟨fun ⟨_, _, ⟨h₁, h₂⟩, h⟩ => h₁ ▸ h₂ ▸ h, fun h => ⟨_, _, ⟨rfl, rfl⟩, h⟩⟩

theorem letOutlives_convertBindings (f : Name) :
    ∀ (bindings : Bindings) (storages : List (Name × Storage)) (scope : List (Name × Bool)),
      Agree (letKinds bindings) storages scope →
        (LetOutlives storages bindings
            (convertBindings (storages.map Prod.fst ++ [f]) bindings) ↔
          LetHeapSafe f scope bindings)
  | .nil, _, _, _ => iff_of_true rfl True.intro
  | .cons _ init rest, storages, scope, h => by
    have ih := outlives_convertExpr f init storages scope
      (h.mono fun _ => List.mem_append_left _)
    have ih' := letOutlives_convertBindings f rest storages scope
      (h.mono fun _ => List.mem_append_right _)
    simp only [LetOutlives, convertBindings, Sexpr.list, Sexpr.cons.injEq, and_true, true_and,
      LetHeapSafe]
    rw [← ih, ← ih']
    exact ⟨fun ⟨_, _, ⟨h₁, h₂⟩, h⟩ => h₁ ▸ h₂ ▸ h, fun h => ⟨_, _, ⟨rfl, rfl⟩, h⟩⟩

end

end Lifetimes

/-! ## Programs -/

/-- In the conversion of a form, as `impc:ti:run` calls it for the function `f`, captured
variables live as long as the closures that capture them iff those on the heap are safe. -/
theorem outlives_iff (f : Name) (e : Expr) :
    (∃ out, closureConvert [.sym f.text] e.toSexpr = some out ∧ Outlives [] e out) ↔
      HeapSafe f [] e := by
  have hconvert : closureConvert [.sym f.text] e.toSexpr = some (convertExpr [f] e) :=
    closureConvert_toSexpr [f] (List.cons_ne_nil f []) e
  rw [← outlives_convertExpr f e [] [] List.Forall₂.nil]
  constructor
  · intro ⟨out, hout, houtlives⟩
    rw [hconvert] at hout
    cases hout
    exact houtlives
  · exact fun h => ⟨_, hconvert, h⟩

section Example

open ReturnMarks (nameF nameX var)

def nameG : Name := ⟨"g", g_notMem_keywords⟩

def nameY : Name := ⟨"y", y_notMem_keywords⟩

/-- `(let ((f (lambda (x) (let ((y x)) (let ((g (lambdah () y))) g))))) f)` -/
def heapClosure : Expr :=
  .lets .letPlain (.cons nameF (.lambda .lambda [nameX] (.last (.lets .letPlain
    (.cons nameY (var nameX) .nil) (.last (.lets .letPlain
      (.cons nameG (.lambda .lambdah [] (.last (var nameY))) .nil) (.last (var nameG))))))) .nil)
    (.last (var nameF))

/-- The closure on the heap captures `y`, which is on the stack. -/
theorem not_outlives_heapClosure :
    ¬ ∃ out, closureConvert [.sym nameF.text] heapClosure.toSexpr = some out ∧
      Outlives [] heapClosure out := by
  intro ⟨out, hout, houtlives⟩
  have hconvert : closureConvert [.sym nameF.text] heapClosure.toSexpr =
      some (convertExpr [nameF] heapClosure) :=
    closureConvert_toSexpr [nameF] (List.cons_ne_nil _ _) heapClosure
  rw [hconvert] at hout
  cases hout
  have hsafe := (outlives_convertExpr nameF heapClosure [] [] List.Forall₂.nil).mp houtlives
  simp [heapClosure, HeapSafe, LetHeapSafe, BodyHeapSafe, AllButOutermost, bindAll, letNames,
    nameF, nameX, nameG, nameY] at hsafe

end Example

end Extempore.StorageLifetimes
