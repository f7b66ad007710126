import Mathlib.Data.List.Forall2
import Mathlib.Tactic.Ring
import Extempore.LetMachine

/-!
# The emitted code of a let form against its meaning

The code and the program run in step: they allocate variables and closures in the same order. The
code computes what the program means as long as no closure that captures variables is called
before its let form has evaluated all its initialisers.
-/

namespace Extempore.LetRefinement
open LetForms LetMachine

/-! ## Related outcomes -/

/-- The second run ends as the first one does, with related results. -/
def Sim {κ κ' α β : Type} (R : α → Heap κ → β → Heap κ' → Prop) :
    Outcome κ α → Outcome κ' β → Prop
  | .ok a h, o => ∃ b h', o = .ok b h' ∧ R a h b h'
  | .stop r log, o => o = .stop r log

theorem Sim.bind {κ κ' α β γ δ : Type} {R : α → Heap κ → β → Heap κ' → Prop}
    {Q : γ → Heap κ → δ → Heap κ' → Prop} {x : Outcome κ α} {y : Outcome κ' β}
    {f : α → Heap κ → Outcome κ γ} {g : β → Heap κ' → Outcome κ' δ} (hxy : Sim R x y)
    (hfg : ∀ a h b h', R a h b h' → Sim Q (f a h) (g b h')) : Sim Q (x.bind f) (y.bind g) := by
  cases x with
  | ok a h =>
    obtain ⟨b, h', rfl, hR⟩ := hxy
    exact hfg a h b h' hR
  | stop r log =>
    rw [show y = .stop r log from hxy]
    rfl

theorem Sim.bind_left {κ κ' α β γ : Type} {R : α → Heap κ → β → Heap κ' → Prop}
    {Q : γ → Heap κ → β → Heap κ' → Prop} {x : Outcome κ α} {y : Outcome κ' β}
    {f : α → Heap κ → Outcome κ γ} (hxy : Sim R x y)
    (hf : ∀ a h b h', R a h b h' → Sim Q (f a h) (.ok b h')) : Sim Q (x.bind f) y := by
  cases x with
  | ok a h =>
    obtain ⟨b, h', rfl, hR⟩ := hxy
    exact hf a h b h' hR
  | stop r log => exact hxy

theorem Sim.bind_right {κ κ' α β δ : Type} {R : α → Heap κ → β → Heap κ' → Prop}
    {Q : α → Heap κ → δ → Heap κ' → Prop} {x : Outcome κ α} {y : Outcome κ' β}
    {g : β → Heap κ' → Outcome κ' δ} (hxy : Sim R x y)
    (hg : ∀ a h b h', R a h b h' → Sim Q (.ok a h) (g b h')) : Sim Q x (y.bind g) := by
  cases x with
  | ok a h =>
    obtain ⟨b, h', rfl, hR⟩ := hxy
    exact hg a h b h' hR
  | stop r log =>
    rw [show y = .stop r log from hxy]
    rfl

theorem Sim.ok {κ κ' α β : Type} {R : α → Heap κ → β → Heap κ' → Prop} {a : α} {h : Heap κ}
    {b : β} {h' : Heap κ'} (hR : R a h b h') : Sim R (.ok a h) (.ok b h') :=
  ⟨b, h', rfl, hR⟩

theorem Sim.stop {κ κ' α β : Type} {R : α → Heap κ → β → Heap κ' → Prop} (r : Stop)
    {log log' : List Event} (hlog : log' = log) :
    Sim R (.stop r log) (.stop r log' : Outcome κ' β) := by
  rw [hlog]
  rfl

theorem Sim.mono {κ κ' α β : Type} {R Q : α → Heap κ → β → Heap κ' → Prop} {x : Outcome κ α}
    {y : Outcome κ' β} (hxy : Sim R x y) (hRQ : ∀ a h b h', R a h b h' → Q a h b h') :
    Sim Q x y := by
  cases x with
  | ok a h =>
    obtain ⟨b, h', rfl, hR⟩ := hxy
    exact Sim.ok (hRQ a h b h' hR)
  | stop r log => exact hxy

/-! ## Related states -/

/-- A closure structure holds the function of its lambda, and the addresses of the captured
variables once its let form is complete. -/
structure RepClosure (c : LetForms.Closure) (t : LetMachine.Closure) : Prop where
  func : ∃ k, t.func = makeFunction c.env c.args c.code k
  wf : Wf (c.args ++ c.env) c.code
  nodup : c.args.Nodup
  fresh : ∀ x ∈ c.args, x ∉ c.env
  bound : ∀ x ∈ c.env, (c.scope.lookup x).isSome
  slots : t.slots = c.env.map fun x => if c.complete then c.scope.lookup x else none

structure Represents (h : Heap LetForms.Closure) (h' : Heap LetMachine.Closure) : Prop where
  cells : h'.cells = h.cells
  log : h'.log = h.log
  closures : List.Forall₂ RepClosure h.closures h'.closures

/-- Closures stay what they are, but may become complete. -/
def Grows (h h' : Heap LetForms.Closure) : Prop :=
  ∀ (k : ℕ) (c : LetForms.Closure), h.closures[k]? = some c →
    ∃ b, h'.closures[k]? = some { c with complete := b }

/-- The names of the scope have the addresses in the registers. -/
def Agrees (Γ : List Name) (ρ : Scope) (F : Frame) : Prop :=
  ∀ x ∈ Γ, ∃ l, ρ.lookup x = some l ∧ F.ptrs x = some l

/-- The registers given out before `k` and the addresses of the names in scope are kept. -/
structure Keeps (k : ℕ) (Γ : List Name) (F F' : Frame) : Prop where
  temps : ∀ t < k, F'.temps t = F.temps t
  ptrs : ∀ x ∈ Γ, F'.ptrs x = F.ptrs x

theorem Grows.refl (h : Heap LetForms.Closure) : Grows h h := fun _ c hc => ⟨c.complete, hc⟩

theorem Grows.trans {h₁ h₂ h₃ : Heap LetForms.Closure} (h12 : Grows h₁ h₂) (h23 : Grows h₂ h₃) :
    Grows h₁ h₃ := by
  intro k c hc
  obtain ⟨b, hb⟩ := h12 k c hc
  obtain ⟨b', hb'⟩ := h23 k _ hb
  exact ⟨b', hb'⟩

theorem Grows.of_closures {h₁ h₂ h₃ : Heap LetForms.Closure} (hg : Grows h₁ h₂)
    (heq : h₃.closures = h₂.closures) : Grows h₁ h₃ := by
  intro k c hc
  rw [heq]
  exact hg k c hc

theorem Grows.newClosure (h : Heap LetForms.Closure) (c : LetForms.Closure) :
    Grows h (h.newClosure c) := by
  intro k d hd
  have hk : k < h.closures.length := (List.getElem?_eq_some_iff.mp hd).1
  refine ⟨d.complete, ?_⟩
  rw [Heap.newClosure, List.getElem?_append_left hk]
  exact hd

theorem Keeps.refl (k : ℕ) (Γ : List Name) (F : Frame) : Keeps k Γ F F :=
  ⟨fun _ _ => rfl, fun _ _ => rfl⟩

theorem Keeps.trans {k k' : ℕ} {Γ : List Name} {F₁ F₂ F₃ : Frame} (h12 : Keeps k Γ F₁ F₂)
    (h23 : Keeps k' Γ F₂ F₃) (hk : k ≤ k') : Keeps k Γ F₁ F₃ := by
  constructor
  · intro t ht
    rw [h23.temps t (by omega), h12.temps t ht]
  · intro x hx
    rw [h23.ptrs x hx, h12.ptrs x hx]

theorem Keeps.setTemp {k t : ℕ} {Γ : List Name} {F F' : Frame} (h : Keeps k Γ F F')
    (ht : k ≤ t) (v : Value) : Keeps k Γ F (F'.setTemp t v) := by
  constructor
  · intro s hs
    rw [← h.temps s hs]
    exact Function.update_of_ne (by omega) _ _
  · exact h.ptrs

theorem Agrees.keeps {k : ℕ} {Γ : List Name} {ρ : Scope} {F F' : Frame} (h : Agrees Γ ρ F)
    (hk : Keeps k Γ F F') : Agrees Γ ρ F' := by
  intro x hx
  obtain ⟨l, hl, hp⟩ := h x hx
  exact ⟨l, hl, (hk.ptrs x hx).trans hp⟩

theorem Represents.getElem? {h : Heap LetForms.Closure} {h' : Heap LetMachine.Closure}
    (hr : Represents h h') {k : ℕ} {c : LetForms.Closure} (hc : h.closures[k]? = some c) :
    ∃ t, h'.closures[k]? = some t ∧ RepClosure c t := by
  obtain ⟨hk, rfl⟩ := List.getElem?_eq_some_iff.mp hc
  have hk' : k < h'.closures.length := hr.closures.length_eq ▸ hk
  exact ⟨h'.closures[k], List.getElem?_eq_getElem hk', hr.closures.get hk hk'⟩

theorem Represents.write {h : Heap LetForms.Closure} {h' : Heap LetMachine.Closure}
    (hr : Represents h h') (l : Loc) (v : Value) : Represents (h.write l v) (h'.write l v) :=
  ⟨by rw [Heap.write, Heap.write, hr.cells], hr.log, hr.closures⟩

theorem Represents.alloc {h : Heap LetForms.Closure} {h' : Heap LetMachine.Closure}
    (hr : Represents h h') (vs : List (Option Value)) : Represents (h.alloc vs) (h'.alloc vs) :=
  ⟨by rw [Heap.alloc, Heap.alloc, hr.cells], hr.log, hr.closures⟩

theorem Represents.record {h : Heap LetForms.Closure} {h' : Heap LetMachine.Closure}
    (hr : Represents h h') (x : Name) (v : Value) : Represents (h.record x v) (h'.record x v) :=
  ⟨hr.cells, by rw [Heap.record, Heap.record, hr.log], hr.closures⟩

theorem Represents.newClosure {h : Heap LetForms.Closure} {h' : Heap LetMachine.Closure}
    (hr : Represents h h') {c : LetForms.Closure} {t : LetMachine.Closure} (hc : RepClosure c t) :
    Represents (h.newClosure c) (h'.newClosure t) :=
  ⟨hr.cells, hr.log, List.rel_append hr.closures (.cons hc .nil)⟩

theorem Represents.length {h : Heap LetForms.Closure} {h' : Heap LetMachine.Closure}
    (hr : Represents h h') : h'.closures.length = h.closures.length :=
  hr.closures.length_eq.symm

theorem Represents.read {h : Heap LetForms.Closure} {h' : Heap LetMachine.Closure}
    (hr : Represents h h') : h'.read = h.read := by
  funext l
  rw [Heap.read, Heap.read, hr.cells]

/-! ## Results of the code generator -/

/-- A result given out before `k`. -/
def Below (k : ℕ) : Operand → Prop
  | .lit _ => True
  | .temp t => t < k
  | .named _ => False

theorem Below.mono {k k' : ℕ} {o : Operand} (h : Below k o) (hk : k ≤ k') : Below k' o := by
  cases o with
  | lit n => trivial
  | temp t => exact Nat.lt_of_lt_of_le h hk
  | named x => exact h

theorem Keeps.value {k : ℕ} {Γ : List Name} {F F' : Frame} (h : Keeps k Γ F F') {o : Operand}
    (ho : Below k o) : F'.value o = F.value o := by
  cases o with
  | lit n => rfl
  | temp t => exact h.temps t ho
  | named x => exact ho.elim

theorem Keeps.values {k : ℕ} {Γ : List Name} {F F' : Frame} (h : Keeps k Γ F F')
    {os : List Operand} (ho : ∀ o ∈ os, Below k o) : os.mapM F'.value = os.mapM F.value := by
  induction os with
  | nil => rfl
  | cons o os ih =>
    rw [List.mapM_cons, List.mapM_cons, h.value (ho o List.mem_cons_self),
      ih fun o ho' => ho o (List.mem_cons_of_mem _ ho')]

mutual

theorem compile_below : ∀ (e : Expr) (k : ℕ),
    k ≤ (compile e k).next ∧ Below (compile e k).next (compile e k).result
  | .num n, k => ⟨Nat.le_refl k, trivial⟩
  | .var x, k => ⟨Nat.le_succ k, Nat.lt_succ_self k⟩
  | .op o a b, k => by
      have ha := compile_below a k
      have hb := compile_below b (compile a k).next
      exact ⟨by simp only [compile]; omega, Nat.lt_succ_self _⟩
  | .set x e, k => compile_below e k
  | .begin a b, k => by
      have ha := compile_below a k
      have hb := compile_below b (compile a k).next
      exact ⟨ha.1.trans hb.1, hb.2⟩
  | .ite c a b, k => by
      have hc := compile_below c k
      have ha := compile_below a (compile c k).next
      have hb := compile_below b (compile a (compile c k).next).next
      exact ⟨by simp only [compile]; omega, Nat.lt_succ_self _⟩
  | .apply f args, k => by
      have hargs := (compileArgs_below args k).1
      exact ⟨show k ≤ (compileArgs args k).2.2 + 2 from Nat.le_add_right_of_le hargs,
        Nat.lt_succ_self _⟩
  | .makeEnv bs body, k => by
      have hbs := compileBindings_below bs k
      have hb := compile_below body (compileBindings bs k).2
      exact ⟨hbs.trans hb.1, hb.2⟩

theorem compileArgs_below : ∀ (es : Exprs) (k : ℕ),
    k ≤ (compileArgs es k).2.2 ∧ ∀ o ∈ (compileArgs es k).2.1, Below (compileArgs es k).2.2 o
  | .nil, k => ⟨Nat.le_refl k, fun _ ho => by cases ho⟩
  | .cons e es, k => by
      have he := compile_below e k
      have hes := compileArgs_below es (compile e k).next
      refine ⟨he.1.trans hes.1, fun o ho => ?_⟩
      cases ho with
      | head => exact he.2.mono hes.1
      | tail _ ho => exact hes.2 o ho

theorem compileBindings_below : ∀ (bs : Bindings) (k : ℕ), k ≤ (compileBindings bs k).2
  | .nil, k => Nat.le_refl k
  | .expr x e bs, k =>
      (compile_below e k).1.trans (compileBindings_below bs (compile e k).next)
  | .closure x env args code bs, k => by
      have hc := (compile_below code k).1
      have hbs := compileBindings_below bs ((compile code k).next + 1)
      simp only [compileBindings]
      omega

end

theorem compileBindings_sym : ∀ (bs : Bindings) (k : ℕ),
    (compileBindings bs k).1.map Assigned.sym = bs.names
  | .nil, _ => rfl
  | .expr x _ bs, _ => congrArg (x :: ·) (compileBindings_sym bs _)
  | .closure x _ _ _ bs, _ => congrArg (x :: ·) (compileBindings_sym bs _)

/-! ## Runs of emitted parts -/

theorem run_append (call : Call LetMachine.Closure) (a b : List Instr) (F : Frame)
    (h : Heap LetMachine.Closure) :
    run call (a ++ b) F h = (run call a F h).bind fun F h => run call b F h := by
  induction a generalizing F h with
  | nil => rfl
  | cons i a ih =>
    simp only [List.cons_append, run, Outcome.bind_assoc]
    congr 1
    funext F h
    exact ih F h

/-- The variables are at new addresses from `n` on. -/
structure Placed (xs : List Name) (n : ℕ) (F F' : Frame) : Prop where
  other : ∀ x, x ∉ xs → F'.ptrs x = F.ptrs x
  names : ∀ x ∈ xs, ∃ l, (xs.zipIdx n).lookup x = some l ∧ F'.ptrs x = some l

theorem Placed.nil (n : ℕ) (F : Frame) : Placed [] n F F :=
  ⟨fun _ _ => rfl, fun _ hx => by cases hx⟩

theorem Placed.cons {y : Name} {xs : List Name} {n : ℕ} {F F' : Frame} (hy : y ∉ xs)
    (h : Placed xs (n + 1) (F.setPtr y n) F') : Placed (y :: xs) n F F' := by
  constructor
  · intro x hx
    rw [List.mem_cons, not_or] at hx
    rw [h.other x hx.2]
    exact Function.update_of_ne hx.1 _ _
  · intro x hx
    by_cases heq : x = y
    · subst heq
      refine ⟨n, by simp [List.zipIdx_cons], ?_⟩
      rw [h.other x hy]
      exact Function.update_self _ _ _
    · obtain ⟨l, hl, hp⟩ := h.names x ((List.mem_cons.mp hx).resolve_left heq)
      refine ⟨l, ?_, hp⟩
      rw [List.zipIdx_cons, List.lookup_cons, beq_false_of_ne heq]
      exact hl

/-- New variables come before those in scope. -/
theorem Agrees.placed {Γ xs : List Name} {ρ : Scope} {n : ℕ} {F F' : Frame} (h : Agrees Γ ρ F)
    (hp : Placed xs n F F') :
    Agrees (xs ++ Γ) (xs.zipIdx n ++ ρ) F' := by
  intro x hx
  rw [List.lookup_append]
  by_cases hmem : x ∈ xs
  · obtain ⟨l, hl, hptr⟩ := hp.names x hmem
    exact ⟨l, by rw [hl]; rfl, hptr⟩
  · obtain ⟨l, hl, hptr⟩ := h x ((List.mem_append.mp hx).resolve_left hmem)
    have hnone : (xs.zipIdx n).lookup x = none := by
      rw [List.lookup_eq_none_iff]
      intro p hpmem
      refine bne_iff_ne.mpr fun heq => hmem ?_
      rw [heq]
      exact List.fst_mem_of_mem_zipIdx hpmem
    exact ⟨l, by rw [hnone]; exact hl, (hp.other x hmem).trans hptr⟩

@[simp] theorem alloc_alloc {κ : Type} (h : Heap κ) (vs ws : List (Option Value)) :
    (h.alloc vs).alloc ws = h.alloc (vs ++ ws) := by
  simp [Heap.alloc]

@[simp] theorem alloc_nil {κ : Type} (h : Heap κ) : h.alloc [] = h := by
  simp [Heap.alloc]

@[simp] theorem length_alloc {κ : Type} (h : Heap κ) (vs : List (Option Value)) :
    (h.alloc vs).cells.length = h.cells.length + vs.length :=
  List.length_append

theorem write_alloc {κ : Type} (h : Heap κ) (v : Value) :
    (h.alloc [none]).write h.cells.length v = h.alloc [some v] := by
  simp [Heap.alloc, Heap.write]

/-- All variables of a let form are allocated. -/
theorem run_allocas (call : Call LetMachine.Closure) (xs : List Name) (F : Frame)
    (h : Heap LetMachine.Closure) (hnodup : xs.Nodup) :
    ∃ F', run call (xs.map .alloca) F h = .ok F' (h.alloc (xs.map fun _ => none)) ∧
      F'.temps = F.temps ∧ Placed xs h.cells.length F F' := by
  induction xs generalizing F h with
  | nil => exact ⟨F, by simp [run], rfl, .nil _ F⟩
  | cons y xs ih =>
    rw [List.nodup_cons] at hnodup
    obtain ⟨F', hrun, htemps, hplaced⟩ :=
      ih (F.setPtr y h.cells.length) (h.alloc [none]) hnodup.2
    refine ⟨F', ?_, htemps, .cons hnodup.1 (by simpa using hplaced)⟩
    rw [List.map_cons, run, step, Outcome.ok_bind, hrun, alloc_alloc]
    rfl

/-- The arguments are stored in new variables. -/
theorem run_arguments (call : Call LetMachine.Closure) {xs : List Name} {vs : List Value}
    {ν : Name → Option Value} (hvalues : List.Forall₂ (fun x v => ν x = some v) xs vs)
    (hnodup : xs.Nodup) (F : Frame) (h : Heap LetMachine.Closure) (hnamed : F.named = ν) :
    ∃ F', run call (xs.flatMap fun a => [.alloca a, .store (.named a) a]) F h =
        .ok F' (h.alloc (vs.map some)) ∧ Placed xs h.cells.length F F' := by
  induction hvalues generalizing F h with
  | nil => exact ⟨F, by simp [run], .nil _ F⟩
  | @cons y v xs vs hv hvs ih =>
    rw [List.nodup_cons] at hnodup
    obtain ⟨F', hrun, hplaced⟩ :=
      ih hnodup.2 (F.setPtr y h.cells.length) (h.alloc [some v]) hnamed
    refine ⟨F', ?_, .cons hnodup.1 (by simpa using hplaced)⟩
    have hptr : (F.setPtr y h.cells.length).ptrs y = some h.cells.length :=
      Function.update_self _ _ _
    have hval : (F.setPtr y h.cells.length).value (.named y) = some v := by
      rw [← hv, ← hnamed]
      rfl
    rw [List.flatMap_cons, List.cons_append, List.cons_append, List.nil_append, run, step,
      Outcome.ok_bind, run, step, hval, hptr, require, require, Outcome.ok_bind, write_alloc, hrun,
      alloc_alloc]
    rfl

theorem modify_of_getElem? {α : Type} {l : List α} {i : ℕ} {a : α} (f : α → α)
    (h : l[i]? = some a) : l.modify i f = l.set i (f a) := by
  obtain ⟨hi, rfl⟩ := List.getElem?_eq_some_iff.mp h
  have : Inhabited α := ⟨l[i]⟩
  rw [List.modify_eq_set, List.getElem?_eq_getElem hi]
  rfl

/-- The environment of a closure is filled with the addresses of the variables. -/
theorem run_fills (call : Call LetMachine.Closure) {t k : ℕ} {F : Frame} {ρ : Scope}
    (htemp : F.temps t = some (.closure k)) (env : List Name) (hagrees : Agrees env ρ F)
    (done rest : List (Option Loc)) (h : Heap LetMachine.Closure) (c : LetMachine.Closure)
    (hc : h.closures[k]? = some c) (hslots : c.slots = done ++ rest)
    (hrest : rest.length = env.length) :
    run call ((env.zipIdx done.length).map fun p => .fillSlot t p.2 p.1) F h =
      .ok F { h with closures := (h.closures.set k
        { c with slots := done ++ env.map fun x => ρ.lookup x }) } := by
  induction env generalizing done rest h c with
  | nil =>
    have hself : h.closures.set k c = h.closures := by
      obtain ⟨hk, rfl⟩ := List.getElem?_eq_some_iff.mp hc
      exact List.set_getElem_self hk
    obtain rfl := List.length_eq_zero_iff.mp hrest
    rw [List.map_nil, ← hslots]
    simp [run, hself]
  | cons x env ih =>
    obtain ⟨l, hl, hp⟩ := hagrees x List.mem_cons_self
    cases rest with
    | nil => cases hrest
    | cons r rest =>
      have hk : k < h.closures.length := (List.getElem?_eq_some_iff.mp hc).1
      let c' : LetMachine.Closure := { c with slots := (done ++ [some l]) ++ rest }
      have hfill : LetMachine.fillSlot k done.length l h =
          { h with closures := h.closures.set k c' } := by
        rw [LetMachine.fillSlot, Heap.modifyClosure, modify_of_getElem? _ hc, hslots]
        simp [c']
      have hrun := ih (fun x hx => hagrees x (List.mem_cons_of_mem _ hx)) (done ++ [some l]) rest
        { h with closures := h.closures.set k c' } c'
        (by simp [hk]) rfl (Nat.succ_injective hrest)
      rw [List.length_append, List.length_singleton] at hrun
      rw [List.zipIdx_cons, List.map_cons, run, step, htemp, hp]
      simp only [Outcome.ok_bind, hfill, hrun, List.set_set, List.map_cons, hl,
        List.append_assoc, List.singleton_append]
      rfl

/-- The environment of a complete closure is loaded. -/
theorem run_loadSlots (call : Call LetMachine.Closure) {ρ : Scope} (env : List Name)
    (hbound : ∀ x ∈ env, (ρ.lookup x).isSome) (done : List (Option Loc)) (F : Frame)
    (h : Heap LetMachine.Closure) (c : LetMachine.Closure) (hc : h.closures[F.self]? = some c)
    (hslots : c.slots = done ++ env.map fun x => ρ.lookup x) :
    ∃ F', run call ((env.zipIdx done.length).map fun p => .loadSlot p.2 p.1) F h = .ok F' h ∧
      F'.named = F.named ∧ (∀ x, x ∉ env → F'.ptrs x = F.ptrs x) ∧ Agrees env ρ F' := by
  induction env generalizing done F with
  | nil => exact ⟨F, rfl, rfl, fun _ _ => rfl, fun x hx => by cases hx⟩
  | cons y env ih =>
    obtain ⟨l, hl⟩ := Option.isSome_iff_exists.mp (hbound y List.mem_cons_self)
    obtain ⟨F', hrun, hnamed, hother, hagrees⟩ :=
      ih (fun x hx => hbound x (List.mem_cons_of_mem _ hx)) (done ++ [some l]) (F.setPtr y l) hc
        (by simp [hslots, hl])
    rw [List.length_append, List.length_singleton] at hrun
    have hslot : (h.closures[F.self]?).bind (·.slots[done.length]?) = some (some l) := by
      simp [hc, hslots, hl]
    refine ⟨F', ?_, hnamed, fun x hx => ?_, fun x hx => ?_⟩
    · rw [List.zipIdx_cons, List.map_cons, run, step, LetMachine.loadSlot, hslot]
      exact hrun
    · rw [List.mem_cons, not_or] at hx
      rw [hother x hx.2]
      exact Function.update_of_ne hx.1 _ _
    · by_cases hmem : x ∈ env
      · exact hagrees x hmem
      · obtain rfl := (List.mem_cons.mp hx).resolve_right hmem
        refine ⟨l, hl, ?_⟩
        rw [hother x hmem]
        exact Function.update_self _ _ _

/-- An environment that is not filled stops the function at its first slot. -/
theorem run_loadSlots_early (call : Call LetMachine.Closure) {env : List Name} (hne : env ≠ [])
    (code : List Instr) (F : Frame) (h : Heap LetMachine.Closure) (c : LetMachine.Closure)
    (hc : h.closures[F.self]? = some c) (hslots : c.slots = env.map fun _ => none) :
    run call ((env.zipIdx.map fun p => .loadSlot p.2 p.1) ++ code) F h = .stop .early h.log := by
  cases env with
  | nil => exact absurd rfl hne
  | cons x env =>
    have hslot : (h.closures[F.self]?).bind (·.slots[0]?) = some none := by
      simp [hc, hslots]
    rw [List.zipIdx_cons, List.map_cons, List.cons_append, run, step, LetMachine.loadSlot, hslot]
    rfl

/-! ## Filling the environments of a let form -/

/-- The instructions fill the environment of closure `k`. -/
def Fills (ρ : Scope) (Γ : List Name) (h : Heap LetForms.Closure) (F : Frame) (k : ℕ)
    (f : List Instr) : Prop :=
  ∃ t c, f = fills t c.env ∧ F.temps t = some (.closure k) ∧ (∀ x ∈ c.env, x ∈ Γ) ∧
    h.closures[k]? = some c ∧ c.scope = ρ

theorem Fills.grows {ρ : Scope} {Γ : List Name} {h h₁ : Heap LetForms.Closure} {F : Frame} {k : ℕ}
    {f : List Instr} (hf : Fills ρ Γ h F k f) (hg : Grows h h₁) : Fills ρ Γ h₁ F k f := by
  obtain ⟨t, c, hfills, htemp, henv, hc, hscope⟩ := hf
  obtain ⟨b, hb⟩ := hg k c hc
  exact ⟨t, { c with complete := b }, hfills, htemp, henv, hb, hscope⟩

theorem forall₂_set {α β : Type} {R : α → β → Prop} {l : List α} {l' : List β}
    (h : List.Forall₂ R l l') {a : α} {b : β} (hab : R a b) (i : ℕ) :
    List.Forall₂ R (l.set i a) (l'.set i b) := by
  induction h generalizing i with
  | nil => exact .nil
  | cons hxy hxs ih =>
    cases i with
    | zero => exact .cons hab hxs
    | succ i => exact .cons hxy (ih i)

theorem Grows.set {h : Heap LetForms.Closure} {k : ℕ} {c : LetForms.Closure}
    (hc : h.closures[k]? = some c) (b : Bool) :
    Grows h { h with closures := h.closures.set k { c with complete := b } } := by
  intro i d hd
  by_cases hik : k = i
  · subst hik
    obtain rfl : c = d := Option.some.inj (hc.symm.trans hd)
    exact ⟨b, List.getElem?_set_self (List.getElem?_eq_some_iff.mp hc).1⟩
  · exact ⟨d.complete, by rw [List.getElem?_set_ne hik]; exact hd⟩

/-- After the last pass of a let form its closures are complete. -/
theorem run_complete (call : Call LetMachine.Closure) {ρ : Scope} {Γ : List Name}
    {h : Heap LetForms.Closure} {h' : Heap LetMachine.Closure} {F : Frame} {ks : List ℕ}
    {fs : List (List Instr)} (hfs : List.Forall₂ (Fills ρ Γ h F) ks fs) (hagrees : Agrees Γ ρ F)
    (hr : Represents h h') :
    ∃ h₁', run call fs.reverse.flatten F h' = .ok F h₁' ∧ Represents (h.complete ks) h₁' ∧
      Grows h (h.complete ks) := by
  induction hfs with
  | nil => exact ⟨h', rfl, hr, .refl h⟩
  | @cons k f ks fs hf hfs ih =>
    obtain ⟨h₁', hrun, hr₁, hg₁⟩ := ih
    obtain ⟨t, c, rfl, htemp, henv, hc, hscope⟩ := hf.grows hg₁
    obtain ⟨tc, htc, hrep⟩ := hr₁.getElem? hc
    have hfill := run_fills call htemp c.env (fun x hx => hagrees x (henv x hx)) [] tc.slots h₁' tc
      htc rfl (by rw [hrep.slots, List.length_map])
    have hcomplete : h.complete (k :: ks) = { h.complete ks with
        closures := ((h.complete ks).closures.set k { c with complete := true }) } := by
      rw [← modify_of_getElem? (fun c => { c with complete := true }) hc]
      rfl
    have hrep' : RepClosure { c with complete := true }
        { tc with slots := [] ++ c.env.map fun x => ρ.lookup x } :=
      { func := hrep.func, wf := hrep.wf, nodup := hrep.nodup, fresh := hrep.fresh,
        bound := hrep.bound, slots := by simp [hscope] }
    refine ⟨{ h₁' with closures := (h₁'.closures.set k
      { tc with slots := [] ++ c.env.map fun x => ρ.lookup x }) }, ?_, ?_, ?_⟩
    · rw [List.reverse_cons, List.flatten_append, List.flatten_singleton, run_append, hrun,
        Outcome.ok_bind]
      exact hfill
    · rw [hcomplete]
      exact ⟨hr₁.cells, hr₁.log, forall₂_set hr₁.closures hrep' k⟩
    · rw [hcomplete]
      exact hg₁.trans (.set hc true)

/-! ## Expressions -/

/-- The text of an expression has been run: its result is the value, and what was there before is
kept. -/
structure Reached (h : Heap LetForms.Closure) (k : ℕ) (Γ : List Name) (F : Frame) (o : Operand)
    (v : Value) (h₁ : Heap LetForms.Closure) (F₁ : Frame) (h₁' : Heap LetMachine.Closure) :
    Prop where
  value : F₁.value o = some v
  heap : Represents h₁ h₁'
  grows : Grows h h₁
  keeps : Keeps k Γ F F₁

structure ReachedArgs (h : Heap LetForms.Closure) (k : ℕ) (Γ : List Name) (F : Frame)
    (os : List Operand) (vs : List Value) (h₁ : Heap LetForms.Closure) (F₁ : Frame)
    (h₁' : Heap LetMachine.Closure) : Prop where
  values : os.mapM F₁.value = some vs
  heap : Represents h₁ h₁'
  grows : Grows h h₁
  keeps : Keeps k Γ F F₁

/-- The initialisers have been evaluated, and the environments of the closures can be filled. -/
structure ReachedBindings (h : Heap LetForms.Closure) (k : ℕ) (Γ : List Name) (ρ : Scope)
    (F : Frame) (fs : List (List Instr)) (ks : List ℕ) (h₁ : Heap LetForms.Closure) (F₁ : Frame)
    (h₁' : Heap LetMachine.Closure) : Prop where
  heap : Represents h₁ h₁'
  grows : Grows h h₁
  keeps : Keeps k Γ F F₁
  fills : List.Forall₂ (Fills ρ Γ h₁ F₁) ks fs

/-- Calls of related closures are related. -/
def SimCalls (call : Call LetForms.Closure) (call' : Call LetMachine.Closure) : Prop :=
  ∀ k vs h h', Represents h h' →
    Sim (fun v h₁ w h₁' => w = v ∧ Represents h₁ h₁' ∧ Grows h h₁) (call k vs h) (call' k vs h')

section Expressions

variable {call : Call LetForms.Closure} {call' : Call LetMachine.Closure}
  {h : Heap LetForms.Closure} {h' : Heap LetMachine.Closure} {F : Frame} {Γ : List Name}
  {ρ : Scope}

theorem sim_var {x : Name} (hx : x ∈ Γ) (hagrees : Agrees Γ ρ F) (hr : Represents h h')
    {k t : ℕ} (ht : k ≤ t) :
    Sim (Reached h k Γ F (.temp t)) (evalVar x ρ h) (run call' [.load t x] F h') := by
  obtain ⟨l, hl, hp⟩ := hagrees x hx
  have hread : ((F.ptrs x).bind h'.read) = (ρ.lookup x).bind h.read := by rw [hl, hp, hr.read]
  rw [evalVar, run, step, hread]
  cases (ρ.lookup x).bind h.read with
  | none => exact Sim.stop _ hr.log
  | some v =>
    exact Sim.ok ⟨Function.update_self _ _ _, hr, .refl h, (Keeps.refl k Γ F).setTemp ht v⟩

theorem sim_op (o : Op) {a b : Operand} {u v : Value} (ha : F.value a = some u)
    (hb : F.value b = some v) (hr : Represents h h') {k t : ℕ} (ht : k ≤ t) :
    Sim (Reached h k Γ F (.temp t)) (evalOp o u v h) (run call' [.binary t o a b] F h') := by
  rw [run, step, ha, hb, require, require]
  cases u with
  | closure i => exact Sim.stop _ hr.log
  | num m => cases v with
    | closure i => exact Sim.stop _ hr.log
    | num n =>
      exact Sim.ok ⟨Function.update_self _ _ _, hr, .refl h, (Keeps.refl k Γ F).setTemp ht _⟩

theorem sim_store {x : Name} {v : Value} (hx : x ∈ Γ) (hagrees : Agrees Γ ρ F) {o : Operand}
    (ho : F.value o = some v) (hr : Represents h h') :
    Sim (fun w h₁ F₁ h₁' => w = v ∧ F₁ = F ∧ Represents h₁ h₁' ∧ h₁.closures = h.closures)
      (assign x ρ v h) (run call' [.store o x] F h') := by
  obtain ⟨l, hl, hp⟩ := hagrees x hx
  rw [assign, hl, run, step, ho, hp]
  exact Sim.ok ⟨rfl, rfl, hr.write l v, rfl⟩

/-- The value of an initialiser is selected and stored. -/
theorem sim_initialise {x : Name} {v : Value} (hx : x ∈ Γ) (hagrees : Agrees Γ ρ F) {o : Operand}
    (ho : F.value o = some v) (hr : Represents h h') :
    Sim (fun _ h₁ F₁ h₁' => F₁ = F.setNamed x v ∧ Represents h₁ h₁' ∧ h₁.closures = h.closures)
      (initialise x ρ v h) (run call' [.select x o, .store (.named x) x] F h') := by
  have hagrees' : Agrees Γ ρ (F.setNamed x v) := hagrees
  have hnamed : (F.setNamed x v).value (.named x) = some v := Function.update_self _ _ _
  rw [run, step, ho, require, Outcome.ok_bind, initialise]
  exact (sim_store hx hagrees' hnamed (hr.record x v)).mono
    fun _ h₁ F₁ h₁' hstored => ⟨hstored.2.1, hstored.2.2.1, hstored.2.2.2⟩

theorem sim_call (hcall : SimCalls call call') {f : Value} {vs : List Value} {k t s : ℕ}
    {os : List Operand} (hf : F.temps s = some f) (hvs : os.mapM F.value = some vs)
    (hr : Represents h h') (ht : k ≤ t) :
    Sim (Reached h k Γ F (.temp t)) (applyValue call f vs h) (run call' [.call t s os] F h') := by
  cases f with
  | num n =>
    simp only [applyValue, run, step, hf, Outcome.stop_bind]
    exact Sim.stop _ hr.log
  | closure i =>
    simp only [applyValue, run, step, hf, hvs, Outcome.bind_assoc, Outcome.ok_bind]
    exact (hcall i vs h h' hr).bind_right fun v h₁ w h₁' hres => by
      obtain ⟨rfl, hr₁, hg₁⟩ := hres
      exact Sim.ok ⟨Function.update_self _ _ _, hr₁, hg₁, (Keeps.refl k Γ F).setTemp ht w⟩

mutual

/-- The text of an expression computes its value. -/
theorem sim_compile (hcall : SimCalls call call') : ∀ (e : Expr) {Γ : List Name} {ρ : Scope}
    {F : Frame} {h : Heap LetForms.Closure} {h' : Heap LetMachine.Closure} (k : ℕ), Wf Γ e →
    Agrees Γ ρ F → Represents h h' →
    Sim (Reached h k Γ F (compile e k).result) (eval call e ρ h) (run call' (compile e k).code F h')
  | .num n, Γ, ρ, F, h, h', k, hwf, hagrees, hr => Sim.ok ⟨rfl, hr, .refl h, .refl k Γ F⟩
  | .var x, Γ, ρ, F, h, h', k, hwf, hagrees, hr => sim_var hwf hagrees hr (Nat.le_refl k)
  | .op o a b, Γ, ρ, F, h, h', k, hwf, hagrees, hr => by
      have hna := compile_below a k
      have hnb := compile_below b (compile a k).next
      simp only [eval, compile, run_append, Outcome.bind_assoc]
      apply (sim_compile hcall a k hwf.1 hagrees hr).bind
      intro u h₁ F₁ h₁' ha
      apply (sim_compile hcall b _ hwf.2 (hagrees.keeps ha.keeps) ha.heap).bind
      intro v h₂ F₂ h₂' hb
      have hu : F₂.value (compile a k).result = some u := (hb.keeps.value hna.2).trans ha.value
      apply (sim_op o hu hb.value hb.heap (hna.1.trans hnb.1)).mono
      intro w h₃ F₃ h₃' hw
      exact ⟨hw.value, hw.heap, (ha.grows.trans hb.grows).trans hw.grows,
        (ha.keeps.trans hb.keeps hna.1).trans hw.keeps (Nat.le_refl k)⟩
  | .set x e, Γ, ρ, F, h, h', k, hwf, hagrees, hr => by
      simp only [eval, compile, run_append]
      apply (sim_compile hcall e k hwf.2 hagrees hr).bind
      intro v h₁ F₁ h₁' he
      apply (sim_store hwf.1 (hagrees.keeps he.keeps) he.value he.heap).mono
      intro w h₂ F₂ h₂' hs
      obtain ⟨rfl, rfl, hr₂, hclosures⟩ := hs
      exact ⟨he.value, hr₂, he.grows.of_closures hclosures, he.keeps⟩
  | .begin a b, Γ, ρ, F, h, h', k, hwf, hagrees, hr => by
      have hna := compile_below a k
      simp only [eval, compile, run_append]
      apply (sim_compile hcall a k hwf.1 hagrees hr).bind
      intro u h₁ F₁ h₁' ha
      apply (sim_compile hcall b _ hwf.2 (hagrees.keeps ha.keeps) ha.heap).mono
      intro v h₂ F₂ h₂' hb
      exact ⟨hb.value, hb.heap, ha.grows.trans hb.grows, ha.keeps.trans hb.keeps hna.1⟩
  | .ite c a b, Γ, ρ, F, h, h', k, hwf, hagrees, hr => by
      have hnc := compile_below c k
      have hna := compile_below a (compile c k).next
      have hnb := compile_below b (compile a (compile c k).next).next
      simp only [eval, compile, run_append]
      apply (sim_compile hcall c k hwf.1 hagrees hr).bind
      intro u h₁ F₁ h₁' hc
      have hagrees₁ := hagrees.keeps hc.keeps
      simp only [run, step, hc.value]
      cases u with
      | closure i => exact Sim.stop _ hc.heap.log
      | num n =>
        by_cases hn : n = 0
        · simp only [if_pos hn, Outcome.bind_assoc]
          apply (sim_compile hcall b _ hwf.2.2 hagrees₁ hc.heap).bind_right
          intro v h₂ F₂ h₂' hb
          rw [hb.value]
          exact Sim.ok ⟨Function.update_self _ _ _, hb.heap, hc.grows.trans hb.grows,
            (hc.keeps.trans hb.keeps (hnc.1.trans hna.1)).setTemp (by omega) v⟩
        · simp only [if_neg hn, Outcome.bind_assoc]
          apply (sim_compile hcall a _ hwf.2.1 hagrees₁ hc.heap).bind_right
          intro v h₂ F₂ h₂' ha
          rw [ha.value]
          exact Sim.ok ⟨Function.update_self _ _ _, ha.heap, hc.grows.trans ha.grows,
            (hc.keeps.trans ha.keeps hnc.1).setTemp (by omega) v⟩
  | .apply f args, Γ, ρ, F, h, h', k, hwf, hagrees, hr => by
      have hn := compileArgs_below args k
      simp only [eval, compile, run_append]
      apply (sim_compileArgs hcall args k hwf.2 hagrees hr).bind
      intro vs h₁ F₁ h₁' hargs
      rw [← List.singleton_append, run_append]
      apply (sim_var hwf.1 (hagrees.keeps hargs.keeps) hargs.heap (Nat.le_refl _)).bind
      intro g h₂ F₂ h₂' hg
      have hvs := (hg.keeps.values hn.2).trans hargs.values
      apply (sim_call hcall hg.value hvs hg.heap (Nat.le_succ_of_le (Nat.le_refl _))).mono
      intro w h₃ F₃ h₃' hw
      exact ⟨hw.value, hw.heap, (hargs.grows.trans hg.grows).trans hw.grows,
        (hargs.keeps.trans hg.keeps hn.1).trans hw.keeps hn.1⟩
  | .makeEnv bs body, Γ, ρ, F, h, h', k, hwf, hagrees, hr => by
      have hn := compileBindings_below bs k
      have hsyms : (compileBindings bs k).1.map (fun r => Instr.alloca r.sym) =
          bs.names.map .alloca := by
        rw [← compileBindings_sym bs k, List.map_map]
        rfl
      obtain ⟨F₀, hrun₀, htemps₀, hplaced⟩ := run_allocas call' bs.names F h' hwf.1
      rw [hr.cells] at hplaced
      have hagrees₀ := hagrees.placed hplaced
      have hkeeps₀ : Keeps k Γ F F₀ :=
        ⟨fun t _ => congrFun htemps₀ t, fun x hx => hplaced.other x fun hmem => hwf.2.1 x hmem hx⟩
      simp only [eval, compile, makeEnv, run_append, Outcome.bind_assoc, hsyms, hrun₀,
        Outcome.ok_bind]
      apply (sim_compileBindings hcall bs k hwf.2.2.1
        (fun x hx => List.mem_append_left Γ hx) hagrees₀ (hr.alloc _)).bind
      intro ks h₁ F₁ h₁' hbs
      have hagrees₁ := hagrees₀.keeps hbs.keeps
      obtain ⟨h₂', hrun₂, hr₂, hg₂⟩ := run_complete call' hbs.fills hagrees₁ hbs.heap
      rw [hrun₂, Outcome.ok_bind]
      apply (sim_compile hcall body _ hwf.2.2.2 hagrees₁ hr₂).mono
      intro v h₃ F₃ h₃' hb
      refine ⟨hb.value, hb.heap, (hbs.grows.trans hg₂).trans hb.grows, ?_⟩
      have hkeeps := hbs.keeps.trans hb.keeps hn
      exact hkeeps₀.trans ⟨hkeeps.temps, fun x hx => hkeeps.ptrs x (List.mem_append_right _ hx)⟩
        (Nat.le_refl k)

theorem sim_compileArgs (hcall : SimCalls call call') : ∀ (es : Exprs) {Γ : List Name} {ρ : Scope}
    {F : Frame} {h : Heap LetForms.Closure} {h' : Heap LetMachine.Closure} (k : ℕ), WfArgs Γ es →
    Agrees Γ ρ F → Represents h h' →
    Sim (ReachedArgs h k Γ F (compileArgs es k).2.1) (evalArgs call es ρ h)
      (run call' (compileArgs es k).1 F h')
  | .nil, Γ, ρ, F, h, h', k, hwf, hagrees, hr => Sim.ok ⟨rfl, hr, .refl h, .refl k Γ F⟩
  | .cons e es, Γ, ρ, F, h, h', k, hwf, hagrees, hr => by
      have hne := compile_below e k
      simp only [evalArgs, compileArgs, run_append]
      apply (sim_compile hcall e k hwf.1 hagrees hr).bind
      intro v h₁ F₁ h₁' he
      apply (sim_compileArgs hcall es _ hwf.2 (hagrees.keeps he.keeps) he.heap).bind_left
      intro vs h₂ F₂ h₂' hes
      refine Sim.ok ⟨?_, hes.heap, he.grows.trans hes.grows, he.keeps.trans hes.keeps hne.1⟩
      rw [List.mapM_cons, (hes.keeps.value hne.2).trans he.value, hes.values]
      rfl

/-- The second pass of a let form evaluates the initialisers. -/
theorem sim_compileBindings (hcall : SimCalls call call') : ∀ (bs : Bindings) {Γ : List Name}
    {ρ : Scope} {F : Frame} {h : Heap LetForms.Closure} {h' : Heap LetMachine.Closure} (k : ℕ),
    WfBindings Γ bs → (∀ x ∈ bs.names, x ∈ Γ) → Agrees Γ ρ F → Represents h h' →
    Sim (ReachedBindings h k Γ ρ F ((compileBindings bs k).1.filterMap Assigned.fill))
      (evalBindings call bs ρ h)
      (run call' ((compileBindings bs k).1.flatMap fun r =>
        r.code ++ [.select r.sym r.result, .store (.named r.sym) r.sym]) F h')
  | .nil, Γ, ρ, F, h, h', k, hwf, hnames, hagrees, hr =>
      Sim.ok ⟨hr, .refl h, .refl k Γ F, .nil⟩
  | .expr x e bs, Γ, ρ, F, h, h', k, hwf, hnames, hagrees, hr => by
      have hne := compile_below e k
      simp only [evalBindings, compileBindings, List.flatMap_cons, run_append, Outcome.bind_assoc,
        List.filterMap_cons]
      apply (sim_compile hcall e k hwf.1 hagrees hr).bind
      intro v h₁ F₁ h₁' he
      apply (sim_initialise (hnames x List.mem_cons_self) (hagrees.keeps he.keeps) he.value
        he.heap).bind
      intro _ h₂ F₂ h₂' hinit
      obtain ⟨rfl, hr₂, hclosures⟩ := hinit
      have hkeeps : Keeps k Γ F (F₁.setNamed x v) := ⟨he.keeps.temps, he.keeps.ptrs⟩
      apply (sim_compileBindings hcall bs _ hwf.2 (fun y hy => hnames y (List.mem_cons_of_mem x hy))
        (hagrees.keeps hkeeps) hr₂).mono
      intro ks h₃ F₃ h₃' hbs
      exact ⟨hbs.heap, (he.grows.of_closures hclosures).trans hbs.grows,
        hkeeps.trans hbs.keeps hne.1, hbs.fills⟩
  | .closure x env args code bs, Γ, ρ, F, h, h', k, hwf, hnames, hagrees, hr => by
      obtain ⟨henv, hnodup, hfresh, hcode, hwfbs⟩ := hwf
      have hn := (compile_below code k).1
      have hrep : RepClosure ⟨env, args, code, ρ, false⟩
          ⟨makeFunction env args code k, env.map fun _ => none⟩ := by
        refine ⟨⟨k, rfl⟩, hcode, hnodup, hfresh, fun y hy => ?_, by simp⟩
        obtain ⟨l, hl, -⟩ := hagrees y (henv y hy)
        exact Option.isSome_of_eq_some hl
      have hr₁ := hr.newClosure hrep
      have hkeeps₁ := (Keeps.refl k Γ F).setTemp hn (.closure h'.closures.length)
      have hvalue : (F.setTemp (compile code k).next (.closure h'.closures.length)).value
          (.temp (compile code k).next) = some (.closure h.closures.length) := by
        rw [← hr.length]
        exact Function.update_self _ _ _
      simp only [evalBindings, compileBindings, List.flatMap_cons, run_append, Outcome.bind_assoc,
        List.filterMap_cons]
      rw [show run call' [.makeClosure _ env args _ _] F h' = .ok (F.setTemp _ _) _ from rfl,
        Outcome.ok_bind]
      apply (sim_initialise (hnames x List.mem_cons_self) (hagrees.keeps hkeeps₁) hvalue hr₁).bind
      intro _ h₂ F₂ h₂' hinit
      obtain ⟨rfl, hr₂, hclosures⟩ := hinit
      have hkeeps₂ : Keeps k Γ F ((F.setTemp (compile code k).next
          (.closure h'.closures.length)).setNamed x (.closure h.closures.length)) :=
        ⟨hkeeps₁.temps, hkeeps₁.ptrs⟩
      apply (sim_compileBindings hcall bs _ hwfbs
        (fun y hy => hnames y (List.mem_cons_of_mem x hy)) (hagrees.keeps hkeeps₂) hr₂).bind_left
      intro ks h₃ F₃ h₃' hbs
      have hgrows := ((Grows.newClosure h _).of_closures hclosures).trans hbs.grows
      have hkept := hkeeps₂.trans hbs.keeps (hn.trans (Nat.le_succ _))
      have hfills : Fills ρ Γ h₂ F₃ h.closures.length (fills (compile code k).next env) := by
        refine ⟨_, ⟨env, args, code, ρ, false⟩, rfl, ?_, henv, ?_, rfl⟩
        · rw [hbs.keeps.temps _ (Nat.lt_succ_self _)]
          exact hvalue
        · rw [hclosures, Heap.newClosure]
          exact List.getElem?_concat_length
      exact Sim.ok ⟨hbs.heap, hgrows, hkept, .cons (hfills.grows hbs.grows) hbs.fills⟩

end

end Expressions

/-! ## Calls -/

/-- The arguments of a call are in their registers. -/
theorem named_enter {args : List Name} {vs : List Value} (k : ℕ) (hnodup : args.Nodup)
    (hlength : vs.length = args.length) :
    List.Forall₂ (fun x v => (Frame.enter k args vs).named x = some v) args vs := by
  induction args generalizing vs with
  | nil =>
    obtain rfl := List.length_eq_zero_iff.mp hlength
    exact .nil
  | cons x args ih =>
    cases vs with
    | nil => cases hlength
    | cons v vs =>
      rw [List.nodup_cons] at hnodup
      have hrest := ih hnodup.2 (Nat.succ_injective hlength)
      have hne : ∀ y ∈ args, y ≠ x := fun y hy heq => hnodup.1 (heq ▸ hy)
      refine .cons (by simp [Frame.enter]) ?_
      apply ((List.forall₂_and_left _ _).mpr ⟨hne, hrest⟩).imp
      rintro y w ⟨hy, hw⟩
      show ((x, v) :: args.zip vs).lookup y = some w
      rw [List.lookup_cons, beq_false_of_ne hy]
      exact hw

/-- A call of a closure runs its function in step with its lambda. -/
theorem sim_calls : ∀ n, SimCalls (LetForms.callClosure true n) (LetMachine.callClosure n)
  | 0 => fun k vs h h' hr => Sim.stop _ hr.log
  | n + 1 => by
    intro k vs h h' hr
    rw [LetForms.callClosure, LetMachine.callClosure]
    cases hc : h.closures[k]? with
    | none =>
      have hc' : h'.closures[k]? = none := by
        rw [List.getElem?_eq_none_iff] at hc ⊢
        rwa [hr.length]
      rw [hc']
      exact Sim.stop _ hr.log
    | some c =>
      obtain ⟨tc, htc, hrep⟩ := hr.getElem? hc
      obtain ⟨i, hfunc⟩ := hrep.func
      have hargs : tc.func.args = c.args := by rw [hfunc]; rfl
      rw [htc]
      simp only [hargs]
      by_cases hlength : vs.length = c.args.length
      · simp only [hlength, ne_eq, not_true_eq_false, if_false]
        by_cases hearly : (true && !c.complete && !c.env.isEmpty) = true
        · have hne : c.env ≠ [] := by
            rintro heq
            simp [heq] at hearly
          have hslots : tc.slots = c.env.map fun _ => none := by
            simp only [Bool.true_and, Bool.and_eq_true, Bool.not_eq_true'] at hearly
            rw [hrep.slots, hearly.1]
            rfl
          rw [if_pos hearly, runText, hfunc, makeFunction, entry, List.append_assoc,
            run_loadSlots_early _ hne _ _ _ tc htc hslots]
          exact Sim.stop _ hr.log
        · have hslots : tc.slots = [] ++ c.env.map fun x => c.scope.lookup x := by
            cases hcomplete : c.complete with
            | true => rw [hrep.slots, hcomplete]; rfl
            | false =>
              have hempty : c.env = [] := by simpa [hcomplete] using hearly
              rw [hrep.slots, hempty]
              rfl
          obtain ⟨F₁, hrun₁, hnamed₁, -, hagrees₁⟩ := run_loadSlots (LetMachine.callClosure n) c.env
            hrep.bound [] (.enter k c.args vs) h' tc htc hslots
          obtain ⟨F₂, hrun₂, hplaced⟩ := run_arguments (LetMachine.callClosure n)
            (named_enter k hrep.nodup hlength) hrep.nodup F₁ h' hnamed₁
          rw [hr.cells] at hplaced
          have hagrees₂ := hagrees₁.placed hplaced
          rw [List.length_nil] at hrun₁
          rw [if_neg hearly, runText, hfunc, makeFunction, entry]
          simp only [run_append, hrun₁, hrun₂, Outcome.ok_bind]
          apply (sim_compile (sim_calls n) c.code i hrep.wf hagrees₂ (hr.alloc _)).bind_right
          intro v h₁ F₃ h₁' hbody
          rw [hbody.value]
          exact Sim.ok ⟨rfl, hbody.heap, hbody.grows⟩
      · simp only [ne_eq, hlength, not_false_eq_true, if_true]
        exact Sim.stop _ hr.log

/-! ## The emitted program -/

/-- The emitted code does what the strict evaluation does. -/
theorem sim_execute (p : Program) (n : ℕ) :
    Sim (fun v h₁ w h₁' => w = v ∧ Represents h₁ h₁') (evaluateStrict p n) (execute p n) := by
  have hagrees : Agrees [] [] Frame.empty := fun x hx => by cases hx
  have hr : Represents Heap.empty Heap.empty := ⟨rfl, rfl, .nil⟩
  apply (sim_compile (sim_calls n) p.main 0 p.wf hagrees hr).bind_right
  intro v h₁ F₁ h₁' hmain
  rw [hmain.value]
  exact Sim.ok ⟨rfl, hmain.heap⟩

theorem observe_execute (p : Program) (n : ℕ) :
    (execute p n).observe = (evaluateStrict p n).observe := by
  have hsim := sim_execute p n
  cases hs : evaluateStrict p n with
  | ok v h =>
    rw [hs] at hsim
    obtain ⟨w, h', hw, rfl, hr⟩ := hsim
    rw [hw, Outcome.observe, Outcome.observe, hr.log]
  | stop r log =>
    rw [hs] at hsim
    rw [show execute p n = .stop r log from hsim]
    rfl

theorem isEarly_iff {κ α : Type} (x : Outcome κ α) :
    x.isEarly = true ↔ x.observe.2 = .error .early := by
  cases x with
  | ok a h => simp [Outcome.isEarly, Outcome.observe]
  | stop r log => cases r <;> simp [Outcome.isEarly, Outcome.observe]

theorem isEarly_execute (p : Program) (n : ℕ) :
    (execute p n).isEarly = (evaluateStrict p n).isEarly := by
  rw [Bool.eq_iff_iff, isEarly_iff, isEarly_iff, observe_execute]

/-- The emitted code of a program is correct exactly when no closure that captures variables is
called before its let form has evaluated all its initialisers. -/
theorem correct_iff (p : Program) : Correct p ↔ CompleteCalls p := by
  constructor
  · intro hcorrect n
    rw [← isEarly_execute]
    exact hcorrect.filled n
  · intro hcomplete
    refine ⟨fun n => (isEarly_execute p n).trans (hcomplete n), fun n => ?_⟩
    rw [observe_execute, evaluate_eq_strict (hcomplete n)]

/-- `(let ((y 1) (f (lambda (x) (+ x y))) (z (f 5))) z)` -/
def earlyCall : Program where
  main := .makeEnv (.expr "y" (.num 1) (.closure "f" ["y"] ["x"]
    (.op .add (.var "x") (.var "y")) (.expr "z" (.apply "f" (.cons (.num 5) .nil)) .nil)))
    (.var "z")
  wf := by simp [Wf, WfBindings, WfArgs, Bindings.names]

/-- The initialiser of `z` calls `f`, which loads the address of `y` from an environment that has
not been filled. -/
theorem not_correct_earlyCall : ¬ ∀ p, Correct p := by
  intro hall
  have hearly : (execute earlyCall 1).isEarly = true := by decide
  rw [(hall earlyCall).filled 1] at hearly
  cases hearly

end Extempore.LetRefinement
