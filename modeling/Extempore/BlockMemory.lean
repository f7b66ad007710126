import Mathlib.Logic.Function.Basic
import Extempore.ByteMemory

/-!
# A heap of blocks

`malloc` gives out blocks of a byte memory and `free` takes them back. A byte is stored through a
pointer into a block, which must be live and hold the address; otherwise there is no result. What
the system returns from `malloc` is a parameter.
-/

namespace Extempore.BlockMemory
open ByteMemory

structure Block where
  addr : ℕ
  size : ℕ
  deriving DecidableEq, Repr

/-- The two blocks share no address. -/
def Block.Apart (b c : Block) : Prop := b.addr + b.size ≤ c.addr ∨ c.addr + c.size ≤ b.addr

instance (b c : Block) : Decidable (b.Apart c) :=
  inferInstanceAs (Decidable (_ ∨ _))

theorem Block.Apart.symm {b c : Block} (h : b.Apart c) : c.Apart b := Or.symm h

/-- The bytes, the blocks in use and the number of calls of `malloc` so far. -/
structure Heap where
  bytes : Memory
  live : List Block
  calls : ℕ

/-- The address for the given call and size beside the live blocks, or a null pointer. -/
abbrev Allocator := ℕ → List Block → ℕ → Option ℕ

/-- The system always finds memory that no live block uses. -/
def Allocates (alloc : Allocator) : Prop :=
  ∀ calls live n, ∃ a, alloc calls live n = some a ∧
    ∀ b ∈ live, a + n ≤ b.addr ∨ b.addr + b.size ≤ a

/-- One more block in use. -/
def Heap.add (h : Heap) (b : Block) : Heap :=
  { h with live := b :: h.live, calls := h.calls + 1 }

def malloc (alloc : Allocator) (h : Heap) (n : ℕ) : Option (Heap × ℕ) :=
  (alloc h.calls h.live n).map fun a => (h.add ⟨a, n⟩, a)

def free (h : Heap) (a : ℕ) : Heap := { h with live := h.live.filter fun b => b.addr != a }

/-- Store a byte at `a` through a pointer into the block at `base`. -/
def store (h : Heap) (base a : ℕ) (v : UInt8) : Option Heap :=
  if h.live.any fun b => b.addr == base && decide (base ≤ a ∧ a < base + b.size) then
    some { h with bytes := Function.update h.bytes a v }
  else none

def memset (h : Heap) (base a : ℕ) (v : UInt8) : ℕ → Option Heap
  | 0 => some h
  | n + 1 => do
    let h ← store h base a v
    memset h base (a + 1) v n

def memcpy (h : Heap) (base dst src : ℕ) : ℕ → Option Heap
  | 0 => some h
  | n + 1 => do
    let h ← store h base dst (h.bytes src)
    memcpy h base (dst + 1) (src + 1) n

/-- Copy up to and with the zero, at most as many bytes as there is fuel. -/
def strcpy (h : Heap) (base dst src : ℕ) : ℕ → Option Heap
  | 0 => none
  | fuel + 1 => do
    let h' ← store h base dst (h.bytes src)
    if h.bytes src = 0 then some h' else strcpy h' base (dst + 1) (src + 1) fuel

/-- The bytes in front of the zero. -/
def stringAt (m : Memory) (a : ℕ) : ℕ → Option (List UInt8)
  | 0 => none
  | fuel + 1 => if m a = 0 then some [] else (stringAt m (a + 1) fuel).map (m a :: ·)

/-- The text lies in memory from `a` on. -/
def TextAt (m : Memory) (a : ℕ) : List UInt8 → Prop
  | [] => True
  | b :: bs => m a = b ∧ TextAt m (a + 1) bs

variable {alloc : Allocator} {h : Heap} {m m' : Memory} {a n base dst src size : ℕ}
  {text : List UInt8} {b v : UInt8}

/-! ## Blocks -/

/-- The block at `base` is live and holds the `n` bytes from `a` on. -/
structure Holds (h : Heap) (base a n : ℕ) : Prop where
  live : ∃ size, ⟨base, size⟩ ∈ h.live ∧ a + n ≤ base + size
  le : base ≤ a

theorem Holds.sub {x k : ℕ} (hb : Holds h base a n) (ha : a ≤ x) (hn : x + k ≤ a + n) :
    Holds h base x k := by
  obtain ⟨size, hmem, hle⟩ := hb.live
  exact ⟨⟨size, hmem, by omega⟩, Nat.le_trans hb.le ha⟩

theorem Holds.update (hb : Holds h base a n) (m : Memory) : Holds { h with bytes := m } base a n :=
  ⟨hb.live, hb.le⟩

theorem store_eq (hb : Holds h base a 1) :
    store h base a v = some { h with bytes := Function.update h.bytes a v } := by
  obtain ⟨size, hmem, hle⟩ := hb.live
  refine if_pos ?_
  rw [List.any_eq_true]
  refine ⟨_, hmem, ?_⟩
  simp only [beq_self_eq_true, Bool.true_and, decide_eq_true_eq]
  exact ⟨hb.le, by omega⟩

/-- A new block is apart from the others. -/
theorem exists_malloc (halloc : Allocates alloc) (h : Heap) (n : ℕ) :
    ∃ a, malloc alloc h n = some (h.add ⟨a, n⟩, a) ∧
      ∀ b ∈ h.live, a + n ≤ b.addr ∨ b.addr + b.size ≤ a := by
  obtain ⟨a, ha, hapart⟩ := halloc h.calls h.live n
  exact ⟨a, by rw [malloc, ha]; rfl, hapart⟩

theorem holds_add (h : Heap) (a n : ℕ) : Holds (h.add ⟨a, n⟩) a a n :=
  ⟨⟨n, List.mem_cons_self, le_rfl⟩, le_rfl⟩

theorem mem_free {c : Block} (hc : c ∈ h.live) (hne : c.addr ≠ a) : c ∈ (free h a).live := by
  rw [free, List.mem_filter, bne_iff_ne]
  exact ⟨hc, hne⟩

/-! ## Texts in memory -/

theorem TextAt.congr (ht : TextAt m a text) (hm : ∀ x, a ≤ x → x < a + text.length → m' x = m x) :
    TextAt m' a text := by
  induction text generalizing a with
  | nil => trivial
  | cons b bs ih =>
    rw [List.length_cons] at hm
    refine ⟨(hm a le_rfl (by omega)).trans ht.1, ih ht.2 ?_⟩
    intro x hx hx'
    exact hm x (by omega) (by omega)

theorem TextAt.concat (ht : TextAt m a text) (hb : m (a + text.length) = b) :
    TextAt m a (text ++ [b]) := by
  induction text generalizing a with
  | nil => exact ⟨hb, trivial⟩
  | cons c bs ih =>
    refine ⟨ht.1, ih ht.2 ?_⟩
    rw [← hb, List.length_cons]
    congr 1
    omega

theorem memset_eq (hb : Holds h base a n) :
    memset h base a v n = some { h with bytes := fill h.bytes a n v } := by
  induction n generalizing h a with
  | zero =>
    have hfill : fill h.bytes a 0 v = h.bytes := by
      funext x
      exact fill_of_notMem (by omega)
    rw [memset, hfill]
  | succ n ih =>
    have hfill : fill (Function.update h.bytes a v) (a + 1) n v = fill h.bytes a (n + 1) v := by
      funext x
      by_cases hx : x = a
      · rw [hx, fill_of_notMem (by omega), Function.update_self, fill_apply (by omega)]
      · rw [fill, fill, Function.update_of_ne hx]
        exact if_congr (by omega) rfl rfl
    rw [memset, store_eq (hb.sub le_rfl (by omega))]
    have hrest := ih ((hb.sub (x := a + 1) (k := n) (by omega) (by omega)).update
      (Function.update h.bytes a v))
    rw [hfill] at hrest
    exact hrest

/-- What is written into a range, and nothing else changes. -/
structure Written (m m' : Memory) (a : ℕ) (text : List UInt8) (n : ℕ) : Prop where
  text : TextAt m' a text
  frame : ∀ x, x < a ∨ a + n ≤ x → m' x = m x

theorem Written.cons (hw : Written (Function.update m a b) m' (a + 1) text n) :
    Written m m' a (b :: text) (n + 1) where
  text := by
    refine ⟨?_, hw.text⟩
    rw [hw.frame a (by omega), Function.update_self]
  frame x hx := by
    rw [hw.frame x (by omega), Function.update_of_ne (by omega)]

/-- The bytes of a text are copied to a range apart from it. -/
theorem memcpy_spec (hb : Holds h base dst text.length) (ht : TextAt h.bytes src text)
    (hapart : dst + text.length ≤ src ∨ src + text.length ≤ dst) :
    ∃ m, memcpy h base dst src text.length = some { h with bytes := m } ∧
      Written h.bytes m dst text text.length := by
  induction text generalizing h dst src with
  | nil => exact ⟨h.bytes, rfl, trivial, fun _ _ => rfl⟩
  | cons b bs ih =>
    rw [List.length_cons] at hb hapart
    obtain ⟨m, hm, hwritten⟩ := ih
      ((hb.sub (x := dst + 1) (k := bs.length) (by omega) (by omega)).update
        (Function.update h.bytes dst b))
      (ht.2.congr fun x hx hx' => Function.update_of_ne (by omega) _ _) (by omega)
    refine ⟨m, ?_, hwritten.cons⟩
    rw [List.length_cons, memcpy, ht.1, store_eq (hb.sub le_rfl (by omega))]
    exact hm

theorem strcpy_spec (hb : Holds h base dst (text.length + 1)) (ht : TextAt h.bytes src text)
    (hzero : 0 ∉ text) (hend : h.bytes (src + text.length) = 0)
    (hapart : dst + text.length < src ∨ src + text.length < dst) {k : ℕ}
    (hfuel : text.length < k) :
    ∃ m, strcpy h base dst src k = some { h with bytes := m } ∧
      Written h.bytes m dst text (text.length + 1) := by
  induction text generalizing h dst src k with
  | nil =>
    cases k with
    | zero => cases hfuel
    | succ k =>
      have hend : h.bytes src = 0 := hend
      refine ⟨Function.update h.bytes dst 0, ?_, trivial, ?_⟩
      · rw [strcpy, hend, store_eq (hb.sub le_rfl (by simp))]
        rfl
      · intro x hx
        exact Function.update_of_ne (by simp at hx; omega) _ _
  | cons b bs ih =>
    cases k with
    | zero => cases hfuel
    | succ k =>
      rw [List.length_cons] at hb hapart hfuel hend
      rw [List.mem_cons, not_or] at hzero
      have hend' : Function.update h.bytes dst b (src + 1 + bs.length) = 0 := by
        rw [Function.update_of_ne (by omega), ← hend]
        congr 1
        omega
      obtain ⟨m, hm, hwritten⟩ := ih
        ((hb.sub (x := dst + 1) (k := bs.length + 1) (by omega) (by omega)).update
          (Function.update h.bytes dst b))
        (ht.2.congr fun x hx hx' => Function.update_of_ne (by omega) _ _) hzero.2 hend'
        (by omega) (k := k) (by omega)
      refine ⟨m, ?_, hwritten.cons⟩
      rw [strcpy, ht.1, store_eq (hb.sub le_rfl (by omega))]
      show (if b = 0 then _ else _) = _
      rw [if_neg (Ne.symm hzero.1)]
      exact hm

theorem stringAt_eq (ht : TextAt m a text) (hzero : 0 ∉ text) (hend : m (a + text.length) = 0)
    {fuel : ℕ} (hfuel : text.length < fuel) : stringAt m a fuel = some text := by
  induction text generalizing a fuel with
  | nil =>
    cases fuel with
    | zero => cases hfuel
    | succ fuel => exact if_pos hend
  | cons b bs ih =>
    cases fuel with
    | zero => cases hfuel
    | succ fuel =>
      rw [List.length_cons] at hend hfuel
      rw [List.mem_cons, not_or] at hzero
      have hend' : m (a + 1 + bs.length) = 0 := by
        rw [← hend]
        congr 1
        omega
      rw [stringAt, ht.1, if_neg (Ne.symm hzero.1), ih ht.2 hzero.2 hend' (by omega)]
      rfl

/-! ## An allocator -/

/-- Every block behind all the live ones. -/
def bump : Allocator := fun _ live _ => some (live.foldr (fun b e => max (b.addr + b.size) e) 1)

theorem allocates_bump : Allocates bump := by
  intro calls live n
  refine ⟨_, rfl, ?_⟩
  intro b hb
  right
  induction live with
  | nil => cases hb
  | cons c live ih =>
    rw [List.foldr_cons]
    cases List.mem_cons.mp hb with
    | inl heq =>
      rw [heq]
      exact le_max_left _ _
    | inr hmem => exact Nat.le_trans (ih hmem) (le_max_right _ _)

end Extempore.BlockMemory
