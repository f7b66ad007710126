import Extempore.SchemeValues
import Extempore.StringTexts
import Mathlib.Tactic.Choose

/-!
# The writer

`write` prints a value by the opcodes `OP_P0LIST`, `OP_P1LIST` and `OP_PVECFROM`, which keep what is
still to be written on the dump stack. What they write has the rules of a grammar, so that the
reader makes a datum of it.
-/

namespace Extempore.SchemeWriter
open ExactNumbers Atoms SchemeReader ReaderFrames Lexemes TokenReader Sexprs SchemeValues StringTexts
open SchemeValues.Value

/-! ## The opcodes -/

/-- `printatom` with `print_flag` 1. -/
def printatom : Value → List UInt8
  | .nil => ascii "()"
  | .bool true => ascii "#t"
  | .bool false => ascii "#f"
  | .number v => atom2str v
  | .string s => printslashstring s
  | .symbol name => name
  | .pair _ _ | .vector _ _ => ascii "#<ERROR>"

/-- What stands for a list that begins with one of the four symbols, if `ok_abbrev` holds. -/
def abbreviation : Value → Option Lexeme
  | .symbol name =>
    if name = ascii "quote" then some .quote
    else if name = ascii "quasiquote" then some .bquote
    else if name = ascii "unquote" then some .comma
    else if name = ascii "unquote-splicing" then some .atmark
    else none
  | _ => none

inductive Op where
  | p0list (args : Value)
  | p1list (args : Value)
  | pvecfrom (size : ℕ) (elements : Fin size → Value) (i : ℕ)
  | ret

/-- The frames that the print opcodes push. -/
inductive WriteFrame where
  | p1list (args : Value)
  | pvecfrom (size : ℕ) (elements : Fin size → Value) (i : ℕ)

structure Writer where
  out : List UInt8
  op : Op
  frames : List WriteFrame

/-- `OP_P0LIST` on a pair. -/
def p0pair (out : List UInt8) (frames : List WriteFrame) (a d : Value) : Writer :=
  match abbreviation a, d with
  | some l, .pair x .nil => ⟨out ++ l.bytes, .p0list x, frames⟩
  | _, _ => ⟨out ++ ascii "(", .p0list a, .p1list d :: frames⟩

/-- One opcode of the writer. `len` is what `ivalue_unchecked` finds in the cell of a vector:
`mk_vector` keeps the number of elements elsewhere and leaves the address of `NIL` there. Behind the
last element the result is not defined. -/
def step (len : ℤ) (w : Writer) : Option Writer :=
  match w.op with
  | .p0list (.vector n e) => some ⟨w.out ++ ascii "#(", .pvecfrom n e 0, w.frames⟩
  | .p0list (.pair a d) => some (p0pair w.out w.frames a d)
  | .p0list v => some ⟨w.out ++ printatom v, .ret, w.frames⟩
  | .p1list (.pair a d) => some ⟨w.out ++ ascii " ", .p0list a, .p1list d :: w.frames⟩
  | .p1list (.vector n e) => some ⟨w.out ++ ascii " . ", .p0list (.vector n e), .p1list .nil :: w.frames⟩
  | .p1list .nil => some ⟨w.out ++ ascii ")", .ret, w.frames⟩
  | .p1list v => some ⟨w.out ++ ascii " . " ++ printatom v ++ ascii ")", .ret, w.frames⟩
  | .pvecfrom n e i =>
    if i = len then some ⟨w.out ++ ascii ")", .ret, w.frames⟩
    else if h : i < n then
      some ⟨w.out ++ ascii " ", .p0list (e ⟨i, h⟩), .pvecfrom n e (i + 1) :: w.frames⟩
    else none
  | .ret =>
    match w.frames with
    | [] => none
    | .p1list v :: frames => some ⟨w.out, .p1list v, frames⟩
    | .pvecfrom n e i :: frames => some ⟨w.out, .pvecfrom n e i, frames⟩

def Steps (len : ℤ) : Writer → Writer → Prop :=
  Relation.ReflTransGen fun w w' => step len w = some w'

/-- `write` prints the value as the text. -/
def Emits (len : ℤ) (v : Value) (text : List UInt8) : Prop :=
  Steps len ⟨[], .p0list v, []⟩ ⟨text, .ret, []⟩

/-- What is written is read as one datum, which is equal to the value. -/
def ComesBack (sharp : List UInt8 → Option Value) (len : ℤ) (v : Value) : Prop :=
  ∃ text d w, Emits len v text ∧ ReadsAs text d ∧ denote sharp d = some w ∧ equal w v

/-- What `OP_P0LIST` gets in one piece comes back as far as it goes: a vector has the length that is
found in its cell, a string fits the string buffer, and the sign of an abbreviation does not make
another token of what follows it. -/
def Restorable (len : ℤ) : Value → Prop
  | .vector n _ => n = len
  | .string s => s.length < strbuffSize
  | .number (.rational _ d) => 0 < d
  | .pair (.symbol name) (.pair (.vector _ _) .nil) => name ≠ ascii "quasiquote"
  | .pair (.symbol name) (.pair (.symbol (64 :: _)) .nil) => name ≠ ascii "unquote"
  | _ => True

/-- All that `OP_P0LIST` gets has the property. The rest of a list is not given to it. -/
def AllWritten (P : Value → Prop) : Part → Value → Prop
  | part, .pair a d =>
    (part = .datum → P (.pair a d)) ∧ AllWritten P .datum a ∧ AllWritten P .tail d
  | _, .vector n e => P (.vector n e) ∧ ∀ i, AllWritten P .datum (e i)
  | _, v => P v

/-! ## The grammar of what is written -/

/-- A text with the lexemes in it that may be read as something else, and the datum that it is read
as otherwise. -/
structure Written where
  text : List UInt8
  doubts : List Lexeme
  datum : Datum

def isAtom : Value → Bool
  | .pair _ _ | .vector _ _ => false
  | _ => true

/-- An atom is written as it is meant. -/
def writtenAtom (v : Value) : Written where
  text := printatom v
  doubts := (strings v).map fun s => .string (s.flatMap slashed) s
  datum := datum v

/-- The elements of a vector behind its opening parenthesis. -/
def elementsText (fs : List Written) : List UInt8 := fs.flatMap (fun f => 32 :: f.text) ++ [41]

def elementsDatum (fs : List Written) : Datum := .list (fs.map Written.datum)

variable {sharp : List UInt8 → Option Value} {len : ℤ} {part : Part} {v w : Value}
  {f g : Written} {out text : List UInt8} {frames : List WriteFrame}

/-- The opcodes write a value, or the rest of a list, in this way. -/
inductive Writes (len : ℤ) : Part → Value → Written → Prop where
  | atom {v : Value} : isAtom v → Writes len .datum v (writtenAtom v)
  | list {a d : Value} {f g : Written} :
      (∀ l x, abbreviation a = some l → d ≠ .pair x .nil) →
      Writes len .datum a f → Writes len .tail d g →
      Writes len .datum (.pair a d)
        ⟨40 :: (f.text ++ g.text), f.doubts ++ g.doubts, .pair f.datum g.datum⟩
  | vector {n m : ℕ} {e : Fin n → Value} {fs : Fin m → Written} (hm : (m : ℤ) = len) (hle : m ≤ n) :
      (∀ i, Writes len .datum (e (i.castLE hle)) (fs i)) →
      Writes len .datum (.vector n e)
        ⟨35 :: 40 :: elementsText (List.ofFn fs), (List.ofFn fs).flatMap Written.doubts,
          .vector (elementsDatum (List.ofFn fs))⟩
  | abbreviation {a x : Value} {l : Lexeme} {f : Written} : abbreviation a = some l →
      (l = .bquote → ∀ n e, x ≠ .vector n e) → (l = .comma → ∀ name, x ≠ .symbol (64 :: name)) →
      Writes len .datum x f →
      Writes len .datum (.pair a (.pair x .nil))
        ⟨l.bytes ++ f.text, f.doubts, .list [datum a, f.datum]⟩
  | quasiVector {n m : ℕ} {e : Fin n → Value} {fs : Fin m → Written} (hm : (m : ℤ) = len)
      (hle : m ≤ n) : (∀ i, Writes len .datum (e (i.castLE hle)) (fs i)) →
      Writes len .datum (.pair (.symbol (ascii "quasiquote")) (.pair (.vector n e) .nil))
        ⟨96 :: 35 :: 40 :: elementsText (List.ofFn fs), (List.ofFn fs).flatMap Written.doubts,
          .list [.atom (ascii "apply"), .atom (ascii "vector"),
            .list [.atom (ascii "quasiquote"), elementsDatum (List.ofFn fs)]]⟩
  | splice (name : List UInt8) :
      Writes len .datum (.pair (.symbol (ascii "unquote")) (.pair (.symbol (64 :: name)) .nil))
        ⟨44 :: 64 :: name, [.splice name], meant (.splice name)⟩
  | close : Writes len .tail .nil ⟨[41], [], .nil⟩
  | next {a d : Value} {f g : Written} : Writes len .datum a f → Writes len .tail d g →
      Writes len .tail (.pair a d)
        ⟨32 :: (f.text ++ g.text), f.doubts ++ g.doubts, .pair f.datum g.datum⟩
  | dot {v : Value} {f : Written} : v ≠ .nil → (∀ a d, v ≠ .pair a d) → Writes len .datum v f →
      Writes len .tail v ⟨32 :: 46 :: 32 :: (f.text ++ [41]), f.doubts, f.datum⟩

/-! ## Runs of the opcodes -/

/-- What the opcodes write for a value or for the rest of a list. -/
def opOf : Part → Value → Op
  | .datum, v => .p0list v
  | .tail, v => .p1list v

theorem p0pair_abbreviation {a x : Value} {l : Lexeme} (h : SchemeWriter.abbreviation a = some l) :
    p0pair out frames a (.pair x .nil) = ⟨out ++ l.bytes, .p0list x, frames⟩ := by
  simp only [p0pair, h]

theorem p0pair_list {a d : Value}
    (h : ∀ l x, SchemeWriter.abbreviation a = some l → d ≠ .pair x .nil) :
    p0pair out frames a d = ⟨out ++ ascii "(", .p0list a, .p1list d :: frames⟩ := by
  rw [p0pair]
  exact h

theorem step_atom (h : isAtom v) :
    step len ⟨out, .p0list v, frames⟩ = some ⟨out ++ printatom v, .ret, frames⟩ := by
  cases v with
  | pair a d => cases h
  | vector n e => cases h
  | _ => rfl

/-- The loop over the elements of a vector. -/
theorem steps_elements {n m : ℕ} {e : Fin n → Value} {fs : Fin m → Written} (hm : (m : ℤ) = len)
    (hle : m ≤ n) (h : ∀ i out frames, Steps len ⟨out, .p0list (e (i.castLE hle)), frames⟩
      ⟨out ++ (fs i).text, .ret, frames⟩) (frames : List WriteFrame) (k i : ℕ) (hk : i + k = m)
    (out : List UInt8) :
    Steps len ⟨out, .pvecfrom n e i, frames⟩
      ⟨out ++ elementsText ((List.ofFn fs).drop i), .ret, frames⟩ := by
  induction k generalizing i out with
  | zero =>
    obtain rfl : i = m := hk
    have hstep : step len ⟨out, .pvecfrom n e i, frames⟩ = some ⟨out ++ ascii ")", .ret, frames⟩ :=
      if_pos hm
    rw [List.drop_eq_nil_of_le (by simp)]
    exact .single hstep
  | succ k ih =>
    have hi : i < m := by omega
    have hstep : step len ⟨out, .pvecfrom n e i, frames⟩ =
        some ⟨out ++ ascii " ", .p0list (e ⟨i, by omega⟩), .pvecfrom n e (i + 1) :: frames⟩ := by
      rw [step]
      exact (if_neg (by omega)).trans (dif_pos (by omega))
    have helem := h ⟨i, hi⟩ (out ++ ascii " ") (.pvecfrom n e (i + 1) :: frames)
    have hrest := ih (i + 1) (by omega) (out ++ ascii " " ++ (fs ⟨i, hi⟩).text)
    have htext : elementsText ((List.ofFn fs).drop i) =
        32 :: ((fs ⟨i, hi⟩).text ++ elementsText ((List.ofFn fs).drop (i + 1))) := by
      rw [List.drop_eq_getElem_cons (by simpa using hi)]
      simp [elementsText]
    rw [htext]
    have hout : out ++ ascii " " ++ (fs ⟨i, hi⟩).text ++ elementsText ((List.ofFn fs).drop (i + 1)) =
        out ++ 32 :: ((fs ⟨i, hi⟩).text ++ elementsText ((List.ofFn fs).drop (i + 1))) := by
      simp [ascii]
    rw [hout] at hrest
    exact .head hstep (helem.trans (.head rfl hrest))

/-- What the grammar derives is written. -/
theorem Writes.steps (h : Writes len part v f) (out : List UInt8) (frames : List WriteFrame) :
    Steps len ⟨out, opOf part v, frames⟩ ⟨out ++ f.text, .ret, frames⟩ := by
  induction h generalizing out frames with
  | atom hatom => exact .single (step_atom hatom)
  | @list a d f g hlist _ _ iha ihd =>
    have hstep : step len ⟨out, .p0list (.pair a d), frames⟩ =
        some ⟨out ++ ascii "(", .p0list a, .p1list d :: frames⟩ := congrArg some (p0pair_list hlist)
    have hrest := ihd (out ++ ascii "(" ++ f.text) frames
    have hout : out ++ ascii "(" ++ f.text ++ g.text = out ++ 40 :: (f.text ++ g.text) := by
      simp [ascii]
    rw [hout] at hrest
    exact .head hstep ((iha _ _).trans (.head rfl hrest))
  | @vector n m e fs hm hle _ ih =>
    have hloop := steps_elements hm hle ih frames m 0 (by omega) (out ++ ascii "#(")
    have hout : out ++ ascii "#(" ++ elementsText ((List.ofFn fs).drop 0) =
        out ++ 35 :: 40 :: elementsText (List.ofFn fs) := by
      simp [ascii]
    rw [hout] at hloop
    exact .head rfl hloop
  | @abbreviation a x l f habbrev _ _ _ ih =>
    have hstep : step len ⟨out, .p0list (.pair a (.pair x .nil)), frames⟩ =
        some ⟨out ++ l.bytes, .p0list x, frames⟩ := congrArg some (p0pair_abbreviation habbrev)
    have hrest := ih (out ++ l.bytes) frames
    rw [List.append_assoc] at hrest
    exact .head hstep hrest
  | @quasiVector n m e fs hm hle _ ih =>
    have hloop := steps_elements hm hle ih frames m 0 (by omega)
      (out ++ [96] ++ ascii "#(")
    have hout : out ++ [96] ++ ascii "#(" ++ elementsText ((List.ofFn fs).drop 0) =
        out ++ 96 :: 35 :: 40 :: elementsText (List.ofFn fs) := by
      simp [ascii]
    rw [hout] at hloop
    exact .head rfl (.head rfl hloop)
  | splice name =>
    have hout : out ++ [44] ++ 64 :: name = out ++ 44 :: 64 :: name := by simp
    rw [← hout]
    exact .head rfl (.single rfl)
  | close => exact .single rfl
  | @next a d f g _ _ iha ihd =>
    have hrest := ihd (out ++ ascii " " ++ f.text) frames
    have hout : out ++ ascii " " ++ f.text ++ g.text = out ++ 32 :: (f.text ++ g.text) := by
      simp [ascii]
    rw [hout] at hrest
    exact .head rfl ((iha _ _).trans (.head rfl hrest))
  | @dot v f hnil hpair hv ih =>
    have hout : out ++ ascii " . " ++ f.text ++ ascii ")" =
        out ++ 32 :: 46 :: 32 :: (f.text ++ [41]) := by
      simp [ascii]
    cases v with
    | vector n e =>
      have hrest := ih (out ++ ascii " . ") (.p1list .nil :: frames)
      refine .head rfl (hrest.trans (.head rfl ?_))
      rw [← hout]
      exact .single rfl
    | pair a d => exact absurd rfl (hpair a d)
    | nil => exact absurd rfl hnil
    | _ =>
      cases hv
      rw [← hout]
      exact .single rfl

def Finishes (len : ℤ) (w : Writer) (text : List UInt8) : Prop := Steps len w ⟨text, .ret, []⟩

theorem Finishes.step {w w' : Writer} (h : Finishes len w text)
    (hs : SchemeWriter.step len w = some w') : Finishes len w' text := by
  cases Relation.ReflTransGen.cases_head h with
  | inl heq =>
    subst heq
    cases hs
  | inr hhead =>
    obtain ⟨u, hu, hrest⟩ := hhead
    rw [hs] at hu
    cases hu
    exact hrest

/-- The writer is deterministic. -/
theorem Finishes.steps {w w' : Writer} (h : Finishes len w text) (hs : Steps len w w') :
    Finishes len w' text := by
  induction hs with
  | refl => exact h
  | tail _ hstep ih => exact ih.step hstep

theorem abbreviation_eq_bquote {a : Value} (h : SchemeWriter.abbreviation a = some .bquote) :
    a = .symbol (ascii "quasiquote") := by
  cases a with
  | symbol name =>
    rw [SchemeWriter.abbreviation] at h
    split at h
    · cases h
    split at h
    · rename_i hname
      rw [hname]
    split at h
    · cases h
    split at h <;> cases h
  | _ => cases h

theorem abbreviation_eq_comma {a : Value} (h : SchemeWriter.abbreviation a = some .comma) :
    a = .symbol (ascii "unquote") := by
  cases a with
  | symbol name =>
    rw [SchemeWriter.abbreviation] at h
    split at h
    · cases h
    split at h
    · cases h
    split at h
    · rename_i hname
      rw [hname]
    split at h <;> cases h
  | _ => cases h

/-- The elements that the loop has to write are written. -/
theorem writes_of_pvecfrom {n : ℕ} {e : Fin n → Value}
    (h : ∀ i out frames, Finishes len ⟨out, .p0list (e i), frames⟩ text →
      ∃ f, Writes len .datum (e i) f) (k i : ℕ) (hk : i + k = n)
    (hbefore : ∀ j : Fin n, j.val < i → ∃ f, Writes len .datum (e j) f) (out : List UInt8)
    (hloop : Finishes len ⟨out, .pvecfrom n e i, frames⟩ text) :
    ∃ m : ℕ, (m : ℤ) = len ∧ m ≤ n ∧ ∀ j : Fin n, j.val < m → ∃ f, Writes len .datum (e j) f := by
  by_cases hlen : (i : ℤ) = len
  · exact ⟨i, hlen, by omega, hbefore⟩
  · induction k generalizing i out with
    | zero =>
      have hstep : step len ⟨out, .pvecfrom n e i, frames⟩ = none := by
        rw [step]
        exact (if_neg hlen).trans (dif_neg (by omega))
      cases Relation.ReflTransGen.cases_head hloop with
      | inl heq => cases heq
      | inr hhead =>
        obtain ⟨u, hu, -⟩ := hhead
        cases hstep.symm.trans hu
    | succ k ih =>
      have hi : i < n := by omega
      have hstep : step len ⟨out, .pvecfrom n e i, frames⟩ =
          some ⟨out ++ ascii " ", .p0list (e ⟨i, hi⟩), .pvecfrom n e (i + 1) :: frames⟩ := by
        rw [step]
        exact (if_neg hlen).trans (dif_pos hi)
      have helem := hloop.step hstep
      obtain ⟨f, hf⟩ := h _ _ _ helem
      have hrest := (helem.steps (hf.steps _ _)).step rfl
      have hbefore' : ∀ j : Fin n, j.val < i + 1 → ∃ f, Writes len .datum (e j) f := by
        intro j hj
        by_cases hji : j.val < i
        · exact hbefore j hji
        · obtain rfl : j = ⟨i, hi⟩ := Fin.ext (show j.val = i by omega)
          exact ⟨f, hf⟩
      by_cases hlen' : ((i + 1 : ℕ) : ℤ) = len
      · exact ⟨i + 1, hlen', by omega, hbefore'⟩
      · exact ih (i + 1) (by omega) hbefore' _ hrest hlen'

theorem exists_written {n m : ℕ} {e : Fin n → Value} (hle : m ≤ n)
    (h : ∀ j : Fin n, j.val < m → ∃ f, Writes len .datum (e j) f) :
    ∃ fs : Fin m → Written, ∀ i, Writes len .datum (e (i.castLE hle)) (fs i) := by
  choose fs hfs using fun i : Fin m => h (i.castLE hle) i.isLt
  exact ⟨fs, hfs⟩

/-- The value is written when the opcodes finish with it, also as the only element behind the
first one of a list. -/
structure Covered (len : ℤ) (text : List UInt8) (v : Value) : Prop where
  datum : ∀ out frames, Finishes len ⟨out, .p0list v, frames⟩ text → ∃ f, Writes len .datum v f
  tail : ∀ out frames, Finishes len ⟨out, .p1list v, frames⟩ text → ∃ f, Writes len .tail v f
  only : ∀ x, v = .pair x .nil →
    ∀ out frames, Finishes len ⟨out, .p0list x, frames⟩ text → ∃ f, Writes len .datum x f

theorem covered_atom (h : isAtom v) : Covered len text v where
  datum _ _ _ := ⟨_, .atom h⟩
  tail _ _ _ := by
    cases v with
    | nil => exact ⟨_, .close⟩
    | pair a d => cases h
    | vector n e => cases h
    | _ => exact ⟨_, .dot nofun nofun (.atom rfl)⟩
  only x hx := by
    subst hx
    cases h

theorem Covered.vector {n : ℕ} {e : Fin n → Value} (h : ∀ i, Covered len text (e i)) :
    Covered len text (.vector n e) := by
  have hdatum (out : List UInt8) (frames : List WriteFrame)
      (hfinishes : Finishes len ⟨out, .p0list (.vector n e), frames⟩ text) :
      ∃ f, Writes len .datum (.vector n e) f := by
    obtain ⟨m, hm, hle, hall⟩ := writes_of_pvecfrom (fun i => (h i).datum) n 0 (by omega)
      (fun j hj => absurd hj (by omega)) _ (hfinishes.step rfl)
    obtain ⟨fs, hfs⟩ := exists_written hle hall
    exact ⟨_, .vector hm hle hfs⟩
  refine ⟨hdatum, ?_, nofun⟩
  intro out frames hfinishes
  obtain ⟨f, hf⟩ := hdatum _ _ (hfinishes.step rfl)
  exact ⟨_, .dot nofun nofun hf⟩

/-- A list that begins with one of the four symbols. -/
theorem writes_abbreviation {a x : Value} {l : Lexeme} (hl : SchemeWriter.abbreviation a = some l)
    (hx : Writes len .datum x f) : ∃ g, Writes len .datum (.pair a (.pair x .nil)) g := by
  by_cases hquasi : l = .bquote ∧ ∃ n e, x = .vector n e
  · obtain ⟨rfl, n, e, rfl⟩ := hquasi
    rw [abbreviation_eq_bquote hl]
    cases hx with
    | atom hatom => cases hatom
    | vector hm hle hfs => exact ⟨_, .quasiVector hm hle hfs⟩
  · by_cases hat : l = .comma ∧ ∃ name, x = .symbol (64 :: name)
    · obtain ⟨rfl, name, rfl⟩ := hat
      rw [abbreviation_eq_comma hl]
      exact ⟨_, .splice name⟩
    · exact ⟨_, .abbreviation hl (fun heq n e hv => hquasi ⟨heq, n, e, hv⟩)
        (fun heq name hv => hat ⟨heq, name, hv⟩) hx⟩

theorem Covered.pair {a d : Value} (ha : Covered len text a) (hd : Covered len text d) :
    Covered len text (.pair a d) := by
  have hboth {out : List UInt8} {frames : List WriteFrame}
      (hfinishes : Finishes len ⟨out, .p0list a, .p1list d :: frames⟩ text) :
      (∃ f, Writes len .datum a f) ∧ ∃ g, Writes len .tail d g := by
    obtain ⟨f, hf⟩ := ha.datum _ _ hfinishes
    exact ⟨⟨f, hf⟩, hd.tail _ _ ((hfinishes.steps (hf.steps _ _)).step rfl)⟩
  refine ⟨?_, ?_, ?_⟩
  · intro out frames hfinishes
    by_cases habbrev : ∃ l x, SchemeWriter.abbreviation a = some l ∧ d = .pair x .nil
    · obtain ⟨l, x, hl, rfl⟩ := habbrev
      have hstep : step len ⟨out, .p0list (.pair a (.pair x .nil)), frames⟩ =
          some ⟨out ++ l.bytes, .p0list x, frames⟩ := congrArg some (p0pair_abbreviation hl)
      obtain ⟨f, hf⟩ := hd.only x rfl _ _ (hfinishes.step hstep)
      exact writes_abbreviation hl hf
    · have hlist (l : Lexeme) (x : Value) (hl : SchemeWriter.abbreviation a = some l) :
          d ≠ .pair x .nil := fun hx => habbrev ⟨l, x, hl, hx⟩
      have hstep : step len ⟨out, .p0list (.pair a d), frames⟩ =
          some ⟨out ++ ascii "(", .p0list a, .p1list d :: frames⟩ := congrArg some (p0pair_list hlist)
      obtain ⟨⟨f, hf⟩, g, hg⟩ := hboth (hfinishes.step hstep)
      exact ⟨_, .list hlist hf hg⟩
  · intro out frames hfinishes
    obtain ⟨⟨f, hf⟩, g, hg⟩ := hboth (hfinishes.step rfl)
    exact ⟨_, .next hf hg⟩
  · intro x hx
    obtain ⟨rfl, -⟩ := Value.pair.inj hx
    exact ha.datum

theorem covered (v : Value) : Covered len text v := by
  induction v with
  | pair a d iha ihd => exact iha.pair ihd
  | vector n e ih => exact .vector ih
  | _ => exact covered_atom rfl

/-- What is written is what the grammar derives. -/
theorem emits_iff : Emits len v text ↔ ∃ f, Writes len .datum v f ∧ f.text = text := by
  constructor
  · intro h
    obtain ⟨f, hf⟩ := (covered v).datum [] [] h
    have hend := Finishes.steps h (hf.steps [] [])
    refine ⟨f, hf, ?_⟩
    cases Relation.ReflTransGen.cases_head hend with
    | inl heq => exact congrArg Writer.out heq
    | inr hhead =>
      obtain ⟨u, hu, -⟩ := hhead
      cases hu
  · intro h
    obtain ⟨f, hf, rfl⟩ := h
    exact hf.steps [] []

/-! ## What is read of it -/

theorem prints_atom_value (h : isAtom v) (hdata : IsDatumLeaf v) :
    Prints (writtenAtom v).doubts .datum (writtenAtom v).text (writtenAtom v).datum := by
  cases v with
  | nil => exact opens_nil.list
  | bool b =>
    cases b with
    | true => exact prints_sharpConst isSharpText_t
    | false => exact prints_sharpConst isSharpText_f
  | number v => exact prints_atom (isAtomText_of_plain (plain_atom2str v))
  | string s => exact prints_string (s.flatMap slashed) s
  | symbol name => exact prints_atom hdata.1
  | pair a d => cases h
  | vector n e => cases h

/-- The signs of abbreviations do what the grammar of data says. -/
theorem wrap_abbreviation {a : Value} {l : Lexeme} (h : SchemeWriter.abbreviation a = some l) (d : Datum) :
    ∃ fr, abbreviates l = some fr ∧ wrap fr d = some (.list [datum a, d]) := by
  cases a with
  | symbol name =>
    rw [SchemeWriter.abbreviation] at h
    split at h
    · rename_i hname
      cases h
      exact ⟨_, rfl, by rw [hname]; rfl⟩
    split at h
    · rename_i hname
      cases h
      exact ⟨_, rfl, by rw [hname]; rfl⟩
    split at h
    · rename_i hname
      cases h
      exact ⟨_, rfl, by rw [hname]; rfl⟩
    split at h
    · rename_i hname
      cases h
      exact ⟨_, rfl, by rw [hname]; rfl⟩
    · cases h
  | _ => cases h

/-- The rest of a list begins with a space or its closing parenthesis. -/
theorem Writes.atDelimiter (h : Writes len .tail v f) (rest : List UInt8) :
    AtDelimiter (f.text ++ rest) := by
  cases h with
  | close => exact atDelimiter_cons (by decide) _
  | next => exact atDelimiter_cons (by decide) _
  | dot => exact atDelimiter_cons (by decide) _

/-- What is written for a value begins with a visible character, which is an at sign only for a
symbol. -/
theorem Writes.head (h : Writes len .datum v f) (hdata : IsData v) :
    ∃ b bs, f.text = b :: bs ∧ b ≠ 255 ∧ (b = 64 → ∃ name, v = .symbol (64 :: name)) := by
  have hatom {text : List UInt8} (h : IsAtomText text) : ∃ b bs, text = b :: bs ∧ b ≠ 255 := by
    obtain ⟨b, bs, heq, hvisible, -⟩ := h.start
    refine ⟨b, bs, heq, ?_⟩
    rintro rfl
    exact hvisible.ne_eof rfl
  cases h with
  | @atom _ hleaf =>
    cases v with
    | symbol name =>
      obtain ⟨b, bs, rfl, hb⟩ := hatom hdata.1
      refine ⟨b, bs, rfl, hb, ?_⟩
      rintro rfl
      exact ⟨bs, rfl⟩
    | number v =>
      obtain ⟨b, bs, heq, hb⟩ := hatom (isAtomText_of_plain (plain_atom2str v))
      refine ⟨b, bs, heq, hb, ?_⟩
      rintro rfl
      have hmem : 64 ∈ atom2str v := heq ▸ List.mem_cons_self
      exact absurd (mem_atom2str hmem) (by decide)
    | bool b =>
      cases b with
      | true => exact ⟨35, [116], rfl, by decide, fun h => absurd h (by decide)⟩
      | false => exact ⟨35, [102], rfl, by decide, fun h => absurd h (by decide)⟩
    | nil => exact ⟨40, [41], rfl, by decide, fun h => absurd h (by decide)⟩
    | string s => exact ⟨34, _, rfl, by decide, fun h => absurd h (by decide)⟩
    | pair a d => cases hleaf
    | vector n e => cases hleaf
  | @abbreviation a x l g hl =>
    obtain ⟨b, bs, hbytes, hb⟩ : ∃ b bs, l.bytes = b :: bs ∧ b ≠ 255 ∧ b ≠ 64 := by
      obtain ⟨fr, hfr, -⟩ := wrap_abbreviation hl .nil
      cases l with
      | quote => exact ⟨39, [], rfl, by decide⟩
      | bquote => exact ⟨96, [], rfl, by decide⟩
      | comma => exact ⟨44, [], rfl, by decide⟩
      | atmark => exact ⟨44, [64], rfl, by decide⟩
      | _ => cases hfr
    refine ⟨b, bs ++ g.text, ?_, hb.1, fun h => absurd h hb.2⟩
    show l.bytes ++ g.text = _
    rw [hbytes]
    rfl
  | _ => exact ⟨_, _, rfl, by decide, fun h => absurd h (by decide)⟩

theorem prints_list (fs : List Written)
    (h : ∀ f ∈ fs, Prints f.doubts .datum f.text f.datum) :
    Opens (fs.flatMap Written.doubts) (elementsText fs) (elementsDatum fs) := opens_elements h

/-- The datum of what is written for a vector is one. -/
theorem Writes.not_vector (h : Writes len .datum v f) (hv : ∀ n e, v ≠ .vector n e) (e : Datum) :
    f.datum ≠ .vector e := by
  cases h with
  | @atom _ hleaf =>
    cases v with
    | bool b => cases b <;> nofun
    | pair a d => cases hleaf
    | vector n e => cases hleaf
    | _ => nofun
  | vector => exact absurd rfl (hv _ _)
  | _ => nofun

/-- What is written is a text of its datum. -/
theorem Writes.prints (h : Writes len part v f) (hdata : IsData v) :
    Prints f.doubts part f.text f.datum := by
  induction h with
  | atom hatom =>
    rename_i v
    refine prints_atom_value hatom ?_
    cases v with
    | pair a d => cases hatom
    | vector n e => cases hatom
    | _ => exact hdata
  | list hlist ha hd iha ihd => exact ((iha hdata.1).opens (ihd hdata.2) hd.atDelimiter).list
  | @vector n m e fs hm hle _ ih =>
    refine (prints_list _ ?_).vector
    intro f hf
    obtain ⟨i, rfl⟩ := List.mem_ofFn.mp hf
    exact ih i (hdata _)
  | @abbreviation a x l f hl hvec hat hx ih =>
    obtain ⟨fr, hfr, hwrap⟩ := wrap_abbreviation hl f.datum
    refine (ih hdata.2.1).abbreviation hfr hwrap ?_ ?_
    · intro rest
      cases l with
      | comma =>
        obtain ⟨b, bs, htext, hb, hb64⟩ := hx.head hdata.2.1
        intro c hc
        rw [htext] at hc
        cases hc
        refine ⟨?_, hb⟩
        intro h64
        obtain ⟨name, hname⟩ := hb64 h64
        exact hat rfl name hname
      | quote => trivial
      | bquote => trivial
      | atmark => trivial
      | _ => cases hfr
    · intro hquasi
      exact hx.not_vector (hvec hquasi)
  | @quasiVector n m e fs hm hle _ ih =>
    refine (prints_list _ ?_).quasiVector rfl
    intro f hf
    obtain ⟨i, rfl⟩ := List.mem_ofFn.mp hf
    exact ih i (hdata.2.1 _)
  | splice name => exact prints_splice name
  | close => exact prints_close
  | next ha hd iha ihd => exact (iha hdata.1).space.next (ihd hdata.2) hd.atDelimiter
  | dot _ _ _ ih => exact (ih hdata).dot

/-! ## Values that come back -/

/-- The value is written, and the text is read as its datum. -/
def Restored (len : ℤ) (part : Part) (v : Value) : Prop :=
  ∃ f, Writes len part v f ∧ f.datum = datum v ∧ ∀ l ∈ f.doubts, Readable l

theorem readable_writtenAtom (hatom : isAtom v) (hdata : IsDatumLeaf v) (h : Restorable len v) :
    ∀ l ∈ (writtenAtom v).doubts, Readable l := by
  cases v with
  | string s =>
    intro l hl
    obtain rfl := List.mem_singleton.mp hl
    exact isStringText_slashes hdata h
  | pair a d => cases hatom
  | vector n e => cases hatom
  | _ => nofun

theorem Restored.atom (hatom : isAtom v) (hdata : IsDatumLeaf v) (h : Restorable len v) :
    Restored len part v := by
  have hreadable := readable_writtenAtom hatom hdata h
  cases part with
  | datum => exact ⟨_, .atom hatom, rfl, hreadable⟩
  | tail =>
    cases v with
    | nil => exact ⟨_, .close, rfl, nofun⟩
    | pair a d => cases hatom
    | vector n e => cases hatom
    | _ => exact ⟨_, .dot nofun nofun (.atom hatom), rfl, hreadable⟩

theorem Restored.vector {n : ℕ} {e : Fin n → Value} (hn : (n : ℤ) = len)
    (h : ∀ i, Restored len .datum (e i)) :
    Restored len part (.vector n e) := by
  choose fs hfs hdatum hreadable using h
  have helements : elementsDatum (List.ofFn fs) = .list (List.ofFn fun i => datum (e i)) := by
    rw [elementsDatum, List.map_ofFn]
    exact congrArg (fun g => Datum.list (List.ofFn g)) (funext hdatum)
  have hdoubts : ∀ l ∈ (List.ofFn fs).flatMap Written.doubts, Readable l := by
    intro l hl
    obtain ⟨f, hf, hl⟩ := List.mem_flatMap.mp hl
    obtain ⟨i, rfl⟩ := List.mem_ofFn.mp hf
    exact hreadable i l hl
  have hwrites := Writes.vector (e := e) hn le_rfl hfs
  have hdatum : (Datum.vector (elementsDatum (List.ofFn fs))) = datum (.vector n e) :=
    congrArg _ helements
  cases part with
  | datum => exact ⟨_, hwrites, hdatum, hdoubts⟩
  | tail => exact ⟨_, .dot nofun nofun hwrites, hdatum, hdoubts⟩

theorem Restored.pair {a d : Value} (h : Restorable len (.pair a d)) (ha : Restored len .datum a)
    (hd : Restored len .tail d) : Restored len .datum (.pair a d) := by
  obtain ⟨f, hf, hfdatum, hfdoubts⟩ := ha
  obtain ⟨g, hg, hgdatum, hgdoubts⟩ := hd
  by_cases habbrev : ∃ l x, SchemeWriter.abbreviation a = some l ∧ d = .pair x .nil
  · obtain ⟨l, x, hl, rfl⟩ := habbrev
    cases hg with
    | @next _ _ f g hx _ =>
      obtain ⟨hdatum, -⟩ := Datum.pair.inj hgdatum
      refine ⟨_, .abbreviation hl ?_ ?_ hx, congrArg (fun d => Datum.list [datum a, d]) hdatum, ?_⟩
      · rintro rfl n e rfl
        rw [abbreviation_eq_bquote hl] at h
        exact h rfl
      · rintro rfl name rfl
        rw [abbreviation_eq_comma hl] at h
        exact h rfl
      · exact fun l hl => hgdoubts l (List.mem_append_left _ hl)
    | dot _ hpair _ => exact absurd rfl (hpair _ _)
  · refine ⟨_, .list (fun l x hl hx => habbrev ⟨l, x, hl, hx⟩) hf hg, ?_, ?_⟩
    · rw [hfdatum, hgdatum]
      rfl
    · intro l hl
      exact (List.mem_append.mp hl).elim (hfdoubts l) (hgdoubts l)

theorem Restored.next {a d : Value} (ha : Restored len .datum a) (hd : Restored len .tail d) :
    Restored len .tail (.pair a d) := by
  obtain ⟨f, hf, hfdatum, hfdoubts⟩ := ha
  obtain ⟨g, hg, hgdatum, hgdoubts⟩ := hd
  refine ⟨_, .next hf hg, ?_, ?_⟩
  · rw [hfdatum, hgdatum]
    rfl
  · intro l hl
    exact (List.mem_append.mp hl).elim (hfdoubts l) (hgdoubts l)

theorem restored (hdata : IsData v) (h : AllWritten (Restorable len) part v) :
    Restored len part v := by
  induction v generalizing part with
  | pair a d iha ihd =>
    have ha := iha hdata.1 h.2.1
    have hd := ihd hdata.2 h.2.2
    cases part with
    | datum => exact ha.pair (h.1 rfl) hd
    | tail => exact ha.next hd
  | vector n e ih => exact .vector h.1 fun i => ih i (hdata i) (h.2 i)
  | _ => exact .atom rfl hdata h

theorem AllWritten.leaves {P : Value → Prop} (h : AllWritten P part v) : AllLeaves P v := by
  induction v generalizing part with
  | pair a d iha ihd => exact ⟨iha h.2.1, ihd h.2.2⟩
  | vector n e ih => exact fun i => ih i (h.2 i)
  | _ => exact h

theorem restorable_atom (hatom : isAtom v) (hdata : IsDatumLeaf v)
    (hreadable : ∀ l ∈ (writtenAtom v).doubts, Readable l) (hd : denote sharp (datum v) = some w)
    (hw : equal w v) : Restorable len v := by
  cases v with
  | number v =>
    cases v with
    | integer i => trivial
    | rational n d => exact denominator_pos_of_equal hdata hd hw
  | string s =>
    obtain ⟨past, hread⟩ := hreadable _ List.mem_cons_self
    obtain ⟨_, _, _, _, hlen, -⟩ := readstrexp_some hread
    exact hlen
  | pair a d => cases hatom
  | vector n e => cases hatom
  | _ => trivial

theorem restorable_pair {a d : Value}
    (hquasi : a = .symbol (ascii "quasiquote") → ∀ n e, d ≠ .pair (.vector n e) .nil)
    (hunquote : a = .symbol (ascii "unquote") → ∀ name, d ≠ .pair (.symbol (64 :: name)) .nil) :
    Restorable len (.pair a d) := by
  rw [Restorable.eq_def]
  split
  · rename_i heq
    cases heq
  · rename_i heq
    cases heq
  · rename_i heq
    cases heq
  · rename_i name n e heq
    cases heq
    rintro rfl
    exact hquasi rfl n e rfl
  · rename_i name name' heq
    cases heq
    rintro rfl
    exact hunquote rfl name' rfl
  · trivial

/-- A value that is equal to what is read instead of it comes back. -/
theorem Writes.restorable (h : Writes len part v f) (hdata : IsData v)
    (hreadable : ∀ l ∈ f.doubts, Readable l) (hd : denote sharp f.datum = some w)
    (hw : equal w v) : AllWritten (Restorable len) part v := by
  induction h generalizing w with
  | @atom v hatom =>
    have hleaf : IsDatumLeaf v → Restorable len v := fun hleaf =>
      restorable_atom hatom hleaf hreadable hd hw
    cases v with
    | pair a d => cases hatom
    | vector n e => cases hatom
    | _ => exact hleaf hdata
  | @list a d f g hlist _ _ iha ihd =>
    obtain ⟨x, y, hx, hy, rfl⟩ := denote_pair_eq_some hd
    rw [equal, Bool.and_eq_true] at hw
    have hpair : Restorable len (.pair a d) := by
      refine restorable_pair ?_ ?_
      · rintro rfl n e
        exact hlist .bquote _ rfl
      · rintro rfl name
        exact hlist .comma _ rfl
    refine ⟨fun _ => hpair, iha hdata.1 ?_ hx hw.1, ihd hdata.2 ?_ hy hw.2⟩
    · exact fun l hl => hreadable l (List.mem_append_left _ hl)
    · exact fun l hl => hreadable l (List.mem_append_right _ hl)
  | @vector n m e fs hm hle hfs ih =>
    obtain ⟨us, hus, rfl⟩ := denote_vector_eq_some hd
    obtain ⟨us', heq, hall⟩ := denote_list_eq_some hus
    have hget := elements?_list us
    rw [heq, elements?_list, Option.some_inj] at hget
    subst hget
    have hequal := equal_vector hw
    rw [List.ofFn_get] at hequal
    rw [List.forall₂_iff_get] at hall hequal
    have hlength : m = n := by
      have h₁ := hall.1
      have h₂ := hequal.1
      simp only [List.length_map, List.length_ofFn] at h₁ h₂
      omega
    subst hlength
    refine ⟨hm, ?_⟩
    intro i
    have hi : i < ((List.ofFn fs).map Written.datum).length := by simp
    have hi' : i < us'.length := hall.1 ▸ hi
    have hdenotes := hall.2 i hi hi'
    have heq := hequal.2 i hi' (by simp)
    simp only [List.get_eq_getElem, List.getElem_map, List.getElem_ofFn, Fin.eta] at hdenotes heq
    refine ih i (hdata i) ?_ hdenotes heq
    intro l hl
    exact hreadable l (List.mem_flatMap.mpr ⟨fs i, List.mem_ofFn.mpr ⟨i, rfl⟩, hl⟩)
  | @abbreviation a x l f hl hvec hat hx ih =>
    obtain ⟨u, y, hu, hy, rfl⟩ := denote_pair_eq_some hd
    obtain ⟨z, t, hz, ht, rfl⟩ := denote_pair_eq_some hy
    rw [equal, equal, Bool.and_eq_true, Bool.and_eq_true] at hw
    have hpair : Restorable len (.pair a (.pair x .nil)) := by
      refine restorable_pair ?_ ?_
      · rintro rfl n e heq
        cases hl
        exact hvec rfl n e (Value.pair.inj heq).1
      · rintro rfl name heq
        cases hl
        exact hat rfl name (Value.pair.inj heq).1
    have hsymbol : AllWritten (Restorable len) .datum a := by
      cases a with
      | symbol name => trivial
      | _ => cases hl
    exact ⟨fun _ => hpair, hsymbol, (fun h => by cases h), ih hdata.2.1 hreadable hz hw.2.1, trivial⟩
  | quasiVector =>
    obtain ⟨u, y, hu, -, rfl⟩ := denote_pair_eq_some hd
    have happly : mkAtom (ascii "apply") = .ok (.symbol (ascii "apply")) := by decide
    rw [denote, happly] at hu
    cases hu
    rw [equal, Bool.and_eq_true] at hw
    exact absurd hw.1 (by decide)
  | splice name => exact (hreadable _ List.mem_cons_self).elim
  | close => trivial
  | @next a d f g _ _ iha ihd =>
    obtain ⟨x, y, hx, hy, rfl⟩ := denote_pair_eq_some hd
    rw [equal, Bool.and_eq_true] at hw
    refine ⟨(fun h => by cases h), iha hdata.1 ?_ hx hw.1, ihd hdata.2 ?_ hy hw.2⟩
    · exact fun l hl => hreadable l (List.mem_append_left _ hl)
    · exact fun l hl => hreadable l (List.mem_append_right _ hl)
  | @dot v f _ hpair _ ih =>
    have hall := ih hdata hreadable hd hw
    cases v with
    | pair a d => exact absurd rfl (hpair a d)
    | _ => exact hall

/-! ## Values that do not come back -/

/-- An unquote is not an unquote-splicing. -/
def Unspliced (a b : List UInt8) : Prop := b = ascii "unquote" → a ≠ ascii "unquote-splicing"

theorem agreesWith_atom {b : List UInt8} (hb : b ≠ ascii "unquote") :
    AgreesWith sharp Unspliced v (.atom b) := by
  intro D u _ _
  cases D with
  | atom a => exact fun heq => absurd heq hb
  | _ => trivial

theorem agreesWith_symbol (name : List UInt8) :
    AgreesWith sharp Unspliced (.symbol name) (.atom name) := by
  by_cases hname : name = ascii "unquote"
  · subst hname
    intro D u hD hu
    cases D with
    | atom a =>
      rintro - rfl
      have hatom : mkAtom (ascii "unquote-splicing") = .ok (.symbol (ascii "unquote-splicing")) := by
        decide
      rw [denote, hatom] at hD
      cases hD
      exact absurd hu (by decide)
    | _ => trivial
  · exact agreesWith_atom hname

theorem agreesWith_nil_pair (a d : Datum) : AgreesWith sharp Unspliced .nil (.pair a d) := by
  intro D u hD hu
  cases D with
  | pair a' d' =>
    obtain ⟨x, y, -, -, rfl⟩ := denote_pair_eq_some hD
    cases hu
  | _ => trivial

theorem ofFn_castLE {n m : ℕ} (hle : m ≤ n) (e : Fin n → Value) :
    List.ofFn e = (List.ofFn fun i : Fin m => e (i.castLE hle)) ++ (List.ofFn e).drop m := by
  have htake : (List.ofFn fun i : Fin m => e (i.castLE hle)) = (List.ofFn e).take m := by
    refine List.ext_getElem (by simpa using hle) ?_
    intro i h₁ h₂
    simp
  rw [htake, List.take_append_drop]

theorem Writes.agreesWith (h : Writes len part v f) : AgreesWith sharp Unspliced v f.datum := by
  induction h with
  | @atom v hatom =>
    cases v with
    | symbol name => exact agreesWith_symbol name
    | string s => exact agreesWith_string s
    | number v =>
      refine agreesWith_atom ?_
      intro heq
      have hmem : 117 ∈ atom2str v := heq ▸ List.mem_cons_self
      exact absurd (mem_atom2str hmem) (by decide)
    | nil => exact fun D _ _ _ => agree_nil D
    | bool b =>
      intro D u _ _
      cases b <;> cases D <;> trivial
    | pair a d => cases hatom
    | vector n e => cases hatom
  | list _ _ _ iha ihd => exact iha.pair ihd
  | @vector n m e fs hm hle _ ih =>
    rw [elementsDatum, List.map_ofFn]
    exact .vector (forall₂_ofFn ih) (ofFn_castLE hle e)
  | @abbreviation a x l f hl _ _ _ ih =>
    have hsymbol : AgreesWith sharp Unspliced a (datum a) := by
      cases a with
      | symbol name => exact agreesWith_symbol name
      | _ => cases hl
    exact hsymbol.pair (ih.pair fun D _ _ _ => agree_nil D)
  | quasiVector =>
    have hne {b : List UInt8} (hb : b ≠ ascii "unquote") (v : Value) :
        AgreesWith sharp Unspliced v (.atom b) := agreesWith_atom hb
    exact (hne (by decide) _).pair ((hne (by decide) _).pair (agreesWith_nil_pair _ _))
  | splice name =>
    exact (agreesWith_symbol _).pair ((agreesWith_symbol _).pair fun D _ _ _ => agree_nil D)
  | close => exact fun D _ _ _ => agree_nil D
  | next _ _ iha ihd => exact iha.pair ihd
  | dot _ _ _ ih => exact ih

/-- The lexemes that may be read as something else are strings with slashes and unquoted names that
begin with an at sign. -/
theorem Writes.doubts (h : Writes len part v f) (hdata : IsData v) :
    ∀ l ∈ f.doubts, (∃ s, l = .string (s.flatMap slashed) s ∧ 0 ∉ s) ∨ ∃ name, l = .splice name := by
  induction h with
  | @atom v hatom =>
    cases v with
    | string s =>
      intro l hl
      obtain rfl := List.mem_singleton.mp hl
      exact Or.inl ⟨s, rfl, hdata⟩
    | pair a d => cases hatom
    | vector n e => cases hatom
    | _ => nofun
  | list _ _ _ iha ihd =>
    intro l hl
    exact (List.mem_append.mp hl).elim (iha hdata.1 l) (ihd hdata.2 l)
  | vector _ _ _ ih =>
    intro l hl
    obtain ⟨f, hf, hl⟩ := List.mem_flatMap.mp hl
    obtain ⟨i, rfl⟩ := List.mem_ofFn.mp hf
    exact ih i (hdata _) l hl
  | abbreviation _ _ _ _ ih => exact ih hdata.2.1
  | quasiVector _ _ _ ih =>
    intro l hl
    obtain ⟨f, hf, hl⟩ := List.mem_flatMap.mp hl
    obtain ⟨i, rfl⟩ := List.mem_ofFn.mp hf
    exact ih i (hdata.2.1 _) l hl
  | splice name =>
    intro l hl
    exact Or.inr ⟨name, List.mem_singleton.mp hl⟩
  | close => nofun
  | next _ _ iha ihd =>
    intro l hl
    exact (List.mem_append.mp hl).elim (iha hdata.1 l) (ihd hdata.2 l)
  | dot _ _ _ ih => exact ih hdata

/-- Behind a comma and an at sign the reader goes on to an unquote-splicing. -/
theorem fits_of_atmark {past curr : List UInt8} {frames : List Frame} {D : Datum}
    (h : Ends ⟨⟨past, curr⟩, .rdSexpr .atmark, frames⟩ D) :
    ∃ u, Fits frames (.list [.atom (ascii "unquote-splicing"), u]) D := by
  have hstep : SchemeReader.step ⟨⟨past, curr⟩, .rdSexpr .atmark, frames⟩ =
      .more ⟨(token ⟨past, curr⟩).2, .rdSexpr (token ⟨past, curr⟩).1, .rdUqtsp :: frames⟩ := rfl
  obtain ⟨u, w, hw, hfits⟩ := (h.step hstep).ahead
  cases hw
  exact ⟨u, hfits⟩

/-- What the reader makes of a text in which it meets such a lexeme is not equal to the value. -/
theorem Writes.not_ends {D : Datum} {r : Reader} (h : Writes len part v f) (hdata : IsData v)
    (hmeets : MeetsDoubt f.doubts f.datum r) (hD : denote sharp D = some w) (hw : equal w v) :
    ¬ Ends r D := by
  intro hends
  obtain ⟨l, past, rest, frames, hl, hnot, hfits, hsteps⟩ := hmeets
  have hagree := h.agreesWith D w hD hw
  have hends := hends.steps hsteps
  cases h.doubts hdata l hl with
  | inl hstring =>
    obtain ⟨s, rfl, hzero⟩ := hstring
    obtain ⟨t, pt, hread, hfits'⟩ := hends.string
    obtain rfl : t = s := hfits'.related deep_agree hfits hagree
    obtain ⟨_, _, _, _, hlen, -⟩ := readstrexp_some hread
    exact hnot (isStringText_slashes hzero hlen)
  | inr hsplice =>
    obtain ⟨name, rfl⟩ := hsplice
    obtain ⟨u, hfits'⟩ := fits_of_atmark hends
    exact (hfits'.related deep_agree hfits hagree).1 rfl rfl

theorem restorable_of_comesBack (hdata : IsData v) (h : ComesBack sharp len v) :
    AllWritten (Restorable len) .datum v := by
  obtain ⟨text, d, w, hemits, ⟨r, pt, hsteps, hdone, -⟩, hd, hw⟩ := h
  obtain ⟨f, hf, rfl⟩ := emits_iff.mp hemits
  have hends : Ends (start f.text) d := ⟨r, pt, hsteps, hdone⟩
  cases (hf.prints hdata).readsAs_or with
  | inl hor =>
    obtain ⟨⟨r', pt', hsteps', hdone', -⟩, hreadable⟩ := hor
    obtain rfl := hends.unique ⟨r', pt', hsteps', hdone'⟩
    exact hf.restorable hdata hreadable hd hw
  | inr hmeets => exact absurd hends (hf.not_ends hdata hmeets hd hw)

theorem comesBack_of_restorable (hsharp : ReadsBooleans sharp) (hdata : IsData v)
    (h : AllWritten (Restorable len) .datum v) : ComesBack sharp len v := by
  obtain ⟨f, hf, hdatum, hreadable⟩ := restored hdata h
  cases (hf.prints hdata).readsAs_or with
  | inl hor =>
    have hleaves : AllLeaves (ReadsItself sharp) v := by
      refine (AllLeaves.and hdata h.leaves).imp ?_
      intro l hpair hvector hl
      refine readsItself_leaf hsharp hpair hvector hl.1 ?_
      rintro n d rfl
      exact hl.2
    refine ⟨f.text, f.datum, v, emits_iff.mpr ⟨f, hf, rfl⟩, hor.1, ?_, equal_self v⟩
    rw [hdatum]
    exact denote_datum hleaves
  | inr hmeets =>
    obtain ⟨l, _, _, _, hl, hnot, -⟩ := hmeets
    exact absurd (hreadable l hl) hnot

/-- What is written is read as an equal value just when every vector has the length that is found in
its cell, every string fits the string buffer, every fraction has a positive denominator, and no
quasiquote of a vector and no unquote of a name with an at sign is abbreviated. -/
theorem comesBack_iff (hsharp : ReadsBooleans sharp) (hdata : IsData v) :
    ComesBack sharp len v ↔ AllWritten (Restorable len) .datum v :=
  ⟨restorable_of_comesBack hdata, comesBack_of_restorable hsharp hdata⟩

theorem isAtomText_at : IsAtomText (ascii "@x") := isAtomText_of_all (by decide) (by decide) (by decide)

/-- A quoted pair of a vector and a string with a quote in it, where vectors with one element are
written. -/
theorem comesBack_iff_quoted :
    ComesBack booleans 1 (.list [.symbol (ascii "quote"),
      .pair (.vector 1 fun _ => .number (.integer 7)) (.string (ascii "\""))]) := by
  have hquote : IsAtomText (ascii "quote") := isAtomText_of_all (by decide) (by decide) (by decide)
  have hsymbol : IsDatumLeaf (.symbol (ascii "quote")) := ⟨hquote, by decide⟩
  have hstring : IsDatumLeaf (.string (ascii "\"")) := (by decide : 0 ∉ ascii "\"")
  have hseven : IsDatumLeaf (.number (.integer 7)) := (by decide : InInt64 7)
  have hfits : Restorable 1 (.string (ascii "\"")) := (by decide : (ascii "\"").length < strbuffSize)
  refine (comesBack_iff readsBooleans ?_).mpr ?_
  · exact ⟨hsymbol, ⟨fun _ => hseven, hstring⟩, trivial⟩
  · exact ⟨fun _ => trivial, trivial, nofun, ⟨fun _ => trivial, ⟨rfl, fun _ => trivial⟩, hfits⟩, trivial⟩

/-- An unquote of `@x` is written as an unquote-splicing of `x`, a quasiquoted vector is read as a
call of `vector`, and a vector with two elements is not written to its end where the low word of
the address of `NIL` is 4096. -/
theorem not_comesBack :
    ¬ ComesBack booleans 4096 (.list [.symbol (ascii "unquote"), .symbol (ascii "@x")]) ∧
    ¬ ComesBack booleans 0 (.list [.symbol (ascii "quasiquote"), .vector 0 nofun]) ∧
    ¬ ComesBack booleans 4096 (.vector 2 fun _ => .nil) := by
  have hunquote : IsAtomText (ascii "unquote") := isAtomText_of_all (by decide) (by decide) (by decide)
  have hquasi : IsAtomText (ascii "quasiquote") :=
    isAtomText_of_all (by decide) (by decide) (by decide)
  refine ⟨?_, ?_, ?_⟩
  · intro h
    have hdata : IsData (.list [.symbol (ascii "unquote"), .symbol (ascii "@x")]) :=
      ⟨⟨hunquote, by decide⟩, ⟨isAtomText_at, by decide⟩, trivial⟩
    exact (restorable_of_comesBack hdata h).1 rfl rfl
  · intro h
    have hdata : IsData (.list [.symbol (ascii "quasiquote"), .vector 0 nofun]) :=
      ⟨⟨hquasi, by decide⟩, nofun, trivial⟩
    exact (restorable_of_comesBack hdata h).1 rfl rfl
  · intro h
    have hdata : IsData (.vector 2 fun _ => .nil) := fun _ => trivial
    have hlength : ((2 : ℕ) : ℤ) = 4096 := (restorable_of_comesBack hdata h).1
    omega

end Extempore.SchemeWriter
