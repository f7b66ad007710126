import Mathlib.Algebra.GroupWithZero.Nat
import Extempore.SchemeReader

/-!
# The address table of a closure

A closure of the runtime keeps the places of its variables in a linked list. Compiled code
finds an entry by the hash of the variable's name; only `get_address_table` compares names.
Strings are lists of bytes without the closing NUL.
-/

namespace Extempore.ClosureAddressTable
open SchemeReader

/-- `string_hash`, a 64-bit number. -/
def stringHash (str : List UInt8) : ℕ :=
  str.foldl (fun result c => (result * 33 + c.toNat) % 2 ^ 64) 0

/-- `closure_address_table` without its `next`. -/
structure Entry where
  id : ℕ
  name : List UInt8
  offset : ℕ
  type : List UInt8
  deriving DecidableEq, Repr

/-- A table from its head on; the empty list is the null pointer. -/
abbrev Table := List Entry

/-- `add_address_table`; where the entry is allocated makes no difference. -/
def addAddressTable (name : List UInt8) (offset : ℕ) (type : List UInt8) (table : Table) : Table :=
  ⟨stringHash name, name, offset, type⟩ :: table

/-- `get_address_table`, which stops where `strcmp` is not zero. -/
def getAddressTable (name : List UInt8) : Table → Option Entry
  | [] => none
  | e :: table => if e.name ≠ name then some e else getAddressTable name table

def getAddressOffset (id : ℕ) : Table → ℕ
  | [] => 0
  | e :: table => if e.id = id then e.offset else getAddressOffset id table

/-- The loop of `check_address_exists` behind its first test. -/
def existsFrom (id : ℕ) : Table → Bool
  | [] => false
  | e :: table => if e.id = id then true else existsFrom id table

/-- `check_address_exists`, which looks at the first entry before it tests for null; `none` is
an access through the null pointer. -/
def checkAddressExists (id : ℕ) : Table → Option Bool
  | [] => none
  | e :: table => if e.id = id then some true else some (existsFrom id table)

/-- The type with which `check_address_type` is always content. -/
def anyClosure : List UInt8 := ascii "\x7bi8*, i8*, void (i8*, i8*)*\x7d**"

def checkAddressType (id : ℕ) (type : List UInt8) : Table → Bool
  | [] => false
  | e :: table =>
    if e.id = id then !(e.type ≠ type && anyClosure ≠ type) else checkAddressType id type table

def getAddressType (id : ℕ) : Table → Option (List UInt8)
  | [] => none
  | e :: table => if e.id = id then some e.type else getAddressType id table

/-- The tables that calls of `add_address_table` with different names build. -/
inductive Built : Table → Prop
  | nil : Built []
  | add {table : Table} (name : List UInt8) (offset : ℕ) (type : List UInt8) :
      Built table → name ∉ table.map Entry.name → Built (addAddressTable name offset type table)

/-- The entry at which a search for the hash stops. -/
def entryOf (id : ℕ) (table : Table) : Option Entry := table.find? (·.id = id)

/-! ## The searches for a hash -/

variable {id : ℕ} {table : Table} {e : Entry}

theorem getAddressOffset_eq :
    getAddressOffset id table = ((entryOf id table).map Entry.offset).getD 0 := by
  induction table with
  | nil => rfl
  | cons e table ih =>
    by_cases h : e.id = id
    · simp [getAddressOffset, entryOf, h]
    · simpa [getAddressOffset, entryOf, h] using ih

theorem getAddressType_eq : getAddressType id table = (entryOf id table).map Entry.type := by
  induction table with
  | nil => rfl
  | cons e table ih =>
    by_cases h : e.id = id
    · simp [getAddressType, entryOf, h]
    · simpa [getAddressType, entryOf, h] using ih

theorem existsFrom_eq : existsFrom id table = (entryOf id table).isSome := by
  induction table with
  | nil => rfl
  | cons e table ih =>
    by_cases h : e.id = id
    · simp [existsFrom, entryOf, h]
    · simpa [existsFrom, entryOf, h] using ih

theorem checkAddressExists_eq :
    checkAddressExists id table =
      if table = [] then none else some (entryOf id table).isSome := by
  cases table with
  | nil => rfl
  | cons e table =>
    by_cases h : e.id = id
    · simp [checkAddressExists, entryOf, h]
    · simpa [checkAddressExists, entryOf, h] using existsFrom_eq

theorem checkAddressType_eq (type : List UInt8) :
    checkAddressType id type table =
      (entryOf id table).any fun e => e.type = type ∨ anyClosure = type := by
  induction table with
  | nil => rfl
  | cons e table ih =>
    by_cases h : e.id = id
    · by_cases ht : e.type = type <;> simp [checkAddressType, entryOf, h, ht]
    · simpa [checkAddressType, entryOf, h] using ih

theorem id_eq_of_built (h : Built table) (he : e ∈ table) : e.id = stringHash e.name := by
  induction h with
  | nil => cases he
  | add name offset type _ _ ih =>
    cases he with
    | head => rfl
    | tail _ he => exact ih he

/-! ## The search for a name -/

/-- The search for a name never stops at its entry. -/
theorem getAddressTable_ne {name : List UInt8} (h : getAddressTable name table = some e) :
    e.name ≠ name := by
  induction table with
  | nil => cases h
  | cons f table ih =>
    by_cases hf : f.name = name
    · apply ih
      simpa [getAddressTable, hf] using h
    · obtain rfl : f = e := by simpa [getAddressTable, hf] using h
      exact hf

theorem getAddressTable_eq_none {name : List UInt8} :
    getAddressTable name table = none ↔ ∀ f ∈ table, f.name = name := by
  induction table with
  | nil => simp [getAddressTable]
  | cons f table ih =>
    by_cases hf : f.name = name
    · simp [getAddressTable, hf, ih]
    · simp [getAddressTable, hf]

/-! ## Lookup by name -/

/-- The searches for the hash of a name give what the entry `e` holds. -/
def Selects (table : Table) (e : Entry) : Prop :=
  getAddressOffset (stringHash e.name) table = e.offset ∧
    getAddressType (stringHash e.name) table = some e.type ∧
    checkAddressExists (stringHash e.name) table = some true ∧
    checkAddressType (stringHash e.name) e.type table = true

/-- All searches for a name that is in the table find its entry, and the two that tell whether
it is there find nothing for another name. -/
def Correct (table : Table) (name : List UInt8) : Prop :=
  (∀ e ∈ table, e.name = name → Selects table e ∧ getAddressTable name table = some e) ∧
    (name ∉ table.map Entry.name → checkAddressExists (stringHash name) table = some false ∧
      getAddressTable name table = none)

/-- The searches for a hash work just when the newest entry with the hash has the same
offset and type. -/
theorem selects_iff (h : Built table) (he : e ∈ table) :
    Selects table e ↔
      ∀ f ∈ entryOf (stringHash e.name) table, f.offset = e.offset ∧ f.type = e.type := by
  have hne : table ≠ [] := List.ne_nil_of_mem he
  obtain ⟨f, hf⟩ : ∃ f, entryOf (stringHash e.name) table = some f := by
    apply Option.isSome_iff_exists.mp
    rw [entryOf, List.find?_isSome]
    exact ⟨e, he, by simpa using id_eq_of_built h he⟩
  rw [Selects, getAddressOffset_eq, getAddressType_eq, checkAddressExists_eq, checkAddressType_eq,
    hf, if_neg hne]
  constructor
  · intro hs g hg
    cases hg
    exact ⟨hs.1, Option.some.inj hs.2.1⟩
  · intro hs
    obtain ⟨ho, ht⟩ := hs f rfl
    simp [ho, ht]

/-- For no table and no name all searches give the right answer: the search for a name stops
at an entry with another name. The searches for a hash are right just when no newer entry with
the same hash differs, and an absent name is reported as absent just when the table is not empty
and no entry has its hash. -/
theorem not_correct (h : Built table) (name : List UInt8) :
    ¬ Correct table name ∧
      (∀ e ∈ table, Selects table e ↔
        ∀ f ∈ entryOf (stringHash e.name) table, f.offset = e.offset ∧ f.type = e.type) ∧
      (checkAddressExists (stringHash name) table = some false ↔
        table ≠ [] ∧ ∀ f ∈ table, f.id ≠ stringHash name) := by
  refine ⟨?_, fun e he => selects_iff h he, ?_⟩
  · intro hc
    by_cases hname : name ∈ table.map Entry.name
    · obtain ⟨e, he, hen⟩ := List.mem_map.mp hname
      exact getAddressTable_ne (hc.1 e he hen).2 hen
    · obtain ⟨hexists, hnone⟩ := hc.2 hname
      cases table with
      | nil => cases hexists
      | cons f table =>
        apply hname
        rw [← getAddressTable_eq_none.mp hnone f List.mem_cons_self]
        exact List.mem_map_of_mem List.mem_cons_self
  · rw [checkAddressExists_eq]
    by_cases hne : table = []
    · simp [hne]
    · simp [hne, entryOf]

/-- The searches in the table of the variable `x` alone. -/
theorem not_correct_singleton :
    ¬ Correct (addAddressTable (ascii "x") 0 (ascii "i64") []) (ascii "x") :=
  (not_correct (.add _ _ _ .nil (by simp)) (ascii "x")).1

/-- In a table with `x` and `y` the search for `x` finds the entry of `y`. -/
theorem getAddressTable_of_two :
    ¬ Correct (addAddressTable (ascii "y") 8 (ascii "i64")
      (addAddressTable (ascii "x") 0 (ascii "i64") [])) (ascii "x") := by
  intro h
  have hfound := (h.1 ⟨120, ascii "x", 0, ascii "i64"⟩ (by decide) rfl).2
  have hother : getAddressTable (ascii "x") (addAddressTable (ascii "y") 8 (ascii "i64")
      (addAddressTable (ascii "x") 0 (ascii "i64") [])) =
      some ⟨121, ascii "y", 8, ascii "i64"⟩ := by decide
  rw [hother] at hfound
  cases hfound

end Extempore.ClosureAddressTable
