import Extempore.StructLayouts
import Extempore.TypeParsing

/-!
# Type sizes

`impc:ir:get-type-size` and `impc:ir:get-alignment` on a machine with pointers of 64 bits. The size
of a tuple is that of the types which `impc:ir:get-tuple-type-from-str` finds in its text.
-/

namespace Extempore.TypeSizes
open Atoms (byte)
open TypeStrings TypeParsing StructLayouts

/-- The table of named types, by the name without percent sign and stars. `bind-type` takes only
tuples; a name is no name of a base type and has no brackets. -/
structure NamedTypes where
  find : List UInt8 → Option (List XType)
  name : ∀ name types, find name = some types →
    baseNumber name = none ∧ ∀ a ∈ name, wordByte a = true

/-- `impc:ir:clean-named-type` -/
def cleanNamedType (text : List UInt8) : List UInt8 :=
  getBaseType (if text.head? = some (byte '%') then text.tail else text)

/-- `impc:ti:get-namedtype-type` -/
def NamedTypes.getNamedtypeType (named : NamedTypes) (text : List UInt8) : Option XType :=
  (named.find (cleanNamedType text)).map (.tuple (getPtrDepth text))

/-- `impc:ir:pointer?` of a number. From `*impc:ir:other*` on it is none. -/
def isPointer (n : ℤ) : Bool := 100 ≤ n && n < 1000

/-- The bytes of a pointer, or what else is computed. The number is the type or begins it. -/
def orPointer (n : ℤ) (other : Option ℕ) : Option ℕ := if isPointer n then some 8 else other

/-- The sizes of the base types, and of a closure. -/
def baseSize (n : ℤ) : Option ℕ :=
  if n = 0 ∨ n = 2 ∨ n = 3 then some 8
  else if n = 1 ∨ n = 4 ∨ n = 5 then some 4
  else if n = 6 ∨ n = 7 then some 2
  else if n = 11 ∨ n = 8 ∨ n = 9 ∨ n = 10 then some 1
  else if n = 13 then some 24
  else none

/-- The loop over the elements of a tuple: the size and the largest alignment. The remainder by an
alignment of 0 is an error. -/
def sizeLoop (sizeOf alignOf : XType → Option ℕ) : List XType → ℕ → ℕ → Option (ℕ × ℕ)
  | [], size, largest => some (size, largest)
  | et :: types, size, largest => do
    let thisSize ← sizeOf et
    let align ← alignOf et
    if align = 0 then none
    else sizeLoop sizeOf alignOf types (size + thisSize + padding align size) (max align largest)

/-- `impc:ir:get-tuple-type-size` -/
def getTupleTypeSize (sizeOf alignOf : XType → Option ℕ) (type : XType) : Option ℕ := do
  let text ← getTypeStr type
  let types ← getTupleTypeFromStr (fun s => getTypeFromStr (s.length + 1) s) text
  let (size, largest) ← sizeLoop sizeOf alignOf types 0 0
  if largest = 0 then none else some (size + padding largest size)

mutual

/-- `impc:ir:get-type-size`, with a bound on the calls. -/
def getTypeSize (named : NamedTypes) : ℕ → XType → Option ℕ
  | 0, _ => none
  | fuel + 1, .named text =>
    match named.getNamedtypeType text with
    | some type => if 0 < getPtrDepth text then some 8 else getTypeSize named fuel type
    | none => (getTypeFromStr (text.length + 1) text).bind (getTypeSize named fuel)
  | _ + 1, .atom n => orPointer n (baseSize n)
  | _ + 1, .closure ptr _ => orPointer (13 + 100 * ptr) (baseSize (13 + 100 * ptr))
  | fuel + 1, .array ptr size type => orPointer (15 + 100 * ptr)
    (if ptr = 0 then (getTypeSize named fuel type).map (· * size) else none)
  | fuel + 1, .vector ptr size type => orPointer (16 + 100 * ptr)
    (if ptr = 0 then (getTypeSize named fuel type).map (· * size) else none)
  | fuel + 1, .tuple ptr types => orPointer (14 + 100 * ptr)
    (if ptr = 0 then
      getTupleTypeSize (getTypeSize named fuel) (getAlignment named fuel) (.tuple ptr types)
    else none)

/-- `impc:ir:get-alignment` of a type that is no string. -/
def getAlignmentOf (named : NamedTypes) : ℕ → XType → Option ℕ
  | 0, _ => none
  | _ + 1, .named _ => none
  | fuel + 1, .array ptr _ type => orPointer (15 + 100 * ptr) (getTypeSize named fuel type)
  | fuel + 1, .vector ptr size type => orPointer (16 + 100 * ptr)
    (getTypeSize named fuel (.vector ptr size type))
  | fuel + 1, .closure ptr types => orPointer (13 + 100 * ptr)
    ((types.mapM (getAlignment named fuel)).bind List.max?)
  | fuel + 1, .tuple ptr types => orPointer (14 + 100 * ptr)
    ((types.mapM (getAlignment named fuel)).bind List.max?)
  | fuel + 1, .atom n => orPointer n
    (if n % 100 = 13 ∨ n % 100 = 14 ∨ n % 100 = 15 ∨ n % 100 = 16 then none
    else if n = 2 then some 4
    else getTypeSize named fuel (.atom n))

/-- `impc:ir:get-alignment`. A name stands for its type; without a type it is an endless loop. -/
def getAlignment (named : NamedTypes) : ℕ → XType → Option ℕ
  | 0, _ => none
  | fuel + 1, .named text => (named.getNamedtypeType text).bind (getAlignmentOf named fuel)
  | fuel + 1, type => getAlignmentOf named fuel type

end

end Extempore.TypeSizes
