import Extempore.Atoms
import Extempore.OrderedPatterns
import Extempore.RegexLoops

/-!
# Type strings

The compiler prints xtlang types as LLVM types with `impc:ir:get-type-str` and reads them back with
`impc:ir:get-type-from-str`, which takes a text apart with regular expressions. The patterns stand
here as the compiler has them; a pattern that calls itself does so up to the length of the text.
-/

namespace Extempore.TypeStrings
open Atoms (byte isDigit decimalNat digitsValue)
open SchemeReader (ascii)
open OrderedPatterns RegexLoops

/-- A type is a number, the text of a named type, or a list that begins with a number. There are
`ptr` hundreds in that number for the pointers. -/
inductive XType where
  | atom (n : ℤ)
  | named (text : List UInt8)
  | closure (ptr : ℕ) (types : List XType)
  | tuple (ptr : ℕ) (types : List XType)
  | array (ptr : ℕ) (size : ℕ) (type : XType)
  | vector (ptr : ℕ) (size : ℕ) (type : XType)

/-! ## Printing -/

def stars (n : ℕ) : List UInt8 := List.replicate n (byte '*')

/-- The texts with a separator in between. -/
def join (sep : List UInt8) (texts : List (List UInt8)) : List UInt8 :=
  (texts.intersperse sep).flatten

/-- The names of the types from `*impc:ir:fp64*` to `*impc:ir:char*`. -/
def baseStr (base : ℤ) : Option (List UInt8) :=
  if base = 0 then some (ascii "double")
  else if base = 1 then some (ascii "float")
  else if base = 2 ∨ base = 3 then some (ascii "i64")
  else if base = 4 ∨ base = 5 then some (ascii "i32")
  else if base = 6 ∨ base = 7 then some (ascii "i16")
  else if base = 8 ∨ base = 9 ∨ base = 11 then some (ascii "i8")
  else if base = 10 then some (ascii "i1")
  else none

/-- A type that is a number. The negative ones are references of recursive types. -/
def atomStr (n : ℤ) : Option (List UInt8) :=
  if n = -1 then some (ascii "void")
  else if n = -3 then some (ascii "notype")
  else if n < 0 then
    some (byte '\\' :: (decimalNat (n.natAbs % 100) ++ stars (n.natAbs / 100)))
  else (baseStr (n % 100)).map fun base => base ++ stars (n / 100).toNat

/-- `impc:ir:make-function-str`, with the two arguments for zone and environment. -/
def makeFunctionStr : List (List UInt8) → Option (List UInt8)
  | [] => none
  | ret :: args => some (ret ++ ascii " (i8*, i8*" ++ (if args = [] then [] else ascii ", ") ++
      join (ascii ", ") args ++ ascii ")")

mutual

/-- `impc:ir:get-type-str` -/
def getTypeStr : XType → Option (List UInt8)
  | .atom n => atomStr n
  | .named text => some text
  | .closure ptr types => do
    let function ← makeFunctionStr (← getTypeStrs types)
    some (ascii "\x7bi8*, i8*, " ++ function ++ ascii "*\x7d" ++ stars ptr)
  | .tuple ptr types => do
    let texts ← getTypeStrs types
    some (ascii "\x7b" ++ join (ascii ",") texts ++ ascii "\x7d" ++ stars ptr)
  | .array ptr size type => do
    let text ← getTypeStr type
    some (ascii "[" ++ decimalNat size ++ ascii " x " ++ text ++ ascii "]" ++ stars ptr)
  | .vector ptr size type => do
    let text ← getTypeStr type
    some (ascii "<" ++ decimalNat size ++ ascii " x " ++ text ++ ascii ">" ++ stars ptr)

def getTypeStrs : List XType → Option (List (List UInt8))
  | [] => some []
  | type :: types => do
    let text ← getTypeStr type
    let texts ← getTypeStrs types
    some (text :: texts)

end

/-! ## Patterns -/

abbrev Bytes := Pattern UInt8

def lit (c : Char) : Bytes := .set (· == byte c)

/-- A row of characters. -/
def word (text : List UInt8) : Bytes := text.foldr (fun b p => .seq (.set (· == b)) p) .empty

/-- `.` -/
def anyByte : Bytes := .set (· != byte '\n')

/-- `$`, which also matches in front of a last newline. -/
def endOfText : Bytes :=
  .notAhead (.alt (.seq (lit '\n') (.set fun _ => true)) anyByte)

/-- `\s?` -/
def optSpace : Bytes := .opt (.set fun b => b == 32 || (9 ≤ b && b ≤ 13))

def anyStars : Bytes := .star (lit '*')

/-- `[%#0-9a-zA-Z_-]` -/
def wordByte (b : UInt8) : Bool :=
  b == byte '%' || b == byte '#' || isDigit b || (97 ≤ b && b ≤ 122) || (65 ≤ b && b ≤ 90) ||
    b == byte '_' || b == byte '-'

/-- `(?<struct>(?!\{|\}|\<\{|\}\>).|\<?\{\g<struct>*\}\>?\**)` -/
def structGroup (struct : Bytes) : Bytes :=
  .alt
    (.seq (.notAhead (.alt (lit '\x7b') (.alt (lit '\x7d') (.alt (word (ascii "<\x7b"))
      (word (ascii "\x7d>")))))) anyByte)
    (.seq (.opt (lit '<')) (.seq (lit '\x7b') (.seq (.star (.atomic struct)) (.seq (lit '\x7d')
      (.seq (.opt (lit '>')) anyStars)))))

/-- `(?<array>(?!\[|\]).|\[\g<array>*\]\**)`, and the same for the angles of `vector`. -/
def bracketGroup (o c : Char) (group : Bytes) : Bytes :=
  .alt (.seq (.notAhead (.alt (lit o) (lit c))) anyByte)
    (.seq (lit o) (.seq (.star (.atomic group)) (.seq (lit c) anyStars)))

/-- `impc:ir:regex-structs-or-atoms` -/
def regexStructsOrAtoms (depth : ℕ) : Bytes :=
  .alt
    (.seq (.opt (lit '<')) (.seq (lit '\x7b') (.seq (.star (nested structGroup depth))
      (.seq (lit '\x7d') (.seq (.opt (lit '>')) anyStars)))))
    (.alt
      (.seq (lit '[') (.seq (.star (nested (bracketGroup '[' ']') depth))
        (.seq (lit ']') anyStars)))
      (.alt
        (.seq (lit '<') (.seq (.star (nested (bracketGroup '<' '>') depth))
          (.seq (lit '>') anyStars)))
        (.plus (.seq (.set wordByte) anyStars))))

/-- `regex:match-all`. It returns if no match is empty. -/
def matchAll (exec : Exec) (text : List UInt8) : Option (List (List UInt8)) :=
  (WhileLoops.loop (found exec) (matchAllRound exec) (text.length + 1) ⟨text, []⟩).map fun s =>
    s.list.reverse

/-- The structs and atoms in a text. -/
def structsOrAtoms (text : List UInt8) : Option (List (List UInt8)) :=
  (matchAll (fun data => (regexStructsOrAtoms (data.length + 1)).find data) text).map fun texts =>
    texts.filter (· ≠ [])

/-- `regex:replace` of a pattern with one group by `"$1"`. -/
def replaceGroup (p g q : Bytes) (text : List UInt8) : List UInt8 :=
  match findGroup p g q text with
  | none => text
  | some (before, group, behind) => before ++ group ++ behind

/-- The same for a pattern that begins with `^`. -/
def replaceGroupAt (p g q : Bytes) (text : List UInt8) : List UInt8 :=
  match groupAt p g q text with
  | none => text
  | some (group, behind) => group ++ behind

/-! ## Reading -/

/-- `impc:ir:get-ptr-depth` of a text, with the pattern `([*]*)($|#)`. -/
def getPtrDepth (text : List UInt8) : ℕ :=
  (findGroup .empty anyStars (.alt endOfText (lit '#')) text).elim 0 fun m => m.2.1.length

/-- `impc:ir:get-base-type`. The text in front of `##` loses its pointers. -/
def getBaseType (text : List UInt8) : List UInt8 :=
  let r1 := match (word (ascii "##")).find text with
    | some (b, _) => text.take b
    | none => text
  replaceGroupAt .empty (.star anyByte) (.seq (word (stars (getPtrDepth r1))) endOfText) r1

/-- `^[0-9]*$` -/
def digitsPattern : Bytes := .seq (.star (.set isDigit)) endOfText

/-- `^\<.* x .*\>\**$` -/
def vectorPattern : Bytes :=
  .seq (lit '<') (.seq (.star anyByte) (.seq (word (ascii " x ")) (.seq (.star anyByte)
    (.seq (lit '>') (.seq anyStars endOfText)))))

/-- `^\{\s?i8\*,\s?i8\*.*\)\**}$` -/
def closurePattern : Bytes :=
  .seq (lit '\x7b') (.seq optSpace (.seq (word (ascii "i8*,")) (.seq optSpace
    (.seq (word (ascii "i8*")) (.seq (.star anyByte) (.seq (lit ')') (.seq anyStars
      (.seq (lit '\x7d') endOfText))))))))

/-- `^\<?\{.*\}\>?\**$` -/
def tuplePattern : Bytes :=
  .seq (.opt (lit '<')) (.seq (lit '\x7b') (.seq (.star anyByte) (.seq (lit '\x7d')
    (.seq (.opt (lit '>')) (.seq anyStars endOfText)))))

/-- `^\[.*x.*\]\**$` -/
def arrayPattern : Bytes :=
  .seq (lit '[') (.seq (.star anyByte) (.seq (lit 'x') (.seq (.star anyByte)
    (.seq (lit ']') (.seq anyStars endOfText)))))

/-- `string->number` of a row of digits. -/
def stringToNumber (text : List UInt8) : Option ℕ :=
  if text ≠ [] ∧ text.all isDigit then some (digitsValue 0 text) else none

/-- The first and the third text, a number and a type. -/
def sizeAndType (read : List UInt8 → Option XType) (texts : List (List UInt8)) :
    Option (ℕ × XType) :=
  match texts with
  | size :: _ :: type :: _ => do some (← stringToNumber size, ← read type)
  | _ => none

/-- `impc:ir:get-tuple-type-from-str` -/
def getTupleTypeFromStr (read : List UInt8 → Option XType) (text : List UInt8) :
    Option (List XType) := do
  let s1 := replaceGroup (.seq (.opt (lit '<')) (lit '\x7b')) (.star anyByte)
    (.seq (lit '\x7d') (.seq (.opt (lit '>')) (.star anyByte))) text
  (← structsOrAtoms s1).mapM read

/-- `impc:ir:get-array-type-from-str` -/
def getArrayTypeFromStr (read : List UInt8 → Option XType) (text : List UInt8) :
    Option (ℕ × XType) := do
  let s1 := replaceGroup (lit '[') (.star anyByte) (.seq (lit ']') (.star anyByte)) text
  sizeAndType read (← structsOrAtoms s1)

/-- `impc:ir:get-vector-type-from-str` -/
def getVectorTypeFromStr (read : List UInt8 → Option XType) (text : List UInt8) :
    Option (ℕ × XType) := do
  let s1 := replaceGroup (lit '<') (.star anyByte) (.seq (lit '>') (.star anyByte)) text
  sizeAndType read (← structsOrAtoms s1)

/-- `impc:ir:get-function-type-from-str`: without the arguments for zone and environment. -/
def getFunctionTypeFromStr (read : List UInt8 → Option XType) (text : List UInt8) :
    Option (List XType) := do
  match ← structsOrAtoms text with
  | ret :: _ :: _ :: args =>
    let ss := ascii "(" ++ ret ++ ascii " " ++ join (ascii " ") args
    (← structsOrAtoms ss).mapM read
  | _ => none

/-- `impc:ir:get-closure-type-from-str` -/
def getClosureTypeFromStr (read : List UInt8 → Option XType) (text : List UInt8) :
    Option (List XType) :=
  getFunctionTypeFromStr read (replaceGroupAt
    (.seq (lit '\x7b') (.seq optSpace (.seq (word (ascii "i8*,")) (.seq optSpace
      (word (ascii "i8*,"))))))
    (.star anyByte) (.seq (lit '\x7d') (.seq (.star anyByte) endOfText)) text)

/-- The first number of a type with the given name. The names for 12 to 17 have the whole text
behind a percent sign and are never the given one. -/
def baseNumber (base : List UInt8) : Option ℤ :=
  ((List.range 18).map Int.ofNat).find? fun i => baseStr i = some base

/-- `impc:ir:get-type-from-str`, with a bound on the depth of the type. -/
def getTypeFromStr : ℕ → List UInt8 → Option XType
  | 0, _ => none
  | fuel + 1, text =>
    let depth := getPtrDepth text
    let read := getTypeFromStr fuel
    match getBaseType text with
    | [] => none
    | b :: bs =>
      let base := (if b = byte '\\' then byte '0' else b) :: bs
      if base = ascii "void" then some (.atom (-1))
      else if base = ascii "notype" then some (.atom (-3))
      else if base = ascii "@" then some (.atom (-2))
      else if digitsPattern.test base then
        some (.atom (-(100 * depth : ℕ) - (digitsValue 0 base : ℕ)))
      else if base = ascii "closure" then some (.atom (13 + 100 * depth))
      else if base = ascii "tuple" then some (.atom (14 + 100 * depth))
      else if base = ascii "array" then some (.atom (15 + 100 * depth))
      else if base = ascii "vector" then some (.atom (16 + 100 * depth))
      else if vectorPattern.test base ∧ byte ',' ∉ base then
        (getVectorTypeFromStr read text).map fun t => .vector depth t.1 t.2
      else if closurePattern.test base then
        (getClosureTypeFromStr read text).map (.closure depth)
      else if tuplePattern.test base then (getTupleTypeFromStr read text).map (.tuple depth)
      else if arrayPattern.test base then
        (getArrayTypeFromStr read text).map fun t => .array depth t.1 t.2
      else if base.head? = some (byte '%') then some (.named text)
      else (baseNumber base).map fun n => .atom (n + 100 * depth)

end Extempore.TypeStrings
