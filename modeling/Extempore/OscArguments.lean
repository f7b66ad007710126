import Mathlib.Data.List.TakeWhile
import Extempore.OscMessages

/-!
# Arguments of outgoing OSC messages

`sendOSC` takes a list of Scheme values. `processArgs` walks over the list, writes the
type tags into one string and the arguments into one buffer, and calls itself for lists in
the list. `get_message_length` walks over tags and body of a message.
-/

namespace Extempore.OscArguments
open SchemeReader OscStrings OscMessages

/-- Scheme values as far as `processArgs` looks at them. `real` is a number that is not an
integer, by the bits of its `rvalue`. The cell of any other value holds something in place of
the type and value of a number. The cell of the empty list holds its own address there, which
is not taken for a type. -/
inductive Value where
  | nil
  | string (bytes : List UInt8)
  | pair (car cdr : Value)
  | vector
  | symbol
  | integer (n : BitVec 64)
  | real (bits : UInt64)
  | other (numType : ℕ) (ivalue : BitVec 64)
  deriving DecidableEq, Repr

inductive IntegerType where
  | i | h
  deriving DecidableEq, Repr

inductive RealType where
  | f | d
  deriving DecidableEq, Repr

/-- The types that `OSC` uses for numbers, the conversion of a `double` to a `float`, and
what a buffer from `malloc` holds. -/
structure Config where
  schemeIntegerType : IntegerType
  schemeRealType : RealType
  toFloat : UInt64 → UInt32
  fresh : ℕ → UInt8

/-- The bytes of a `char*` up to its terminator. -/
def cString (bytes : List UInt8) : List UInt8 := bytes.takeWhile (· ≠ 0)

/-- `list_length`, behind `v` pairs. -/
def listLength (v : ℤ) : Value → ℤ
  | .nil => v
  | .pair _ cdr => listLength (v + 1) cdr
  | _ => -1

/-- The tag and the bytes of an argument that is not a list. Only the type of a number is
looked at to see whether a value is an integer. -/
def encodeItem (osc : Config) : Value → Option (UInt8 × List UInt8)
  | .string s => some (115, setOSCString (cString s))
  | .integer n | .other 0 n =>
    match osc.schemeIntegerType with
    | .i => some (105, BigEndian.encode 4 (n.setWidth 32).toNat)
    | .h => some (104, BigEndian.encode 8 n.toNat)
  | .real bits =>
    match osc.schemeRealType with
    | .f => some (102, BigEndian.encode 4 (osc.toFloat bits).toNat)
    | .d => some (100, BigEndian.encode 8 bits.toNat)
  | _ => none

def tmpsize : ℕ := 1024

/-- The first `lgth` bytes of the buffer, and the type tags. -/
structure Encoded where
  body : List UInt8
  typetags : List UInt8
  deriving DecidableEq, Repr

/-- Write an argument behind the others. `none` stands for a write behind the buffer. -/
def Encoded.put (e : Encoded) (tag : UInt8) (bytes : List UInt8) : Option Encoded :=
  if e.body.length + bytes.length ≤ tmpsize then some ⟨e.body ++ bytes, e.typetags ++ [tag]⟩
  else none

/-- Leave `ret` bytes of the buffer as they are. -/
def Encoded.skip (osc : Config) (e : Encoded) (ret : ℕ) : Encoded :=
  ⟨e.body ++ (List.range ret).map fun i => osc.fresh (e.body.length + i), e.typetags⟩

def Encoded.tag (e : Encoded) (tag : UInt8) : Encoded := ⟨e.body, e.typetags ++ [tag]⟩

/-- The loop of `processArgs` with `items` rounds left. -/
def processItems (osc : Config) : Value → ℕ → ℕ → Encoded → Option Encoded
  | .pair (.pair a b) arg, items + 1, _, e =>
    (processItems osc (.pair a b) (listLength 0 (.pair a b)).toNat 0 (e.tag 91)).bind fun e =>
      processItems osc arg items 0 (e.tag 93)
  | .pair .vector arg, items + 1, ret, e => processItems osc arg items ret e
  | .pair .symbol arg, items + 1, ret, e => processItems osc arg items ret e
  | .pair item arg, items + 1, ret, e =>
    match encodeItem osc item with
    | some (tag, bytes) =>
      (e.put tag bytes).bind fun e => processItems osc arg items bytes.length e
    | none => processItems osc arg items ret (e.skip osc ret)
  | _, _, _, e => some e

def processArgs (osc : Config) (arg : Value) (e : Encoded) : Option Encoded :=
  processItems osc arg (listLength 0 arg).toNat 0 e

/-- The datagram of `sendOSC`. `none` stands for an access behind a buffer. -/
def sendOSC (osc : Config) (address : List UInt8) (arg : Value) : Option (List UInt8) :=
  (processArgs osc arg ⟨[], ascii ","⟩).bind fun e =>
    let message := setOSCString (cString address) ++ setOSCString e.typetags ++ e.body
    if e.body.length ≤ tmpsize ∧ message.length ≤ 1024 + tmpsize then some message else none

/-- `get_message_length` from `pos` on, for the tags behind the comma. `none` is an exception
of `getOSCString`. -/
def getMessageLength (args : Bytes) : List UInt8 → ℤ → Option ℤ
  | [], pos => some pos
  | tag :: typetags, pos =>
    if tag = 105 then getMessageLength args typetags (pos + 4)
    else if tag = 102 then getMessageLength args typetags (pos + 4)
    else if tag = 100 then getMessageLength args typetags (pos + 8)
    else if tag = 115 then
      (getOSCString (args.at pos)).bind fun (_, n) => getMessageLength args typetags (pos + n)
    else if tag = 104 then getMessageLength args typetags (pos + 8)
    else if tag = 116 then getMessageLength args typetags (pos + 8)
    else if tag = 91 then getMessageLength args typetags (pos + 0)
    else if tag = 93 then getMessageLength args typetags (pos + 0)
    else some (-1)

/-- An argument by its type. -/
inductive Arg where
  | int (n : ℤ)
  | long (n : ℤ)
  | float (bits : ℕ)
  | double (bits : ℕ)
  | string (s : List UInt8)
  | openList
  | closeList
  deriving DecidableEq, Repr

/-- Read the argument of a tag that `processArgs` writes. -/
def readArg (tag : UInt8) (data : Bytes) : Option (Arg × ℤ) :=
  if tag = 105 then some (.int (getOSCInt data), 4)
  else if tag = 104 then some (.long (getOSCLong data), 8)
  else if tag = 102 then some (.float (bytesValue data 4), 4)
  else if tag = 100 then some (.double (bytesValue data 8), 8)
  else if tag = 115 then (getOSCString data).map fun (s, n) => (.string s, n)
  else if tag = 91 then some (.openList, 0)
  else if tag = 93 then some (.closeList, 0)
  else none

/-- Read the arguments one after the other; the result has the position behind them, too. -/
def readArgs (args : Bytes) : List UInt8 → ℤ → Option (List Arg × ℤ)
  | [], pos => some ([], pos)
  | tag :: typetags, pos =>
    (readArg tag (args.at pos)).bind fun (a, n) =>
      (readArgs args typetags (pos + n)).map fun (as, pos) => (a :: as, pos)

/-! ## What is sent -/

/-- The argument that stands for a value that is not a list. -/
def argOf (osc : Config) : Value → Option Arg
  | .string s => some (.string (cString s))
  | .integer n =>
    match osc.schemeIntegerType with
    | .i => some (.int (n.setWidth 32).toInt)
    | .h => some (.long n.toInt)
  | .real bits =>
    match osc.schemeRealType with
    | .f => some (.float (osc.toFloat bits).toNat)
    | .d => some (.double bits.toNat)
  | _ => none

/-- The arguments of a list in order, with brackets around those of a list in the list. -/
def argsOf (osc : Config) : Value → List Arg
  | .pair (.pair a b) arg => .openList :: (argsOf osc (.pair a b) ++ .closeList :: argsOf osc arg)
  | .pair item arg => (argOf osc item).toList ++ argsOf osc arg
  | _ => []

def Arg.tag : Arg → UInt8
  | .int _ => 105
  | .long _ => 104
  | .float _ => 102
  | .double _ => 100
  | .string _ => 115
  | .openList => 91
  | .closeList => 93

def Arg.bytes : Arg → List UInt8
  | .int n => BigEndian.encode 4 (n % 2 ^ 32).toNat
  | .long n => BigEndian.encode 8 (n % 2 ^ 64).toNat
  | .float bits => BigEndian.encode 4 bits
  | .double bits => BigEndian.encode 8 bits
  | .string s => setOSCString s
  | .openList | .closeList => []

/-- The argument is read as it was sent; a string with quotes may come with backslashes. -/
def Arg.ReadAs : Arg → Arg → Prop
  | .string s, r => ∃ s', r = .string s' ∧ (quote ∉ s → s' = s)
  | a, r => r = a

/-- A proper list, and so are the lists in it. No string begins with a quote. A value that
is not supported is a vector or a symbol, or it has no type of a number in its cell and does
not come after an argument with bytes, `pending` telling whether there is one. -/
def Regular : Value → Bool → Prop
  | .nil, _ => True
  | .pair (.pair a b) arg, _ => Regular (.pair a b) false ∧ Regular arg false
  | .pair .vector arg, pending => Regular arg pending
  | .pair .symbol arg, pending => Regular arg pending
  | .pair .nil arg, pending => pending = false ∧ Regular arg false
  | .pair (.other numType _) arg, pending => numType ≠ 0 ∧ pending = false ∧ Regular arg false
  | .pair (.string s) arg, _ => (cString s).head? ≠ some quote ∧ Regular arg true
  | .pair (.integer _) arg, _ => Regular arg true
  | .pair (.real _) arg, _ => Regular arg true
  | _, _ => False

/-- The arguments fit into the buffers of `sendOSC`. -/
structure Fits (osc : Config) (address : List UInt8) (arg : Value) : Prop where
  body : ((argsOf osc arg).flatMap Arg.bytes).length ≤ tmpsize
  message : paddedLength (cString address).length + paddedLength ((argsOf osc arg).length + 1) +
    ((argsOf osc arg).flatMap Arg.bytes).length ≤ 1024 + tmpsize

/-- Memory begins with the bytes. -/
def Holds (data : Bytes) (bytes : List UInt8) : Prop :=
  ∀ i (h : i < bytes.length), data i = bytes[i]

/-- The datagram has the type tags behind the address, the tags lead over the whole body, and
with them the body is read as the arguments. -/
def Agrees (osc : Config) (address : List UInt8) (arg : Value) (message : List UInt8) : Prop :=
  ∃ typetags body,
    message = setOSCString (cString address) ++ setOSCString typetags ++ body ∧
    ∀ data tagsPos argsPos, Holds data message →
      tagsPos = (paddedLength (cString address).length : ℤ) →
      argsPos = tagsPos + paddedLength typetags.length →
      getOSCString (data.at tagsPos) = some (typetags, (paddedLength typetags.length : ℤ)) ∧
      getMessageLength (data.at argsPos) (typetags.drop 1) 0 = some (body.length : ℤ) ∧
      ∃ as, readArgs (data.at argsPos) (typetags.drop 1) 0 = some (as, (body.length : ℤ)) ∧
        List.Forall₂ Arg.ReadAs (argsOf osc arg) as

/-! ## Encoding -/

variable {osc : Config}

theorem Regular.listLength {v : Value} {pending : Bool} (h : Regular v pending) :
    ∃ k : ℕ, ∀ m, OscArguments.listLength m v = m + k := by
  induction v generalizing pending with
  | nil => exact ⟨0, fun m => by simp [OscArguments.listLength]⟩
  | pair car cdr _ ih =>
    have hcdr : ∃ pending', Regular cdr pending' := by
      cases car <;> simp only [Regular] at h
      case nil => exact ⟨_, h.2⟩
      case string => exact ⟨_, h.2⟩
      case pair => exact ⟨_, h.2⟩
      case other => exact ⟨_, h.2.2⟩
      all_goals exact ⟨_, h⟩
    obtain ⟨pending', h'⟩ := hcdr
    obtain ⟨k, hk⟩ := ih h'
    refine ⟨k + 1, fun m => ?_⟩
    rw [OscArguments.listLength, hk]
    push_cast
    ring
  | _ => simp [Regular] at h

/-- One round for the first element, the others for the rest. -/
theorem items_cons {cdr : Value} (h : ∃ k : ℕ, ∀ m, listLength m cdr = m + k) (car : Value) :
    (listLength 0 (.pair car cdr)).toNat = (listLength 0 cdr).toNat + 1 := by
  obtain ⟨k, hk⟩ := h
  rw [listLength, hk, hk]
  omega

private theorem toNat_toInt_emod {w : ℕ} (n : BitVec w) : (n.toInt % 2 ^ w).toNat = n.toNat := by
  have h := n.isLt
  rw [BitVec.toInt_eq_toNat_bmod, show (2 ^ w : ℤ) = ((2 ^ w : ℕ) : ℤ) by push_cast; rfl,
    Int.bmod_emod, Int.emod_eq_of_lt (by omega) (by exact_mod_cast h)]
  simp

/-- A value without a number's type in a foreign cell is written as its argument. -/
theorem encodeItem_eq {v : Value} (hv : ∀ n, v ≠ .other 0 n) :
    encodeItem osc v = (argOf osc v).map fun a => (a.tag, a.bytes) := by
  cases v with
  | integer n =>
    simp only [encodeItem, argOf]
    cases osc.schemeIntegerType <;> simp only [Option.map_some, Arg.tag, Arg.bytes, toNat_toInt_emod]
  | real bits =>
    simp only [encodeItem, argOf]
    cases osc.schemeRealType <;> rfl
  | other numType n =>
    cases numType with
    | zero => exact absurd rfl (hv n)
    | succ numType => rfl
  | _ => rfl

theorem put_eq {e : Encoded} {tag : UInt8} {bytes : List UInt8}
    (h : e.body.length + bytes.length ≤ tmpsize) :
    e.put tag bytes = some ⟨e.body ++ bytes, e.typetags ++ [tag]⟩ := if_pos h

@[simp] theorem skip_zero (e : Encoded) : e.skip osc 0 = e := by
  simp [Encoded.skip]

/-- A regular list is written as its arguments, one after the other. The induction is on the
list; `pending` says whether `ret` may be left from an earlier argument. -/
theorem processItems_eq {v : Value} {pending : Bool} (h : Regular v pending) {ret : ℕ}
    (hret : pending = false → ret = 0) {e : Encoded}
    (hfit : e.body.length + ((argsOf osc v).flatMap Arg.bytes).length ≤ tmpsize) :
    processItems osc v (listLength 0 v).toNat ret e =
      some ⟨e.body ++ (argsOf osc v).flatMap Arg.bytes, e.typetags ++ (argsOf osc v).map Arg.tag⟩ := by
  induction v generalizing pending ret e with
  | nil => simp [processItems, argsOf]
  | pair car cdr ihcar ihcdr =>
    -- an item with an argument and one without
    have hitem {a : Arg} (ha : encodeItem osc car = some (a.tag, a.bytes))
        (hargs : argsOf osc (.pair car cdr) = a :: argsOf osc cdr) (hr : Regular cdr true)
        (hloop : ∀ n, processItems osc (.pair car cdr) (n + 1) ret e =
          (e.put a.tag a.bytes).bind fun e => processItems osc cdr n a.bytes.length e) :
        processItems osc (.pair car cdr) (listLength 0 (.pair car cdr)).toNat ret e =
          some ⟨e.body ++ (argsOf osc (.pair car cdr)).flatMap Arg.bytes,
            e.typetags ++ (argsOf osc (.pair car cdr)).map Arg.tag⟩ := by
      rw [hargs, List.flatMap_cons, List.length_append] at hfit
      rw [items_cons hr.listLength, hloop, put_eq (by omega), Option.bind_some,
        ihcdr hr (by simp) (by simp only [List.length_append]; omega), hargs]
      simp
    have hskip {pending' : Bool} (hargs : argsOf osc (.pair car cdr) = argsOf osc cdr)
        (hr : Regular cdr pending') (hret' : pending' = false → ret = 0)
        (hloop : ∀ n, processItems osc (.pair car cdr) (n + 1) ret e = processItems osc cdr n ret e) :
        processItems osc (.pair car cdr) (listLength 0 (.pair car cdr)).toNat ret e =
          some ⟨e.body ++ (argsOf osc (.pair car cdr)).flatMap Arg.bytes,
            e.typetags ++ (argsOf osc (.pair car cdr)).map Arg.tag⟩ := by
      rw [hargs] at hfit ⊢
      rw [items_cons hr.listLength, hloop, ihcdr hr hret' hfit]
    cases car with
    | pair a b =>
      simp only [Regular] at h
      have hargs : argsOf osc (.pair (.pair a b) cdr) =
          .openList :: (argsOf osc (.pair a b) ++ .closeList :: argsOf osc cdr) := rfl
      rw [hargs] at hfit ⊢
      simp only [List.flatMap_cons, List.flatMap_append, Arg.bytes, List.nil_append,
        List.length_append] at hfit
      rw [items_cons h.2.listLength, processItems, ihcar h.1 (by simp) (by simp only [Encoded.tag]; omega),
        Option.bind_some,
        ihcdr h.2 (by simp) (by simp only [Encoded.tag, List.length_append]; omega)]
      simp [Encoded.tag, Arg.tag, Arg.bytes]
    | vector => exact hskip rfl h hret fun n => rfl
    | symbol => exact hskip rfl h hret fun n => rfl
    | nil =>
      simp only [Regular] at h
      exact hskip rfl h.2 (fun _ => hret h.1) fun n => by simp [processItems, encodeItem, hret h.1]
    | other numType n =>
      simp only [Regular] at h
      have henc : encodeItem osc (.other numType n) = none := by
        rw [encodeItem_eq (by simpa using h.1)]
        rfl
      exact hskip rfl h.2.2 (fun _ => hret h.2.1) fun n => by
        simp [processItems, henc, hret h.2.1]
    | string s =>
      simp only [Regular] at h
      exact hitem (a := .string (cString s)) rfl rfl h.2 fun n => rfl
    | integer n =>
      obtain ⟨a, ha⟩ : ∃ a, argOf osc (.integer n) = some a := by
        simp only [argOf]
        cases osc.schemeIntegerType <;> exact ⟨_, rfl⟩
      have henc : encodeItem osc (.integer n) = some (a.tag, a.bytes) := by
        rw [encodeItem_eq (by simp), ha, Option.map_some]
      exact hitem henc (by simp [argsOf, ha]) h fun n => by simp [processItems, henc]
    | real bits =>
      obtain ⟨a, ha⟩ : ∃ a, argOf osc (.real bits) = some a := by
        simp only [argOf]
        cases osc.schemeRealType <;> exact ⟨_, rfl⟩
      have henc : encodeItem osc (.real bits) = some (a.tag, a.bytes) := by
        rw [encodeItem_eq (by simp), ha, Option.map_some]
      exact hitem henc (by simp [argsOf, ha]) h fun n => by simp [processItems, henc]
  | _ => simp [Regular] at h

/-! ## Decoding -/

theorem holds_append {data : Bytes} {as bs : List UInt8} :
    Holds data (as ++ bs) ↔ Holds data as ∧ Holds (data.at as.length) bs := by
  constructor
  · intro h
    refine ⟨fun i hi => ?_, fun i hi => ?_⟩
    · rw [h i (by rw [List.length_append]; omega), List.getElem_append_left hi]
    · have hi' := h (as.length + i) (by rw [List.length_append]; omega)
      rw [List.getElem_append_right (by omega)] at hi'
      simpa [Bytes.at] using hi'
  · rintro ⟨ha, hb⟩ i hi
    by_cases hlt : i < as.length
    · rw [ha i hlt, List.getElem_append_left hlt]
    · have hi' := hb (i - as.length) (by rw [List.length_append] at hi; omega)
      rw [List.getElem_append_right (by omega), ← hi', Bytes.at]
      congr 1
      omega

theorem bytesValue_eq {data : Bytes} {bytes : List UInt8} (h : Holds data bytes) :
    bytesValue data bytes.length = BigEndian.decode bytes := by
  have hmap : (List.range bytes.length).map (fun i : ℕ => data i) = bytes := by
    refine List.ext_getElem (by simp) fun i h1 h2 => ?_
    simp [h i h2]
  rw [bytesValue, hmap]

theorem bytesValue_encode {data : Bytes} {n v : ℕ} (h : Holds data (BigEndian.encode n v))
    (hv : v < 256 ^ n) : bytesValue data n = v := by
  have hvalue := bytesValue_eq h
  rwa [BigEndian.length_encode, BigEndian.decode_encode, Nat.mod_eq_of_lt hv] at hvalue

theorem oscChars_setOSCString {data : Bytes} {s : List UInt8} (hz : 0 ∉ s)
    (hlen : s.length < 4096) (h : Holds data (setOSCString s)) : oscChars data = s := by
  obtain ⟨hs, hpad⟩ := holds_append.mp h
  refine oscChars_eq hz hlen hs ?_
  have hzero := hpad 0 (by simp; omega)
  simpa [Bytes.at] using hzero

/-- What makes an argument come back. -/
def Arg.Readable : Arg → Prop
  | .int n => Int.bmod n (2 ^ 32) = n
  | .long n => Int.bmod n (2 ^ 64) = n
  | .float bits => bits < 2 ^ 32
  | .double bits => bits < 2 ^ 64
  | .string s => 0 ∉ s ∧ s.length < 4096 ∧ s.head? ≠ some quote
  | .openList | .closeList => True

private theorem bmod_toNat (n : ℤ) {k : ℕ} (hk : 0 < k) :
    Int.bmod ((n % k).toNat : ℕ) k = Int.bmod n k := by
  rw [Int.toNat_of_nonneg (Int.emod_nonneg _ (by omega)), Int.emod_bmod]

theorem getOSCInt_eq {data : Bytes} {n : ℤ}
    (h : Holds data (BigEndian.encode 4 (n % 2 ^ 32).toNat)) :
    getOSCInt data = Int.bmod n (2 ^ 32) := by
  have hlt : (n % 2 ^ 32).toNat < 256 ^ 4 := by omega
  have hmod := bmod_toNat n (Nat.two_pow_pos 32)
  rw [Nat.cast_pow, Nat.cast_ofNat, ← bytesValue_encode h hlt] at hmod
  exact hmod

theorem getOSCLong_eq {data : Bytes} {n : ℤ}
    (h : Holds data (BigEndian.encode 8 (n % 2 ^ 64).toNat)) :
    getOSCLong data = Int.bmod n (2 ^ 64) := by
  have hlt : (n % 2 ^ 64).toNat < 256 ^ 8 := by omega
  have hmod := bmod_toNat n (Nat.two_pow_pos 64)
  rw [Nat.cast_pow, Nat.cast_ofNat, ← bytesValue_encode h hlt] at hmod
  exact hmod

/-- One argument is read and takes its bytes. -/
theorem readArg_spec {a : Arg} {data : Bytes} (ha : a.Readable) (h : Holds data a.bytes) :
    ∃ r, readArg a.tag data = some (r, (a.bytes.length : ℤ)) ∧ a.ReadAs r := by
  cases a with
  | int n =>
    have hn : getOSCInt data = n := (getOSCInt_eq h).trans ha
    exact ⟨.int n, by simp [readArg, Arg.tag, Arg.bytes, hn], rfl⟩
  | long n =>
    have hn : getOSCLong data = n := (getOSCLong_eq h).trans ha
    exact ⟨.long n, by simp [readArg, Arg.tag, Arg.bytes, hn], rfl⟩
  | float bits =>
    have hn := bytesValue_encode h (lt_of_lt_of_eq ha (by norm_num))
    exact ⟨.float bits, by simp [readArg, Arg.tag, Arg.bytes, hn], rfl⟩
  | double bits =>
    have hn := bytesValue_encode h (lt_of_lt_of_eq ha (by norm_num))
    exact ⟨.double bits, by simp [readArg, Arg.tag, Arg.bytes, hn], rfl⟩
  | string s =>
    obtain ⟨hz, hlen, hq⟩ := ha
    have hchars := oscChars_setOSCString hz hlen h
    obtain ⟨out, hout⟩ := Option.ne_none_iff_exists'.mp (mt escapeQuotes_eq_none_iff.mp hq)
    refine ⟨.string out, ?_, out, rfl, fun hn => ?_⟩
    · simp [readArg, Arg.tag, Arg.bytes, getOSCString, hchars, hout, length_setOSCString]
    · rw [escapeQuotes_of_notMem hn] at hout
      exact (Option.some.inj hout).symm
  | openList => exact ⟨.openList, rfl, rfl⟩
  | closeList => exact ⟨.closeList, rfl, rfl⟩

/-- The tags lead from argument to argument. -/
theorem readArgs_spec {as : List Arg} {data : Bytes} (ha : ∀ a ∈ as, a.Readable) {pos : ℤ}
    (h : Holds (data.at pos) (as.flatMap Arg.bytes)) :
    ∃ rs, readArgs data (as.map Arg.tag) pos =
      some (rs, pos + ((as.flatMap Arg.bytes).length : ℤ)) ∧ List.Forall₂ Arg.ReadAs as rs := by
  induction as generalizing pos with
  | nil => exact ⟨[], by simp [readArgs], .nil⟩
  | cons a as ih =>
    rw [List.flatMap_cons] at h
    obtain ⟨hhead, htail⟩ := holds_append.mp h
    obtain ⟨r, hr, hra⟩ := readArg_spec (ha a (by simp)) hhead
    rw [at_at] at htail
    obtain ⟨rs, hrs, hall⟩ := ih (fun b hb => ha b (by simp [hb])) htail
    refine ⟨r :: rs, ?_, .cons hra hall⟩
    simp [readArgs, hr, hrs, add_assoc]

/-- `get_message_length` takes the same way through the body. -/
theorem getMessageLength_eq {data : Bytes} {typetags : List UInt8} {pos pos' : ℤ} {rs : List Arg}
    (h : readArgs data typetags pos = some (rs, pos')) :
    getMessageLength data typetags pos = some pos' := by
  induction typetags generalizing pos rs with
  | nil => simpa [readArgs, getMessageLength] using congrArg (Option.map Prod.snd) h
  | cons tag typetags ih =>
    obtain ⟨⟨r, n⟩, hr, hrest⟩ := Option.bind_eq_some_iff.mp h
    obtain ⟨⟨rs', pos''⟩, hrs, heq⟩ := Option.map_eq_some_iff.mp hrest
    obtain rfl : pos'' = pos' := congrArg Prod.snd heq
    have hstep := ih hrs
    by_cases hs : tag = 115
    · subst hs
      have hget : (getOSCString (data.at pos)).map (fun (s, n) => (Arg.string s, n)) = some (r, n) := hr
      obtain ⟨⟨str, m⟩, hstr, heq⟩ := Option.map_eq_some_iff.mp hget
      obtain rfl : m = n := congrArg Prod.snd heq
      simpa [getMessageLength, hstr] using hstep
    · simp only [readArg, hs, if_false] at hr
      split_ifs at hr
      all_goals
        obtain ⟨-, rfl⟩ := Prod.mk.inj (Option.some.inj hr)
        subst tag
        simpa [getMessageLength] using hstep

/-- Every argument of a regular list can be read, if its strings are short. -/
theorem readable_argsOf {v : Value} {pending : Bool} (h : Regular v pending) {a : Arg}
    (ha : a ∈ argsOf osc v) (hlen : a.bytes.length < 4096) : a.Readable := by
  induction v generalizing pending with
  | nil => simp [argsOf] at ha
  | pair car cdr ihcar ihcdr =>
    have hsimple (hcar : a ∈ (argOf osc car).toList) (hq : ∀ s, car = .string s →
        (cString s).head? ≠ some quote) : a.Readable := by
      cases car with
      | string s =>
        obtain rfl : a = .string (cString s) := by simpa [argOf] using hcar
        have hpad := length_setOSCString (cString s)
        refine ⟨?_, ?_, hq s rfl⟩
        · intro hz
          simpa using List.mem_takeWhile_imp hz
        · simp only [Arg.bytes, hpad, paddedLength] at hlen
          omega
      | integer n =>
        simp only [argOf] at hcar
        cases hi : osc.schemeIntegerType with
        | i =>
          obtain rfl : a = .int (n.setWidth 32).toInt := by simpa [hi] using hcar
          rw [Arg.Readable, BitVec.toInt_eq_toNat_bmod, Int.bmod_bmod]
        | h =>
          obtain rfl : a = .long n.toInt := by simpa [hi] using hcar
          rw [Arg.Readable, BitVec.toInt_eq_toNat_bmod, Int.bmod_bmod]
      | real bits =>
        simp only [argOf] at hcar
        cases hi : osc.schemeRealType with
        | f =>
          obtain rfl : a = .float (osc.toFloat bits).toNat := by simpa [hi] using hcar
          exact (osc.toFloat bits).toNat_lt
        | d =>
          obtain rfl : a = .double bits.toNat := by simpa [hi] using hcar
          exact bits.toNat_lt
      | _ => simp [argOf] at hcar
    cases car with
    | pair a' b' =>
      simp only [Regular] at h
      simp only [argsOf, List.mem_cons, List.mem_append] at ha
      rcases ha with rfl|ha|rfl|ha
      · trivial
      · exact ihcar h.1 ha
      · trivial
      · exact ihcdr h.2 ha
    | string s =>
      simp only [Regular] at h
      simp only [argsOf, List.mem_append] at ha
      rcases ha with ha|ha
      · exact hsimple ha (by rintro _ ⟨⟩; exact h.1)
      · exact ihcdr h.2 ha
    | integer n =>
      simp only [argsOf, List.mem_append] at ha
      rcases ha with ha|ha
      · exact hsimple ha (by simp)
      · exact ihcdr h ha
    | real bits =>
      simp only [argsOf, List.mem_append] at ha
      rcases ha with ha|ha
      · exact hsimple ha (by simp)
      · exact ihcdr h ha
    | nil => exact ihcdr h.2 ha
    | vector => exact ihcdr h ha
    | symbol => exact ihcdr h ha
    | other numType n => exact ihcdr h.2.2 ha
  | _ => simp [Regular] at h

private theorem tag_ne (a : Arg) : a.tag ≠ 0 ∧ a.tag ≠ quote := by
  cases a <;> simp only [Arg.tag] <;> decide

/-- A regular list that fits into the buffers is sent, and the message that goes out agrees
with it. -/
theorem sendOSC_agrees (osc : Config) (address : List UInt8) (arg : Value)
    (h : Regular arg false) (hfit : Fits osc address arg) :
    ∃ message, sendOSC osc address arg = some message ∧ Agrees osc address arg message := by
  obtain ⟨hbody, hmessage⟩ := hfit
  have hargs : processArgs osc arg ⟨[], ascii ","⟩ =
      some ⟨(argsOf osc arg).flatMap Arg.bytes, ascii "," ++ (argsOf osc arg).map Arg.tag⟩ :=
    processItems_eq h (fun _ => rfl) (by simpa using hbody)
  have hreadable (a : Arg) (ha : a ∈ argsOf osc arg) : a.Readable := by
    refine readable_argsOf h ha (lt_of_le_of_lt ?_ (show tmpsize < 4096 by decide))
    exact (List.sublist_flatten_of_mem (List.mem_map_of_mem ha)).length_le.trans hbody
  generalize has : argsOf osc arg = as at *
  generalize hbytes : as.flatMap Arg.bytes = body at *
  have htags : ∀ b ∈ ascii "," ++ as.map Arg.tag, b ≠ 0 ∧ b ≠ quote := by
    intro b hb
    rcases List.mem_append.mp hb with hb|hb
    · obtain rfl : b = 44 := by simpa [ascii] using hb
      decide
    · obtain ⟨a, -, rfl⟩ := List.mem_map.mp hb
      exact tag_ne a
  have hlen : (ascii "," ++ as.map Arg.tag).length = as.length + 1 := by
    simp [ascii]
  generalize htypetags : ascii "," ++ as.map Arg.tag = typetags at *
  have hdrop : typetags.drop 1 = as.map Arg.tag := by
    rw [← htypetags]
    rfl
  have hsize : (setOSCString (cString address) ++ setOSCString typetags ++ body).length ≤
      1024 + tmpsize := by
    simp only [List.length_append, length_setOSCString, hlen]
    exact hmessage
  refine ⟨_, ?_, typetags, body, rfl, ?_⟩
  · rw [sendOSC, hargs, Option.bind_some]
    exact if_pos ⟨hbody, hsize⟩
  · rintro data _ _ hdata rfl rfl
    obtain ⟨hfront, hback⟩ := holds_append.mp hdata
    obtain ⟨-, hmiddle⟩ := holds_append.mp hfront
    rw [length_setOSCString] at hmiddle
    rw [List.length_append, length_setOSCString, length_setOSCString, Nat.cast_add] at hback
    have hchars : oscChars (data.at (paddedLength (cString address).length)) = typetags := by
      refine oscChars_setOSCString (fun hz => (htags 0 hz).1 rfl) ?_ hmiddle
      simp only [paddedLength, tmpsize, hlen] at hmessage ⊢
      omega
    rw [← hbytes, ← at_zero (data.at _)] at hback
    obtain ⟨rs, hrs, hall⟩ := readArgs_spec hreadable hback
    rw [zero_add, hbytes, ← hdrop] at hrs
    refine ⟨?_, getMessageLength_eq hrs, rs, hrs, by rwa [has]⟩
    rw [getOSCString, hchars, escapeQuotes_of_notMem fun hq => (htags quote hq).2 rfl]
    rfl

/-- The types that `OSC` starts with. -/
def initialConfig : Config := ⟨.i, .f, fun _ => 0, fun _ => 0⟩

/-- The list `(7 ("a") sym "bc")`. -/
theorem sendOSC_agrees_nested :
    ∃ message, sendOSC initialConfig (ascii "/a") (.pair (.integer 7)
        (.pair (.pair (.string (ascii "a")) .nil) (.pair .symbol (.pair (.string (ascii "bc")) .nil)))) =
        some message ∧
      Agrees initialConfig (ascii "/a") (.pair (.integer 7)
        (.pair (.pair (.string (ascii "a")) .nil) (.pair .symbol (.pair (.string (ascii "bc")) .nil))))
        message :=
  sendOSC_agrees initialConfig (ascii "/a") (.pair (.integer 7)
    (.pair (.pair (.string (ascii "a")) .nil) (.pair .symbol (.pair (.string (ascii "bc")) .nil))))
    (by simp only [Regular, and_true]; decide) ⟨by decide, by decide⟩

/-- Of the list `(4294967296 ())` the integer comes back as 0, and the body is longer than the
tags say. -/
theorem not_agrees_of_large_integer :
    ∃ message, sendOSC initialConfig (ascii "/a") (.pair (.integer 4294967296) (.pair .nil .nil)) =
        some message ∧
      getOSCString ((Bytes.ofList message).at 4) = some (ascii ",i", 4) ∧
      (message.drop 8).length = 8 ∧
      getMessageLength ((Bytes.ofList message).at 8) (ascii "i") 0 = some 4 ∧
      readArgs ((Bytes.ofList message).at 8) (ascii "i") 0 = some ([.int 0], 4) := by
  refine ⟨setOSCString (ascii "/a") ++ setOSCString (ascii ",i") ++ List.replicate 8 0, ?_, ?_, ?_, ?_, ?_⟩ <;>
    decide +kernel

end Extempore.OscArguments
