import Extempore.SchemeValues
import Extempore.StringTexts

/-!
# Arguments of interprocess calls

`ipcCall` and `ipcDefine` write a call as a text, which the receiving process reads and evaluates.
`appendArg` quotes an argument where it is needed, and `printSchemeCell` prints its parts, with
strings as they are.
-/

namespace Extempore.IpcArguments
open ExactNumbers Atoms SchemeReader ReaderFrames Lexemes TokenReader Sexprs SchemeValues StringTexts
open SchemeValues.Value

/-- `list_length` -/
def listLength : Value → ℤ
  | .nil => 0
  | .pair _ d => if listLength d < 0 then -1 else listLength d + 1
  | _ => -1

mutual

/-- `printSchemeCell` with `full` and `stringquotes`. -/
def printSchemeCell : Value → List UInt8
  | .string s => 34 :: (s ++ [34])
  | .symbol name => name
  | .vector _ elements =>
    ascii "#(" ++ [32].intercalate (List.ofFn fun i => printSchemeCell (elements i)) ++ ascii ")"
  | .pair a d =>
    if listLength (.pair a d) < 0 then
      ascii "(" ++ printSchemeCell a ++ ascii " . " ++ printSchemeCell d ++ ascii ")"
    else ascii "(" ++ printSchemeCell a ++ printElements d ++ ascii ")"
  | .nil => ascii "()"
  | .bool true => ascii "#t"
  | .bool false => ascii "#f"
  | .number (.integer i) => decimal i
  | .number (.rational n d) => decimal n ++ ascii "/" ++ decimal d

/-- The elements of a proper list behind the first one, each behind a space. -/
def printElements : Value → List UInt8
  | .pair a d => ascii " " ++ printSchemeCell a ++ printElements d
  | _ => []

end

/-- `appendArg` -/
def appendArg (v : Value) : List UInt8 :=
  ascii " " ++
    match v with
    | .pair _ _ | .vector _ _ | .symbol _ => ascii "'" ++ printSchemeCell v
    | .nil => ascii "'()"
    | .bool false => ascii "#f"
    | .bool true => ascii "#t"
    | .string _ | .number _ => printSchemeCell v

/-- What is sent by `ipc:call-async` and `ipc:define`. -/
inductive Message where
  | call (sym : List UInt8) (args : List Value)
  | define (sym : List UInt8) (value : Value)

def Message.sym : Message → List UInt8
  | .call sym _ | .define sym _ => sym

/-- The values that are sent. -/
def Message.args : Message → List Value
  | .call _ args => args
  | .define _ value => [value]

/-- `ipcCall` and `ipcDefine` -/
def Message.text : Message → List UInt8
  | .call sym args => ascii "(" ++ sym ++ args.flatMap appendArg ++ ascii ")"
  | .define sym value => ascii "(define " ++ sym ++ appendArg value ++ ascii ")"

/-- What stands in front of the values. -/
def Message.heads : Message → List Datum
  | .call sym _ => [.atom sym]
  | .define sym _ => [.atom (ascii "define"), .atom sym]

/-- `OP_EVAL` on an argument: a symbol is looked up, a quoted value is the result, and other pairs
are calls. -/
def eval (env : List UInt8 → Option Value) (call : Value → Option Value) : Value → Option Value
  | .symbol name => env name
  | .pair (.symbol name) (.pair x rest) =>
    if name = ascii "quote" then some x else call (.pair (.symbol name) (.pair x rest))
  | .pair a d => call (.pair a d)
  | v => some v

/-- The argument that was read has the value, whatever the receiving process has defined. -/
def Yields (sharp : List UInt8 → Option Value) (d : Datum) (v : Value) : Prop :=
  ∀ env call, ∃ w, (denote sharp d).bind (eval env call) = some w ∧ equal w v

/-- The text is read as one expression, with an argument of the same value for each one that was
sent. -/
def Preserved (sharp : List UInt8 → Option Value) (m : Message) : Prop :=
  ∃ ds, ReadsAs m.text (.list (m.heads ++ ds)) ∧ List.Forall₂ (Yields sharp) ds m.args

/-- Strings stand for themselves between quotes, and denominators are positive. -/
def TransmissibleLeaf : Value → Prop
  | .string s => Verbatim s
  | .number (.rational _ d) => 0 < d
  | _ => True

def Transmissible (v : Value) : Prop := AllLeaves TransmissibleLeaf v

/-! ## The text of an argument -/

variable {sharp : List UInt8 → Option Value} {v w : Value} {d : Datum} {m : Message}

/-- Between quotes the characters of a string are meant to be the string. -/
def rawStrings (v : Value) : List Lexeme := (strings v).map fun s => .string s s

theorem rawStrings_vector {n : ℕ} (elements : Fin n → Value) :
    rawStrings (.vector n elements) = (List.ofFn elements).flatMap rawStrings := by
  rw [rawStrings, strings, List.map_flatten, List.map_ofFn, List.flatMap_def, List.map_ofFn]
  rfl

theorem isAtomText_number (v : Number) : IsAtomText (atom2str v) := isAtomText_of_plain (plain_atom2str v)

theorem atDelimiter_printElements (v : Value) (rest : List UInt8) :
    AtDelimiter (printElements v ++ [41] ++ rest) := by
  cases v with
  | pair a d => exact atDelimiter_cons (by decide) _
  | _ => exact atDelimiter_cons (by decide) rest

/-- The value is printed as its datum, and as the rest of a list if it is one. -/
structure IsPrinted (v : Value) : Prop where
  datum : Prints (rawStrings v) .datum (printSchemeCell v) (SchemeValues.datum v)
  tail : 0 ≤ listLength v →
    Prints (rawStrings v) .tail (printElements v ++ [41]) (SchemeValues.datum v)

theorem isPrinted_of_improper (hlength : listLength v = -1)
    (h : Prints (rawStrings v) .datum (printSchemeCell v) (datum v)) : IsPrinted v := by
  refine ⟨h, ?_⟩
  intro hproper
  omega

theorem IsPrinted.pair {a d : Value} (ha : IsPrinted a) (hd : IsPrinted d) :
    IsPrinted (.pair a d) := by
  have hstrings : rawStrings (.pair a d) = rawStrings a ++ rawStrings d := List.map_append
  refine ⟨?_, ?_⟩
  · rw [hstrings, printSchemeCell]
    split
    · have hopens := ha.datum.opens hd.datum.dot fun rest => atDelimiter_cons (by decide) _
      have htext : ascii "(" ++ printSchemeCell a ++ ascii " . " ++ printSchemeCell d ++ ascii ")" =
          40 :: (printSchemeCell a ++ 32 :: 46 :: 32 :: (printSchemeCell d ++ [41])) := by
        simp [ascii]
      rw [htext]
      exact hopens.list
    · rename_i hlength
      have hproper : 0 ≤ listLength d := by
        rw [listLength] at hlength
        split at hlength <;> omega
      have hopens := ha.datum.opens (hd.tail hproper) (atDelimiter_printElements d)
      have htext : ascii "(" ++ printSchemeCell a ++ printElements d ++ ascii ")" =
          40 :: (printSchemeCell a ++ (printElements d ++ [41])) := by
        simp [ascii]
      rw [htext]
      exact hopens.list
  · intro hlength
    have hproper : 0 ≤ listLength d := by
      rw [listLength] at hlength
      split at hlength <;> omega
    have hnext := ha.datum.space.next (hd.tail hproper) (atDelimiter_printElements d)
    have htext : printElements (.pair a d) ++ [41] =
        32 :: printSchemeCell a ++ (printElements d ++ [41]) := by
      simp [printElements, ascii]
    rw [hstrings, htext]
    exact hnext

theorem IsPrinted.vector {n : ℕ} {elements : Fin n → Value} (h : ∀ i, IsPrinted (elements i)) :
    IsPrinted (.vector n elements) := by
  refine isPrinted_of_improper rfl ?_
  have hprints : ∀ v ∈ List.ofFn elements,
      Prints (rawStrings v) .datum (printSchemeCell v) (SchemeValues.datum v) := by
    intro v hv
    obtain ⟨i, rfl⟩ := List.mem_ofFn.mp hv
    exact (h i).datum
  have hvector := (opens_intercalate hprints).vector
  rw [List.map_ofFn, List.map_ofFn, ← rawStrings_vector] at hvector
  rw [printSchemeCell, List.append_assoc]
  exact hvector

theorem isPrinted (h : IsData v) : IsPrinted v := by
  induction v with
  | nil => exact ⟨opens_nil.list, fun _ => prints_close⟩
  | bool b =>
    cases b with
    | true => exact isPrinted_of_improper rfl (prints_sharpConst isSharpText_t)
    | false => exact isPrinted_of_improper rfl (prints_sharpConst isSharpText_f)
  | number v =>
    have hatom := prints_atom (isAtomText_number v)
    cases v with
    | integer i => exact isPrinted_of_improper rfl hatom
    | rational n d =>
      refine isPrinted_of_improper rfl ?_
      rw [printSchemeCell, List.append_assoc]
      exact hatom
  | string s => exact isPrinted_of_improper rfl (prints_string s s)
  | symbol name => exact isPrinted_of_improper rfl (prints_atom h.1)
  | pair a d iha ihd => exact (iha h.1).pair (ihd h.2)
  | vector n elements ih => exact .vector fun i => ih i (h i)

/-- The datum of an argument. -/
def argDatum (v : Value) : Datum :=
  match v with
  | .pair _ _ | .vector _ _ | .symbol _ | .nil => .list [.atom (ascii "quote"), datum v]
  | _ => datum v

/-- The text of an argument behind its space. -/
def argText (v : Value) : List UInt8 := (appendArg v).tail

theorem appendArg_eq : appendArg = fun v => 32 :: argText v := rfl

theorem prints_quoted (h : Prints (rawStrings v) .datum (printSchemeCell v) (datum v)) :
    Prints (rawStrings v) .datum (39 :: printSchemeCell v)
      (.list [.atom (ascii "quote"), datum v]) :=
  h.abbreviation (l := .quote) rfl rfl (fun _ => trivial) nofun

theorem prints_argText (h : IsData v) : Prints (rawStrings v) .datum (argText v) (argDatum v) := by
  have hprints := (isPrinted h).datum
  cases v with
  | pair a d => exact prints_quoted hprints
  | vector n elements => exact prints_quoted hprints
  | symbol name => exact prints_quoted hprints
  | nil => exact prints_quoted hprints
  | bool b => cases b <;> exact hprints
  | string s => exact hprints
  | number v => exact hprints

/-- What is to be read for a message. -/
def Message.datum (m : Message) : Datum := .list (m.heads ++ m.args.map argDatum)

theorem Message.prints (hsym : IsAtomText m.sym) (h : ∀ v ∈ m.args, IsData v) :
    Prints (m.args.flatMap rawStrings) .datum m.text m.datum := by
  have hargs := prints_elements fun v hv => prints_argText (h v hv)
  have hdelim := atDelimiter_elements (f := argText) m.args
  cases m with
  | call sym args =>
    have hopens := (prints_atom hsym).opens hargs hdelim
    have htext : Message.text (.call sym args) =
        40 :: (sym ++ (args.flatMap (fun v => 32 :: argText v) ++ [41])) := by
      simp [Message.text, appendArg_eq, ascii]
    rw [htext]
    exact hopens.list
  | define sym value =>
    have hdefine : IsAtomText (ascii "define") := isAtomText_of_all (by decide) (by decide) (by decide)
    have hopens := (prints_atom hdefine).opens ((prints_atom hsym).space.next hargs hdelim)
      fun rest => atDelimiter_cons (by decide) _
    have htext : Message.text (.define sym value) = 40 :: (ascii "define" ++
        (32 :: sym ++ ([value].flatMap (fun v => 32 :: argText v) ++ [41]))) := by
      simp [Message.text, appendArg_eq, ascii]
    rw [htext]
    exact hopens.list

example : (Message.call (ascii "f")
    [.pair (.number (.integer 1)) (.vector 1 fun _ => .string (ascii "a")), .nil]).text =
    ascii "(f '(1 . #(\"a\")) '())" := by decide

/-! ## What the receiving process makes of it -/

/-- Nothing is defined there, and calls have no results. -/
def undefined {α : Type} : α → Option Value := fun _ => none

theorem eval_pair_eq_some {a d : Value} (h : eval undefined undefined (.pair a d) = some w) :
    a = .symbol (ascii "quote") ∧ ∃ rest, d = .pair w rest := by
  cases a with
  | symbol name =>
    cases d with
    | pair x rest =>
      rw [eval] at h
      split at h
      · rename_i hname
        subst hname
        cases h
        exact ⟨rfl, rest, rfl⟩
      · cases h
    | _ => cases h
  | _ => cases h

theorem denote_quote : denote sharp (.atom (ascii "quote")) = some (.symbol (ascii "quote")) := by
  have hatom : mkAtom (ascii "quote") = .ok (.symbol (ascii "quote")) := by decide
  rw [denote, hatom]
  rfl

theorem denote_quoted (d : Datum) : denote sharp (.list [.atom (ascii "quote"), d]) =
    (denote sharp d).map fun v => .list [.symbol (ascii "quote"), v] := by
  have hpair : denote sharp (.list [.atom (ascii "quote"), d]) =
      (denote sharp (.atom (ascii "quote"))).bind fun v => (denote sharp (.list [d])).map (.pair v) :=
    rfl
  have hlast : denote sharp (.list [d]) =
      (denote sharp d).bind fun v => (some Value.nil).map (.pair v) := rfl
  rw [hpair, denote_quote, hlast]
  cases denote sharp d <;> rfl

/-- A quoted value is the result. -/
theorem yields_quoted (h : denote sharp (datum v) = some v) :
    Yields sharp (.list [.atom (ascii "quote"), datum v]) v := by
  intro env call
  refine ⟨v, ?_, equal_self v⟩
  rw [denote_quoted, h]
  show eval env call (.pair (.symbol (ascii "quote")) (.pair v .nil)) = some v
  rw [eval, if_pos rfl]

/-- What a quoted datum yields is denoted by the datum. -/
theorem denotes_of_yields_quoted (h : Yields sharp (.list [.atom (ascii "quote"), d]) v) :
    ∃ w, denote sharp d = some w ∧ equal w v := by
  obtain ⟨w, hw, hequal⟩ := h undefined undefined
  rw [denote_quoted] at hw
  obtain ⟨x, hx, hevals⟩ := Option.bind_eq_some_iff.mp hw
  obtain ⟨y, hy, rfl⟩ := Option.map_eq_some_iff.mp hx
  obtain ⟨-, rest, heq⟩ := eval_pair_eq_some hevals
  cases heq
  exact ⟨w, hy, hequal⟩

theorem yields_argDatum (hsharp : ReadsBooleans sharp) (hdata : IsData v) (h : Transmissible v) :
    Yields sharp (argDatum v) v := by
  have hdenote : denote sharp (datum v) = some v :=
    denote_datum <| (AllLeaves.and hdata h).imp fun l hpair hvector hleaf =>
      readsItself_leaf hsharp hpair hvector hleaf.1 fun n d heq => by
        subst heq
        exact hleaf.2
  have hself (heval : ∀ env call, eval env call v = some v) : Yields sharp (datum v) v := by
    intro env call
    refine ⟨v, ?_, equal_self v⟩
    rw [hdenote, Option.bind_some, heval]
  cases v with
  | bool b => exact hself fun _ _ => rfl
  | number v => exact hself fun _ _ => rfl
  | string s => exact hself fun _ _ => rfl
  | _ => exact yields_quoted hdenote

/-- A fraction that denotes an equal value has a positive denominator. -/
theorem transmissibleLeaf_of_equal (hdata : IsDatumLeaf v)
    (h : ∃ w, denote sharp (datum v) = some w ∧ equal w v)
    (hstring : OnString (fun s => IsStringText s s) v) : TransmissibleLeaf v := by
  cases v with
  | number v =>
    cases v with
    | integer i => trivial
    | rational n d =>
      obtain ⟨w, hw, hequal⟩ := h
      exact denominator_pos_of_equal hdata hw hequal
  | string s =>
    obtain ⟨past, hread⟩ := hstring
    exact verbatim_of_readstrexp hread
  | _ => trivial

theorem transmissible_of_yields (hdata : IsData v) (h : Yields sharp (argDatum v) v)
    (hstrings : ∀ s ∈ strings v, IsStringText s s) : Transmissible v := by
  have hleaves (hequal : ∃ w, denote sharp (datum v) = some w ∧ equal w v) : Transmissible v := by
    obtain ⟨w, hw, hequal⟩ := hequal
    have hall := (hdata.and (leaves_of_equal hw hequal)).and (forall_strings_iff.mp hstrings)
    exact hall.imp fun _ _ _ hleaf => transmissibleLeaf_of_equal hleaf.1.1 hleaf.1.2 hleaf.2
  cases v with
  | bool b => trivial
  | string s => exact hleaves ⟨.string s, rfl, equal_self _⟩
  | number v =>
    cases v with
    | integer i => trivial
    | rational n d =>
      obtain ⟨hn, hd, hne⟩ := valid_of_isMade (v := .rational n d) hdata
      by_contra hpos
      have hneg : d < 0 := lt_of_le_of_ne (not_lt.mp hpos) hne
      obtain ⟨w, hw, -⟩ := h undefined undefined
      have hsymbol : denote sharp (argDatum (.number (.rational n d))) = _ :=
        denote_fraction_of_neg hn hd hneg
      rw [hsymbol] at hw
      cases hw
  | _ => exact hleaves (denotes_of_yields_quoted h)

/-- The data have the same strings as far as they have the same form. -/
abbrev SameStrings : Datum → Datum → Prop := Agree fun _ _ => True

/-- What yields an equal value has the same strings. -/
theorem sameStrings_of_yields (h : Yields sharp d v) : SameStrings d (argDatum v) := by
  obtain ⟨w, hw, hequal⟩ := h undefined undefined
  obtain ⟨x, hx, hevals⟩ := Option.bind_eq_some_iff.mp hw
  have hquoted {e : Datum} (hagree : AgreesWith sharp (fun _ _ => True) v e) :
      SameStrings d (.list [.atom (ascii "quote"), e]) := by
    cases d with
    | pair a b =>
      obtain ⟨y, z, hy, hz, rfl⟩ := denote_pair_eq_some hx
      obtain ⟨rfl, rest, rfl⟩ := eval_pair_eq_some hevals
      refine ⟨by cases a <;> trivial, ?_⟩
      cases b with
      | pair b c =>
        obtain ⟨x, y, hx, -, heq⟩ := denote_pair_eq_some hz
        cases heq
        exact ⟨hagree b _ hx hequal, agree_nil c⟩
      | _ => trivial
    | _ => trivial
  cases v with
  | string s =>
    cases d with
    | string t =>
      cases hx
      cases hevals
      exact eq_of_beq hequal
    | _ => trivial
  | bool b => cases b <;> cases d <;> trivial
  | number v => cases d <;> trivial
  | _ => exact hquoted (agreesWith_datum _)

/-- A string that is read as it is meant has no slashes and quotes in it. -/
theorem isStringText_of_ends {past rest s : List UInt8} {frames : List Frame} {D : Datum}
    (h : Ends ⟨⟨past, s ++ [34] ++ rest⟩, .rdSexpr .dquote, frames⟩ D)
    (hfits : Fits frames (.string s) d) (hagree : SameStrings D d) (hzero : 0 ∉ s) : IsStringText s s := by
  obtain ⟨t, pt, hread, hfits'⟩ := h.string
  rw [List.append_assoc] at hread
  obtain rfl : t = s := hfits'.related deep_agree hfits hagree
  exact (verbatim_of_readstrexp hread).isStringText hzero

theorem mem_flatMap_rawStrings {vs : List Value} {l : Lexeme} (h : l ∈ vs.flatMap rawStrings) :
    ∃ s, l = .string s s ∧ ∃ v ∈ vs, s ∈ strings v := by
  obtain ⟨v, hv, hl⟩ := List.mem_flatMap.mp h
  obtain ⟨s, hs, rfl⟩ := List.mem_map.mp hl
  exact ⟨s, rfl, v, hv, hs⟩

theorem zero_notMem_strings {s : List UInt8} (h : IsData v) (hs : s ∈ strings v) : 0 ∉ s := by
  have hall : AllLeaves (OnString fun s => 0 ∉ s) v := by
    refine h.imp ?_
    intro l _ _ hl
    cases l with
    | string s => exact hl
    | _ => trivial
  exact forall_strings_iff.mpr hall s hs

theorem Transmissible.verbatim {s : List UInt8} (h : Transmissible v) (hs : s ∈ strings v) :
    Verbatim s := by
  have hall : AllLeaves (OnString Verbatim) v := by
    refine h.imp ?_
    intro l _ _ hl
    cases l with
    | string s => exact hl
    | _ => trivial
  exact forall_strings_iff.mpr hall s hs

theorem transmissible_of_preserved (hsym : IsAtomText m.sym) (hdata : ∀ v ∈ m.args, IsData v)
    (h : Preserved sharp m) : ∀ v ∈ m.args, Transmissible v := by
  obtain ⟨ds, hread, hyields⟩ := h
  have hends : Ends (start m.text) (.list (m.heads ++ ds)) := by
    obtain ⟨r, pt, hsteps, hdone, -⟩ := hread
    exact ⟨r, pt, hsteps, hdone⟩
  cases (m.prints hsym hdata).readsAs_or with
  | inl hor =>
    obtain ⟨⟨r, pt, hsteps, hdone, -⟩, hstrings⟩ := hor
    have hlists := list_injective (hends.unique ⟨r, pt, hsteps, hdone⟩)
    obtain rfl := List.append_cancel_left hlists
    rw [List.forall₂_map_left_iff, List.forall₂_same] at hyields
    intro v hv
    refine transmissible_of_yields (hdata v hv) (hyields v hv) ?_
    intro s hs
    exact hstrings (.string s s) (List.mem_flatMap.mpr ⟨v, hv, List.mem_map_of_mem hs⟩)
  | inr hor =>
    -- the string that is read instead stands in the same place
    obtain ⟨l, past, rest, frames, hl, hnot, hfits, hsteps⟩ := hor
    obtain ⟨s, rfl, v, hv, hs⟩ := mem_flatMap_rawStrings hl
    have hagree : SameStrings (.list (m.heads ++ ds)) m.datum := by
      refine agree_append (fun _ => trivial) m.heads ?_
      rw [List.forall₂_map_right_iff]
      exact hyields.imp fun _ _ => sameStrings_of_yields
    have hzero := zero_notMem_strings (hdata v hv) hs
    exact absurd (isStringText_of_ends (hends.steps hsteps) hfits hagree hzero) hnot

theorem preserved_of_transmissible (hsharp : ReadsBooleans sharp) (hsym : IsAtomText m.sym)
    (hdata : ∀ v ∈ m.args, IsData v) (h : ∀ v ∈ m.args, Transmissible v) : Preserved sharp m := by
  cases (m.prints hsym hdata).readsAs_or with
  | inl hor =>
    refine ⟨_, hor.1, ?_⟩
    rw [List.forall₂_map_left_iff, List.forall₂_same]
    exact fun v hv => yields_argDatum hsharp (hdata v hv) (h v hv)
  | inr hor =>
    obtain ⟨l, past, rest, frames, hl, hnot, -⟩ := hor
    obtain ⟨s, rfl, v, hv, hs⟩ := mem_flatMap_rawStrings hl
    have hverbatim := (h v hv).verbatim hs
    exact absurd (hverbatim.isStringText (zero_notMem_strings (hdata v hv) hs)) hnot

/-- The values come through just when their strings stand for themselves between quotes and their
fractions have positive denominators. -/
theorem preserved_iff (hsharp : ReadsBooleans sharp) (hsym : IsAtomText m.sym)
    (hdata : ∀ v ∈ m.args, IsData v) :
    Preserved sharp m ↔ ∀ v ∈ m.args, Transmissible v :=
  ⟨transmissible_of_preserved hsym hdata, preserved_of_transmissible hsharp hsym hdata⟩

theorem isAtomText_f : IsAtomText (ascii "f") := isAtomText_of_all (by decide) (by decide) (by decide)

/-- A dotted pair with a vector, and three halves. -/
theorem preserved_iff_nested :
    Preserved booleans (.call (ascii "f")
      [.pair (.number (.integer 1)) (.vector 1 fun _ => .string (ascii "a")),
        .number (.rational 3 2)]) := by
  have hmade : IsMade (.rational 3 2) := ⟨6, 4, by decide, by decide, by decide +kernel⟩
  have hverbatim : Verbatim (ascii "a") := ⟨by decide, by simp [ascii]⟩
  refine (preserved_iff (m := .call (ascii "f") _) readsBooleans isAtomText_f ?_).mpr ?_
  · intro v hv
    rcases List.mem_pair.mp hv with rfl|rfl
    · exact ⟨(by decide : InInt64 1), fun _ => (by decide : 0 ∉ ascii "a")⟩
    · exact hmade
  · intro v hv
    rcases List.mem_pair.mp hv with rfl|rfl
    · exact ⟨trivial, fun _ => hverbatim⟩
    · exact (by decide : (0 : ℤ) < 2)

/-- A string with a quote in it is not read as it was, and minus three halves, which are stored
with a negative denominator, are read as a symbol. -/
theorem not_preserved :
    (IsData (.string (ascii "\"")) ∧
      ¬ Preserved booleans (.call (ascii "f") [.string (ascii "\"")])) ∧
    (IsData (.number (.rational 3 (-2))) ∧
      ¬ Preserved booleans (.define (ascii "f") (.number (.rational 3 (-2))))) := by
  have hstring : IsData (.string (ascii "\"")) := (by decide : 0 ∉ ascii "\"")
  have hfraction : IsData (.number (.rational 3 (-2))) :=
    ⟨-3, 2, by decide, by decide, by decide +kernel⟩
  refine ⟨⟨hstring, ?_⟩, hfraction, ?_⟩
  · intro h
    have hall := transmissible_of_preserved (m := .call (ascii "f") _) isAtomText_f
      (by simpa [Message.args] using hstring) h
    have hverbatim : Verbatim (ascii "\"") := hall _ List.mem_cons_self
    exact (hverbatim.2 34 (by decide)).1 rfl
  · intro h
    have hall := transmissible_of_preserved (m := .define (ascii "f") _) isAtomText_f
      (by simpa [Message.args] using hfraction) h
    have hpos : (0 : ℤ) < -2 := hall _ List.mem_cons_self
    omega

end Extempore.IpcArguments
