import Mathlib.Data.List.Basic
import Mathlib.Data.Int.Basic
import Mathlib.Logic.Relation

/-!
# The Scheme reader

The reader works on a string port, of which it sees one signed character at a time. `token`
decides on the next token by its first characters, `readstrUpto` reads the text of an atom
and `readstrexp` the characters of a string. The opcodes `OP_RDSEXPR` to `OP_RDVEC` keep the
lists that are being read on the dump stack.
-/

namespace Extempore.SchemeReader

/-- The bytes of an ASCII text. -/
def ascii (s : String) : List UInt8 := s.toList.map fun c => UInt8.ofNat c.toNat

/-- A character constant as an `int`. -/
def chr (c : Char) : ℤ := c.toNat

abbrev eof : ℤ := -1

/-- The value of a `char`, which is signed. -/
def signedChar (b : UInt8) : ℤ := if b.toNat < 128 then b.toNat else b.toNat - 256

/-- A string port: the bytes before `curr`, the last one first, and the bytes from `curr` on. -/
structure Port where
  past : List UInt8
  curr : List UInt8
  deriving DecidableEq, Repr

/-- `inchar` on a string port that is not a nested load. A byte 255 is read as `EOF`. -/
def inchar (pt : Port) : ℤ × Port :=
  match pt.curr with
  | [] => (eof, pt)
  | b :: bs => if b = 0 then (eof, pt) else (signedChar b, ⟨b :: pt.past, bs⟩)

def backchar (pt : Port) (c : ℤ) : Port :=
  if c = eof then pt
  else match pt.past with
    | [] => pt
    | b :: bs => ⟨bs, b :: pt.curr⟩

def isOneOf (s : String) (c : ℤ) : Bool := c == eof || s.toList.any fun d => chr d == c

/-- `isspace(c) || iscntrl(c)` -/
def isSpaceOrCntrl (c : ℤ) : Bool := (0 ≤ c && c ≤ 32) || c == 127

def toupper (c : ℤ) : ℤ := if chr 'a' ≤ c ∧ c ≤ chr 'z' then c - 32 else c

/-- `skipspace`, for a port split at `curr`. -/
def skipspace (past : List UInt8) : List UInt8 → Port
  | [] => ⟨past, []⟩
  | b :: bs =>
    if b = 0 then ⟨past, b :: bs⟩
    else if isSpaceOrCntrl (signedChar b) then skipspace (b :: past) bs
    else backchar ⟨b :: past, bs⟩ (signedChar b)

inductive Token where
  | eof | lparen | rparen | dot | atom | quote | comment | dquote | bquote | comma | atmark
  | sharp | sharpConst | vec
  deriving DecidableEq, Repr

def token (pt : Port) : Token × Port :=
  let (c, pt) := inchar (skipspace pt.past pt.curr)
  if c = eof then (.eof, pt)
  else if c = chr '(' then (.lparen, pt)
  else if c = chr ')' then (.rparen, pt)
  else if c = chr '.' then
    let (c, pt) := inchar pt
    if isOneOf " \n\t" c then (.dot, pt) else (.atom, backchar (backchar pt c) (chr '.'))
  else if c = chr '\'' then (.quote, pt)
  else if c = chr ';' then (.comment, pt)
  else if c = chr '"' then (.dquote, pt)
  else if c = chr '\x60' then (.bquote, pt)
  else if c = chr ',' then
    let (c, pt) := inchar pt
    if c = chr '@' then (.atmark, pt) else (.comma, backchar pt c)
  else if c = chr '#' then
    let (c, pt) := inchar pt
    if c = chr '(' then (.vec, pt)
    else if c = chr '!' then (.comment, pt)
    else
      let pt := backchar pt c
      if isOneOf " tfodxb\\" c then (.sharpConst, pt) else (.sharp, pt)
  else (.atom, backchar pt c)

/-- `readstr_upto`, for a port split at `curr`; `p` is the text read so far. A lone backslash
takes the delimiter along. -/
def readstrUpto (delim : String) (past p : List UInt8) : List UInt8 → List UInt8 × Port
  | [] => (if p = ascii "\\" then p ++ [255] else p, ⟨past, []⟩)
  | b :: bs =>
    if b = 0 then (if p = ascii "\\" then p ++ [255] else p, ⟨past, b :: bs⟩)
    else if isOneOf delim (signedChar b) then
      if p = ascii "\\" then (p ++ [b], ⟨b :: past, bs⟩)
      else (p, backchar ⟨b :: past, bs⟩ (signedChar b))
    else readstrUpto delim (b :: past) (p ++ [b]) bs

/-- The states of `readstrexp`. -/
inductive StrState where
  | ok | bsl | x1 | x2
  deriving DecidableEq, Repr

def strbuffSize : ℕ := 4194304

/-- `readstrexp`, for a port split at `curr`; `p` holds the bytes collected in `strbuff`.
`none` is the result `sc->F`. -/
def readstrexp (past : List UInt8) (state : StrState) (c1 : ℤ) (p : List UInt8) :
    List UInt8 → Option (List UInt8) × Port
  | [] => (none, ⟨past, []⟩)
  | b :: bs =>
    let c := signedChar b
    if b = 0 then (none, ⟨past, b :: bs⟩)
    else if c = eof ∨ p.length > strbuffSize - 1 then (none, ⟨b :: past, bs⟩)
    else match state with
      | .ok =>
        if c = chr '\\' then readstrexp (b :: past) .bsl c1 p bs
        else if c = chr '"' then (some p, ⟨b :: past, bs⟩)
        else readstrexp (b :: past) .ok c1 (p ++ [b]) bs
      | .bsl =>
        if c = chr 'x' ∨ c = chr 'X' then readstrexp (b :: past) .x1 0 p bs
        else if c = chr 'n' then readstrexp (b :: past) .ok c1 (p ++ ascii "\n") bs
        else if c = chr 't' then readstrexp (b :: past) .ok c1 (p ++ ascii "\t") bs
        else if c = chr 'r' then readstrexp (b :: past) .ok c1 (p ++ ascii "\r") bs
        else readstrexp (b :: past) .ok c1 (p ++ [b]) bs
      | .x1 | .x2 =>
        let c := toupper c
        if chr '0' ≤ c ∧ c ≤ chr 'F' then
          let c1 := if c ≤ chr '9' then c1 * 16 + c - chr '0' else c1 * 16 + c - chr 'A' + 10
          if state = .x1 then readstrexp (b :: past) .x2 c1 p bs
          else readstrexp (b :: past) .ok c1 (p ++ [UInt8.ofNat (c1 % 256).toNat]) bs
        else (none, ⟨b :: past, bs⟩)

/-- What the reader returns. Atoms and sharp constants are kept as the text that `mk_atom`
and `mk_sharp_const` get. -/
inductive Datum where
  | nil
  | atom (text : List UInt8)
  | sharpConst (text : List UInt8)
  | string (s : List UInt8)
  | pair (car cdr : Datum)
  | vector (elements : Datum)
  deriving DecidableEq, Repr

/-- A proper list. -/
def Datum.list : List Datum → Datum
  | [] => .nil
  | d :: ds => .pair d (Datum.list ds)

/-- `reverse_in_place(sc, term, args)`, where `args` lists what was read, the last one first. -/
def Datum.revAppend (term : Datum) : List Datum → Datum
  | [] => term
  | d :: ds => Datum.revAppend (.pair d term) ds

/-- The frames that the read opcodes push. -/
inductive Frame where
  | rdList (args : List Datum)
  | rdDot (args : List Datum)
  | rdQuote | rdQquote | rdQquoteVec | rdUnquote | rdUqtsp | rdVec
  deriving DecidableEq, Repr

/-- Either a token is to be dispatched on, or a value goes to the frame on top. -/
inductive Phase where
  | rdSexpr (tok : Token)
  | value (v : Datum)
  deriving DecidableEq, Repr

structure Reader where
  port : Port
  phase : Phase
  frames : List Frame
  deriving DecidableEq, Repr

inductive Result where
  | more (r : Reader)
  | done (v : Datum) (port : Port)
  | quit
  | error
  deriving DecidableEq, Repr

/-- Skip the rest of a comment line. -/
def skipLine (past : List UInt8) : List UInt8 → Port
  | [] => ⟨past, []⟩
  | b :: bs =>
    if b = 0 then ⟨past, b :: bs⟩
    else if signedChar b = chr '\n' ∨ signedChar b = eof then ⟨b :: past, bs⟩
    else skipLine (b :: past) bs

/-- The beginning of a list or vector, behind its opening parenthesis. -/
def openList (pt : Port) (frames : List Frame) : Result :=
  match token pt with
  | (.rparen, pt) => .more ⟨pt, .value .nil, frames⟩
  | (.dot, _) => .error
  | (tok, pt) => .more ⟨pt, .rdSexpr tok, .rdList [] :: frames⟩

/-- `OP_RDLIST` with `args` already extended by the new element. -/
def nextInList (pt : Port) (args : List Datum) (frames : List Frame) : Result :=
  let (tok, pt) := token pt
  let (tok, pt) := if tok = .comment then token (skipLine pt.past pt.curr) else (tok, pt)
  match tok with
  | .rparen =>
    let (c, pt') := inchar pt
    let pt := if c = chr '\n' then pt' else backchar pt' c
    .more ⟨pt, .value (Datum.revAppend .nil args), frames⟩
  | .dot =>
    let (tok, pt) := token pt
    .more ⟨pt, .rdSexpr tok, .rdDot args :: frames⟩
  | tok => .more ⟨pt, .rdSexpr tok, .rdList args :: frames⟩

/-- Read the next token and dispatch on it below a new frame. -/
def afterToken (pt : Port) (frames : List Frame) : Result :=
  let (tok, pt) := token pt
  .more ⟨pt, .rdSexpr tok, frames⟩

/-- One opcode of the reader. The sharp hook is not modelled: no hook is defined. -/
def step (r : Reader) : Result :=
  let pt := r.port
  match r.phase with
  | .rdSexpr tok =>
    match tok with
    | .eof => .quit
    | .comment => afterToken (skipLine pt.past pt.curr) r.frames
    | .vec => openList pt (.rdVec :: r.frames)
    | .lparen => openList pt r.frames
    | .quote => afterToken pt (.rdQuote :: r.frames)
    | .bquote =>
      let (tok, pt) := token pt
      if tok = .vec then .more ⟨pt, .rdSexpr .lparen, .rdQquoteVec :: r.frames⟩
      else .more ⟨pt, .rdSexpr tok, .rdQquote :: r.frames⟩
    | .comma => afterToken pt (.rdUnquote :: r.frames)
    | .atmark => afterToken pt (.rdUqtsp :: r.frames)
    | .atom =>
      let (text, pt) := readstrUpto "();\t\n\r " pt.past [] pt.curr
      .more ⟨pt, .value (.atom text), r.frames⟩
    | .dquote =>
      match readstrexp pt.past .ok 0 [] pt.curr with
      | (some s, pt) => .more ⟨pt, .value (.string s), r.frames⟩
      | (none, _) => .error
    | .sharpConst =>
      let (text, pt) := readstrUpto "();\t\n\r " pt.past [] pt.curr
      .more ⟨pt, .value (.sharpConst text), r.frames⟩
    | .sharp | .rparen | .dot => .error
  | .value v =>
    match r.frames with
    | [] => .done v pt
    | .rdList args :: frames => nextInList pt (v :: args) frames
    | .rdDot args :: frames =>
      match token pt with
      | (.rparen, pt) => .more ⟨pt, .value (Datum.revAppend v args), frames⟩
      | _ => .error
    | .rdQuote :: frames => .more ⟨pt, .value (.list [.atom (ascii "quote"), v]), frames⟩
    | .rdQquote :: frames => .more ⟨pt, .value (.list [.atom (ascii "quasiquote"), v]), frames⟩
    | .rdQquoteVec :: frames =>
      .more ⟨pt, .value (.list [.atom (ascii "apply"), .atom (ascii "vector"),
        .list [.atom (ascii "quasiquote"), v]]), frames⟩
    | .rdUnquote :: frames => .more ⟨pt, .value (.list [.atom (ascii "unquote"), v]), frames⟩
    | .rdUqtsp :: frames =>
      .more ⟨pt, .value (.list [.atom (ascii "unquote-splicing"), v]), frames⟩
    | .rdVec :: frames => .more ⟨pt, .value (.vector v), frames⟩

/-- `OP_READ_INTERNAL` on a whole text. -/
def start (text : List UInt8) : Reader :=
  let (tok, pt) := token ⟨[], text⟩
  ⟨pt, .rdSexpr tok, []⟩

/-- The reader gets from one state to another. -/
def Steps : Reader → Reader → Prop :=
  Relation.ReflTransGen fun r r' => step r = .more r'

/-- The text holds exactly one expression, which is read as `d`. -/
def ReadsAs (text : List UInt8) (d : Datum) : Prop :=
  ∃ r pt, Steps (start text) r ∧ step r = .done d pt ∧ (token pt).1 = .eof

/-! ## Plain text -/

/-- Bytes that stand for themselves in an atom. -/
def PlainByte (b : UInt8) : Prop :=
  33 ≤ b.toNat ∧ b.toNat < 127 ∧ b.toNat ∉ [34, 35, 39, 40, 41, 44, 59, 92, 96]

instance (b : UInt8) : Decidable (PlainByte b) := instDecidableAnd

/-- The text of an atom that needs no attention to quotes, comments and dots. -/
structure Plain (text : List UInt8) : Prop where
  ne_nil : text ≠ []
  bytes : ∀ b ∈ text, PlainByte b
  head : text.head? ≠ some 46

theorem PlainByte.ne_zero {b : UInt8} (h : PlainByte b) : b ≠ 0 := by
  rintro rfl
  exact absurd h.1 (by decide)

theorem PlainByte.signedChar {b : UInt8} (h : PlainByte b) :
    SchemeReader.signedChar b = b.toNat := if_pos (by have := h.2.1; omega)

theorem inchar_cons {past bs : List UInt8} {b : UInt8} (h : b ≠ 0) :
    inchar ⟨past, b :: bs⟩ = (signedChar b, ⟨b :: past, bs⟩) := if_neg h

@[simp] theorem inchar_nil (past : List UInt8) : inchar ⟨past, []⟩ = (eof, ⟨past, []⟩) := rfl

theorem backchar_cons {past bs : List UInt8} {b : UInt8} {c : ℤ} (h : c ≠ eof) :
    backchar ⟨b :: past, bs⟩ c = ⟨past, b :: bs⟩ := if_neg h

/-- White space before a visible character is skipped. -/
theorem skipspace_replicate (past bs : List UInt8) (k : ℕ) {b : UInt8} (h1 : 33 ≤ b.toNat)
    (h2 : b.toNat < 127) :
    ∃ past', skipspace past (List.replicate k 32 ++ b :: bs) = ⟨past', b :: bs⟩ := by
  have hchar : signedChar b = b.toNat := if_pos (by omega)
  induction k generalizing past with
  | zero =>
    have hz : b ≠ 0 := by
      rintro rfl
      exact absurd h1 (by decide)
    have hspace : isSpaceOrCntrl (signedChar b) = false := by
      rw [hchar]
      simp only [isSpaceOrCntrl, Bool.or_eq_false_iff, Bool.and_eq_false_imp, decide_eq_true_eq,
        decide_eq_false_iff_not, beq_eq_false_iff_ne]
      omega
    refine ⟨past, ?_⟩
    rw [List.replicate_zero, List.nil_append, skipspace, if_neg hz, hspace]
    exact backchar_cons (by rw [hchar, eof]; omega)
  | succ k ih =>
    obtain ⟨past', hk⟩ := ih (32 :: past)
    refine ⟨past', ?_⟩
    rw [List.replicate_succ, List.cons_append, skipspace]
    exact hk

/-- The first character behind white space decides about the token. -/
private theorem token_visible (past bs : List UInt8) (k : ℕ) {b : UInt8} (h1 : 33 ≤ b.toNat)
    (h2 : b.toNat < 127) :
    ∃ past', inchar (skipspace past (List.replicate k 32 ++ b :: bs)) =
      ((b.toNat : ℤ), ⟨b :: past', bs⟩) := by
  obtain ⟨past', hskip⟩ := skipspace_replicate past bs k h1 h2
  have hz : b ≠ 0 := by
    rintro rfl
    exact absurd h1 (by decide)
  have hchar : signedChar b = b.toNat := if_pos (by omega)
  exact ⟨past', by rw [hskip, inchar_cons hz, hchar]⟩

theorem token_lparen (past bs : List UInt8) (k : ℕ) :
    ∃ past', token ⟨past, List.replicate k 32 ++ 40 :: bs⟩ = (.lparen, ⟨past', bs⟩) := by
  obtain ⟨past', h⟩ := token_visible past bs k (b := 40) (by decide) (by decide)
  exact ⟨40 :: past', by simp [token, h, chr, eof]⟩

theorem token_rparen (past bs : List UInt8) (k : ℕ) :
    ∃ past', token ⟨past, List.replicate k 32 ++ 41 :: bs⟩ = (.rparen, ⟨past', bs⟩) := by
  obtain ⟨past', h⟩ := token_visible past bs k (b := 41) (by decide) (by decide)
  exact ⟨41 :: past', by simp [token, h, chr, eof]⟩

theorem token_dquote (past bs : List UInt8) (k : ℕ) :
    ∃ past', token ⟨past, List.replicate k 32 ++ 34 :: bs⟩ = (.dquote, ⟨past', bs⟩) := by
  obtain ⟨past', h⟩ := token_visible past bs k (b := 34) (by decide) (by decide)
  exact ⟨34 :: past', by simp [token, h, chr, eof]⟩

/-- A plain text is an atom, and its characters are still to be read. -/
theorem token_plain {text : List UInt8} (h : Plain text) (past rest : List UInt8) (k : ℕ) :
    ∃ past', token ⟨past, List.replicate k 32 ++ (text ++ rest)⟩ =
      (.atom, ⟨past', text ++ rest⟩) := by
  obtain ⟨b, text, rfl⟩ := List.exists_cons_of_ne_nil h.ne_nil
  obtain ⟨h1, h2, hnot⟩ := h.bytes b (by simp)
  have hdot : b.toNat ≠ 46 := by
    intro hb
    have hb' : b = 46 := UInt8.toNat_inj.mp hb
    exact h.head (by simp [hb'])
  simp only [List.mem_cons, List.not_mem_nil, or_false, not_or] at hnot
  obtain ⟨past', hc⟩ := token_visible past (text ++ rest) k h1 h2
  have hne : (b.toNat : ℤ) ≠ -1 ∧ (b.toNat : ℤ) ≠ 40 ∧ (b.toNat : ℤ) ≠ 41 ∧ (b.toNat : ℤ) ≠ 46 ∧
      (b.toNat : ℤ) ≠ 39 ∧ (b.toNat : ℤ) ≠ 59 ∧ (b.toNat : ℤ) ≠ 34 ∧ (b.toNat : ℤ) ≠ 96 ∧
      (b.toNat : ℤ) ≠ 44 ∧ (b.toNat : ℤ) ≠ 35 := by omega
  refine ⟨past', ?_⟩
  rw [List.cons_append, token, hc]
  simp [chr, eof, hne, backchar_cons]

/-- The delimiters of an atom. -/
def Delimiter (d : UInt8) : Prop := d = 32 ∨ d = 41

/-- An atom ends at a delimiter, which stays in the port. -/
theorem readstrUpto_plain {text : List UInt8} (hb : ∀ b ∈ text, PlainByte b) {d : UInt8}
    (hd : Delimiter d) (past p rest : List UInt8) (hp : p ++ text ≠ ascii "\\") :
    ∃ past', readstrUpto "();\t\n\r " past p (text ++ d :: rest) =
      (p ++ text, ⟨past', d :: rest⟩) := by
  induction text generalizing past p with
  | nil =>
    refine ⟨past, ?_⟩
    rw [List.append_nil] at hp
    rcases hd with rfl|rfl
    all_goals
      rw [List.nil_append, readstrUpto, if_neg (by decide), if_pos (by decide), if_neg hp,
        backchar_cons (by decide), List.append_nil]
  | cons b text ih =>
    obtain ⟨h1, h2, hnot⟩ := hb b (by simp)
    have hz := (hb b (by simp)).ne_zero
    have hchar := (hb b (by simp)).signedChar
    simp only [List.mem_cons, List.not_mem_nil, or_false, not_or] at hnot
    have hdelim : isOneOf "();\t\n\r " (signedChar b) = false := by
      rw [hchar]
      simp [isOneOf, chr, eof]
      omega
    obtain ⟨past', hread⟩ := ih (fun b hm => hb b (by simp [hm])) (b :: past) (p ++ [b])
      (by simpa using hp)
    refine ⟨past', ?_⟩
    rw [List.cons_append, readstrUpto, if_neg hz, hdelim, if_neg (by simp), hread]
    simp

theorem Datum.revAppend_list (ds es : List Datum) :
    Datum.revAppend (Datum.list es) ds = Datum.list (ds.reverse ++ es) := by
  induction ds generalizing es with
  | nil => rfl
  | cons d ds ih =>
    rw [revAppend, show Datum.pair d (list es) = list (d :: es) from rfl, ih]
    simp

/-! ## Reading the elements of a list -/

/-- From `curr` the reader gets to `curr'`, whatever lies before. -/
def Reads (curr : List UInt8) (phase : Phase) (frames : List Frame) (curr' : List UInt8)
    (phase' : Phase) (frames' : List Frame) : Prop :=
  ∀ past, ∃ past', Steps ⟨⟨past, curr⟩, phase, frames⟩ ⟨⟨past', curr'⟩, phase', frames'⟩

theorem Reads.trans {curr curr' curr'' : List UInt8} {phase phase' phase'' : Phase}
    {frames frames' frames'' : List Frame} (h : Reads curr phase frames curr' phase' frames')
    (h' : Reads curr' phase' frames' curr'' phase'' frames'') :
    Reads curr phase frames curr'' phase'' frames'' := by
  intro past
  obtain ⟨past', hs⟩ := h past
  obtain ⟨past'', hs'⟩ := h' past'
  exact ⟨past'', Relation.ReflTransGen.trans hs hs'⟩

variable {rest : List UInt8} {v : Datum} {args : List Datum} {frames : List Frame}

/-- A token other than a parenthesis, a dot or a comment begins the next element. -/
private theorem nextInList_eq {pt pt' : Port} {tok : Token} (ht : token pt = (tok, pt'))
    (h : tok = .atom ∨ tok = .dquote ∨ tok = .lparen) :
    nextInList pt args frames = .more ⟨pt', .rdSexpr tok, .rdList args :: frames⟩ := by
  rcases h with rfl|rfl|rfl <;> simp [nextInList, ht]

private theorem step_readAtom {text : List UInt8} (h : Plain text) {d : UInt8}
    (hd : Delimiter d) (past rest : List UInt8) (frames : List Frame) :
    ∃ past', step ⟨⟨past, text ++ d :: rest⟩, .rdSexpr .atom, frames⟩ =
      .more ⟨⟨past', d :: rest⟩, .value (.atom text), frames⟩ := by
  have hne : [] ++ text ≠ ascii "\\" := by
    rintro rfl
    exact absurd (h.bytes 92 (by decide)) (by decide)
  obtain ⟨past', hread⟩ := readstrUpto_plain h.bytes hd past [] rest hne
  exact ⟨past', by simp [step, hread]⟩

theorem reads_atom {text : List UInt8} (h : Plain text) {d : UInt8} (hd : Delimiter d) (k : ℕ) :
    Reads (List.replicate k 32 ++ (text ++ d :: rest)) (.value v) (.rdList args :: frames)
      (d :: rest) (.value (.atom text)) (.rdList (v :: args) :: frames) := by
  intro past
  obtain ⟨past₁, ht⟩ := token_plain h past (d :: rest) k
  obtain ⟨past₂, hr⟩ := step_readAtom h hd past₁ rest (.rdList (v :: args) :: frames)
  exact ⟨past₂, .head (nextInList_eq ht (by simp)) (.single hr)⟩

theorem reads_string {s out : List UInt8}
    (h : ∀ past rest, ∃ past',
      readstrexp past .ok 0 [] (out ++ 34 :: rest) = (some s, ⟨past', rest⟩)) (k : ℕ) :
    Reads (List.replicate k 32 ++ 34 :: (out ++ 34 :: rest)) (.value v) (.rdList args :: frames)
      rest (.value (.string s)) (.rdList (v :: args) :: frames) := by
  intro past
  obtain ⟨past₁, ht⟩ := token_dquote past (out ++ 34 :: rest) k
  obtain ⟨past₂, hr⟩ := h past₁ rest
  exact ⟨past₂, .head (nextInList_eq ht (by simp)) (.single (by simp [step, hr]))⟩

/-- A list whose first element is an atom. -/
theorem reads_open {text : List UInt8} (h : Plain text) {d : UInt8} (hd : Delimiter d) (k : ℕ) :
    Reads (List.replicate k 32 ++ 40 :: (text ++ d :: rest)) (.value v) (.rdList args :: frames)
      (d :: rest) (.value (.atom text)) (.rdList [] :: .rdList (v :: args) :: frames) := by
  intro past
  obtain ⟨past₁, ht⟩ := token_lparen past (text ++ d :: rest) k
  obtain ⟨past₂, ht'⟩ := token_plain h past₁ (d :: rest) 0
  obtain ⟨past₃, hr⟩ := step_readAtom h hd past₂ rest (.rdList [] :: .rdList (v :: args) :: frames)
  have hopen : step ⟨⟨past₁, text ++ d :: rest⟩, .rdSexpr .lparen, .rdList (v :: args) :: frames⟩ =
      .more ⟨⟨past₂, text ++ d :: rest⟩, .rdSexpr .atom,
        .rdList [] :: .rdList (v :: args) :: frames⟩ := by
    rw [List.replicate_zero, List.nil_append] at ht'
    simp [step, openList, ht']
  exact ⟨past₃, .head (nextInList_eq ht (by simp)) (.head hopen (.single hr))⟩

theorem reads_close (hrest : ∀ b ∈ rest.head?, Delimiter b) (k : ℕ) :
    Reads (List.replicate k 32 ++ 41 :: rest) (.value v) (.rdList args :: frames)
      rest (.value (.list ((v :: args).reverse))) frames := by
  intro past
  obtain ⟨past₁, ht⟩ := token_rparen past rest k
  have hval : Datum.revAppend .nil (v :: args) = .list ((v :: args).reverse) := by
    rw [show Datum.nil = Datum.list [] from rfl, Datum.revAppend_list, List.append_nil]
  refine ⟨past₁, .single ?_⟩
  show nextInList _ _ _ = _
  rcases rest with _ | ⟨b, bs⟩
  · simp [nextInList, ht, hval, eof, chr, backchar]
  · rcases hrest b (by simp) with rfl|rfl
    all_goals
      simp [nextInList, ht, hval, inchar, signedChar, chr, backchar, eof]

/-- The first atom of a text that begins with a parenthesis. -/
theorem steps_start {text : List UInt8} (h : Plain text) {d : UInt8} (hd : Delimiter d) :
    ∃ past', Steps (start (40 :: (text ++ d :: rest)))
      ⟨⟨past', d :: rest⟩, .value (.atom text), [.rdList []]⟩ := by
  obtain ⟨past₁, ht⟩ := token_lparen [] (text ++ d :: rest) 0
  obtain ⟨past₂, ht'⟩ := token_plain h past₁ (d :: rest) 0
  obtain ⟨past₃, hr⟩ := step_readAtom h hd past₂ rest [.rdList []]
  rw [List.replicate_zero, List.nil_append] at ht ht'
  refine ⟨past₃, .head ?_ (.single hr)⟩
  simp [start, ht, step, openList, ht']

/-- A text that begins with a parenthesis and an atom is read as a list if its rest is. -/
theorem readsAs_of_reads {text : List UInt8} (h : Plain text) {d : UInt8} (hd : Delimiter d)
    {ds : List Datum} (hr : Reads (d :: rest) (.value (.atom text)) [.rdList []]
      [] (.value (.list ds)) []) :
    ReadsAs (40 :: (text ++ d :: rest)) (.list ds) := by
  obtain ⟨past, hs⟩ := steps_start h hd
  obtain ⟨past', hs'⟩ := hr past
  exact ⟨_, ⟨past', []⟩, Relation.ReflTransGen.trans hs hs', rfl, rfl⟩

end Extempore.SchemeReader
