import Extempore.BigEndian
import Extempore.OscStrings

/-!
# OSC messages as Scheme expressions

A message has an address, a type-tag string and a body. `send_scheme_call` walks over the
tags, takes each argument from the body and writes an expression that calls the registered
function with the time, the address and the arguments.
-/

namespace Extempore.OscMessages
open SchemeReader OscStrings

/-- The number whose `n` bytes stand at `data`, most significant byte first. -/
def bytesValue (data : Bytes) (n : ℕ) : ℕ := BigEndian.decode ((List.range n).map fun i : ℕ => data i)

def getOSCInt (data : Bytes) : ℤ := Int.bmod (bytesValue data 4) (2 ^ 32)

def getOSCLong (data : Bytes) : ℤ := Int.bmod (bytesValue data 8) (2 ^ 64)

/-- The floating-point numbers of an expression, by the bits that they come from. -/
inductive RealNum where
  | float (bits : ℕ)
  | double (bits : ℕ)
  | timestamp (seconds fraction : ℕ)
  | zero
  deriving DecidableEq, Repr

def getOSCfloat (data : Bytes) : RealNum := .float (bytesValue data 4)

def getOSCdouble (data : Bytes) : RealNum := .double (bytesValue data 8)

def getOSCTimestamp (data : Bytes) : RealNum :=
  .timestamp (bytesValue data 4) (bytesValue (data.at 4) 4)

/-- The text that `ss << std::fixed << std::showpoint << std::setprecision(23)` gives for a
real number. -/
structure RealFormat where
  toText : RealNum → List UInt8
  plain : ∀ r, Plain (toText r)

/-- The text of a number written to the stream with `<<`. -/
def natText (n : ℕ) : List UInt8 := (Nat.toDigits 10 n).map fun c => UInt8.ofNat c.toNat

def intText (n : ℤ) : List UInt8 := if n < 0 then ascii "-" ++ natText n.natAbs else natText n.natAbs

/-- What an `OSC` object keeps for its callback. -/
structure Settings where
  fname : List UInt8
  fname_plain : Plain fname
  msgIncludeNetaddr : Bool
  format : RealFormat

/-- The end of `send_scheme_call`: a task with the expression was created and the body had
`pos` bytes; an unsupported tag was met; or an exception left the function. -/
inductive Sent where
  | sent (pos : ℤ) (text : List UInt8)
  | dropped
  | threw
  deriving DecidableEq, Repr

def spaced (text : List UInt8) : List UInt8 := ascii " " ++ text

def quoted (str : List UInt8) : List UInt8 := ascii " \"" ++ str ++ ascii "\""

/-- The loop over the type tags behind the comma, with the text written so far. -/
def sendArgs (format : RealFormat) (args : Bytes) : List UInt8 → ℤ → List UInt8 → Sent
  | [], pos, ss => .sent pos (ss ++ ascii ")")
  | tag :: tags, pos, ss =>
    if tag = 105 then  -- 'i'
      sendArgs format args tags (pos + 4) (ss ++ spaced (intText (getOSCInt (args.at pos))))
    else if tag = 102 then  -- 'f'
      sendArgs format args tags (pos + 4) (ss ++ spaced (format.toText (getOSCfloat (args.at pos))))
    else if tag = 100 then  -- 'd'
      sendArgs format args tags (pos + 8)
        (ss ++ spaced (format.toText (getOSCdouble (args.at pos))))
    else if tag = 115 then  -- 's'
      match getOSCString (args.at pos) with
      | none => .threw
      | some (str, n) => sendArgs format args tags (pos + n) (ss ++ quoted str)
    else if tag = 104 then  -- 'h'
      sendArgs format args tags (pos + 8) (ss ++ spaced (intText (getOSCLong (args.at pos))))
    else if tag = 116 then  -- 't'
      sendArgs format args tags (pos + 8)
        (ss ++ spaced (format.toText (getOSCTimestamp (args.at pos))))
    else if tag = 91 then  -- '['
      sendArgs format args tags pos (ss ++ ascii " (list ")
    else if tag = 93 then  -- ']'
      sendArgs format args tags pos (ss ++ ascii ")")
    else .dropped

/-- `send_scheme_call`. `address` and `typetags` come from `getOSCString`; `netaddy` is the
dotted address of the sender. -/
def sendSchemeCall (osc : Settings) (t : RealNum) (address typetags netaddy : List UInt8)
    (netport : ℕ) (args : Bytes) : Sent :=
  let ss := ascii "(" ++ osc.fname ++ spaced (osc.format.toText t) ++ quoted address
  let ss := if osc.msgIncludeNetaddr then ss ++ quoted netaddy ++ spaced (natText netport) else ss
  sendArgs osc.format args (typetags.drop 1) 0 ss

/-- `send_scheme_process_call`, which never writes the sender. -/
def sendSchemeProcessCall (osc : Settings) (t : RealNum) (address typetags : List UInt8)
    (args : Bytes) : Sent :=
  sendArgs osc.format args (typetags.drop 1) 0
    (ascii "(" ++ osc.fname ++ spaced (osc.format.toText t) ++ quoted address)

/-! ## What a message carries -/

/-- One step of the walk over the tags. Strings are kept as they stand in the message. -/
inductive Item where
  | number (text : List UInt8)
  | string (s : List UInt8)
  | openList
  | closeList
  deriving DecidableEq, Repr

/-- The item of a tag and the bytes that it takes from the body. -/
def itemOf (format : RealFormat) (data : Bytes) (tag : UInt8) : Option (Item × ℤ) :=
  if tag = 105 then some (.number (intText (getOSCInt data)), 4)
  else if tag = 102 then some (.number (format.toText (getOSCfloat data)), 4)
  else if tag = 100 then some (.number (format.toText (getOSCdouble data)), 8)
  else if tag = 115 then some (.string (oscChars data), paddedLength (oscChars data).length)
  else if tag = 104 then some (.number (intText (getOSCLong data)), 8)
  else if tag = 116 then some (.number (format.toText (getOSCTimestamp data)), 8)
  else if tag = 91 then some (.openList, 0)
  else if tag = 93 then some (.closeList, 0)
  else none

/-- The items up to the first unsupported tag. -/
def items (format : RealFormat) (args : Bytes) : List UInt8 → ℤ → List Item
  | [], _ => []
  | tag :: tags, pos =>
    match itemOf format (args.at pos) tag with
    | none => []
    | some (item, n) => item :: items format args tags (pos + n)

/-- Every tag is one that `send_scheme_call` knows. -/
def Supported (tags : List UInt8) : Prop :=
  ∀ tag ∈ tags, tag ∈ [105, 102, 100, 115, 104, 116, 91, 93]

instance (tags : List UInt8) : Decidable (Supported tags) := List.decidableBAll _ _

/-- The arguments as data: numbers, strings, and a call of `list` for every pair of brackets.
`cur` is the list under construction, the last element first, `outer` the lists around it.
Without a closing or an opening bracket for every bracket there are no arguments to speak of. -/
def nest (outer : List (List Datum)) (cur : List Datum) : List Item → Option (List Datum)
  | [] => if outer = [] then some cur.reverse else none
  | .number text :: is => nest outer (.atom text :: cur) is
  | .string s :: is => nest outer (.string s :: cur) is
  | .openList :: is => nest (cur :: outer) [.atom (ascii "list")] is
  | .closeList :: is =>
    match outer with
    | [] => none
    | cur' :: outer => nest outer (.list cur.reverse :: cur') is

/-- The item as it stands in the expression. -/
def itemText : Item → Option (List UInt8)
  | .number text => some (spaced text)
  | .string s => (escapeQuotes none s).map quoted
  | .openList => some (ascii " (list ")
  | .closeList => some (ascii ")")

/-- The items one after the other. -/
def itemsText : List Item → Option (List UInt8)
  | [] => some []
  | item :: is => (itemText item).bind fun t => (itemsText is).map fun text => t ++ text

/-- The brackets of the tags match, `depth` of them being open. -/
def balanced (depth : ℕ) : List UInt8 → Bool
  | [] => depth == 0
  | tag :: tags =>
    if tag = 91 then balanced (depth + 1) tags
    else if tag = 93 then depth != 0 && balanced (depth - 1) tags
    else balanced depth tags

/-! ## The text of a message -/

theorem itemOf_isSome {format : RealFormat} {data : Bytes} {tag : UInt8} :
    (itemOf format data tag).isSome ↔ tag ∈ [105, 102, 100, 115, 104, 116, 91, 93] := by
  simp only [itemOf, List.mem_cons, List.not_mem_nil, or_false]
  by_cases h1 : tag = 105; · simp [h1]
  by_cases h2 : tag = 102; · simp [h2]
  by_cases h3 : tag = 100; · simp [h3]
  by_cases h4 : tag = 115; · simp [h4]
  by_cases h5 : tag = 104; · simp [h5]
  by_cases h6 : tag = 116; · simp [h6]
  by_cases h7 : tag = 91; · simp [h7]
  by_cases h8 : tag = 93; · simp [h8]
  simp [h1, h2, h3, h4, h5, h6, h7, h8]

@[simp] theorem itemsText_append (is js : List Item) :
    itemsText (is ++ js) =
      (itemsText is).bind fun t => (itemsText js).map fun text => t ++ text := by
  induction is with
  | nil => simp [itemsText]
  | cons i is ih =>
    simp only [List.cons_append, itemsText, ih]
    cases itemText i <;> cases itemsText is <;> cases itemsText js <;> simp

/-- The loop is the walk over the items, as far as their texts are defined. -/
theorem sendArgs_cons (format : RealFormat) (args : Bytes) (tag : UInt8) (tags : List UInt8)
    (pos : ℤ) (ss : List UInt8) :
    sendArgs format args (tag :: tags) pos ss =
      match itemOf format (args.at pos) tag with
      | none => .dropped
      | some (item, n) =>
        match itemText item with
        | none => .threw
        | some text => sendArgs format args tags (pos + n) (ss ++ text) := by
  rw [sendArgs, itemOf]
  by_cases hint : tag = 105
  · rw [if_pos hint, if_pos hint]
    rfl
  by_cases hfloat : tag = 102
  · rw [if_neg hint, if_neg hint, if_pos hfloat, if_pos hfloat]
    rfl
  by_cases hdouble : tag = 100
  · rw [if_neg hint, if_neg hint, if_neg hfloat, if_neg hfloat, if_pos hdouble, if_pos hdouble]
    rfl
  rw [if_neg hint, if_neg hint, if_neg hfloat, if_neg hfloat, if_neg hdouble, if_neg hdouble]
  by_cases hstring : tag = 115
  · rw [if_pos hstring, if_pos hstring]
    -- only the text of a string may be undefined
    simp only [itemText, getOSCString]
    cases escapeQuotes none (oscChars (args.at pos)) <;> rfl
  rw [if_neg hstring, if_neg hstring]
  by_cases hlong : tag = 104
  · rw [if_pos hlong, if_pos hlong]
    rfl
  by_cases htime : tag = 116
  · rw [if_neg hlong, if_neg hlong, if_pos htime, if_pos htime]
    rfl
  rw [if_neg hlong, if_neg hlong, if_neg htime, if_neg htime]
  by_cases hopen : tag = 91
  · rw [if_pos hopen, if_pos hopen]
    simp only [itemText, Int.add_zero]
  by_cases hclose : tag = 93
  · rw [if_neg hopen, if_neg hopen, if_pos hclose, if_pos hclose]
    simp only [itemText, Int.add_zero]
  rw [if_neg hopen, if_neg hopen, if_neg hclose, if_neg hclose]

/-- A message is sent just when all its tags are supported and all its strings can be
escaped; its text is then put together from its items. -/
theorem sendArgs_sent_iff {format : RealFormat} {args : Bytes} {tags : List UInt8} {pos : ℤ}
    {ss text : List UInt8} :
    (∃ pos', sendArgs format args tags pos ss = .sent pos' text) ↔
      Supported tags ∧ ∃ body, itemsText (items format args tags pos) = some body ∧
        text = ss ++ (body ++ ascii ")") := by
  induction tags generalizing pos ss with
  | nil =>
    simp [sendArgs, Supported, items, itemsText, eq_comm]
  | cons tag tags ih =>
    rw [sendArgs_cons, items]
    have hsup : Supported (tag :: tags) ↔
        (itemOf format (args.at pos) tag).isSome ∧ Supported tags := by
      rw [itemOf_isSome, Supported, List.forall_mem_cons]
      rfl
    rw [hsup]
    cases hitem : itemOf format (args.at pos) tag with
    | none => simp
    | some p =>
      obtain ⟨item, n⟩ := p
      cases htext : itemText item with
      | none => simp [itemsText, htext]
      | some t =>
        simp only [ih, itemsText, htext, Option.isSome_some, true_and, Option.bind_some,
          Option.map_eq_some_iff]
        refine and_congr_right fun _ => ⟨?_, ?_⟩
        · rintro ⟨body, hbody, rfl⟩
          exact ⟨t ++ body, ⟨body, hbody, rfl⟩, by simp⟩
        · rintro ⟨_, ⟨body, hbody, rfl⟩, rfl⟩
          exact ⟨body, hbody, by simp⟩

/-- An exception comes from a string that begins with a quote. -/
theorem sendArgs_threw_iff {format : RealFormat} {args : Bytes} {tags : List UInt8} {pos : ℤ}
    {ss : List UInt8} :
    sendArgs format args tags pos ss = .threw ↔
      ∃ s, .string s ∈ items format args tags pos ∧ s.head? = some quote := by
  induction tags generalizing pos ss with
  | nil => simp [sendArgs, items]
  | cons tag tags ih =>
    rw [sendArgs_cons, items]
    cases hitem : itemOf format (args.at pos) tag with
    | none => simp
    | some p =>
      obtain ⟨item, n⟩ := p
      have hthrew : itemText item = none ↔ ∃ s, item = .string s ∧ s.head? = some quote := by
        cases item <;> simp [itemText, escapeQuotes_eq_none_iff]
      cases htext : itemText item with
      | none =>
        obtain ⟨s, rfl, hs⟩ := hthrew.mp htext
        exact iff_of_true (by simp [htext]) ⟨s, by simp, hs⟩
      | some t =>
        simp only [htext, ih]
        refine ⟨fun ⟨s, hs, hq⟩ => ⟨s, by simp [hs], hq⟩, ?_⟩
        rintro ⟨s, hs, hq⟩
        rcases List.mem_cons.mp hs with rfl|hs
        · exact absurd (hthrew.mpr ⟨s, rfl, hq⟩) (by simp [htext])
        · exact ⟨s, hs, hq⟩

/-- The loop ends in one of three ways, which tags and strings decide about. -/
theorem sendArgs_sent_or_dropped {format : RealFormat} {args : Bytes} {tags : List UInt8} {pos : ℤ}
    (hs : ∀ s, .string s ∈ items format args tags pos → s.head? ≠ some quote) (ss : List UInt8) :
    (Supported tags ∧ ∃ pos' text, sendArgs format args tags pos ss = .sent pos' text) ∨
      sendArgs format args tags pos ss = .dropped := by
  cases h : sendArgs format args tags pos ss with
  | sent pos' text => exact .inl ⟨(sendArgs_sent_iff.mp ⟨pos', h⟩).1, pos', text, rfl⟩
  | dropped => exact .inr rfl
  | threw =>
    obtain ⟨s, hmem, hq⟩ := sendArgs_threw_iff.mp h
    exact absurd hq (hs s hmem)

/-- The element that stands before the arguments besides the function. -/
def header (osc : Settings) (t : RealNum) (a netaddy : List UInt8) (netport : ℕ) : List Item :=
  .number (osc.format.toText t) :: .string a ::
    if osc.msgIncludeNetaddr then [.string netaddy, .number (natText netport)] else []

theorem escapeQuotes_of_notMem {s : List UInt8} (h : quote ∉ s) (prev : Option UInt8) :
    escapeQuotes prev s = some s := by
  induction s generalizing prev with
  | nil => rfl
  | cons b s ih =>
    simp only [List.mem_cons, not_or] at h
    simp [escapeQuotes, Ne.symm h.1, ih h.2]

/-- The address of the sender in dotted form. -/
def Dotted (netaddy : List UInt8) : Prop :=
  netaddy.length ≤ 15 ∧ ∀ b ∈ netaddy, b ∈ ascii "0123456789."

theorem Dotted.notMem {netaddy : List UInt8} (h : Dotted netaddy) {b : UInt8}
    (hb : b ∉ ascii "0123456789.") : b ∉ netaddy := fun hm => hb (h.2 b hm)

theorem Dotted.readsBack {netaddy : List UInt8} (h : Dotted netaddy) : ReadsBack netaddy := by
  refine (readsBack_iff (h.notMem (by decide)) (by have := h.1; omega)).mpr
    ⟨h.notMem (by decide), fun hq => ?_, h.notMem (by decide)⟩
  exact h.notMem (b := quote) (by decide) (List.mem_of_head? hq)

theorem sendSchemeCall_sent_iff {osc : Settings} {t : RealNum} {a address typetags netaddy : List UInt8}
    {netport : ℕ} {args : Bytes} {text : List UInt8} (ha : escapeQuotes none a = some address)
    (hn : Dotted netaddy) :
    (∃ pos, sendSchemeCall osc t address typetags netaddy netport args = .sent pos text) ↔
      Supported (typetags.drop 1) ∧ ∃ body,
        itemsText (header osc t a netaddy netport ++
          items osc.format args (typetags.drop 1) 0) = some body ∧
        text = ascii "(" ++ (osc.fname ++ (body ++ ascii ")")) := by
  have hesc : escapeQuotes none netaddy = some netaddy :=
    escapeQuotes_of_notMem (hn.notMem (by decide)) none
  simp only [sendSchemeCall, sendArgs_sent_iff]
  refine and_congr_right fun _ => ?_
  generalize typetags.drop 1 = tags
  cases hm : itemsText (items osc.format args tags 0) with
  | none => simp [hm]
  | some body =>
    cases hb : osc.msgIncludeNetaddr <;>
      simp [header, itemsText, itemText, ha, hesc, hm, hb, List.append_assoc]

/-! ## Reading the text -/

theorem natText_bytes (n : ℕ) : natText n ≠ [] ∧
    ∀ b ∈ natText n, PlainByte b ∧ b ≠ 46 := by
  refine ⟨by simp [natText], ?_⟩
  intro b hb
  obtain ⟨c, hc, rfl⟩ := List.mem_map.mp hb
  have hdigit := Nat.isDigit_of_mem_toDigits (by decide) (by decide) hc
  simp only [Char.isDigit, Bool.and_eq_true, decide_eq_true_eq, UInt32.le_iff_toNat_le] at hdigit
  have h1 : 48 ≤ c.toNat := hdigit.1
  have h2 : c.toNat ≤ 57 := hdigit.2
  have hb : (UInt8.ofNat c.toNat).toNat = c.toNat := by
    rw [UInt8.toNat_ofNat']
    omega
  refine ⟨⟨by omega, by omega, ?_⟩, ?_⟩
  · rw [hb]
    simp only [List.mem_cons, List.not_mem_nil, or_false, not_or]
    omega
  · intro h
    have h46 := congrArg UInt8.toNat h
    rw [hb] at h46
    have : (46 : UInt8).toNat = 46 := rfl
    omega

theorem plain_natText (n : ℕ) : Plain (natText n) :=
  ⟨(natText_bytes n).1, fun b hb => ((natText_bytes n).2 b hb).1,
    fun h => ((natText_bytes n).2 46 (List.mem_of_head? h)).2 rfl⟩

theorem plain_intText (n : ℤ) : Plain (intText n) := by
  rw [intText]
  split
  · refine ⟨by simp [ascii], ?_, by simp [ascii]⟩
    intro b hb
    rcases List.mem_append.mp hb with hb|hb
    · obtain rfl : b = 45 := by simpa [ascii] using hb
      decide
    · exact ((natText_bytes _).2 b hb).1
  · exact plain_natText _

theorem plain_itemOf {format : RealFormat} {data : Bytes} {tag : UInt8} {text : List UInt8} {n : ℤ}
    (h : itemOf format data tag = some (.number text, n)) : Plain text := by
  have hnumber {t : List UInt8} {m : ℤ} (ht : Plain t)
      (h : some (Item.number t, m) = some (.number text, n)) : Plain text := by
    cases h
    exact ht
  rw [itemOf] at h
  split at h
  · exact hnumber (plain_intText _) h
  split at h
  · exact hnumber (format.plain _) h
  split at h
  · exact hnumber (format.plain _) h
  split at h
  · cases h
  split at h
  · exact hnumber (plain_intText _) h
  split at h
  · exact hnumber (format.plain _) h
  -- brackets and unsupported tags have no number
  split_ifs at h <;> cases h

theorem plain_items {format : RealFormat} {args : Bytes} {tags text : List UInt8} {pos : ℤ}
    (h : .number text ∈ items format args tags pos) : Plain text := by
  induction tags generalizing pos with
  | nil => simp [items] at h
  | cons tag tags ih =>
    rw [items] at h
    split at h
    · simp at h
    · rename_i item n hitem
      rcases List.mem_cons.mp h with rfl|h
      · exact plain_itemOf hitem
      · exact ih h

/-- The strings of a message are what `getOSCString` copies. -/
theorem string_items {format : RealFormat} {args : Bytes} {tags s : List UInt8} {pos : ℤ}
    (h : .string s ∈ items format args tags pos) : ∃ data, s = oscChars data := by
  induction tags generalizing pos with
  | nil => simp [items] at h
  | cons tag tags ih =>
    rw [items] at h
    split at h
    · simp at h
    · rename_i item n hitem
      rcases List.mem_cons.mp h with rfl|h
      · simp only [itemOf] at hitem
        split_ifs at hitem <;> simp only [Option.some.injEq, Prod.mk.injEq, Item.string.injEq,
          reduceCtorEq, false_and] at hitem
        exact ⟨_, hitem.1.symm⟩
      · exact ih h

theorem itemsText_isSome {is : List Item} (h : ∀ s, .string s ∈ is → ReadsBack s) :
    ∃ body, itemsText is = some body := by
  induction is with
  | nil => exact ⟨[], rfl⟩
  | cons i is ih =>
    obtain ⟨body, hbody⟩ := ih fun s hs => h s (by simp [hs])
    have ht : ∃ t, itemText i = some t := by
      cases i with
      | number text => exact ⟨_, rfl⟩
      | string s =>
        obtain ⟨out, hout, -⟩ := h s (by simp)
        exact ⟨quoted out, by simp [itemText, hout]⟩
      | openList => exact ⟨_, rfl⟩
      | closeList => exact ⟨_, rfl⟩
    obtain ⟨t, ht⟩ := ht
    exact ⟨t ++ body, by simp [itemsText, ht, hbody]⟩

/-- Every item begins with a character that ends an atom before it. -/
theorem itemText_head {item : Item} {text : List UInt8} (h : itemText item = some text) :
    ∃ d text', text = d :: text' ∧ Delimiter d := by
  cases item with
  | number t =>
    obtain rfl := Option.some.inj h
    exact ⟨32, t, rfl, .inl rfl⟩
  | string s =>
    obtain ⟨out, _, rfl⟩ := Option.map_eq_some_iff.mp h
    exact ⟨32, 34 :: (out ++ [34]), rfl, .inl rfl⟩
  | openList =>
    obtain rfl := Option.some.inj h
    exact ⟨32, _, rfl, .inl rfl⟩
  | closeList =>
    obtain rfl := Option.some.inj h
    exact ⟨41, [], rfl, .inr rfl⟩

theorem itemsText_head {is : List Item} {body : List UInt8} (h : itemsText is = some body) :
    ∃ d rest, body ++ ascii ")" = d :: rest ∧ Delimiter d := by
  cases is with
  | nil =>
    obtain rfl := Option.some.inj h
    exact ⟨41, [], rfl, .inr rfl⟩
  | cons i is =>
    obtain ⟨t, ht, h⟩ := Option.bind_eq_some_iff.mp h
    obtain ⟨body', _, rfl⟩ := Option.map_eq_some_iff.mp h
    obtain ⟨d, t', rfl, hd⟩ := itemText_head ht
    exact ⟨d, t' ++ body' ++ ascii ")", rfl, hd⟩

/-- The reader turns the text of the items into the data that they stand for. The induction
follows the items; a closing bracket takes the reader back to the list around the current one. -/
theorem reads_items {is : List Item} {outer : List (List Datum)} {v : Datum} {args ds : List Datum}
    {body : List UInt8} (hstr : ∀ s, .string s ∈ is → ReadsBack s)
    (hnum : ∀ text, .number text ∈ is → Plain text) (hbody : itemsText is = some body)
    (hn : nest outer (v :: args) is = some ds) (k : ℕ) :
    Reads (List.replicate k 32 ++ (body ++ ascii ")")) (.value v) (.rdList args :: outer.map .rdList)
      [] (.value (.list ds)) [] := by
  induction is generalizing outer v args body k with
  | nil =>
    obtain rfl : [] = body := by simpa [itemsText] using hbody
    simp only [nest] at hn
    split at hn
    · rename_i ho
      subst ho
      obtain rfl := Option.some.inj hn
      exact reads_close (by simp) k
    · cases hn
  | cons i is ih =>
    obtain ⟨t, ht, hb⟩ := Option.bind_eq_some_iff.mp hbody
    obtain ⟨body', hb', rfl⟩ := Option.map_eq_some_iff.mp hb
    have ih' := fun {outer v args} (hn : nest outer (v :: args) is = some ds) =>
      ih (fun s hs => hstr s (by simp [hs])) (fun s hs => hnum s (by simp [hs])) hb' hn
    obtain ⟨d, rest, hd, hdel⟩ := itemsText_head hb'
    have hspace : ∀ t : List UInt8, List.replicate k 32 ++ 32 :: t = List.replicate (k + 1) 32 ++ t :=
      fun t => by simp [List.replicate_succ']
    rw [List.append_assoc]
    cases i with
    | number text =>
      obtain rfl := Option.some.inj ht
      have htail := ih' (by simpa [nest] using hn) 0
      rw [hd] at htail ⊢
      refine .trans ?_ htail
      show Reads (List.replicate k 32 ++ 32 :: (text ++ d :: rest)) _ _ _ _ _
      rw [hspace]
      exact reads_atom (hnum text (by simp)) hdel (k + 1)
    | string s =>
      obtain ⟨out, hout, rfl⟩ := Option.map_eq_some_iff.mp ht
      obtain ⟨out', hout', hread⟩ := hstr s (by simp)
      obtain rfl : out = out' := Option.some.inj (hout.symm.trans hout')
      have htail := ih' (by simpa [nest] using hn) 0
      refine .trans ?_ htail
      have htext : quoted out ++ (body' ++ ascii ")") = 32 :: 34 :: (out ++ 34 :: (body' ++ ascii ")")) := by
        simp [quoted, ascii]
      rw [htext, hspace]
      exact reads_string hread (k + 1)
    | openList =>
      obtain rfl := Option.some.inj ht
      have hlist : Plain (ascii "list") := ⟨by decide, by decide +kernel, by decide⟩
      have htail := ih' (by simpa [nest] using hn) 1
      refine .trans ?_ htail
      show Reads (List.replicate k 32 ++ 32 :: 40 :: (ascii "list" ++ 32 :: (body' ++ ascii ")"))) _ _ _ _ _
      rw [hspace]
      exact reads_open hlist (.inl rfl) (k + 1)
    | closeList =>
      obtain rfl := Option.some.inj ht
      rcases outer with _ | ⟨cur', outer⟩
      · simp [nest] at hn
      · have htail := ih' (by simpa [nest] using hn) 0
        refine .trans ?_ htail
        rw [← List.reverse_cons]
        refine reads_close ?_ k
        show ∀ b ∈ (body' ++ ascii ")").head?, Delimiter b
        rw [hd]
        simpa using hdel

/-! ## The shape of the expression -/

/-- What stands at the bottom of the outermost list stays in front of the arguments. -/
theorem nest_append (base : List Datum) (is : List Item) (cur : List Datum) :
    nest [] (cur ++ base) is = (nest [] cur is).map (fun ds => base.reverse ++ ds) ∧
      ∀ outer bottom, nest (outer ++ [bottom ++ base]) cur is =
        (nest (outer ++ [bottom]) cur is).map (fun ds => base.reverse ++ ds) := by
  induction is generalizing cur with
  | nil => simp [nest]
  | cons i is ih =>
    cases i with
    | number text => exact ih (.atom text :: cur)
    | string s => exact ih (.string s :: cur)
    | openList =>
      refine ⟨(ih _).2 [] cur, fun outer bottom => ?_⟩
      exact (ih _).2 (cur :: outer) bottom
    | closeList =>
      refine ⟨by simp [nest], fun outer bottom => ?_⟩
      rcases outer with _ | ⟨cur', outer⟩
      · exact (ih (.list cur.reverse :: bottom)).1
      · exact (ih (.list cur.reverse :: cur')).2 outer bottom

/-- The arguments can be nested just when the brackets among the tags match. -/
theorem nest_isSome_iff {format : RealFormat} {args : Bytes} {tags : List UInt8} {pos : ℤ}
    (h : Supported tags) (outer : List (List Datum)) (cur : List Datum) :
    (nest outer cur (items format args tags pos)).isSome ↔ balanced outer.length tags := by
  induction tags generalizing pos outer cur with
  | nil =>
    rw [items, nest, balanced]
    cases outer <;> simp
  | cons tag tags ih =>
    have htags : Supported tags := fun b hb => h b (by simp [hb])
    have htag := h tag (by simp)
    simp only [List.mem_cons, List.not_mem_nil, or_false] at htag
    rcases htag with rfl|rfl|rfl|rfl|rfl|rfl|rfl|rfl
    all_goals simp [items, itemOf, nest, balanced, ih htags]
    cases outer <;> simp [ih htags]

/-- The sender as data. -/
def senderData (osc : Settings) (netaddy : List UInt8) (netport : ℕ) : List Datum :=
  if osc.msgIncludeNetaddr then [.string netaddy, .atom (natText netport)] else []

theorem nest_header {osc : Settings} {t : RealNum} {a netaddy : List UInt8} {netport : ℕ}
    {is : List Item} {ds : List Datum} (h : nest [] [] is = some ds) :
    nest [] [.atom osc.fname] (header osc t a netaddy netport ++ is) =
      some ([.atom osc.fname, .atom (osc.format.toText t), .string a] ++
        senderData osc netaddy netport ++ ds) := by
  have happ (base : List Datum) : nest [] base is = some (base.reverse ++ ds) := by
    simpa [h] using (nest_append base is []).1
  cases hm : osc.msgIncludeNetaddr <;> simp [header, senderData, hm, nest, happ]

/-- If a task was created, its text is one call of the registered function with the time, the
address, the sender where it is wanted, and the arguments of the message. -/
def WellShaped (osc : Settings) (t : RealNum) (a : List UInt8) (sender : List Datum)
    (is : List Item) (sent : Sent) : Prop :=
  ∀ pos text, sent = .sent pos text → ∃ ds, nest [] [] is = some ds ∧
    ReadsAs text (.list
      ([.atom osc.fname, .atom (osc.format.toText t), .string a] ++ sender ++ ds))

theorem sendSchemeProcessCall_eq (osc : Settings) (t : RealNum) (address typetags netaddy : List UInt8)
    (netport : ℕ) (args : Bytes) :
    sendSchemeProcessCall osc t address typetags args =
      sendSchemeCall { osc with msgIncludeNetaddr := false } t address typetags netaddy netport
        args := rfl

/-- Clean strings and matching brackets make the text a call of the right shape. -/
theorem sendSchemeCall_wellShaped {osc : Settings} {t : RealNum}
    {a address typetags netaddy : List UInt8} {netport : ℕ} {args : Bytes}
    (ha : escapeQuotes none a = some address) (hread : ReadsBack a) (hn : Dotted netaddy)
    (hs : ∀ s, .string s ∈ items osc.format args (typetags.drop 1) 0 → ReadsBack s)
    (hb : Supported (typetags.drop 1) → balanced 0 (typetags.drop 1)) :
    WellShaped osc t a (senderData osc netaddy netport)
      (items osc.format args (typetags.drop 1) 0)
      (sendSchemeCall osc t address typetags netaddy netport args) := by
  intro pos text hsent
  obtain ⟨hsup, body, hbody, rfl⟩ := (sendSchemeCall_sent_iff ha hn).mp ⟨pos, hsent⟩
  have hbal := (@nest_isSome_iff osc.format args _ 0 hsup [] []).mpr
    (hb hsup)
  obtain ⟨ds, hds⟩ := Option.isSome_iff_exists.mp hbal
  refine ⟨ds, hds, ?_⟩
  obtain ⟨d, rest, hd, hdel⟩ := itemsText_head hbody
  have hstr : ∀ s, .string s ∈ header osc t a netaddy netport ++
      items osc.format args (typetags.drop 1) 0 → ReadsBack s := by
    intro s hmem
    rcases List.mem_append.mp hmem with hmem|hmem
    · have : s = a ∨ s = netaddy := by
        cases hm : osc.msgIncludeNetaddr <;> simp [header, hm] at hmem <;> tauto
      rcases this with rfl|rfl
      · exact hread
      · exact hn.readsBack
    · exact hs s hmem
  have hnum : ∀ text, .number text ∈ header osc t a netaddy netport ++
      items osc.format args (typetags.drop 1) 0 → Plain text := by
    intro text hmem
    rcases List.mem_append.mp hmem with hmem|hmem
    · have : text = osc.format.toText t ∨ text = natText netport := by
        cases hm : osc.msgIncludeNetaddr <;> simp [header, hm] at hmem <;> tauto
      rcases this with rfl|rfl
      · exact osc.format.plain t
      · exact plain_natText netport
    · exact plain_items hmem
  have hreads := reads_items hstr hnum hbody (nest_header hds) 0
  rw [hd] at hreads ⊢
  exact readsAs_of_reads osc.fname_plain hdel hreads

/-- No string of the message leaves its literal, and neither of the two calls makes anything
but a call of the registered function out of the message. -/
def Contained (osc : Settings) (t : RealNum) (data : Bytes) (typetags netaddy : List UInt8)
    (netport : ℕ) (args : Bytes) : Prop :=
  ReadsBack (oscChars data) ∧
  (∀ s, .string s ∈ items osc.format args (typetags.drop 1) 0 → ReadsBack s) ∧
  ∀ address n, getOSCString data = some (address, n) →
    WellShaped osc t (oscChars data) (senderData osc netaddy netport)
      (items osc.format args (typetags.drop 1) 0)
      (sendSchemeCall osc t address typetags netaddy netport args) ∧
    WellShaped osc t (oscChars data) [] (items osc.format args (typetags.drop 1) 0)
      (sendSchemeProcessCall osc t address typetags args)

/-- The message of a packet is contained exactly if its strings are clean and, unless it is
dropped for an unsupported tag, its brackets match. -/
theorem contained_iff (osc : Settings) (t : RealNum) (data : Bytes) (typetags netaddy : List UInt8)
    (netport : ℕ) (args : Bytes) (hn : Dotted netaddy) :
    Contained osc t data typetags netaddy netport args ↔
      Clean (oscChars data) ∧
      (∀ s, .string s ∈ items osc.format args (typetags.drop 1) 0 → Clean s) ∧
      (Supported (typetags.drop 1) → balanced 0 (typetags.drop 1)) := by
  have hclean (s : List UInt8) (hs : .string s ∈ items osc.format args (typetags.drop 1) 0) :
      ReadsBack s ↔ Clean s := by
    obtain ⟨data', rfl⟩ := string_items hs
    exact readsBack_iff (zero_notMem_oscChars data') (length_oscChars_le data')
  have haddress := readsBack_iff (zero_notMem_oscChars data) (length_oscChars_le data)
  constructor
  · rintro ⟨ha, hs, hshape⟩
    refine ⟨haddress.mp ha, fun s hm => (hclean s hm).mp (hs s hm), fun hsup => ?_⟩
    obtain ⟨address, haddr, -⟩ := ha
    obtain ⟨body, hbody⟩ := itemsText_isSome hs
    obtain ⟨pos, hsent⟩ := (@sendArgs_sent_iff osc.format args (typetags.drop 1) 0
      (ascii "(" ++ osc.fname ++ spaced (osc.format.toText t) ++ quoted address) _).mpr
      ⟨hsup, body, hbody, rfl⟩
    obtain ⟨ds, hds, -⟩ := ((hshape address _ (by rw [getOSCString, haddr]; rfl)).2 pos _ hsent)
    exact (nest_isSome_iff hsup [] []).mp (Option.isSome_iff_exists.mpr ⟨ds, hds⟩)
  · rintro ⟨ha, hs, hb⟩
    refine ⟨haddress.mpr ha, fun s hm => (hclean s hm).mpr (hs s hm), fun address n hget => ?_⟩
    obtain ⟨out, hout, hpair⟩ := Option.map_eq_some_iff.mp hget
    obtain rfl : out = address := congrArg Prod.fst hpair
    have hshape := fun osc' : Settings => @sendSchemeCall_wellShaped osc' t _ out typetags
      netaddy netport args hout (haddress.mpr ha) hn
    exact ⟨hshape osc (fun s hm => (hclean s hm).mpr (hs s hm)) hb,
      hshape { osc with msgIncludeNetaddr := false } (fun s hm => (hclean s hm).mpr (hs s hm)) hb⟩

/-- Messages go to `f`, and real numbers are written like the number zero. -/
def zeroSettings : Settings where
  fname := ascii "f"
  fname_plain := ⟨by decide, by decide +kernel, by decide⟩
  msgIncludeNetaddr := true
  format := ⟨fun _ => ascii "0.00000000000000000000000", fun _ => ⟨by decide, by decide +kernel, by decide⟩⟩

theorem contained_iff_nested :
    Contained zeroSettings .zero (.ofList (ascii "/a")) (ascii ",[s]i") (ascii "127.0.0.1") 9000
      (.ofList (ascii "say \"hi\"" ++ [0, 0, 0, 0, 0, 0, 0, 7])) :=
  (contained_iff zeroSettings .zero (.ofList (ascii "/a")) (ascii ",[s]i") (ascii "127.0.0.1") 9000
    (.ofList (ascii "say \"hi\"" ++ [0, 0, 0, 0, 0, 0, 0, 7])) ⟨by decide, by decide +kernel⟩).mpr
    ⟨by decide +kernel, by
      intro s hs
      have hitems : items zeroSettings.format (.ofList (ascii "say \"hi\"" ++ [0, 0, 0, 0, 0, 0, 0, 7]))
          ((ascii ",[s]i").drop 1) 0 =
          [.openList, .string (ascii "say \"hi\""), .closeList, .number (ascii "7")] := by
        decide +kernel
      rw [hitems] at hs
      obtain rfl : s = ascii "say \"hi\"" := by simpa using hs
      decide, by decide⟩

/-- The quote behind two backslashes ends the literal, and what follows it is evaluated. -/
theorem not_contained_of_backslashes :
    ¬ Contained zeroSettings .zero (.ofList (ascii "/a")) (ascii ",s") (ascii "127.0.0.1") 9000
      (.ofList (ascii "\\\\\")(quit);")) := by
  rintro ⟨-, hs, -⟩
  have hread : ReadsBack (ascii "\\\\\")(quit);") := hs _ (by decide +kernel)
  have hclean := (readsBack_iff (by decide) (by decide)).mp hread
  exact absurd hclean (by decide)

end Extempore.OscMessages
