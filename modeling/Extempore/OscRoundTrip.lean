import Extempore.OscArguments
import Extempore.OscReceiver

/-!
# Messages from one process to another

What `sendOSC` writes is read by a receiver of another process and becomes a call of the
registered function there. A bundle is a time tag and messages with their sizes; Extempore sends
none itself, but reads those of other programs.
-/

namespace Extempore.OscRoundTrip
open SchemeReader OscStrings OscMessages OscArguments OscReceiver GuardedRuns

/-- The arguments of a `sendOSC` besides the receiver. -/
structure Message where
  address : List UInt8
  arg : Value

/-- A datagram: a message, or the elements of a bundle with its time tag. -/
inductive Datagram where
  | message (m : Message)
  | bundle (seconds fraction : UInt32) (ms : List Message)

def Datagram.messages : Datagram → List Message
  | .message m => [m]
  | .bundle _ _ ms => ms

/-- The time that the receiver passes on. -/
def Datagram.time : Datagram → RealNum
  | .message _ => .zero
  | .bundle seconds fraction _ => .timestamp seconds.toNat fraction.toNat

/-- An element of a bundle. -/
def element (message : List UInt8) : List UInt8 :=
  BigEndian.encode 4 message.length ++ message

/-- The bytes of a datagram. -/
def Carries (osc : Config) (bytes : List UInt8) : Datagram → Prop
  | .message m => sendOSC osc m.address m.arg = some bytes
  | .bundle seconds fraction ms => ∃ messages,
      List.Forall₂ (fun m message => sendOSC osc m.address m.arg = some message) ms messages ∧
      bytes = setOSCString (ascii "#bundle") ++ BigEndian.encode 4 seconds.toNat ++
        BigEndian.encode 4 fraction.toNat ++ messages.flatMap element

/-- What the value of an argument that is not a list is on the other side. -/
def datumOf (osc : Config) (format : RealFormat) : Value → Option Datum
  | .string s => some (.string (cString s))
  | .integer n =>
    match osc.schemeIntegerType with
    | .i => some (.atom (intText (n.setWidth 32).toInt))
    | .h => some (.atom (intText n.toInt))
  | .real bits =>
    match osc.schemeRealType with
    | .f => some (.atom (format.toText (.float (osc.toFloat bits).toNat)))
    | .d => some (.atom (format.toText (.double bits.toNat)))
  | _ => none

/-- The arguments on the other side, those that are lists as calls of `list`. -/
def dataOf (osc : Config) (format : RealFormat) : Value → List Datum
  | .pair (.pair a b) arg =>
    .list (.atom (ascii "list") :: dataOf osc format (.pair a b)) :: dataOf osc format arg
  | .pair item arg => (datumOf osc format item).toList ++ dataOf osc format arg
  | _ => []

/-- The sender as the receiver writes it into the call. -/
def sender (server : Server) (p : Packet) : List Datum :=
  match server.transport with
  | .udp => senderData server.osc p.netaddy p.netport
  | .tcp => []

/-- The call of the registered function for a message. -/
def callOf (server : Server) (osc : Config) (p : Packet) (t : RealNum) (m : Message) : Datum :=
  .list ([.atom server.osc.fname, .atom (server.osc.format.toText t),
    .string (cString m.address)] ++ sender server p ++ dataOf osc server.osc.format m.arg)

/-- The calls for a datagram, in the order of its messages. -/
def callsOf (server : Server) (osc : Config) (d : Datagram) (p : Packet) : List Datum :=
  d.messages.map (callOf server osc p d.time)

/-- A task whose text is read as the call. -/
def Makes (d : Datum) (c : Call) : Prop := ∃ text, c = .task text ∧ ReadsAs text d

/-- The message is sent as it is meant, its strings get through the reader of the receiver, and
its address is not taken for that of a bundle. -/
structure Sendable (osc : Config) (m : Message) : Prop where
  regular : Regular m.arg false
  fits : Fits osc m.address m.arg
  address : Clean (cString m.address)
  notBundle : ¬ ascii "#bundle" <:+: cString m.address
  strings : ∀ s, .string s ∈ argsOf osc m.arg → Clean s

/-! ## Arguments as items -/

def itemOfArg (format : RealFormat) : Arg → Item
  | .int n | .long n => .number (intText n)
  | .float bits => .number (format.toText (.float bits))
  | .double bits => .number (format.toText (.double bits))
  | .string s => .string s
  | .openList => .openList
  | .closeList => .closeList

section
variable {osc : Config} {format : RealFormat} {data : Bytes}

theorem itemOf_tag {a : Arg} (ha : a.Readable) (h : Holds data a.bytes) :
    itemOf format data a.tag = some (itemOfArg format a, (a.bytes.length : ℤ)) := by
  cases a with
  | int n =>
    have hn : getOSCInt data = n := (getOSCInt_eq h).trans ha
    simp [itemOf, Arg.tag, Arg.bytes, itemOfArg, hn]
  | long n =>
    have hn : getOSCLong data = n := (getOSCLong_eq h).trans ha
    simp [itemOf, Arg.tag, Arg.bytes, itemOfArg, hn]
  | float bits =>
    have hn := bytesValue_encode h (lt_of_lt_of_eq ha (by norm_num))
    simp [itemOf, Arg.tag, Arg.bytes, itemOfArg, getOSCfloat, hn]
  | double bits =>
    have hn := bytesValue_encode h (lt_of_lt_of_eq ha (by norm_num))
    simp [itemOf, Arg.tag, Arg.bytes, itemOfArg, getOSCdouble, hn]
  | string s =>
    have hchars := oscChars_setOSCString ha.1 ha.2.1 h
    simp [itemOf, Arg.tag, Arg.bytes, itemOfArg, hchars, length_setOSCString]
  | openList => rfl
  | closeList => rfl

/-- The walk over the tags meets the arguments. -/
theorem items_tags {as : List Arg} (ha : ∀ a ∈ as, a.Readable) {pos : ℤ}
    (h : Holds (data.at pos) (as.flatMap Arg.bytes)) :
    items format data (as.map Arg.tag) pos = as.map (itemOfArg format) := by
  induction as generalizing pos with
  | nil => rfl
  | cons a as ih =>
    rw [List.flatMap_cons] at h
    obtain ⟨hhead, htail⟩ := holds_append.mp h
    rw [at_at] at htail
    simp only [List.map_cons, items, itemOf_tag (ha a (by simp)) hhead,
      ih (fun b hb => ha b (by simp [hb])) htail]

theorem supported_tags (as : List Arg) : Supported (as.map Arg.tag) := by
  intro tag htag
  obtain ⟨a, -, rfl⟩ := List.mem_map.mp htag
  cases a <;> simp [Arg.tag]

theorem nest_argOf {outer : List (List Datum)} {cur : List Datum} {is : List Item} (v : Value) :
    nest outer cur ((argOf osc v).toList.map (itemOfArg format) ++ is) =
      nest outer ((datumOf osc format v).toList.reverse ++ cur) is := by
  cases v with
  | integer n => cases hi : osc.schemeIntegerType <;> simp [argOf, datumOf, hi, itemOfArg, nest]
  | real bits => cases hr : osc.schemeRealType <;> simp [argOf, datumOf, hr, itemOfArg, nest]
  | _ => simp [argOf, datumOf, itemOfArg, nest]

/-- The brackets in the arguments of a list match, and in between stand its data. -/
theorem nest_argsOf {outer : List (List Datum)} {cur : List Datum} {is : List Item} (v : Value) :
    nest outer cur ((argsOf osc v).map (itemOfArg format) ++ is) =
      nest outer ((dataOf osc format v).reverse ++ cur) is := by
  induction v generalizing outer cur is with
  | pair car cdr ihcar ihcdr =>
    cases car with
    | pair a b =>
      have hrest : nest (cur :: outer) [.atom (ascii "list")]
          ((argsOf osc (.pair a b)).map (itemOfArg format) ++
            (.closeList :: ((argsOf osc cdr).map (itemOfArg format) ++ is))) =
          nest outer ((dataOf osc format (.pair (.pair a b) cdr)).reverse ++ cur) is := by
        rw [ihcar, nest, ihcdr]
        simp [dataOf]
      simpa [argsOf, itemOfArg, nest] using hrest
    | _ =>
      simp only [argsOf, dataOf, List.map_append, List.append_assoc, nest_argOf, ihcdr,
        List.reverse_append]
  | _ => rfl

end

/-! ## One message -/

/-- Escaping adds nothing but backslashes. -/
theorem filter_escapeQuotes {s out : List UInt8} {prev : Option UInt8}
    (h : escapeQuotes prev s = some out) :
    out.filter (· ≠ backslash) = s.filter (· ≠ backslash) := by
  induction s generalizing prev out with
  | nil =>
    obtain rfl := Option.some.inj h
    rfl
  | cons b s ih =>
    have hkeep {rest : List UInt8} (hr : escapeQuotes (some b) s = some rest) :
        (b :: rest).filter (· ≠ backslash) = (b :: s).filter (· ≠ backslash) := by
      simp only [List.filter_cons, ih hr]
    rw [escapeQuotes.eq_def] at h
    dsimp only at h
    split at h
    · cases prev with
      | none => cases h
      | some c =>
        dsimp only at h
        split at h
        all_goals
          obtain ⟨rest, hr, rfl⟩ := Option.map_eq_some_iff.mp h
        · rw [List.filter_cons_of_neg (by decide), hkeep hr]
        · exact hkeep hr
    · obtain ⟨rest, hr, rfl⟩ := Option.map_eq_some_iff.mp h
      exact hkeep hr

theorem isBundle_escaped {s out : List UInt8} (hs : Clean s) (hb : ¬ ascii "#bundle" <:+: s)
    (h : escapeQuotes none s = some out) : isBundle out = false := by
  refine decide_eq_false fun hin => hb ?_
  have hfilter := hin.filter (· ≠ backslash)
  have hself : s.filter (· ≠ backslash) = s := List.filter_eq_self.mpr fun b hm =>
    decide_eq_true fun hb : b = backslash => hs.noBackslash (hb ▸ hm)
  rw [filter_escapeQuotes h, hself] at hfilter
  exact hfilter

section
variable {osc : Config} {server : Server} {m : Message} {message : List UInt8} {data : Bytes}
  {p : Packet}

theorem sendOSC_eq (h : Sendable osc m) (hs : sendOSC osc m.address m.arg = some message) :
    message = setOSCString (cString m.address) ++
      setOSCString (ascii "," ++ (argsOf osc m.arg).map Arg.tag) ++
      (argsOf osc m.arg).flatMap Arg.bytes := by
  have hargs : processArgs osc m.arg ⟨[], ascii ","⟩ = some
      ⟨(argsOf osc m.arg).flatMap Arg.bytes, ascii "," ++ (argsOf osc m.arg).map Arg.tag⟩ :=
    processItems_eq h.regular (fun _ => rfl) (by simpa using h.fits.body)
  obtain ⟨e, he, hs⟩ := Option.bind_eq_some_iff.mp hs
  obtain rfl := Option.some.inj (hargs.symm.trans he)
  dsimp only at hs
  split_ifs at hs with hlen
  exact (Option.some.inj hs).symm

theorem Sendable.readable (h : Sendable osc m) : ∀ a ∈ argsOf osc m.arg, a.Readable := by
  intro a ha
  refine readable_argsOf h.regular ha (lt_of_le_of_lt ?_ (show tmpsize < 4096 by decide))
  exact (List.sublist_flatten_of_mem (List.mem_map_of_mem ha)).length_le.trans h.fits.body

theorem length_sendOSC_le (h : Sendable osc m) (hs : sendOSC osc m.address m.arg = some message) :
    message.length ≤ 2048 := by
  have hfit := h.fits.message
  have hcomma : (ascii ",").length = 1 := rfl
  rw [sendOSC_eq h hs]
  simp only [List.length_append, length_setOSCString, List.length_map, hcomma]
  rwa [Nat.add_comm 1]

/-- A string of a message is extracted. -/
theorem getOSCString_setOSCString {s : List UInt8} (hz : 0 ∉ s) (hlen : s.length < 4096)
    (hq : s.head? ≠ some quote) (h : Holds data (setOSCString s)) : ∃ out,
      escapeQuotes none s = some out ∧
      getOSCString data = some (out, (paddedLength s.length : ℤ)) ∧ oscChars data = s := by
  obtain ⟨out, hout⟩ := Option.ne_none_iff_exists'.mp (mt escapeQuotes_eq_none_iff.mp hq)
  have hchars := oscChars_setOSCString hz hlen h
  exact ⟨out, hout, by simp [getOSCString, hchars, hout], hchars⟩

theorem zero_notMem_cString (bytes : List UInt8) : 0 ∉ cString bytes := fun hz => by
  simpa using List.mem_takeWhile_imp hz

/-- The type tags of a message have neither terminators nor quotes in them. -/
theorem typetags_bytes (as : List Arg) :
    ∀ b ∈ ascii "," ++ as.map Arg.tag, b ≠ 0 ∧ b ≠ quote := by
  intro b hb
  rcases List.mem_append.mp hb with hb | hb
  · obtain rfl : b = 44 := by simpa [ascii] using hb
    decide
  · obtain ⟨a, -, rfl⟩ := List.mem_map.mp hb
    cases a <;> simp only [Arg.tag] <;> decide

theorem Sendable.readsBack_address (h : Sendable osc m) : ReadsBack (cString m.address) := by
  have hlen := h.fits.message
  simp only [paddedLength, tmpsize] at hlen
  exact (readsBack_iff (zero_notMem_cString _) (by omega)).mpr h.address

/-- The strings among the arguments get through the reader. -/
theorem Sendable.readsBack_args (h : Sendable osc m) {format : RealFormat} {s : List UInt8}
    (hs : .string s ∈ (argsOf osc m.arg).map (itemOfArg format)) : ReadsBack s := by
  obtain ⟨a, ha, has⟩ := List.mem_map.mp hs
  obtain rfl : a = .string s := by
    cases a <;> simp_all [itemOfArg]
  obtain ⟨hz, hlen, -⟩ := h.readable _ ha
  exact (readsBack_iff hz hlen.le).mpr (h.strings s ha)

/-- So do those in front of the arguments. -/
theorem readsBack_header {settings : Settings} {t : RealNum} {a netaddy s : List UInt8}
    {netport : ℕ} (ha : ReadsBack a) (hn : Dotted netaddy)
    (hs : .string s ∈ header settings t a netaddy netport) : ReadsBack s := by
  have hcases : s = a ∨ s = netaddy := by
    cases hm : settings.msgIncludeNetaddr <;> simp [header, hm] at hs <;> tauto
  rcases hcases with rfl | rfl
  · exact ha
  · exact hn.readsBack

/-- What a callback for messages does with one: a task with the call. -/
theorem sendSchemeCall_message (h : Sendable osc m) (settings : Settings) (t : RealNum)
    {address netaddy : List UInt8} (netport : ℕ)
    (ha : escapeQuotes none (cString m.address) = some address) (hn : Dotted netaddy)
    (hbody : Holds data ((argsOf osc m.arg).flatMap Arg.bytes)) : ∃ pos text,
      sendSchemeCall settings t address (ascii "," ++ (argsOf osc m.arg).map Arg.tag) netaddy
        netport data = .sent pos text ∧
      ReadsAs text (.list ([.atom settings.fname, .atom (settings.format.toText t),
        .string (cString m.address)] ++ senderData settings netaddy netport ++
        dataOf osc settings.format m.arg)) := by
  have haddress := h.readsBack_address
  have hitems : items settings.format data ((argsOf osc m.arg).map Arg.tag) 0 =
      (argsOf osc m.arg).map (itemOfArg settings.format) :=
    items_tags h.readable (by rwa [at_zero])
  have hstrings : ∀ s, .string s ∈ items settings.format data
      ((argsOf osc m.arg).map Arg.tag) 0 → ReadsBack s := fun s hs =>
    h.readsBack_args (hitems ▸ hs)
  have hnest : nest [] [] (items settings.format data ((argsOf osc m.arg).map Arg.tag) 0) =
      some (dataOf osc settings.format m.arg) := by
    have hargs := @nest_argsOf osc settings.format [] [] [] m.arg
    simpa [hitems, nest] using hargs
  have hall : ∀ s, .string s ∈ header settings t (cString m.address) netaddy netport ++
      items settings.format data ((argsOf osc m.arg).map Arg.tag) 0 → ReadsBack s := fun s hs =>
    (List.mem_append.mp hs).elim (readsBack_header haddress hn) (hstrings s)
  obtain ⟨body, hbody⟩ := itemsText_isSome hall
  have hsup := supported_tags (argsOf osc m.arg)
  obtain ⟨pos, hsent⟩ : ∃ pos, sendSchemeCall settings t address
      (ascii "," ++ (argsOf osc m.arg).map Arg.tag) netaddy netport data =
        .sent pos (ascii "(" ++ (settings.fname ++ (body ++ ascii ")"))) :=
    (sendSchemeCall_sent_iff ha hn).mpr ⟨hsup, body, hbody, rfl⟩
  have hshape : WellShaped settings t (cString m.address) (senderData settings netaddy netport)
      (items settings.format data ((argsOf osc m.arg).map Arg.tag) 0)
      (sendSchemeCall settings t address (ascii "," ++ (argsOf osc m.arg).map Arg.tag) netaddy
        netport data) :=
    sendSchemeCall_wellShaped ha haddress hn hstrings fun hsup =>
      (nest_isSome_iff hsup [] []).mp (Option.isSome_iff_exists.mpr ⟨_, hnest⟩)
  obtain ⟨ds, hds, hreads⟩ := hshape pos _ hsent
  obtain rfl := Option.some.inj (hnest.symm.trans hds)
  exact ⟨pos, _, hsent, hreads⟩

/-- A message anywhere in the memory is taken and makes its call. -/
theorem take_message (h : Sendable osc m) (hs : sendOSC osc m.address m.arg = some message)
    (hnative : server.nativeOSC = false) (hn : Dotted p.netaddy) (pos : ℤ)
    (hold : Holds (data.at pos) message) : ∃ address n typetags k,
      getOSCString (data.at pos) = some (address, n) ∧ isBundle address = false ∧
      getOSCString (data.at (pos + n)) = some (typetags, k) ∧
      ∀ t length, ∃ c, take server p data t address typetags (pos + n + k) length = .called c ∧
        Makes (callOf server osc p t m) c := by
  have hlen := length_sendOSC_le h hs
  rw [sendOSC_eq h hs] at hold hlen
  generalize htags : ascii "," ++ (argsOf osc m.arg).map Arg.tag = typetags at hold hlen
  obtain ⟨hold, hbody⟩ := holds_append.mp hold
  obtain ⟨haddress, htypetags⟩ := holds_append.mp hold
  simp only [List.length_append, length_setOSCString, paddedLength] at hlen
  rw [at_at, length_setOSCString] at htypetags
  rw [at_at, List.length_append, length_setOSCString, length_setOSCString, Nat.cast_add,
    ← add_assoc] at hbody
  obtain ⟨address, hesc, hget, -⟩ :=
    getOSCString_setOSCString (zero_notMem_cString _) (by omega) h.address.head haddress
  have hbytes := typetags_bytes (argsOf osc m.arg)
  rw [htags] at hbytes
  have hq : quote ∉ typetags := fun hm => (hbytes _ hm).2 rfl
  obtain ⟨out, hout, hgettags, -⟩ := getOSCString_setOSCString (fun hm => (hbytes _ hm).1 rfl)
    (by omega) (fun hm => hq (List.mem_of_head? hm)) htypetags
  obtain rfl : typetags = out :=
    Option.some.inj ((escapeQuotes_of_notMem hq none).symm.trans hout)
  refine ⟨address, _, typetags, _, hget, isBundle_escaped h.address h.notBundle hesc, hgettags,
    fun t length => ?_⟩
  subst htags
  rw [take, hnative]
  simp only [Bool.false_eq_true, if_false]
  cases ht : server.transport with
  | udp =>
    obtain ⟨k, text, hsent, hreads⟩ := sendSchemeCall_message h server.osc t p.netport
      hesc hn hbody
    rw [hsent]
    exact ⟨.task text, rfl, text, rfl, by simpa [callOf, sender, ht] using hreads⟩
  | tcp =>
    obtain ⟨k, text, hsent, hreads⟩ := sendSchemeCall_message h
      { server.osc with msgIncludeNetaddr := false } t p.netport hesc hn hbody
    rw [sendSchemeProcessCall_eq _ _ _ _ p.netaddy p.netport, hsent]
    exact ⟨.task text, rfl, text, rfl, by simpa [callOf, sender, ht, senderData] using hreads⟩

/-! ## Datagrams -/

/-- The loop over the elements of a bundle makes the calls of its messages. The induction is on
the messages; the size before each of them leads to the next one. -/
theorem bundleLoop_elements (hnative : server.nativeOSC = false) (hn : Dotted p.netaddy)
    (t : RealNum) {ms : List Message} {messages : List (List UInt8)}
    (hms : ∀ m ∈ ms, Sendable osc m)
    (hs : List.Forall₂ (fun m message => sendOSC osc m.address m.arg = some message) ms messages)
    {pos length : ℤ} (hold : Holds (data.at pos) (messages.flatMap element))
    (hlength : length = pos + (messages.flatMap element).length) {fuel : ℕ}
    (hfuel : ms.length ≤ fuel) (before : List Call) : ∃ calls,
      bundleLoop (take server p data t) data length fuel pos before =
        some (.finished (before ++ calls)) ∧
      List.Forall₂ Makes (ms.map (callOf server osc p t)) calls := by
  induction hs generalizing pos fuel before with
  | nil =>
    refine ⟨[], ?_, .nil⟩
    obtain rfl : length = pos := by simpa using hlength
    cases fuel <;> simp [bundleLoop]
  | @cons m message ms messages hm hs ih =>
    obtain ⟨fuel, rfl⟩ : ∃ k, fuel = k + 1 := ⟨fuel - 1, by simp at hfuel; omega⟩
    have hgood := hms m (by simp)
    have hlen := length_sendOSC_le hgood hm
    rw [List.flatMap_cons, element] at hold hlength
    obtain ⟨helement, hrest⟩ := holds_append.mp hold
    obtain ⟨hsize, hmessage⟩ := holds_append.mp helement
    simp only [List.length_append, BigEndian.length_encode, at_at] at hlength hmessage hrest
    have hget : getOSCInt (data.at pos) = message.length := by
      have hmod : ((message.length : ℤ) % 2 ^ 32).toNat = message.length := by omega
      rw [getOSCInt_eq (n := message.length) (by rwa [hmod]), Int.bmod_eq_of_le] <;> omega
    obtain ⟨address, n, typetags, k, haddress, hbundle, htags, htake⟩ :=
      take_message hgood hm hnative hn _ hmessage
    obtain ⟨c, htake, hmakes⟩ := htake t (message.length - (n + k))
    obtain ⟨calls, hloop, hcalls⟩ := ih (fun m' hm' => hms m' (by simp [hm'])) hrest
      (by push_cast at hlength ⊢; omega) (by simpa using hfuel) (before ++ [c])
    refine ⟨c :: calls, ?_, .cons hmakes hcalls⟩
    have hlt : pos < length := by
      rw [hlength]
      push_cast
      omega
    have hnext : pos + 4 + n + k + (message.length - (n + k)) = pos + (4 + message.length : ℕ) := by
      push_cast
      ring
    push_cast at haddress htags htake
    simp only [bundleLoop, hlt, if_true, haddress, hbundle, Bool.false_eq_true, if_false, htags,
      hget, htake, hnext, hloop]
    simp

theorem getOSCString_bundle (h : Holds data (setOSCString (ascii "#bundle"))) :
    getOSCString data = some (ascii "#bundle", 8) := by
  obtain ⟨address, hesc, hget, -⟩ :=
    getOSCString_setOSCString (by decide) (by decide) (by decide) h
  obtain rfl : ascii "#bundle" = address :=
    Option.some.inj ((escapeQuotes_of_notMem (by decide) none).symm.trans hesc)
  exact hget

theorem getOSCTimestamp_encode {seconds fraction : UInt32}
    (hseconds : Holds data (BigEndian.encode 4 seconds.toNat))
    (hfraction : Holds (data.at 4) (BigEndian.encode 4 fraction.toNat)) :
    getOSCTimestamp data = .timestamp seconds.toNat fraction.toNat := by
  rw [getOSCTimestamp, bytesValue_encode hseconds seconds.toNat_lt,
    bytesValue_encode hfraction fraction.toNat_lt]

/-- Whatever else is in memory, a datagram makes the calls of its messages. -/
theorem handle_datagram (hnative : server.nativeOSC = false) (hn : Dotted p.netaddy) {d : Datagram}
    {bytes : List UInt8} (hd : Carries osc bytes d) (hms : ∀ m ∈ d.messages, Sendable osc m)
    (hold : Holds data bytes) {fuel : ℕ} (hfuel : d.messages.length ≤ fuel) : ∃ calls,
      handle (take server p data) data bytes.length fuel = some (.finished calls) ∧
      List.Forall₂ Makes (callsOf server osc d p) calls := by
  cases d with
  | message m =>
    obtain ⟨address, n, typetags, k, haddress, hbundle, htags, htake⟩ :=
      take_message (hms m (by simp [Datagram.messages])) hd hnative hn 0 (by rwa [at_zero])
    obtain ⟨c, htake, hmakes⟩ := htake .zero (bytes.length - (n + k))
    rw [at_zero] at haddress
    rw [zero_add] at htags htake
    refine ⟨[c], ?_, .cons hmakes .nil⟩
    simp only [handle, haddress, hbundle, Bool.false_eq_true, if_false, htags, htake]
  | bundle seconds fraction ms =>
    obtain ⟨messages, hs, rfl⟩ := hd
    have hlength : (setOSCString (ascii "#bundle")).length = 8 := rfl
    obtain ⟨hold, helements⟩ := holds_append.mp hold
    obtain ⟨hold, hfraction⟩ := holds_append.mp hold
    obtain ⟨haddress, hseconds⟩ := holds_append.mp hold
    simp only [List.length_append, hlength, BigEndian.length_encode] at helements hfraction hseconds
    have hget := getOSCString_bundle haddress
    have htime : getOSCTimestamp (data.at 8) = Datagram.time (.bundle seconds fraction ms) :=
      getOSCTimestamp_encode hseconds (by rw [at_at]; exact hfraction)
    obtain ⟨calls, hloop, hcalls⟩ := bundleLoop_elements (p := p) hnative hn
      (Datagram.time (.bundle seconds fraction ms)) hms hs
      (show Holds (data.at 16) _ from helements) rfl hfuel []
    refine ⟨calls, ?_, hcalls⟩
    have hbundle : isBundle (ascii "#bundle") = true := by decide
    simp only [handle, hget, hbundle, if_true, htime, List.length_append, hlength,
      BigEndian.length_encode] at hloop ⊢
    push_cast at hloop ⊢
    simpa using hloop

theorem holds_overwrite (memory : Bytes) (bytes : List UInt8) :
    Holds (overwrite memory bytes) bytes := by
  intro i hi
  rw [overwrite, if_pos ⟨by omega, by exact_mod_cast hi⟩]
  simp [hi]

theorem length_pos_of_carries {d : Datagram} {bytes : List UInt8} (hd : Carries osc bytes d) :
    0 < bytes.length := by
  cases d with
  | message m =>
    obtain ⟨e, -, hs⟩ := Option.bind_eq_some_iff.mp hd
    dsimp only at hs
    split_ifs at hs
    obtain rfl := Option.some.inj hs
    simp only [List.length_append, length_setOSCString, paddedLength]
    omega
  | bundle seconds fraction ms =>
    obtain ⟨messages, -, rfl⟩ := hd
    simp only [List.length_append, length_setOSCString, paddedLength]
    omega

/-- One datagram is received: the calls are those of its messages, in their order. -/
theorem receive_datagram {r : Receiver} (hr : r.status = .ready) (hnative : server.nativeOSC = false)
    (hudp : server.nativeUDP = false) (hn : Dotted p.netaddy) {d : Datagram}
    (hd : Carries osc p.bytes d) (hms : ∀ m ∈ d.messages, Sendable osc m) {fuel : ℕ}
    (hfuel : d.messages.length ≤ fuel) : ∃ r' calls,
      receive server fuel r p = some r' ∧ r'.status = .ready ∧ r'.calls = r.calls ++ calls ∧
      List.Forall₂ Makes (callsOf server osc d p) calls := by
  have hold : Holds (server.view r.memory p) p.bytes := by
    rw [Server.view]
    cases server.transport <;> exact holds_overwrite _ _
  obtain ⟨calls, hhandle, hcalls⟩ := handle_datagram (p := p) hnative hn hd hms hold hfuel
  rw [receive, if_pos hr]
  cases ht : server.transport with
  | udp =>
    simp only [oscMesgCallback, hudp, Bool.false_eq_true, if_false, hhandle, Option.map_some]
    exact ⟨_, calls, rfl, rfl, rfl, hcalls⟩
  | tcp =>
    simp only [processOscData, length_pos_of_carries hd, if_true, hhandle, Option.map_some]
    exact ⟨_, calls, rfl, rfl, rfl, hcalls⟩

end

/-- `/a` with the list `(7 ("a"))`. -/
def nestedMessage : Message :=
  ⟨ascii "/a", .pair (.integer 7) (.pair (.pair (.string (ascii "a")) .nil) .nil)⟩

/-- `/b` without arguments. -/
def plainMessage : Message := ⟨ascii "/b", .nil⟩

end Extempore.OscRoundTrip
