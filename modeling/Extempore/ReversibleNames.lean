import Extempore.NameDemangling

/-!
# Which names are reversible

`cname_decode` gives back the text of `cname_encode` for the names whose second and third octets
of each group are below 128, and `base64_decode` gives back every input, as long as the counters
do not wrap around. Two names of such a length are never mangled to the same symbol.
-/

namespace Extempore.NameMangling

open SchemeReader WhileLoops

variable {data data' : List UInt8} {octet : UInt8 → ℕ} {table : List UInt8} {pad fill : UInt8}
  {b : Buffer} {mem mem' : ℕ → UInt8} {rest : UInt8 → ℕ}

/-- What `malloc` left in the encoded text, the decoding table and the decoded text. -/
structure Malloc where
  encoded : ℕ → UInt8
  table : UInt8 → ℕ
  decoded : ℕ → UInt8

/-- `cname_decode` of the NUL-terminated text of `cname_encode` is the name, with its length. -/
def CnameRoundTrip (m : Malloc) (name : List UInt8) : Prop :=
  ∃ fuel b fuel' d, cnameEncode fuel m.encoded name = some b ∧
    cnameDecode fuel' m.table m.decoded b.text = some d ∧ d.data = name

/-- `base64_decode` of what `base64_encode` returns is the input, with its length. -/
def Base64RoundTrip (m : Malloc) (data : List UInt8) : Prop :=
  ∃ fuel b fuel' d, base64Encode fuel m.encoded data = some b ∧
    base64Decode fuel' m.table m.decoded b.data = some (some d) ∧ d.data = data

/-- Both names are mangled, to the same text. -/
def SameSymbol (m : Malloc) (name : List UInt8) (m' : Malloc) (name' : List UInt8) : Prop :=
  ∃ fuel b fuel' b', cnameEncode fuel m.encoded name = some b ∧
    cnameEncode fuel' m'.encoded name' = some b' ∧ b.text = b'.text

/-- A name that comes back and shares its symbol with no other name, and that comes back as
a byte string. -/
def Reversible (m : Malloc) (name : List UInt8) : Prop :=
  (0 ∉ name → CnameRoundTrip m name ∧
    ∀ m' name', name' ≠ [] → 0 ∉ name' → SameSymbol m name m' name' → name = name') ∧
  Base64RoundTrip m name

/-- The longest input for which the counters do not wrap around. -/
def maxLength : ℕ := 3 * (2 ^ 30 - 1)

theorem encodedLength_lt_iff : encodedLength data.length < 2 ^ 32 ↔ data.length ≤ maxLength := by
  rw [encodedLength, maxLength]
  omega

/-! ## The text of the encoder -/

/-- The text of `cname_encode` has the characters that stand for octets. -/
theorem text_of_encodes (htable : IsAlphabet table pad)
    (hlen : encodedLength data.length ≤ 2 ^ 32) (h : Encodes octet table 0 mem data b) :
    b.text = (List.range (keptLength data.length)).map (charAt octet table data) := by
  obtain ⟨b', hb', hlength, hbytes⟩ := exists_encodes octet table 0 mem hlen
  obtain rfl := h.unique hb'
  have hkept : keptLength data.length ≤ encodedLength data.length := Nat.sub_le _ _
  rw [text_eq (n := keptLength data.length) (hlength ▸ hkept)]
  · apply List.map_congr_left
    intro p hp
    rw [hbytes, if_pos (List.mem_range.mp hp)]
  · intro p hp
    rw [hbytes, if_pos hp]
    exact fun h => htable.zero_notMem (h ▸ charAt_mem htable)
  · rw [hbytes, if_neg (lt_irrefl _)]
    split
    · rfl
    · rw [if_pos (by omega)]

theorem encodeRound_i_lt {s : Cursor} (hs : s.i < 2 ^ 32) :
    (encodeRound octet table data s).i < 2 ^ 32 := by
  have hnext : ∀ i < 2 ^ 32, (nextOctet octet data i).2 < 2 ^ 32 := by
    intro i hi
    rw [nextOctet]
    split
    · exact bump_lt i
    · exact hi
  simp only [encodeRound, put_i]
  exact hnext _ (hnext _ (hnext _ hs))

/-- On `2 ^ 32` octets and more the counter of the encoder never reaches the end. -/
theorem length_lt_of_encodes (h : Encodes octet table fill mem data b) :
    data.length < 2 ^ 32 := by
  obtain ⟨s, hs, -⟩ := encodes_iff.mp h
  by_contra hge
  refine not_ends (I := fun s => s.i < 2 ^ 32) ?_ (fun s => encodeRound_i_lt) ?_ hs
  · intro s hi
    rw [decide_eq_true_iff]
    omega
  · exact Nat.two_pow_pos 32

/-- A name that makes the counters wrap around has a long text, whatever it is. -/
theorem le_length_text_of_encodes (htable : IsAlphabet table pad)
    (hlen : 2 ^ 32 < encodedLength data.length) (h : Encodes octet table 0 mem data b) :
    2 ^ 32 ≤ b.text.length := by
  obtain ⟨s, hs, hb⟩ := encodes_iff.mp h
  obtain ⟨s', hs', hencoded⟩ := encode_ends octet table
    (Function.update mem (encodedLength data.length) 0) (length_lt_of_encodes h)
  obtain rfl := hs.unique hs'
  subst hb
  apply le_length_text
  · exact Nat.le_of_lt hlen
  · intro p hp
    have hmod := base64ModTable_eq data.length
    simp only [fillEnd_apply]
    rw [if_neg (by rw [keptLength, hmod]; rw [encodedLength] at hlen ⊢; omega)]
    obtain ⟨q, hq⟩ := hencoded.isChar p
      (lt_trans hp (show 2 ^ 32 < 4 * ((data.length + 2) / 3) from hlen)) hp
    rw [hq]
    exact fun h => htable.zero_notMem (h ▸ charAt_mem htable)

theorem map_range_add {α : Type*} (f g : ℕ → α) (n m : ℕ) :
    ((List.range (n + m)).map fun p => if p < n then f p else g p) =
      (List.range n).map f ++ (List.range m).map fun p => g (n + p) := by
  rw [List.range_add, List.map_append, List.map_map]
  congr 1
  · apply List.map_congr_left
    intro p hp
    rw [if_pos (List.mem_range.mp hp)]
  · apply List.map_congr_left
    intro p _
    exact if_neg (by simp)

/-- `cname_decode` puts back the padding that `cname_encode` cut off. -/
theorem padded_text (htable : IsAlphabet table pad) (hlen : encodedLength data.length ≤ 2 ^ 32)
    (h : Encodes octet table 0 mem data b) :
    padded b.text = paddedText octet table 36 data := by
  have hmod := base64ModTable_eq data.length
  have hkept : keptLength data.length + base64ModTable (data.length % 3) =
      encodedLength data.length := by
    rw [keptLength, hmod, encodedLength]
    omega
  rw [text_of_encodes htable hlen h, paddedText, ← hkept,
    map_range_add (charAt octet table data) (fun _ => 36), padded]
  simp only [List.length_map, List.length_range, List.map_const', ne_eq]
  have hfour : keptLength data.length % 4 = 0 ∧ base64ModTable (data.length % 3) = 0 ∨
      keptLength data.length % 4 ≠ 0 ∧
        4 - keptLength data.length % 4 = base64ModTable (data.length % 3) := by
    rw [keptLength, hmod, encodedLength]
    omega
  rcases hfour with ⟨hzero, hnone⟩|⟨hne, hcut⟩
  · rw [if_neg (by simp [hzero]), hnone]
    simp
  · rw [if_pos hne, hcut]

theorem le_length_padded (text : List UInt8) : text.length ≤ (padded text).length := by
  rw [padded]
  split <;> simp

/-- `base64_encode` pads the text itself. -/
theorem data_of_encodes (hlen : encodedLength data.length ≤ 2 ^ 32)
    (h : Encodes octet table pad mem data b) : b.data = paddedText octet table pad data := by
  obtain ⟨b', hb', hlength, hbytes⟩ := exists_encodes octet table pad mem hlen
  obtain rfl := h.unique hb'
  rw [Buffer.data, hlength]
  apply List.map_congr_left
  intro p hp
  rw [hbytes]
  split
  · rfl
  · rw [if_pos (List.mem_range.mp hp)]

theorem length_of_encodes (h : Encodes octet table fill mem data b) :
    b.length = encodedLength data.length := by
  obtain ⟨s, -, rfl⟩ := encodes_iff.mp h
  rfl

/-! ## The bytes that come back -/

theorem map_decodedOctet_eq_iff :
    (List.range data.length).map (decodedOctet octet data) = data ↔
      ∀ p (h : p < data.length), decodedOctet octet data p = data[p] := by
  rw [List.ext_getElem_iff]
  simp

/-- Octets without a sign come back. -/
theorem decodedOctet_unsignedCharOctet {p : ℕ} (hp : p < data.length) :
    decodedOctet unsignedCharOctet data p = data[p] := by
  have hlt : ∀ m, octetAt unsignedCharOctet data m < 256 := by
    intro m
    rw [octetAt]
    split
    · exact UInt8.toNat_lt _
    · decide
  obtain ⟨k, r, hr, rfl⟩ : ∃ k r, r < 3 ∧ p = 3 * k + r := ⟨p / 3, p % 3, by omega, by omega⟩
  have hA := hlt (3 * k)
  have hB := hlt (3 * k + 1)
  have hC := hlt (3 * k + 2)
  have hbyte : data[3 * k + r].toNat = octetAt unsignedCharOctet data (3 * k + r) :=
    (octetAt_of_lt hp).symm
  rw [decodedOctet_eq r hr, toNat_eq_iff (Nat.mod_lt _ (by decide)), tripleAt_eq, hbyte]
  have hthree : r = 0 ∨ r = 1 ∨ r = 2 := by omega
  clear hbyte
  rcases hthree with rfl|rfl|rfl
  · simp only [Nat.add_zero]
    omega
  · omega
  · omega

/-- A name comes back iff none of the octets that stand behind another one in their group is
negative. -/
theorem map_decodedOctet_charOctet (hzero : 0 ∉ data) :
    (List.range data.length).map (decodedOctet charOctet data) = data ↔
      ∀ i (h : i < data.length), i % 3 ≠ 0 → data[i].toNat < 128 := by
  rw [map_decodedOctet_eq_iff]
  constructor
  · intro hall i h hi
    have hcases : (∃ k, i = 3 * k + 1) ∨ ∃ k, i = 3 * k + 2 := by
      have hmod : i % 3 = 1 ∨ i % 3 = 2 := by omega
      cases hmod with
      | inl hone => exact .inl ⟨i / 3, by omega⟩
      | inr htwo => exact .inr ⟨i / 3, by omega⟩
    rcases hcases with ⟨k, rfl⟩|⟨k, rfl⟩
    · exact (decodedOctet_first hzero (by omega)).mp (hall (3 * k) (by omega)) h
    · exact (decodedOctet_middle (by omega)).mp (hall (3 * k + 1) (by omega)) h
  · intro hall p hp
    obtain ⟨k, r, hr, rfl⟩ : ∃ k r, r < 3 ∧ p = 3 * k + r := ⟨p / 3, p % 3, by omega, by omega⟩
    have hthree : r = 0 ∨ r = 1 ∨ r = 2 := by omega
    rcases hthree with rfl|rfl|rfl
    · exact (decodedOctet_first hzero hp).mpr fun h => hall (3 * k + 1) h (by omega)
    · exact (decodedOctet_middle hp).mpr fun h => hall (3 * k + 2) h (by omega)
    · exact decodedOctet_last hp

/-! ## Different names -/

/-- The octets of two texts of one length agree where their low eight bits do. -/
theorem octetAt_charOctet_inj (hlength : data.length = data'.length) {m : ℕ}
    (h : octetAt charOctet data m % 256 = octetAt charOctet data' m % 256) :
    octetAt charOctet data m = octetAt charOctet data' m ∧
      ∀ (hm : m < data.length) (hm' : m < data'.length), data[m] = data'[m] := by
  by_cases hm : m < data.length
  · have hm' : m < data'.length := hlength ▸ hm
    rw [octetAt_of_lt hm, octetAt_of_lt hm', charOctet_mod, charOctet_mod] at h
    have heq : data[m] = data'[m] := UInt8.toNat_inj.mp h
    exact ⟨by rw [octetAt_of_lt hm, octetAt_of_lt hm', heq], fun _ _ => heq⟩
  · rw [octetAt_of_le (by omega), octetAt_of_le (by omega)]
    exact ⟨rfl, fun h => absurd h hm⟩

/-- Names whose sextets agree are the same: the octets of a group are known from the last to
the first. -/
theorem eq_of_sextetAt (hlength : data.length = data'.length)
    (h : ∀ p < encodedLength data.length,
      sextetAt charOctet data p = sextetAt charOctet data' p) : data = data' := by
  have hgroup : ∀ k, 3 * k < data.length → ∀ r < 3,
      ∀ (hp : 3 * k + r < data.length) (hp' : 3 * k + r < data'.length),
        data[3 * k + r] = data'[3 * k + r] := by
    intro k hk
    have hsextet : ∀ r < 4, sextetAt charOctet data (4 * k + r) =
        sextetAt charOctet data' (4 * k + r) := by
      intro r hr
      apply h
      rw [encodedLength]
      omega
    have h0 := hsextet 0 (by decide)
    have h1 := hsextet 1 (by decide)
    have h2 := hsextet 2 (by decide)
    have h3 := hsextet 3 (by decide)
    rw [sextetAt_eq _ (by decide), sextetAt_eq _ (by decide), tripleAt_eq, tripleAt_eq]
      at h0 h1 h2 h3
    obtain ⟨hC, hlast⟩ := octetAt_charOctet_inj (m := 3 * k + 2) hlength (by omega)
    obtain ⟨hB, hmiddle⟩ := octetAt_charOctet_inj (m := 3 * k + 1) hlength (by omega)
    obtain ⟨-, hfirst⟩ := octetAt_charOctet_inj (m := 3 * k) hlength (by omega)
    intro r hr
    have hthree : r = 0 ∨ r = 1 ∨ r = 2 := by omega
    rcases hthree with rfl|rfl|rfl
    · exact hfirst
    · exact hmiddle
    · exact hlast
  apply List.ext_getElem hlength
  intro p hp hp'
  obtain ⟨k, r, hr, rfl⟩ : ∃ k r, r < 3 ∧ p = 3 * k + r := ⟨p / 3, p % 3, by omega, by omega⟩
  exact hgroup k (by omega) r hr hp hp'

theorem keptLength_injective {n n' : ℕ} (h : keptLength n = keptLength n') : n = n' := by
  rw [keptLength, keptLength, base64ModTable_eq, base64ModTable_eq, encodedLength,
    encodedLength] at h
  omega

/-- The symbol of a name whose text does not wrap around is its own. -/
theorem eq_of_text_eq {b' : Buffer}
    (hlen : encodedLength data.length < 2 ^ 32)
    (h : Encodes charOctet base64CodesafeEncodingTable 0 mem data b)
    (h' : Encodes charOctet base64CodesafeEncodingTable 0 mem' data' b')
    (htext : b.text = b'.text) : data = data' := by
  have htable := isAlphabet_codesafe
  have hb := text_of_encodes htable (Nat.le_of_lt hlen) h
  have hlength := congrArg List.length hb
  rw [List.length_map, List.length_range] at hlength
  have hkept : keptLength data.length ≤ encodedLength data.length := Nat.sub_le _ _
  have hlen' : encodedLength data'.length ≤ 2 ^ 32 := by
    by_contra hlong
    have hge := le_length_text_of_encodes htable (not_le.mp hlong) h'
    rw [← htext] at hge
    omega
  have hb' := text_of_encodes htable hlen' h'
  rw [hb, hb'] at htext
  have hkept' := congrArg List.length htext
  simp only [List.length_map, List.length_range] at hkept'
  have heq := keptLength_injective hkept'
  apply eq_of_sextetAt heq
  intro p hp
  by_cases hlt : p < keptLength data.length
  · rw [← heq] at htext
    have hchar := List.map_inj_left.mp htext p (List.mem_range.mpr hlt)
    exact getD_injective htable sextetAt_lt sextetAt_lt hchar
  · rw [sextetAt_of_kept (not_lt.mp hlt) hp,
      sextetAt_of_kept (heq ▸ not_lt.mp hlt) (heq ▸ hp)]

/-! ## The round trips -/

variable {m : Malloc} {name : List UInt8}

theorem le_length_padded_text (htable : IsAlphabet table pad)
    (h : Encodes octet table 0 mem data b) (hlong : ¬ encodedLength data.length < 2 ^ 32) :
    2 ^ 32 ≤ (padded b.text).length := by
  by_cases hlen : encodedLength data.length ≤ 2 ^ 32
  · rw [padded_text htable hlen h, length_paddedText]
    exact not_lt.mp hlong
  · exact Nat.le_trans (le_length_text_of_encodes htable (not_le.mp hlen) h) (le_length_padded _)

/-- A name comes back iff its text is short enough and what comes back of each group is it. -/
theorem cnameRoundTrip_iff (hne : name ≠ []) :
    CnameRoundTrip m name ↔ encodedLength name.length < 2 ^ 32 ∧
      (List.range name.length).map (decodedOctet charOctet name) = name := by
  have htable := isAlphabet_codesafe
  constructor
  · rintro ⟨fuel, b, fuel', d, hb, hd, hdata⟩
    have hencodes : Encodes charOctet base64CodesafeEncodingTable 0 m.encoded name b :=
      ⟨fuel, hb⟩
    have hdecodes : Decodes base64CodesafeEncodingTable 36 m.table
        (Function.update m.decoded (decodedLength 36 (padded b.text)) 0) (padded b.text) d :=
      ⟨fuel', hd⟩
    have hlen : encodedLength name.length < 2 ^ 32 := by
      by_contra hlong
      exact absurd (length_lt_of_decodes hdecodes)
        (not_lt.mpr (le_length_padded_text htable hencodes hlong))
    refine ⟨hlen, ?_⟩
    rw [padded_text htable (Nat.le_of_lt hlen) hencodes] at hdecodes
    obtain ⟨d', hdecodes', hdata'⟩ := exists_decodes charOctet m.table _ htable hne hlen
    rw [← hdata', ← hdecodes.unique hdecodes', hdata]
  · rintro ⟨hlen, hdata⟩
    obtain ⟨b, ⟨fuel, hb⟩, -⟩ := exists_encodes charOctet base64CodesafeEncodingTable 0 m.encoded
      (Nat.le_of_lt hlen)
    have hpadded := padded_text htable (Nat.le_of_lt hlen) ⟨fuel, hb⟩
    obtain ⟨d, ⟨fuel', hd⟩, hdata'⟩ := exists_decodes charOctet m.table
      (Function.update m.decoded (decodedLength 36 (padded b.text)) 0) htable hne hlen
    refine ⟨fuel, b, fuel', d, hb, ?_, hdata'.trans hdata⟩
    rw [cnameDecode, hpadded, ← hpadded]
    rw [← hpadded] at hd
    exact hd

/-- A byte string comes back iff its text is short enough. -/
theorem base64RoundTrip_iff (hne : data ≠ []) :
    Base64RoundTrip m data ↔ encodedLength data.length < 2 ^ 32 := by
  have htable := isAlphabet_std
  have hfour : encodedLength data.length % 4 = 0 := Nat.mul_mod_right _ _
  constructor
  · rintro ⟨fuel, b, fuel', d, hb, hd, -⟩
    have hlength : b.data.length = encodedLength data.length := by
      rw [Buffer.data, List.length_map, List.length_range, length_of_encodes ⟨fuel, hb⟩]
    rw [base64Decode, hlength, if_neg (by simp [hfour])] at hd
    obtain ⟨d', hd', -⟩ := Option.map_eq_some_iff.mp hd
    exact hlength ▸ length_lt_of_decodes ⟨fuel', hd'⟩
  · intro hlen
    obtain ⟨b, ⟨fuel, hb⟩, -⟩ := exists_encodes unsignedCharOctet base64StdEncodingTable 61
      m.encoded (Nat.le_of_lt hlen)
    have htext := data_of_encodes (Nat.le_of_lt hlen) ⟨fuel, hb⟩
    obtain ⟨d, ⟨fuel', hd⟩, hdata⟩ := exists_decodes unsignedCharOctet m.table m.decoded htable
      hne hlen
    refine ⟨fuel, b, fuel', d, hb, ?_, hdata.trans ?_⟩
    · rw [base64Decode, htext, length_paddedText, if_neg (by simp [hfour]), hd, Option.map_some]
    · exact map_decodedOctet_eq_iff.mpr fun p => decodedOctet_unsignedCharOctet

theorem eq_of_sameSymbol {m' : Malloc} {name' : List UInt8} (hlen : name.length ≤ maxLength)
    (h : SameSymbol m name m' name') : name = name' := by
  obtain ⟨fuel, b, fuel', b', hb, hb', htext⟩ := h
  exact eq_of_text_eq (encodedLength_lt_iff.mpr hlen) ⟨fuel, hb⟩ ⟨fuel', hb'⟩ htext

/-- A name is reversible iff the counters do not wrap around and, where it has no NUL, no octet
that stands behind another one in its group is negative. No name for which the counters do not
wrap around has the symbol of another name. -/
theorem reversible_iff (hne : name ≠ []) :
    (Reversible m name ↔ name.length ≤ maxLength ∧
      (0 ∉ name → ∀ i (h : i < name.length), i % 3 ≠ 0 → name[i].toNat < 128)) ∧
    (name.length ≤ maxLength → ∀ m' name', SameSymbol m name m' name' → name = name') := by
  refine ⟨?_, fun hlen m' name' => eq_of_sameSymbol hlen⟩
  rw [Reversible, base64RoundTrip_iff hne, encodedLength_lt_iff]
  constructor
  · rintro ⟨hname, hlen⟩
    refine ⟨hlen, ?_⟩
    intro hzero
    exact (map_decodedOctet_charOctet hzero).mp ((cnameRoundTrip_iff hne).mp (hname hzero).1).2
  · rintro ⟨hlen, hname⟩
    refine ⟨?_, hlen⟩
    intro hzero
    have hround := (cnameRoundTrip_iff (m := m) hne).mpr
      ⟨encodedLength_lt_iff.mpr hlen, (map_decodedOctet_charOctet hzero).mpr (hname hzero)⟩
    exact ⟨hround, fun m' name' _ _ => eq_of_sameSymbol hlen⟩

def zeroed : Malloc := ⟨fun _ => 0, fun _ => 0, fun _ => 0⟩

/-- The first byte of a group may be above 127. -/
theorem reversible_iff_bytes : Reversible zeroed [97, 98, 99, 233] :=
  (reversible_iff (by decide)).1.mpr ⟨by decide, by decide⟩

/-- The UTF-8 text of "aé". -/
theorem not_reversible : ¬ Reversible zeroed [97, 195, 169] := by
  intro h
  have hround := (cnameRoundTrip_iff (by decide)).mp (h.1 (by decide)).1
  have hnonneg := (map_decodedOctet_charOctet (by decide)).mp hround.2
  exact absurd (hnonneg 1 (by decide) (by decide)) (by decide)

end Extempore.NameMangling
