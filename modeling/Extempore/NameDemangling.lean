import Extempore.NameMangling
import Mathlib.Data.List.Nodup

/-!
# Names that come back

The decoder, and what it makes of the text of the encoder. The sextets that are decoded are
those that were encoded, so what comes back of a group is the low 24 bits of the sum of its
octets. The sum borrows from an octet when the one behind it was extended with its sign.
-/

namespace Extempore.NameMangling

open SchemeReader WhileLoops

/-! ## One round of the decoder -/

section Decoding

variable {table : List UInt8} {pad : UInt8} {rest : UInt8 → ℕ} {data : List UInt8}
  {n k : ℕ} {s : Cursor} {mem : ℕ → UInt8}

/-- The sextet read at `p`. -/
def readSextet (table : List UInt8) (pad : UInt8) (rest : UInt8 → ℕ) (data : List UInt8)
    (p : ℕ) : ℕ :=
  (nextSextet table pad rest data p).1

theorem nextSextet_eq (p : ℕ) (hp : p + 1 < 2 ^ 32) :
    nextSextet table pad rest data p = (readSextet table pad rest data p, p + 1) := by
  rw [readSextet, nextSextet]
  split <;> rw [bump_of_lt hp]

/-- The 24 bits of four sextets. -/
def tripleOf (sextet : ℕ → ℕ) (k : ℕ) : ℕ :=
  (sextet (4 * k) <<< (3 * 6) + sextet (4 * k + 1) <<< (2 * 6)
    + sextet (4 * k + 2) <<< (1 * 6) + sextet (4 * k + 3) <<< (0 * 6)) % 2 ^ 32

/-- The byte at `p` of the groups with these 24 bits. -/
def byteOf (triple : ℕ → ℕ) (p : ℕ) : UInt8 :=
  UInt8.ofNat ((triple (p / 3) >>> ((2 - p % 3) * 8)) &&& 0xFF)

theorem byteOf_group (triple : ℕ → ℕ) {r : ℕ} (hr : r < 3) :
    byteOf triple (3 * k + r) = UInt8.ofNat ((triple k >>> ((2 - r) * 8)) &&& 0xFF) := by
  have hdiv : (3 * k + r) / 3 = k := by omega
  have hmod : (3 * k + r) % 3 = r := by omega
  rw [byteOf, hdiv, hmod]

/-- A round reads four characters and writes the bytes of their group. -/
theorem decodeRound_eq (hi : s.i = 4 * k) (hk : 4 * k + 4 < 2 ^ 32) :
    decodeRound table pad rest data n s =
      ((List.range 3).map fun r =>
          byteOf (tripleOf (readSextet table pad rest data)) (3 * k + r)).foldl
        (Cursor.putBelow n) { s with i := 4 * k + 4 } := by
  simp only [decodeRound, hi, nextSextet_eq (4 * k) (by omega),
    nextSextet_eq (4 * k + 1) (by omega), nextSextet_eq (4 * k + 1 + 1) (by omega),
    nextSextet_eq (4 * k + 1 + 1 + 1) (by omega), List.range_succ, List.range_zero,
    List.nil_append, List.map_cons, List.map_nil, List.cons_append, List.foldl_cons,
    List.foldl_nil]
  rw [byteOf_group _ (by decide), byteOf_group _ (by decide), byteOf_group _ (by decide)]
  rfl

@[simp] theorem foldl_putBelow_i (bs : List UInt8) (s : Cursor) :
    (bs.foldl (Cursor.putBelow n) s).i = s.i := by
  induction bs generalizing s with
  | nil => rfl
  | cons b bs ih =>
    rw [List.foldl_cons, ih, Cursor.putBelow]
    split <;> rfl

theorem foldl_putBelow (bs : List UInt8) (hn : n < 2 ^ 32) (hs : s.j ≤ n) :
    (bs.foldl (Cursor.putBelow n) s).j = min (s.j + bs.length) n ∧
      ∀ p, (bs.foldl (Cursor.putBelow n) s).out p =
        if s.j ≤ p ∧ p < min (s.j + bs.length) n then bs.getD (p - s.j) 0 else s.out p := by
  induction bs generalizing s with
  | nil =>
    refine ⟨by simp; omega, ?_⟩
    intro p
    rw [if_neg (by simp; omega)]
    rfl
  | cons b bs ih =>
    rw [List.foldl_cons, List.length_cons]
    by_cases hlt : s.j < n
    · have hput : s.putBelow n b = s.put b := if_pos hlt
      have hj : (s.put b).j = s.j + 1 := bump_of_lt (by omega)
      obtain ⟨hj', hout⟩ := ih (s := s.put b) (by omega)
      rw [hput]
      refine ⟨by rw [hj', hj]; congr 1; omega, ?_⟩
      intro p
      rw [hout, hj, put_out]
      by_cases hp : p = s.j
      · rw [if_neg (by omega), if_pos hp, if_pos (by omega), hp]
        simp
      · rw [if_neg hp]
        by_cases hin : s.j ≤ p ∧ p < min (s.j + (bs.length + 1)) n
        · rw [if_pos (by omega), if_pos hin, show p - s.j = p - (s.j + 1) + 1 by omega]
          rfl
        · rw [if_neg (by omega), if_neg hin]
    · have hput : s.putBelow n b = s := if_neg hlt
      obtain ⟨hj', hout⟩ := ih hs
      rw [hput]
      refine ⟨by rw [hj']; omega, ?_⟩
      intro p
      rw [hout, if_neg (by omega), if_neg (by omega)]

/-! ## The whole decoder -/

/-- What is written before round `k`. -/
structure Decoded (table : List UInt8) (pad : UInt8) (rest : UInt8 → ℕ) (data : List UInt8)
    (n : ℕ) (mem : ℕ → UInt8) (k : ℕ) (s : Cursor) : Prop where
  i_eq : s.i = 4 * k
  j_eq : s.j = min (3 * k) n
  out_eq : ∀ p, s.out p =
    if p < min (3 * k) n then byteOf (tripleOf (readSextet table pad rest data)) p else mem p

theorem Decoded.step (hn : n < 2 ^ 32) (hk : 4 * k + 4 < 2 ^ 32)
    (h : Decoded table pad rest data n mem k s) :
    Decoded table pad rest data n mem (k + 1) (decodeRound table pad rest data n s) := by
  have hj := h.j_eq
  rw [decodeRound_eq h.i_eq hk]
  obtain ⟨hj', hout⟩ := foldl_putBelow (s := { s with i := 4 * k + 4 })
    ((List.range 3).map fun r =>
      byteOf (tripleOf (readSextet table pad rest data)) (3 * k + r)) hn
    (show s.j ≤ n by omega)
  simp only [List.length_map, List.length_range] at hj' hout
  refine ⟨by rw [foldl_putBelow_i]; rfl, by rw [hj']; omega, ?_⟩
  intro p
  rw [hout]
  by_cases hp : s.j ≤ p ∧ p < min (s.j + 3) n
  · have hj3 : s.j = 3 * k := by omega
    rw [if_pos hp, if_pos (by omega), List.getD_eq_getElem?_getD,
      List.getElem?_eq_getElem (by simp; omega)]
    simp only [List.getElem_map, List.getElem_range, Option.getD_some]
    congr 1
    omega
  · rw [if_neg hp, h.out_eq]
    by_cases hlt : p < min (3 * k) n
    · rw [if_pos hlt, if_pos (by omega)]
    · rw [if_neg hlt, if_neg (by omega)]

/-- The decoder ends on texts of whole groups that are shorter than `2 ^ 32`. -/
theorem decode_ends (table : List UInt8) (pad : UInt8) (rest : UInt8 → ℕ) (mem : ℕ → UInt8)
    {groups : ℕ} (hlen : data.length = 4 * groups) (hlt : data.length < 2 ^ 32)
    (hn : n ≤ 3 * groups) :
    ∃ s, Ends (fun s => s.i < data.length) (decodeRound table pad rest data n) ⟨0, 0, mem⟩ s ∧
      Decoded table pad rest data n mem groups s := by
  apply ends_of_rounds
  · intro k s hk h
    rw [decide_eq_true_iff, h.i_eq]
    omega
  · exact fun k s hk h => h.step (by omega) (by omega)
  · intro s h
    rw [decide_eq_false_iff_not, h.i_eq]
    omega
  · exact ⟨rfl, by simp, by simp⟩

theorem bump_lt (i : ℕ) : bump i < 2 ^ 32 := Nat.mod_lt _ (by decide)

theorem decodeRound_i_lt : (decodeRound table pad rest data n s).i < 2 ^ 32 := by
  have hnext : ∀ i, (nextSextet table pad rest data i).2 < 2 ^ 32 := by
    intro i
    rw [nextSextet]
    split <;> exact bump_lt i
  have hput : ∀ (s : Cursor) b, (s.putBelow n b).i = s.i := by
    intro s b
    rw [Cursor.putBelow]
    split <;> rfl
  simp only [decodeRound, hput]
  exact hnext _

/-- The decoder returns `d`. -/
def Decodes (table : List UInt8) (pad : UInt8) (rest : UInt8 → ℕ) (mem : ℕ → UInt8)
    (data : List UInt8) (d : Buffer) : Prop :=
  ∃ fuel, decode table pad fuel rest mem data = some d

theorem Decodes.unique {d d' : Buffer} (h : Decodes table pad rest mem data d)
    (h' : Decodes table pad rest mem data d') : d = d' := by
  obtain ⟨fuel, h⟩ := h
  obtain ⟨fuel', h'⟩ := h'
  obtain ⟨s, hs, rfl⟩ := Option.map_eq_some_iff.mp h
  obtain ⟨s', hs', rfl⟩ := Option.map_eq_some_iff.mp h'
  rw [Ends.unique ⟨fuel, hs⟩ ⟨fuel', hs'⟩]

/-- On a text of `2 ^ 32` characters and more the counter never reaches the end. -/
theorem length_lt_of_decodes {d : Buffer} (h : Decodes table pad rest mem data d) :
    data.length < 2 ^ 32 := by
  obtain ⟨fuel, h⟩ := h
  obtain ⟨s, hs, -⟩ := Option.map_eq_some_iff.mp h
  by_contra hge
  refine not_ends (I := fun s => s.i < 2 ^ 32) ?_ (fun s _ => decodeRound_i_lt) ?_ ⟨fuel, hs⟩
  · intro s hi
    rw [decide_eq_true_iff]
    omega
  · exact Nat.two_pow_pos 32

end Decoding

/-! ## The sextets that are read are those that were written -/

section Alphabet

variable {octet : UInt8 → ℕ} {table : List UInt8} {pad : UInt8} {rest : UInt8 → ℕ}
  {data : List UInt8} {k p : ℕ}

/-- Sixty-four different characters, none of which ends or pads a text. -/
structure IsAlphabet (table : List UInt8) (pad : UInt8) : Prop where
  length_eq : table.length = 64
  nodup : table.Nodup
  zero_notMem : 0 ∉ table
  pad_notMem : pad ∉ table

theorem isAlphabet_iff :
    IsAlphabet table pad ↔ table.length = 64 ∧ table.Nodup ∧ 0 ∉ table ∧ pad ∉ table := by
  constructor
  · intro h
    exact ⟨h.length_eq, h.nodup, h.zero_notMem, h.pad_notMem⟩
  · rintro ⟨hlength, hnodup, hzero, hpad⟩
    exact ⟨hlength, hnodup, hzero, hpad⟩

theorem isAlphabet_codesafe : IsAlphabet base64CodesafeEncodingTable 36 := by
  rw [isAlphabet_iff]
  decide +kernel

theorem isAlphabet_std : IsAlphabet base64StdEncodingTable 61 := by
  rw [isAlphabet_iff]
  decide +kernel

theorem sextetAt_lt : sextetAt octet data p < 64 :=
  Nat.lt_of_le_of_lt Nat.and_le_right (by decide)

theorem charAt_mem (htable : IsAlphabet table pad) : charAt octet table data p ∈ table := by
  have hlt : sextetAt octet data p < table.length := htable.length_eq ▸ sextetAt_lt
  rw [charAt, List.getD_eq_getElem?_getD, List.getElem?_eq_getElem hlt]
  exact List.getElem_mem hlt

theorem getD_injective (htable : IsAlphabet table pad) {i j : ℕ} (hi : i < 64) (hj : j < 64)
    (h : table.getD i 0 = table.getD j 0) : i = j := by
  have hi' : i < table.length := htable.length_eq ▸ hi
  have hj' : j < table.length := htable.length_eq ▸ hj
  rw [List.getD_eq_getElem?_getD, List.getD_eq_getElem?_getD, List.getElem?_eq_getElem hi',
    List.getElem?_eq_getElem hj'] at h
  exact (List.Nodup.getElem_inj_iff htable.nodup).mp h

/-- The decoding table inverts the encoding table. -/
theorem buildDecodingTable_getD (htable : IsAlphabet table pad) {i : ℕ} (hi : i < 64) :
    buildDecodingTable table rest (table.getD i 0) = i := by
  have hfold : ∀ n, n ≤ 64 → i < n →
      (List.range n).foldl (fun t i => Function.update t (table.getD i 0) i) rest
        (table.getD i 0) = i := by
    intro n hn hlt
    induction n with
    | zero => cases hlt
    | succ n ih =>
      rw [List.range_succ, List.foldl_append, List.foldl_cons, List.foldl_nil,
        Function.update_apply]
      split
      · next heq => exact (getD_injective htable hi (by omega) heq).symm
      · next hne =>
        have hin : i ≠ n := fun h => hne (by rw [h])
        exact ih (by omega) (by omega)
  exact hfold 64 le_rfl hi

/-- The text of `n` octets with its padding, as the decoder reads it. -/
def paddedText (octet : UInt8 → ℕ) (table : List UInt8) (pad : UInt8) (data : List UInt8) :
    List UInt8 :=
  (List.range (encodedLength data.length)).map fun p =>
    if p < keptLength data.length then charAt octet table data p else pad

@[simp] theorem length_paddedText :
    (paddedText octet table pad data).length = encodedLength data.length := by
  simp [paddedText]

theorem getD_paddedText (hp : p < encodedLength data.length) :
    (paddedText octet table pad data).getD p 0 =
      if p < keptLength data.length then charAt octet table data p else pad := by
  rw [List.getD_eq_getElem?_getD, List.getElem?_eq_getElem (by simpa using hp)]
  simp [paddedText]

theorem octetAt_of_le {m : ℕ} (h : data.length ≤ m) : octetAt octet data m = 0 :=
  dif_neg (by omega)

theorem sextetAt_eq (r : ℕ) (hr : r < 4) :
    sextetAt octet data (4 * k + r) = tripleAt octet data k / 2 ^ ((3 - r) * 6) % 64 := by
  rw [sextetAt_group hr, Nat.shiftRight_eq_div_pow]
  exact Nat.and_two_pow_sub_one_eq_mod _ 6

theorem tripleAt_eq : tripleAt octet data k =
    (octetAt octet data (3 * k) * 65536 + octetAt octet data (3 * k + 1) * 256
      + octetAt octet data (3 * k + 2)) % 4294967296 := by
  simp only [tripleAt, Nat.shiftLeft_eq, Nat.reducePow]

/-- The characters that were cut off stand for no bits. -/
theorem sextetAt_of_kept (hp : keptLength data.length ≤ p)
    (hp' : p < encodedLength data.length) : sextetAt octet data p = 0 := by
  have hmod := base64ModTable_eq data.length
  have hle : base64ModTable (data.length % 3) ≤ 2 := by
    rw [hmod, encodedLength]
    omega
  rw [keptLength, encodedLength, hmod, encodedLength] at hp
  rw [encodedLength] at hp'
  obtain ⟨k, r, hr, rfl⟩ : ∃ k r, r < 4 ∧ p = 4 * k + r := ⟨p / 4, p % 4, by omega, by omega⟩
  rw [sextetAt_eq r hr, tripleAt_eq, octetAt_of_le (m := 3 * k + 2) (by omega)]
  have hthree : r = 3 ∨ r = 2 ∧ data.length ≤ 3 * k + 1 := by omega
  rcases hthree with rfl|⟨rfl, hone⟩
  · omega
  · rw [octetAt_of_le hone]
    omega

theorem readSextet_paddedText (htable : IsAlphabet table pad)
    (hp : p < encodedLength data.length) :
    readSextet table pad rest (paddedText octet table pad data) p = sextetAt octet data p := by
  rw [readSextet, nextSextet, getD_paddedText hp]
  by_cases hkept : p < keptLength data.length
  · have hne : charAt octet table data p ≠ pad :=
      fun h => htable.pad_notMem (h ▸ charAt_mem htable)
    rw [if_pos hkept, if_neg hne]
    exact buildDecodingTable_getD htable sextetAt_lt
  · rw [if_neg hkept, if_pos rfl, sextetAt_of_kept (not_lt.mp hkept) hp]
    exact Nat.zero_and p

theorem decodedLength_paddedText (htable : IsAlphabet table pad) (hdata : data ≠ []) :
    decodedLength pad (paddedText octet table pad data) = data.length := by
  have hpos : 0 < data.length := List.length_pos_of_ne_nil hdata
  have hlength : encodedLength data.length = 4 * ((data.length + 2) / 3) := rfl
  have hmod := base64ModTable_eq data.length
  have hkept : keptLength data.length =
    encodedLength data.length - base64ModTable (data.length % 3) := rfl
  have hread : ∀ p < encodedLength data.length,
      ((paddedText octet table pad data).getD p 0 = pad ↔ keptLength data.length ≤ p) := by
    intro p hp
    rw [getD_paddedText hp]
    split
    · next hlt =>
      refine iff_of_false ?_ (by omega)
      exact fun h => htable.pad_notMem (h ▸ charAt_mem htable)
    · next hge => exact iff_of_true rfl (not_lt.mp hge)
  rw [decodedLength, length_paddedText]
  simp only [hread (encodedLength data.length - 1) (by omega),
    hread (encodedLength data.length - 2) (by omega)]
  split <;> split <;> omega

/-- The bytes that come back. -/
def decodedOctet (octet : UInt8 → ℕ) (data : List UInt8) (p : ℕ) : UInt8 :=
  byteOf (fun k => tripleAt octet data k % 2 ^ 24) p

theorem tripleOf_sextetAt {f : ℕ → ℕ}
    (hf : ∀ r < 4, f (4 * k + r) = sextetAt octet data (4 * k + r)) :
    tripleOf f k = tripleAt octet data k % 2 ^ 24 := by
  have h0 := hf 0 (by decide)
  have h1 := hf 1 (by decide)
  have h2 := hf 2 (by decide)
  have h3 := hf 3 (by decide)
  rw [sextetAt_eq _ (by decide)] at h0 h1 h2 h3
  rw [tripleOf, h1, h2, h3, show f (4 * k) = _ from h0]
  simp only [Nat.shiftLeft_eq]
  omega

/-- The decoder returns an output as long as the input of the encoder. -/
theorem exists_decodes (octet : UInt8 → ℕ) (rest : UInt8 → ℕ) (mem : ℕ → UInt8)
    (htable : IsAlphabet table pad) (hdata : data ≠ [])
    (hlen : encodedLength data.length < 2 ^ 32) :
    ∃ d, Decodes table pad rest mem (paddedText octet table pad data) d ∧
      d.data = (List.range data.length).map (decodedOctet octet data) := by
  have hlength : (paddedText octet table pad data).length = 4 * ((data.length + 2) / 3) :=
    length_paddedText
  obtain ⟨s, ⟨fuel, hfuel⟩, hs⟩ := decode_ends table pad rest mem (n := data.length) hlength
    (hlength ▸ hlen) (by omega)
  have hdecoded : decodedLength pad (paddedText octet table pad data) = data.length :=
    decodedLength_paddedText htable hdata
  refine ⟨⟨s.out, data.length⟩, ⟨fuel, ?_⟩, ?_⟩
  · rw [decode, hdecoded, Option.map_eq_some_iff]
    exact ⟨s, hfuel, rfl⟩
  · apply List.map_congr_left
    intro p hp
    have hp' : p < data.length := List.mem_range.mp hp
    simp only [hs.out_eq]
    rw [if_pos (by omega), decodedOctet, byteOf, byteOf, tripleOf_sextetAt]
    intro r hr
    apply readSextet_paddedText htable
    rw [encodedLength]
    omega

end Alphabet

/-! ## What comes back of a group -/

section Groups

variable {octet : UInt8 → ℕ} {data data' : List UInt8} {k p : ℕ}

theorem decodedOctet_eq (r : ℕ) (hr : r < 3) :
    decodedOctet octet data (3 * k + r) =
      UInt8.ofNat (tripleAt octet data k % 2 ^ 24 / 2 ^ ((2 - r) * 8) % 256) := by
  rw [decodedOctet, byteOf_group _ hr, Nat.shiftRight_eq_div_pow]
  congr 1
  exact Nat.and_two_pow_sub_one_eq_mod _ 8

theorem charOctet_mod (b : UInt8) : charOctet b % 256 = b.toNat := by
  have hlt := b.toNat_lt
  rw [charOctet]
  split <;> omega

theorem toNat_eq_iff {n : ℕ} {b : UInt8} (hn : n < 256) : UInt8.ofNat n = b ↔ n = b.toNat := by
  constructor
  · rintro rfl
    exact (Nat.mod_eq_of_lt hn).symm
  · rintro rfl
    exact UInt8.ofNat_toNat

theorem octetAt_of_lt (hp : p < data.length) : octetAt octet data p = octet data[p] :=
  dif_pos hp

/-- An octet that is there has the byte as its low eight bits, and is extended with its sign. -/
theorem octetAt_charOctet (data : List UInt8) (p : ℕ) :
    ∃ n < 256, (n < 128 ∧ octetAt charOctet data p = n ∨
      128 ≤ n ∧ octetAt charOctet data p = 4294967040 + n) ∧
      (∀ h : p < data.length, data[p].toNat = n) ∧ (data.length ≤ p → n = 0) := by
  by_cases hp : p < data.length
  · refine ⟨data[p].toNat, data[p].toNat_lt, ?_, fun _ => rfl, fun h => by omega⟩
    rw [octetAt_of_lt hp, charOctet]
    split
    · next h => exact .inl ⟨h, rfl⟩
    · next h => exact .inr ⟨not_lt.mp h, rfl⟩
  · have hle : data.length ≤ p := not_lt.mp hp
    exact ⟨0, by decide, .inl ⟨by decide, octetAt_of_le hle⟩, fun h => absurd h hp, fun _ => rfl⟩

/-- What is behind the data counts as positive. -/
theorem lt_iff_of_octet {n : ℕ} (hthere : ∀ h : p < data.length, data[p].toNat = n)
    (hnone : data.length ≤ p → n = 0) :
    n < 128 ↔ ∀ h : p < data.length, data[p].toNat < 128 := by
  constructor
  · exact fun h hlt => hthere hlt ▸ h
  · intro h
    by_cases hlt : p < data.length
    · exact hthere hlt ▸ h hlt
    · exact hnone (not_lt.mp hlt) ▸ by decide

theorem toNat_pos_of_mem (hzero : 0 ∉ data) (hp : p < data.length) : 0 < data[p].toNat := by
  apply Nat.pos_of_ne_zero
  intro h
  have heq : data[p] = 0 := UInt8.toNat_inj.mp h
  exact hzero (heq ▸ List.getElem_mem hp)

/-- The last octet of a group comes back. -/
theorem decodedOctet_last (hp : 3 * k + 2 < data.length) :
    decodedOctet charOctet data (3 * k + 2) = data[3 * k + 2] := by
  obtain ⟨c, hc, hC, hlast, -⟩ := octetAt_charOctet data (3 * k + 2)
  rw [decodedOctet_eq 2 (by decide), toNat_eq_iff (Nat.mod_lt _ (by decide)), hlast hp, tripleAt_eq]
  omega

/-- The one in the middle comes back iff the last is not negative. -/
theorem decodedOctet_middle (hp : 3 * k + 1 < data.length) :
    decodedOctet charOctet data (3 * k + 1) = data[3 * k + 1] ↔
      ∀ h : 3 * k + 2 < data.length, data[3 * k + 2].toNat < 128 := by
  obtain ⟨b, hb, hB, hmiddle, -⟩ := octetAt_charOctet data (3 * k + 1)
  obtain ⟨c, hc, hC, hlast, hnone⟩ := octetAt_charOctet data (3 * k + 2)
  rw [decodedOctet_eq 1 (by decide), toNat_eq_iff (Nat.mod_lt _ (by decide)), hmiddle hp,
    tripleAt_eq]
  rw [← lt_iff_of_octet hlast hnone]
  clear hlast hnone
  omega

/-- The first comes back iff the one in the middle, which is no NUL, is not negative. -/
theorem decodedOctet_first (hzero : 0 ∉ data) (hp : 3 * k < data.length) :
    decodedOctet charOctet data (3 * k) = data[3 * k] ↔
      ∀ h : 3 * k + 1 < data.length, data[3 * k + 1].toNat < 128 := by
  obtain ⟨a, ha, hA, hfirst, -⟩ := octetAt_charOctet data (3 * k)
  obtain ⟨b, hb, hB, hmiddle, hnone⟩ := octetAt_charOctet data (3 * k + 1)
  obtain ⟨c, hc, hC, -, hnone'⟩ := octetAt_charOctet data (3 * k + 2)
  have hzeroth : decodedOctet charOctet data (3 * k + 0) = _ := decodedOctet_eq 0 (by decide)
  rw [Nat.add_zero] at hzeroth
  rw [hzeroth,
    toNat_eq_iff (Nat.mod_lt _ (by decide)), hfirst hp, tripleAt_eq]
  have hpos : 3 * k + 1 < data.length → 0 < b := by
    intro hlt
    exact hmiddle hlt ▸ toNat_pos_of_mem hzero hlt
  rw [← lt_iff_of_octet hmiddle hnone]
  have hborrow : 0 < b ∨ b = 0 ∧ c = 0 := by
    by_cases hlt : 3 * k + 1 < data.length
    · exact .inl (hpos hlt)
    · exact .inr ⟨hnone (not_lt.mp hlt), hnone' (by omega)⟩
  clear hpos hmiddle hnone hnone' hfirst
  omega

end Groups

end Extempore.NameMangling
