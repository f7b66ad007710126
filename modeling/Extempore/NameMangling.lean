import Extempore.SchemeReader
import Extempore.WhileLoops
import Mathlib.Algebra.GroupWithZero.Nat

/-!
# Mangled names

`cname_encode` and `base64_encode` turn three octets into four characters, `cname_decode` and
`base64_decode` turn four characters into three octets. A `char` is signed: `cname_encode` adds
the octets of its input with their signs extended. The loop counters are 32 bits wide and the
lengths 64. What `malloc` returns is the parameter `mem`.
-/

namespace Extempore.NameMangling

open SchemeReader WhileLoops

/-- The next value of an `unsigned` counter. -/
def bump (i : ℕ) : ℕ := (i + 1) % 2 ^ 32

/-- A `char` as a `uint32_t`. -/
def charOctet (b : UInt8) : ℕ := if b.toNat < 128 then b.toNat else 2 ^ 32 - 256 + b.toNat

/-- An `unsigned char` as a `uint32_t`. -/
def unsignedCharOctet (b : UInt8) : ℕ := b.toNat

def base64CodesafeEncodingTable : List UInt8 :=
  ascii "ABCDEFGHIJKLMNOPQRSTUVWXYZabcdefghijklmnopqrstuvwxyz0123456789_-"

def base64StdEncodingTable : List UInt8 :=
  ascii "ABCDEFGHIJKLMNOPQRSTUVWXYZabcdefghijklmnopqrstuvwxyz0123456789+/"

/-- `_base64_mod_table`, read at a remainder modulo three. -/
def base64ModTable : ℕ → ℕ
  | 0 => 0
  | 1 => 2
  | _ => 1

/-- A buffer of `length` bytes; behind them `malloc` gave one more. -/
structure Buffer where
  bytes : ℕ → UInt8
  length : ℕ

def Buffer.data (b : Buffer) : List UInt8 := (List.range b.length).map b.bytes

/-- The buffer as a string that ends at its first NUL. -/
def Buffer.text (b : Buffer) : List UInt8 :=
  ((List.range (b.length + 1)).map b.bytes).takeWhile (· ≠ 0)

/-- The counters of both loops, and the bytes written so far. -/
structure Cursor where
  i : ℕ
  j : ℕ
  out : ℕ → UInt8

/-- `out[j++] = b` -/
def Cursor.put (s : Cursor) (b : UInt8) : Cursor :=
  { s with j := bump s.j, out := Function.update s.out s.j b }

/-- `if (j < n) out[j++] = b` -/
def Cursor.putBelow (n : ℕ) (s : Cursor) (b : UInt8) : Cursor :=
  if s.j < n then s.put b else s

section Encode

variable (octet : UInt8 → ℕ) (table : List UInt8) (fill : UInt8)

/-- `i < input_length ? data[i++] : 0`, and `i` after it. -/
def nextOctet (data : List UInt8) (i : ℕ) : ℕ × ℕ :=
  if h : i < data.length then (octet data[i], bump i) else (0, i)

/-- One round of the loop of `cname_encode` and `base64_encode`. -/
def encodeRound (data : List UInt8) (s : Cursor) : Cursor :=
  let (octet_a, i) := nextOctet octet data s.i
  let (octet_b, i) := nextOctet octet data i
  let (octet_c, i) := nextOctet octet data i
  let triple := (octet_a <<< 0x10 + octet_b <<< 0x08 + octet_c) % 2 ^ 32
  ({ s with i := i }
    |>.put (table.getD ((triple >>> (3 * 6)) &&& 0x3F) 0)
    |>.put (table.getD ((triple >>> (2 * 6)) &&& 0x3F) 0)
    |>.put (table.getD ((triple >>> (1 * 6)) &&& 0x3F) 0)
    |>.put (table.getD ((triple >>> (0 * 6)) &&& 0x3F) 0))

/-- `encoded_data[*output_length - 1 - i] = fill` for the characters that stand for no octet. -/
def fillEnd (inputLength outputLength : ℕ) (out : ℕ → UInt8) : ℕ → UInt8 :=
  (List.range (base64ModTable (inputLength % 3))).foldl
    (fun out i => Function.update out (outputLength - 1 - i) fill) out

/-- `none` if the loop has not ended after `fuel` tests. -/
def encode (fuel : ℕ) (mem : ℕ → UInt8) (data : List UInt8) : Option Buffer :=
  let outputLength := 4 * ((data.length + 2) / 3)
  (loop (fun s => s.i < data.length) (encodeRound octet table data) fuel
      ⟨0, 0, Function.update mem outputLength 0⟩).map
    fun s => ⟨fillEnd fill data.length outputLength s.out, outputLength⟩

end Encode

def cnameEncode := encode charOctet base64CodesafeEncodingTable 0

def base64Encode := encode unsignedCharOctet base64StdEncodingTable 61

section Decode

variable (table : List UInt8) (pad : UInt8)

/-- The entries of the decoding table that are not set are what `malloc` left there. -/
def buildDecodingTable (rest : UInt8 → ℕ) : UInt8 → ℕ :=
  (List.range 64).foldl (fun t i => Function.update t (table.getD i 0) i) rest

/-- `data[i] == pad ? 0 & i++ : table[data[i++]]`, and `i` after it. -/
def nextSextet (rest : UInt8 → ℕ) (data : List UInt8) (i : ℕ) : ℕ × ℕ :=
  if data.getD i 0 = pad then (0 &&& i, bump i)
  else (buildDecodingTable table rest (data.getD i 0), bump i)

/-- One round of the loop of `cname_decode` and `base64_decode`. -/
def decodeRound (rest : UInt8 → ℕ) (data : List UInt8) (outputLength : ℕ) (s : Cursor) :
    Cursor :=
  let (sextet_a, i) := nextSextet table pad rest data s.i
  let (sextet_b, i) := nextSextet table pad rest data i
  let (sextet_c, i) := nextSextet table pad rest data i
  let (sextet_d, i) := nextSextet table pad rest data i
  let triple := (sextet_a <<< (3 * 6) + sextet_b <<< (2 * 6) + sextet_c <<< (1 * 6)
    + sextet_d <<< (0 * 6)) % 2 ^ 32
  ({ s with i := i }
    |>.putBelow outputLength (UInt8.ofNat ((triple >>> (2 * 8)) &&& 0xFF))
    |>.putBelow outputLength (UInt8.ofNat ((triple >>> (1 * 8)) &&& 0xFF))
    |>.putBelow outputLength (UInt8.ofNat ((triple >>> (0 * 8)) &&& 0xFF)))

/-- The length of the output, less one for each of the last two characters that pads. -/
def decodedLength (data : List UInt8) : ℕ :=
  let outputLength := data.length / 4 * 3
  let outputLength :=
    if data.getD (data.length - 1) 0 = pad then outputLength - 1 else outputLength
  if data.getD (data.length - 2) 0 = pad then outputLength - 1 else outputLength

/-- `none` if the loop has not ended after `fuel` tests. The source reads the last characters
of an empty text too, which are not there. -/
def decode (fuel : ℕ) (rest : UInt8 → ℕ) (mem : ℕ → UInt8) (data : List UInt8) :
    Option Buffer :=
  let outputLength := decodedLength pad data
  (loop (fun s => s.i < data.length) (decodeRound table pad rest data outputLength) fuel
      ⟨0, 0, mem⟩).map
    fun s => ⟨s.out, outputLength⟩

end Decode

/-- `cname_decode` pads with `'$'` to a multiple of four. -/
def padded (data : List UInt8) : List UInt8 :=
  if data.length % 4 ≠ 0 then data ++ List.replicate (4 - data.length % 4) 36 else data

def cnameDecode (fuel : ℕ) (rest : UInt8 → ℕ) (mem : ℕ → UInt8) (data : List UInt8) :
    Option Buffer :=
  decode base64CodesafeEncodingTable 36 fuel rest
    (Function.update mem (decodedLength 36 (padded data)) 0) (padded data)

/-- `some none` is the null pointer. -/
def base64Decode (fuel : ℕ) (rest : UInt8 → ℕ) (mem : ℕ → UInt8) (data : List UInt8) :
    Option (Option Buffer) :=
  if data.length % 4 ≠ 0 then some none
  else (decode base64StdEncodingTable 61 fuel rest mem data).map some

/-! ## One round of the encoder -/

theorem bump_of_lt {i : ℕ} (h : i + 1 < 2 ^ 32) : bump i = i + 1 := Nat.mod_eq_of_lt h

section Encoding

variable {octet : UInt8 → ℕ} {table : List UInt8} {data : List UInt8} {s : Cursor} {k n : ℕ}

/-- The octet at `n`, zero behind the end. -/
def octetAt (octet : UInt8 → ℕ) (data : List UInt8) (n : ℕ) : ℕ :=
  if h : n < data.length then octet data[n] else 0

/-- The octets of a group, added in 32 bits. -/
def tripleAt (octet : UInt8 → ℕ) (data : List UInt8) (k : ℕ) : ℕ :=
  (octetAt octet data (3 * k) <<< 0x10 + octetAt octet data (3 * k + 1) <<< 0x08
    + octetAt octet data (3 * k + 2)) % 2 ^ 32

/-- The six bits that the character at `p` stands for. -/
def sextetAt (octet : UInt8 → ℕ) (data : List UInt8) (p : ℕ) : ℕ :=
  (tripleAt octet data (p / 4) >>> ((3 - p % 4) * 6)) &&& 0x3F

def charAt (octet : UInt8 → ℕ) (table data : List UInt8) (p : ℕ) : UInt8 :=
  table.getD (sextetAt octet data p) 0

theorem nextOctet_min (hlen : data.length < 2 ^ 32) :
    nextOctet octet data (min n data.length) =
      (octetAt octet data n, min (n + 1) data.length) := by
  by_cases h : n < data.length
  · have hmin : min n data.length = n := by omega
    simp only [nextOctet, octetAt, hmin, h, dif_pos]
    rw [bump_of_lt (by omega), Nat.min_eq_left h]
  · have hmin : min n data.length = data.length := by omega
    have hmin' : min (n + 1) data.length = data.length := by omega
    simp [nextOctet, octetAt, hmin, hmin', h]

theorem sextetAt_group {r : ℕ} (hr : r < 4) :
    sextetAt octet data (4 * k + r) = (tripleAt octet data k >>> ((3 - r) * 6)) &&& 0x3F := by
  have hdiv : (4 * k + r) / 4 = k := by omega
  have hmod : (4 * k + r) % 4 = r := by omega
  rw [sextetAt, hdiv, hmod]

/-- A round reads one group and writes its four characters. -/
theorem encodeRound_eq (hlen : data.length < 2 ^ 32) (hi : s.i = min (3 * k) data.length) :
    encodeRound octet table data s =
      ((List.range 4).map fun r => charAt octet table data (4 * k + r)).foldl Cursor.put
        { s with i := min (3 * k + 3) data.length } := by
  simp only [encodeRound, hi, nextOctet_min hlen, List.range_succ, List.range_zero,
    List.nil_append, List.map_cons, List.map_nil, List.cons_append,
    List.foldl_cons, List.foldl_nil, charAt]
  rw [sextetAt_group (by decide), sextetAt_group (by decide), sextetAt_group (by decide),
    sextetAt_group (by decide)]
  rfl

@[simp] theorem put_i (s : Cursor) (b : UInt8) : (s.put b).i = s.i := rfl

@[simp] theorem put_j (s : Cursor) (b : UInt8) : (s.put b).j = bump s.j := rfl

theorem put_out (s : Cursor) (b : UInt8) (p : ℕ) :
    (s.put b).out p = if p = s.j then b else s.out p := by
  simp [Cursor.put, Function.update_apply]

@[simp] theorem foldl_put_i (bs : List UInt8) (s : Cursor) :
    (bs.foldl Cursor.put s).i = s.i := by
  induction bs generalizing s with
  | nil => rfl
  | cons b bs ih => exact ih (s.put b)

theorem foldl_put_j (bs : List UInt8) (hs : s.j < 2 ^ 32) :
    (bs.foldl Cursor.put s).j = (s.j + bs.length) % 2 ^ 32 := by
  induction bs generalizing s with
  | nil => exact (Nat.mod_eq_of_lt hs).symm
  | cons b bs ih =>
    have hb : (s.put b).j < 2 ^ 32 := Nat.mod_lt _ (by decide)
    rw [List.foldl_cons, ih hb, put_j, bump, Nat.mod_add_mod, List.length_cons]
    congr 1
    omega

/-- Bytes that fit below `2 ^ 32` are written one after the other. -/
theorem foldl_put_out {bs : List UInt8} (hs : s.j + bs.length ≤ 2 ^ 32) (p : ℕ) :
    (bs.foldl Cursor.put s).out p =
      if s.j ≤ p ∧ p < s.j + bs.length then bs.getD (p - s.j) 0 else s.out p := by
  induction bs generalizing s with
  | nil =>
    rw [if_neg (by simp)]
    rfl
  | cons b bs ih =>
    rw [List.length_cons] at hs ⊢
    rw [List.foldl_cons]
    cases bs with
    | nil =>
      rw [List.foldl_nil, put_out]
      by_cases hp : p = s.j
      · simp [hp]
      · rw [if_neg hp, if_neg (by simp; omega)]
    | cons c bs =>
      rw [List.length_cons] at hs
      have hj : (s.put b).j = s.j + 1 := by
        rw [put_j]
        exact bump_of_lt (by omega)
      rw [ih (by rw [hj, List.length_cons]; omega), hj, put_out]
      by_cases hp : p = s.j
      · rw [if_neg (by omega), if_pos hp, if_pos (by omega), hp]
        simp
      · rw [if_neg hp]
        by_cases hlt : s.j ≤ p ∧ p < s.j + ((c :: bs).length + 1)
        · rw [if_pos (by omega), if_pos hlt, show p - s.j = p - (s.j + 1) + 1 by omega]
          rfl
        · rw [if_neg (by omega), if_neg hlt]

end Encoding

/-! ## The whole encoder -/

section Encoder

variable {octet : UInt8 → ℕ} {table : List UInt8} {fill : UInt8} {mem : ℕ → UInt8}
  {data : List UInt8} {b : Buffer} {s : Cursor} {k : ℕ}

/-- The number of characters for an input of `n` octets, those that are filled included. -/
def encodedLength (n : ℕ) : ℕ := 4 * ((n + 2) / 3)

/-- The number of characters that stand for octets. -/
def keptLength (n : ℕ) : ℕ := encodedLength n - base64ModTable (n % 3)

theorem base64ModTable_eq (n : ℕ) : base64ModTable (n % 3) = encodedLength n / 4 * 3 - n := by
  have hlt : n % 3 < 3 := Nat.mod_lt _ (by decide)
  obtain h|h|h : n % 3 = 0 ∨ n % 3 = 1 ∨ n % 3 = 2 := by omega
  all_goals
    rw [h, encodedLength]
    simp only [base64ModTable]
    omega

/-- `cname_encode` and `base64_encode` return `b`. -/
def Encodes (octet : UInt8 → ℕ) (table : List UInt8) (fill : UInt8) (mem : ℕ → UInt8)
    (data : List UInt8) (b : Buffer) : Prop :=
  ∃ fuel, encode octet table fill fuel mem data = some b

theorem encodes_iff :
    Encodes octet table fill mem data b ↔
      ∃ s, Ends (fun s => s.i < data.length) (encodeRound octet table data)
          ⟨0, 0, Function.update mem (encodedLength data.length) 0⟩ s ∧
        b = ⟨fillEnd fill data.length (encodedLength data.length) s.out,
          encodedLength data.length⟩ := by
  constructor
  · rintro ⟨fuel, h⟩
    obtain ⟨s, hs, rfl⟩ := Option.map_eq_some_iff.mp h
    exact ⟨s, ⟨fuel, hs⟩, rfl⟩
  · rintro ⟨s, ⟨fuel, hs⟩, rfl⟩
    exact ⟨fuel, Option.map_eq_some_iff.mpr ⟨s, hs, rfl⟩⟩

/-- Before round `k` the counters are where the groups put them. -/
structure Rounds (data : List UInt8) (k : ℕ) (s : Cursor) : Prop where
  i_eq : s.i = min (3 * k) data.length
  j_eq : s.j = 4 * k % 2 ^ 32

/-- A round writes its four characters below `2 ^ 32`, where those of the groups up to it go. -/
theorem Rounds.step (octet : UInt8 → ℕ) (table : List UInt8) (hlen : data.length < 2 ^ 32) (h : Rounds data k s) :
    Rounds data (k + 1) (encodeRound octet table data s) ∧
      ∀ p, (encodeRound octet table data s).out p =
        if s.j ≤ p ∧ p < s.j + 4 then charAt octet table data (4 * k + (p - s.j))
        else s.out p := by
  have hi := h.i_eq
  have hj := h.j_eq
  rw [encodeRound_eq hlen hi]
  refine ⟨⟨?_, ?_⟩, ?_⟩
  · rw [foldl_put_i]
    change min (3 * k + 3) data.length = _
    congr 1
  · have hlt' : s.j < 2 ^ 32 := by omega
    rw [foldl_put_j]
    · simp only [List.length_map, List.length_range]
      omega
    · exact hlt'
  · intro p
    rw [foldl_put_out (by simp; omega)]
    simp only [List.length_map, List.length_range]
    by_cases hp : s.j ≤ p ∧ p < s.j + 4
    · rw [if_pos hp, if_pos hp, List.getD_eq_getElem?_getD,
        List.getElem?_eq_getElem (by simp; omega)]
      simp
    · rw [if_neg hp, if_neg hp]

/-- What is written below `2 ^ 32` before round `k`. If the characters of all groups up to it
fit there, each of them is where it belongs. -/
structure Encoded (octet : UInt8 → ℕ) (table : List UInt8) (data : List UInt8)
    (mem : ℕ → UInt8) (k : ℕ) (s : Cursor) : Prop where
  rounds : Rounds data k s
  isChar : ∀ p, p < 4 * k → p < 2 ^ 32 → ∃ q, s.out p = charAt octet table data q
  out_eq : 4 * k ≤ 2 ^ 32 →
    ∀ p, s.out p = if p < 4 * k then charAt octet table data p else mem p

theorem Encoded.step (hlen : data.length < 2 ^ 32) (h : Encoded octet table data mem k s) :
    Encoded octet table data mem (k + 1) (encodeRound octet table data s) := by
  obtain ⟨hnext, hout⟩ := h.rounds.step octet table hlen
  have hj := h.rounds.j_eq
  refine ⟨hnext, ?_, ?_⟩
  · intro p hp hp'
    rw [hout]
    split
    · exact ⟨_, rfl⟩
    · exact h.isChar p (by omega) hp'
  · intro hle p
    have hj' : s.j = 4 * k := by omega
    rw [hout, h.out_eq (by omega), hj']
    by_cases hp : 4 * k ≤ p ∧ p < 4 * k + 4
    · rw [if_pos hp, if_pos (by omega), show 4 * k + (p - 4 * k) = p by omega]
    · rw [if_neg hp]
      by_cases hlt : p < 4 * k
      · rw [if_pos hlt, if_pos (by omega)]
      · rw [if_neg hlt, if_neg (by omega)]

/-- The encoder ends on every input whose length is an `unsigned`. -/
theorem encode_ends (octet : UInt8 → ℕ) (table : List UInt8) (mem : ℕ → UInt8)
    (hlen : data.length < 2 ^ 32) :
    ∃ s, Ends (fun s => s.i < data.length) (encodeRound octet table data) ⟨0, 0, mem⟩ s ∧
      Encoded octet table data mem ((data.length + 2) / 3) s := by
  have hcond : ∀ k s, k < (data.length + 2) / 3 → Encoded octet table data mem k s →
      s.i < data.length := by
    intro k s hk h
    rw [h.rounds.i_eq]
    omega
  apply ends_of_rounds
  · exact fun k s hk h => decide_eq_true (hcond k s hk h)
  · exact fun k s _ h => h.step hlen
  · intro s h
    rw [decide_eq_false_iff_not, h.rounds.i_eq]
    omega
  · exact ⟨⟨by simp, rfl⟩, by simp, by simp⟩

theorem fillEnd_apply (n : ℕ) (out : ℕ → UInt8) (p : ℕ) :
    fillEnd fill n (encodedLength n) out p =
      if keptLength n ≤ p ∧ p < encodedLength n then fill else out p := by
  have hlt : n % 3 < 3 := Nat.mod_lt _ (by decide)
  have hthree : n % 3 = 0 ∨ n % 3 = 1 ∨ n % 3 = 2 := by omega
  have hpos : n % 3 ≠ 0 → 4 ≤ encodedLength n := by
    intro h
    rw [encodedLength]
    omega
  rw [fillEnd, keptLength]
  rcases hthree with h|h|h
  · rw [h, if_neg (by simp [base64ModTable])]
    rfl
  · rw [h]
    simp only [base64ModTable, List.range_succ, List.range_zero, List.nil_append,
      List.foldl_append, List.foldl_cons, List.foldl_nil, Function.update_apply]
    split_ifs <;> first | rfl | omega
  · rw [h]
    simp only [base64ModTable, List.range_succ, List.range_zero, List.nil_append,
      List.foldl_cons, List.foldl_nil, Function.update_apply]
    split_ifs <;> first | rfl | omega

/-- What the encoder returns where its counters do not wrap around. -/
theorem exists_encodes (octet : UInt8 → ℕ) (table : List UInt8) (fill : UInt8) (mem : ℕ → UInt8)
    (hlen : encodedLength data.length ≤ 2 ^ 32) :
    ∃ b, Encodes octet table fill mem data b ∧ b.length = encodedLength data.length ∧
      ∀ p, b.bytes p =
        if p < keptLength data.length then charAt octet table data p
        else if p < encodedLength data.length then fill
        else if p = encodedLength data.length then 0 else mem p := by
  have hlen' : data.length < 2 ^ 32 := by
    rw [encodedLength] at hlen
    omega
  obtain ⟨s, hends, hs⟩ := encode_ends octet table _ hlen'
  refine ⟨_, encodes_iff.mpr ⟨s, hends, rfl⟩, rfl, ?_⟩
  intro p
  have hout : s.out p = if p < encodedLength data.length then charAt octet table data p
      else Function.update mem (encodedLength data.length) 0 p := hs.out_eq hlen p
  simp only [fillEnd_apply, hout]
  have hkept : keptLength data.length ≤ encodedLength data.length := Nat.sub_le _ _
  by_cases hp : p < keptLength data.length
  · rw [if_neg (by omega), if_pos (by omega), if_pos hp]
  · rw [if_neg hp]
    by_cases hp' : p < encodedLength data.length
    · rw [if_pos ⟨not_lt.mp hp, hp'⟩, if_pos hp']
    · rw [if_neg (fun h => hp' h.2), if_neg hp', if_neg hp', Function.update_apply]

theorem Encodes.unique {b' : Buffer} (h : Encodes octet table fill mem data b)
    (h' : Encodes octet table fill mem data b') : b = b' := by
  obtain ⟨s, hs, rfl⟩ := encodes_iff.mp h
  obtain ⟨s', hs', rfl⟩ := encodes_iff.mp h'
  rw [hs.unique hs']

/-! ## The text in the buffer -/

/-- The text ends at the first NUL. -/
theorem text_eq {n : ℕ} (hn : n ≤ b.length) (hne : ∀ p < n, b.bytes p ≠ 0)
    (hzero : b.bytes n = 0) : b.text = (List.range n).map b.bytes := by
  obtain ⟨m, hm⟩ := Nat.exists_eq_add_of_le hn
  rw [Buffer.text, show b.length + 1 = n + (m + 1) by omega, List.range_add,
    List.range_succ_eq_map, List.map_append, List.takeWhile_append_of_pos]
  · simp [hzero]
  · intro c hc
    obtain ⟨p, hp, rfl⟩ := List.mem_map.mp hc
    simpa using hne p (List.mem_range.mp hp)

theorem le_length_text {n : ℕ} (hn : n ≤ b.length) (hne : ∀ p < n, b.bytes p ≠ 0) :
    n ≤ b.text.length := by
  obtain ⟨m, hm⟩ := Nat.exists_eq_add_of_le hn
  rw [Buffer.text, show b.length + 1 = n + (m + 1) by omega, List.range_add, List.map_append,
    List.takeWhile_append_of_pos]
  · simp
  · intro c hc
    obtain ⟨p, hp, rfl⟩ := List.mem_map.mp hc
    simpa using hne p (List.mem_range.mp hp)

end Encoder

end Extempore.NameMangling
