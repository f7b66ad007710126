import Mathlib.Tactic.Ring
import Extempore.SchemeReader

/-!
# OSC strings

An OSC string is a run of bytes with a terminating NUL, padded to a multiple of four bytes.
`setOSCString` writes one. `getOSCString` reads one and puts a backslash before quotes, so
that the string can stand between double quotes in a Scheme expression.
-/

namespace Extempore.OscStrings
open SchemeReader

/-- Memory seen from a `char*`. -/
abbrev Bytes := ℤ → UInt8

/-- `data + pos` -/
def Bytes.at (data : Bytes) (pos : ℤ) : Bytes := fun i => data (pos + i)

theorem at_at (data : Bytes) (i j : ℤ) : (data.at i).at j = data.at (i + j) := by
  funext k
  simp only [Bytes.at, add_assoc]

theorem at_zero (data : Bytes) : data.at 0 = data := by
  funext k
  simp only [Bytes.at, zero_add]

/-- Memory that begins with the given bytes and is zero behind them. -/
def Bytes.ofList (bs : List UInt8) : Bytes := fun i => bs.getD i.toNat 0

abbrev quote : UInt8 := 0x22
abbrev backslash : UInt8 := 0x5c

/-- The copying loop of `getOSCString`: up to the first NUL, at most `n` characters more. -/
def copyChars (data : Bytes) (strCnt : ℤ) : ℕ → List UInt8
  | 0 => []
  | n + 1 => if data strCnt = 0 then [] else data strCnt :: copyChars data (strCnt + 1) n

/-- The characters that `getOSCString` copies. -/
def oscChars (data : Bytes) : List UInt8 := copyChars data 0 4096

/-- The escaping loop of `getOSCString`; `prev` is the character before the next one in the
string as rewritten so far. `none` is the exception of `str->at(i-1)` for `i = 0`. -/
def escapeQuotes (prev : Option UInt8) : List UInt8 → Option (List UInt8)
  | [] => some []
  | b :: bs =>
    if b = quote then
      match prev with
      | none => none
      | some c =>
        if c ≠ backslash then (escapeQuotes (some b) bs).map fun out => backslash :: b :: out
        else (escapeQuotes (some b) bs).map fun out => b :: out
    else (escapeQuotes (some b) bs).map fun out => b :: out

/-- The bytes that a string of `n` characters takes in a message. -/
def paddedLength (n : ℕ) : ℕ := n + (4 - n % 4)

/-- `getOSCString` on an empty string: the escaped characters and the bytes consumed. -/
def getOSCString (data : Bytes) : Option (List UInt8 × ℤ) :=
  (escapeQuotes none (oscChars data)).map fun str => (str, paddedLength (oscChars data).length)

/-- `setOSCString`: the bytes written, whose number is the result. -/
def setOSCString (str : List UInt8) : List UInt8 :=
  str ++ List.replicate (4 - str.length % 4) 0

private theorem zero_notMem_copyChars (data : Bytes) (i : ℤ) (n : ℕ) :
    0 ∉ copyChars data i n := by
  induction n generalizing i with
  | zero => simp [copyChars]
  | succ n ih =>
    rw [copyChars]
    split
    · simp
    · rename_i h
      simp [ih, Ne.symm h]

theorem zero_notMem_oscChars (data : Bytes) : 0 ∉ oscChars data :=
  zero_notMem_copyChars data 0 4096

private theorem length_copyChars_le (data : Bytes) (i : ℤ) (n : ℕ) :
    (copyChars data i n).length ≤ n := by
  induction n generalizing i with
  | zero => simp [copyChars]
  | succ n ih =>
    rw [copyChars]
    split
    · simp
    · simp [ih]

theorem length_oscChars_le (data : Bytes) : (oscChars data).length ≤ 4096 :=
  length_copyChars_le data 0 4096

theorem length_setOSCString (str : List UInt8) :
    (setOSCString str).length = paddedLength str.length := by
  simp [setOSCString, paddedLength]

private theorem copyChars_eq {data : Bytes} {str : List UInt8} {i : ℤ} {n : ℕ} (hz : 0 ∉ str)
    (hlen : str.length < n) (hdata : ∀ k (h : k < str.length), data (i + k) = str[k])
    (hend : data (i + str.length) = 0) : copyChars data i n = str := by
  induction str generalizing i n with
  | nil =>
    obtain ⟨n, rfl⟩ : ∃ m, n = m + 1 := ⟨n - 1, by simp at hlen; omega⟩
    simpa [copyChars] using hend
  | cons b str ih =>
    obtain ⟨n, rfl⟩ : ∃ m, n = m + 1 := ⟨n - 1, by simp at hlen; omega⟩
    simp only [List.mem_cons, not_or] at hz
    rw [List.length_cons] at hlen hend
    have hb : data i = b := by
      have h := hdata 0 (by simp)
      rwa [Nat.cast_zero, add_zero] at h
    have hrest : copyChars data (i + 1) n = str := by
      refine ih hz.2 (by omega) (fun k hk => ?_) ?_
      · have h := hdata (k + 1) (by simpa using hk)
        rw [List.getElem_cons_succ] at h
        rw [← h]
        congr 1
        push_cast
        ring
      · rw [← hend]
        congr 1
        push_cast
        ring
    rw [copyChars, hb, if_neg (Ne.symm hz.1), hrest]

/-- A string in memory with its terminator. -/
theorem oscChars_eq {data : Bytes} {str : List UInt8} (hz : 0 ∉ str) (hlen : str.length < 4096)
    (hdata : ∀ k (h : k < str.length), data k = str[k]) (hend : data str.length = 0) :
    oscChars data = str :=
  copyChars_eq hz hlen (fun k hk => by rw [zero_add]; exact hdata k hk) (by rwa [zero_add])

private theorem escapeQuotes_some (s : List UInt8) (prev : UInt8) :
    ∃ out, escapeQuotes (some prev) s = some out := by
  induction s generalizing prev with
  | nil => exact ⟨[], rfl⟩
  | cons b s ih =>
    obtain ⟨out, ho⟩ := ih b
    simp only [escapeQuotes, ho, Option.map_some]
    split_ifs <;> exact ⟨_, rfl⟩

/-- Only a quote at the start makes the escaping fail. -/
theorem escapeQuotes_eq_none_iff {s : List UInt8} :
    escapeQuotes none s = none ↔ s.head? = some quote := by
  cases s with
  | nil => simp [escapeQuotes]
  | cons b s =>
    obtain ⟨out, ho⟩ := escapeQuotes_some s b
    by_cases hb : b = quote
    · simp [escapeQuotes, hb]
    · simp [escapeQuotes, hb, ho]

/-! ## Reading a string back -/

/-- The escaped string, with the closing quote appended, is read as one string token with
the content `s`, and reading stops behind that quote. -/
def ReadsBack (s : List UInt8) : Prop :=
  ∃ out, escapeQuotes none s = some out ∧ ∀ past rest, ∃ past',
    readstrexp past .ok 0 [] (out ++ quote :: rest) = (some s, ⟨past', rest⟩)

/-- No backslash, no quote at the start, no byte that the reader takes for the end of input. -/
structure Clean (s : List UInt8) : Prop where
  noBackslash : backslash ∉ s
  head : s.head? ≠ some quote
  noEof : (255 : UInt8) ∉ s

instance (s : List UInt8) : Decidable (Clean s) :=
  decidable_of_iff (backslash ∉ s ∧ s.head? ≠ some quote ∧ (255 : UInt8) ∉ s)
    ⟨fun h => ⟨h.1, h.2.1, h.2.2⟩, fun h => ⟨h.1, h.2, h.3⟩⟩

@[simp] theorem signedChar_quote : signedChar quote = 34 := by decide

@[simp] theorem signedChar_backslash : signedChar backslash = 92 := by decide

theorem signedChar_inj {a b : UInt8} : signedChar a = signedChar b ↔ a = b := by
  have ha := a.toNat_lt
  have hb := b.toNat_lt
  rw [← UInt8.toNat_inj]
  simp only [signedChar]
  split <;> split <;> omega

theorem signedChar_eq_eof {b : UInt8} : signedChar b = eof ↔ b = 255 := by
  rw [show eof = signedChar 255 by decide, signedChar_inj]

theorem signedChar_eq_quote {b : UInt8} : signedChar b = chr '"' ↔ b = quote := by
  rw [show chr '"' = signedChar quote by decide, signedChar_inj]

theorem signedChar_eq_backslash {b : UInt8} : signedChar b = chr '\\' ↔ b = backslash := by
  rw [show chr '\\' = signedChar backslash by decide, signedChar_inj]

/-- An ordinary character is collected. -/
theorem readstrexp_cons {past p bs : List UInt8} {c1 : ℤ} {b : UInt8} (hz : b ≠ 0)
    (he : b ≠ 255) (hq : b ≠ quote) (hb : b ≠ backslash) (hp : p.length < strbuffSize) :
    readstrexp past .ok c1 p (b :: bs) = readstrexp (b :: past) .ok c1 (p ++ [b]) bs := by
  rw [readstrexp, if_neg hz, if_neg, if_neg (by rwa [signedChar_eq_backslash]),
    if_neg (by rwa [signedChar_eq_quote])]
  rw [signedChar_eq_eof]
  simp only [he, false_or]
  omega

/-- An escaped quote is collected without its backslash. -/
theorem readstrexp_escaped {past p bs : List UInt8} {c1 : ℤ} (hp : p.length < strbuffSize) :
    readstrexp past .ok c1 p (backslash :: quote :: bs) =
      readstrexp (quote :: backslash :: past) .ok c1 (p ++ [quote]) bs := by
  have hp' : ¬ p.length > strbuffSize - 1 := by omega
  have hz : backslash ≠ 0 ∧ quote ≠ 0 := by decide
  simp [readstrexp, hp', hz, chr, eof]

theorem readstrexp_quote {past p bs : List UInt8} {c1 : ℤ} (hp : p.length < strbuffSize) :
    readstrexp past .ok c1 p (quote :: bs) = (some p, ⟨quote :: past, bs⟩) := by
  have hp' : ¬ p.length > strbuffSize - 1 := by omega
  have hz : quote ≠ 0 := by decide
  simp [readstrexp, hp', hz, chr, eof]

/-- Without backslashes the escaping is undone by the reader. -/
theorem readstrexp_escapeQuotes {s : List UInt8} (p past rest : List UInt8) {prev : UInt8} (c1 : ℤ)
    (hz : 0 ∉ s) (he : (255 : UInt8) ∉ s) (hb : backslash ∉ s) (hprev : prev ≠ backslash)
    (hlen : p.length + s.length < strbuffSize) :
    ∃ out past', escapeQuotes (some prev) s = some out ∧
      readstrexp past .ok c1 p (out ++ quote :: rest) = (some (p ++ s), ⟨past', rest⟩) := by
  induction s generalizing p past prev with
  | nil => exact ⟨[], _, rfl, by simpa using readstrexp_quote hlen⟩
  | cons b s ih =>
    simp only [List.mem_cons, not_or] at hz he hb
    rw [List.length_cons] at hlen
    by_cases hq : b = quote
    · subst hq
      obtain ⟨out, past', hout, hread⟩ := ih (p ++ [quote]) (quote :: backslash :: past)
        hz.2 he.2 hb.2 (by decide : quote ≠ backslash)
        (by simp only [List.length_append, List.length_singleton]; omega)
      refine ⟨backslash :: quote :: out, past', by simp [escapeQuotes, hprev, hout], ?_⟩
      rw [List.cons_append, List.cons_append, readstrexp_escaped (by omega), hread]
      simp
    · obtain ⟨out, past', hout, hread⟩ := ih (p ++ [b]) (b :: past) hz.2 he.2 hb.2 (Ne.symm hb.1)
        (by simp only [List.length_append, List.length_singleton]; omega)
      refine ⟨b :: out, past', by simp [escapeQuotes, hq, hout], ?_⟩
      rw [List.cons_append, readstrexp_cons (Ne.symm hz.1) (Ne.symm he.1) hq (Ne.symm hb.1)
        (by omega), hread]
      simp

theorem Clean.readsBack {s : List UInt8} (h : Clean s) (hz : 0 ∉ s)
    (hlen : s.length ≤ 4096) : ReadsBack s := by
  rcases s with _ | ⟨b, s⟩
  · exact ⟨[], rfl, fun past rest => ⟨quote :: past, readstrexp_quote (by decide)⟩⟩
  · have hq : b ≠ quote := fun hb => h.head (by simp [hb])
    have hb : b ≠ backslash := fun hb => h.noBackslash (by simp [hb])
    have hz0 : b ≠ 0 := fun hb => hz (by simp [hb])
    have he : b ≠ 255 := fun hb => h.noEof (by simp [hb])
    have hlen' : [b].length + s.length < strbuffSize := by
      simp only [List.length_cons, List.length_nil, strbuffSize] at hlen ⊢
      omega
    have htail := fun past rest => readstrexp_escapeQuotes [b] (b :: past) rest 0 (fun hm => hz (by simp [hm]))
      (fun hm => h.noEof (by simp [hm])) (fun hm => h.noBackslash (by simp [hm])) hb hlen'
    obtain ⟨out, _, hout, _⟩ := htail [] []
    refine ⟨b :: out, by simp [escapeQuotes, hq, hout], fun past rest => ?_⟩
    obtain ⟨out', past', hout', hread⟩ := htail past rest
    obtain rfl : out = out' := Option.some.inj (hout.symm.trans hout')
    refine ⟨past', ?_⟩
    rw [List.cons_append, readstrexp_cons hz0 he hq hb (by decide)]
    exact hread

/-- Reading on from `state` with `p` collected gives the string `q` and ends at `curr`. -/
private def Ends (state : StrState) (p q inp curr : List UInt8) : Prop :=
  ∃ past c1 past', readstrexp past state c1 p inp = (some q, ⟨past', curr⟩)

private theorem ends_nil {state : StrState} {p q curr : List UInt8} : ¬ Ends state p q [] curr := by
  rintro ⟨_, _, _, h⟩
  simp [readstrexp] at h

/-- Outside an escape a quote ends the string, a backslash begins an escape and any other
character is collected. -/
private theorem Ends.ok {p q bs curr : List UInt8} {b : UInt8} (h : Ends .ok p q (b :: bs) curr) :
    b ≠ 255 ∧ ((b = quote ∧ q = p ∧ curr = bs) ∨ (b = backslash ∧ Ends .bsl p q bs curr) ∨
      (b ≠ quote ∧ b ≠ backslash ∧ Ends .ok (p ++ [b]) q bs curr)) := by
  obtain ⟨past, c1, past', h⟩ := h
  rw [readstrexp] at h
  split at h
  · simp at h
  · split at h
    · simp at h
    · rename_i he
      refine ⟨fun hb => he (.inl (signedChar_eq_eof.mpr hb)), ?_⟩
      split at h
      · rename_i hb
        exact .inr (.inl ⟨signedChar_eq_backslash.mp hb, _, _, _, h⟩)
      · rename_i hb
        split at h
        · rename_i hq
          simp only [Prod.mk.injEq, Option.some.injEq, Port.mk.injEq] at h
          exact .inl ⟨signedChar_eq_quote.mp hq, h.1.symm, h.2.2.symm⟩
        · rename_i hq
          exact .inr (.inr ⟨fun h => hq (signedChar_eq_quote.mpr h),
            fun h => hb (signedChar_eq_backslash.mpr h), _, _, _, h⟩)

/-- Inside an escape every character yields at most one byte, and no escape begins. -/
private theorem Ends.bsl {p q bs curr : List UInt8} {b : UInt8}
    (h : Ends .bsl p q (b :: bs) curr) :
    b ≠ 255 ∧ ∃ state p', state ≠ .bsl ∧ p'.length ≤ p.length + 1 ∧ Ends state p' q bs curr := by
  obtain ⟨past, c1, past', h⟩ := h
  rw [readstrexp] at h
  split at h
  · simp at h
  · split at h
    · simp at h
    · rename_i he
      refine ⟨fun hb => he (.inl (signedChar_eq_eof.mpr hb)), ?_⟩
      split at h
      · exact ⟨_, _, by simp, by simp, _, _, _, h⟩
      · split at h
        · exact ⟨_, _, by simp, by simp [ascii], _, _, _, h⟩
        · split at h
          · exact ⟨_, _, by simp, by simp [ascii], _, _, _, h⟩
          · split at h
            · exact ⟨_, _, by simp, by simp [ascii], _, _, _, h⟩
            · exact ⟨_, _, by simp, by simp, _, _, _, h⟩

/-- A hexadecimal digit is neither a backslash nor a quote. -/
private theorem Ends.hex {state : StrState} {p q bs curr : List UInt8} {b : UInt8}
    (hs : state = .x1 ∨ state = .x2) (h : Ends state p q (b :: bs) curr) :
    b ≠ backslash ∧ b ≠ quote ∧
      ∃ state p', state ≠ .bsl ∧ p'.length ≤ p.length + 1 ∧ Ends state p' q bs curr := by
  obtain ⟨past, c1, past'', h⟩ := h
  have hdigit (hhex : chr '0' ≤ toupper (signedChar b) ∧ toupper (signedChar b) ≤ chr 'F') :
      b ≠ backslash ∧ b ≠ quote := by
    constructor <;> (rintro rfl; revert hhex; decide)
  have hnext {state' : StrState} {past' p' : List UInt8} {c1' : ℤ} {pt : Port}
      (h : (if chr '0' ≤ toupper (signedChar b) ∧ toupper (signedChar b) ≤ chr 'F' then
        readstrexp past' state' c1' p' bs else (none, pt)) = (some q, ⟨past'', curr⟩))
      (hs : state' ≠ .bsl) (hp : p'.length ≤ p.length + 1) :
      b ≠ backslash ∧ b ≠ quote ∧
        ∃ state p', state ≠ .bsl ∧ p'.length ≤ p.length + 1 ∧ Ends state p' q bs curr := by
    split at h
    · rename_i hhex
      exact ⟨(hdigit hhex).1, (hdigit hhex).2, _, _, hs, hp, _, _, _, h⟩
    · simp at h
  rcases hs with rfl|rfl <;> rw [readstrexp] at h <;>
    simp only [if_true, reduceCtorEq, if_false] at h <;> split at h
  · simp at h
  · split at h
    · simp at h
    · exact hnext h (by simp) (by simp)
  · simp at h
  · split at h
    · simp at h
    · exact hnext h (by simp) (by simp)

/-- An escaped quote is collected. -/
private theorem Ends.bsl_quote {p q bs curr : List UInt8}
    (h : Ends .bsl p q (quote :: bs) curr) : Ends .ok (p ++ [quote]) q bs curr := by
  obtain ⟨past, c1, past', h⟩ := h
  rw [readstrexp] at h
  split at h
  · simp at h
  · split at h
    · simp at h
    · exact ⟨_, _, _, by simpa [chr] using h⟩

/-- What the escaping makes of the first character. -/
private theorem escapeQuotes_cons {prev : Option UInt8} {b : UInt8} {s out : List UInt8}
    (h : escapeQuotes prev (b :: s) = some out) :
    ∃ out', escapeQuotes (some b) s = some out' ∧
      ((b = quote ∧ prev ≠ some backslash ∧ prev ≠ none ∧ out = backslash :: b :: out') ∨
        ((b = quote → prev = some backslash) ∧ out = b :: out')) := by
  by_cases hb : b = quote
  · cases prev with
    | none => simp [escapeQuotes, hb] at h
    | some c =>
      by_cases hc : c = backslash
      · simp only [escapeQuotes, hb, hc, if_true, ne_eq, not_true_eq_false, if_false] at h
        obtain ⟨out', ho, rfl⟩ := Option.map_eq_some_iff.mp h
        exact ⟨out', hb ▸ ho, .inr ⟨fun _ => by rw [hc], by rw [hb]⟩⟩
      · simp only [escapeQuotes, hb, hc, if_true, ne_eq, not_false_eq_true] at h
        obtain ⟨out', ho, rfl⟩ := Option.map_eq_some_iff.mp h
        exact ⟨out', hb ▸ ho, .inl ⟨hb, by simpa using hc, by simp, by rw [hb]⟩⟩
  · simp only [escapeQuotes, hb, if_false] at h
    obtain ⟨out', ho, rfl⟩ := Option.map_eq_some_iff.mp h
    exact ⟨out', ho, .inr ⟨fun hq => absurd hq hb, rfl⟩⟩

/-- Inserted backslashes never count: the content of the token is not longer than the string. -/
private theorem length_le_of_ends {s p q out : List UInt8} {state : StrState}
    {prev : Option UInt8} (hout : escapeQuotes prev s = some out)
    (hpend : state = .bsl → prev = some backslash) (h : Ends state p q (out ++ [quote]) []) :
    q.length ≤ p.length + s.length := by
  induction s generalizing p out state prev with
  | nil =>
    obtain rfl : out = [] := by simpa [escapeQuotes] using hout.symm
    cases state with
    | ok =>
      rcases h.ok.2 with ⟨_, rfl, _⟩|⟨_, hr⟩|⟨_, _, hr⟩
      · simp
      · exact absurd hr ends_nil
      · exact absurd hr ends_nil
    | bsl =>
      obtain ⟨_, _, _, _, _, hr⟩ := h.bsl
      exact absurd hr ends_nil
    | x1 =>
      obtain ⟨_, _, _, _, _, _, hr⟩ := h.hex (.inl rfl)
      exact absurd hr ends_nil
    | x2 =>
      obtain ⟨_, _, _, _, _, _, hr⟩ := h.hex (.inr rfl)
      exact absurd hr ends_nil
  | cons b s ih =>
    obtain ⟨out', ho, ⟨rfl, hprev, -, rfl⟩|⟨hprev, rfl⟩⟩ := escapeQuotes_cons hout
    · -- an inserted backslash meets the reader outside an escape, or it is an error
      cases state with
      | ok =>
        rcases h.ok.2 with ⟨hq, _⟩|⟨_, hr⟩|⟨_, hb, _⟩
        · exact absurd hq (by decide)
        · obtain ⟨_, state', p', hs, hp, hr'⟩ := hr.bsl
          have hle := ih ho (fun h => absurd h hs) hr'
          rw [List.length_cons]
          omega
        · exact absurd rfl hb
      | bsl => exact absurd (hpend rfl) hprev
      | x1 => exact absurd rfl (h.hex (.inl rfl)).1
      | x2 => exact absurd rfl (h.hex (.inr rfl)).1
    · have hnext {state' : StrState} {p' : List UInt8} (hs : state' ≠ .bsl)
          (hp : p'.length ≤ p.length + 1) (hr : Ends state' p' q (out' ++ [quote]) []) :
          q.length ≤ p.length + (b :: s).length := by
        have hle := ih ho (fun h => absurd h hs) hr
        rw [List.length_cons]
        omega
      cases state with
      | ok =>
        rcases h.ok.2 with ⟨_, rfl, _⟩|⟨rfl, hr⟩|⟨_, _, hr⟩
        · omega
        · have hle := ih ho (fun _ => rfl) hr
          rw [List.length_cons]
          omega
        · exact hnext (by simp) (by simp) hr
      | bsl =>
        obtain ⟨_, state', p', hs, hp, hr⟩ := h.bsl
        exact hnext hs hp hr
      | x1 =>
        obtain ⟨_, _, state', p', hs, hp, hr⟩ := h.hex (.inl rfl)
        exact hnext hs hp hr
      | x2 =>
        obtain ⟨_, _, state', p', hs, hp, hr⟩ := h.hex (.inr rfl)
        exact hnext hs hp hr

/-- Where no character of the string is lost, none of them is a backslash or a byte 255. -/
private theorem clean_of_ends {s p q out : List UInt8} {prev : Option UInt8}
    (hout : escapeQuotes prev s = some out) (hprev : prev ≠ some backslash)
    (h : Ends .ok p q (out ++ [quote]) []) (hlen : q.length = p.length + s.length) :
    backslash ∉ s ∧ (255 : UInt8) ∉ s := by
  induction s generalizing p out prev with
  | nil => simp
  | cons b s ih =>
    rw [List.length_cons] at hlen
    have hgo {p' out' : List UInt8} (hb : b ≠ backslash) (he : b ≠ 255)
        (ho : escapeQuotes (some b) s = some out') (hp : p'.length = p.length + 1)
        (hr : Ends .ok p' q (out' ++ [quote]) []) : backslash ∉ b :: s ∧ (255 : UInt8) ∉ b :: s := by
      obtain ⟨h1, h2⟩ := ih ho (by simpa using hb) hr (by omega)
      simp only [List.mem_cons, not_or]
      exact ⟨⟨Ne.symm hb, h1⟩, Ne.symm he, h2⟩
    obtain ⟨out', ho, ⟨rfl, _, -, rfl⟩|⟨hq, rfl⟩⟩ := escapeQuotes_cons hout
    · rcases h.ok.2 with ⟨hb, _⟩|⟨_, hr⟩|⟨_, hb, _⟩
      · exact absurd hb (by decide)
      · exact hgo (by decide) (by decide) ho (by simp) hr.bsl_quote
      · exact absurd rfl hb
    · obtain ⟨he, ⟨rfl, _⟩|⟨rfl, hr⟩|⟨_, hb, hr⟩⟩ := h.ok
      · exact absurd (hq rfl) hprev
      · have hle := length_le_of_ends ho (fun _ => rfl) hr
        omega
      · exact hgo hb he ho (by simp) hr

/-- A string of an OSC message is read back exactly if it has no backslash, no quote at the
start and no byte 255. -/
theorem readsBack_iff {s : List UInt8} (hz : 0 ∉ s) (hlen : s.length ≤ 4096) :
    ReadsBack s ↔ Clean s := by
  refine ⟨?_, fun h => h.readsBack hz hlen⟩
  rintro ⟨out, hout, hread⟩
  have hhead : s.head? ≠ some quote := by
    intro hq
    obtain ⟨l, rfl⟩ := List.head?_eq_some_iff.mp hq
    simp [escapeQuotes] at hout
  obtain ⟨past', h⟩ := hread [] []
  have hends : Ends .ok [] s (out ++ [quote]) [] := ⟨_, _, _, h⟩
  have hclean := clean_of_ends hout (by simp) hends (by simp)
  exact ⟨hclean.1, hhead, hclean.2⟩

end Extempore.OscStrings
