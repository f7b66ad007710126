import Extempore.OscArguments

/-!
# Buffers of outgoing OSC messages

`sendOSC` encodes the arguments into a buffer of 1024 bytes and the message into one of 2048 bytes,
whatever the arguments are. Where the bytes of every argument lie follows from the sizes of those
before it.
-/

namespace Extempore.OscBuffers
open SchemeReader OscStrings OscArguments

/-- No byte is written behind the buffer of the arguments, and address, type tags and body together
are not longer than the message. -/
def WritesInside (osc : Config) (address : List UInt8) (arg : Value) : Prop :=
  ∃ e, processArgs osc arg ⟨[], ascii ","⟩ = some e ∧
    (setOSCString (cString address) ++ setOSCString e.typetags ++ e.body).length ≤ 1024 + tmpsize

/-- A list of arguments, with proper lists in it only. -/
def Proper : Value → Prop
  | .nil => True
  | .pair (.pair a b) arg => Proper (.pair a b) ∧ Proper arg
  | .pair _ arg => Proper arg
  | _ => False

/-- The bytes of an argument that is a string or a number. -/
def itemSize (osc : Config) : Value → Option ℕ
  | .string s => some (paddedLength (cString s).length)
  | .integer _ | .other 0 _ => some (match osc.schemeIntegerType with | .i => 4 | .h => 8)
  | .real _ => some (match osc.schemeRealType with | .f => 4 | .d => 8)
  | _ => none

/-- The bytes of a list. An argument that is neither a string, a number nor a list with elements
takes as many as the string or number before it, `ret`. -/
def bytesOf (osc : Config) : Value → ℕ → ℕ
  | .pair (.pair a b) arg, _ => bytesOf osc (.pair a b) 0 + bytesOf osc arg 0
  | .pair .vector arg, ret => bytesOf osc arg ret
  | .pair .symbol arg, ret => bytesOf osc arg ret
  | .pair item arg, ret =>
    match itemSize osc item with
    | some n => n + bytesOf osc arg n
    | none => ret + bytesOf osc arg ret
  | _, _ => 0

/-- Where the strings and numbers of a list end, the first one at `pos`. -/
def ends (osc : Config) : Value → ℕ → ℕ → List ℕ
  | .pair (.pair a b) arg, _, pos =>
    ends osc (.pair a b) 0 pos ++ ends osc arg 0 (pos + bytesOf osc (.pair a b) 0)
  | .pair .vector arg, ret, pos => ends osc arg ret pos
  | .pair .symbol arg, ret, pos => ends osc arg ret pos
  | .pair item arg, ret, pos =>
    match itemSize osc item with
    | some n => (pos + n) :: ends osc arg n (pos + n)
    | none => ends osc arg ret (pos + ret)
  | _, _, _ => []

/-- The number of type tags behind the comma. -/
def tagCount (osc : Config) : Value → ℕ
  | .pair (.pair a b) arg => tagCount osc (.pair a b) + tagCount osc arg + 2
  | .pair item arg => (if (itemSize osc item).isSome then 1 else 0) + tagCount osc arg
  | _ => 0

variable {osc : Config} {v car cdr : Value} {e : Encoded} {ret : ℕ}

theorem Proper.tail (h : Proper (.pair car cdr)) : Proper cdr := by
  cases car with
  | pair a b => exact h.2
  | _ => exact h

theorem Proper.listLength (h : Proper v) :
    ∃ k : ℕ, ∀ m, OscArguments.listLength m v = m + k := by
  induction v with
  | nil => exact ⟨0, fun m => by simp [OscArguments.listLength]⟩
  | pair car cdr _ ih =>
    obtain ⟨k, hk⟩ := ih h.tail
    refine ⟨k + 1, fun m => ?_⟩
    rw [OscArguments.listLength, hk]
    push_cast
    ring
  | _ => cases h

/-- The size of an item is that of its bytes. -/
theorem encodeItem_itemSize (osc : Config) (v : Value) :
    (encodeItem osc v).map (fun r => r.2.length) = itemSize osc v := by
  cases v with
  | string s => simp [encodeItem, itemSize, length_setOSCString]
  | integer n =>
    simp only [encodeItem, itemSize]
    cases osc.schemeIntegerType <;> simp [BigEndian.length_encode]
  | real bits =>
    simp only [encodeItem, itemSize]
    cases osc.schemeRealType <;> simp [BigEndian.length_encode]
  | other numType n =>
    cases numType with
    | zero =>
      simp only [encodeItem, itemSize]
      cases osc.schemeIntegerType <;> simp [BigEndian.length_encode]
    | succ numType => rfl
  | _ => rfl

/-- The list is laid out behind `e`: it is written if all strings and numbers end inside the buffer,
and then takes its bytes and tags. -/
structure LaidOut (osc : Config) (v : Value) (ret : ℕ) (e : Encoded) (r : Option Encoded) :
    Prop where
  isSome_iff : r.isSome ↔ ∀ x ∈ ends osc v ret e.body.length, x ≤ tmpsize
  body : ∀ e', r = some e' → e'.body.length = e.body.length + bytesOf osc v ret
  typetags : ∀ e', r = some e' → e'.typetags.length = e.typetags.length + tagCount osc v

/-- A string, a number or a value of another kind in front of the rest. -/
theorem laidOut_item {n : ℕ} (hrest : ∀ ret e, LaidOut osc cdr ret e (processItems osc cdr n ret e))
    (hloop : processItems osc (.pair car cdr) (n + 1) ret e =
      match encodeItem osc car with
      | some (tag, bytes) => (e.put tag bytes).bind fun e => processItems osc cdr n bytes.length e
      | none => processItems osc cdr n ret (e.skip osc ret))
    (hends : ∀ pos, ends osc (.pair car cdr) ret pos =
      match itemSize osc car with
      | some k => (pos + k) :: ends osc cdr k (pos + k)
      | none => ends osc cdr ret (pos + ret))
    (hbytes : bytesOf osc (.pair car cdr) ret =
      match itemSize osc car with
      | some k => k + bytesOf osc cdr k
      | none => ret + bytesOf osc cdr ret)
    (htags : tagCount osc (.pair car cdr) =
      (if (itemSize osc car).isSome then 1 else 0) + tagCount osc cdr) :
    LaidOut osc (.pair car cdr) ret e (processItems osc (.pair car cdr) (n + 1) ret e) := by
  have hsize := encodeItem_itemSize osc car
  rw [hloop]
  cases hitem : encodeItem osc car with
  | none =>
    rw [hitem] at hsize
    have hskip : (e.skip osc ret).body.length = e.body.length + ret := by simp [Encoded.skip]
    have hr := hrest ret (e.skip osc ret)
    rw [← hsize] at hends hbytes htags
    have hbytes' : bytesOf osc (.pair car cdr) ret = ret + bytesOf osc cdr ret := hbytes
    have htags' : tagCount osc (.pair car cdr) = 0 + tagCount osc cdr := htags
    refine ⟨?_, ?_, ?_⟩
    · rw [hends, ← hskip]
      exact hr.isSome_iff
    · intro e' he
      rw [hr.body e' he, hskip, hbytes', Nat.add_assoc]
    · intro e' he
      rw [hr.typetags e' he, htags', Nat.zero_add]
      rfl
  | some r =>
    obtain ⟨tag, bytes⟩ := r
    rw [hitem] at hsize
    rw [← hsize] at hends hbytes htags
    have hbytes' : bytesOf osc (.pair car cdr) ret = bytes.length + bytesOf osc cdr bytes.length :=
      hbytes
    have htags' : tagCount osc (.pair car cdr) = 1 + tagCount osc cdr := htags
    show LaidOut osc (.pair car cdr) ret e
      ((e.put tag bytes).bind fun e => processItems osc cdr n bytes.length e)
    by_cases hfit : e.body.length + bytes.length ≤ tmpsize
    · have hr := hrest bytes.length ⟨e.body ++ bytes, e.typetags ++ [tag]⟩
      have hlen : (e.body ++ bytes).length = e.body.length + bytes.length := List.length_append
      rw [put_eq hfit, Option.bind_some]
      refine ⟨?_, ?_, ?_⟩
      · rw [hends, hr.isSome_iff, hlen]
        dsimp only [Option.map_some]
        rw [List.forall_mem_cons, and_iff_right hfit]
      · intro e' he
        rw [hr.body e' he, hlen, hbytes', Nat.add_assoc]
      · intro e' he
        rw [hr.typetags e' he, htags', List.length_append, List.length_singleton, Nat.add_assoc]
    · have hput : e.put tag bytes = none := if_neg hfit
      rw [hput, Option.bind_none]
      refine ⟨?_, ?_, ?_⟩
      · rw [hends]
        exact iff_of_false (by simp) fun h => hfit (List.forall_mem_cons.mp h).1
      · intro e' he
        cases he
      · intro e' he
        cases he

/-- A list with elements in front of the rest. -/
theorem laidOut_list {a b : Value} {n k : ℕ}
    (hlist : ∀ ret e, LaidOut osc (.pair a b) ret e (processItems osc (.pair a b) k ret e))
    (hrest : ∀ ret e, LaidOut osc cdr ret e (processItems osc cdr n ret e)) :
    LaidOut osc (.pair (.pair a b) cdr) ret e
      ((processItems osc (.pair a b) k 0 (e.tag 91)).bind fun e =>
        processItems osc cdr n 0 (e.tag 93)) := by
  have hl := hlist 0 (e.tag 91)
  have hbody : (e.tag 91).body = e.body := rfl
  have htag : (e.tag 91).typetags.length = e.typetags.length + 1 := by simp [Encoded.tag]
  cases hinner : processItems osc (.pair a b) k 0 (e.tag 91) with
  | none =>
    have hfar := hl.isSome_iff
    rw [hinner, hbody] at hfar
    refine ⟨?_, ?_, ?_⟩
    · rw [Option.bind_none, ends, List.forall_mem_append, ← hfar]
      simp
    · intro e' he
      cases he
    · intro e' he
      cases he
  | some e₁ =>
    have hr := hrest 0 (e₁.tag 93)
    have hbody₁ : (e₁.tag 93).body.length = e.body.length + bytesOf osc (.pair a b) 0 :=
      hl.body e₁ hinner
    have htag₁ : (e₁.tag 93).typetags.length =
        e.typetags.length + 1 + tagCount osc (.pair a b) + 1 := by
      have htags := hl.typetags e₁ hinner
      simp only [Encoded.tag, List.length_append, List.length_singleton] at htags ⊢
      omega
    have hnear := hl.isSome_iff
    rw [hinner, hbody] at hnear
    refine ⟨?_, ?_, ?_⟩
    · rw [Option.bind_some, ends, List.forall_mem_append, hr.isSome_iff, hbody₁]
      exact (and_iff_right (hnear.mp rfl)).symm
    · intro e' he
      rw [hr.body e' he, hbody₁, bytesOf]
      omega
    · intro e' he
      rw [hr.typetags e' he, htag₁, tagCount]
      omega

theorem laidOut_processItems (h : Proper v) (ret : ℕ) (e : Encoded) :
    LaidOut osc v ret e (processItems osc v (listLength 0 v).toNat ret e) := by
  induction v generalizing ret e with
  | nil =>
    refine ⟨by simp [processItems, ends], ?_, ?_⟩
    · intro e' he
      cases he
      rfl
    · intro e' he
      cases he
      rfl
  | pair car cdr ihcar ihcdr =>
    have hrest := ihcdr h.tail
    rw [items_cons h.tail.listLength]
    cases car with
    | pair a b => exact laidOut_list (ihcar h.1) hrest
    | vector =>
      have hr := hrest ret e
      have htags : tagCount osc (.pair .vector cdr) = tagCount osc cdr := Nat.zero_add _
      exact ⟨hr.isSome_iff, hr.body, fun e' he => (hr.typetags e' he).trans (by rw [htags])⟩
    | symbol =>
      have hr := hrest ret e
      have htags : tagCount osc (.pair .symbol cdr) = tagCount osc cdr := Nat.zero_add _
      exact ⟨hr.isSome_iff, hr.body, fun e' he => (hr.typetags e' he).trans (by rw [htags])⟩
    | nil => exact laidOut_item hrest rfl (fun _ => rfl) rfl rfl
    | string s => exact laidOut_item hrest rfl (fun _ => rfl) rfl rfl
    | integer i => exact laidOut_item hrest rfl (fun _ => rfl) rfl rfl
    | real bits => exact laidOut_item hrest rfl (fun _ => rfl) rfl rfl
    | other numType i => exact laidOut_item hrest rfl (fun _ => rfl) rfl rfl
  | _ => cases h

/-- The sizes for which everything is written inside. -/
structure SizesFit (osc : Config) (address : List UInt8) (arg : Value) : Prop where
  arguments : ∀ x ∈ ends osc arg 0 0, x ≤ tmpsize
  message : paddedLength (cString address).length + paddedLength (1 + tagCount osc arg) +
    bytesOf osc arg 0 ≤ 1024 + tmpsize

/-- No buffer is overrun just if every string and number ends inside the buffer of the arguments and
address, tags and arguments fit into the message. -/
theorem writesInside_iff (osc : Config) (address : List UInt8) {arg : Value} (h : Proper arg) :
    WritesInside osc address arg ↔ SizesFit osc address arg := by
  have hlaid := @laidOut_processItems osc _ h 0 ⟨[], ascii ","⟩
  have hlen (e : Encoded) (he : processArgs osc arg ⟨[], ascii ","⟩ = some e) :
      (setOSCString (cString address) ++ setOSCString e.typetags ++ e.body).length =
        paddedLength (cString address).length + paddedLength (1 + tagCount osc arg) +
          bytesOf osc arg 0 := by
    have hbody := hlaid.body e he
    have htags := hlaid.typetags e he
    rw [List.length_append, List.length_append, length_setOSCString, length_setOSCString, hbody,
      htags]
    simp [ascii]
  constructor
  · intro hwrites
    obtain ⟨e, he, hfit⟩ := hwrites
    rw [hlen e he] at hfit
    refine ⟨hlaid.isSome_iff.mp ?_, hfit⟩
    rw [← processArgs, he]
    rfl
  · intro hsizes
    have hsome := hlaid.isSome_iff.mpr hsizes.arguments
    obtain ⟨e, he⟩ := Option.isSome_iff_exists.mp hsome
    refine ⟨e, he, ?_⟩
    rw [hlen e he]
    exact hsizes.message

/-- A number, a list with a string in it, and an empty list. -/
theorem writesInside_nested :
    WritesInside initialConfig (ascii "/a") (.pair (.integer 7)
      (.pair (.pair (.string (ascii "a")) .nil) (.pair .nil .nil))) :=
  (writesInside_iff initialConfig (ascii "/a") (by simp [Proper])).mpr ⟨by decide, by decide⟩

theorem length_cString_replicate (n : ℕ) : (cString (List.replicate n 97)).length = n := by
  rw [cString, List.takeWhile_replicate]
  simp

/-- A string of 1024 characters ends four bytes behind the buffer of the arguments. -/
theorem not_writesInside_string :
    ¬ WritesInside initialConfig (ascii "/a") (.pair (.string (List.replicate 1024 97)) .nil) := by
  generalize hs : List.replicate 1024 (97 : UInt8) = s
  have hsize : (cString s).length = 1024 := by
    rw [← hs]
    exact length_cString_replicate 1024
  intro h
  obtain ⟨e, he, -⟩ := h
  have hproper : Proper (.pair (.string s) .nil) := trivial
  have hlaid := @laidOut_processItems initialConfig _ hproper 0 ⟨[], ascii ","⟩
  have hends := hlaid.isSome_iff.mp (by rw [← processArgs, he]; rfl)
  have hend := hends (0 + paddedLength (cString s).length) List.mem_cons_self
  rw [hsize] at hend
  revert hend
  decide

end Extempore.OscBuffers
