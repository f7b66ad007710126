import Mathlib.Algebra.GroupWithZero.Nat
import Mathlib.Data.List.Infix

/-!
# Terminated records

A stream of records, each followed by the two symbols `c` and `d`, where `c` does not occur
in a record. A prefix of the stream that ends in `c d` is a number of whole records.
-/

namespace Extempore.TerminatedRecords

universe u

variable {α : Type u} {c d : α} {e t rest : List α} {es : List (List α)}

/-- The records one after the other, each with its terminator. -/
def stream (c d : α) (es : List (List α)) : List α := es.flatMap (· ++ [c, d])

@[simp] theorem stream_nil : stream c d [] = [] := rfl

@[simp] theorem stream_cons : stream c d (e :: es) = e ++ c :: d :: stream c d es := by
  simp [stream]

theorem stream_append (es fs : List (List α)) :
    stream c d (es ++ fs) = stream c d es ++ stream c d fs := List.flatMap_append

theorem length_stream : (stream c d es).length = (es.map fun e => e.length + 2).sum := by
  simp [stream, List.length_flatMap]

theorem mem_stream {x : α} : x ∈ stream c d es ↔ ∃ e ∈ es, x ∈ e ∨ x = c ∨ x = d := by
  simp [stream]

/-- Whether a text ends in the terminator is decided by its last two symbols. -/
theorem suffix_append_iff (h : 2 ≤ rest.length) :
    [c, d] <:+ t ++ rest ↔ [c, d] <:+ rest :=
  ⟨fun hs => List.suffix_of_suffix_length_le hs (List.suffix_append t rest) (by simpa using h),
    fun hs => hs.trans (List.suffix_append t rest)⟩

theorem suffix_stream (hne : es ≠ []) : [c, d] <:+ stream c d es := by
  obtain ⟨fs, e, rfl⟩ : ∃ fs e, es = fs ++ [e] :=
    ⟨_, _, (List.dropLast_append_getLast hne).symm⟩
  exact ⟨stream c d fs ++ e, by simp [stream_append]⟩

/-- A prefix of one terminated record that ends in the terminator is the whole of it. -/
private theorem eq_of_prefix (hc : c ∉ e) (ht : [c, d] <:+ t)
    (h : t ++ rest = e ++ [c, d]) : t = e ++ [c, d] ∧ rest = [] := by
  obtain ⟨u, rfl⟩ := ht
  have hlen := congrArg List.length h
  simp only [List.length_append, List.length_cons, List.length_nil] at hlen
  have hrest : rest = [] := by
    by_contra hne
    have hpos : 0 < rest.length := List.length_pos_of_ne_nil hne
    have hu : u.length < e.length := by omega
    have hget : (u ++ c :: (d :: rest))[u.length]? = (e ++ [c, d])[u.length]? := by
      rw [← h]
      simp
    rw [List.getElem?_append_right le_rfl, Nat.sub_self, List.getElem?_append_left hu] at hget
    exact hc (List.mem_of_getElem? hget.symm)
  subst hrest
  exact ⟨by simpa using h, rfl⟩

/-- A prefix of the stream that ends in the terminator consists of whole records. -/
theorem exists_split (hcd : c ≠ d) (hc : ∀ e ∈ es, c ∉ e) (ht : [c, d] <:+ t)
    (h : t ++ rest = stream c d es) :
    ∃ done more, es = done ++ more ∧ t = stream c d done ∧ rest = stream c d more := by
  induction es generalizing t with
  | nil =>
    obtain ⟨rfl, -⟩ := List.append_eq_nil_iff.mp h
    exact absurd (List.suffix_nil.mp ht) (by simp)
  | cons e es ih =>
    have h' : t ++ rest = (e ++ [c, d]) ++ stream c d es := by simpa using h
    rcases List.append_eq_append_iff.mp h' with ⟨m, hm, hrest⟩|⟨m, hm, hes⟩
    · obtain ⟨rfl, rfl⟩ := eq_of_prefix (hc e (by simp)) ht hm.symm
      exact ⟨[e], es, rfl, by simp, by simpa using hrest⟩
    · rcases m with _ | ⟨x, m⟩
      · exact ⟨[e], es, rfl, by simpa using hm, by simpa using hes.symm⟩
      · have hm2 : [c, d] <:+ x :: m := by
          rcases m with _ | ⟨y, m⟩
          · -- one symbol after a terminator cannot complete another one
            rw [hm, show e ++ [c, d] ++ [x] = (e ++ [c]) ++ [d, x] by simp,
              suffix_append_iff (by simp)] at ht
            have hdc := ht.eq_of_length (by simp)
            exact absurd (List.cons.inj hdc).1 hcd
          · rw [hm] at ht
            exact (suffix_append_iff (by simp)).mp ht
        obtain ⟨done, more, rfl, hdone, hmore⟩ :=
          ih (fun e he => hc e (by simp [he])) hm2 hes.symm
        exact ⟨e :: done, more, rfl, by simp [hm, hdone], hmore⟩

end Extempore.TerminatedRecords
