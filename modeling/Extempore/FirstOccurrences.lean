import Mathlib.Data.List.Infix
import Mathlib.Data.List.Nodup
import Mathlib.Logic.Function.Basic

/-!
# The first occurrences in a list

`List.eraseDups` keeps the first occurrence of every element, in order. A list without
repetitions is a prefix of what it begins; lists that are prefixes of one another merge into the
longest of them.
-/

namespace Extempore.FirstOccurrences

universe u v

variable {α : Type u} {β : Type v} [BEq α] [LawfulBEq α] [BEq β] [LawfulBEq β]

omit [LawfulBEq α] in
/-- Induction on what is left behind the first element. -/
theorem filter_induction {P : List α → Prop} (nil : P [])
    (cons : ∀ a l, P (l.filter fun b => !b == a) → P (a :: l)) (l : List α) : P l := by
  induction hn : l.length using Nat.strong_induction_on generalizing l with
  | _ n ih =>
    cases l with
    | nil => exact nil
    | cons a l =>
      have hle := List.length_filter_le (fun b => !b == a) l
      rw [List.length_cons] at hn
      exact cons a l (ih _ (by omega) _ rfl)

theorem nodup_eraseDups (l : List α) : l.eraseDups.Nodup := by
  induction l using filter_induction with
  | nil => exact List.nodup_nil
  | cons a l ih =>
    rw [List.eraseDups_cons, List.nodup_cons]
    refine ⟨fun h => ?_, ih⟩
    have hmem := List.mem_eraseDups.mp h
    simp at hmem

theorem eraseDups_of_nodup {l : List α} (h : l.Nodup) : l.eraseDups = l := by
  induction l with
  | nil => rfl
  | cons a l ih =>
    obtain ⟨ha, hl⟩ := List.nodup_cons.mp h
    have hfilter : (l.filter fun b => !b == a) = l := by
      apply List.filter_eq_self.mpr
      intro b hb
      have hne : b ≠ a := fun heq => ha (heq ▸ hb)
      simp [hne]
    rw [List.eraseDups_cons, hfilter, ih hl]

theorem eraseDups_filter (p : α → Bool) (l : List α) :
    (l.filter p).eraseDups = l.eraseDups.filter p := by
  induction l using filter_induction with
  | nil => rfl
  | cons a l ih =>
    rw [List.eraseDups_cons, List.filter_cons, List.filter_cons]
    by_cases ha : p a
    · rw [if_pos ha, if_pos ha, List.eraseDups_cons, ← ih, List.filter_filter, List.filter_filter]
      congr 3
      funext b
      exact Bool.and_comm _ _
    · rw [if_neg ha, if_neg ha, ← ih, List.filter_filter]
      congr 1
      apply List.filter_congr
      intro b _
      by_cases hb : b = a
      · subst hb
        simp [ha]
      · simp [hb]

theorem eraseDups_map {f : α → β} (hf : Function.Injective f) (l : List α) :
    (l.map f).eraseDups = l.eraseDups.map f := by
  induction l using filter_induction with
  | nil => rfl
  | cons a l ih =>
    have hfilter : (l.filter fun b => !f b == f a) = l.filter fun b => !b == a := by
      apply List.filter_congr
      intro b _
      by_cases hb : b = a
      · subst hb
        simp
      · have hne : f b ≠ f a := fun heq => hb (hf heq)
        simp [hb, hne]
    rw [List.map_cons, List.eraseDups_cons, List.eraseDups_cons, List.map_cons, ← ih,
      List.filter_map, ← hfilter]
    rfl

theorem eraseDups_eq_singleton {l : List α} {a : α} (hne : l ≠ []) (h : ∀ b ∈ l, b = a) :
    l.eraseDups = [a] := by
  cases l with
  | nil => exact absurd rfl hne
  | cons b l =>
    have hb : b = a := h b List.mem_cons_self
    subst hb
    have hfilter : (l.filter fun c => !c == b) = [] := by
      apply List.filter_eq_nil_iff.mpr
      intro c hc
      simp [h c (List.mem_cons_of_mem _ hc)]
    rw [List.eraseDups_cons, hfilter]
    rfl

/-- A list without repetitions stays at the front. -/
theorem prefix_eraseDups_append {l : List α} (h : l.Nodup) (m : List α) :
    l <+: (l ++ m).eraseDups := by
  rw [List.eraseDups_append, eraseDups_of_nodup h]
  exact List.prefix_append _ _

/-- What comes behind adds nothing if it begins the list, and completes the list if the list
begins it. -/
theorem eraseDups_append_of_prefix {l m : List α} (hl : l.Nodup)
    (h : l <+: m.eraseDups ∨ m.eraseDups <+: l) :
    l <+: m.eraseDups ∧ (l ++ m).eraseDups = m.eraseDups ∨
      m.eraseDups <+: l ∧ (l ++ m).eraseDups = l := by
  have hrest : (l ++ m).eraseDups = l ++ m.eraseDups.filter fun b => !l.elem b := by
    rw [List.eraseDups_append, eraseDups_of_nodup hl, ← eraseDups_filter]
    rfl
  cases h with
  | inl hpre =>
    refine .inl ⟨hpre, ?_⟩
    obtain ⟨r, hr⟩ := hpre
    have hnodup := nodup_eraseDups m
    rw [← hr] at hnodup hrest ⊢
    have hdisjoint := (List.nodup_append.mp hnodup).2.2
    have hself : (l.filter fun b => !l.elem b) = [] := by
      apply List.filter_eq_nil_iff.mpr
      intro b hb
      simp [hb]
    have hother : (r.filter fun b => !l.elem b) = r := by
      apply List.filter_eq_self.mpr
      intro b hb
      have hnot : b ∉ l := fun hbl => hdisjoint b hbl b hb rfl
      simp [hnot]
    rw [hrest, List.filter_append, hself, hother, List.nil_append]
  | inr hpre =>
    refine .inr ⟨hpre, ?_⟩
    have hnil : (m.eraseDups.filter fun b => !l.elem b) = [] := by
      apply List.filter_eq_nil_iff.mpr
      intro b hb
      simp [hpre.subset hb]
    rw [hrest, hnil, List.append_nil]

/-- Lists that are prefixes of one another merge into the longest of them. -/
theorem eraseDups_flatten_of_prefixes {L : List (List α)} (hnodup : ∀ l ∈ L, l.Nodup)
    (hcomparable : ∀ l ∈ L, ∀ m ∈ L, l <+: m ∨ m <+: l) :
    (L.flatten.eraseDups = [] ∨ L.flatten.eraseDups ∈ L) ∧ ∀ l ∈ L, l <+: L.flatten.eraseDups := by
  induction L with
  | nil => exact ⟨.inl rfl, by simp⟩
  | cons l L ih =>
    obtain ⟨hmem, hall⟩ := ih (fun m hm => hnodup m (List.mem_cons_of_mem _ hm)) fun m hm n hn =>
      hcomparable m (List.mem_cons_of_mem _ hm) n (List.mem_cons_of_mem _ hn)
    have hcompare : l <+: L.flatten.eraseDups ∨ L.flatten.eraseDups <+: l := by
      cases hmem with
      | inl h =>
        rw [h]
        exact .inr List.nil_prefix
      | inr h => exact hcomparable l List.mem_cons_self _ (List.mem_cons_of_mem _ h)
    rw [List.flatten_cons]
    cases eraseDups_append_of_prefix (hnodup l List.mem_cons_self) hcompare with
    | inl h =>
      obtain ⟨hpre, heq⟩ := h
      rw [heq]
      refine ⟨hmem.imp_right (List.mem_cons_of_mem _), fun m hm => ?_⟩
      cases List.mem_cons.mp hm with
      | inl h =>
        rw [h]
        exact hpre
      | inr h => exact hall m h
    | inr h =>
      obtain ⟨hpre, heq⟩ := h
      rw [heq]
      refine ⟨.inr List.mem_cons_self, fun m hm => ?_⟩
      cases List.mem_cons.mp hm with
      | inl h => rw [h]
      | inr h => exact (hall m h).trans hpre

end Extempore.FirstOccurrences
