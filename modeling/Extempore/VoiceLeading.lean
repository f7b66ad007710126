import Extempore.ListSorting
import Extempore.PitchClasses
import Extempore.RefilledDecks

/-!
# Voice leading

`pc:move-chord` moves each voice of a chord to a pitch of a set. The classes of the set are dealt
to the voices: the voice closest to the classes that are left goes to one of these, and the whole
set comes back when no class is left.
-/

namespace Extempore.VoiceLeading

open ListSorting PitchClasses RefilledDecks

/-- `<` on integers. -/
def less (a b : ℤ) : Bool :=
  decide (a < b)

/-- `pc:distance` to a list of classes, undefined for the empty list. -/
def distance (pitch : ℤ) (pc : List ℤ) : Option ℤ :=
  let p := pitch % 12
  (clSort (pc.map fun c =>
    let val := |p - c|
    |if val < 12 - val then val else 12 - val|) less).head?

/-- `pc:find-closest`. -/
def findClosest (plst pc : List ℤ) : Option ℤ := do
  let keyed ← plst.mapM fun p => (distance p pc).map fun d => (d, p)
  let closest ← (clSort keyed fun a b => decide (a.1 < b.1)).head?
  return closest.2

/-- The loop of `remove-first`. -/
def removeLoop (obj : ℤ) (new : List ℤ) : List ℤ → Option (List ℤ)
  | [] => none
  | x :: lstb => if x = obj then some (new ++ lstb) else removeLoop obj (new ++ [x]) lstb

def removeFirst (obj : ℤ) (lst : List ℤ) : Option (List ℤ) :=
  if obj ∈ lst then removeLoop obj [] lst else some lst

/-- The loop of `pc:move-chord`. `coins` are the outcomes of `(> (random) .5)`. -/
def moveLoop (pc : List ℤ) : ℕ → (ℕ → Bool) → List ℤ → List ℤ → List ℤ → Option (List ℤ)
  | 0, _, _, _, _ => none
  | fuel + 1, coins, pci, chda, chdb =>
    let pci := if pci = [] then pc else pci
    if chda = [] then some (clSort chdb less)
    else do
      let closest ← findClosest chda pci
      let newPitch ← (if coins 0 then quantizeLow closest pci else quantize closest pci : Option ℤ)
      let pci ← removeFirst (newPitch % 12) pci
      let chda ← removeFirst closest chda
      moveLoop pc fuel (fun n => coins (n + 1)) pci chda (newPitch :: chdb)

def moveChord (fuel : ℕ) (coins : ℕ → Bool) (chord pc : List ℤ) : Option (List ℤ) :=
  moveLoop pc fuel coins pc chord []

theorem weakOrder_less : WeakOrder less :=
  weakOrder_key id

theorem removeLoop_eq {obj : ℤ} {lst : List ℤ} (h : obj ∈ lst) (new : List ℤ) :
    removeLoop obj new lst = some (new ++ lst.erase obj) := by
  induction lst generalizing new with
  | nil => simp at h
  | cons x lst ih =>
    rw [removeLoop]
    by_cases he : x = obj
    · rw [if_pos he, he, List.erase_cons_head]
    · have hmem : obj ∈ lst := (List.mem_cons.mp h).resolve_left (Ne.symm he)
      rw [if_neg he, ih hmem, List.erase_cons_tail (by simpa using he), List.append_assoc,
        List.singleton_append]

theorem removeFirst_eq {obj : ℤ} {lst : List ℤ} (h : obj ∈ lst) :
    removeFirst obj lst = some (lst.erase obj) := by
  rw [removeFirst, if_pos h, removeLoop_eq h, List.nil_append]

theorem head?_clSort {α : Type} {less : α → α → Bool} (hless : WeakOrder less) {l : List α}
    (hl : l ≠ []) : ∃ x ∈ l, (clSort l less).head? = some x := by
  have hperm := clSort_perm hless l
  cases hs : clSort l less with
  | nil =>
    rw [hs] at hperm
    exact absurd hperm.nil_eq.symm hl
  | cons x s => exact ⟨x, hperm.mem_iff.mp (hs ▸ List.mem_cons_self), rfl⟩

theorem exists_distance (pitch : ℤ) {pc : List ℤ} (hpc : pc ≠ []) :
    ∃ d, distance pitch pc = some d := by
  obtain ⟨c, cs, rfl⟩ := List.exists_cons_of_ne_nil hpc
  obtain ⟨d, -, hd⟩ := head?_clSort weakOrder_less (List.cons_ne_nil _ _)
  exact ⟨d, hd⟩

theorem mapM_distance (plst : List ℤ) {pc : List ℤ} (hpc : pc ≠ []) :
    ∃ keyed : List (ℤ × ℤ), (plst.mapM fun p => (distance p pc).map fun d => (d, p)) = some keyed ∧
      keyed.map Prod.snd = plst := by
  induction plst with
  | nil => exact ⟨[], rfl, rfl⟩
  | cons p plst ih =>
    obtain ⟨keyed, hkeyed, hsnd⟩ := ih
    obtain ⟨d, hd⟩ := exists_distance p hpc
    refine ⟨(d, p) :: keyed, ?_, by rw [List.map_cons, hsnd]⟩
    rw [List.mapM_cons, hkeyed, hd]
    rfl

/-- The closest voice is one of the chord. -/
theorem findClosest_mem {plst pc : List ℤ} (hplst : plst ≠ []) (hpc : pc ≠ []) :
    ∃ p ∈ plst, findClosest plst pc = some p := by
  obtain ⟨keyed, hkeyed, hsnd⟩ := mapM_distance plst hpc
  have hne : keyed ≠ [] := by
    intro h
    rw [h] at hsnd
    exact hplst hsnd.symm
  obtain ⟨x, hx, hhead⟩ := head?_clSort (weakOrder_key Prod.fst) hne
  refine ⟨x.2, ?_, ?_⟩
  · rw [← hsnd]
    exact List.mem_map_of_mem hx
  · simp [findClosest, hkeyed, hhead]

/-- A quantized pitch, on either side, has one of the classes that are left. -/
theorem quantized_class {pci : List ℤ} (h : PitchClassSet pci) (coin : Bool) (p : ℤ) :
    ∃ q, (if coin then quantizeLow p pci else quantize p pci) = some q ∧ q % 12 ∈ pci := by
  cases coin with
  | false =>
    obtain ⟨q, hq, hnear, -⟩ := quantize_spec h p
    exact ⟨q, hq, inPc_iff.mp hnear.1⟩
  | true =>
    obtain ⟨q, hq, hnear, -⟩ := quantizeLow_spec h p
    exact ⟨q, hq, inPc_iff.mp hnear.1⟩

/-- The classes of a chord. -/
def classes (chord : List ℤ) : List ℤ :=
  chord.map (· % 12)

/-- An empty set of classes is refilled before the next voice. -/
theorem refilled {pc : List ℤ} (hpc : PitchClassSet pc) (hnodup : pc.Nodup) {pci used : List ℤ}
    {k : ℕ} (h : Dealt pc pci used k) :
    ∃ left k', (if pci = [] then pc else pci) = left ∧ left ≠ [] ∧ Dealt pc left used k' := by
  by_cases hnil : pci = []
  · subst hnil
    exact ⟨pc, k + 1, rfl, hpc.nonempty, h.refill hnodup⟩
  · exact ⟨pci, k, if_neg hnil, hnil, h⟩

/-- The classes left and the voices moved so far are a deal of the set. -/
theorem moveLoop_spec {pc : List ℤ} (hpc : PitchClassSet pc) (hnodup : pc.Nodup) {n : ℕ}
    {coins : ℕ → Bool} {pci chda chdb : List ℤ} {k : ℕ} (h : Dealt pc pci (classes chdb) k)
    (hn : chda.length = n) :
    ∃ moved left k',
      (∀ fuel > n, moveLoop pc fuel coins pci chda chdb = some (clSort moved less)) ∧
      moved.length = n + chdb.length ∧ left ≠ [] ∧ Dealt pc left (classes moved) k' := by
  induction n generalizing coins pci chda chdb k with
  | zero =>
    obtain ⟨left, k, hrefill, hleft, hdealt⟩ := refilled hpc hnodup h
    have hchda := List.length_eq_zero_iff.mp hn
    refine ⟨chdb, left, k, fun fuel hfuel => ?_, (Nat.zero_add _).symm, hleft, hdealt⟩
    obtain ⟨fuel, rfl⟩ := Nat.exists_eq_succ_of_ne_zero (Nat.ne_of_gt hfuel)
    simp only [moveLoop]
    rw [if_pos hchda]
  | succ n ih =>
    obtain ⟨left, k, hrefill, hleft, hdealt⟩ := refilled hpc hnodup h
    have hchda : chda ≠ [] := List.ne_nil_of_length_eq_add_one hn
    have hset : PitchClassSet left := ⟨hleft, fun c hc => hpc.range c (hdealt.subset hc)⟩
    obtain ⟨p, hp, hclosest⟩ := findClosest_mem hchda hleft
    obtain ⟨q, hq, hclass⟩ := quantized_class hset (coins 0) p
    have hlength : (chda.erase p).length = n := by
      rw [List.length_erase_of_mem hp, hn, Nat.add_sub_cancel]
    obtain ⟨moved, left', k', hrun, hmoved, hleft', hdealt'⟩ :=
      @ih (fun n => coins (n + 1)) (left.erase (q % 12)) (chda.erase p) (q :: chdb) k
        (hdealt.deal hclass) hlength
    refine ⟨moved, left', k', fun fuel hfuel => ?_, ?_, hleft', hdealt'⟩
    · obtain ⟨fuel, rfl⟩ := Nat.exists_eq_succ_of_ne_zero (Nat.ne_of_gt (Nat.zero_lt_of_lt hfuel))
      simp only [moveLoop, hrefill]
      rw [if_neg hchda, hclosest]
      simp only [Option.bind_eq_bind, Option.bind_some, hq, removeFirst_eq hclass,
        removeFirst_eq hp]
      exact hrun fuel (Nat.lt_of_succ_lt_succ hfuel)
    · rw [hmoved, List.length_cons]
      omega

theorem pairwise_clSort (l : List ℤ) : (clSort l less).Pairwise (· ≤ ·) := by
  apply (clSort_ordered weakOrder_less l).imp
  intro x y hxy
  simpa [notLess, less] using hxy

/-- Every chord is moved, with each of its voices, into the set; the result ascends, and its
classes are spread evenly over the set. -/
theorem moveChord_balanced (chord pc : List ℤ) (hpc : PitchClassSet pc) (hnodup : pc.Nodup)
    (coins : ℕ → Bool) :
    ∃ moved, (∃ n, ∀ fuel ≥ n, moveChord fuel coins chord pc = some moved) ∧
      moved.Pairwise (· ≤ ·) ∧ moved.length = chord.length ∧
      (∀ p ∈ moved, inPc p pc = true) ∧
      ∀ c ∈ pc, (classes moved).count c = chord.length / pc.length ∨
        (classes moved).count c = (chord.length + pc.length - 1) / pc.length := by
  obtain ⟨moved, left, k, hrun, hlength, hleft, hdealt⟩ :=
    @moveLoop_spec pc hpc hnodup chord.length coins pc chord [] 0 (Dealt.start hnodup) rfl
  have hperm := clSort_perm weakOrder_less moved
  have hclasses : (classes (clSort moved less)).Perm (classes moved) := hperm.map _
  have hused : (classes moved).length = chord.length := by
    rw [classes, List.length_map]
    exact hlength
  refine ⟨clSort moved less, ⟨chord.length + 1, hrun⟩, pairwise_clSort moved, ?_, ?_, ?_⟩
  · rw [hperm.length_eq]
    exact hlength
  · intro p hp
    rw [inPc_iff]
    exact hdealt.mem _ (List.mem_map_of_mem (hperm.mem_iff.mp hp))
  · intro c hc
    rw [hclasses.count_eq, ← hused]
    exact hdealt.balanced hleft hc

/-- Five voices, two of them the same, on a triad. -/
theorem moveChord_five : (PitchClassSet [0, 4, 7] ∧ [(0 : ℤ), 4, 7].Nodup) ∧
    ∃ moved, (∃ n, ∀ fuel ≥ n,
      moveChord fuel (fun _ => true) [60, 60, 62, 65, 71] [0, 4, 7] = some moved) ∧
      moved.length = 5 := by
  have h : PitchClassSet [0, 4, 7] := ⟨by simp, by simp⟩
  have hnodup : [(0 : ℤ), 4, 7].Nodup := by simp
  obtain ⟨moved, hrun, -, hlength, -⟩ :=
    moveChord_balanced [60, 60, 62, 65, 71] [0, 4, 7] h hnodup fun _ => true
  exact ⟨⟨h, hnodup⟩, moved, hrun, hlength⟩

end Extempore.VoiceLeading
