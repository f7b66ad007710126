import Mathlib.Data.List.Perm.Lattice
import Mathlib.Data.List.Perm.Subperm
import Mathlib.Data.List.Nodup
import Extempore.GuardedRuns

/-!
# Synchronous calls between processes

`ipc:call` and `ipc:map` send a request together with a label and store the continuation of the
caller under the label. The reply names the label, and `ipc:run-active-label` invokes what is
stored there. A process runs one evaluation after the other, so that a reply waits while a
request is being issued, but other processes may answer at any time.
-/

namespace Extempore.SynchronousIpc
open GuardedRuns

/-- `*ipc:active-label-buffer-size*` -/
def bufferSize : ℕ := 1000

/-- What a process knows about its calls, and the messages under way. A request `r` stands for
the continuation of its caller, too. A request that is being issued has a label; it is marked
with `true` when it is sent but its continuation is not yet stored. A message to another process
is the label with the request, a reply has the result besides. `invoked` lists for every reply
the continuation invoked, the request that it answers and the result, and `issued` the requests
made so far. -/
structure Process (ρ ν : Type) where
  labels : ℕ → Option ρ
  cnt : ℕ
  issuing : Option (ρ × Bool)
  requests : List (ℕ × ρ)
  replies : List (ℕ × ρ × ν)
  invoked : List (Option ρ × ρ × ν)
  issued : List ρ

variable {ρ ν : Type}

/-- A process that has made no call. -/
def start : Process ρ ν := ⟨fun _ => none, 0, none, [], [], [], []⟩

/-- The search for a free label from `i` on, which goes around the vector. `none` is a search
that is not over after `fuel` labels. -/
def search (labels : ℕ → Option ρ) : ℕ → ℕ → Option ℕ
  | 0, _ => none
  | fuel + 1, i =>
    if (labels i).isSome then search labels fuel ((i + 1) % bufferSize) else some i

/-- The steps of a call. The first three are what `ipc:call` and `ipc:map` do for one request, one
after the other; another process answers; `ipc:run-active-label` gets the reply. -/
inductive Step (ρ ν : Type) where
  | issue (r : ρ)
  | send
  | record
  | answer (r : ρ) (result : ν)
  | runActiveLabel (r : ρ)

/-- One step, `none` where it is not enabled. A search that finds no label does not end. -/
def step [DecidableEq ρ] [DecidableEq ν] (p : Process ρ ν) : Step ρ ν → Option (Process ρ ν)
  | .issue r =>
    if p.issuing = none then
      (search p.labels bufferSize p.cnt).map fun i =>
        { p with cnt := i, issuing := some (r, false), issued := p.issued ++ [r] }
    else none
  | .send =>
    match p.issuing with
    | some (r, false) =>
      some { p with issuing := some (r, true), requests := p.requests ++ [(p.cnt, r)] }
    | _ => none
  | .record =>
    match p.issuing with
    | some (r, true) =>
      some { p with labels := Function.update p.labels p.cnt (some r), issuing := none }
    | _ => none
  | .answer r result =>
    (p.requests.find? (·.2 = r)).map fun m =>
      { p with requests := p.requests.erase m, replies := p.replies ++ [(m.1, r, result)] }
  | .runActiveLabel r =>
    if p.issuing = none then
      (p.replies.find? (·.2.1 = r)).map fun m =>
        { p with
          labels := Function.update p.labels m.1 none
          replies := p.replies.erase m
          invoked := p.invoked ++ [(p.labels m.1, r, m.2.2)] }
    else none

/-- The requests that have a label but no reply yet, with their labels. -/
def outstanding (p : Process ρ ν) : List (ℕ × ρ) :=
  (match p.issuing with
    | some (r, false) => [(p.cnt, r)]
    | _ => []) ++ p.requests ++ p.replies.map fun m => (m.1, m.2.1)

/-- A request is a new one, and fewer than 1000 requests are outstanding. -/
def Allowed (p : Process ρ ν) : Step ρ ν → Prop
  | .issue r => r ∉ p.issued ∧ (outstanding p).length < bufferSize
  | _ => True

/-! ## The search for a label -/

theorem search_eq_some {labels : ℕ → Option ρ} {fuel i j : ℕ} (hi : i < bufferSize)
    (h : search labels fuel i = some j) : labels j = none ∧ j < bufferSize := by
  induction fuel generalizing i with
  | zero => cases h
  | succ fuel ih =>
    rw [search] at h
    split at h
    · exact ih (Nat.mod_lt _ (by decide)) h
    · rename_i hfree
      cases h
      exact ⟨by simpa using hfree, hi⟩

theorem search_eq_none {labels : ℕ → Option ρ} {fuel i : ℕ} (hi : i < bufferSize) :
    search labels fuel i = none ↔ ∀ k < fuel, labels ((i + k) % bufferSize) ≠ none := by
  induction fuel generalizing i with
  | zero => simp [search]
  | succ fuel ih =>
    have hfirst : (i + 0) % bufferSize = i := Nat.mod_eq_of_lt hi
    have hnext (k : ℕ) : ((i + 1) % bufferSize + k) % bufferSize = (i + (k + 1)) % bufferSize := by
      rw [Nat.mod_add_mod]
      congr 1
      omega
    rw [search]
    split
    · rename_i htaken
      rw [ih (Nat.mod_lt _ (by decide))]
      simp only [hnext]
      constructor
      · intro h k hk
        cases k with
        | zero =>
          rw [hfirst]
          exact Option.isSome_iff_ne_none.mp htaken
        | succ k => exact h k (by omega)
      · intro h k hk
        exact h (k + 1) (by omega)
    · rename_i hfree
      simp only [reduceCtorEq, false_iff]
      intro h
      apply hfree
      rw [← hfirst]
      exact Option.isSome_iff_ne_none.mpr (h 0 (by omega))

/-- The search goes through the whole vector. -/
theorem search_bufferSize_eq_none {labels : ℕ → Option ρ} {i : ℕ} (hi : i < bufferSize) :
    search labels bufferSize i = none ↔ ∀ l < bufferSize, labels l ≠ none := by
  rw [search_eq_none hi]
  constructor
  · intro h l hl
    have hk := h ((l + bufferSize - i) % bufferSize) (Nat.mod_lt _ (by decide))
    rwa [Nat.add_mod_mod, show i + (l + bufferSize - i) = l + bufferSize by omega,
      Nat.add_mod_right, Nat.mod_eq_of_lt hl] at hk
  · intro h k _
    exact h _ (Nat.mod_lt _ (by decide))

/-! ## What every step keeps -/

/-- Outstanding requests have different labels; a label holds a continuation just when the
request of it is outstanding and completely issued; every reply has invoked the continuation of
its own request; and every request made is either outstanding or answered, once. -/
structure Sound (p : Process ρ ν) : Prop where
  labels_nodup : ((outstanding p).map Prod.fst).Nodup
  labels_lt : ∀ m ∈ outstanding p, m.1 < bufferSize
  cnt_lt : p.cnt < bufferSize
  stored_iff : ∀ l r, p.labels l = some r ↔
    (l, r) ∈ outstanding p ∧ ∀ b, p.issuing ≠ some (r, b)
  issuing_mem : ∀ r b, p.issuing = some (r, b) → (p.cnt, r) ∈ outstanding p
  invoked_eq : ∀ m ∈ p.invoked, m.1 = some m.2.1
  issued_perm : p.issued.Perm ((outstanding p).map Prod.snd ++ p.invoked.map (·.2.1))
  issued_nodup : p.issued.Nodup

theorem sound_start : Sound (start : Process ρ ν) where
  labels_nodup := by simp [outstanding, start]
  labels_lt := by simp [outstanding, start]
  cnt_lt := Nat.zero_lt_succ _
  stored_iff := by simp [outstanding, start]
  issuing_mem := by simp [start]
  invoked_eq := by simp [start]
  issued_perm := by simp [outstanding, start]
  issued_nodup := by simp [start]

variable {p p' : Process ρ ν}

/-- With another order of the outstanding requests and nothing new the state is sound still. -/
theorem Sound.of_perm (h : Sound p) (hperm : (outstanding p').Perm (outstanding p))
    (hcnt : p'.cnt = p.cnt)
    (hstored : ∀ l r, p'.labels l = some r ↔ (l, r) ∈ outstanding p ∧ ∀ b, p'.issuing ≠ some (r, b))
    (hissuing : ∀ r b, p'.issuing = some (r, b) → (p.cnt, r) ∈ outstanding p)
    (hinvoked : p'.invoked = p.invoked) (hissued : p'.issued = p.issued) : Sound p' where
  labels_nodup := (hperm.map Prod.fst).nodup_iff.mpr h.labels_nodup
  labels_lt m hm := h.labels_lt m (hperm.mem_iff.mp hm)
  cnt_lt := hcnt ▸ h.cnt_lt
  stored_iff l r := by rw [hstored, hperm.mem_iff]
  issuing_mem r b hr := by
    rw [hcnt, hperm.mem_iff]
    exact hissuing r b hr
  invoked_eq := hinvoked ▸ h.invoked_eq
  issued_perm := by
    rw [hissued, hinvoked]
    exact h.issued_perm.trans (((hperm.map Prod.snd).symm).append_right _)
  issued_nodup := hissued ▸ h.issued_nodup

variable [DecidableEq ρ] [DecidableEq ν]

theorem Sound.issue (h : Sound p) {r : ρ} (hok : Allowed p (.issue r))
    (hs : step p (.issue r) = some p') : Sound p' := by
  simp only [step] at hs
  split at hs
  · rename_i hidle
    obtain ⟨i, hi, rfl⟩ := Option.map_eq_some_iff.mp hs
    obtain ⟨hfree, hlt⟩ := search_eq_some h.cnt_lt hi
    have hold : outstanding p = p.requests ++ p.replies.map fun m => (m.1, m.2.1) := by
      simp [outstanding, hidle]
    have hnew : outstanding { p with
        cnt := i, issuing := some (r, false), issued := p.issued ++ [r] } =
        (i, r) :: outstanding p := by
      rw [hold]
      rfl
    have hr : r ∉ (outstanding p).map Prod.snd := by
      intro hm
      apply hok.1
      rw [h.issued_perm.mem_iff]
      exact List.mem_append_left _ hm
    constructor
    · rw [hnew, List.map_cons, List.nodup_cons]
      refine ⟨?_, h.labels_nodup⟩
      intro hm
      obtain ⟨⟨l, q⟩, hm, hl⟩ := List.mem_map.mp hm
      have hstored := (h.stored_iff l q).mpr ⟨hm, by simp [hidle]⟩
      rw [show l = i from hl, hfree] at hstored
      cases hstored
    · rw [hnew]
      intro m hm
      cases hm with
      | head => exact hlt
      | tail _ hm => exact h.labels_lt m hm
    · exact hlt
    · intro l q
      show p.labels l = some q ↔ _
      rw [h.stored_iff, hnew, hidle]
      simp only [List.mem_cons, Prod.mk.injEq, ne_eq, reduceCtorEq, not_false_eq_true,
        implies_true, and_true, Option.some.injEq, not_and]
      constructor
      · intro hm
        refine ⟨Or.inr hm, ?_⟩
        intro b hq
        exact absurd (hq ▸ List.mem_map_of_mem hm) hr
      · intro hm
        cases hm.1 with
        | inl heq => simpa using hm.2 false heq.2.symm
        | inr hmem => exact hmem
    · intro q b hq
      obtain ⟨rfl, -⟩ : r = q ∧ false = b := by simpa using hq
      rw [hnew]
      exact List.mem_cons_self
    · exact h.invoked_eq
    · rw [hnew, List.map_cons, List.cons_append]
      exact (List.perm_append_singleton r p.issued).trans (h.issued_perm.cons r)
    · exact List.Nodup.append h.issued_nodup (List.nodup_singleton r) (by simpa using hok.1)
  · cases hs

theorem Sound.send (h : Sound p) (hs : step p .send = some p') : Sound p' := by
  simp only [step] at hs
  split at hs
  · rename_i r hissuing
    cases hs
    have hmem := h.issuing_mem r false hissuing
    refine h.of_perm ?_ rfl ?_ ?_ rfl rfl
    · simp only [outstanding, hissuing, List.nil_append, List.singleton_append]
      rw [List.append_assoc, List.cons_append]
      exact List.perm_middle
    · intro l q
      show p.labels l = some q ↔ _
      rw [h.stored_iff, hissuing]
      simp
    · intro q b hq
      obtain ⟨rfl, -⟩ : r = q ∧ true = b := by simpa using hq
      exact hmem
  · cases hs

theorem Sound.record (h : Sound p) (hs : step p .record = some p') : Sound p' := by
  simp only [step] at hs
  split at hs
  · rename_i r hissuing
    cases hs
    have hmem := h.issuing_mem r true hissuing
    refine h.of_perm ?_ rfl ?_ (by simp) rfl rfl
    · simp [outstanding, hissuing]
    · intro l q
      by_cases hl : l = p.cnt
      · subst hl
        simp only [Function.update_self, Option.some.injEq, ne_eq, reduceCtorEq, not_false_eq_true,
          implies_true, and_true]
        constructor
        · intro hq
          exact hq ▸ hmem
        · intro hq
          have heq := List.inj_on_of_nodup_map h.labels_nodup hmem hq rfl
          exact congrArg Prod.snd heq
      · simp only [Function.update_of_ne hl, h.stored_iff, hissuing, ne_eq, reduceCtorEq,
          not_false_eq_true, implies_true, and_true, Option.some.injEq, Prod.mk.injEq, not_and,
          and_iff_left_iff_imp]
        intro hm b hr
        subst hr
        have hsnd : ((outstanding p).map Prod.snd).Nodup :=
          (h.issued_perm.nodup_iff.mp h.issued_nodup).of_append_left
        exact absurd (congrArg Prod.fst (List.inj_on_of_nodup_map hsnd hm hmem rfl)) hl
  · cases hs

theorem Sound.answer (h : Sound p) {r : ρ} {result : ν}
    (hs : step p (.answer r result) = some p') : Sound p' := by
  obtain ⟨m, hfind, rfl⟩ := Option.map_eq_some_iff.mp hs
  have hm := List.mem_of_find?_eq_some hfind
  have hr : m.2 = r := by simpa using List.find?_some hfind
  have hperm : (outstanding { p with
      requests := p.requests.erase m, replies := p.replies ++ [(m.1, r, result)] }).Perm
      (outstanding p) := by
    subst hr
    simp only [outstanding, List.map_append, List.map_cons, List.map_nil]
    rw [List.append_assoc, List.append_assoc]
    refine List.Perm.append_left _ ?_
    refine List.Perm.trans ?_ ((List.perm_cons_erase hm).symm.append_right _)
    rw [← List.append_assoc]
    exact List.perm_append_singleton _ _
  exact h.of_perm hperm rfl h.stored_iff h.issuing_mem rfl rfl

omit [DecidableEq ρ] [DecidableEq ν] in
/-- While nothing is being issued, a reply finds the continuation of its request. -/
theorem Sound.stored_of_reply (h : Sound p) (hidle : p.issuing = none) {l : ℕ} {r : ρ} {result : ν}
    (hm : (l, r, result) ∈ p.replies) : p.labels l = some r := by
  rw [h.stored_iff]
  refine ⟨List.mem_append_right _ (List.mem_map.mpr ⟨_, hm, rfl⟩), ?_⟩
  simp [hidle]

/-- What `runActiveLabel` does with the reply to the request. -/
theorem step_runActiveLabel {r : ρ} (hs : step p (.runActiveLabel r) = some p') :
    p.issuing = none ∧ ∃ l result, (l, r, result) ∈ p.replies ∧
      p' = { p with
        labels := Function.update p.labels l none
        replies := p.replies.erase (l, r, result)
        invoked := p.invoked ++ [(p.labels l, r, result)] } := by
  simp only [step] at hs
  split at hs
  · rename_i hidle
    obtain ⟨⟨l, q, result⟩, hfind, rfl⟩ := Option.map_eq_some_iff.mp hs
    have hm := List.mem_of_find?_eq_some hfind
    obtain rfl : q = r := by simpa using List.find?_some hfind
    exact ⟨hidle, l, result, hm, rfl⟩
  · cases hs

/-- A reply invokes the continuation of its request and takes the request away. -/
theorem Sound.runActiveLabel (h : Sound p) {r : ρ} (hs : step p (.runActiveLabel r) = some p') :
    Sound p' := by
  obtain ⟨hidle, l, result, hm, hnext⟩ := step_runActiveLabel hs
  have hstored := h.stored_of_reply hidle hm
  have hperm : (outstanding p).Perm ((l, r) :: outstanding p') := by
    simp only [hnext, outstanding, hidle, List.nil_append]
    have herase := (List.perm_cons_erase hm).map fun m => (m.1, m.2.1)
    exact (herase.append_left p.requests).trans List.perm_middle
  have hnodup : l ∉ (outstanding p').map Prod.fst ∧ _ :=
    List.nodup_cons.mp ((hperm.map Prod.fst).nodup_iff.mp h.labels_nodup)
  subst hnext
  constructor
  · exact hnodup.2
  · intro m hm
    exact h.labels_lt m (hperm.mem_iff.mpr (List.mem_cons_of_mem _ hm))
  · exact h.cnt_lt
  · intro k t
    by_cases hk : k = l
    · subst hk
      simp only [Function.update_self, reduceCtorEq, false_iff, not_and]
      intro hm
      exact absurd (List.mem_map_of_mem (f := Prod.fst) hm) hnodup.1
    · show Function.update p.labels l none k = some t ↔ _
      rw [Function.update_of_ne hk, h.stored_iff, hperm.mem_iff]
      simp [hk]
  · intro t b ht
    rw [hidle] at ht
    cases ht
  · intro m hm
    rcases List.mem_append.mp hm with hm|hm
    · exact h.invoked_eq m hm
    · obtain rfl := List.mem_singleton.mp hm
      exact hstored
  · refine h.issued_perm.trans ?_
    refine ((hperm.map Prod.snd).append_right _).trans ?_
    simp only [List.map_cons, List.map_append, List.map_nil, List.cons_append]
    rw [← List.append_assoc]
    exact (List.perm_append_singleton _ _).symm
  · exact h.issued_nodup

theorem step_sound {a : Step ρ ν} (h : Sound p) (hok : Allowed p a) (hs : step p a = some p') :
    Sound p' := by
  cases a with
  | issue r => exact h.issue hok hs
  | send => exact h.send hs
  | record => exact h.record hs
  | answer r result => exact h.answer hs
  | runActiveLabel r => exact h.runActiveLabel hs

theorem run_sound {as : List (Step ρ ν)} (hok : Meets Allowed step start as)
    (hr : run step start as = some p) : Sound p :=
  run_invariant (fun _ _ _ h ha hs => step_sound h ha hs) sound_start hok hr

omit [DecidableEq ρ] [DecidableEq ν] in
/-- With fewer than 1000 requests outstanding a label is free. -/
theorem Sound.exists_free (h : Sound p)
    (hlt : (outstanding p).length < bufferSize) :
    ∃ i, search p.labels bufferSize p.cnt = some i := by
  apply Option.ne_none_iff_exists'.mp
  intro hnone
  have htaken := (search_bufferSize_eq_none h.cnt_lt).mp hnone
  have hsub : List.range bufferSize ⊆ (outstanding p).map Prod.fst := by
    intro l hl
    obtain ⟨r, hr⟩ := Option.ne_none_iff_exists'.mp (htaken l (List.mem_range.mp hl))
    exact List.mem_map_of_mem (f := Prod.fst) ((h.stored_iff l r).mp hr).1
  have hle := (List.subperm_of_subset List.nodup_range hsub).length_le
  rw [List.length_range, List.length_map] at hle
  omega

/-- After any run no two outstanding requests share a label; every reply has invoked the
continuation of the request that it answers; every request is outstanding or its continuation
has been invoked, never both and never twice; a label holds a continuation only while the request
is outstanding; and a further request gets a label. -/
theorem replies_reach_callers {as : List (Step ρ ν)} (hok : Meets Allowed step start as)
    (hr : run step start as = some p) :
    ((outstanding p).map Prod.fst).Nodup ∧
      (∀ m ∈ p.invoked, m.1 = some m.2.1) ∧
      p.issued.Nodup ∧ p.issued.Perm ((outstanding p).map Prod.snd ++ p.invoked.map (·.2.1)) ∧
      (∀ l, (∀ m ∈ outstanding p, m.1 ≠ l) → p.labels l = none) ∧
      (∀ r p', step p (.runActiveLabel r) = some p' →
        ∃ l result, (l, r, result) ∈ p.replies ∧ p.labels l = some r ∧ p'.labels l = none ∧
          p'.invoked = p.invoked ++ [(some r, r, result)]) ∧
      (∀ r, p.issuing = none → Allowed p (.issue r) → ∃ p', step p (.issue r) = some p') := by
  have h := run_sound hok hr
  refine ⟨h.labels_nodup, h.invoked_eq, h.issued_nodup, h.issued_perm, ?_, ?_, ?_⟩
  · intro l hl
    by_contra hne
    obtain ⟨r, hr⟩ := Option.ne_none_iff_exists'.mp hne
    exact hl _ ((h.stored_iff l r).mp hr).1 rfl
  · intro r p' hs
    obtain ⟨hidle, l, result, hm, rfl⟩ := step_runActiveLabel hs
    have hstored := h.stored_of_reply hidle hm
    exact ⟨l, result, hm, hstored, Function.update_self .., by simp [hstored]⟩
  · intro r hidle hr
    obtain ⟨i, hi⟩ := h.exists_free hr.2
    refine ⟨{ p with cnt := i, issuing := some (r, false), issued := p.issued ++ [r] }, ?_⟩
    simp only [step]
    rw [if_pos hidle, hi, Option.map_some]

/-- Two calls, the first of which is answered before its continuation is stored; the second
reply arrives first. -/
theorem replies_reach_callers_two :
    ∃ p : Process ℕ ℕ, run step start [.issue 7, .send, .answer 7 70, .record, .issue 8, .send,
        .record, .answer 8 80, .runActiveLabel 8, .runActiveLabel 7] = some p ∧
      p.invoked = [(some 8, 8, 80), (some 7, 7, 70)] ∧ ∀ m ∈ p.invoked, m.1 = some m.2.1 := by
  refine ⟨_, rfl, rfl, ?_⟩
  have hok : Meets Allowed step (start : Process ℕ ℕ) [.issue 7, .send, .answer 7 70, .record,
      .issue 8, .send, .record, .answer 8 80, .runActiveLabel 8, .runActiveLabel 7] :=
    meets_cons rfl ⟨by decide, by decide⟩ <| meets_cons rfl trivial <| meets_cons rfl trivial <|
      meets_cons rfl trivial <| meets_cons rfl ⟨by decide, by decide⟩ <| meets_cons rfl trivial <|
      meets_cons rfl trivial <| meets_cons rfl trivial <| meets_cons rfl trivial <|
      meets_cons rfl trivial trivial
  exact (replies_reach_callers hok rfl).2.1

/-! ## Calls to a list of processes -/

/-- What `ipc:map` does for the requests to the processes of its list. The continuation of one
request starts the next one. -/
def issueAll (rs : List ρ) : List (Step ρ ν) :=
  rs.flatMap fun r => [.issue r, .send, .record]

/-- The continuations of `ipc:map` as they are invoked one after the other with the values. Each
adds its value to the results, and the one that finds as many results as processes returns them.
`none` is a map that has not returned. -/
def collect (n : ℕ) : List ν → List ν → Option (List ν)
  | _, [] => none
  | results, returnVal :: vals =>
    let results := returnVal :: results
    if results.length < n then collect n results vals else some results

/-- The values for which continuations of the requests in `rs` have been invoked. -/
def mapValues (rs : List ρ) (p : Process ρ ν) : List ν :=
  (p.invoked.filter fun m => m.1.any (· ∈ rs)).map fun m => m.2.2

/-- The requests in `rs` in the order in which their replies have arrived. -/
def arrivals (rs : List ρ) (p : Process ρ ν) : List ρ :=
  (p.invoked.map fun m => m.2.1).filter (· ∈ rs)

/-- Other processes answer as `reply` says, or a reply is taken in. -/
def Replying (reply : ρ → ν) : Step ρ ν → Prop
  | .answer r result => result = reply r
  | .runActiveLabel _ => True
  | _ => False

/-- All requests can be issued, the replies can arrive in the order `order`, and in whatever way
they do so, `ipc:map` returns `results`. -/
def MapReturns (reply : ρ → ν) (p : Process ρ ν) (rs order : List ρ) (results : List ν) : Prop :=
  ∃ q, run step p (issueAll rs) = some q ∧
    (∃ as s, (∀ a ∈ as, Replying reply a) ∧ run step q as = some s ∧ arrivals rs s = order) ∧
    ∀ as s, (∀ a ∈ as, Replying reply a) → run step q as = some s → arrivals rs s = order →
      collect rs.length [] (mapValues rs s) = some results

omit [DecidableEq ρ] [DecidableEq ν] in
/-- The results come in the reverse order of the replies. -/
theorem collect_eq {n : ℕ} (results vals : List ν) (hn : results.length < n)
    (hlen : n = results.length + vals.length) :
    collect n results vals = some (vals.reverse ++ results) := by
  induction vals generalizing results with
  | nil =>
    simp only [List.length_nil] at hlen
    omega
  | cons v vals ih =>
    simp only [List.length_cons] at hlen
    simp only [collect, List.length_cons]
    split
    · rename_i hlt
      have hnext := ih (v :: results) hlt (by simp only [List.length_cons]; omega)
      rw [hnext, List.reverse_cons, List.append_assoc, List.singleton_append]
    · cases vals with
      | nil => rfl
      | cons w vals =>
        simp only [List.length_cons] at hlen
        omega

omit [DecidableEq ρ] [DecidableEq ν] in
theorem length_outstanding_of_idle (hidle : p.issuing = none) :
    (outstanding p).length = p.requests.length + p.replies.length := by
  simp [outstanding, hidle]

omit [DecidableEq ρ] [DecidableEq ν] in
/-- Requests that are issued completely count as outstanding. -/
theorem length_outstanding_of_issued {rs : List ρ} (hidle : p.issuing = none)
    (hidle' : p'.issuing = none)
    (hreq : p'.requests.map Prod.snd = p.requests.map Prod.snd ++ rs)
    (hrep : p'.replies = p.replies) :
    (outstanding p').length = (outstanding p).length + rs.length := by
  have hcount := congrArg List.length hreq
  rw [List.length_append, List.length_map, List.length_map] at hcount
  rw [length_outstanding_of_idle hidle, length_outstanding_of_idle hidle', hrep, hcount]
  omega

/-- One request, with the state that it leaves. -/
theorem Sound.run_request {r : ρ} (h : Sound p) (hidle : p.issuing = none) (hnew : r ∉ p.issued)
    (hlen : (outstanding p).length < bufferSize) :
    ∃ q, run step p [.issue r, .send, .record] = some q ∧ Sound q ∧ q.issuing = none ∧
      q.requests.map Prod.snd = p.requests.map Prod.snd ++ [r] ∧ q.replies = p.replies ∧
      q.invoked = p.invoked ∧ q.issued = p.issued ++ [r] := by
  obtain ⟨i, hi⟩ := h.exists_free hlen
  have hissue : step p (.issue r) =
      some { p with cnt := i, issuing := some (r, false), issued := p.issued ++ [r] } := by
    simp only [step]
    rw [if_pos hidle, hi, Option.map_some]
  have hsound := h.issue ⟨hnew, hlen⟩ hissue
  refine ⟨_, run_cons_eq_some.mpr ⟨_, hissue, rfl⟩, (hsound.send rfl).record rfl, rfl, ?_, rfl, rfl,
    rfl⟩
  simp

/-- Requests are issued as long as there are free labels. -/
theorem Sound.run_issueAll {rs : List ρ} (h : Sound p) (hidle : p.issuing = none)
    (hnodup : rs.Nodup) (hnew : ∀ r ∈ rs, r ∉ p.issued)
    (hlen : (outstanding p).length + rs.length ≤ bufferSize) :
    ∃ q, run step p (issueAll rs) = some q ∧ Sound q ∧ q.issuing = none ∧
      q.requests.map Prod.snd = p.requests.map Prod.snd ++ rs ∧ q.replies = p.replies ∧
      q.invoked = p.invoked := by
  induction rs generalizing p with
  | nil => exact ⟨p, rfl, h, hidle, by simp, rfl, rfl⟩
  | cons r rs ih =>
    rw [List.nodup_cons] at hnodup
    rw [List.length_cons] at hlen
    obtain ⟨m, hm, hsound, hidlem, hreq, hrep, hinv, hiss⟩ :=
      h.run_request hidle (hnew r List.mem_cons_self) (by omega)
    have hnewm : ∀ t ∈ rs, t ∉ m.issued := by
      intro t ht
      rw [hiss, List.mem_append, List.mem_singleton]
      intro hin
      cases hin with
      | inl hold => exact hnew t (List.mem_cons_of_mem _ ht) hold
      | inr heq => exact hnodup.1 (heq ▸ ht)
    have hlenm := length_outstanding_of_issued hidle hidlem hreq hrep
    rw [List.length_singleton] at hlenm
    obtain ⟨q, hq, hsoundq, hidleq, hreqq, hrepq, hinvq⟩ := ih hsound hidlem hnodup.2 hnewm (by omega)
    refine ⟨q, ?_, hsoundq, hidleq, ?_, hrepq.trans hrep, hinvq.trans hinv⟩
    · rw [issueAll, List.flatMap_cons, run_append, hm]
      exact hq
    · rw [hreqq, hreq, List.append_assoc, List.singleton_append]

omit [DecidableEq ρ] [DecidableEq ν] in
theorem Sound.labels_subset (h : Sound p) :
    (outstanding p).map Prod.fst ⊆ List.range bufferSize := by
  intro k hk
  obtain ⟨m, hm, rfl⟩ := List.mem_map.mp hk
  exact List.mem_range.mpr (h.labels_lt m hm)

omit [DecidableEq ρ] [DecidableEq ν] in
theorem Sound.length_outstanding_le (h : Sound p) : (outstanding p).length ≤ bufferSize := by
  simpa using (List.subperm_of_subset h.labels_nodup h.labels_subset).length_le

/-- When all labels are taken the search for one does not end. -/
theorem Sound.issue_eq_none {r : ρ} (h : Sound p) (hidle : p.issuing = none)
    (hlen : bufferSize ≤ (outstanding p).length) : step p (.issue r) = none := by
  have hnone : search p.labels bufferSize p.cnt = none := by
    rw [search_bufferSize_eq_none h.cnt_lt]
    intro l hl
    have hperm := (List.subperm_of_subset h.labels_nodup h.labels_subset).perm_of_length_le (by simpa using hlen)
    obtain ⟨m, hm, rfl⟩ := List.mem_map.mp (hperm.mem_iff.mpr (List.mem_range.mpr hl))
    have hstored := (h.stored_iff m.1 m.2).mpr ⟨hm, by simp [hidle]⟩
    simp [hstored]
  simp only [step]
  rw [if_pos hidle, hnone, Option.map_none]

/-- With more requests than free labels, `ipc:map` goes on searching. -/
theorem Sound.run_issueAll_eq_none {rs : List ρ} (h : Sound p) (hidle : p.issuing = none)
    (hnodup : rs.Nodup) (hnew : ∀ r ∈ rs, r ∉ p.issued)
    (hlen : bufferSize < (outstanding p).length + rs.length) : run step p (issueAll rs) = none := by
  have hle := h.length_outstanding_le
  -- the requests that still get a label, and the next one
  have hlt : bufferSize - (outstanding p).length < rs.length := by omega
  obtain ⟨q, hq, hsound, hidleq, hreq, hrep, -⟩ := h.run_issueAll hidle
    (hnodup.sublist (List.take_sublist (bufferSize - (outstanding p).length) rs))
    (fun r hr => hnew r (List.mem_of_mem_take hr)) (by rw [List.length_take]; omega)
  have hfull := length_outstanding_of_issued hidle hidleq hreq hrep
  rw [List.length_take] at hfull
  have hstuck := hsound.issue_eq_none (r := rs[bufferSize - (outstanding p).length]) hidleq (by omega)
  rw [← List.take_append_drop (bufferSize - (outstanding p).length) rs,
    List.drop_eq_getElem_cons hlt, issueAll, List.flatMap_append, run_append]
  rw [issueAll] at hq
  rw [hq, List.flatMap_cons]
  simp only [Option.bind_some, List.cons_append, run, hstuck, Option.bind_none]

/-! ## The replies of a map -/

/-- All requests that wait can be answered, in any order. -/
theorem run_answers (reply : ρ → ν) {rs : List ρ} (hnodup : rs.Nodup)
    (hrs : ∀ r ∈ rs, r ∈ p.requests.map Prod.snd) :
    ∃ q, run step p (rs.map fun r => .answer r (reply r)) = some q ∧ q.issuing = p.issuing ∧
      q.invoked = p.invoked ∧ (∀ m ∈ p.replies, m ∈ q.replies) ∧
      ∀ r ∈ rs, ∃ m ∈ q.replies, m.2.1 = r := by
  induction rs generalizing p with
  | nil => exact ⟨p, rfl, rfl, rfl, fun _ hm => hm, by simp⟩
  | cons r rs ih =>
    rw [List.nodup_cons] at hnodup
    obtain ⟨m₀, hm₀, hr₀⟩ := List.mem_map.mp (hrs r List.mem_cons_self)
    obtain ⟨m, hfind⟩ : ∃ m, p.requests.find? (·.2 = r) = some m := by
      apply Option.isSome_iff_exists.mp
      exact List.find?_isSome.mpr ⟨m₀, hm₀, by simpa using hr₀⟩
    have hr : m.2 = r := by simpa using List.find?_some hfind
    have hstep : step p (.answer r (reply r)) = some { p with
        requests := p.requests.erase m, replies := p.replies ++ [(m.1, r, reply r)] } := by
      simp only [step, hfind, Option.map_some]
    have hrest : ∀ t ∈ rs, t ∈ (p.requests.erase m).map Prod.snd := by
      intro t ht
      obtain ⟨n, hn, rfl⟩ := List.mem_map.mp (hrs t (List.mem_cons_of_mem _ ht))
      apply List.mem_map_of_mem
      refine (List.mem_erase_of_ne ?_).mpr hn
      rintro rfl
      exact hnodup.1 (hr ▸ ht)
    obtain ⟨q, hq, hissuing, hinvoked, hold, hnew⟩ := ih (p := { p with
      requests := p.requests.erase m, replies := p.replies ++ [(m.1, r, reply r)] }) hnodup.2 hrest
    refine ⟨q, run_cons_eq_some.mpr ⟨_, hstep, hq⟩, hissuing, hinvoked, ?_, ?_⟩
    · intro n hn
      exact hold n (List.mem_append_left _ hn)
    · intro t ht
      cases ht with
      | head => exact ⟨_, hold _ (List.mem_append_right _ (List.mem_singleton_self _)), rfl⟩
      | tail _ ht => exact hnew t ht

/-- Replies that are there can be taken in any order. -/
theorem run_runActiveLabels {order : List ρ} (hidle : p.issuing = none) (hnodup : order.Nodup)
    (horder : ∀ r ∈ order, ∃ m ∈ p.replies, m.2.1 = r) :
    ∃ q, run step p (order.map .runActiveLabel) = some q ∧
      q.invoked.map (·.2.1) = p.invoked.map (·.2.1) ++ order := by
  induction order generalizing p with
  | nil => exact ⟨p, rfl, by simp⟩
  | cons r order ih =>
    rw [List.nodup_cons] at hnodup
    obtain ⟨m₀, hm₀, hr₀⟩ := horder r List.mem_cons_self
    obtain ⟨m, hfind⟩ : ∃ m, p.replies.find? (·.2.1 = r) = some m := by
      apply Option.isSome_iff_exists.mp
      exact List.find?_isSome.mpr ⟨m₀, hm₀, by simpa using hr₀⟩
    have hr : m.2.1 = r := by simpa using List.find?_some hfind
    have hstep : step p (.runActiveLabel r) = some { p with
        labels := Function.update p.labels m.1 none
        replies := p.replies.erase m
        invoked := p.invoked ++ [(p.labels m.1, r, m.2.2)] } := by
      simp only [step]
      rw [if_pos hidle, hfind, Option.map_some]
    have hrest : ∀ t ∈ order, ∃ n ∈ p.replies.erase m, n.2.1 = t := by
      intro t ht
      obtain ⟨n, hn, rfl⟩ := horder t (List.mem_cons_of_mem _ ht)
      refine ⟨n, (List.mem_erase_of_ne ?_).mpr hn, rfl⟩
      rintro rfl
      exact hnodup.1 (hr ▸ ht)
    obtain ⟨q, hq, hinvoked⟩ := ih (p := { p with
      labels := Function.update p.labels m.1 none
      replies := p.replies.erase m
      invoked := p.invoked ++ [(p.labels m.1, r, m.2.2)] }) hidle hnodup.2 hrest
    refine ⟨q, run_cons_eq_some.mpr ⟨_, hstep, hq⟩, ?_⟩
    rw [hinvoked, List.map_append, List.map_singleton, List.append_assoc, List.singleton_append]

/-- Requests in `rs` have been answered as `reply` says. -/
def Answered (reply : ρ → ν) (rs : List ρ) (p : Process ρ ν) : Prop :=
  (∀ m ∈ p.replies, m.2.1 ∈ rs → m.2.2 = reply m.2.1) ∧
    ∀ m ∈ p.invoked, m.2.1 ∈ rs → m.2.2 = reply m.2.1

theorem Answered.step {reply : ρ → ν} {rs : List ρ} {a : Step ρ ν} (h : Answered reply rs p)
    (ha : Replying reply a) (hs : step p a = some p') : Answered reply rs p' := by
  cases a with
  | issue r => cases ha
  | send => cases ha
  | record => cases ha
  | answer r result =>
    obtain ⟨m, hfind, rfl⟩ := Option.map_eq_some_iff.mp hs
    refine ⟨?_, h.2⟩
    intro n hn hin
    rcases List.mem_append.mp hn with hn|hn
    · exact h.1 n hn hin
    · obtain rfl := List.mem_singleton.mp hn
      exact ha
  | runActiveLabel r =>
    simp only [SynchronousIpc.step] at hs
    split at hs
    · obtain ⟨m, hfind, rfl⟩ := Option.map_eq_some_iff.mp hs
      have hr : m.2.1 = r := by simpa using List.find?_some hfind
      refine ⟨?_, ?_⟩
      · intro n hn hin
        exact h.1 n (List.mem_of_mem_erase hn) hin
      · intro n hn hin
        rcases List.mem_append.mp hn with hn|hn
        · exact h.2 n hn hin
        · obtain rfl := List.mem_singleton.mp hn
          subst hr
          exact h.1 m (List.mem_of_find?_eq_some hfind) hin
    · cases hs

theorem run_replying {reply : ρ → ν} {rs : List ρ} {as : List (Step ρ ν)} (h : Sound p)
    (hans : Answered reply rs p) (has : ∀ a ∈ as, Replying reply a)
    (hr : run step p as = some p') : Sound p' ∧ Answered reply rs p' := by
  induction as generalizing p with
  | nil =>
    obtain rfl : p = p' := by simpa using hr
    exact ⟨h, hans⟩
  | cons a as ih =>
    obtain ⟨m, hm, hr⟩ := run_cons_eq_some.mp hr
    have ha := has a List.mem_cons_self
    have hallowed : Allowed p a := by
      cases a with
      | issue r => cases ha
      | _ => trivial
    exact ih (step_sound h hallowed hm) (hans.step ha hm)
      (fun b hb => has b (List.mem_cons_of_mem _ hb)) hr

omit [DecidableEq ν] in
/-- The continuations of a map get the replies in the order in which these arrive. -/
theorem Sound.mapValues_eq {reply : ρ → ν} {rs : List ρ} (h : Sound p)
    (hans : Answered reply rs p) : mapValues rs p = (arrivals rs p).map reply := by
  have hinvoked := h.invoked_eq
  have hreply := hans.2
  simp only [mapValues, arrivals]
  generalize p.invoked = ms at hinvoked hreply ⊢
  induction ms with
  | nil => rfl
  | cons m ms ih =>
    have hm := hinvoked m List.mem_cons_self
    have htail := ih (fun n hn => hinvoked n (List.mem_cons_of_mem _ hn))
      (fun n hn => hreply n (List.mem_cons_of_mem _ hn))
    by_cases hin : m.2.1 ∈ rs
    · simp [hm, hin, htail, hreply m List.mem_cons_self hin]
    · simp [hm, hin, htail]

/-- `ipc:map` returns the replies in the order of the processes just when there is a process,
every request gets a label, and the replies, taken in the reverse order of their arrival, are
those of the processes in order. -/
theorem map_in_process_order_iff {reply : ρ → ν} {as : List (Step ρ ν)} {rs order : List ρ}
    (hok : Meets Allowed step start as) (hr : run step start as = some p)
    (hidle : p.issuing = none) (hnodup : rs.Nodup) (hnew : ∀ r ∈ rs, r ∉ p.issued)
    (horder : order.Perm rs) :
    MapReturns reply p rs order (rs.map reply) ↔
      rs ≠ [] ∧ (outstanding p).length + rs.length ≤ bufferSize ∧
        order.reverse.map reply = rs.map reply := by
  have h := run_sound hok hr
  have hlen := horder.length_eq
  -- nothing of the map has been answered when it has issued its requests
  have hstart {q : Process ρ ν} (hrep : q.replies = p.replies) (hinv : q.invoked = p.invoked) :
      Answered reply rs q := by
    constructor
    · intro m hm hin
      rw [hrep] at hm
      refine absurd (h.issued_perm.mem_iff.mpr (List.mem_append_left _ ?_)) (hnew _ hin)
      exact List.mem_map.mpr ⟨(m.1, m.2.1),
        List.mem_append_right _ (List.mem_map.mpr ⟨m, hm, rfl⟩), rfl⟩
    · intro m hm hin
      rw [hinv] at hm
      refine absurd (h.issued_perm.mem_iff.mpr (List.mem_append_right _ ?_)) (hnew _ hin)
      exact List.mem_map_of_mem (f := fun m => m.2.1) hm
  have hcollect {q s : Process ρ ν} {bs : List (Step ρ ν)} (hsound : Sound q)
      (hans : Answered reply rs q) (hbs : ∀ b ∈ bs, Replying reply b)
      (hs : run step q bs = some s) (harr : arrivals rs s = order) (hne : rs ≠ []) :
      collect rs.length [] (mapValues rs s) = some (order.reverse.map reply) := by
    obtain ⟨hsounds, hanss⟩ := run_replying hsound hans hbs hs
    rw [hsounds.mapValues_eq hanss, harr, collect_eq, List.append_nil, List.map_reverse]
    · exact List.length_pos_iff.mpr hne
    · simp [hlen]
  constructor
  · intro hmap
    obtain ⟨q, hq, ⟨bs, s, hbs, hs, harr⟩, hall⟩ := hmap
    have hres := hall bs s hbs hs harr
    have hfit : (outstanding p).length + rs.length ≤ bufferSize := by
      by_contra hmore
      rw [h.run_issueAll_eq_none hidle hnodup hnew (by omega)] at hq
      cases hq
    obtain ⟨q', hq', hsound, -, -, hrep, hinv⟩ := h.run_issueAll hidle hnodup hnew hfit
    obtain rfl : q' = q := Option.some.inj (hq'.symm.trans hq)
    obtain ⟨hsounds, hanss⟩ := run_replying hsound (hstart hrep hinv) hbs hs
    have hne : rs ≠ [] := by
      rintro rfl
      obtain rfl := horder.eq_nil
      rw [hsounds.mapValues_eq hanss, harr] at hres
      cases hres
    refine ⟨hne, hfit, ?_⟩
    rw [hcollect hsound (hstart hrep hinv) hbs hs harr hne] at hres
    exact Option.some.inj hres
  · intro hcond
    obtain ⟨hne, hfit, heq⟩ := hcond
    obtain ⟨q, hq, hsound, hidleq, hreq, hrep, hinv⟩ := h.run_issueAll hidle hnodup hnew hfit
    refine ⟨q, hq, ?_, ?_⟩
    · obtain ⟨m, hm, hidlem, hinvm, -, hreplies⟩ := run_answers (p := q) reply hnodup
        (fun r hr => hreq ▸ List.mem_append_right _ hr)
      obtain ⟨s, hs, hinvs⟩ := run_runActiveLabels (hidlem.trans hidleq) (horder.nodup_iff.mpr hnodup)
        (fun r hr => hreplies r (horder.mem_iff.mp hr))
      refine ⟨_, s, ?_, by rw [run_append, hm]; exact hs, ?_⟩
      · intro a ha
        rcases List.mem_append.mp ha with ha|ha
        · obtain ⟨r, -, rfl⟩ := List.mem_map.mp ha
          rfl
        · obtain ⟨r, -, rfl⟩ := List.mem_map.mp ha
          trivial
      · have hold : (p.invoked.map (·.2.1)).filter (· ∈ rs) = [] := by
          apply List.filter_eq_nil_iff.mpr
          intro r hr
          have hissued := h.issued_perm.mem_iff.mpr (List.mem_append_right _ hr)
          simpa using fun hin => hnew r hin hissued
        have hall : order.filter (· ∈ rs) = order := by
          apply List.filter_eq_self.mpr
          intro r hr
          simpa using horder.mem_iff.mp hr
        rw [arrivals, hinvs, hinvm, hinv, List.filter_append, hold, hall, List.nil_append]
    · intro bs s hbs hs harr
      rw [hcollect hsound (hstart hrep hinv) hbs hs harr hne, heq]

/-- The second of two processes replies first. -/
theorem map_in_process_order_two :
    MapReturns (fun r => 10 * r) (start : Process ℕ ℕ) [1, 2] [2, 1] [10, 20] := by
  have hok : Meets Allowed step (start : Process ℕ ℕ) [] := trivial
  have hnew : ∀ r ∈ [1, 2], r ∉ (start : Process ℕ ℕ).issued := fun r _ hr => by cases hr
  apply (map_in_process_order_iff hok rfl rfl (by decide) hnew
    (List.Perm.swap 1 2 [])).mpr
  exact ⟨by decide, by decide, rfl⟩

/-- Two processes reply in the order of the list: `ipc:map` returns the second reply first. -/
theorem map_not_in_process_order :
    (∃ p : Process ℕ ℕ, run step start (issueAll [1, 2] ++ [.answer 1 10, .answer 2 20,
        .runActiveLabel 1, .runActiveLabel 2]) = some p ∧
      arrivals [1, 2] p = [1, 2] ∧ collect 2 [] (mapValues [1, 2] p) = some [20, 10]) ∧
    ¬ MapReturns (fun r => 10 * r) (start : Process ℕ ℕ) [1, 2] [1, 2] [10, 20] := by
  refine ⟨⟨_, rfl, rfl, rfl⟩, ?_⟩
  intro hmap
  obtain ⟨q, hq, -, hall⟩ := hmap
  obtain rfl := Option.some.inj hq
  have hres := hall [.answer 1 10, .answer 2 20, .runActiveLabel 1, .runActiveLabel 2] _
    (by simp [Replying]) rfl rfl
  revert hres
  decide

end Extempore.SynchronousIpc
