import Mathlib.Order.Defs.LinearOrder
import Mathlib.Data.List.Sort
import Extempore.LinkedLists
import Extempore.GuardedRuns

/-!
# The native scheduler

`scheduler_init` returns a closure over the list of events, which executes the events that are due.
`scheduler_evt` puts an event into the list; other threads call it while no run is going on, and an
event may call it while it is executed.
-/

namespace Extempore.NativeScheduler
open LinkedLists GuardedRuns

variable {T F : Type}

/-- `memory` is an access to a cell that is not allocated, `endless` a loop that does not end, and
`disabled` an action that is not possible in this state. -/
inductive Fault where
  | memory | endless | disabled
  deriving DecidableEq, Repr

/-- `<!a,i8*,SchedEvt*,SchedEvt*>`: the time and the name of the function, then the links. -/
abbrev SchedEvt (T F : Type) := Cell ℕ (T × F)

/-- Where the scheduler's thread is: outside a run, before the test of the loop with the run's time
and the cell `element`, or in a call of the function of `element`. -/
inductive Phase (T : Type) where
  | idle
  | testing (time : T) (element : Option ℕ)
  | executing (time : T) (element : ℕ)
  deriving DecidableEq, Repr

/-- The call of an event's function, with the time of the run. -/
structure Execution (T F : Type) where
  runTime : T
  event : T × F
  deriving DecidableEq, Repr

/-- The variables of the closure. `allocated` counts the cells that were ever allocated, and the
last two fields record what happened so far. -/
structure Scheduler (T F : Type) where
  heap : Heap ℕ (T × F)
  evtlist : Option ℕ
  phase : Phase T
  cnt : ℕ
  allocated : ℕ
  scheduled : List (T × F)
  executed : List (Execution T F)

/-- `scheduler_init` with the empty list. -/
def schedulerInit : Scheduler T F := ⟨fun _ => none, none, .idle, 0, 0, [], []⟩

/-- `tref` -/
def read (heap : Heap ℕ (T × F)) (p : ℕ) : Except Fault (SchedEvt T F) :=
  match heap p with
  | some c => .ok c
  | none => .error .memory

/-- `(tset! p 2 prev)` -/
def tsetPrev (heap : Heap ℕ (T × F)) (p : ℕ) (prev : Option ℕ) :
    Except Fault (Heap ℕ (T × F)) := do
  let c ← read heap p
  .ok (Function.update heap p (some { c with prev }))

/-- `(tset! p 3 next)` -/
def tsetNext (heap : Heap ℕ (T × F)) (p : ℕ) (next : Option ℕ) :
    Except Fault (Heap ℕ (T × F)) := do
  let c ← read heap p
  .ok (Function.update heap p (some { c with next }))

def free (heap : Heap ℕ (T × F)) (p : ℕ) : Except Fault (Heap ℕ (T × F)) := do
  let _ ← read heap p
  .ok (Function.update heap p none)

variable [LinearOrder T]

/-- The loop of `scheduler_at`; a loop with more rounds than there are cells never ends. -/
def schedulerAt (heap : Heap ℕ (T × F)) (time : T) :
    ℕ → Option ℕ → Option ℕ → Except Fault (Option ℕ)
  | 0, _, _ => .error .endless
  | _ + 1, none, prev => .ok prev
  | fuel + 1, some evtlist, prev => do
    let c ← read heap evtlist
    if c.value.1 ≤ time then schedulerAt heap time fuel c.next (some evtlist) else .ok prev

namespace Scheduler

/-- `scheduler_evt`, for which `SchedEvt_h` returns the cell at `new`. -/
def schedulerEvt (s : Scheduler T F) (time : T) (fname : F) (new : ℕ) :
    Except Fault (Scheduler T F) :=
  if (s.heap new).isSome then .error .disabled
  else do
    match ← schedulerAt s.heap time (s.allocated + 1) s.evtlist none with
    | none =>
      .ok { s with
        heap := Function.update s.heap new (some ⟨(time, fname), none, s.evtlist⟩)
        evtlist := some new
        allocated := s.allocated + 1
        scheduled := s.scheduled ++ [(time, fname)] }
    | some evtlist =>
      let next := (← read s.heap evtlist).next
      let heap := Function.update s.heap new (some ⟨(time, fname), some evtlist, next⟩)
      let heap ← tsetNext heap evtlist (some new)
      let heap ← match next with
        | none => .ok heap
        | some next => tsetPrev heap next (some new)
      .ok { s with
        heap
        allocated := s.allocated + 1
        scheduled := s.scheduled ++ [(time, fname)] }

/-- The test of the loop: the function of `element` is called, or the run ends. -/
def test (s : Scheduler T F) (time : T) (element : Option ℕ) : Except Fault (Scheduler T F) :=
  match element with
  | none => .ok { s with phase := .idle }
  | some element => do
    let c ← read s.heap element
    if c.value.1 ≤ time then
      .ok { s with
        phase := .executing time element
        cnt := s.cnt + 1
        executed := s.executed ++ [⟨time, c.value⟩] }
    else .ok { s with phase := .idle }

/-- The rest of the loop's body after the call. -/
def unlink (s : Scheduler T F) (time : T) (element : ℕ) : Except Fault (Scheduler T F) := do
  let next := (← read s.heap element).next
  let prev := (← read s.heap element).prev
  let s ← match prev with
    | none => .ok { s with evtlist := next }
    | some prev => do .ok { s with heap := ← tsetNext s.heap prev next }
  let heap ← match next with
    | none => .ok s.heap
    | some next => tsetPrev s.heap next prev
  .ok { s with heap := ← free heap element, phase := .testing time next }

end Scheduler

/-- `evt` calls `scheduler_evt`, `run` calls the closure, `test` tests the condition of the loop and
`finish` returns from the function of an event. -/
inductive Action (T F : Type) where
  | evt (time : T) (fname : F) (new : ℕ)
  | run (time : T)
  | test
  | finish
  deriving DecidableEq, Repr

/-- One action. Other threads wait for the mutex during a run. -/
def Scheduler.next (s : Scheduler T F) : Action T F → Except Fault (Scheduler T F)
  | .evt time fname new =>
    match s.phase with
    | .testing _ _ => .error .disabled
    | _ => s.schedulerEvt time fname new
  | .run time =>
    match s.phase with
    | .idle => .ok { s with phase := .testing time s.evtlist, cnt := 0 }
    | _ => .error .disabled
  | .test =>
    match s.phase with
    | .testing time element => s.test time element
    | _ => .error .disabled
  | .finish =>
    match s.phase with
    | .executing time element => s.unlink time element
    | _ => .error .disabled

/-- The actions that are possible and meet no fault. -/
def step (s : Scheduler T F) (a : Action T F) : Option (Scheduler T F) := (s.next a).toOption

/-- The events that were scheduled and not executed yet. -/
def waiting (s : Scheduler T F) (cells : List ℕ) : List (T × F) :=
  match s.phase with
  | .executing _ _ => (values s.heap cells).tail
  | _ => values s.heap cells

/-- The cell that the run is at. -/
def Phase.element : Phase T → Option ℕ
  | .idle => none
  | .testing _ element => element
  | .executing _ element => some element

/-- The list consists of `cells`, which are all that is allocated, in the order of their times. -/
structure SortedList (s : Scheduler T F) (cells : List ℕ) : Prop where
  linked : Linked s.heap none s.evtlist cells
  nodup : cells.Nodup
  owned : ∀ p, (s.heap p).isSome = true ↔ p ∈ cells
  sorted : (values s.heap cells).Pairwise fun x y => x.1 ≤ y.1

/-- Of the events with one time those that were executed and those that wait, one after the other,
are those that were scheduled, and nothing was executed before its time. -/
structure Kept (s : Scheduler T F) (cells : List ℕ) : Prop where
  inOrder : ∀ time, ((s.executed.map Execution.event ++ waiting s cells).filter fun x => x.1 = time) =
    s.scheduled.filter fun x => x.1 = time
  due : ∀ x ∈ s.executed, x.event.1 ≤ x.runTime

/-- The scheduler is in order: the list is sorted, no event is lost, executed twice, too early or
out of order, a run is at the first cell and does not end before the events that are due are
executed, and no action meets a cell that is not allocated or a loop without end. -/
def InOrder (s : Scheduler T F) : Prop :=
  ∃ cells, SortedList s cells ∧ Kept s cells ∧
    (s.executed.map Execution.event ++ waiting s cells).Perm s.scheduled ∧
    (∀ p, s.phase.element = some p → ∀ c, s.heap p = some c →
      ∀ x ∈ values s.heap cells, c.value.1 ≤ x.1) ∧
    (∀ time element s', s.phase = .testing time element → step s .test = some s' →
      s'.phase = .idle → ∀ x ∈ waiting s cells, time < x.1) ∧
    ∀ a, s.next a ≠ .error .memory ∧ s.next a ≠ .error .endless

/-- An event is not scheduled for a time before all events of the list. -/
def NotInFront (s : Scheduler T F) : Action T F → Prop
  | .evt time _ _ => ∀ p c, s.evtlist = some p → s.heap p = some c → c.value.1 ≤ time
  | _ => True

/-! ## The single functions -/

variable {s s' : Scheduler T F} {cells front back : List ℕ} {heap : Heap ℕ (T × F)}
  {time : T} {fname : F} {new element p q : ℕ} {first prev : Option ℕ} {c : SchedEvt T F}

omit [LinearOrder T] in
theorem read_eq (h : heap p = some c) : read heap p = .ok c := by
  rw [read, h]

omit [LinearOrder T] in
theorem tsetNext_eq (h : heap p = some c) (next : Option ℕ) :
    tsetNext heap p next = .ok (setNext heap p next) := by
  rw [tsetNext, read_eq h, setNext, h]
  rfl

omit [LinearOrder T] in
theorem tsetPrev_eq (h : heap p = some c) (prev : Option ℕ) :
    tsetPrev heap p prev = .ok (setPrev heap (some p) prev) := by
  rw [tsetPrev, read_eq h, setPrev, h]
  rfl

omit [LinearOrder T] in
theorem free_eq (h : heap p = some c) : free heap p = .ok (Function.update heap p none) := by
  rw [free, read_eq h]
  rfl

/-- The loop stops behind the events that are not later than `time`. -/
theorem schedulerAt_eq (time : T) {fuel : ℕ} (hlinked : Linked heap prev first cells)
    (hsorted : (values heap cells).Pairwise fun x y => x.1 ≤ y.1) (hfuel : cells.length < fuel) :
    ∃ front back, cells = front ++ back ∧ (∀ x ∈ values heap front, x.1 ≤ time) ∧
      (∀ x ∈ values heap back, time < x.1) ∧
      schedulerAt heap time fuel first prev = .ok (front.getLast?.or prev) := by
  induction cells generalizing fuel first prev with
  | nil =>
    obtain rfl : first = none := hlinked
    cases fuel with
    | zero => cases hfuel
    | succ fuel => exact ⟨[], [], rfl, by simp [values], by simp [values], rfl⟩
  | cons a cells ih =>
    obtain ⟨rfl, c, hc, -, hrest⟩ := hlinked
    rw [values_cons hc, List.pairwise_cons] at hsorted
    cases fuel with
    | zero => cases hfuel
    | succ fuel =>
      by_cases hle : c.value.1 ≤ time
      · obtain ⟨front, back, rfl, hfront, hback, hat⟩ :=
          ih hrest hsorted.2 (Nat.lt_of_succ_lt_succ hfuel)
        refine ⟨a :: front, back, rfl, ?_, hback, ?_⟩
        · rw [values_cons hc]
          exact List.forall_mem_cons.mpr ⟨hle, hfront⟩
        · rw [schedulerAt, read_eq hc]
          refine (if_pos hle).trans (hat.trans ?_)
          cases front <;> simp [List.getLast?_cons]
      · refine ⟨[], a :: cells, rfl, by simp [values], ?_, ?_⟩
        · rw [values_cons hc]
          have hlt := lt_of_not_ge hle
          exact List.forall_mem_cons.mpr ⟨hlt, fun x hx => hlt.trans_le (hsorted.1 x hx)⟩
        · rw [schedulerAt, read_eq hc]
          exact if_neg hle

/-- What keeps the scheduler in order. -/
structure Invariant (s : Scheduler T F) (cells : List ℕ) : Prop where
  list : SortedList s cells
  kept : Kept s cells
  atFirst : s.phase ≠ .idle → s.phase.element = s.evtlist
  allocated : cells.length ≤ s.allocated

theorem invariant_init : Invariant (schedulerInit : Scheduler T F) [] where
  list := ⟨rfl, .nil, fun p => by simp [schedulerInit], .nil⟩
  kept := ⟨fun time => rfl, fun x hx => by cases hx⟩
  atFirst h := absurd rfl h
  allocated := Nat.zero_le 0

theorem SortedList.notMem (h : SortedList s cells) (hnew : s.heap new = none) : new ∉ cells := by
  intro hmem
  have hsome := (h.owned new).mpr hmem
  rw [hnew] at hsome
  cases hsome

/-- The cell of the new event is the only one. -/
def withFirst (s : Scheduler T F) (time : T) (fname : F) (new : ℕ) : Scheduler T F :=
  { s with
    heap := Function.update s.heap new (some ⟨(time, fname), none, s.evtlist⟩)
    evtlist := some new
    allocated := s.allocated + 1
    scheduled := s.scheduled ++ [(time, fname)] }

/-- The cell of the new event is behind the one at `p`. -/
def withBehind (s : Scheduler T F) (time : T) (fname : F) (new p : ℕ) (next : Option ℕ) :
    Scheduler T F :=
  { s with
    heap := insertAfter s.heap new p (time, fname) next
    allocated := s.allocated + 1
    scheduled := s.scheduled ++ [(time, fname)] }

/-- `scheduler_evt` puts the new event in front of the list or behind the last event that is not
later. -/
theorem schedulerEvt_eq (h : Invariant s cells) (time : T) (fname : F) (hnew : s.heap new = none) :
    (s.schedulerEvt time fname new = .ok (withFirst s time fname new) ∧
      ∀ x ∈ values s.heap cells, time < x.1) ∨
    ∃ front p back c, cells = front ++ p :: back ∧ s.heap p = some c ∧
      (∀ x ∈ values s.heap (front ++ [p]), x.1 ≤ time) ∧
      (∀ x ∈ values s.heap back, time < x.1) ∧
      s.schedulerEvt time fname new = .ok (withBehind s time fname new p c.next) := by
  obtain ⟨front, back, hcells, hfront, hback, hat⟩ := schedulerAt_eq time h.list.linked
    h.list.sorted (Nat.lt_succ_of_le h.allocated)
  have hfree : ¬ (s.heap new).isSome = true := by
    rw [hnew]
    exact Bool.false_ne_true
  cases front.eq_nil_or_concat with
  | inl hnil =>
    left
    rw [hnil] at hat hcells
    rw [List.nil_append] at hcells
    rw [← hcells] at hback
    refine ⟨?_, hback⟩
    rw [Scheduler.schedulerEvt, if_neg hfree, hat]
    rfl
  | inr hconcat =>
    right
    obtain ⟨front', p, rfl⟩ := hconcat
    have hcells' : cells = front' ++ p :: back := by simpa using hcells
    obtain ⟨c, hc⟩ := h.list.linked.exists_cell (a := p) (by simp [hcells'])
    refine ⟨front', p, back, c, hcells', hc, by simpa using hfront, hback, ?_⟩
    have hpnew : p ≠ new := by
      intro hpn
      rw [hpn, hnew] at hc
      cases hc
    have hp : Function.update s.heap new (some ⟨(time, fname), some p, c.next⟩) p = some c := by
      rw [Function.update_of_ne hpnew, hc]
    have hlast : (front'.concat p).getLast?.or none = some p := by simp
    rw [Scheduler.schedulerEvt, if_neg hfree, hat, hlast]
    change ((read s.heap p).bind _) = _
    rw [read_eq hc]
    change ((tsetNext (Function.update s.heap new (some ⟨(time, fname), some p, c.next⟩)) p
      (some new)).bind _) = _
    rw [tsetNext_eq hp]
    cases hnext : c.next with
    | none => rfl
    | some q =>
      have hq : q ∈ back := by
        have hhead := (hcells' ▸ h.list.linked).next_eq hc
        exact List.mem_of_mem_head? (hhead.symm.trans hnext)
      obtain ⟨d, hd⟩ := h.list.linked.exists_cell (a := q) (by simp [hcells', hq])
      have hqnew : q ≠ new := by
        intro hqn
        rw [hqn, hnew] at hd
        cases hd
      have hqp : q ≠ p := by
        have hnodup := hcells' ▸ h.list.nodup
        rintro rfl
        exact (List.nodup_cons.mp (List.nodup_append.mp hnodup).2.1).1 hq
      have hq' : setNext (Function.update s.heap new (some ⟨(time, fname), some p, some q⟩)) p
          (some new) q = some d := by
        rw [setNext_of_ne hqp, Function.update_of_ne hqnew, hd]
      change ((tsetPrev _ q (some new)).bind _) = _
      rw [tsetPrev_eq hq']
      rfl

/-- Behind the last event that is not later, a new event is the last one of its time. -/
theorem filter_insert {xs ys : List (T × F)} (hlater : ∀ y ∈ ys, time < y.1) (t : T) :
    (xs ++ (time, fname) :: ys).filter (fun x => x.1 = t) =
      (xs ++ ys).filter (fun x => x.1 = t) ++ [(time, fname)].filter (fun x => x.1 = t) := by
  rw [List.filter_append, List.filter_append, List.filter_cons]
  split
  · rename_i heq
    have hnil : ys.filter (fun x => x.1 = t) = [] := by
      apply List.filter_eq_nil_iff.mpr
      intro y hy hyt
      have hlt := hlater y hy
      rw [of_decide_eq_true hyt, ← of_decide_eq_true heq] at hlt
      exact lt_irrefl _ hlt
    rw [hnil, List.filter_cons, if_pos heq]
    simp
  · rename_i hne
    rw [List.filter_cons, if_neg hne]
    simp

/-- A new event in an empty list. -/
theorem invariant_withFirst (h : Invariant s []) (hphase : s.phase = .idle) :
    Invariant (withFirst s time fname new) [new] := by
  have hcell : Function.update s.heap new (some ⟨(time, fname), none, s.evtlist⟩) new =
      some ⟨(time, fname), none, s.evtlist⟩ := Function.update_self ..
  have hvalues : values (withFirst s time fname new).heap [new] = [(time, fname)] := values_cons hcell
  refine ⟨⟨?_, List.nodup_singleton new, ?_, ?_⟩, ⟨?_, h.kept.due⟩, absurd hphase, ?_⟩
  · exact ⟨rfl, _, hcell, rfl, h.list.linked⟩
  · intro p
    by_cases hp : p = new
    · subst hp
      simp [withFirst]
    · simpa [withFirst, hp] using h.list.owned p
  · rw [hvalues]
    exact List.pairwise_singleton ..
  · intro t
    have hbefore := h.kept.inOrder t
    have hwaiting : waiting (withFirst s time fname new) [new] = [(time, fname)] := by
      rw [waiting, show (withFirst s time fname new).phase = .idle from hphase]
      exact hvalues
    have hnone : waiting s [] = [] := by
      rw [waiting, hphase]
      rfl
    rw [hnone] at hbefore
    rw [hwaiting]
    have hnothing : ∀ y ∈ ([] : List (T × F)), time < y.1 := by simp
    apply (filter_insert hnothing t).trans
    exact (congrArg (· ++ _) hbefore).trans (List.filter_append ..).symm
  · exact Nat.succ_le_succ h.allocated

/-- A new event behind another one. -/
theorem invariant_withBehind (h : Invariant s (front ++ p :: back)) (hnew : s.heap new = none)
    (hc : s.heap p = some c) (hfront : ∀ x ∈ values s.heap (front ++ [p]), x.1 ≤ time)
    (hback : ∀ x ∈ values s.heap back, time < x.1) :
    Invariant (withBehind s time fname new p c.next) (front ++ p :: new :: back) := by
  have hnotMem := h.list.notMem hnew
  have hvalues : values (withBehind s time fname new p c.next).heap (front ++ p :: new :: back) =
      values s.heap (front ++ [p]) ++ (time, fname) :: values s.heap back :=
    values_insertAfter hnotMem
  have hsplit : values s.heap (front ++ p :: back) =
      values s.heap (front ++ [p]) ++ values s.heap back := by
    rw [← values_append, List.append_assoc]
    rfl
  have hsorted := h.list.sorted
  rw [hsplit, List.pairwise_append] at hsorted
  refine ⟨⟨h.list.linked.insertAfter h.list.nodup hnotMem hc _, ?_, ?_, ?_⟩, ⟨?_, h.kept.due⟩,
    h.atFirst, ?_⟩
  · rw [List.append_cons]
    apply (List.perm_middle.nodup_iff).mpr
    rw [← List.append_cons]
    exact List.nodup_cons.mpr ⟨hnotMem, h.list.nodup⟩
  · intro a
    by_cases ha : a = new
    · subst ha
      have hsome : (withBehind s time fname a p c.next).heap a ≠ none := by
        intro hnone
        have hmap : (insertAfter s.heap a p (time, fname) c.next a).map Cell.value =
            some (time, fname) := map_value_insertAfter_self
        rw [show insertAfter s.heap a p (time, fname) c.next a = none from hnone] at hmap
        cases hmap
      simp [Option.isSome_iff_ne_none, hsome]
    · have hsame : ((withBehind s time fname new p c.next).heap a).isSome = (s.heap a).isSome :=
        isSome_eq_of_map_value (map_value_insertAfter ha)
      rw [hsame, h.list.owned a]
      simp [ha]
  · rw [hvalues, List.pairwise_append, List.pairwise_cons]
    refine ⟨hsorted.1, ⟨fun x hx => (hback x hx).le, hsorted.2.1⟩, ?_⟩
    intro x hx y hy
    cases hy with
    | head => exact hfront x hx
    | tail _ hy => exact (hfront x hx).trans (hback y hy).le
  · intro t
    obtain ⟨xs, hwaiting, hwaiting'⟩ : ∃ xs, waiting s (front ++ p :: back) =
        xs ++ values s.heap back ∧ waiting (withBehind s time fname new p c.next)
          (front ++ p :: new :: back) = xs ++ (time, fname) :: values s.heap back := by
      have hne : values s.heap (front ++ [p]) ≠ [] := by
        rw [values_append, values_cons hc]
        simp
      rw [waiting, waiting, hvalues, hsplit,
        show (withBehind s time fname new p c.next).phase = s.phase from rfl]
      cases s.phase with
      | idle => exact ⟨_, rfl, rfl⟩
      | testing time element => exact ⟨_, rfl, rfl⟩
      | executing time element =>
        exact ⟨_, List.tail_append_of_ne_nil hne, List.tail_append_of_ne_nil hne⟩
    have hbefore := h.kept.inOrder t
    rw [hwaiting, ← List.append_assoc] at hbefore
    rw [hwaiting', ← List.append_assoc]
    apply (filter_insert hback t).trans
    exact (congrArg (· ++ _) hbefore).trans (List.filter_append ..).symm
  · have hle := h.allocated
    simp only [List.length_append, List.length_cons] at hle ⊢
    exact Nat.succ_le_succ hle

/-- The function of the first event is called. -/
theorem invariant_executing (h : Invariant s cells) (hphase : s.phase = .testing time (some p))
    (hc : s.heap p = some c) (hdue : c.value.1 ≤ time) :
    Invariant { s with
      phase := .executing time p
      cnt := s.cnt + 1
      executed := s.executed ++ [⟨time, c.value⟩] } cells := by
  have hfirst : s.evtlist = some p := by
    rw [← h.atFirst (by rw [hphase]; simp), hphase]
    rfl
  refine ⟨⟨h.list.linked, h.list.nodup, h.list.owned, h.list.sorted⟩, ⟨?_, ?_⟩, fun _ => hfirst.symm,
    h.allocated⟩
  · intro t
    have hbefore := h.kept.inOrder t
    have hlinked := h.list.linked
    cases cells with
    | nil =>
      rw [hfirst] at hlinked
      cases hlinked
    | cons a cells =>
      obtain rfl : p = a := Option.some.inj (hfirst.symm.trans hlinked.1)
      rw [waiting, hphase, values_cons hc] at hbefore
      simp only [waiting, values_cons hc, List.map_append, List.map_cons, List.map_nil,
        List.tail_cons, List.append_assoc, List.singleton_append]
      exact hbefore
  · intro x hx
    cases List.mem_append.mp hx with
    | inl hmem => exact h.kept.due x hmem
    | inr hmem =>
      obtain rfl := List.mem_singleton.mp hmem
      exact hdue

/-- The executed event is taken out. -/
theorem unlink_eq (h : Invariant s cells) (hphase : s.phase = .executing time p) :
    ∃ c rest, cells = p :: rest ∧ s.heap p = some c ∧
      s.unlink time p = .ok { s with
        heap := Function.update (setPrev s.heap c.next none) p none
        evtlist := c.next
        phase := .testing time c.next } := by
  have hfirst : s.evtlist = some p := by
    rw [← h.atFirst (by rw [hphase]; simp), hphase]
    rfl
  have hlinked := h.list.linked
  cases cells with
  | nil =>
    rw [hfirst] at hlinked
    cases hlinked
  | cons a rest =>
    obtain ⟨hpa, c, hc, hprev, hrest⟩ := hlinked
    obtain rfl : p = a := Option.some.inj (hfirst.symm.trans hpa)
    refine ⟨c, rest, rfl, hc, ?_⟩
    have hhead : (setPrev s.heap c.next none) p = some c := by
      rw [setPrev_of_ne, hc]
      rw [hrest.first_eq]
      exact fun hmem => (List.nodup_cons.mp h.list.nodup).1 (List.mem_of_mem_head? hmem)
    rw [Scheduler.unlink, read_eq hc]
    simp only [bind, Except.bind, hprev]
    cases hnext : c.next with
    | none =>
      simp only
      rw [free_eq hc]
      rfl
    | some q =>
      have hq : q ∈ rest := List.mem_of_mem_head? (hrest.first_eq.symm.trans hnext)
      obtain ⟨d, hd⟩ := hrest.exists_cell hq
      rw [hnext] at hhead
      simp only
      rw [tsetPrev_eq hd]
      simp only
      rw [free_eq hhead]

theorem invariant_unlink {rest : List ℕ} (h : Invariant s (p :: rest)) (hphase : s.phase = .executing time p)
    (hc : s.heap p = some c) :
    Invariant { s with
      heap := Function.update (setPrev s.heap c.next none) p none
      evtlist := c.next
      phase := .testing time c.next } rest := by
  have hnodup := List.nodup_cons.mp h.list.nodup
  have hfirst : s.evtlist = some p := h.list.linked.1
  have hlinked := h.list.linked
  rw [hfirst] at hlinked
  have hvalues : values (Function.update (setPrev s.heap c.next none) p none) rest =
      values s.heap rest := by
    apply values_congr
    intro a ha
    have hap : a ≠ p := by
      rintro rfl
      exact hnodup.1 ha
    rw [Function.update_of_ne hap, map_value_setPrev]
  have hsorted := h.list.sorted
  rw [values_cons hc] at hsorted
  refine ⟨⟨hlinked.tail h.list.nodup hc, hnodup.2, ?_, ?_⟩, ⟨?_, h.kept.due⟩, fun _ => rfl, ?_⟩
  · intro a
    by_cases hap : a = p
    · subst hap
      simp [hnodup.1]
    · have hsame : (setPrev s.heap c.next none a).isSome = (s.heap a).isSome :=
        isSome_eq_of_map_value map_value_setPrev
      have hupdate : Function.update (setPrev s.heap c.next none) p none a =
          setPrev s.heap c.next none a := Function.update_of_ne hap ..
      simp only [hupdate, hsame, h.list.owned a, List.mem_cons, hap, false_or]
  · rw [hvalues]
    exact hsorted.tail
  · intro t
    have hbefore := h.kept.inOrder t
    rw [waiting, hphase, values_cons hc] at hbefore
    rw [waiting, hvalues]
    exact hbefore
  · exact (Nat.le_succ _).trans h.allocated

/-! ## The actions -/

theorem Invariant.first_eq (h : Invariant s cells) (hphase : s.phase ≠ .idle) :
    s.phase.element = cells.head? := by
  rw [h.atFirst hphase, h.list.linked.first_eq]

variable (time fname) in
/-- An event is put in front of the list, or the invariant is kept. -/
theorem Invariant.evt (h : Invariant s cells) (hphase : ∀ t e, s.phase ≠ .testing t e)
    (hnew : s.heap new = none) : ∃ s', s.schedulerEvt time fname new = .ok s' ∧
      (NotInFront s (.evt time fname new) → ∃ cells', Invariant s' cells') ∧
      (¬ NotInFront s (.evt time fname new) → s' = withFirst s time fname new) := by
  cases schedulerEvt_eq h time fname hnew with
  | inl hfront =>
    refine ⟨_, hfront.1, ?_, fun _ => rfl⟩
    intro hguard
    cases cells with
    | nil =>
      have hidle : s.phase = .idle := by
        by_contra hne
        have hnone := h.first_eq hne
        cases hs : s.phase with
        | idle => exact hne hs
        | testing t e => exact hphase t e hs
        | executing t e =>
          rw [hs] at hnone
          cases hnone
      exact ⟨[new], invariant_withFirst h hidle⟩
    | cons a rest =>
      obtain ⟨hfirst, c, hc, -, -⟩ := h.list.linked
      have hlt := hfront.2 c.value (by rw [values_cons hc]; exact List.mem_cons_self)
      exact absurd (hguard a c hfirst hc) (not_le_of_gt hlt)
  | inr hbehind =>
    obtain ⟨front, p, back, c, rfl, hc, hle, hlt, hevt⟩ := hbehind
    refine ⟨_, hevt, fun _ => ⟨_, invariant_withBehind h hnew hc hle hlt⟩, ?_⟩
    intro hguard
    exfalso
    apply hguard
    intro a d ha hd
    have hhead : a ∈ front ++ [p] := by
      have heq := h.list.linked.first_eq.symm.trans ha
      cases front with
      | nil => simpa using (Option.some.inj heq).symm
      | cons b front =>
        obtain rfl : b = a := Option.some.inj heq
        exact List.mem_cons_self
    exact hle _ (mem_values hhead hd)

/-- A change of the phase alone. -/
theorem Invariant.move (h : Invariant s cells) (phase : Phase T) (cnt : ℕ)
    (hwaiting : ∀ t e, s.phase ≠ .executing t e) (hphase : ∀ t e, phase ≠ .executing t e)
    (hfirst : phase ≠ .idle → phase.element = s.evtlist) :
    Invariant { s with phase, cnt } cells := by
  refine ⟨⟨h.list.linked, h.list.nodup, h.list.owned, h.list.sorted⟩, ⟨?_, h.kept.due⟩, hfirst,
    h.allocated⟩
  have hsame : waiting { s with phase, cnt } cells = waiting s cells := by
    rw [waiting, waiting]
    cases hs : s.phase with
    | executing t e => exact absurd hs (hwaiting t e)
    | _ =>
      cases phase with
      | executing t e => exact absurd rfl (hphase t e)
      | _ => rfl
  intro t
  rw [hsame]
  exact h.kept.inOrder t

/-- The run ends, with only later events in the list, or the first event is executed. -/
theorem Invariant.test (h : Invariant s cells) (hphase : s.phase = .testing time first) :
    ∃ s', s.test time first = .ok s' ∧ Invariant s' cells ∧
      (s'.phase = .idle → ∀ x ∈ waiting s cells, time < x.1) := by
  have hfirst := h.first_eq (by rw [hphase]; simp)
  have hend : Invariant { s with phase := .idle } cells :=
    h.move .idle s.cnt (by simp [hphase]) (by simp) (by simp)
  rw [waiting, hphase]
  rw [hphase] at hfirst
  cases cells with
  | nil =>
    obtain rfl : first = none := hfirst
    exact ⟨_, rfl, hend, by simp [values]⟩
  | cons p rest =>
    obtain rfl : first = some p := hfirst
    obtain ⟨-, c, hc, -, -⟩ := h.list.linked
    rw [Scheduler.test, read_eq hc]
    by_cases hdue : c.value.1 ≤ time
    · refine ⟨_, if_pos hdue, invariant_executing h hphase hc hdue, ?_⟩
      intro hidle
      cases hidle
    · refine ⟨_, if_neg hdue, hend, ?_⟩
      intro _
      have hsorted := h.list.sorted
      rw [values_cons hc, List.pairwise_cons] at hsorted
      simp only [values_cons hc]
      have hlt := lt_of_not_ge hdue
      exact List.forall_mem_cons.mpr ⟨hlt, fun x hx => hlt.trans_le (hsorted.1 x hx)⟩

/-- No action meets a fault. If no event is put in front the invariant is kept. -/
theorem Invariant.next (h : Invariant s cells) (a : Action T F) :
    s.next a = .error .disabled ∨ ∃ s', s.next a = .ok s' ∧
      (NotInFront s a → ∃ cells', Invariant s' cells') := by
  cases a with
  | evt time fname new =>
    cases hnew : s.heap new with
    | some c =>
      left
      have hsome : (s.heap new).isSome = true := by
        rw [hnew]
        rfl
      rw [Scheduler.next]
      split
      · rfl
      · rw [Scheduler.schedulerEvt, if_pos hsome]
    | none =>
      cases hphase : s.phase with
      | testing t e =>
        left
        rw [Scheduler.next, hphase]
      | _ =>
        right
        obtain ⟨s', hs', hkeep, -⟩ := h.evt time fname (by simp [hphase]) hnew
        refine ⟨s', ?_, hkeep⟩
        rw [Scheduler.next, hphase]
        exact hs'
  | run time =>
    cases hphase : s.phase with
    | idle =>
      right
      refine ⟨{ s with phase := .testing time s.evtlist, cnt := 0 }, ?_, fun _ => ⟨cells, ?_⟩⟩
      · rw [Scheduler.next, hphase]
      · exact h.move _ 0 (by simp [hphase]) (by simp) fun _ => rfl
    | _ =>
      left
      rw [Scheduler.next, hphase]
  | test =>
    cases hphase : s.phase with
    | testing time first =>
      right
      obtain ⟨s', hs', hkeep, -⟩ := h.test hphase
      refine ⟨s', ?_, fun _ => ⟨cells, hkeep⟩⟩
      rw [Scheduler.next, hphase]
      exact hs'
    | _ =>
      left
      rw [Scheduler.next, hphase]
  | finish =>
    cases hphase : s.phase with
    | executing time p =>
      right
      obtain ⟨c, rest, rfl, hc, hs'⟩ := unlink_eq h hphase
      refine ⟨_, ?_, fun _ => ⟨rest, invariant_unlink h hphase hc⟩⟩
      rw [Scheduler.next, hphase]
      exact hs'
    | _ =>
      left
      rw [Scheduler.next, hphase]

theorem Invariant.inOrder (h : Invariant s cells) : InOrder s := by
  refine ⟨cells, h.list, h.kept, ?_, ?_, ?_, ?_⟩
  · classical
    apply List.perm_iff_count.mpr
    intro x
    have hcount := congrArg (List.count x) (h.kept.inOrder x.1)
    rwa [List.count_filter (by simp), List.count_filter (by simp)] at hcount
  · intro p hp c hc x hx
    have hphase : s.phase ≠ .idle := by
      intro hidle
      rw [hidle] at hp
      cases hp
    have hfirst := h.first_eq hphase
    rw [hp] at hfirst
    cases cells with
    | nil => cases hfirst
    | cons a rest =>
      obtain rfl : p = a := Option.some.inj hfirst
      have hsorted := h.list.sorted
      rw [values_cons hc] at hx hsorted
      cases hx with
      | head => exact le_rfl
      | tail _ hx => exact (List.pairwise_cons.mp hsorted).1 x hx
  · intro time first s' hphase hstep hidle
    obtain ⟨t, ht, -, hlater⟩ := h.test hphase
    rw [step, Scheduler.next, hphase] at hstep
    simp only [ht] at hstep
    obtain rfl : t = s' := Option.some.inj hstep
    exact hlater hidle
  · intro a
    cases h.next a with
    | inl hdisabled =>
      rw [hdisabled]
      exact ⟨by simp, by simp⟩
    | inr hok =>
      obtain ⟨s', hs', -⟩ := hok
      rw [hs']
      exact ⟨by simp, by simp⟩

/-- An event in front of another one is not linked back. -/
theorem not_inOrder_withFirst (h : Invariant s cells) (hnew : s.heap new = none)
    (hfront : ¬ NotInFront s (.evt time fname new)) :
    ¬ InOrder (withFirst s time fname new) := by
  intro horder
  apply hfront
  intro p c hp hc
  exfalso
  obtain ⟨cells', hlist, -⟩ := horder
  have hpnew : p ≠ new := by
    rintro rfl
    rw [hnew] at hc
    cases hc
  -- the old first cell has no predecessor, but the new one before it
  have hnone : c.prev = none := by
    have hlinked := h.list.linked
    cases cells with
    | nil => exact absurd (hp.symm.trans hlinked) (by simp)
    | cons a rest =>
      obtain ⟨ha, d, hd, hprev, -⟩ := hlinked
      obtain rfl : p = a := Option.some.inj (hp.symm.trans ha)
      obtain rfl : c = d := Option.some.inj (hc.symm.trans hd)
      exact hprev
  have hlinked := hlist.linked
  cases cells' with
  | nil => cases hlinked
  | cons a rest =>
    obtain ⟨ha, d, hd, -, hrest⟩ := hlinked
    obtain rfl : new = a := Option.some.inj ha
    rw [show (withFirst s time fname new).heap new = some ⟨(time, fname), none, s.evtlist⟩ from
      Function.update_self ..] at hd
    obtain rfl := Option.some.inj hd
    rw [hp] at hrest
    cases rest with
    | nil => cases hrest
    | cons b rest =>
      obtain ⟨hb, e, he, heprev, -⟩ := hrest
      obtain rfl : p = b := Option.some.inj hb
      rw [show (withFirst s time fname new).heap p = s.heap p from Function.update_of_ne hpnew ..,
        hc] at he
      obtain rfl : c = e := Option.some.inj he
      rw [hnone] at heprev
      cases heprev

theorem step_eq_some {a : Action T F} (h : step s a = some s') : s.next a = .ok s' := by
  rw [step] at h
  cases hnext : s.next a with
  | error e =>
    rw [hnext] at h
    cases h
  | ok t =>
    rw [hnext] at h
    exact congrArg _ (Option.some.inj h)

/-- A step that leaves the scheduler in order puts nothing in front. -/
theorem Invariant.need {a : Action T F} (h : Invariant s cells) (hstep : step s a = some s')
    (horder : InOrder s') : NotInFront s a := by
  by_contra hfront
  have hnext := step_eq_some hstep
  cases a with
  | evt time fname new =>
    cases hnew : s.heap new with
    | some c =>
      have hsome : (s.heap new).isSome = true := by
        rw [hnew]
        rfl
      rw [Scheduler.next] at hnext
      split at hnext
      · cases hnext
      · rw [Scheduler.schedulerEvt, if_pos hsome] at hnext
        cases hnext
    | none =>
      rw [Scheduler.next] at hnext
      split at hnext
      · cases hnext
      · rename_i hphase
        obtain ⟨t, ht, -, heq⟩ := h.evt time fname hphase hnew
        obtain rfl : t = s' := Except.ok.inj (ht.symm.trans hnext)
        rw [heq hfront] at horder
        exact not_inOrder_withFirst h hnew hfront horder
  | _ => exact hfront True.intro

/-- In every run of the scheduler and the threads that use it, it is in order throughout just when
no event is scheduled for a time before all events of the list. -/
theorem always_inOrder_iff (actions : List (Action T F))
    (hrun : run step (schedulerInit : Scheduler T F) actions = some s) :
    Always InOrder step schedulerInit actions ↔ Meets NotInFront step schedulerInit actions := by
  refine always_iff_meets (J := fun s => ∃ cells, Invariant s cells)
    (fun s h => h.choose_spec.inOrder) ?_ ?_ ⟨[], invariant_init⟩ hrun
  · intro s a s' h hstep horder
    obtain ⟨cells, h⟩ := h
    exact h.need hstep horder
  · intro s a s' h hguard hstep
    obtain ⟨cells, h⟩ := h
    cases h.next a with
    | inl hdisabled =>
      rw [step, hdisabled] at hstep
      cases hstep
    | inr hok =>
      obtain ⟨t, ht, hkeep⟩ := hok
      obtain rfl : t = s' := Except.ok.inj (ht.symm.trans (step_eq_some hstep))
      exact hkeep hguard

/-- An event for 3 is scheduled while the one for 2 is executed. -/
theorem always_inOrder_iff_two :
    let actions : List (Action ℕ ℕ) :=
      [.evt 2 0 0, .run 4, .test, .evt 3 1 1, .finish, .test, .finish, .test]
    Always InOrder step schedulerInit actions ↔ Meets NotInFront step schedulerInit actions := by
  intro actions
  have hsome : (run step schedulerInit actions).isSome = true := by decide
  exact always_inOrder_iff actions (Option.some_get hsome).symm

/-- An event for 3 that is scheduled while the one for 5 is executed gets lost. -/
theorem not_inOrder_lost : ∃ s,
    run step (schedulerInit : Scheduler ℕ ℕ) [.evt 5 0 0, .run 5, .test, .evt 3 1 1, .finish, .test] =
      some s ∧
    s.phase = .idle ∧ s.evtlist = none ∧ s.scheduled = [(5, 0), (3, 1)] ∧
    s.executed = [⟨5, (5, 0)⟩] ∧ ¬ InOrder s := by
  refine ⟨_, rfl, rfl, rfl, rfl, rfl, ?_⟩
  intro horder
  obtain ⟨cells, hlist, -⟩ := horder
  have hmem : 1 ∈ cells := (hlist.owned 1).mp rfl
  have hlinked := hlist.linked
  cases cells with
  | nil => cases hmem
  | cons a rest => cases hlinked.1

end Extempore.NativeScheduler
