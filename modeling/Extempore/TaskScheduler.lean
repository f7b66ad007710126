import Extempore.GuardedRuns
import Extempore.PriorityQueues
import Mathlib.Data.Prod.Lex
import Mathlib.Data.List.Perm.Basic

/-!
# The task scheduler

`TaskScheduler::timeSlice` statement by statement, interleaved with `add` from any thread and
with the clock. The queue mutex is held from `peek` to the `unlock` behind `pop`, and not while
a task runs. Tasks are numbered as they are made, so that two tasks are never the same, even
where the second is made at the address of the first.
-/

namespace Extempore.TaskScheduler

open GuardedRuns PriorityQueues

/-- A task, with the address that `new` gave it. -/
structure Task where
  id : ℕ
  address : ℕ
  startTime : UInt64
  tag : ℤ
deriving DecidableEq

/-- What the queue compares: a `std::pair` of start time and pointer. -/
def Task.key (task : Task) : ℕ ×ₗ ℕ := toLex (task.startTime.toNat, task.address)

def Task.isUntagged (task : Task) : Bool := task.tag = 0

/-- The statement of `timeSlice` that comes next, with its variable `task`. `sliceEnd` is the
value of `UNIV::TIME + frames` in the last test of the loop. -/
inductive Point
  | waiting
  | locking
  | peeking
  | testing (task : Option Task)
  | popping (task : Task) (sliceEnd : UInt64)
  | unlocking (task : Task) (sliceEnd : UInt64)
  | executing (task : Task) (sliceEnd : UInt64)
  | deleting (task : Task)
  | leaving (sliceEnd : UInt64)

/-- Where `timeSlice` holds the queue mutex. -/
def Point.holdsMutex : Point → Bool
  | .peeking | .testing _ | .popping _ _ | .unlocking _ _ | .leaving _ => true
  | _ => false

/-- The task that is off the queue and not deleted. -/
def Point.taken : Point → List Task
  | .unlocking task _ | .executing task _ | .deleting task => [task]
  | _ => []

/-- The tasks that are off the queue and wait for `execute`. -/
def Point.pending : Point → List Task
  | .unlocking task _ | .executing task _ => [task]
  | _ => []

/-- The globals and the scheduler, and what has been added, removed and executed so far; with
each executed task the end of its slice. -/
structure Scheduler where
  time : UInt64
  numFrames : UInt32
  frames : UInt32
  queue : PriorityQueue Task.key
  point : Point
  added : List Task
  removed : List Task
  executed : List (Task × UInt64)

def start : Scheduler := ⟨0, 0, 0, .empty _, .waiting, [], [], []⟩

/-- What the threads do, in any order. -/
inductive Label
  | add (address : ℕ) (startTime : UInt64) (tag : ℤ)
  | advance (time : UInt64)
  | setFrames (frames : UInt32)
  | next

/-- `new` finds an address that no live task has. -/
def Scheduler.isLive (s : Scheduler) (address : ℕ) : Bool :=
  (s.queue.elems ++ s.point.taken).any fun task => task.address = address

/-- `add` of a new task; it waits while `timeSlice` holds the mutex. -/
def Scheduler.add (s : Scheduler) (address : ℕ) (startTime : UInt64) (tag : ℤ) :
    Option Scheduler :=
  if s.point.holdsMutex || s.isLive address then none
  else
    let task : Task := ⟨s.added.length, address, startTime, tag⟩
    some { s with queue := s.queue.push task, added := s.added ++ [task] }

/-- The next statement of the queue thread. The clock does not go back. -/
def Scheduler.next (timeDivision : UInt64) (s : Scheduler) : Option Scheduler :=
  match s.point with
  | .waiting =>
    some { s with frames := (s.numFrames.toUInt64 / timeDivision).toUInt32, point := .locking }
  | .locking => some { s with point := .peeking }
  | .peeking => some { s with point := .testing s.queue.top? }
  | .testing none => some { s with point := .leaving (s.time + s.frames.toUInt64) }
  | .testing (some task) =>
    if task.startTime < s.time + s.frames.toUInt64 then
      some { s with point := .popping task (s.time + s.frames.toUInt64) }
    else some { s with point := .leaving (s.time + s.frames.toUInt64) }
  | .popping task sliceEnd =>
    some { s with
      queue := s.queue.pop
      removed := s.removed ++ s.queue.top?.toList
      point := .unlocking task sliceEnd }
  | .unlocking task sliceEnd => some { s with point := .executing task sliceEnd }
  | .executing task sliceEnd =>
    some { s with
      executed := if task.tag = 0 then s.executed ++ [(task, sliceEnd)] else s.executed
      point := .deleting task }
  | .deleting _ => some { s with point := .locking }
  | .leaving _ =>
    if timeDivision = 1 then some { s with point := .waiting }
    else if s.time ≤ s.time + s.frames.toUInt64 then
      some { s with time := s.time + s.frames.toUInt64, point := .locking }
    else none

/-- One step of one thread. -/
def step (timeDivision : UInt64) (s : Scheduler) : Label → Option Scheduler
  | .add address startTime tag => s.add address startTime tag
  | .advance time => if s.time ≤ time then some { s with time } else none
  | .setFrames frames => some { s with numFrames := frames }
  | .next => s.next timeDivision

/-! ## What holds in every state -/

section Invariant

variable {timeDivision : UInt64} {s s' : Scheduler} {label : Label} {labels : List Label}
  {task other : Task} {sliceEnd : UInt64}

theorem startTime_le_of_key_le (h : task.key ≤ other.key) : task.startTime ≤ other.startTime := by
  rw [UInt64.le_iff_toNat_le]
  cases (Prod.Lex.toLex_le_toLex).mp h with
  | inl hlt => exact hlt.le
  | inr heq => exact heq.1.le

/-- What the queue thread knows of its variable `task` and of the queue. -/
def Point.Holds (queue : PriorityQueue Task.key) : Point → Prop
  | .testing task => task = queue.top?
  | .popping task sliceEnd => queue.top? = some task ∧ task.startTime < sliceEnd
  | .unlocking task sliceEnd | .executing task sliceEnd => task.startTime < sliceEnd
  | .leaving sliceEnd => ∀ task ∈ queue.elems, ¬ task.startTime < sliceEnd
  | _ => True

/-- Away from the mutex nothing is known of the queue. -/
theorem Point.Holds.of_not_holdsMutex {point : Point} {queue queue' : PriorityQueue Task.key}
    (h : point.Holds queue) (hmutex : point.holdsMutex = false) : point.Holds queue' := by
  cases point with
  | waiting | locking | deleting => trivial
  | executing task sliceEnd => exact h
  | peeking | testing | popping | unlocking | leaving => cases hmutex

/-- The tasks are numbered, each is on the queue or removed, and those removed are executed in
their turn unless they are tagged. -/
structure Invariant (s : Scheduler) : Prop where
  ids : s.added.map Task.id = List.range s.added.length
  perm : (s.removed ++ s.queue.elems).Perm s.added
  executed_eq : s.executed.map Prod.fst ++ s.point.pending.filter Task.isUntagged =
    s.removed.filter Task.isUntagged
  executed_lt : ∀ p ∈ s.executed, p.1.startTime < p.2
  holds : s.point.Holds s.queue

theorem invariant_start : Invariant start :=
  ⟨rfl, .nil, rfl, by simp [start], trivial⟩

theorem Invariant.add {address : ℕ} {startTime : UInt64} {tag : ℤ} (h : Invariant s)
    (hadd : s.add address startTime tag = some s') : Invariant s' := by
  rw [Scheduler.add] at hadd
  split at hadd
  · cases hadd
  · next hfree =>
    rw [Bool.or_eq_true, not_or, Bool.not_eq_true] at hfree
    cases hadd
    refine ⟨?_, ?_, h.executed_eq, h.executed_lt, h.holds.of_not_holdsMutex hfree.1⟩
    · simp only [List.map_append, List.length_append, h.ids]
      exact (List.range_succ).symm
    · calc (s.removed ++ (s.queue.push _).elems).Perm (s.removed ++ _ :: s.queue.elems) :=
            PriorityQueue.elems_push.append_left _
        _ |>.Perm (_ :: (s.removed ++ s.queue.elems)) := List.perm_middle
        _ |>.Perm (_ :: s.added) := h.perm.cons _
        _ |>.Perm (s.added ++ [_]) := (List.perm_append_singleton _ _).symm

/-- A step that moves no task. -/
theorem Invariant.move {point : Point} (time : UInt64) (numFrames frames : UInt32)
    (h : Invariant s) (hpending : point.pending = s.point.pending)
    (hholds : point.Holds s.queue) :
    Invariant { s with time, numFrames, frames, point } :=
  ⟨h.ids, h.perm, hpending ▸ h.executed_eq, h.executed_lt, hholds⟩

/-- `pop` removes the task that was peeked. -/
theorem Invariant.pop (h : Invariant s) (hpoint : s.point = .popping task sliceEnd) :
    Invariant { s with
      queue := s.queue.pop
      removed := s.removed ++ s.queue.top?.toList
      point := .unlocking task sliceEnd } := by
  obtain ⟨hids, hperm, hexecuted, hlt, hholds⟩ := h
  rw [hpoint] at hholds hexecuted
  rw [hholds.1]
  refine ⟨hids, ?_, ?_, hlt, hholds.2⟩
  · rw [PriorityQueue.elems_of_top? hholds.1] at hperm
    simpa using hperm
  · simpa [Point.pending] using hexecuted

/-- An untagged task is executed once it is off the queue. -/
theorem Invariant.execute (h : Invariant s) (hpoint : s.point = .executing task sliceEnd) :
    Invariant { s with
      executed := if task.tag = 0 then s.executed ++ [(task, sliceEnd)] else s.executed
      point := .deleting task } := by
  obtain ⟨hids, hperm, hexecuted, hlt, hholds⟩ := h
  rw [hpoint] at hholds hexecuted
  refine ⟨hids, hperm, ?_, ?_, trivial⟩
  · rw [← hexecuted]
    by_cases htag : task.tag = 0
    · simp [Point.pending, Task.isUntagged, htag]
    · simp [Point.pending, Task.isUntagged, htag]
  · intro p hp
    by_cases htag : task.tag = 0
    · rw [if_pos htag] at hp
      cases List.mem_append.mp hp with
      | inl hold => exact hlt p hold
      | inr hnew =>
        rw [List.mem_singleton.mp hnew]
        exact hholds
    · rw [if_neg htag] at hp
      exact hlt p hp

/-- When the test fails no task is left that starts before the end of the slice. -/
theorem not_lt_of_top? (h : s.queue.top? = some task) (hge : ¬ task.startTime < sliceEnd) :
    ∀ other ∈ s.queue.elems, ¬ other.startTime < sliceEnd := by
  intro other hmem
  have hle := startTime_le_of_key_le (PriorityQueue.key_top?_le h hmem)
  rw [UInt64.not_lt] at hge ⊢
  exact UInt64.le_trans hge hle

theorem Invariant.next (h : Invariant s) (hnext : s.next timeDivision = some s') :
    Invariant s' := by
  have hholds := h.holds
  cases hpoint : s.point with
  | waiting | locking | deleting =>
    simp only [Scheduler.next, hpoint, Option.some.injEq] at hnext
    subst hnext
    exact h.move _ _ _ (by rw [hpoint]; rfl) trivial
  | peeking =>
    simp only [Scheduler.next, hpoint, Option.some.injEq] at hnext
    subst hnext
    exact h.move _ _ _ (by rw [hpoint]; rfl) rfl
  | testing peeked =>
    rw [hpoint] at hholds
    cases peeked with
    | none =>
      simp only [Scheduler.next, hpoint, Option.some.injEq] at hnext
      subst hnext
      refine h.move _ _ _ (by rw [hpoint]; rfl) ?_
      intro task hmem
      rw [PriorityQueue.elems_of_top?_none hholds.symm] at hmem
      cases hmem
    | some task =>
      simp only [Scheduler.next, hpoint] at hnext
      split at hnext
      · next hlt =>
        cases hnext
        exact h.move _ _ _ (by rw [hpoint]; rfl) ⟨hholds.symm, hlt⟩
      · next hge =>
        cases hnext
        exact h.move _ _ _ (by rw [hpoint]; rfl) (not_lt_of_top? hholds.symm hge)
  | popping task sliceEnd =>
    simp only [Scheduler.next, hpoint, Option.some.injEq] at hnext
    subst hnext
    exact h.pop hpoint
  | unlocking task sliceEnd =>
    simp only [Scheduler.next, hpoint, Option.some.injEq] at hnext
    subst hnext
    rw [hpoint] at hholds
    exact h.move _ _ _ (by rw [hpoint]; rfl) hholds
  | executing task sliceEnd =>
    simp only [Scheduler.next, hpoint, Option.some.injEq] at hnext
    subst hnext
    exact h.execute hpoint
  | leaving sliceEnd =>
    simp only [Scheduler.next, hpoint] at hnext
    split at hnext
    · cases hnext
      exact h.move _ _ _ (by rw [hpoint]; rfl) trivial
    · split at hnext
      · cases hnext
        exact h.move _ _ _ (by rw [hpoint]; rfl) trivial
      · cases hnext

/-- Whatever thread makes a step. -/
theorem Invariant.step (h : Invariant s) (hstep : step timeDivision s label = some s') :
    Invariant s' := by
  cases label with
  | add address startTime tag => exact h.add hstep
  | advance time =>
    simp only [TaskScheduler.step] at hstep
    split at hstep
    · cases hstep
      exact h.move _ _ _ rfl h.holds
    · cases hstep
  | setFrames frames =>
    cases hstep
    exact h.move _ _ _ rfl h.holds
  | next => exact h.next hstep

theorem invariant_of_run (hrun : run (step timeDivision) start labels = some s) : Invariant s :=
  run_invariant (fun _ _ _ h _ hstep => h.step hstep) invariant_start
    (meets_true _ _) hrun

/-- The end of the slice that a failed test left is the one of that moment. -/
theorem sliceEnd_of_next (hnext : s.next timeDivision = some s')
    (hpoint : s'.point = .leaving sliceEnd) :
    sliceEnd = s'.time + s'.frames.toUInt64 := by
  cases hs : s.point with
  | testing peeked =>
    cases peeked with
    | none =>
      simp only [Scheduler.next, hs, Option.some.injEq] at hnext
      subst hnext
      cases hpoint
      rfl
    | some task =>
      simp only [Scheduler.next, hs] at hnext
      split at hnext
      · cases hnext
        cases hpoint
      · cases hnext
        cases hpoint
        rfl
  | leaving sliceEnd' =>
    simp only [Scheduler.next, hs] at hnext
    split at hnext
    · cases hnext
      cases hpoint
    · split at hnext
      · cases hnext
        cases hpoint
      · cases hnext
  | _ =>
    simp only [Scheduler.next, hs, Option.some.injEq] at hnext
    subst hnext
    cases hpoint

/-- In every state of every run: the tasks that were added are all different, and each of them
is on the queue or was removed once. The removed tasks without a tag are executed once and in
the order of their removal, but for one that waits for it, each in a slice that ends behind its
start time. A task that is about to be popped is on top of the queue and starts no later than
any task on it. When a slice ends, no task that starts before its end is on the queue. -/
theorem tasks_kept (hrun : run (step timeDivision) start labels = some s) :
    s.added.Nodup ∧ s.removed.Nodup ∧ (s.removed ++ s.queue.elems).Perm s.added ∧
    s.executed.map Prod.fst ++ s.point.pending.filter Task.isUntagged =
      s.removed.filter Task.isUntagged ∧
    (∀ p ∈ s.executed, p.1.startTime < p.2) ∧
    (∀ task sliceEnd, s.point = .popping task sliceEnd →
      s.queue.top? = some task ∧ task.startTime < sliceEnd ∧
        ∀ other ∈ s.queue.elems, task.startTime ≤ other.startTime) ∧
    (∀ s' sliceEnd, s.next timeDivision = some s' → s'.point = .leaving sliceEnd →
      sliceEnd = s'.time + s'.frames.toUInt64 ∧
        ∀ task ∈ s'.queue.elems, ¬ task.startTime < s'.time + s'.frames.toUInt64) := by
  have h := invariant_of_run hrun
  have hadded : s.added.Nodup := by
    apply List.Nodup.of_map Task.id
    rw [h.ids]
    exact List.nodup_range
  have hboth := h.perm.nodup_iff.mpr hadded
  refine ⟨hadded, hboth.of_append_left, h.perm, h.executed_eq, h.executed_lt, ?_, ?_⟩
  · intro task sliceEnd hpoint
    have hholds := h.holds
    rw [hpoint] at hholds
    refine ⟨hholds.1, hholds.2, ?_⟩
    intro other hmem
    exact startTime_le_of_key_le (PriorityQueue.key_top?_le hholds.1 hmem)
  · intro s' sliceEnd hnext hpoint
    have hholds := (h.next hnext).holds
    have heq := sliceEnd_of_next hnext hpoint
    rw [hpoint, heq] at hholds
    exact ⟨heq, hholds⟩

end Invariant

/-- The second task is added while the first one waits, and is popped before it. -/
theorem tasks_kept_two : ∃ s,
    run (step 1) start ([.setFrames 1024, .next, .add 16 700 0, .add 32 50 0] ++
      List.replicate 7 .next) = some s ∧
      s.executed = [(⟨1, 32, 50, 0⟩, 1024)] ∧
      s.executed.map Prod.fst ++ s.point.pending.filter Task.isUntagged =
        s.removed.filter Task.isUntagged := by
  have hrun : run (step 1) start ([.setFrames 1024, .next, .add 16 700 0, .add 32 50 0] ++
      List.replicate 7 .next) = some _ := rfl
  exact ⟨_, hrun, rfl, (tasks_kept hrun).2.2.2.1⟩

end Extempore.TaskScheduler
