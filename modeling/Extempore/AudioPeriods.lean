import Extempore.AudioBarrier
import Extempore.GuardedRuns

/-!
# Every period is delivered once

Between two signals all workers rest and the callback has the buffers for itself; after a
signal the workers have them until the last one is done. The half that a worker fills in period
`p` depends on the parity of `p`, and so does the half that the callback sums.
-/

namespace Extempore.AudioPeriods
open AudioBarrier GuardedRuns

variable {cfg : Config}

/-! ## What is expected -/

/-- The evaluation of worker `w` in period `p`. -/
def evaluation (cfg : Config) (w p i k : ℕ) : Evaluation :=
  ⟨w, p, i, k, List.replicate cfg.inChannels (some p),
    if cfg.inChannels = cfg.channels ∨ cfg.inChannels = 1 then some p else none⟩

/-- The sample of worker `w` where `e` periods have been processed: that of the last one. -/
def lastSample (cfg : Config) (w i k : ℕ) : ℕ → Sample
  | 0 => none
  | p + 1 => some (evaluation cfg w p i k)

/-- The number of processed periods when callback `m` takes its sums. -/
def due (cfg : Config) (m : ℕ) : ℕ := if cfg.zerolatency then m + 1 else m

/-- The sum of callback `m`: one sample of every worker, of period `m` or, with latency, of the
period before (a zero for `m = 0`). -/
def expectedSum (cfg : Config) (m i k : ℕ) : Sum :=
  ⟨m, i, k, (List.range cfg.numThreads).map fun w => lastSample cfg w i k (due cfg m)⟩

/-- The sums of the frames before `i`, and of frame `i` those of the channels before `k`. -/
def sumsTo (cfg : Config) (m i k : ℕ) : List Sum :=
  ((List.range i).flatMap fun i' => (List.range cfg.channels).map (expectedSum cfg m i')) ++
    (List.range k).map (expectedSum cfg m i)

def allSums (cfg : Config) (m : ℕ) : List Sum := sumsTo cfg m cfg.numFrames 0

/-- The worker reads the input, or writes a sample. -/
def WorkerPc.Reads : WorkerPc → Prop
  | .readInput _ _ | .compute _ _ => True
  | _ => False

def WorkerPc.Writes : WorkerPc → Prop
  | .write _ _ _ => True
  | _ => False

/-- The callback replaces the input, or reads the output buffers. -/
def CallbackPc.Replaces : CallbackPc → Prop
  | .replaceInput _ => True
  | _ => False

def CallbackPc.Sums : CallbackPc → Prop
  | .sum _ _ _ => True
  | _ => False

/-- Every period is delivered exactly once. -/
structure Delivered (cfg : Config) (s : State) : Prop where
  /-- No worker writes a sample while the callback is summing. -/
  apart : ∀ w < cfg.numThreads, CallbackPc.Sums s.pc → ¬ WorkerPc.Writes (s.workers w).pc
  /-- No worker reads the input while it is being replaced. -/
  steady : ∀ w < cfg.numThreads, CallbackPc.Replaces s.pc → ¬ WorkerPc.Reads (s.workers w).pc
  /-- The completed callbacks took exactly the expected sums, the running one the first of
  them. -/
  sums : ∃ running, running <+: allSums cfg s.callback ∧
    s.sums = (List.range s.callback).flatMap (allSums cfg) ++ running
  /-- Every worker has processed the periods one after the other; in period `m` it is not behind
  callback `m` when that is complete. -/
  once : ∀ w < cfg.numThreads, ∃ n, (s.workers w).processed = List.range n ∧
    s.callback ≤ n ∧ n ≤ s.callback + 1 ∧ (s.pc = .idle → n = s.callback)
  bound : s.threadDoneCount ≤ cfg.numThreads

/-! ## The halves of the buffers -/

/-- The half for period `p`. -/
def parity (cfg : Config) (p : ℕ) : Bool := !cfg.zerolatency && p % 2 == 1

theorem parity_succ (cfg : Config) (p : ℕ) :
    parity cfg (p + 1) = if cfg.zerolatency then parity cfg p else !parity cfg p := by
  rcases Nat.mod_two_eq_zero_or_one p with h | h <;> cases hz : cfg.zerolatency <;>
    simp [parity, hz, h, Nat.add_mod]

/-- Both sides compute the same index. -/
theorem sumIndex_eq (cfg : Config) (half : Bool) (w i k : ℕ) :
    sumIndex cfg half w i k = workerIndex cfg w half i k := by
  simp only [sumIndex, workerIndex, Nat.mul_comm cfg.numFrames cfg.channels]
  omega

theorem frame_lt {i k a b : ℕ} (hi : i < a) (hk : k < b) : i * b + k < b * a := by
  have h : (i + 1) * b ≤ a * b := Nat.mul_le_mul_right b hi
  rw [Nat.mul_comm b a]
  rw [Nat.add_mul] at h
  omega

theorem split_eq {b q r q' r' : ℕ} (hr : r < b) (hr' : r' < b) (h : b * q + r = b * q' + r') :
    q = q' ∧ r = r' := by
  have hq : q = q' := by
    have h1 : (b * q + r) / b = q := by
      rw [Nat.mul_add_div (by omega), Nat.div_eq_of_lt hr, Nat.add_zero]
    have h2 : (b * q' + r') / b = q' := by
      rw [Nat.mul_add_div (by omega), Nat.div_eq_of_lt hr', Nat.add_zero]
    rw [← h1, ← h2, h]
  subst hq
  exact ⟨rfl, by omega⟩

/-- Different samples have different places. -/
theorem workerIndex_inj {w w' i i' k k' : ℕ} {half half' : Bool} (hi : i < cfg.numFrames)
    (hi' : i' < cfg.numFrames) (hk : k < cfg.channels) (hk' : k' < cfg.channels)
    (h : workerIndex cfg w half i k = workerIndex cfg w' half' i' k') :
    w = w' ∧ half = half' ∧ i = i' ∧ k = k' := by
  have hform (w i k : ℕ) (half : Bool) : workerIndex cfg w half i k =
      cfg.channels * cfg.numFrames * (2 * w + half.toNat) + (i * cfg.channels + k) := by
    cases half <;> simp only [workerIndex] <;> simp <;> ring
  rw [hform, hform] at h
  obtain ⟨hblock, hrest⟩ := split_eq (frame_lt hi hk) (frame_lt hi' hk') h
  rw [Nat.mul_comm i, Nat.mul_comm i'] at hrest
  obtain ⟨hii, hkk⟩ := split_eq hk hk' hrest
  have hhalf : half = half' := by
    cases half <;> cases half' <;> simp at hblock ⊢ <;> omega
  subst hhalf
  exact ⟨by omega, rfl, hii, hkk⟩

/-! ## What a worker has written -/

/-- Both halves of worker `w` still have the zeros of `memset`. -/
def Zeroed (cfg : Config) (outbuf : ℕ → Sample) (w : ℕ) : Prop :=
  ∀ half i k, i < cfg.numFrames → k < cfg.channels → outbuf (workerIndex cfg w half i k) = none

/-- The samples of period `p` are written up to channel `k` of frame `i`. -/
def WrittenTo (cfg : Config) (outbuf : ℕ → Sample) (w p i k : ℕ) : Prop :=
  ∀ i' k', i' < cfg.numFrames → k' < cfg.channels → i' < i ∨ i' = i ∧ k' < k →
    outbuf (workerIndex cfg w (parity cfg p) i' k') = some (evaluation cfg w p i' k')

/-- The buffer of a worker that has processed `e` periods. -/
def Holds (cfg : Config) (outbuf : ℕ → Sample) (w : ℕ) : ℕ → Prop
  | 0 => Zeroed cfg outbuf w
  | p + 1 => WrittenTo cfg outbuf w p cfg.numFrames 0

/-- The two buffers agree on the samples of worker `w`. -/
def SameFor (cfg : Config) (w : ℕ) (outbuf outbuf' : ℕ → Sample) : Prop :=
  ∀ half i k, i < cfg.numFrames → k < cfg.channels →
    outbuf' (workerIndex cfg w half i k) = outbuf (workerIndex cfg w half i k)

theorem WrittenTo.congr {outbuf outbuf' : ℕ → Sample} {w p i k : ℕ}
    (h : WrittenTo cfg outbuf w p i k) (hsame : SameFor cfg w outbuf outbuf') :
    WrittenTo cfg outbuf' w p i k := by
  intro i' k' hi hk hlt
  rw [hsame _ _ _ hi hk]
  exact h i' k' hi hk hlt

theorem Holds.congr {outbuf outbuf' : ℕ → Sample} {w e : ℕ} (h : Holds cfg outbuf w e)
    (hsame : SameFor cfg w outbuf outbuf') : Holds cfg outbuf' w e := by
  cases e with
  | zero =>
    intro half i k hi hk
    rw [hsame _ _ _ hi hk]
    exact h half i k hi hk
  | succ p => exact WrittenTo.congr h hsame

/-- A sample of another worker is out of the way. -/
theorem sameFor_update {outbuf : ℕ → Sample} {w w' i k : ℕ} {half : Bool} {sample : Sample}
    (hw : w' ≠ w) (hi : i < cfg.numFrames) (hk : k < cfg.channels) :
    SameFor cfg w' outbuf (Function.update outbuf (workerIndex cfg w half i k) sample) := by
  intro half' i' k' hi' hk'
  apply Function.update_of_ne
  intro h
  exact hw (workerIndex_inj hi' hi hk' hk h).1

theorem WrittenTo.update {outbuf : ℕ → Sample} {w p i k : ℕ} (h : WrittenTo cfg outbuf w p i k)
    (hi : i < cfg.numFrames) (hk : k < cfg.channels) :
    WrittenTo cfg (Function.update outbuf (workerIndex cfg w (parity cfg p) i k)
      (some (evaluation cfg w p i k))) w p i (k + 1) := by
  intro i' k' hi' hk' hlt
  by_cases hsame : i' = i ∧ k' = k
  · obtain ⟨rfl, rfl⟩ := hsame
    exact Function.update_self _ _ _
  · rw [Function.update_of_ne]
    · exact h i' k' hi' hk' (by omega)
    · intro heq
      obtain ⟨-, -, h1, h2⟩ := workerIndex_inj hi' hi hk' hk heq
      exact hsame ⟨h1, h2⟩

/-- A frame is complete when its last channel is. -/
theorem WrittenTo.nextFrame {outbuf : ℕ → Sample} {w p i k : ℕ} (h : WrittenTo cfg outbuf w p i k)
    (hk : cfg.channels ≤ k) : WrittenTo cfg outbuf w p (i + 1) 0 := by
  intro i' k' hi' hk' hlt
  exact h i' k' hi' hk' (by omega)

/-! ## Where a worker is -/

/-- The worker waits for the signal of period `e`. -/
structure Rests (cfg : Config) (outbuf : ℕ → Sample) (w e : ℕ) (worker : Worker) : Prop where
  pc : worker.pc = .choose ∧ worker.toggle = parity cfg e ∨
    worker.pc = .spin ∧ worker.outbuf = parity cfg e ∧ worker.toggle = parity cfg (e + 1)
  lcount : worker.lcount = e
  processed : worker.processed = List.range e
  holds : Holds cfg outbuf w e

/-- How far a worker is in period `m`. -/
def Progress (cfg : Config) (outbuf : ℕ → Sample) (w m : ℕ) (indata : ℕ → Option ℕ) :
    WorkerPc → Prop
  | .choose | .spin => False
  | .readInput i k => (∀ k' < k, indata k' = some m) ∧ WrittenTo cfg outbuf w m i 0
  | .compute i k => i < cfg.numFrames ∧ (∀ k' < cfg.inChannels, indata k' = some m) ∧
      WrittenTo cfg outbuf w m i k
  | .write i k sample => i < cfg.numFrames ∧ k < cfg.channels ∧
      (∀ k' < cfg.inChannels, indata k' = some m) ∧ sample = evaluation cfg w m i k ∧
      WrittenTo cfg outbuf w m i k
  | .done => WrittenTo cfg outbuf w m cfg.numFrames 0

/-- The worker is processing period `m`. -/
structure Works (cfg : Config) (outbuf : ℕ → Sample) (w m : ℕ) (worker : Worker) : Prop where
  progress : Progress cfg outbuf w m worker.indata worker.pc
  outbuf : worker.outbuf = parity cfg m
  toggle : worker.toggle = parity cfg (m + 1)
  lcount : worker.lcount = m + 1
  processed : worker.processed = List.range m

theorem Rests.congr {outbuf outbuf' : ℕ → Sample} {w e : ℕ} {worker : Worker}
    (h : Rests cfg outbuf w e worker) (hsame : SameFor cfg w outbuf outbuf') :
    Rests cfg outbuf' w e worker :=
  ⟨h.pc, h.lcount, h.processed, h.holds.congr hsame⟩

theorem Works.congr {outbuf outbuf' : ℕ → Sample} {w m : ℕ} {worker : Worker}
    (h : Works cfg outbuf w m worker) (hsame : SameFor cfg w outbuf outbuf') :
    Works cfg outbuf' w m worker := by
  refine ⟨?_, h.outbuf, h.toggle, h.lcount, h.processed⟩
  have hp := h.progress
  cases hpc : worker.pc with
  | choose => simp [hpc, Progress] at hp
  | spin => simp [hpc, Progress] at hp
  | readInput i k =>
    rw [hpc] at hp
    exact ⟨hp.1, hp.2.congr hsame⟩
  | compute i k =>
    rw [hpc] at hp
    exact ⟨hp.1, hp.2.1, hp.2.2.congr hsame⟩
  | write i k sample =>
    rw [hpc] at hp
    exact ⟨hp.1, hp.2.1, hp.2.2.1, hp.2.2.2.1, hp.2.2.2.2.congr hsame⟩
  | done =>
    rw [hpc] at hp
    exact WrittenTo.congr hp hsame

/-! ## One step of a worker -/

/-- A worker that waits for the signal of period `e` goes on waiting, or has seen it and begins
to work. -/
theorem rests_stepWorker {s : State} {w e : ℕ} (hr : Rests cfg s.outbuf w e (s.workers w)) :
    ∃ worker, stepWorker cfg w s = s.setWorker w worker ∧
      (Rests cfg s.outbuf w e worker ∨ ¬ s.signalCount ≤ e ∧ Works cfg s.outbuf w e worker) := by
  cases hr.pc with
  | inl hpc =>
    refine ⟨{ s.workers w with
      pc := .spin
      outbuf := (s.workers w).toggle
      toggle := if cfg.zerolatency then (s.workers w).toggle else !(s.workers w).toggle },
      ?_, .inl ?_⟩
    · simp only [stepWorker, hpc.1]
    · refine ⟨.inr ⟨rfl, hpc.2, ?_⟩, hr.lcount, hr.processed, hr.holds⟩
      rw [parity_succ, hpc.2]
  | inr hpc =>
    by_cases hle : s.signalCount ≤ (s.workers w).lcount
    · refine ⟨s.workers w, ?_, .inl hr⟩
      simp only [stepWorker, hpc.1, if_pos hle, State.setWorker, Function.update_eq_self]
    · refine ⟨{ s.workers w with pc := .readInput 0 0, lcount := (s.workers w).lcount + 1 },
        ?_, .inr ⟨?_, ?_⟩⟩
      · simp only [stepWorker, hpc.1, if_neg hle]
      · rw [← hr.lcount]
        exact hle
      · refine ⟨⟨?_, ?_⟩, hpc.2.1, hpc.2.2, congrArg (· + 1) hr.lcount, hr.processed⟩
        · intro k' hk
          exact absurd hk (Nat.not_lt_zero k')
        · intro i' k' _ _ hlt
          omega

theorem map_range_replicate {n : ℕ} {f : ℕ → Option ℕ} {v : Option ℕ} (h : ∀ k < n, f k = v) :
    (List.range n).map f = List.replicate n v := by
  apply List.eq_replicate_iff.mpr
  refine ⟨by simp, fun b hb => ?_⟩
  obtain ⟨k, hk, rfl⟩ := List.mem_map.mp hb
  exact h k (List.mem_range.mp hk)

/-- A call of the closure is the expected evaluation if all input samples are of the period. -/
theorem evaluation_eq {inbuf indata : ℕ → Option ℕ} {w m i k : ℕ}
    (hin : ∀ j < cfg.inChannels * cfg.numFrames, inbuf j = some m) (hi : i < cfg.numFrames)
    (hk : k < cfg.channels) (hdata : ∀ k' < cfg.inChannels, indata k' = some m) :
    (⟨w, m, i, k, (List.range cfg.inChannels).map indata, inputSample cfg inbuf i k⟩ :
      Evaluation) = evaluation cfg w m i k := by
  have hinput : inputSample cfg inbuf i k =
      if cfg.inChannels = cfg.channels ∨ cfg.inChannels = 1 then some m else none := by
    rw [inputSample]
    by_cases h1 : cfg.inChannels = cfg.channels
    · rw [if_pos h1, if_pos (.inl h1)]
      apply hin
      rw [← h1] at hk
      exact frame_lt hi hk
    · rw [if_neg h1]
      by_cases h2 : cfg.inChannels = 1
      · rw [if_pos h2, if_pos (.inr h2)]
        apply hin
        rw [h2]
        omega
      · rw [if_neg h2, if_neg (not_or.mpr ⟨h1, h2⟩)]
  rw [evaluation, map_range_replicate hdata, hinput]

/-- A working worker writes into its own half only, and counts itself when it is done. -/
theorem works_stepWorker {s : State} {w m : ℕ} (hw : Works cfg s.outbuf w m (s.workers w))
    (hm : s.callback = m) (hin : ∀ j < cfg.inChannels * cfg.numFrames, s.inbuf j = some m) :
    ∃ worker outbuf count, stepWorker cfg w s = { s with
        workers := Function.update s.workers w worker
        outbuf := outbuf
        threadDoneCount := count } ∧
      (∀ w' ≠ w, SameFor cfg w' s.outbuf outbuf) ∧
      (Works cfg outbuf w m worker ∧ count = s.threadDoneCount ∨
        Rests cfg outbuf w (m + 1) worker ∧ count = s.threadDoneCount + 1) := by
  have hp := hw.progress
  have hsame (w' : ℕ) (_ : w' ≠ w) : SameFor cfg w' s.outbuf s.outbuf := fun _ _ _ _ _ => rfl
  cases hpc : (s.workers w).pc with
  | choose => simp [hpc, Progress] at hp
  | spin => simp [hpc, Progress] at hp
  | readInput i k =>
    rw [hpc] at hp
    simp only [stepWorker, hpc, State.setWorker]
    by_cases hi : i < cfg.numFrames
    · rw [if_pos hi]
      by_cases hk : k < cfg.inChannels
      · rw [if_pos hk]
        refine ⟨_, _, _, rfl, hsame, .inl ⟨⟨⟨?_, hp.2⟩, hw.outbuf, hw.toggle, hw.lcount,
          hw.processed⟩, rfl⟩⟩
        intro k' hk'
        show Function.update (s.workers w).indata k _ k' = some m
        by_cases heq : k' = k
        · subst heq
          rw [Function.update_self]
          exact hin _ (frame_lt hi hk)
        · rw [Function.update_of_ne heq]
          exact hp.1 k' (by omega)
      · rw [if_neg hk]
        exact ⟨_, _, _, rfl, hsame, .inl ⟨⟨⟨hi, fun k' hk' => hp.1 k' (by omega), hp.2⟩,
          hw.outbuf, hw.toggle, hw.lcount, hw.processed⟩, rfl⟩⟩
    · rw [if_neg hi]
      refine ⟨_, _, _, rfl, hsame, .inl ⟨⟨?_, hw.outbuf, hw.toggle, hw.lcount, hw.processed⟩,
        rfl⟩⟩
      intro i' k' hi' hk' _
      exact hp.2 i' k' hi' hk' (by omega)
  | compute i k =>
    rw [hpc] at hp
    obtain ⟨hi, hdata, hwritten⟩ := hp
    simp only [stepWorker, hpc, State.setWorker]
    by_cases hk : k < cfg.channels
    · rw [if_pos hk, hm]
      exact ⟨_, _, _, rfl, hsame, .inl ⟨⟨⟨hi, hk, hdata, evaluation_eq hin hi hk hdata, hwritten⟩,
        hw.outbuf, hw.toggle, hw.lcount, hw.processed⟩, rfl⟩⟩
    · rw [if_neg hk]
      refine ⟨_, _, _, rfl, hsame, .inl ⟨⟨⟨?_, hwritten.nextFrame (by omega)⟩, hw.outbuf,
        hw.toggle, hw.lcount, hw.processed⟩, rfl⟩⟩
      intro k' hk'
      exact absurd hk' (Nat.not_lt_zero k')
  | write i k sample =>
    rw [hpc] at hp
    obtain ⟨hi, hk, hdata, rfl, hwritten⟩ := hp
    simp only [stepWorker, hpc, State.setWorker, hw.outbuf]
    exact ⟨_, _, _, rfl, fun w' hne => sameFor_update hne hi hk, .inl ⟨⟨⟨hi, hdata,
      hwritten.update hi hk⟩, rfl, hw.toggle, hw.lcount, hw.processed⟩, rfl⟩⟩
  | done =>
    rw [hpc] at hp
    simp only [stepWorker, hpc, State.setWorker, hm]
    refine ⟨_, _, _, rfl, hsame, .inr ⟨⟨.inl ⟨rfl, hw.toggle⟩, hw.lcount, ?_, hp⟩, rfl⟩⟩
    rw [hw.processed, List.range_succ]

/-! ## All workers together -/

theorem bmod_le (e : ℕ) : Int.bmod e (2 ^ 64) ≤ e := by
  rw [Int.bmod_def]
  split <;> omega

/-- All workers wait for the signal of period `e`, which was not given yet. -/
structure Quiet (cfg : Config) (e : ℕ) (s : State) : Prop where
  signal : s.signalCount = Int.bmod e (2 ^ 64)
  workers : ∀ w < cfg.numThreads, Rests cfg s.outbuf w e (s.workers w)

/-- The workers that have processed period `m`. -/
def finished (cfg : Config) (m : ℕ) (workers : ℕ → Worker) : Finset ℕ :=
  (Finset.range cfg.numThreads).filter fun w => (workers w).processed.length = m + 1

/-- The signal of period `m` was given; each worker waits, works or is done. -/
structure Waiting (cfg : Config) (m : ℕ) (s : State) : Prop where
  signal : s.signalCount = Int.bmod (m + 1 : ℕ) (2 ^ 64)
  workers : ∀ w < cfg.numThreads, Rests cfg s.outbuf w m (s.workers w) ∨
    Works cfg s.outbuf w m (s.workers w) ∨ Rests cfg s.outbuf w (m + 1) (s.workers w)
  count : s.threadDoneCount = (finished cfg m s.workers).card

theorem Rests.length_processed {outbuf : ℕ → Sample} {w e : ℕ} {worker : Worker}
    (h : Rests cfg outbuf w e worker) : worker.processed.length = e := by
  rw [h.processed, List.length_range]

theorem Works.length_processed {outbuf : ℕ → Sample} {w m : ℕ} {worker : Worker}
    (h : Works cfg outbuf w m worker) : worker.processed.length = m := by
  rw [h.processed, List.length_range]

theorem finished_update_of_iff {workers : ℕ → Worker} {m w : ℕ} {worker : Worker}
    (h : worker.processed.length = m + 1 ↔ (workers w).processed.length = m + 1) :
    finished cfg m (Function.update workers w worker) = finished cfg m workers := by
  apply Finset.filter_congr
  intro w' _
  by_cases hw : w' = w
  · subst hw
    rw [Function.update_self]
    exact h
  · rw [Function.update_of_ne hw]

theorem card_finished_update {workers : ℕ → Worker} {m w : ℕ} {worker : Worker}
    (hw : w < cfg.numThreads) (hnew : worker.processed.length = m + 1)
    (hold : (workers w).processed.length ≠ m + 1) :
    (finished cfg m (Function.update workers w worker)).card =
      (finished cfg m workers).card + 1 := by
  have hinsert : finished cfg m (Function.update workers w worker) =
      insert w (finished cfg m workers) := by
    ext w'
    simp only [finished, Finset.mem_filter, Finset.mem_range, Finset.mem_insert]
    by_cases heq : w' = w
    · subst heq
      rw [Function.update_self]
      exact iff_of_true ⟨hw, hnew⟩ (.inl rfl)
    · rw [Function.update_of_ne heq]
      exact (or_iff_right heq).symm
  rw [hinsert, Finset.card_insert_of_notMem]
  intro hmem
  exact hold (Finset.mem_filter.mp hmem).2

/-- In a quiet state a step of a worker changes nothing but the worker. -/
theorem quiet_stepWorker {s : State} {w e : ℕ} (hq : Quiet cfg e s) (hw : w < cfg.numThreads) :
    ∃ worker, stepWorker cfg w s = s.setWorker w worker ∧
      Quiet cfg e (s.setWorker w worker) := by
  obtain ⟨worker, hstep, hor⟩ := rests_stepWorker (hq.workers w hw)
  have hle : s.signalCount ≤ e := by
    rw [hq.signal]
    exact bmod_le e
  have hrests := hor.resolve_right fun h => h.1 hle
  refine ⟨worker, hstep, hq.signal, fun w' hw' => ?_⟩
  show Rests cfg s.outbuf w' e (Function.update s.workers w worker w')
  by_cases heq : w' = w
  · subst heq
    rw [Function.update_self]
    exact hrests
  · rw [Function.update_of_ne heq]
    exact hq.workers w' hw'

/-- While the callback waits, a step of a worker changes the worker, its buffer and the
count. -/
theorem waiting_stepWorker {s : State} {w m : ℕ} (hs : Waiting cfg m s)
    (hw : w < cfg.numThreads) (hm : s.callback = m)
    (hin : ∀ j < cfg.inChannels * cfg.numFrames, s.inbuf j = some m) :
    ∃ workers outbuf count, stepWorker cfg w s = { s with
        workers := workers
        outbuf := outbuf
        threadDoneCount := count } ∧
      Waiting cfg m { s with
        workers := workers
        outbuf := outbuf
        threadDoneCount := count } := by
  -- the other workers see the same buffer, whatever worker `w` does
  have hothers {worker : Worker} {outbuf : ℕ → Sample}
      (hsame : ∀ w' ≠ w, SameFor cfg w' s.outbuf outbuf)
      (hself : Rests cfg outbuf w m worker ∨ Works cfg outbuf w m worker ∨
        Rests cfg outbuf w (m + 1) worker) (w' : ℕ) (hw' : w' < cfg.numThreads) :
      Rests cfg outbuf w' m (Function.update s.workers w worker w') ∨
        Works cfg outbuf w' m (Function.update s.workers w worker w') ∨
        Rests cfg outbuf w' (m + 1) (Function.update s.workers w worker w') := by
    by_cases heq : w' = w
    · subst heq
      rw [Function.update_self]
      exact hself
    · rw [Function.update_of_ne heq]
      exact (hs.workers w' hw').imp (Rests.congr · (hsame w' heq))
        (Or.imp (Works.congr · (hsame w' heq)) (Rests.congr · (hsame w' heq)))
  have hkeep : ∀ w' ≠ w, SameFor cfg w' s.outbuf s.outbuf := fun _ _ _ _ _ _ _ => rfl
  cases hs.workers w hw with
  | inl hrests =>
    obtain ⟨worker, hstep, hor⟩ := rests_stepWorker hrests
    have hlength : worker.processed.length = m :=
      hor.elim Rests.length_processed fun h => h.2.length_processed
    refine ⟨_, _, _, hstep, hs.signal, hothers hkeep ?_, ?_⟩
    · exact hor.imp_right fun h => .inl h.2
    · rw [finished_update_of_iff]
      · exact hs.count
      · rw [hlength, hrests.length_processed]
  | inr hor =>
    cases hor with
    | inl hworks =>
      obtain ⟨worker, outbuf, count, hstep, hsame, hor⟩ := works_stepWorker hworks hm hin
      refine ⟨_, _, _, hstep, hs.signal, hothers hsame ?_, ?_⟩
      · exact .inr (hor.imp And.left And.left)
      · cases hor with
        | inl h =>
          rw [finished_update_of_iff]
          · exact h.2.trans hs.count
          · rw [h.1.length_processed, hworks.length_processed]
        | inr h =>
          have hold : (s.workers w).processed.length ≠ m + 1 := by
            rw [hworks.length_processed]
            omega
          show count = _
          rw [card_finished_update hw h.1.length_processed hold, ← hs.count]
          exact h.2
    | inr hrests =>
      obtain ⟨worker, hstep, hor⟩ := rests_stepWorker hrests
      have hle : s.signalCount ≤ (m + 1 : ℕ) := by
        rw [hs.signal]
        exact bmod_le (m + 1)
      have hrests' := hor.resolve_right fun h => h.1 hle
      refine ⟨_, _, _, hstep, hs.signal, hothers hkeep (.inr (.inr hrests')), ?_⟩
      rw [finished_update_of_iff]
      · exact hs.count
      · rw [hrests'.length_processed, hrests.length_processed]

/-! ## The callback -/

/-- The toggle and the sums of the running callback. -/
structure Told (cfg : Config) (s : State) (toggled : Bool) (running : List Sum) : Prop where
  mToggle : s.mToggle = if toggled then s.callback % 2 == 1 else s.callback % 2 == 0
  sums : s.sums = (List.range s.callback).flatMap (allSums cfg) ++ running

/-- The first `n` input samples are those of the running callback. -/
def Fresh (s : State) (n : ℕ) : Prop := ∀ j < n, s.inbuf j = some s.callback

/-- No worker is at work, and none is counted. -/
def Calm (cfg : Config) (e : ℕ) (s : State) : Prop := Quiet cfg e s ∧ s.threadDoneCount = 0

/-- The sums that were taken before the signal. -/
def early (cfg : Config) (m : ℕ) : List Sum := if cfg.zerolatency then [] else allSums cfg m

/-- What holds at each place of the callback. -/
def At (cfg : Config) (s : State) : CallbackPc → Prop
  | .idle => Calm cfg s.callback s ∧ Told cfg s false []
  | .replaceInput i => Calm cfg s.callback s ∧ Told cfg s false [] ∧ Fresh s i
  | .clear => Calm cfg s.callback s ∧ Told cfg s false [] ∧
      Fresh s (cfg.inChannels * cfg.numFrames)
  | .signal => Calm cfg s.callback s ∧ Told cfg s (!cfg.zerolatency) (early cfg s.callback) ∧
      Fresh s (cfg.inChannels * cfg.numFrames)
  | .spin => Waiting cfg s.callback s ∧ Told cfg s (!cfg.zerolatency) (early cfg s.callback) ∧
      Fresh s (cfg.inChannels * cfg.numFrames)
  | .clearDone => Quiet cfg (s.callback + 1) s ∧ s.threadDoneCount = cfg.numThreads ∧
      Told cfg s (!cfg.zerolatency) (early cfg s.callback) ∧
      Fresh s (cfg.inChannels * cfg.numFrames)
  | .toggle => Calm cfg (due cfg s.callback) s ∧ Told cfg s false [] ∧
      Fresh s (cfg.inChannels * cfg.numFrames)
  | .sum i k jj => Calm cfg (due cfg s.callback) s ∧ Told cfg s true (sumsTo cfg s.callback i k) ∧
      Fresh s (cfg.inChannels * cfg.numFrames) ∧
      s.second = (!cfg.zerolatency && !(s.callback % 2 == 1)) ∧
      s.inb = (List.range jj).map (fun w => lastSample cfg w i k (due cfg s.callback)) ∧
      i ≤ cfg.numFrames ∧ k ≤ cfg.channels ∧ jj ≤ cfg.numThreads ∧
      (i < cfg.numFrames ∨ k = 0) ∧ (k < cfg.channels ∨ jj = 0)

theorem Quiet.congr {e : ℕ} {s s' : State} (h : Quiet cfg e s)
    (hsignal : s'.signalCount = s.signalCount) (houtbuf : s'.outbuf = s.outbuf)
    (hworkers : s'.workers = s.workers) : Quiet cfg e s' := by
  refine ⟨hsignal.trans h.signal, ?_⟩
  rw [houtbuf, hworkers]
  exact h.workers

/-- Nothing is counted while nobody has processed the period. -/
theorem finished_eq_empty {s : State} {m : ℕ} (hq : Quiet cfg m s) :
    finished cfg m s.workers = ∅ := by
  apply Finset.filter_eq_empty_iff.mpr
  intro w hw hlength
  rw [(hq.workers w (Finset.mem_range.mp hw)).length_processed] at hlength
  omega

/-- If all workers are counted they are all done. -/
theorem Waiting.quiet {s : State} {m : ℕ} (hs : Waiting cfg m s)
    (hcount : s.threadDoneCount = cfg.numThreads) : Quiet cfg (m + 1) s := by
  refine ⟨hs.signal, fun w hw => ?_⟩
  have hall : finished cfg m s.workers = Finset.range cfg.numThreads := by
    apply Finset.eq_of_subset_of_card_le (Finset.filter_subset _ _)
    rw [Finset.card_range]
    exact (hcount.symm.trans hs.count).le
  have hmem : w ∈ finished cfg m s.workers := by
    rw [hall]
    exact Finset.mem_range.mpr hw
  have hlength := (Finset.mem_filter.mp hmem).2
  cases hs.workers w hw with
  | inl h =>
    rw [h.length_processed] at hlength
    omega
  | inr hor =>
    cases hor with
    | inl h =>
      rw [h.length_processed] at hlength
      omega
    | inr h => exact h

/-- The callback reads the half that was written last. -/
theorem Rests.lastSample {outbuf : ℕ → Sample} {w m i k : ℕ} {worker : Worker}
    (h : Rests cfg outbuf w (due cfg m) worker) (hi : i < cfg.numFrames) (hk : k < cfg.channels) :
    outbuf (sumIndex cfg (!cfg.zerolatency && !(m % 2 == 1)) w i k) =
      lastSample cfg w i k (due cfg m) := by
  have hholds := h.holds
  rw [sumIndex_eq]
  cases hdue : due cfg m with
  | zero =>
    rw [hdue] at hholds
    exact hholds _ _ _ hi hk
  | succ p =>
    rw [hdue] at hholds
    have hhalf : (!cfg.zerolatency && !(m % 2 == 1)) = parity cfg p := by
      rw [due] at hdue
      cases hz : cfg.zerolatency with
      | true => simp [parity, hz]
      | false =>
        have hm : m = p + 1 := by simpa [hz] using hdue
        subst hm
        rcases Nat.mod_two_eq_zero_or_one p with hp | hp <;> simp [parity, hz, hp, Nat.add_mod]
    rw [hhalf]
    exact hholds i k hi hk (.inl hi)

theorem sumsTo_succ (m i k : ℕ) :
    sumsTo cfg m i (k + 1) = sumsTo cfg m i k ++ [expectedSum cfg m i k] := by
  simp [sumsTo, List.range_succ]

theorem sumsTo_nextFrame (m i : ℕ) : sumsTo cfg m i cfg.channels = sumsTo cfg m (i + 1) 0 := by
  simp [sumsTo, List.range_succ]

theorem increment_bmod (m : ℕ) :
    increment (Int.bmod m (2 ^ 64)) = Int.bmod (m + 1 : ℕ) (2 ^ 64) := by
  rw [increment, Int.bmod_add_bmod]
  rfl

/-- The sums of the completed callbacks, one callback later. -/
theorem told_next {s s' : State} {toggled : Bool} (ht : Told cfg s toggled (allSums cfg s.callback))
    (htoggled : toggled = true) (hcallback : s'.callback = s.callback + 1)
    (htoggle : s'.mToggle = s.mToggle) (hsums : s'.sums = s.sums) : Told cfg s' false [] := by
  subst htoggled
  constructor
  · rw [htoggle, ht.mToggle, hcallback]
    rcases Nat.mod_two_eq_zero_or_one s.callback with h | h <;> simp [h, Nat.add_mod]
  · rw [hsums, ht.sums, hcallback, List.range_succ]
    simp

/-- Without latency a callback delivers its own period and has told nothing before. -/
theorem latency_true (hz : cfg.zerolatency = true) (m : ℕ) :
    due cfg m = m + 1 ∧ early cfg m = [] := by
  rw [due, early, if_pos hz, if_pos hz]
  exact ⟨rfl, rfl⟩

/-- With latency a callback delivers the period before, and has told it before the next one. -/
theorem latency_false (hz : cfg.zerolatency = false) (m : ℕ) :
    due cfg m = m ∧ early cfg m = allSums cfg m := by
  rw [due, early, hz]
  exact ⟨rfl, rfl⟩

/-- The loops that add the samples of the workers. -/
theorem at_stepSum {s : State} {i k jj : ℕ} (h : At cfg s s.pc) (hpc : s.pc = .sum i k jj) :
    At cfg (stepCallback cfg s) (stepCallback cfg s).pc := by
  rw [hpc] at h
  obtain ⟨hcalm, htold, hfresh, hsecond, hinb, hi', hk', hjj', hframe, hchannel⟩ := h
  simp only [stepCallback, hpc]
  by_cases hi : i < cfg.numFrames
  · rw [if_pos hi]
    by_cases hk : k < cfg.channels
    · rw [if_pos hk]
      by_cases hjj : jj < cfg.numThreads
      · rw [if_pos hjj]
        refine ⟨⟨hcalm.1.congr rfl rfl rfl, hcalm.2⟩, ⟨htold.mToggle, htold.sums⟩, hfresh, hsecond,
          ?_, hi', hk', hjj, hframe, .inl hk⟩
        show s.inb ++ [_] = _
        rw [hinb, List.range_succ, List.map_append, hsecond,
          (hcalm.1.workers jj hjj).lastSample hi hk]
        rfl
      · rw [if_neg hjj]
        have hall : jj = cfg.numThreads := by omega
        refine ⟨⟨hcalm.1.congr rfl rfl rfl, hcalm.2⟩, ⟨htold.mToggle, ?_⟩, hfresh, hsecond, rfl, hi',
          hk, Nat.zero_le _, .inl hi, .inr rfl⟩
        show s.sums ++ [_] = _
        rw [htold.sums, hinb, hall, sumsTo_succ, List.append_assoc]
        rfl
    · rw [if_neg hk]
      have hlast : k = cfg.channels := by omega
      have hzero : jj = 0 := hchannel.resolve_left hk
      subst hzero
      subst hlast
      refine ⟨⟨hcalm.1.congr rfl rfl rfl, hcalm.2⟩, ⟨htold.mToggle, ?_⟩, hfresh, hsecond, hinb, hi,
        Nat.zero_le _, Nat.zero_le _, .inr rfl, .inr rfl⟩
      show s.sums = _
      rw [htold.sums, sumsTo_nextFrame]
  · rw [if_neg hi]
    have hend : i = cfg.numFrames := by omega
    have hzero : k = 0 := hframe.resolve_left hi
    subst hzero
    subst hend
    cases hz : cfg.zerolatency with
    | true =>
      rw [(latency_true hz s.callback).1] at hcalm
      rw [if_pos rfl]
      exact ⟨⟨hcalm.1.congr rfl rfl rfl, hcalm.2⟩, told_next htold rfl rfl rfl rfl⟩
    | false =>
      obtain ⟨hdue, hearly⟩ := latency_false hz s.callback
      rw [hdue] at hcalm
      rw [if_neg (by decide)]
      refine ⟨⟨hcalm.1.congr rfl rfl rfl, hcalm.2⟩, ?_, hfresh⟩
      show Told cfg _ (!cfg.zerolatency) (early cfg s.callback)
      rw [hearly, hz]
      exact ⟨htold.mToggle, htold.sums⟩

theorem at_stepCallback {s : State} (h : At cfg s s.pc) :
    At cfg (stepCallback cfg s) (stepCallback cfg s).pc := by
  cases hpc : s.pc with
  | idle =>
    rw [hpc] at h
    obtain ⟨hcalm, htold⟩ := h
    simp only [stepCallback, hpc]
    exact ⟨⟨hcalm.1.congr rfl rfl rfl, hcalm.2⟩, ⟨htold.mToggle, htold.sums⟩,
      fun j hj => absurd hj (Nat.not_lt_zero j)⟩
  | replaceInput i =>
    rw [hpc] at h
    obtain ⟨hcalm, htold, hfresh⟩ := h
    simp only [stepCallback, hpc]
    by_cases hi : i < cfg.inChannels * cfg.numFrames
    · rw [if_pos hi]
      refine ⟨⟨hcalm.1.congr rfl rfl rfl, hcalm.2⟩, ⟨htold.mToggle, htold.sums⟩, fun j hj => ?_⟩
      show Function.update s.inbuf i _ j = some s.callback
      by_cases heq : j = i
      · subst heq
        rw [Function.update_self]
      · rw [Function.update_of_ne heq]
        exact hfresh j (by omega)
    · rw [if_neg hi]
      exact ⟨⟨hcalm.1.congr rfl rfl rfl, hcalm.2⟩, ⟨htold.mToggle, htold.sums⟩,
        fun j hj => hfresh j (by omega)⟩
  | clear =>
    rw [hpc] at h
    obtain ⟨hcalm, htold, hfresh⟩ := h
    simp only [stepCallback, hpc]
    cases hz : cfg.zerolatency with
    | true =>
      have hearly := (latency_true hz s.callback).2
      refine ⟨⟨hcalm.1.congr rfl rfl rfl, rfl⟩, ?_, hfresh⟩
      show Told cfg _ (!cfg.zerolatency) (early cfg s.callback)
      rw [hearly, hz]
      exact ⟨htold.mToggle, htold.sums⟩
    | false =>
      have hdue := (latency_false hz s.callback).1
      refine ⟨⟨?_, rfl⟩, ⟨htold.mToggle, htold.sums⟩, hfresh⟩
      show Quiet cfg (due cfg s.callback) _
      rw [hdue]
      exact hcalm.1.congr rfl rfl rfl
  | signal =>
    rw [hpc] at h
    obtain ⟨hcalm, htold, hfresh⟩ := h
    simp only [stepCallback, hpc]
    refine ⟨⟨?_, fun w hw => .inl (hcalm.1.workers w hw), ?_⟩, ⟨htold.mToggle, htold.sums⟩, hfresh⟩
    · show increment s.signalCount = _
      rw [hcalm.1.signal, increment_bmod]
    · show s.threadDoneCount = (finished cfg s.callback s.workers).card
      rw [finished_eq_empty hcalm.1, hcalm.2]
      rfl
  | spin =>
    rw [hpc] at h
    obtain ⟨hwaiting, htold, hfresh⟩ := h
    simp only [stepCallback, hpc]
    by_cases hcount : s.threadDoneCount = cfg.numThreads
    · rw [if_neg (not_not.mpr hcount)]
      exact ⟨(hwaiting.quiet hcount).congr rfl rfl rfl, hcount, ⟨htold.mToggle, htold.sums⟩, hfresh⟩
    · rw [if_pos hcount, hpc]
      exact ⟨hwaiting, htold, hfresh⟩
  | clearDone =>
    rw [hpc] at h
    obtain ⟨hquiet, -, htold, hfresh⟩ := h
    simp only [stepCallback, hpc]
    cases hz : cfg.zerolatency with
    | true =>
      obtain ⟨hdue, hearly⟩ := latency_true hz s.callback
      rw [hearly, hz] at htold
      rw [if_pos rfl]
      refine ⟨⟨?_, rfl⟩, ⟨htold.mToggle, htold.sums⟩, hfresh⟩
      show Quiet cfg (due cfg s.callback) _
      rw [hdue]
      exact hquiet.congr rfl rfl rfl
    | false =>
      rw [(latency_false hz s.callback).2] at htold
      rw [if_neg (by decide)]
      exact ⟨⟨hquiet.congr rfl rfl rfl, rfl⟩, told_next htold (by rw [hz]; rfl) rfl rfl rfl⟩
  | toggle =>
    rw [hpc] at h
    obtain ⟨hcalm, htold, hfresh⟩ := h
    have htoggle : (!s.mToggle) = (s.callback % 2 == 1) := by
      rw [htold.mToggle]
      rcases Nat.mod_two_eq_zero_or_one s.callback with h | h <;> simp [h]
    simp only [stepCallback, hpc, htoggle]
    refine ⟨⟨hcalm.1.congr rfl rfl rfl, hcalm.2⟩, ⟨rfl, ?_⟩, hfresh, rfl, rfl, Nat.zero_le _,
      Nat.zero_le _, Nat.zero_le _, .inr rfl, .inr rfl⟩
    exact htold.sums
  | sum i k jj => exact at_stepSum h hpc

theorem at_stepWorker {s : State} {w : ℕ} (h : At cfg s s.pc) (hw : w < cfg.numThreads) :
    At cfg (stepWorker cfg w s) (stepWorker cfg w s).pc := by
  have hquiet {e : ℕ} (hq : Quiet cfg e s) (hother : ∀ worker,
      Quiet cfg e (s.setWorker w worker) → At cfg (s.setWorker w worker) s.pc) :
      At cfg (stepWorker cfg w s) (stepWorker cfg w s).pc := by
    obtain ⟨worker, hstep, hq'⟩ := quiet_stepWorker hq hw
    rw [hstep]
    exact hother worker hq'
  cases hpc : s.pc with
  | idle =>
    rw [hpc] at h hquiet
    obtain ⟨hcalm, htold⟩ := h
    exact hquiet hcalm.1 fun worker hq => ⟨⟨hq, hcalm.2⟩, htold.mToggle, htold.sums⟩
  | replaceInput i =>
    rw [hpc] at h hquiet
    obtain ⟨hcalm, htold, hfresh⟩ := h
    exact hquiet hcalm.1 fun worker hq => ⟨⟨hq, hcalm.2⟩, ⟨htold.mToggle, htold.sums⟩, hfresh⟩
  | clear =>
    rw [hpc] at h hquiet
    obtain ⟨hcalm, htold, hfresh⟩ := h
    exact hquiet hcalm.1 fun worker hq => ⟨⟨hq, hcalm.2⟩, ⟨htold.mToggle, htold.sums⟩, hfresh⟩
  | signal =>
    rw [hpc] at h hquiet
    obtain ⟨hcalm, htold, hfresh⟩ := h
    exact hquiet hcalm.1 fun worker hq => ⟨⟨hq, hcalm.2⟩, ⟨htold.mToggle, htold.sums⟩, hfresh⟩
  | spin =>
    rw [hpc] at h
    obtain ⟨hwaiting, htold, hfresh⟩ := h
    obtain ⟨workers, outbuf, count, hstep, hwaiting'⟩ :=
      waiting_stepWorker hwaiting hw rfl hfresh
    have hpc' : (stepWorker cfg w s).pc = .spin := by
      rw [hstep]
      exact hpc
    rw [hpc', hstep]
    exact ⟨hwaiting', ⟨htold.mToggle, htold.sums⟩, hfresh⟩
  | clearDone =>
    rw [hpc] at h hquiet
    obtain ⟨hq, hcount, htold, hfresh⟩ := h
    exact hquiet hq fun worker hq' => ⟨hq', hcount, ⟨htold.mToggle, htold.sums⟩, hfresh⟩
  | toggle =>
    rw [hpc] at h hquiet
    obtain ⟨hcalm, htold, hfresh⟩ := h
    exact hquiet hcalm.1 fun worker hq => ⟨⟨hq, hcalm.2⟩, ⟨htold.mToggle, htold.sums⟩, hfresh⟩
  | sum i k jj =>
    rw [hpc] at h hquiet
    obtain ⟨hcalm, htold, hrest⟩ := h
    exact hquiet hcalm.1 fun worker hq => ⟨⟨hq, hcalm.2⟩, ⟨htold.mToggle, htold.sums⟩, hrest⟩

theorem at_step {s s' : State} {turn : Turn} (h : At cfg s s.pc)
    (hstep : step cfg s turn = some s') : At cfg s' s'.pc := by
  cases turn with
  | callback =>
    obtain rfl := Option.some.inj hstep
    exact at_stepCallback h
  | worker idx =>
    rw [step] at hstep
    split at hstep
    case isTrue hlt =>
      obtain rfl := Option.some.inj hstep
      exact at_stepWorker h hlt
    case isFalse => cases hstep

theorem at_init (cfg : Config) : At cfg init init.pc := by
  refine ⟨⟨⟨?_, fun w _ => ⟨.inl ⟨rfl, ?_⟩, rfl, rfl, fun _ _ _ _ _ => rfl⟩⟩, rfl⟩, rfl, rfl⟩
  · show (0 : ℤ) = Int.bmod (0 : ℕ) (2 ^ 64)
    simp
  · show false = parity cfg 0
    simp [parity]

/-! ## Every state of a run -/

theorem sumsTo_isPrefixOf_add (m i d k : ℕ) : sumsTo cfg m i 0 <+: sumsTo cfg m (i + d) k := by
  simp only [sumsTo, List.range_add, List.flatMap_append, List.append_assoc, List.range_zero,
    List.map_nil, List.append_nil]
  exact List.prefix_append _ _

theorem sumsTo_isPrefixOf (m : ℕ) {i k : ℕ} (hi : i ≤ cfg.numFrames) (hk : k ≤ cfg.channels)
    (hframe : i < cfg.numFrames ∨ k = 0) : sumsTo cfg m i k <+: allSums cfg m := by
  by_cases hlt : i < cfg.numFrames
  · obtain ⟨d, hd⟩ := Nat.exists_eq_add_of_le (Nat.succ_le_of_lt hlt)
    obtain ⟨e, he⟩ := Nat.exists_eq_add_of_le hk
    have hrow : sumsTo cfg m i k <+: sumsTo cfg m i cfg.channels := by
      rw [he]
      simp only [sumsTo, List.range_add, List.map_append, ← List.append_assoc]
      exact List.prefix_append _ _
    rw [sumsTo_nextFrame] at hrow
    rw [allSums, hd]
    exact hrow.trans (sumsTo_isPrefixOf_add m (i + 1) d 0)
  · have hend : i = cfg.numFrames := by omega
    rw [hframe.resolve_left hlt, hend]
    exact List.prefix_rfl

theorem early_isPrefixOf (m : ℕ) : early cfg m <+: allSums cfg m := by
  rw [early]
  split
  · exact List.nil_prefix
  · exact List.prefix_rfl

/-- Resting workers neither read nor write, and they keep the account of the periods. -/
theorem Quiet.rests {s : State} {e w : ℕ} (hq : Quiet cfg e s) (hw : w < cfg.numThreads) :
    ¬ WorkerPc.Reads (s.workers w).pc ∧ ¬ WorkerPc.Writes (s.workers w).pc ∧
      (s.workers w).processed = List.range e := by
  have hr := hq.workers w hw
  refine ⟨?_, ?_, hr.processed⟩
  · cases hr.pc with
    | inl h =>
      rw [h.1]
      exact id
    | inr h =>
      rw [h.1]
      exact id
  · cases hr.pc with
    | inl h =>
      rw [h.1]
      exact id
    | inr h =>
      rw [h.1]
      exact id

theorem due_spec (cfg : Config) (m : ℕ) : m ≤ due cfg m ∧ due cfg m ≤ m + 1 := by
  rw [due]
  split <;> omega

/-- What the invariant says about a quiet state. -/
theorem delivered_of_quiet {s : State} {e : ℕ} {toggled : Bool} {running : List Sum}
    (hq : Quiet cfg e s) (ht : Told cfg s toggled running)
    (hrunning : running <+: allSums cfg s.callback) (he : s.callback ≤ e ∧ e ≤ s.callback + 1)
    (hidle : s.pc = .idle → e = s.callback) (hcount : s.threadDoneCount ≤ cfg.numThreads) :
    Delivered cfg s :=
  ⟨fun _ hw _ => (hq.rests hw).2.1, fun _ hw _ => (hq.rests hw).1, ⟨running, hrunning, ht.sums⟩,
    fun _ hw => ⟨e, (hq.rests hw).2.2, he.1, he.2, hidle⟩, hcount⟩

theorem delivered_of_at {s : State} (h : At cfg s s.pc) : Delivered cfg s := by
  have hzero (hcount : s.threadDoneCount = 0) : s.threadDoneCount ≤ cfg.numThreads := by omega
  cases hpc : s.pc with
  | idle =>
    rw [hpc] at h
    obtain ⟨hcalm, htold⟩ := h
    exact delivered_of_quiet hcalm.1 htold List.nil_prefix (by omega) (fun _ => rfl)
      (hzero hcalm.2)
  | replaceInput i =>
    rw [hpc] at h
    obtain ⟨hcalm, htold, -⟩ := h
    exact delivered_of_quiet hcalm.1 htold List.nil_prefix (by omega) (fun _ => rfl)
      (hzero hcalm.2)
  | clear =>
    rw [hpc] at h
    obtain ⟨hcalm, htold, -⟩ := h
    exact delivered_of_quiet hcalm.1 htold List.nil_prefix (by omega) (fun _ => rfl)
      (hzero hcalm.2)
  | signal =>
    rw [hpc] at h
    obtain ⟨hcalm, htold, -⟩ := h
    exact delivered_of_quiet hcalm.1 htold (early_isPrefixOf _) (by omega) (fun _ => rfl)
      (hzero hcalm.2)
  | spin =>
    rw [hpc] at h
    obtain ⟨hwaiting, htold, -⟩ := h
    refine ⟨fun w hw hsums => ?_, fun w hw hreplaces => ?_, ⟨_, early_isPrefixOf _, htold.sums⟩,
      fun w hw => ?_, ?_⟩
    · rw [hpc] at hsums
      exact hsums.elim
    · rw [hpc] at hreplaces
      exact hreplaces.elim
    · have hidle : s.pc ≠ .idle := by
        rw [hpc]
        intro heq
        cases heq
      cases hwaiting.workers w hw with
      | inl h => exact ⟨_, h.processed, by omega, by omega, fun heq => absurd heq hidle⟩
      | inr hor =>
        cases hor with
        | inl h => exact ⟨_, h.processed, by omega, by omega, fun heq => absurd heq hidle⟩
        | inr h => exact ⟨_, h.processed, by omega, by omega, fun heq => absurd heq hidle⟩
    · rw [hwaiting.count]
      exact (Finset.card_filter_le _ _).trans (Finset.card_range _).le
  | clearDone =>
    rw [hpc] at h
    obtain ⟨hq, hcount, htold, -⟩ := h
    refine delivered_of_quiet hq htold (early_isPrefixOf _) (by omega) (fun heq => ?_) hcount.le
    rw [hpc] at heq
    cases heq
  | toggle =>
    rw [hpc] at h
    obtain ⟨hcalm, htold, -⟩ := h
    refine delivered_of_quiet hcalm.1 htold List.nil_prefix (due_spec _ _) (fun heq => ?_)
      (hzero hcalm.2)
    rw [hpc] at heq
    cases heq
  | sum i k jj =>
    rw [hpc] at h
    obtain ⟨hcalm, htold, -, -, -, hi, hk, -, hframe, -⟩ := h
    refine delivered_of_quiet hcalm.1 htold (sumsTo_isPrefixOf _ hi hk hframe) (due_spec _ _)
      (fun heq => ?_) (hzero hcalm.2)
    rw [hpc] at heq
    cases heq

/-- In every interleaving every period is delivered exactly once: the callback and the workers
never meet in a buffer, each sum has one sample of every worker and of the right period, and
each worker processes the periods one after the other. -/
theorem always_delivered (cfg : Config) (turns : List Turn) :
    Always (Delivered cfg) (step cfg) init turns := by
  intro before after s _ hr
  apply delivered_of_at
  exact run_invariant (fun _ _ _ h _ hstep => at_step h hstep) (at_init cfg)
    (meets_true init before) hr

end Extempore.AudioPeriods
