import Mathlib.Data.Finset.Card
import Mathlib.Data.Finset.Range
import Mathlib.Data.Int.DivMod
import Mathlib.Data.Nat.Notation
import Mathlib.Data.Int.Notation
import Mathlib.Tactic.Ring

/-!
# The barrier of the audio threads

The audio callback and its worker threads, one memory access a step. A sample is represented by
the evaluation that computed it, an input sample by the callback that wrote it.
-/

namespace Extempore.AudioBarrier

/-- What `initMTAudio` and the audio device fix. -/
structure Config where
  numThreads : ℕ
  zerolatency : Bool
  channels : ℕ
  inChannels : ℕ
  numFrames : ℕ
  deriving DecidableEq, Repr

/-- One call of a worker's closure: who made it, during which callback, for which frame and
channel, and the input samples it was given. -/
structure Evaluation where
  worker : ℕ
  period : ℕ
  frame : ℕ
  channel : ℕ
  indata : List (Option ℕ)
  input : Option ℕ
  deriving DecidableEq, Repr

/-- A sample of an output buffer; `none` is the zero of `memset`. -/
abbrev Sample := Option Evaluation

/-- One call of the summing closure. -/
structure Sum where
  callback : ℕ
  frame : ℕ
  channel : ℕ
  samples : List Sample
  deriving DecidableEq, Repr

/-- Where a worker is in `audioCallbackMT`. -/
inductive WorkerPc where
  | choose
  | spin
  | readInput (i k : ℕ)
  | compute (i k : ℕ)
  | write (i k : ℕ) (sample : Evaluation)
  | done
  deriving DecidableEq, Repr

/-- `outbuf` tells which of the two `outbufs` was chosen; `processed` remembers the callbacks
during which a period was finished. -/
structure Worker where
  pc : WorkerPc
  toggle : Bool
  outbuf : Bool
  lcount : ℕ
  indata : ℕ → Option ℕ
  processed : List ℕ

/-- Where `audioCallback` is, in the branch with a sum wrapper. -/
inductive CallbackPc where
  | idle
  | replaceInput (i : ℕ)
  | clear
  | signal
  | spin
  | clearDone
  | toggle
  | sum (i k jj : ℕ)
  deriving DecidableEq, Repr

/-- `callback` counts the completed callbacks, so it is the number of the running one; `inb` is
the local array `in`, and `sums` remembers the calls of the summing closure. -/
structure State where
  signalCount : ℤ
  threadDoneCount : ℕ
  inbuf : ℕ → Option ℕ
  outbuf : ℕ → Sample
  mToggle : Bool
  callback : ℕ
  pc : CallbackPc
  second : Bool
  inb : List Sample
  sums : List Sum
  workers : ℕ → Worker

/-- After `initMTAudio`, with both counters 0. -/
def init : State where
  signalCount := 0
  threadDoneCount := 0
  inbuf _ := none
  outbuf _ := none
  mToggle := true
  callback := 0
  pc := .idle
  second := false
  inb := []
  sums := []
  workers _ := ⟨.choose, false, false, 0, fun _ => none, []⟩

/-- The 64-bit `++sSignalCount`. -/
def increment (n : ℤ) : ℤ := (n + 1).bmod (2 ^ 64)

def State.setWorker (s : State) (w : ℕ) (worker : Worker) : State :=
  { s with workers := Function.update s.workers w worker }

/-- The index of a sample in `outbufs[half]` of worker `idx`; no device has buffers so long that
the 32-bit arithmetic wraps. -/
def workerIndex (cfg : Config) (idx : ℕ) (half : Bool) (i k : ℕ) : ℕ :=
  cfg.channels * cfg.numFrames * idx * 2 + (if half then cfg.channels * cfg.numFrames else 0) +
    (i * cfg.channels + k)

/-- The index of a sample in `indats[jj]`. -/
def sumIndex (cfg : Config) (second : Bool) (jj i k : ℕ) : ℕ :=
  (if second then cfg.numFrames * cfg.channels else 0) + cfg.numFrames * cfg.channels * jj * 2 +
    (i * cfg.channels + k)

/-- The input sample that is passed beside `indata`; 0.0 where the channels do not match. -/
def inputSample (cfg : Config) (inbuf : ℕ → Option ℕ) (i k : ℕ) : Option ℕ :=
  if cfg.inChannels = cfg.channels then inbuf (i * cfg.inChannels + k)
  else if cfg.inChannels = 1 then inbuf (i * cfg.inChannels)
  else none

/-- One step of the worker `idx`. -/
def stepWorker (cfg : Config) (idx : ℕ) (s : State) : State :=
  let w := s.workers idx
  match w.pc with
  | .choose => s.setWorker idx { w with
      pc := .spin
      outbuf := w.toggle
      toggle := if cfg.zerolatency then w.toggle else !w.toggle }
  | .spin =>
      if s.signalCount ≤ w.lcount then s
      else s.setWorker idx { w with pc := .readInput 0 0, lcount := w.lcount + 1 }
  | .readInput i k =>
      if i < cfg.numFrames then
        if k < cfg.inChannels then s.setWorker idx { w with
          pc := .readInput i (k + 1)
          indata := Function.update w.indata k (s.inbuf (i * cfg.inChannels + k)) }
        else s.setWorker idx { w with pc := .compute i 0 }
      else s.setWorker idx { w with pc := .done }
  | .compute i k =>
      if k < cfg.channels then s.setWorker idx { w with
        pc := .write i k ⟨idx, s.callback, i, k, (List.range cfg.inChannels).map w.indata,
          inputSample cfg s.inbuf i k⟩ }
      else s.setWorker idx { w with pc := .readInput (i + 1) 0 }
  | .write i k sample => { s.setWorker idx { w with pc := .compute i (k + 1) } with
      outbuf := Function.update s.outbuf (workerIndex cfg idx w.outbuf i k) (some sample) }
  | .done => { s.setWorker idx { w with
        pc := .choose
        processed := w.processed ++ [s.callback] } with
      threadDoneCount := s.threadDoneCount + 1 }

/-- One step of the callback. -/
def stepCallback (cfg : Config) (s : State) : State :=
  match s.pc with
  | .idle => { s with pc := .replaceInput 0 }
  | .replaceInput i =>
      if i < cfg.inChannels * cfg.numFrames then { s with
        pc := .replaceInput (i + 1)
        inbuf := Function.update s.inbuf i (some s.callback) }
      else { s with pc := .clear }
  | .clear => { s with
      threadDoneCount := 0
      pc := if cfg.zerolatency then .signal else .toggle }
  | .signal => { s with signalCount := increment s.signalCount, pc := .spin }
  | .spin => if s.threadDoneCount ≠ cfg.numThreads then s else { s with pc := .clearDone }
  | .clearDone =>
      if cfg.zerolatency then { s with threadDoneCount := 0, pc := .toggle }
      else { s with threadDoneCount := 0, pc := .idle, callback := s.callback + 1 }
  | .toggle => { s with
      mToggle := !s.mToggle
      second := !cfg.zerolatency && !(!s.mToggle)
      inb := []
      pc := .sum 0 0 0 }
  | .sum i k jj =>
      if i < cfg.numFrames then
        if k < cfg.channels then
          if jj < cfg.numThreads then { s with
            inb := s.inb ++ [s.outbuf (sumIndex cfg s.second jj i k)]
            pc := .sum i k (jj + 1) }
          else { s with
            sums := s.sums ++ [⟨s.callback, i, k, s.inb⟩]
            inb := []
            pc := .sum i (k + 1) 0 }
        else { s with pc := .sum (i + 1) 0 0 }
      else if cfg.zerolatency then { s with pc := .idle, callback := s.callback + 1 }
      else { s with pc := .signal }

/-- Whose turn it is. -/
inductive Turn where
  | callback
  | worker (idx : ℕ)
  deriving DecidableEq, Repr

/-- Any thread may take the next step. -/
def step (cfg : Config) (s : State) : Turn → Option State
  | .callback => some (stepCallback cfg s)
  | .worker idx => if idx < cfg.numThreads then some (stepWorker cfg idx s) else none

end Extempore.AudioBarrier
