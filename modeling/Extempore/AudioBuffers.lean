import Mathlib.Data.Int.Notation
import Mathlib.Tactic.Linarith
import Extempore.GuardedRuns

/-!
# The playhead of an audio buffer

The functions of `libs/core/audiobuffer.xtm` that move the playhead of an `AudioBuffer` or read its
samples. `seek` and `read` leave the playhead behind the last frame at the end. `peek` and `read`
return silence there, and `peek_looped` and `ptr` go on from the first frame, but `read_looped` uses
the playhead as it is. What is at an index of the sample data is a parameter, inside and outside of
the buffer, and every reading carries the index it was read at.
-/

namespace Extempore.AudioBuffers

open GuardedRuns

universe u

variable {α : Type u}

/-! ## The functions -/

/-- A sample with the index it was read at; none if it is the constant zero. -/
structure Reading (α : Type u) where
  value : α
  index : Option Int64

def silence [Zero α] : Reading α := ⟨0, none⟩

/-- The fields that the functions use. -/
structure AudioBuffer (α : Type u) where
  playhead : Int64
  frames : Int64
  channels : Int64
  data : Int64 → α

namespace AudioBuffer

variable [Zero α] (ab : AudioBuffer α)

def setPlayhead (playhead : Int64) : AudioBuffer α := { ab with playhead := playhead }

def index (frame chan : Int64) : Int64 := frame * ab.channels + chan

def pref (i : Int64) : Reading α := ⟨ab.data i, some i⟩

def seek (seekTo : Int64) : Bool × AudioBuffer α :=
  if seekTo < 0 then (false, ab)
  else (true, ab.setPlayhead (if seekTo < ab.frames then seekTo else ab.frames))

def peek (chan : Int64) : Reading α :=
  if ab.playhead < ab.frames then ab.pref (ab.index ab.playhead chan) else silence

def peekLooped (chan : Int64) : Reading α :=
  ab.pref (ab.index (ab.playhead % ab.frames) chan)

def read (chan : Int64) : Reading α × AudioBuffer α :=
  if ab.playhead < ab.frames then
    (ab.pref (ab.index ab.playhead chan),
      if chan = 0 then ab.setPlayhead (ab.playhead + 1) else ab)
  else (silence, ab)

/-- `AudioBuffer_read` with a frame. -/
def readFrame (frame chan : Int64) : Reading α × AudioBuffer α :=
  if frame < ab.frames then
    (ab.pref (ab.index frame chan), if chan = 0 then ab.setPlayhead frame else ab)
  else (silence, ab)

def readLooped (chan : Int64) : Reading α × AudioBuffer α :=
  (ab.pref (ab.index ab.playhead chan),
    if chan = 0 then ab.setPlayhead ((ab.playhead + 1) % ab.frames) else ab)

/-- `AudioBuffer_read_looped` with a frame. -/
def readLoopedFrame (frame chan : Int64) : Reading α × AudioBuffer α :=
  (if ab.frames < frame then silence else ab.pref (ab.index frame chan),
    if chan = 0 then ab.setPlayhead (frame % ab.frames) else ab)

/-- The index that the pointer points to. -/
def ptr (frame chan : Int64) : Int64 :=
  let frame := if frame < 0 then frame.abs else frame
  if frame < ab.frames then ab.index frame chan else ab.index (frame % ab.frames) chan

end AudioBuffer

/-! ## Runs of calls -/

inductive Call where
  | seek (seekTo : Int64)
  | peek (chan : Int64)
  | peekLooped (chan : Int64)
  | read (chan : Int64)
  | readFrame (frame chan : Int64)
  | readLooped (chan : Int64)
  | readLoopedFrame (frame chan : Int64)
  | ptr (frame chan : Int64)

/-- A number below `n`. -/
def Below (n i : Int64) : Prop := 0 ≤ i.toInt ∧ i.toInt < n.toInt

instance (n i : Int64) : Decidable (Below n i) := instDecidableAnd

/-- The channel of a call is one of the buffer's, and its frame is not negative. -/
def Call.Proper (channels : Int64) : Call → Prop
  | .seek _ => True
  | .peek chan | .peekLooped chan | .read chan | .readLooped chan => Below channels chan
  | .readFrame frame chan | .readLoopedFrame frame chan | .ptr frame chan =>
    0 ≤ frame.toInt ∧ Below channels chan

instance (channels : Int64) : DecidablePred (Call.Proper channels)
  | .seek _ => instDecidableTrue
  | .peek chan | .peekLooped chan | .read chan | .readLooped chan =>
    inferInstanceAs (Decidable (Below channels chan))
  | .readFrame _ _ | .readLoopedFrame _ _ | .ptr _ _ => instDecidableAnd

abbrev ProperCall (channels : Int64) := { call : Call // call.Proper channels }

/-- The index that a call reads or points to, and the buffer behind it. -/
def AudioBuffer.perform [Zero α] (ab : AudioBuffer α) : Call → Option Int64 × AudioBuffer α
  | .seek seekTo => (none, (ab.seek seekTo).2)
  | .peek chan => ((ab.peek chan).index, ab)
  | .peekLooped chan => ((ab.peekLooped chan).index, ab)
  | .read chan => ((ab.read chan).1.index, (ab.read chan).2)
  | .readFrame frame chan => ((ab.readFrame frame chan).1.index, (ab.readFrame frame chan).2)
  | .readLooped chan => ((ab.readLooped chan).1.index, (ab.readLooped chan).2)
  | .readLoopedFrame frame chan =>
    ((ab.readLoopedFrame frame chan).1.index, (ab.readLoopedFrame frame chan).2)
  | .ptr frame chan => (some (ab.ptr frame chan), ab)

/-- A buffer with the indices that were read or pointed to so far. -/
structure Session (α : Type u) where
  buffer : AudioBuffer α
  touched : List Int64

def Session.step [Zero α] {channels : Int64} (s : Session α) (call : ProperCall channels) :
    Option (Session α) :=
  some ⟨(s.buffer.perform call.1).2, s.touched ++ (s.buffer.perform call.1).1.toList⟩

/-! ## Indices -/

/-- A buffer with frames and channels whose samples lie in memory, and a playhead at a frame or at
the end. -/
structure AudioBuffer.Sound (ab : AudioBuffer α) : Prop where
  frames_pos : 0 < ab.frames.toInt
  channels_pos : 0 < ab.channels.toInt
  fits : ab.frames.toInt * ab.channels.toInt < 2 ^ 63
  playhead_nonneg : 0 ≤ ab.playhead.toInt
  playhead_le : ab.playhead.toInt ≤ ab.frames.toInt

def AudioBuffer.Inside (ab : AudioBuffer α) (i : Int64) : Prop :=
  0 ≤ i.toInt ∧ i.toInt < ab.frames.toInt * ab.channels.toInt

variable {ab : AudioBuffer α} {frame chan : Int64}

theorem toInt_mul_channels (h : ab.Sound) (hframe : 0 ≤ frame.toInt)
    (hle : frame.toInt ≤ ab.frames.toInt) :
    (frame * ab.channels).toInt = frame.toInt * ab.channels.toInt := by
  have hpos := h.channels_pos
  have hfits := h.fits
  have hlow : 0 ≤ frame.toInt * ab.channels.toInt := Int.mul_nonneg hframe hpos.le
  have hhigh := Int.mul_le_mul_of_nonneg_right hle hpos.le
  rw [Int64.toInt_mul]
  apply Int.bmod_eq_of_le <;> omega

/-- The place of a channel of a frame among the samples. -/
theorem place_bounds (h : ab.Sound) (hframe : 0 ≤ frame.toInt)
    (hlt : frame.toInt < ab.frames.toInt) (hchan : Below ab.channels chan) :
    0 ≤ frame.toInt * ab.channels.toInt + chan.toInt ∧
      frame.toInt * ab.channels.toInt + chan.toInt < ab.frames.toInt * ab.channels.toInt := by
  have hpos := h.channels_pos
  have hlow : 0 ≤ frame.toInt * ab.channels.toInt := Int.mul_nonneg hframe hpos.le
  have hhigh := Int.mul_le_mul_of_nonneg_right (Int.add_one_le_of_lt hlt) hpos.le
  rw [Int.add_mul, Int.one_mul] at hhigh
  rcases hchan with ⟨hzero, hchan⟩
  omega

/-- The index of a frame of the buffer. -/
theorem toInt_index (h : ab.Sound) (hframe : 0 ≤ frame.toInt)
    (hlt : frame.toInt < ab.frames.toInt) (hchan : Below ab.channels chan) :
    (ab.index frame chan).toInt = frame.toInt * ab.channels.toInt + chan.toInt := by
  have hfits := h.fits
  have hplace := place_bounds h hframe hlt hchan
  rw [AudioBuffer.index, Int64.toInt_add, toInt_mul_channels h hframe hlt.le]
  apply Int.bmod_eq_of_le <;> omega

theorem inside_index (h : ab.Sound) (hframe : 0 ≤ frame.toInt)
    (hlt : frame.toInt < ab.frames.toInt) (hchan : Below ab.channels chan) :
    ab.Inside (ab.index frame chan) := by
  rw [AudioBuffer.Inside, toInt_index h hframe hlt hchan]
  exact place_bounds h hframe hlt hchan

/-- The index of the frame at the end is outside, also where the sum wraps around. -/
theorem not_inside_end (h : ab.Sound) (hchan : Below ab.channels chan) :
    ¬ ab.Inside (ab.index ab.frames chan) := by
  have hpos := h.frames_pos
  have hfits := h.fits
  rcases hchan with ⟨hzero, hchan⟩
  have hchannels := Int.mul_le_mul_of_nonneg_right (show 1 ≤ ab.frames.toInt by omega)
    h.channels_pos.le
  rw [Int.one_mul] at hchannels
  rw [AudioBuffer.Inside, AudioBuffer.index, Int64.toInt_add,
    toInt_mul_channels h hpos.le Int.le_rfl]
  by_cases hsmall : ab.frames.toInt * ab.channels.toInt + chan.toInt < 2 ^ 63
  · rw [Int.bmod_eq_of_le (by omega) (by omega)]
    omega
  · have hwrap : (ab.frames.toInt * ab.channels.toInt + chan.toInt).bmod (2 ^ 64) =
        ab.frames.toInt * ab.channels.toInt + chan.toInt - 2 ^ 64 := by
      rw [← Int.sub_bmod_right]
      apply Int.bmod_eq_of_le <;> omega
    rw [hwrap]
    omega

/-! ## One call -/

theorem below_zero (h : ab.Sound) : Below ab.channels 0 := by
  rw [Below, Int64.toInt_zero]
  exact ⟨Int.le_rfl, h.channels_pos⟩

/-- A playhead that is not at the end is at a frame. -/
theorem AudioBuffer.Sound.playhead_lt (h : ab.Sound) (hne : ab.playhead ≠ ab.frames) :
    ab.playhead.toInt < ab.frames.toInt := by
  have hle := h.playhead_le
  rw [Ne, ← Int64.toInt_inj] at hne
  omega

theorem below_mod (h : ab.Sound) (hframe : 0 ≤ frame.toInt) :
    Below ab.frames (frame % ab.frames) := by
  rw [Below, Int64.toInt_mod]
  exact ⟨Int.tmod_nonneg _ hframe, Int.tmod_lt_of_pos _ h.frames_pos⟩

/-- Adding one to the number of a frame of the buffer. -/
theorem toInt_add_one (hframe : 0 ≤ frame.toInt) (hlt : frame.toInt < ab.frames.toInt) :
    (frame + 1).toInt = frame.toInt + 1 := by
  have hhigh := ab.frames.toInt_lt
  rw [Int64.toInt_add, Int64.toInt_one]
  apply Int.bmod_eq_of_le <;> omega

/-- The frame behind the current one is the same only if there is no other. -/
theorem eq_next_iff (h : ab.Sound) (hlt : ab.playhead.toInt < ab.frames.toInt) :
    ab.playhead = (ab.playhead + 1) % ab.frames ↔ ab.frames = 1 := by
  have hplay := h.playhead_nonneg
  rw [← Int64.toInt_inj, ← Int64.toInt_inj, Int64.toInt_mod, toInt_add_one hplay hlt,
    Int64.toInt_one]
  by_cases hlast : ab.playhead.toInt + 1 = ab.frames.toInt
  · rw [hlast, Int.tmod_self]
    omega
  · rw [Int.tmod_eq_of_lt (by omega) (by omega)]
    omega

theorem AudioBuffer.Sound.setPlayhead (h : ab.Sound) {playhead : Int64}
    (hnonneg : 0 ≤ playhead.toInt) (hle : playhead.toInt ≤ ab.frames.toInt) :
    (ab.setPlayhead playhead).Sound where
  frames_pos := h.frames_pos
  channels_pos := h.channels_pos
  fits := h.fits
  playhead_nonneg := hnonneg
  playhead_le := hle

/-- What a call keeps: a sound buffer, and all indices inside. -/
structure Keeps (ab : AudioBuffer α) (r : Option Int64 × AudioBuffer α) : Prop where
  sound : r.2.Sound
  inside : ∀ i ∈ r.1, ab.Inside i

theorem keeps_none (h : ab.Sound) : Keeps ab (none, ab) := ⟨h, by simp⟩

theorem keeps_some (h : ab.Sound) {i : Int64} (hi : ab.Inside i) : Keeps ab (some i, ab) where
  sound := h
  inside := by
    rintro j ⟨⟩
    exact hi

/-- A call with the channel zero may move the playhead. -/
theorem Keeps.move {index : Option Int64} (h : Keeps ab (index, ab)) {playhead : Int64}
    (hnonneg : 0 ≤ playhead.toInt) (hle : playhead.toInt ≤ ab.frames.toInt) :
    Keeps ab (index, if chan = 0 then ab.setPlayhead playhead else ab) := by
  split
  · exact ⟨h.sound.setPlayhead hnonneg hle, h.inside⟩
  · exact h

/-- The calls whose index is inside: `read_looped` not at the end, neither that of the playhead nor
that of the frame. -/
def AudioBuffer.Allowed (ab : AudioBuffer α) : Call → Prop
  | .readLooped _ => ab.playhead ≠ ab.frames
  | .readLoopedFrame frame _ => frame ≠ ab.frames
  | _ => True

section Calls

variable [Zero α] {call : Call}

theorem keeps_perform (h : ab.Sound) (hproper : call.Proper ab.channels) (hok : ab.Allowed call) :
    Keeps ab (ab.perform call) := by
  have hplay := h.playhead_nonneg
  have hend := h.playhead_le
  cases call with
  | seek seekTo =>
    rw [AudioBuffer.perform, AudioBuffer.seek]
    split
    · exact keeps_none h
    · next hneg =>
      rw [Int64.lt_iff_toInt_lt, Int64.toInt_zero] at hneg
      have hpos := h.frames_pos
      refine ⟨h.setPlayhead ?_ ?_, by simp⟩
      · split <;> omega
      · split
        · next hlt => exact (Int64.lt_iff_toInt_lt.mp hlt).le
        · exact Int.le_rfl
  | peek chan =>
    rw [AudioBuffer.perform, AudioBuffer.peek]
    split
    · next hlt => exact keeps_some h (inside_index h hplay (Int64.lt_iff_toInt_lt.mp hlt) hproper)
    · exact keeps_none h
  | peekLooped chan =>
    have hmod := below_mod h hplay
    exact keeps_some h (inside_index h hmod.1 hmod.2 hproper)
  | read chan =>
    rw [AudioBuffer.perform, AudioBuffer.read]
    split
    · next hlt =>
      rw [Int64.lt_iff_toInt_lt] at hlt
      have hnext := toInt_add_one hplay hlt
      exact (keeps_some h (inside_index h hplay hlt hproper)).move (by omega) (by omega)
    · exact keeps_none h
  | readFrame frame chan =>
    rw [AudioBuffer.perform, AudioBuffer.readFrame]
    split
    · next hlt =>
      rw [Int64.lt_iff_toInt_lt] at hlt
      exact (keeps_some h (inside_index h hproper.1 hlt hproper.2)).move hproper.1 hlt.le
    · exact keeps_none h
  | readLooped chan =>
    have hlt := h.playhead_lt hok
    have hnext := toInt_add_one hplay hlt
    have hmod := @below_mod _ _ (ab.playhead + 1) h (by omega)
    exact (keeps_some h (inside_index h hplay hlt hproper)).move hmod.1 hmod.2.le
  | readLoopedFrame frame chan =>
    have hne : frame.toInt ≠ ab.frames.toInt := fun heq => hok (Int64.toInt_inj.mp heq)
    have hmod := below_mod h hproper.1
    rw [AudioBuffer.perform, AudioBuffer.readLoopedFrame]
    refine Keeps.move ?_ hmod.1 hmod.2.le
    split
    · exact keeps_none h
    · next hle =>
      rw [Int64.lt_iff_toInt_lt] at hle
      exact keeps_some h (inside_index h hproper.1 (by omega) hproper.2)
  | ptr frame chan =>
    have hneg : ¬ frame < 0 := by
      rw [Int64.lt_iff_toInt_lt, Int64.toInt_zero]
      exact not_lt.mpr hproper.1
    have hmod := below_mod h hproper.1
    rw [AudioBuffer.perform, AudioBuffer.ptr, if_neg hneg]
    refine keeps_some h ?_
    split
    · next hlt => exact inside_index h hproper.1 (Int64.lt_iff_toInt_lt.mp hlt) hproper.2
    · exact inside_index h hmod.1 hmod.2 hproper.2

/-- No call changes the size of the buffer. -/
theorem size_perform (ab : AudioBuffer α) (call : Call) :
    (ab.perform call).2.frames = ab.frames ∧ (ab.perform call).2.channels = ab.channels := by
  cases call with
  | peek chan => exact ⟨rfl, rfl⟩
  | peekLooped chan => exact ⟨rfl, rfl⟩
  | ptr frame chan => exact ⟨rfl, rfl⟩
  | seek seekTo =>
    rw [AudioBuffer.perform, AudioBuffer.seek]
    split <;> exact ⟨rfl, rfl⟩
  | read chan =>
    simp only [AudioBuffer.perform, AudioBuffer.read]
    split_ifs <;> exact ⟨rfl, rfl⟩
  | readFrame frame chan =>
    simp only [AudioBuffer.perform, AudioBuffer.readFrame]
    split_ifs <;> exact ⟨rfl, rfl⟩
  | readLooped chan =>
    simp only [AudioBuffer.perform, AudioBuffer.readLooped]
    split <;> exact ⟨rfl, rfl⟩
  | readLoopedFrame frame chan =>
    simp only [AudioBuffer.perform, AudioBuffer.readLoopedFrame]
    split <;> exact ⟨rfl, rfl⟩

/-- The other calls read behind the end. -/
theorem outside_of_not_allowed (h : ab.Sound) (hproper : call.Proper ab.channels)
    (hnot : ¬ ab.Allowed call) : ∃ i ∈ (ab.perform call).1, ¬ ab.Inside i := by
  cases call with
  | readLooped chan =>
    refine ⟨ab.index ab.playhead chan, rfl, ?_⟩
    rw [not_not.mp hnot]
    exact not_inside_end h hproper
  | readLoopedFrame frame chan =>
    refine ⟨ab.index frame chan, ?_, ?_⟩
    · rw [AudioBuffer.perform, AudioBuffer.readLoopedFrame, not_not.mp hnot,
        if_neg (by rw [Int64.lt_iff_toInt_lt]; exact lt_irrefl _)]
      rfl
    · rw [not_not.mp hnot]
      exact not_inside_end h hproper.2
  | _ => exact absurd trivial hnot

end Calls

/-! ## Whole runs -/

def AudioBuffer.start (ab : AudioBuffer α) : Session α := ⟨ab, []⟩

def Session.Inside (s : Session α) : Prop := ∀ i ∈ s.touched, s.buffer.Inside i

def Session.Allowed {channels : Int64} (s : Session α) (call : ProperCall channels) : Prop :=
  s.buffer.Allowed call.1

/-- What allowed calls maintain. -/
structure Session.Ready (channels : Int64) (s : Session α) : Prop where
  sound : s.buffer.Sound
  channels : s.buffer.channels = channels
  inside : s.Inside

theorem Session.Ready.proper {channels : Int64} {s : Session α} (h : s.Ready channels)
    (call : ProperCall channels) : call.1.Proper s.buffer.channels := by
  rw [h.channels]
  exact call.2

theorem ready_start (h : ab.Sound) : ab.start.Ready ab.channels where
  sound := h
  channels := rfl
  inside := by
    intro i hi
    cases hi

section Runs

variable [Zero α] {channels : Int64} {s s' : Session α} {call : ProperCall channels}

theorem Session.Ready.step (h : s.Ready channels) (hok : s.Allowed call)
    (hstep : s.step call = some s') : s'.Ready channels := by
  cases hstep
  have hproper := h.proper call
  have hkeeps := keeps_perform h.sound hproper hok
  have hsize := size_perform s.buffer call.1
  refine ⟨hkeeps.sound, hsize.2.trans h.channels, ?_⟩
  intro i hi
  have hinside : s.buffer.Inside i := by
    rcases List.mem_append.mp hi with hold | hnew
    · exact h.inside i hold
    · exact hkeeps.inside i (Option.mem_toList.mp hnew)
  rw [AudioBuffer.Inside, hsize.1, hsize.2]
  exact hinside

/-- A call that is not allowed leaves an index that is outside. -/
theorem Session.Ready.allowed (h : s.Ready channels) (hstep : s.step call = some s')
    (hinside : s'.Inside) : s.Allowed call := by
  cases hstep
  by_contra hnot
  have hproper := h.proper call
  rcases outside_of_not_allowed h.sound hproper hnot with ⟨i, hi, hout⟩
  have hmem := hinside i (List.mem_append_right _ (Option.mem_toList.mpr hi))
  have hsize := size_perform s.buffer call.1
  rw [AudioBuffer.Inside, hsize.1, hsize.2] at hmem
  exact hout hmem

theorem exists_run (s : Session α) (calls : List (ProperCall channels)) :
    ∃ s', run Session.step s calls = some s' := by
  induction calls generalizing s with
  | nil => exact ⟨s, rfl⟩
  | cons call calls ih => exact ih _

/-- All indices of a run are inside just where every call of it is allowed. -/
theorem always_inside_iff (h : s.Ready channels) (calls : List (ProperCall channels)) :
    Always Session.Inside Session.step s calls ↔ Meets Session.Allowed Session.step s calls := by
  rcases exists_run s calls with ⟨s', hrun⟩
  exact always_iff_meets (J := Session.Ready channels) (fun s hs => hs.inside)
    (fun s call s' hs hstep hinside => hs.allowed hstep hinside)
    (fun s call s' hs hok hstep => hs.step hok hstep) h hrun

end Runs

/-! ## All channels at one playhead -/

inductive Reader where
  | read
  | readLooped

/-- The channel numbers from zero on. -/
def AudioBuffer.chans (ab : AudioBuffer α) : List Int64 :=
  (List.range ab.channels.toInt.toNat).map Int64.ofNat

theorem toInt_ofNat {k : ℕ} {n : Int64} (hlt : k < n.toInt.toNat) : (Int64.ofNat k).toInt = k := by
  have hhigh := n.toInt_lt
  exact Int64.toInt_ofNat_of_lt (by omega)

theorem exists_chans (h : ab.Sound) :
    ∃ rest, ab.chans = 0 :: rest ∧ ∀ chan, chan ∈ rest ↔ Below ab.channels chan ∧ chan ≠ 0 := by
  have hpos := h.channels_pos
  rcases Nat.exists_eq_add_one_of_ne_zero (show ab.channels.toInt.toNat ≠ 0 by omega) with ⟨m, hm⟩
  refine ⟨(List.range m).map fun k => Int64.ofNat (k + 1), ?_, ?_⟩
  · rw [AudioBuffer.chans, hm, List.range_succ_eq_map, List.map_cons, List.map_map]
    rfl
  · intro chan
    rw [List.mem_map, Below, Ne, ← Int64.toInt_inj, Int64.toInt_zero]
    constructor
    · rintro ⟨k, hk, rfl⟩
      rw [List.mem_range] at hk
      rw [toInt_ofNat (show k + 1 < ab.channels.toInt.toNat by omega)]
      omega
    · rintro ⟨⟨hzero, hlt⟩, hne⟩
      refine ⟨chan.toInt.toNat - 1, List.mem_range.mpr (by omega), ?_⟩
      have hsucc : chan.toInt.toNat - 1 + 1 = chan.toInt.toNat := by omega
      rw [hsucc, ← Int64.toInt_inj, toInt_ofNat (n := ab.channels) (by omega)]
      omega

section Rounds

variable [Zero α] {reader : Reader}

def AudioBuffer.readBy (ab : AudioBuffer α) : Reader → Int64 → Reading α × AudioBuffer α
  | .read => ab.read
  | .readLooped => ab.readLooped

/-- Reading channels in order. -/
def readAll (reader : Reader) : AudioBuffer α → List Int64 → List (Reading α)
  | _, [] => []
  | ab, chan :: chans => (ab.readBy reader chan).1 :: readAll reader (ab.readBy reader chan).2 chans

/-- The sample of a frame, or the silence behind the last frame. -/
def AudioBuffer.sampleAt (ab : AudioBuffer α) (frame chan : Int64) : Reading α :=
  if frame < ab.frames then ab.pref (ab.index frame chan) else silence

/-- Reading all channels gives the samples of one frame. -/
def AudioBuffer.YieldsFrame (ab : AudioBuffer α) (reader : Reader) : Prop :=
  ∃ frame : Int64, 0 ≤ frame.toInt ∧ readAll reader ab ab.chans = ab.chans.map (ab.sampleAt frame)

/-- Where one frame is read: only a buffer of one channel, or one frame that is looped, has no
channel behind the advance of the playhead. -/
def AudioBuffer.OneFrame (ab : AudioBuffer α) : Reader → Prop
  | .read => ab.channels = 1 ∨ ab.playhead = ab.frames
  | .readLooped => ab.playhead ≠ ab.frames ∧ (ab.channels = 1 ∨ ab.frames = 1)

theorem readBy_of_ne_zero (hchan : chan ≠ 0) : (ab.readBy reader chan).2 = ab := by
  cases reader with
  | read =>
    rw [AudioBuffer.readBy, AudioBuffer.read, if_neg hchan]
    split <;> rfl
  | readLooped =>
    rw [AudioBuffer.readBy, AudioBuffer.readLooped, if_neg hchan]

theorem readAll_of_ne_zero {chans : List Int64} (h : ∀ chan ∈ chans, chan ≠ 0) :
    readAll reader ab chans = chans.map fun chan => (ab.readBy reader chan).1 := by
  induction chans with
  | nil => rfl
  | cons chan chans ih =>
    rw [readAll, readBy_of_ne_zero (h chan List.mem_cons_self),
      ih fun chan hmem => h chan (List.mem_cons_of_mem _ hmem), List.map_cons]

/-- The samples of one channel at two frames are the same one, or both behind the end. -/
theorem sampleAt_eq_iff (h : ab.Sound) {frame' : Int64} (hframe : 0 ≤ frame.toInt)
    (hframe' : 0 ≤ frame'.toInt) (hchan : Below ab.channels chan) :
    ab.sampleAt frame chan = ab.sampleAt frame' chan ↔
      frame = frame' ∨ ¬ frame < ab.frames ∧ ¬ frame' < ab.frames := by
  rw [AudioBuffer.sampleAt, AudioBuffer.sampleAt]
  by_cases hlt : frame < ab.frames
  · by_cases hlt' : frame' < ab.frames
    · rw [if_pos hlt, if_pos hlt', or_iff_left fun hend => hend.1 hlt]
      constructor
      · intro heq
        have hindex := Option.some.inj (congrArg Reading.index heq)
        rw [Int64.lt_iff_toInt_lt] at hlt hlt'
        rw [← Int64.toInt_inj, toInt_index h hframe hlt hchan, toInt_index h hframe' hlt' hchan,
          Int.add_left_inj] at hindex
        exact Int64.toInt_inj.mp (Int.eq_of_mul_eq_mul_right h.channels_pos.ne' hindex)
      · intro heq
        rw [heq]
    · rw [if_pos hlt, if_neg hlt', or_iff_left fun hend => hend.1 hlt]
      refine iff_of_false (fun heq => ?_) fun heq => hlt' (heq ▸ hlt)
      cases congrArg Reading.index heq
  · by_cases hlt' : frame' < ab.frames
    · rw [if_neg hlt, if_pos hlt', or_iff_left fun hend => hend.2 hlt']
      refine iff_of_false (fun heq => ?_) fun heq => hlt (heq ▸ hlt')
      cases congrArg Reading.index heq
    · rw [if_neg hlt, if_neg hlt']
      exact iff_of_true rfl (Or.inr ⟨hlt, hlt'⟩)

/-- The playhead leads to a sample or, for `read`, to the silence at the end. -/
def AudioBuffer.Reads (ab : AudioBuffer α) (reader : Reader) : Prop :=
  reader = .read ∨ ab.playhead ≠ ab.frames

theorem readBy_eq (h : ab.Sound) (hreads : ab.Reads reader) (chan : Int64) :
    (ab.readBy reader chan).1 = ab.sampleAt ab.playhead chan := by
  cases reader with
  | read =>
    rw [AudioBuffer.readBy, AudioBuffer.read, AudioBuffer.sampleAt]
    split <;> rfl
  | readLooped =>
    rcases hreads with hread | hne
    · cases hread
    · have hlt : ab.playhead < ab.frames := Int64.lt_iff_toInt_lt.mpr (h.playhead_lt hne)
      rw [AudioBuffer.sampleAt, if_pos hlt]
      rfl

/-- The playhead that channel zero leaves behind. -/
def AudioBuffer.nextPlayhead (ab : AudioBuffer α) (reader : Reader) : Int64 :=
  (ab.readBy reader 0).2.playhead

theorem readBy_zero (ab : AudioBuffer α) (reader : Reader) :
    (ab.readBy reader 0).2 = ab.setPlayhead (ab.nextPlayhead reader) := by
  cases reader with
  | read =>
    rw [AudioBuffer.nextPlayhead, AudioBuffer.readBy, AudioBuffer.read, if_pos rfl]
    split <;> rfl
  | readLooped => rfl

theorem nextPlayhead_sound (h : ab.Sound) (hreads : ab.Reads reader) :
    (ab.setPlayhead (ab.nextPlayhead reader)).Sound ∧
      (ab.setPlayhead (ab.nextPlayhead reader)).Reads reader := by
  have hzero := below_zero h
  rw [← readBy_zero]
  cases reader with
  | read =>
    have hkeeps := @keeps_perform _ _ _ (.read 0) h hzero trivial
    exact ⟨hkeeps.sound, Or.inl rfl⟩
  | readLooped =>
    rcases hreads with hread | hne
    · cases hread
    · have hkeeps := @keeps_perform _ _ _ (.readLooped 0) h hzero hne
      refine ⟨hkeeps.sound, Or.inr ?_⟩
      have hplay := h.playhead_nonneg
      have hnext := toInt_add_one hplay (h.playhead_lt hne)
      have hmod := @below_mod _ _ (ab.playhead + 1) h (by omega)
      intro heq
      exact hmod.2.ne (congrArg Int64.toInt heq)

/-- One frame is read just if channel zero leaves the playhead where it is, or no channel comes
behind it. -/
theorem yieldsFrame_iff_next (h : ab.Sound) (hreads : ab.Reads reader) :
    ab.YieldsFrame reader ↔ ab.channels = 1 ∨ ab.playhead = ab.nextPlayhead reader ∨
      ¬ ab.playhead < ab.frames ∧ ¬ ab.nextPlayhead reader < ab.frames := by
  have hplay := h.playhead_nonneg
  rcases nextPlayhead_sound h hreads with ⟨hnext, hreads'⟩
  have hnext' : 0 ≤ (ab.nextPlayhead reader).toInt := hnext.playhead_nonneg
  rcases exists_chans h with ⟨rest, hchans, hrest⟩
  have hpos := h.channels_pos
  have hzero := below_zero h
  have hround : ∀ frame, readAll reader ab ab.chans = ab.chans.map (ab.sampleAt frame) ↔
      ab.sampleAt ab.playhead 0 = ab.sampleAt frame 0 ∧
        ∀ chan ∈ rest, ab.sampleAt (ab.nextPlayhead reader) chan = ab.sampleAt frame chan := by
    intro frame
    rw [hchans, readAll, readAll_of_ne_zero fun chan hmem => ((hrest chan).mp hmem).2, readBy_zero,
      readBy_eq h hreads, List.map_cons, List.cons_eq_cons, List.map_inj_left]
    refine and_congr_right fun _ => forall_congr' fun chan => imp_congr_right fun _ => ?_
    rw [readBy_eq hnext hreads']
    rfl
  constructor
  · rintro ⟨frame, hframe, hall⟩
    rw [hround, sampleAt_eq_iff h hplay hframe hzero] at hall
    by_cases hone : ab.channels = 1
    · exact Or.inl hone
    · refine Or.inr ?_
      have hbelow : Below ab.channels 1 := by
        rw [← Int64.toInt_inj, Int64.toInt_one] at hone
        rw [Below, Int64.toInt_one]
        omega
      have hsecond := hall.2 1 ((hrest 1).mpr ⟨hbelow, by decide⟩)
      rw [sampleAt_eq_iff h hnext' hframe hbelow] at hsecond
      rcases hall.1 with rfl | hend
      · rcases hsecond with heq | hend
        · exact Or.inl heq.symm
        · exact Or.inr hend.symm
      · rcases hsecond with rfl | hend'
        · exact Or.inr hend
        · exact Or.inr ⟨hend.1, hend'.1⟩
  · intro hcond
    refine ⟨ab.playhead, hplay, (hround ab.playhead).mpr ⟨rfl, ?_⟩⟩
    intro chan hmem
    rcases (hrest chan).mp hmem with ⟨hbelow, hne⟩
    rw [sampleAt_eq_iff h hnext' hplay hbelow]
    rcases hcond with hone | heq | hend
    · rw [Below, hone, Int64.toInt_one] at hbelow
      rw [Ne, ← Int64.toInt_inj, Int64.toInt_zero] at hne
      omega
    · exact Or.inl heq.symm
    · exact Or.inr hend.symm

theorem yieldsFrame_read_iff (h : ab.Sound) : ab.YieldsFrame .read ↔ ab.OneFrame .read := by
  have hplay := h.playhead_nonneg
  have hle := h.playhead_le
  rw [yieldsFrame_iff_next h (Or.inl rfl), AudioBuffer.OneFrame, AudioBuffer.nextPlayhead,
    AudioBuffer.readBy, AudioBuffer.read, if_pos rfl]
  refine or_congr_right ?_
  rw [← Int64.toInt_inj (y := ab.frames)]
  by_cases hlt : ab.playhead < ab.frames
  · rw [if_pos hlt, or_iff_left fun hend => hend.1 hlt, ← Int64.toInt_inj]
    rw [Int64.lt_iff_toInt_lt] at hlt
    have hnext := toInt_add_one hplay hlt
    dsimp only [AudioBuffer.setPlayhead]
    omega
  · rw [if_neg hlt]
    rw [Int64.lt_iff_toInt_lt] at hlt
    exact iff_of_true (Or.inl rfl) (by omega)

theorem yieldsFrame_readLooped_iff (h : ab.Sound) :
    ab.YieldsFrame .readLooped ↔ ab.OneFrame .readLooped := by
  rw [AudioBuffer.OneFrame]
  by_cases hend : ab.playhead = ab.frames
  · refine iff_of_false ?_ fun hone => hone.1 hend
    rintro ⟨frame, hframe, hall⟩
    rcases exists_chans h with ⟨rest, hchans, -⟩
    have hzero := below_zero h
    rw [hchans, readAll, List.map_cons, List.cons_eq_cons] at hall
    -- the first sample is outside, and those of a frame are inside
    have hfirst := congrArg Reading.index hall.1
    rw [AudioBuffer.sampleAt] at hfirst
    split at hfirst
    · next hlt =>
      rw [Int64.lt_iff_toInt_lt] at hlt
      have hsame : ab.index ab.playhead 0 = ab.index frame 0 := Option.some.inj hfirst
      rw [hend] at hsame
      exact not_inside_end h hzero (hsame ▸ inside_index h hframe hlt hzero)
    · cases hfirst
  · have hlt := h.playhead_lt hend
    rw [yieldsFrame_iff_next h (Or.inr hend), and_iff_right hend]
    refine or_congr_right ?_
    rw [or_iff_left fun hnot => hnot.1 (Int64.lt_iff_toInt_lt.mpr hlt)]
    exact eq_next_iff h hlt

theorem yieldsFrame_iff (h : ab.Sound) (reader : Reader) :
    ab.YieldsFrame reader ↔ ab.OneFrame reader := by
  cases reader with
  | read => exact yieldsFrame_read_iff h
  | readLooped => exact yieldsFrame_readLooped_iff h

end Rounds

/-! ## What is promised -/

variable [Zero α]

/-- All indices of a run are inside, and reading all channels at its end gives one frame. -/
structure Promised (ab : AudioBuffer α) (calls : List (ProperCall ab.channels))
    (reader : Reader) : Prop where
  inside : Always Session.Inside Session.step ab.start calls
  oneFrame : ∀ s, run Session.step ab.start calls = some s → s.buffer.YieldsFrame reader

/-- No `read_looped` at the end of the buffer, and behind the run a buffer whose channels are read
before the playhead moves. -/
structure Harmless (ab : AudioBuffer α) (calls : List (ProperCall ab.channels))
    (reader : Reader) : Prop where
  allowed : Meets Session.Allowed Session.step ab.start calls
  oneFrame : ∀ s, run Session.step ab.start calls = some s → s.buffer.OneFrame reader

/-- The promise is kept by the harmless runs and by no other. -/
theorem promised_iff (h : ab.Sound) (calls : List (ProperCall ab.channels)) (reader : Reader) :
    Promised ab calls reader ↔ Harmless ab calls reader := by
  have hinside := always_inside_iff (ready_start h) calls
  have hready : Meets Session.Allowed Session.step ab.start calls →
      ∀ s, run Session.step ab.start calls = some s → s.Ready ab.channels := by
    intro hallowed s hrun
    exact run_invariant (I := Session.Ready ab.channels)
      (fun s call s' hs hok hstep => hs.step hok hstep) (ready_start h) hallowed hrun
  constructor
  · intro hpromised
    have hallowed := hinside.mp hpromised.inside
    refine ⟨hallowed, fun s hrun => ?_⟩
    have hsound := (hready hallowed s hrun).sound
    exact (yieldsFrame_iff hsound reader).mp (hpromised.oneFrame s hrun)
  · intro hharmless
    refine ⟨hinside.mpr hharmless.allowed, fun s hrun => ?_⟩
    have hsound := (hready hharmless.allowed s hrun).sound
    exact (yieldsFrame_iff hsound reader).mpr (hharmless.oneFrame s hrun)

def mono : AudioBuffer Int64 where
  playhead := 0
  frames := 4
  channels := 1
  data := id

theorem mono_sound : mono.Sound := by
  constructor <;> decide

theorem promised_mono : ∃ calls : List (ProperCall mono.channels),
    calls.length = 3 ∧ Promised mono calls .readLooped := by
  refine ⟨[⟨.seek 3, trivial⟩, ⟨.readLooped 0, by decide⟩, ⟨.ptr 9 0, by decide⟩], rfl, ?_⟩
  refine (promised_iff mono_sound _ _).mpr ⟨?_, ?_⟩
  · refine meets_cons rfl trivial (meets_cons rfl ?_ (meets_cons rfl trivial trivial))
    exact (by decide : (3 : Int64) ≠ 4)
  · rintro s ⟨⟩
    exact ⟨(by decide : (0 : Int64) ≠ 4), Or.inl rfl⟩

def stereo : AudioBuffer Int64 where
  playhead := 0
  frames := 2
  channels := 2
  data := id

theorem stereo_sound : stereo.Sound := by
  constructor <;> decide

/-- `read_looped` behind a `seek` to the end, and the second channel of the first frame. -/
theorem not_promised : (∃ calls, ¬ Promised mono calls .readLooped) ∧ ¬ Promised stereo [] .read := by
  constructor
  · refine ⟨[⟨.seek 4, trivial⟩, ⟨.readLooped 0, by decide⟩], fun h => ?_⟩
    have hallowed := (always_inside_iff (ready_start mono_sound) _).mp h.inside
    exact (hallowed.2 _ rfl).1 rfl
  · intro h
    rcases (yieldsFrame_iff stereo_sound .read).mp (h.oneFrame _ rfl) with hone | hend
    · exact absurd hone (by decide)
    · exact absurd hend (by decide)

end Extempore.AudioBuffers
