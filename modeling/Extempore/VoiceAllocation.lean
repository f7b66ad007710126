import Mathlib.Data.Finset.Card
import Mathlib.Data.Finset.Range
import Mathlib.Data.List.Basic
import Mathlib.Tactic.IntervalCases
import Mathlib.Tactic.Linarith

/-!
# The voices of an instrument

`new_note` gives a note to an inactive voice, or takes the voice with the least start time away from
its note. A voice that is taken away keeps the start time of its first note, so that it is the next
one to be taken away again.
-/

namespace Extempore.VoiceAllocation

variable {S : Type}

/-- `NoteData`, with the samples `S` and without its zone. -/
structure NoteData (S : Type) where
  idx : ℕ
  starttime : ℤ
  frequency : S
  amplitude : S
  duration : ℤ
  gate : S
  active : Bool
  restarttime : ℤ

/-- The arguments of `new_note` that go into the data. -/
structure Call (S : Type) where
  start : ℤ
  freq : S
  dur : ℤ
  amp : S

/-- The arrays of `make_instrument`. Of a kernel only the voice is kept whose data it reads, `none`
is the null pointer. -/
structure Instrument (S : Type) where
  notes : List (NoteData S)
  kernels : List (Option ℕ)

/-- The loop of `instrument_find_note`; `none` is a read outside of the array. -/
def findLoop (notes : List (NoteData S)) (lgth i idx : ℕ) (old : ℤ) : Option ℕ :=
  match h : notes[i]? with
  | none => none
  | some note =>
    let idx' := if note.starttime < old then i else idx
    let old' := if note.starttime < old then note.starttime else old
    if ¬note.active then some i
    else if i + 1 = lgth then some idx'
    else findLoop notes lgth (i + 1) idx' old'
termination_by notes.length - i
decreasing_by
  have := (List.getElem?_eq_some_iff.mp h).1
  omega

def instrumentFindNote (notes : List (NoteData S)) (lgth : ℕ) : Option ℕ := do
  let first ← notes[0]?
  findLoop notes lgth 0 0 first.starttime

variable [Zero S] [One S]

/-- `new_note`: the voice, and the instrument after it. -/
def newNote (inst : Instrument S) (call : Call S) : Option (ℕ × Instrument S) := do
  let i ← instrumentFindNote inst.notes inst.notes.length
  let note ← inst.notes[i]?
  let kernel ← inst.kernels[note.idx]?
  if note.active then
    if kernel = none then none
    else
      let note' := { note with
        frequency := call.freq, amplitude := call.amp, duration := call.dur, gate := 1,
        restarttime := call.start }
      return (i, ⟨inst.notes.set i note', inst.kernels.set note.idx (some i)⟩)
  else
    let note' := NoteData.mk note.idx call.start call.freq call.amp call.dur 1 true call.start
    return (i, ⟨inst.notes.set i note', inst.kernels.set note.idx (some i)⟩)

/-- `make_instrument` with `poly` voices. -/
def makeInstrument (poly : ℕ) : Instrument S where
  notes := (List.range poly).map fun i => ⟨i, 0, 0, 0, 0, 1, false, 0⟩
  kernels := List.replicate poly none

/-- A call of `new_note`, a voice that becomes inactive, or one that is released. -/
inductive Event (S : Type) where
  | newNote (call : Call S)
  | stop (v : ℕ)
  | release (v : ℕ)

/-- A note in the order of the calls: its voice, and whether the voice was inactive. -/
structure Entry (S : Type) where
  voice : ℕ
  fresh : Bool
  call : Call S

/-- An instrument and the notes that it was given, the latest first. -/
structure Session (S : Type) where
  inst : Instrument S
  log : List (Entry S)

def activeOf (notes : List (NoteData S)) (v : ℕ) : Bool :=
  (notes[v]?.map NoteData.active).getD false

def startOf (notes : List (NoteData S)) (v : ℕ) : ℤ :=
  (notes[v]?.map NoteData.starttime).getD 0

def Session.step (s : Session S) : Event S → Option (Session S)
  | .newNote call => do
    let (v, inst) ← newNote s.inst call
    return ⟨inst, ⟨v, !activeOf s.inst.notes v, call⟩ :: s.log⟩
  | .stop v => some { s with
      inst := { s.inst with notes := s.inst.notes.modify v fun note => { note with active := false } } }
  | .release v => some { s with
      inst := { s.inst with notes := s.inst.notes.modify v fun note => { note with gate := 0 } } }

def Session.run : Session S → List (Event S) → Option (Session S)
  | s, [] => some s
  | s, e :: es => (s.step e).bind fun s => s.run es

/-- A new instrument with `poly` voices. -/
def Session.initial (poly : ℕ) : Session S :=
  ⟨makeInstrument poly, []⟩

omit [Zero S] [One S] in
/-- The scan comes to `v` before `w` when it looks for the least start time. -/
def Precedes (notes : List (NoteData S)) (v w : ℕ) : Prop :=
  startOf notes v < startOf notes w ∨ startOf notes v = startOf notes w ∧ v < w

section Fields

omit [Zero S] [One S]

variable {notes : List (NoteData S)} {note : NoteData S} {i v w : ℕ}

theorem startOf_eq (h : notes[v]? = some note) : startOf notes v = note.starttime := by
  rw [startOf, h]
  rfl

theorem activeOf_eq (h : notes[v]? = some note) : activeOf notes v = note.active := by
  rw [activeOf, h]
  rfl

theorem startOf_set (hi : i < notes.length) :
    startOf (notes.set i note) w = if w = i then note.starttime else startOf notes w := by
  unfold startOf
  split
  next h => rw [h, List.getElem?_set_self hi]; rfl
  next h => rw [List.getElem?_set_ne (Ne.symm h)]

theorem activeOf_set (hi : i < notes.length) :
    activeOf (notes.set i note) w = if w = i then note.active else activeOf notes w := by
  unfold activeOf
  split
  next h => rw [h, List.getElem?_set_self hi]; rfl
  next h => rw [List.getElem?_set_ne (Ne.symm h)]

theorem startOf_modify {f : NoteData S → NoteData S} (hf : ∀ n, (f n).starttime = n.starttime) :
    startOf (notes.modify v f) w = startOf notes w := by
  rw [startOf, startOf, List.getElem?_modify]
  cases notes[w]? with
  | none => rfl
  | some n =>
    by_cases hv : v = w
    · simp [hv, hf]
    · simp [hv]

theorem activeOf_of_modify {f : NoteData S → NoteData S}
    (hf : ∀ n, (f n).active = true → n.active = true)
    (h : activeOf (notes.modify v f) w = true) : activeOf notes w = true := by
  rw [activeOf, List.getElem?_modify] at h
  rw [activeOf]
  cases hn : notes[w]? with
  | none => simp [hn] at h
  | some n =>
    by_cases hv : v = w
    · simp only [hn, hv, if_true, Option.map_some, Option.getD_some] at h ⊢
      exact hf n h
    · simpa [hn, hv] using h

theorem Precedes.asymm (h : Precedes notes v w) : ¬Precedes notes w v := by
  unfold Precedes at *
  omega

end Fields

section FindNote

omit [Zero S] [One S]

variable {notes : List (NoteData S)}

/-- All the voices are active. -/
def Full (notes : List (NoteData S)) : Prop :=
  ∀ w < notes.length, activeOf notes w = true

/-- `v` has the least start time, and the least index among these. -/
def First (notes : List (NoteData S)) (v : ℕ) : Prop :=
  ∀ w < notes.length, w ≠ v → Precedes notes v w

theorem First.unique {v w : ℕ} (hv : v < notes.length) (hw : w < notes.length)
    (h : First notes v) (h' : First notes w) : v = w := by
  by_contra hne
  exact (h w hw (Ne.symm hne)).asymm (h' v hv hne)

/-- What the scan finds: an inactive voice, or the first one of all. -/
structure Found (notes : List (NoteData S)) (v : ℕ) : Prop where
  inside : v < notes.length
  choice : activeOf notes v = false ∨ Full notes ∧ First notes v

/-- What is known before the voice `i` is looked at: `idx` is the first one so far. -/
structure Scanned (notes : List (NoteData S)) (i idx : ℕ) (old : ℤ) : Prop where
  idx_le : idx ≤ i
  start : old = startOf notes idx
  active : ∀ w < i, activeOf notes w = true
  first : ∀ w < i, w ≠ idx → Precedes notes idx w

theorem Scanned.step {i idx : ℕ} {old : ℤ} {note : NoteData S} (h : Scanned notes i idx old)
    (hnote : notes[i]? = some note) (hactive : note.active = true) :
    Scanned notes (i + 1) (if note.starttime < old then i else idx)
      (if note.starttime < old then note.starttime else old) ∧
      ((if note.starttime < old then i else idx) < i + 1) := by
  have hstart := startOf_eq hnote
  have hle := h.idx_le
  have hall : ∀ w < i + 1, activeOf notes w = true := by
    intro w hw
    rcases Nat.lt_succ_iff_lt_or_eq.mp hw with hw | rfl
    · exact h.active w hw
    · rw [activeOf_eq hnote, hactive]
  by_cases hlt : note.starttime < old
  · rw [if_pos hlt, if_pos hlt]
    refine ⟨⟨by omega, hstart.symm, hall, fun w hw hne => ?_⟩, by omega⟩
    left
    rw [hstart]
    by_cases hidx : w = idx
    · rw [hidx, ← h.start]
      exact hlt
    · have := h.first w (by omega) hidx
      have := h.start
      unfold Precedes at *
      omega
  · rw [if_neg hlt, if_neg hlt]
    refine ⟨⟨by omega, h.start, hall, fun w hw hne => ?_⟩, by omega⟩
    rcases Nat.lt_succ_iff_lt_or_eq.mp hw with hw | rfl
    · exact h.first w hw hne
    · have := h.start
      unfold Precedes
      omega

theorem findLoop_spec {i idx : ℕ} {old : ℤ} (hi : i < notes.length)
    (h : Scanned notes i idx old) :
    ∃ v, findLoop notes notes.length i idx old = some v ∧ Found notes v := by
  generalize hn : notes.length - i = n
  induction n generalizing i idx old with
  | zero => omega
  | succ n ih =>
    have hnote := List.getElem?_eq_getElem hi
    rw [findLoop]
    split
    next hnone =>
      rw [hnone] at hnote
      cases hnote
    next note hsome =>
      by_cases hactive : note.active = true
      · obtain ⟨hscanned, hlt⟩ := h.step hsome hactive
        simp only [hactive, not_true_eq_false, if_false]
        split
        next hlast =>
          refine ⟨_, rfl, by omega, .inr ⟨?_, ?_⟩⟩
          · intro w hw
            exact hscanned.active w (by omega)
          · intro w hw
            exact hscanned.first w (by omega)
        next hmore => exact ih (by omega) hscanned (by omega)
      · simp only [hactive, Bool.false_eq_true, not_false_eq_true, if_true]
        refine ⟨i, rfl, hi, .inl ?_⟩
        rw [activeOf_eq hsome]
        simpa using hactive

theorem instrumentFindNote_spec (h : 0 < notes.length) :
    ∃ v, instrumentFindNote notes notes.length = some v ∧ Found notes v := by
  have hfirst := List.getElem?_eq_getElem h
  rw [instrumentFindNote, hfirst]
  apply findLoop_spec h
  exact ⟨Nat.le_refl 0, (startOf_eq hfirst).symm, fun w hw => by omega, fun w hw => by omega⟩

end FindNote

section Log

omit [Zero S] [One S]

variable {log : List (Entry S)} {e : Entry S} {v : ℕ}

/-- The number of notes since the last one of the voice `v`. -/
def age (log : List (Entry S)) (v : ℕ) : ℕ :=
  log.findIdx fun e => decide (e.voice = v)

/-- The number of notes since the voice `v` was last started from inactivity. -/
def startAge (log : List (Entry S)) (v : ℕ) : ℕ :=
  log.findIdx fun e => decide (e.voice = v) && e.fresh

/-- The last note of the voice `v`. -/
def latest (log : List (Entry S)) (v : ℕ) : Option (Entry S) :=
  log.find? fun e => decide (e.voice = v)

def Started (log : List (Entry S)) (v : ℕ) : Prop :=
  ∃ e ∈ log, e.voice = v ∧ e.fresh = true

theorem age_cons_self : age (e :: log) e.voice = 0 := by
  simp [age, List.findIdx_cons]

theorem age_cons_of_ne (h : e.voice ≠ v) : age (e :: log) v = age log v + 1 := by
  simp [age, List.findIdx_cons, h]

theorem startAge_cons_of_fresh (h : e.fresh = true) : startAge (e :: log) e.voice = 0 := by
  simp [startAge, List.findIdx_cons, h]

theorem startAge_cons_of_ne (h : e.voice ≠ v) : startAge (e :: log) v = startAge log v + 1 := by
  simp [startAge, List.findIdx_cons, h]

theorem latest_cons_self : latest (e :: log) e.voice = some e := by
  simp [latest]

theorem latest_cons_of_ne (h : e.voice ≠ v) : latest (e :: log) v = latest log v := by
  simp [latest, h]

theorem Started.cons (h : Started log v) : Started (e :: log) v := by
  obtain ⟨e', he', hv⟩ := h
  exact ⟨e', List.mem_cons_of_mem e he', hv⟩

theorem Started.of_cons (h : Started (e :: log) v) (hne : e.voice ≠ v) : Started log v := by
  obtain ⟨e', he', hv, hfresh⟩ := h
  cases he' with
  | head => exact absurd hv hne
  | tail _ he' => exact ⟨e', he', hv, hfresh⟩

/-- A start is a note. -/
theorem age_le_startAge : age log v ≤ startAge log v := by
  induction log with
  | nil => exact Nat.le_refl 0
  | cons e log ih =>
    by_cases h : e.voice = v
    · rw [← h, age_cons_self]
      exact Nat.zero_le _
    · rw [age_cons_of_ne h, startAge_cons_of_ne h]
      omega

theorem age_lt_length (h : Started log v) : age log v < log.length := by
  obtain ⟨e, he, hv, -⟩ := h
  exact List.findIdx_lt_length_of_exists ⟨e, he, by simpa using hv⟩

/-- Two voices do not have their last notes at one place. -/
theorem age_injective {w : ℕ} (hv : age log v < log.length) (h : age log v = age log w) :
    v = w := by
  induction log with
  | nil => exact absurd hv (Nat.not_lt_zero _)
  | cons e log ih =>
    by_cases hev : e.voice = v
    · by_cases hew : e.voice = w
      · exact hev.symm.trans hew
      · rw [← hev, age_cons_self, age_cons_of_ne hew] at h
        omega
    · by_cases hew : e.voice = w
      · rw [← hew, age_cons_self, age_cons_of_ne hev] at h
        omega
      · rw [age_cons_of_ne hev, age_cons_of_ne hew] at h
        rw [age_cons_of_ne hev, List.length_cons] at hv
        exact ih (by omega) (by omega)

end Log

/-- The data describe the note of the call. -/
structure Describes (note : NoteData S) (call : Call S) : Prop where
  frequency : note.frequency = call.freq
  amplitude : note.amplitude = call.amp
  duration : note.duration = call.dur
  restarttime : note.restarttime = call.start

/-- What holds between two events. -/
structure Inv (p : ℕ) (s : Session S) : Prop where
  notes_length : s.inst.notes.length = p
  kernels_length : s.inst.kernels.length = p
  idx : ∀ v (note : NoteData S), s.inst.notes[v]? = some note → note.idx = v
  started : ∀ v, activeOf s.inst.notes v = true → Started s.log v
  starts : ∀ v, Started s.log v → ∃ e ∈ s.log, e.call.start = startOf s.inst.notes v
  latest : ∀ v e, latest s.log v = some e →
    ∃ note, s.inst.notes[v]? = some note ∧ Describes note e.call ∧
      s.inst.kernels[v]? = some (some v)
  /-- A voice that was taken away since its start is the first one of all. -/
  stolen : ∀ w < p, age s.log w < startAge s.log w →
    ∀ u < p, u ≠ w → Started s.log u ∧ Precedes s.inst.notes w u

section Step

variable {p : ℕ} {s : Session S}

omit [Zero S] [One S] in
theorem exists_latest {log : List (Entry S)} {v : ℕ} (h : Started log v) :
    ∃ e, latest log v = some e := by
  obtain ⟨e, he, hv, -⟩ := h
  exact Option.isSome_iff_exists.mp (List.find?_isSome.mpr ⟨e, he, by simpa using hv⟩)

omit [Zero S] in
/-- What a call of `new_note` does. -/
theorem newNote_spec (h : Inv p s) (hp : 0 < p) (call : Call S) :
    ∃ v note note', Found s.inst.notes v ∧ s.inst.notes[v]? = some note ∧
      newNote s.inst call =
        some (v, ⟨s.inst.notes.set v note', s.inst.kernels.set v (some v)⟩) ∧
      note'.idx = v ∧ Describes note' call ∧ note'.active = true ∧
      note'.starttime = if note.active then note.starttime else call.start := by
  have hlength := h.notes_length
  obtain ⟨v, hfind, hfound⟩ := @instrumentFindNote_spec S s.inst.notes (by omega)
  obtain ⟨note, hnote⟩ : ∃ note, s.inst.notes[v]? = some note :=
    ⟨_, List.getElem?_eq_getElem hfound.inside⟩
  have hidx := h.idx v note hnote
  by_cases hactive : note.active = true
  · obtain ⟨e, he⟩ := exists_latest (h.started v (by rw [activeOf_eq hnote, hactive]))
    obtain ⟨-, -, -, hkernel⟩ := h.latest v e he
    refine ⟨v, note, { note with
      frequency := call.freq, amplitude := call.amp, duration := call.dur, gate := 1,
      restarttime := call.start }, hfound, hnote, ?_, hidx, ⟨rfl, rfl, rfl, rfl⟩, hactive, ?_⟩
    · simp [newNote, hfind, hnote, hidx, hkernel, hactive]
    · rw [if_pos hactive]
  · obtain ⟨kernel, hkernel⟩ : ∃ kernel, s.inst.kernels[v]? = some kernel := by
      refine ⟨_, List.getElem?_eq_getElem ?_⟩
      rw [h.kernels_length, ← h.notes_length]
      exact hfound.inside
    refine ⟨v, note, ⟨note.idx, call.start, call.freq, call.amp, call.dur, 1, true, call.start⟩,
      hfound, hnote, ?_, hidx, ⟨rfl, rfl, rfl, rfl⟩, rfl, ?_⟩
    · simp [newNote, hfind, hnote, hidx, hkernel, hactive]
    · rw [if_neg hactive]

omit [Zero S] [One S] in
/-- After a call a voice that was taken away is still the first one of all. -/
theorem stolen_newNote (h : Inv p s) {call : Call S} {v : ℕ} {note note' : NoteData S}
    (hfound : Found s.inst.notes v) (hnote : s.inst.notes[v]? = some note)
    (hstart : note'.starttime = if note.active then note.starttime else call.start)
    (hmono : ∀ e ∈ s.log, e.call.start ≤ call.start) :
    ∀ w < p, age (⟨v, !activeOf s.inst.notes v, call⟩ :: s.log) w <
        startAge (⟨v, !activeOf s.inst.notes v, call⟩ :: s.log) w →
      ∀ u < p, u ≠ w → Started (⟨v, !activeOf s.inst.notes v, call⟩ :: s.log) u ∧
        Precedes (s.inst.notes.set v note') w u := by
  have hv := hfound.inside
  have hactiveOf : activeOf s.inst.notes v = note.active := activeOf_eq hnote
  have hstartOf : startOf s.inst.notes v = note.starttime := startOf_eq hnote
  intro w hw hage u hu hne
  by_cases hvw : v = w
  · subst hvw
    rcases hfound.choice with hinactive | ⟨hfull, hfirst⟩
    · rw [startAge_cons_of_fresh (by simp [hinactive])] at hage
      omega
    · have hnoteActive : note.active = true := hactiveOf.symm.trans (hfull v hv)
      have hu' : u < s.inst.notes.length := by rwa [h.notes_length]
      refine ⟨(h.started u (hfull u hu')).cons, ?_⟩
      have hprecedes := hfirst u hu' hne
      unfold Precedes at *
      rw [startOf_set hv, startOf_set hv, if_pos rfl, if_neg hne, hstart, if_pos hnoteActive,
        ← hstartOf]
      exact hprecedes
  · rw [age_cons_of_ne hvw, startAge_cons_of_ne hvw] at hage
    obtain ⟨hstarted, hprecedes⟩ := h.stolen w hw (by omega) u hu hne
    refine ⟨hstarted.cons, ?_⟩
    obtain ⟨e, he, heq⟩ := h.starts u hstarted
    have hle := hmono e he
    unfold Precedes at *
    rw [startOf_set hv, startOf_set hv, if_neg (Ne.symm hvw)]
    split
    next huv =>
      subst huv
      rw [hstart]
      split
      · omega
      · omega
    next => exact hprecedes

/-- The state after a call. -/
theorem step_newNote (h : Inv p s) (hp : 0 < p) (call : Call S)
    (hmono : ∀ e ∈ s.log, e.call.start ≤ call.start) :
    ∃ s' e, s.step (.newNote call) = some s' ∧ Inv p s' ∧ s'.log = e :: s.log ∧
      e.call = call := by
  obtain ⟨v, note, note', hfound, hnote, hrun, hidx, hdescribes, hactive, hstart⟩ :=
    newNote_spec h hp call
  have hv := hfound.inside
  have hactiveOf : activeOf s.inst.notes v = note.active := activeOf_eq hnote
  have hstartOf : startOf s.inst.notes v = note.starttime := startOf_eq hnote
  refine ⟨_, _, by rw [Session.step, hrun]; rfl, ?_, rfl, rfl⟩
  constructor
  · rw [List.length_set, h.notes_length]
  · rw [List.length_set, h.kernels_length]
  · intro w n hn
    by_cases hw : v = w
    · subst hw
      rw [List.getElem?_set_self hv] at hn
      cases hn
      exact hidx
    · rw [List.getElem?_set_ne hw] at hn
      exact h.idx w n hn
  · intro w hw
    by_cases hwv : w = v
    · subst hwv
      by_cases hnoteActive : note.active = true
      · exact (h.started w (hactiveOf.trans hnoteActive)).cons
      · exact ⟨_, List.mem_cons_self, rfl, by simpa [hactiveOf] using hnoteActive⟩
    · rw [activeOf_set hv, if_neg hwv] at hw
      exact (h.started w hw).cons
  · intro w hw
    by_cases hwv : w = v
    · subst hwv
      rw [startOf_set hv, if_pos rfl, hstart]
      by_cases hnoteActive : note.active = true
      · obtain ⟨e, he, heq⟩ := h.starts w (h.started w (hactiveOf.trans hnoteActive))
        rw [if_pos hnoteActive, ← hstartOf]
        exact ⟨e, List.mem_cons_of_mem _ he, heq⟩
      · rw [if_neg hnoteActive]
        exact ⟨_, List.mem_cons_self, rfl⟩
    · obtain ⟨e, he, heq⟩ := h.starts w (hw.of_cons (Ne.symm hwv))
      rw [startOf_set hv, if_neg hwv]
      exact ⟨e, List.mem_cons_of_mem _ he, heq⟩
  · intro w e he
    by_cases hvw : v = w
    · subst hvw
      rw [latest_cons_self] at he
      cases he
      refine ⟨note', List.getElem?_set_self hv, hdescribes, List.getElem?_set_self ?_⟩
      rw [h.kernels_length, ← h.notes_length]
      exact hv
    · rw [latest_cons_of_ne hvw] at he
      rw [List.getElem?_set_ne hvw, List.getElem?_set_ne hvw]
      exact h.latest w e he
  · exact stolen_newNote h hfound hnote hstart hmono

omit [Zero S] [One S] in
/-- A voice that stops or is released keeps what describes its note. -/
theorem inv_modify (h : Inv p s) (v : ℕ) {f : NoteData S → NoteData S}
    (hidx : ∀ n, (f n).idx = n.idx) (hstart : ∀ n, (f n).starttime = n.starttime)
    (hactive : ∀ n, (f n).active = true → n.active = true)
    (hdescribes : ∀ n call, Describes n call → Describes (f n) call) :
    Inv p ⟨{ s.inst with notes := s.inst.notes.modify v f }, s.log⟩ := by
  have hget : ∀ {w n}, s.inst.notes[w]? = some n →
      (s.inst.notes.modify v f)[w]? = some (if v = w then f n else n) := by
    intro w n hn
    rw [List.getElem?_modify, hn]
    split
    · rfl
    · rfl
  have hprecedes : ∀ {w u}, Precedes s.inst.notes w u →
      Precedes (s.inst.notes.modify v f) w u := by
    intro w u hwu
    unfold Precedes at *
    rw [startOf_modify hstart, startOf_modify hstart]
    exact hwu
  constructor
  · rw [List.length_modify, h.notes_length]
  · exact h.kernels_length
  · intro w n hn
    have hw : w < s.inst.notes.length := by
      have := (List.getElem?_eq_some_iff.mp hn).1
      rwa [List.length_modify] at this
    rw [hget (List.getElem?_eq_getElem hw)] at hn
    cases hn
    split
    · rw [hidx]
      exact h.idx w _ (List.getElem?_eq_getElem hw)
    · exact h.idx w _ (List.getElem?_eq_getElem hw)
  · intro w hw
    exact h.started w (activeOf_of_modify hactive hw)
  · intro w hw
    rw [startOf_modify hstart]
    exact h.starts w hw
  · intro w e he
    obtain ⟨n, hn, hdescribed, hkernel⟩ := h.latest w e he
    refine ⟨_, hget hn, ?_, hkernel⟩
    split
    · exact hdescribes n e.call hdescribed
    · exact hdescribed
  · intro w hw hage u hu hne
    obtain ⟨hstarted, hwu⟩ := h.stolen w hw hage u hu hne
    exact ⟨hstarted, hprecedes hwu⟩

theorem makeInstrument_note {p v : ℕ} {n : NoteData S}
    (h : (makeInstrument p : Instrument S).notes[v]? = some n) : n.idx = v ∧ n.active = false := by
  rw [makeInstrument, List.getElem?_map, Option.map_eq_some_iff] at h
  obtain ⟨i, hi, rfl⟩ := h
  obtain ⟨hv, heq⟩ := List.getElem?_eq_some_iff.mp hi
  rw [List.getElem_range] at heq
  exact ⟨heq.symm, rfl⟩

theorem inv_initial (p : ℕ) : Inv p (Session.initial p : Session S) := by
  have hlength : (Session.initial p : Session S).inst.notes.length = p := by
    simp [Session.initial, makeInstrument]
  constructor
  · exact hlength
  · exact List.length_replicate
  · intro v n hn
    exact (makeInstrument_note hn).1
  · intro v hv
    rw [activeOf] at hv
    cases hn : (Session.initial p : Session S).inst.notes[v]? with
    | none => simp [hn] at hv
    | some n => simp [hn, (makeInstrument_note hn).2] at hv
  · intro v hv
    obtain ⟨e, he, -⟩ := hv
    cases he
  · intro v e he
    cases he
  · intro w _ hage
    exact absurd hage (Nat.lt_irrefl 0)

end Step

section Run

variable {p : ℕ} {s : Session S}

omit [Zero S] [One S] in
/-- The start times of the calls. -/
def starts : List (Event S) → List ℤ
  | [] => []
  | .newNote call :: es => call.start :: starts es
  | _ :: es => starts es

/-- Every run goes through, from any state with the invariant. -/
theorem run_inv (hp : 0 < p) {es : List (Event S)} (h : Inv p s)
    (hmono : (starts es).Pairwise (· ≤ ·))
    (hlog : ∀ e ∈ s.log, ∀ t ∈ starts es, e.call.start ≤ t) :
    ∃ s', s.run es = some s' ∧ Inv p s' := by
  induction es generalizing s with
  | nil => exact ⟨s, rfl, h⟩
  | cons e es ih =>
    cases e with
    | newNote call =>
      rw [starts, List.pairwise_cons] at hmono
      obtain ⟨s₁, e, hstep, hinv, hlog₁, hcall⟩ := step_newNote h hp call fun e he =>
        hlog e he call.start List.mem_cons_self
      obtain ⟨s', hrun, hinv'⟩ := ih hinv hmono.2 (by
        intro e' he' t ht
        rw [hlog₁] at he'
        cases he' with
        | head =>
          rw [hcall]
          exact hmono.1 t ht
        | tail _ he' => exact hlog e' he' t (List.mem_cons_of_mem _ ht))
      exact ⟨s', by rw [Session.run, hstep, Option.bind_some, hrun], hinv'⟩
    | stop v =>
      exact ih (inv_modify h v (fun _ => rfl) (fun _ => rfl) (fun _ hn => Bool.noConfusion hn)
        fun _ _ hd => ⟨hd.1, hd.2, hd.3, hd.4⟩) hmono hlog
    | release v =>
      exact ih (inv_modify h v (fun _ => rfl) (fun _ => rfl) (fun _ hn => hn)
        fun _ _ hd => ⟨hd.1, hd.2, hd.3, hd.4⟩) hmono hlog

omit [Zero S] [One S] in
theorem starts_append (es es' : List (Event S)) :
    starts (es ++ es') = starts es ++ starts es' := by
  induction es with
  | nil => rfl
  | cons e es ih =>
    cases e with
    | newNote call => rw [List.cons_append, starts, starts, ih, List.cons_append]
    | stop v => exact ih
    | release v => exact ih

end Run

section Choice

omit [Zero S] [One S]

variable {p : ℕ} {s : Session S}

/-- The voice `v` is the right one for the next note: an inactive one when there is one, else the
one whose note is the oldest, which at least `p - 1` notes have followed. -/
structure Right (p : ℕ) (s : Session S) (v : ℕ) : Prop where
  inside : v < p
  inactive : (∃ w < p, activeOf s.inst.notes w = false) → activeOf s.inst.notes v = false
  oldest : (∀ w < p, activeOf s.inst.notes w = true) → ∀ w < p, w ≠ v → age s.log w < age s.log v
  kept : (∀ w < p, activeOf s.inst.notes w = true) → p ≤ age s.log v + 1

/-- The voice with the least recorded start time, the first one of several, got its last note
before every other voice was started. -/
def StartedInOrder (p : ℕ) (s : Session S) : Prop :=
  ∃ v < p, First s.inst.notes v ∧ ∀ w < p, w ≠ v → startAge s.log w < age s.log v

/-- The other voices were not taken away since they were started. -/
theorem age_eq_startAge (h : Inv p s) {v w : ℕ} (hv : v < p) (hw : w < p) (hne : w ≠ v)
    (hfirst : First s.inst.notes v) : age s.log w = startAge s.log w := by
  rcases age_le_startAge.eq_or_lt with heq | hlt
  · exact heq
  · obtain ⟨-, hprecedes⟩ := h.stolen w hw hlt v hv (Ne.symm hne)
    exact absurd (hfirst w (by rwa [h.notes_length]) hne) hprecedes.asymm

/-- The oldest of `p` notes has been followed by the others. -/
theorem kept_of_oldest (h : Inv p s) (hactive : ∀ w < p, activeOf s.inst.notes w = true) {v : ℕ}
    (holdest : ∀ w < p, w ≠ v → age s.log w < age s.log v) : p ≤ age s.log v + 1 := by
  have hmaps : Set.MapsTo (age s.log) (Finset.range p) (Finset.range (age s.log v + 1)) := by
    intro w hw
    have hw := Finset.mem_range.mp (Finset.mem_coe.mp hw)
    apply Finset.mem_coe.mpr
    rw [Finset.mem_range]
    by_cases hne : w = v
    · rw [hne]
      omega
    · have := holdest w hw hne
      omega
  have hinj : Set.InjOn (age s.log) (Finset.range p) := by
    intro w hw u _ heq
    have hw := Finset.mem_range.mp (Finset.mem_coe.mp hw)
    exact age_injective (age_lt_length (h.started w (hactive w hw))) heq
  have hcard := Finset.card_le_card_of_injOn (age s.log) hmaps hinj
  rwa [Finset.card_range, Finset.card_range] at hcard

/-- The voice that is found is the right one exactly when the voices were started in order. -/
theorem taken_iff (h : Inv p s) {v : ℕ} (hfound : Found s.inst.notes v) :
    Right p s v ↔
      ((∀ w < p, activeOf s.inst.notes w = true) → StartedInOrder p s) := by
  have hv : v < p := by
    rw [← h.notes_length]
    exact hfound.inside
  rcases hfound.choice with hinactive | ⟨hfull, hfirst⟩
  · have hnot : ¬∀ w < p, activeOf s.inst.notes w = true := by
      intro hall
      rw [hall v hv] at hinactive
      cases hinactive
    constructor
    · intro _ hall
      exact absurd hall hnot
    · intro _
      exact ⟨hv, fun _ => hinactive, fun hall => absurd hall hnot, fun hall => absurd hall hnot⟩
  · constructor
    · intro hright hall
      refine ⟨v, hv, hfirst, fun w hw hne => ?_⟩
      rw [← age_eq_startAge h hv hw hne hfirst]
      exact hright.oldest hall w hw hne
    · intro horder
      have hall : ∀ w < p, activeOf s.inst.notes w = true := by
        intro w hw
        exact hfull w (by rwa [h.notes_length])
      obtain ⟨u, hu, hufirst, hstart⟩ := horder hall
      obtain rfl := First.unique (by rwa [h.notes_length]) hfound.inside hufirst hfirst
      have holdest : ∀ w < p, w ≠ u → age s.log w < age s.log u := by
        intro w hw hne
        rw [age_eq_startAge h hu hw hne hfirst]
        exact hstart w hw hne
      refine ⟨hv, fun ⟨w, hw, hinactive⟩ => ?_, fun _ => holdest, fun _ =>
        kept_of_oldest h hall holdest⟩
      rw [hall w hw] at hinactive
      cases hinactive

end Choice

/-- The data of every voice describe its last note. -/
def Current (s : Session S) : Prop :=
  ∀ v e, latest s.log v = some e → ∃ note, s.inst.notes[v]? = some note ∧ Describes note e.call

/-- Every run goes through with the data of its voices current. Every call of `new_note` takes the
right voice exactly when, in each state that has no inactive voice at a call, the voices were
started in order. -/
theorem voices_right_iff (p : ℕ) (hp : 0 < p) (events : List (Event S))
    (hmono : (starts events).Pairwise (· ≤ ·)) :
    (∃ s, (Session.initial p).run events = some s ∧ Current s) ∧
    ((∀ before call after, events = before ++ .newNote call :: after →
        ∃ s v inst, (Session.initial p).run before = some s ∧
          newNote s.inst call = some (v, inst) ∧ Right p s v) ↔
      ∀ before call after, events = before ++ .newNote call :: after →
        ∀ s, (Session.initial p).run before = some s →
          (∀ w < p, activeOf s.inst.notes w = true) → StartedInOrder p s) := by
  have hreach : ∀ before after, events = before ++ after →
      ∃ s, (Session.initial p : Session S).run before = some s ∧ Inv p s := by
    intro before after heq
    apply run_inv hp (inv_initial p)
    · rw [heq, starts_append] at hmono
      exact (List.pairwise_append.mp hmono).1
    · intro e he
      cases he
  constructor
  · obtain ⟨s, hrun, hinv⟩ := hreach events [] (List.append_nil events).symm
    refine ⟨s, hrun, fun v e he => ?_⟩
    obtain ⟨note, hnote, hdescribes, -⟩ := hinv.latest v e he
    exact ⟨note, hnote, hdescribes⟩
  · constructor
    · intro h before call after heq s hrun hall
      obtain ⟨s', v, inst, hrun', hnew, hright⟩ := h before call after heq
      obtain ⟨s'', hrun'', hinv⟩ := hreach before _ heq
      rw [hrun] at hrun' hrun''
      cases hrun'
      cases hrun''
      obtain ⟨v', note, note', hfound, -, hnew', -⟩ := newNote_spec hinv hp call
      rw [hnew] at hnew'
      cases hnew'
      exact (taken_iff hinv hfound).mp hright hall
    · intro h before call after heq
      obtain ⟨s, hrun, hinv⟩ := hreach before _ heq
      obtain ⟨v, note, note', hfound, -, hnew, -⟩ := newNote_spec hinv hp call
      exact ⟨s, v, _, hrun, hnew, (taken_iff hinv hfound).mpr (h before call after heq s hrun)⟩

/-- The third of four notes takes the first voice away, and so does the fourth. -/
theorem not_voices_right :
    ¬∀ (p : ℕ) (events : List (Event ℤ)), 0 < p → (starts events).Pairwise (· ≤ ·) →
      ∀ before call after, events = before ++ .newNote call :: after →
        ∃ s v inst, (Session.initial p).run before = some s ∧
          newNote s.inst call = some (v, inst) ∧ Right p s v := by
  intro h
  obtain ⟨s, v, inst, hrun, hnew, hright⟩ :=
    h 2 [.newNote ⟨0, 1, 5, 1⟩, .newNote ⟨10, 1, 5, 1⟩, .newNote ⟨20, 1, 5, 1⟩,
      .newNote ⟨30, 1, 5, 1⟩] (by omega) (by simp [starts])
      [.newNote ⟨0, 1, 5, 1⟩, .newNote ⟨10, 1, 5, 1⟩, .newNote ⟨20, 1, 5, 1⟩]
      ⟨30, 1, 5, 1⟩ [] rfl
  have hstate : ((Session.initial 2 : Session ℤ).run
      [.newNote ⟨0, 1, 5, 1⟩, .newNote ⟨10, 1, 5, 1⟩, .newNote ⟨20, 1, 5, 1⟩]).map
        (fun s => ((newNote s.inst ⟨30, 1, 5, 1⟩).map Prod.fst,
          activeOf s.inst.notes 0 && activeOf s.inst.notes 1, age s.log 0, age s.log 1)) =
      some (some 0, true, 0, 1) := by decide +kernel
  rw [hrun, Option.map_some, hnew, Option.map_some] at hstate
  simp only [Option.some.injEq, Prod.mk.injEq, Bool.and_eq_true] at hstate
  obtain ⟨rfl, ⟨hactive0, hactive1⟩, hage0, hage1⟩ := hstate
  have hall : ∀ w < 2, activeOf s.inst.notes w = true := by
    intro w hw
    interval_cases w
    · exact hactive0
    · exact hactive1
  have := hright.oldest hall 1 (by omega) (by omega)
  omega

/-- Two notes for two voices. -/
theorem voices_right_two :
    (0 < 2 ∧ (starts [Event.newNote (⟨0, 1, 5, 1⟩ : Call ℤ), .newNote ⟨3, 2, 5, 1⟩]).Pairwise
      (· ≤ ·)) ∧ ∃ s : Session ℤ, (Session.initial 2).run
        [.newNote ⟨0, 1, 5, 1⟩, .newNote ⟨3, 2, 5, 1⟩] = some s ∧ Current s := by
  have hmono : (starts [Event.newNote (⟨0, 1, 5, 1⟩ : Call ℤ), .newNote ⟨3, 2, 5, 1⟩]).Pairwise
      (· ≤ ·) := by simp [starts]
  exact ⟨⟨by omega, hmono⟩, (voices_right_iff 2 (by omega) _ hmono).1⟩

end Extempore.VoiceAllocation
