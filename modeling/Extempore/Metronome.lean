import Extempore.GluedMaps
import Mathlib.Analysis.Normed.Field.Lemmas
import Mathlib.Topology.Instances.Rat
import Mathlib.Tactic.Linarith
import Mathlib.Tactic.Ring

/-!
# The metronome

The closure that `make-metro` returns, over exact rationals. Its two clocks `beat-env` and
`samp-env` are closures over two points and are built anew by `set-tempo`, after the beats have
been advanced with the old tempo.
-/

namespace Extempore.Metronome

open GluedMaps

/-- The line through two points, as a closure. -/
def beatPos (x1 y1 x2 y2 : ℚ) : ℚ → ℚ :=
  let m := if x2 - x1 = 0 then 0 else (y2 - y1) / (x2 - x1)
  let c := y1 - m * x1
  fun time => time * m + c

/-- The variables that the closure of `make-metro` assigns to. -/
structure Metro where
  cycle : ℚ
  mark : ℚ
  loffset : ℚ
  totalBeats : ℚ
  cycleBeats : ℚ
  gTempo : ℚ
  beatEnv : ℚ → ℚ
  sampEnv : ℚ → ℚ

/-- A quotient; dividing by zero is an error. -/
def quotient (x y : ℚ) : Option ℚ := if y = 0 then none else some (x / y)

section Messages

variable (samplerate : ℚ)

/-- `make-metro`; without `args` it starts now, at beat zero. -/
def makeMetro (now startTempo : ℚ) (args : Option (ℚ × ℚ)) : Option Metro :=
  let offset := (args.map Prod.fst).getD now
  let mark := offset
  let totalBeats := (args.map Prod.snd).getD 0
  (quotient 60 startTempo).map fun gTempo =>
    { cycle := 4
      mark
      loffset := 0
      totalBeats
      cycleBeats := totalBeats
      gTempo
      beatEnv := beatPos mark totalBeats (mark + gTempo * samplerate) (totalBeats + 1)
      sampEnv := beatPos totalBeats mark (totalBeats + 1) (mark + gTempo * samplerate) }

/-- `(metro 'set-tempo tempo)` with a time and a beat behind it, if there are any. With an error
(`none`) the assignments made before it stay. -/
def Metro.setTempo (metro : Metro) (now tempo : ℚ) (time beats : Option ℚ) :
    Metro × Option ℚ :=
  let time := time.getD now
  let advanced := match beats with
    | none =>
      (quotient (time - metro.mark) (samplerate * metro.gTempo)).map (metro.totalBeats + ·)
    | some beats => some beats
  match advanced with
  | none => (metro, none)
  | some totalBeats =>
    match quotient 60 tempo with
    | none => ({ metro with totalBeats }, none)
    | some gTempo =>
      ({ metro with
          totalBeats
          gTempo
          mark := time
          sampEnv := beatPos totalBeats time (totalBeats + 1) (time + gTempo * samplerate)
          beatEnv := beatPos time totalBeats (time + gTempo * samplerate) (totalBeats + 1) },
        some tempo)

def Metro.setCycle (metro : Metro) (cycle beats : ℚ) : Metro :=
  { metro with cycleBeats := beats, cycle }

def Metro.push (metro : Metro) : Metro := { metro with loffset := metro.loffset + 256 }

def Metro.pull (metro : Metro) : Metro := { metro with loffset := metro.loffset - 256 }

def Metro.getMark (metro : Metro) : ℚ × ℚ := (metro.mark, metro.totalBeats)

def Metro.getTime (metro : Metro) (beat : ℚ) : ℚ := metro.sampEnv beat + metro.loffset

def Metro.beatAtTime (metro : Metro) (time : ℚ) : ℚ := metro.beatEnv time

/-- The messages that assign. -/
inductive Message
  | setTempo (tempo time : ℚ)
  | setCycle (cycle beats : ℚ)
  | push
  | pull

/-- `set-tempo` with a tempo and a time. -/
def Metro.receive (metro : Metro) : Message → Metro
  | .setTempo tempo time => (metro.setTempo samplerate 0 tempo (some time) none).1
  | .setCycle cycle beats => metro.setCycle cycle beats
  | .push => metro.push
  | .pull => metro.pull

def Metro.receiveAll (metro : Metro) (messages : List Message) : Metro :=
  messages.foldl (Metro.receive samplerate) metro

end Messages

/-! ## The two clocks -/

section Clocks

variable {samplerate now startTempo tempo time : ℚ} {args : Option (ℚ × ℚ)}
  {metro : Metro} {messages : List Message}

theorem beatPos_apply {x1 y1 x2 y2 : ℚ} (hne : x2 - x1 ≠ 0) (x : ℚ) :
    beatPos x1 y1 x2 y2 x = y1 + (x - x1) * ((y2 - y1) / (x2 - x1)) := by
  simp only [beatPos, if_neg hne]
  ring

/-- Both closures are the ones built from the assigned variables. -/
structure Clocks (samplerate : ℚ) (metro : Metro) : Prop where
  gTempo_ne : metro.gTempo ≠ 0
  beatEnv_eq : metro.beatEnv = beatPos metro.mark metro.totalBeats
    (metro.mark + metro.gTempo * samplerate) (metro.totalBeats + 1)
  sampEnv_eq : metro.sampEnv = beatPos metro.totalBeats metro.mark (metro.totalBeats + 1)
    (metro.mark + metro.gTempo * samplerate)

theorem Clocks.sampEnv_apply (h : Clocks samplerate metro) (beat : ℚ) :
    metro.sampEnv beat =
      metro.mark + (beat - metro.totalBeats) * (metro.gTempo * samplerate) := by
  rw [h.sampEnv_eq, beatPos_apply (by simp)]
  congr 2
  ring

theorem Clocks.beatEnv_apply (h : Clocks samplerate metro) (hrate : 0 < samplerate)
    (time : ℚ) : metro.beatEnv time =
      metro.totalBeats + (time - metro.mark) / (metro.gTempo * samplerate) := by
  have hne : metro.gTempo * samplerate ≠ 0 := mul_ne_zero h.gTempo_ne hrate.ne'
  rw [h.beatEnv_eq, beatPos_apply (by simpa using hne), add_sub_cancel_left,
    add_sub_cancel_left, mul_one_div]

theorem clocks_makeMetro (h : makeMetro samplerate now startTempo args = some metro) :
    Clocks samplerate metro ∧ metro.gTempo = 60 / startTempo ∧ metro.loffset = 0 := by
  obtain ⟨gTempo, hquotient, rfl⟩ := Option.map_eq_some_iff.mp h
  rw [quotient] at hquotient
  split at hquotient
  · cases hquotient
  · next hne =>
    cases hquotient
    exact ⟨⟨div_ne_zero (by norm_num) hne, rfl, rfl⟩, rfl, rfl⟩

/-- What `set-tempo` assigns when neither quotient is by zero. -/
theorem setTempo_eq (h : Clocks samplerate metro) (hrate : 0 < samplerate) (htempo : 0 < tempo) :
    metro.receive samplerate (.setTempo tempo time) =
      { metro with
        totalBeats := metro.beatEnv time
        gTempo := 60 / tempo
        mark := time
        sampEnv := beatPos (metro.beatEnv time) time (metro.beatEnv time + 1)
          (time + 60 / tempo * samplerate)
        beatEnv := beatPos time (metro.beatEnv time) (time + 60 / tempo * samplerate)
          (metro.beatEnv time + 1) } := by
  have hne : samplerate * metro.gTempo ≠ 0 := mul_ne_zero hrate.ne' h.gTempo_ne
  have hbeats : metro.totalBeats + (time - metro.mark) / (samplerate * metro.gTempo) =
      metro.beatEnv time := by
    rw [h.beatEnv_apply hrate, mul_comm samplerate]
  simp only [Metro.receive, Metro.setTempo, Option.getD_some, quotient, if_neg hne,
    Option.map_some, if_neg htempo.ne', hbeats]

/-- One message keeps the clocks. -/
theorem Clocks.receive (message : Message) (h : Clocks samplerate metro) (hrate : 0 < samplerate)
    (htempo : ∀ tempo time, message = .setTempo tempo time → 0 < tempo) :
    Clocks samplerate (metro.receive samplerate message) ∧
      (0 < metro.gTempo → 0 < (metro.receive samplerate message).gTempo) := by
  cases message with
  | setTempo tempo time =>
    have hpos := htempo tempo time rfl
    have hdiv : 0 < 60 / tempo := div_pos (by norm_num) hpos
    rw [setTempo_eq h hrate hpos]
    exact ⟨⟨hdiv.ne', rfl, rfl⟩, fun _ => hdiv⟩
  | setCycle cycle beats => exact ⟨⟨h.gTempo_ne, h.beatEnv_eq, h.sampEnv_eq⟩, id⟩
  | push => exact ⟨⟨h.gTempo_ne, h.beatEnv_eq, h.sampEnv_eq⟩, id⟩
  | pull => exact ⟨⟨h.gTempo_ne, h.beatEnv_eq, h.sampEnv_eq⟩, id⟩

theorem Clocks.receiveAll (h : Clocks samplerate metro) (hrate : 0 < samplerate)
    (htempo : ∀ tempo time, .setTempo tempo time ∈ messages → 0 < tempo) :
    Clocks samplerate (metro.receiveAll samplerate messages) ∧
      (0 < metro.gTempo → 0 < (metro.receiveAll samplerate messages).gTempo) := by
  induction messages generalizing metro with
  | nil => exact ⟨h, id⟩
  | cons message messages ih =>
    obtain ⟨hnext, hpos⟩ := h.receive message hrate fun tempo time heq =>
      htempo tempo time (heq ▸ List.mem_cons_self)
    obtain ⟨hall, hpos'⟩ := ih hnext fun tempo time hmem =>
      htempo tempo time (List.mem_cons_of_mem _ hmem)
    exact ⟨hall, hpos' ∘ hpos⟩

/-- Without `push` and `pull` the offset stays. -/
theorem loffset_receiveAll (hpush : .push ∉ messages) (hpull : .pull ∉ messages) :
    (metro.receiveAll samplerate messages).loffset = metro.loffset := by
  induction messages generalizing metro with
  | nil => rfl
  | cons message messages ih =>
    have hstep : (metro.receive samplerate message).loffset = metro.loffset := by
      cases message with
      | setTempo tempo time =>
        simp only [Metro.receive, Metro.setTempo]
        split
        · rfl
        · split <;> rfl
      | setCycle cycle beats => rfl
      | push => exact absurd List.mem_cons_self hpush
      | pull => exact absurd List.mem_cons_self hpull
    rw [← hstep]
    exact ih (fun h => hpush (List.mem_cons_of_mem _ h))
      (fun h => hpull (List.mem_cons_of_mem _ h))

/-! ## Inverse, and continuous -/

def IsAffine (f : ℚ → ℚ) : Prop := ∃ m c, ∀ x, f x = x * m + c

/-- The clocks are inverse affine functions and meet at the mark. -/
structure InStep (metro : Metro) : Prop where
  isAffine_beatEnv : IsAffine metro.beatEnv
  isAffine_sampEnv : IsAffine metro.sampEnv
  beatEnv_sampEnv : ∀ beat, metro.beatEnv (metro.sampEnv beat) = beat
  sampEnv_beatEnv : ∀ time, metro.sampEnv (metro.beatEnv time) = time
  sampEnv_totalBeats : metro.sampEnv metro.totalBeats = metro.mark
  beatEnv_mark : metro.beatEnv metro.mark = metro.totalBeats

theorem Clocks.inStep (h : Clocks samplerate metro) (hrate : 0 < samplerate) : InStep metro := by
  have hne : metro.gTempo * samplerate ≠ 0 := mul_ne_zero h.gTempo_ne hrate.ne'
  constructor
  · exact ⟨_, _, fun x => congrFun h.beatEnv_eq x⟩
  · exact ⟨_, _, fun x => congrFun h.sampEnv_eq x⟩
  · intro beat
    rw [h.beatEnv_apply hrate, h.sampEnv_apply, add_sub_cancel_left,
      mul_div_cancel_right₀ _ hne, add_sub_cancel]
  · intro time
    rw [h.sampEnv_apply, h.beatEnv_apply hrate, add_sub_cancel_left, div_mul_cancel₀ _ hne,
      add_sub_cancel]
  · rw [h.sampEnv_apply]
    ring
  · rw [h.beatEnv_apply hrate]
    simp

theorem Clocks.strictMono_sampEnv (h : Clocks samplerate metro) (hrate : 0 < samplerate)
    (hpos : 0 < metro.gTempo) : StrictMono metro.sampEnv := by
  intro x y hxy
  have hslope : 0 < metro.gTempo * samplerate := mul_pos hpos hrate
  rw [h.sampEnv_apply, h.sampEnv_apply]
  have hmul := mul_lt_mul_of_pos_right (sub_lt_sub_right hxy metro.totalBeats) hslope
  linarith

theorem Clocks.continuous_sampEnv (h : Clocks samplerate metro) : Continuous metro.sampEnv := by
  have heq : metro.sampEnv = fun beat =>
      metro.mark + (beat - metro.totalBeats) * (metro.gTempo * samplerate) :=
    funext h.sampEnv_apply
  rw [heq]
  fun_prop

variable (time) in
/-- A change of tempo at `time` keeps the beat at that time, and both maps have the same sample
there. -/
theorem Clocks.beatEnv_setTempo (h : Clocks samplerate metro) (hrate : 0 < samplerate)
    (htempo : 0 < tempo) :
    (metro.receive samplerate (.setTempo tempo time)).totalBeats = metro.beatEnv time ∧
      (metro.receive samplerate (.setTempo tempo time)).beatEnv time = metro.beatEnv time ∧
      metro.sampEnv (metro.beatEnv time) =
        (metro.receive samplerate (.setTempo tempo time)).sampEnv (metro.beatEnv time) := by
  have hnext := (h.receive (.setTempo tempo time) hrate
    fun _ _ heq => (Message.setTempo.inj heq).1 ▸ htempo).1.inStep hrate
  have hmark := hnext.beatEnv_mark
  have htotal := hnext.sampEnv_totalBeats
  rw [setTempo_eq h hrate htempo] at hmark htotal ⊢
  exact ⟨rfl, hmark, ((h.inStep hrate).sampEnv_beatEnv time).trans htotal.symm⟩

/-! ## All the beats of a run -/

/-- The sample of each beat over a run. A change of tempo holds for the beats behind it. -/
def beatMap (samplerate : ℚ) (metro : Metro) : List Message → ℚ → ℚ
  | [] => metro.sampEnv
  | message :: messages =>
    let metro' := metro.receive samplerate message
    match message with
    | .setTempo _ _ =>
      glue metro'.totalBeats metro.sampEnv (beatMap samplerate metro' messages)
    | _ => beatMap samplerate metro' messages

/-- The changes of tempo are made in the order of their times, none before `start`. -/
def InOrder : ℚ → List Message → Prop
  | _, [] => True
  | start, .setTempo _ time :: messages => start ≤ time ∧ InOrder time messages
  | start, _ :: messages => InOrder start messages

/-- Up to the mark the whole map is the current clock; it is strictly increasing and continuous. -/
theorem Clocks.beatMap (h : Clocks samplerate metro) (hrate : 0 < samplerate)
    (hpos : 0 < metro.gTempo)
    (htempo : ∀ tempo time, .setTempo tempo time ∈ messages → 0 < tempo)
    (horder : InOrder metro.mark messages) :
    (∀ beat ≤ metro.totalBeats,
        beatMap samplerate metro messages beat = metro.sampEnv beat) ∧
      StrictMono (beatMap samplerate metro messages) ∧
      Continuous (beatMap samplerate metro messages) := by
  induction messages generalizing metro with
  | nil => exact ⟨fun _ _ => rfl, h.strictMono_sampEnv hrate hpos, h.continuous_sampEnv⟩
  | cons message messages ih =>
    obtain ⟨hnext, hpos'⟩ := h.receive message hrate fun tempo time heq =>
      htempo tempo time (heq ▸ List.mem_cons_self)
    have htail := fun tempo time hmem => htempo tempo time (List.mem_cons_of_mem _ hmem)
    cases message with
    | setTempo tempo time =>
      have hpositive := htempo tempo time List.mem_cons_self
      obtain ⟨htotal, -, hsample⟩ := h.beatEnv_setTempo time hrate hpositive
      have hmark : (metro.receive samplerate (.setTempo tempo time)).mark = time := by
        rw [setTempo_eq h hrate hpositive]
      obtain ⟨hsame, hmono, hcont⟩ := ih hnext (hpos' hpos) htail (hmark.symm ▸ horder.2)
      have hglue : metro.sampEnv (metro.receive samplerate (.setTempo tempo time)).totalBeats =
          Metronome.beatMap samplerate (metro.receive samplerate (.setTempo tempo time)) messages
            (metro.receive samplerate (.setTempo tempo time)).totalBeats := by
        rw [hsame _ le_rfl, htotal, hsample]
      refine ⟨?_, strictMono_glue (h.strictMono_sampEnv hrate hpos) hmono hglue,
        continuous_glue h.continuous_sampEnv hcont hglue⟩
      -- the beat at the new mark is not before the beat at the old one
      intro beat hbeat
      apply glue_of_le
      have hlater := (h.strictMono_sampEnv hrate hpos).le_iff_le.mp
        (((h.inStep hrate).sampEnv_totalBeats.trans_le horder.1).trans_eq
          ((h.inStep hrate).sampEnv_beatEnv time).symm)
      rw [htotal]
      exact hbeat.trans hlater
    | setCycle cycle beats => exact ih hnext hpos htail horder
    | push => exact ih hnext hpos htail horder
    | pull => exact ih hnext hpos htail horder

/-- In every state that a metronome reaches with positive tempos its clocks are in step, and a
further change of tempo keeps the beat at its time. Without `push` and `pull` the clocks can be
asked back and forth. With a positive first tempo beats are mapped to samples by a strictly
increasing function that is continuous at each change, and over a whole run where the changes
are made in the order of their times. -/
theorem inStep_receiveAll (hrate : 0 < samplerate)
    (hstart : makeMetro samplerate now startTempo args = some metro)
    (htempo : ∀ tempo time, .setTempo tempo time ∈ messages → 0 < tempo) :
    InStep (metro.receiveAll samplerate messages) ∧
    (.push ∉ messages → .pull ∉ messages → ∀ beat,
      (metro.receiveAll samplerate messages).beatAtTime
        ((metro.receiveAll samplerate messages).getTime beat) = beat) ∧
    (∀ tempo time, 0 < tempo →
      ((metro.receiveAll samplerate messages).receive samplerate
        (.setTempo tempo time)).beatAtTime time =
        (metro.receiveAll samplerate messages).beatAtTime time) ∧
    (0 < startTempo →
      StrictMono (metro.receiveAll samplerate messages).sampEnv ∧
      (∀ tempo time, 0 < tempo →
        let next := (metro.receiveAll samplerate messages).receive samplerate
          (.setTempo tempo time)
        StrictMono
            (glue next.totalBeats (metro.receiveAll samplerate messages).sampEnv next.sampEnv) ∧
          Continuous
            (glue next.totalBeats (metro.receiveAll samplerate messages).sampEnv next.sampEnv)) ∧
      (InOrder metro.mark messages →
        StrictMono (beatMap samplerate metro messages) ∧
          Continuous (beatMap samplerate metro messages))) := by
  obtain ⟨hclocks, hgTempo, hloffset⟩ := clocks_makeMetro hstart
  obtain ⟨hall, hpos⟩ := hclocks.receiveAll hrate htempo
  have hstep := hall.inStep hrate
  refine ⟨hstep, ?_, ?_, ?_⟩
  · intro hpush hpull beat
    rw [Metro.beatAtTime, Metro.getTime, loffset_receiveAll hpush hpull, hloffset, add_zero]
    exact hstep.beatEnv_sampEnv beat
  · exact fun tempo time hpositive => (hall.beatEnv_setTempo time hrate hpositive).2.1
  · intro hpositive
    have hstartPos : 0 < metro.gTempo := hgTempo ▸ div_pos (by norm_num) hpositive
    refine ⟨hall.strictMono_sampEnv hrate (hpos hstartPos), ?_, ?_⟩
    · intro tempo time htempo'
      obtain ⟨htotal, -, hsample⟩ := hall.beatEnv_setTempo time hrate htempo'
      obtain ⟨hnext, hpos'⟩ := hall.receive (.setTempo tempo time) hrate
        fun _ _ heq => (Message.setTempo.inj heq).1 ▸ htempo'
      rw [← htotal] at hsample
      exact ⟨strictMono_glue (hall.strictMono_sampEnv hrate (hpos hstartPos))
          (hnext.strictMono_sampEnv hrate (hpos' (hpos hstartPos))) hsample,
        continuous_glue hall.continuous_sampEnv hnext.continuous_sampEnv hsample⟩
    · exact fun horder => (hclocks.beatMap hrate hstartPos htempo horder).2

end Clocks

/-- From 120 beats a minute to 90 after half a second, and to 60 after a second. -/
theorem inStep_receiveAll_slower : ∃ metro,
    makeMetro 44100 0 120 (some (0, 0)) = some metro ∧
      StrictMono (beatMap 44100 metro
        [.setTempo 90 22050, .setCycle 3 1, .setTempo 60 44100]) := by
  have hstart : makeMetro 44100 0 120 (some (0, 0)) = some _ := rfl
  have htempo : ∀ tempo time, .setTempo tempo time ∈
      ([.setTempo 90 22050, .setCycle 3 1, .setTempo 60 44100] : List Message) → 0 < tempo := by
    intro tempo time hmem
    simp only [List.mem_cons, Message.setTempo.injEq, List.not_mem_nil, reduceCtorEq, false_or,
      or_false] at hmem
    rcases hmem with ⟨rfl, -⟩|⟨rfl, -⟩ <;> norm_num
  have horder : InOrder 0 [.setTempo 90 22050, .setCycle 3 1, .setTempo 60 44100] := by
    simp only [InOrder]
    norm_num
  exact ⟨_, hstart,
    (((inStep_receiveAll (by norm_num) hstart htempo).2.2.2 (by norm_num)).2.2 horder).1⟩

end Extempore.Metronome
