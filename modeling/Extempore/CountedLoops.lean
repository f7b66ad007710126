import Mathlib.Algebra.GroupWithZero.Nat
import Mathlib.Algebra.Ring.Int.Defs
import Extempore.WhileLoops

/-!
# Counted loops

The code that `impc:ir:compiler:loop` emits for `dotimes`: the count and the start are evaluated, the
start is stored as the index, and a test of the count leads into the loop. At its end the index
goes up by one and is compared with the sum of the start and the count. Both comparisons are
unsigned.
-/

namespace Extempore.CountedLoops
open WhileLoops

universe u

variable {w : ℕ} {σ : Type u}

/-! ## The emitted code -/

inductive Reg where
  | count | start | val | num | loopCnt | next
  deriving DecidableEq, Repr

inductive Flag where
  | comp | cmp
  deriving DecidableEq, Repr

inductive Operand where
  | reg (r : Reg)
  | const (n : ℕ)

/-- The instructions, with the code of the count, the start and the body as one each. -/
inductive Instr where
  | count (dst : Reg)
  | start (dst : Reg)
  | body
  | store (src : Operand)
  | load (dst : Reg)
  | add (dst : Reg) (a b : Operand)
  | icmpUlt (dst : Flag) (a b : Operand)

inductive Label where
  | setup | loop | after
  deriving DecidableEq, Repr

structure Block where
  instrs : List Instr
  cond : Flag
  ifTrue : Label
  ifFalse : Label

/-- The code in front of the loop. -/
def setup (startValue : Bool) : Block where
  instrs := .count .count :: (if startValue then [.start .start] else []) ++
    [.store (if startValue then .reg .start else .const 0), .load .val,
      .add .num (.reg .count) (.reg .val), .icmpUlt .comp (.reg .count) (.const 1)]
  cond := .comp
  ifTrue := .after
  ifFalse := .loop

def loopBlock : Block where
  instrs := [.body, .load .loopCnt, .add .next (.reg .loopCnt) (.const 1), .store (.reg .next),
    .icmpUlt .cmp (.reg .next) (.reg .num)]
  cond := .cmp
  ifTrue := .loop
  ifFalse := .after

/-! ## Its execution -/

/-- What the parts of the form compute on the rest of the state. The body gets the index, which it
does not assign. -/
structure Form (w : ℕ) (σ : Type u) where
  count : σ → BitVec w × σ
  start : Option (σ → BitVec w × σ)
  body : BitVec w → σ → σ

inductive Event (w : ℕ) where
  | count
  | start
  | body (i : BitVec w)
  deriving DecidableEq

structure State (w : ℕ) (σ : Type u) where
  label : Label
  regs : Reg → BitVec w
  flags : Flag → Bool
  ptr : BitVec w
  world : σ
  events : List (Event w)

namespace State

variable (s : State w σ)

def setReg (dst : Reg) (v : BitVec w) : State w σ :=
  { s with regs := fun r => if r = dst then v else s.regs r }

def setFlag (dst : Flag) (v : Bool) : State w σ :=
  { s with flags := fun r => if r = dst then v else s.flags r }

def value : Operand → BitVec w
  | .reg r => s.regs r
  | .const n => BitVec.ofNat w n

end State

def exec (form : Form w σ) (s : State w σ) : Instr → State w σ
  | .count dst =>
    { s.setReg dst (form.count s.world).1 with
      world := (form.count s.world).2, events := s.events ++ [.count] }
  | .start dst =>
    match form.start with
    | none => s
    | some start =>
      { s.setReg dst (start s.world).1 with
        world := (start s.world).2, events := s.events ++ [.start] }
  | .body =>
    { s with world := form.body s.ptr s.world, events := s.events ++ [.body s.ptr] }
  | .store src => { s with ptr := s.value src }
  | .load dst => s.setReg dst s.ptr
  | .add dst a b => s.setReg dst (s.value a + s.value b)
  | .icmpUlt dst a b => s.setFlag dst ((s.value a).ult (s.value b))

def execBlock (form : Form w σ) (block : Block) (s : State w σ) : State w σ :=
  let s := block.instrs.foldl (exec form) s
  { s with label := if s.flags block.cond then block.ifTrue else block.ifFalse }

def step (form : Form w σ) (s : State w σ) : State w σ :=
  match s.label with
  | .setup => execBlock form (setup form.start.isSome) s
  | .loop => execBlock form loopBlock s
  | .after => s

def running (s : State w σ) : Bool := s.label != .after

/-! ## What the form means -/

def countValue (form : Form w σ) (world : σ) : BitVec w := (form.count world).1

/-- The start, zero if there is none. -/
def startValue (form : Form w σ) (world : σ) : BitVec w :=
  match form.start with
  | none => 0
  | some start => (start (form.count world).2).1

def evaluations (form : Form w σ) : List (Event w) :=
  .count :: (if form.start.isSome then [.start] else [])

/-- The body is run for the first `n` numbers from `start` on. -/
def bodies (start : BitVec w) (n : ℕ) : List (Event w) :=
  (List.range n).map fun k => .body (start + BitVec.ofNat w k)

/-- The code ends, after it has evaluated the count and the start once and then run the body as
often as the count says, not at all for a negative one. -/
def RunsCountTimes (form : Form w σ) (s : State w σ) : Prop :=
  ∃ s', Ends running (step form) s s' ∧
    s'.events = s.events ++ (evaluations form ++
      bodies (startValue form s.world) (countValue form s.world).toInt.toNat)

/-! ## The blocks -/

variable {form : Form w σ} {s s' : State w σ}

/-- What the code in front of the loop does. -/
structure AfterSetup (form : Form w σ) (s s' : State w σ) : Prop where
  label : s'.label = if (countValue form s.world).ult 1 then .after else .loop
  ptr : s'.ptr = startValue form s.world
  num : s'.regs .num = countValue form s.world + startValue form s.world
  events : s'.events = s.events ++ evaluations form

theorem afterSetup_step (h : s.label = .setup) : AfterSetup form s (step form s) := by
  cases hstart : form.start with
  | none =>
    constructor <;>
      simp [step, h, execBlock, setup, hstart, exec, State.setReg, State.setFlag, State.value,
        countValue, startValue, evaluations]
    rfl
  | some start =>
    constructor <;>
      simp [step, h, execBlock, setup, hstart, exec, State.setReg, State.setFlag, State.value,
        countValue, startValue, evaluations]
    rfl

/-- What a round of the loop does. -/
structure AfterRound (s s' : State w σ) : Prop where
  label : s'.label = if (s.ptr + 1).ult (s.regs .num) then .loop else .after
  ptr : s'.ptr = s.ptr + 1
  num : s'.regs .num = s.regs .num
  events : s'.events = s.events ++ [.body s.ptr]

theorem afterRound_step (h : s.label = .loop) : AfterRound s (step form s) := by
  constructor <;>
    simp [step, h, execBlock, loopBlock, exec, State.setReg, State.setFlag, State.value]

theorem world_setup (h : s.label = .setup) (hstart : form.start = none) :
    (step form s).world = (form.count s.world).2 := by
  simp [step, h, execBlock, setup, hstart, exec, State.setReg, State.setFlag, State.value]

theorem world_round (h : s.label = .loop) :
    (step form s).world = form.body s.ptr s.world := by
  simp [step, h, execBlock, loopBlock, exec, State.setReg, State.setFlag, State.value]

/-! ## Signed numbers in unsigned comparisons -/

/-- Numbers of one sign are compared as they are, and the negative ones come after the others. -/
theorem ult_iff (a b : BitVec w) :
    a.ult b ↔ (0 ≤ a.toInt ∧ b.toInt < 0) ∨ ((0 ≤ a.toInt ↔ 0 ≤ b.toInt) ∧ a.toInt < b.toInt) := by
  have ha := a.isLt
  have hb := b.isLt
  rw [BitVec.ult_eq_decide, decide_eq_true_iff, BitVec.toInt_eq_toNat_cond,
    BitVec.toInt_eq_toNat_cond]
  generalize 2 ^ w = n at ha hb ⊢
  split <;> split <;> omega

theorem toInt_ofNat_of_lt (hw : 0 < w) {n : ℕ} (h : (n : ℤ) < 2 ^ (w - 1)) :
    (BitVec.ofNat w n).toInt = n := by
  rw [← BitVec.ofInt_natCast]
  apply BitVec.toInt_ofInt_eq_self hw <;> omega

/-- The number `n` behind `a`, if no number in between leaves the type. -/
theorem toInt_add_ofNat (hw : 0 < w) {a b : BitVec w} {n : ℕ} (hn : n ≤ b.toInt)
    (hfits : a.toInt + b.toInt < 2 ^ (w - 1)) : (a + BitVec.ofNat w n).toInt = a.toInt + n := by
  have hlow : -2 ^ (w - 1) ≤ a.toInt := BitVec.le_toInt a
  have hhigh : b.toInt < 2 ^ (w - 1) := BitVec.toInt_lt
  have hofNat : (BitVec.ofNat w n).toInt = n := toInt_ofNat_of_lt hw (by omega)
  have hover : ¬ BitVec.saddOverflow a (BitVec.ofNat w n) := by
    rw [BitVec.saddOverflow, hofNat, Bool.or_eq_true, decide_eq_true_iff, decide_eq_true_iff]
    omega
  rw [BitVec.toInt_add_of_not_saddOverflow hover, hofNat]

theorem ult_one_iff (hw : 0 < w) (a : BitVec w) : a.ult 1 ↔ a = 0 := by
  have hone : (1 : BitVec w).toNat = 1 % 2 ^ w := BitVec.toNat_ofNat 1 w
  have hpow : 1 < 2 ^ w := Nat.one_lt_two_pow (by omega)
  rw [BitVec.ult_eq_decide, decide_eq_true_iff, hone, Nat.mod_eq_of_lt hpow, Nat.lt_one_iff]
  exact BitVec.toNat_inj (y := 0#w)

/-! ## Rounds -/

/-- In front of round `n` of the loop, or behind the last round. -/
structure AtRound (form : Form w σ) (world : σ) (events : List (Event w)) (n : ℕ)
    (s : State w σ) : Prop where
  ptr : s.ptr = startValue form world + BitVec.ofNat w n
  num : s.regs .num = countValue form world + startValue form world
  events : s.events = events ++ bodies (startValue form world) n

theorem bodies_succ (start : BitVec w) (n : ℕ) :
    bodies start (n + 1) = bodies start n ++ [.body (start + BitVec.ofNat w n)] := by
  rw [bodies, List.range_succ, List.map_append]
  rfl

theorem AtRound.next {world : σ} {events : List (Event w)} {n : ℕ}
    (h : AtRound form world events n s) (hround : AfterRound s s') :
    AtRound form world events (n + 1) s' where
  ptr := by
    rw [hround.ptr, h.ptr, BitVec.add_assoc, BitVec.ofNat_add]
    rfl
  num := hround.num.trans h.num
  events := by rw [hround.events, h.events, h.ptr, bodies_succ, List.append_assoc]

/-- The counts and starts for which the unsigned comparisons make no difference: no round, or rounds
from a start that is not below minus one, or rounds among the negative numbers only. -/
def Counts (start count : BitVec w) : Prop :=
  count.toInt = 0 ∨ 0 < count.toInt ∧ (-1 ≤ start.toInt ∨ start.toInt + count.toInt < 0)

instance (start count : BitVec w) : Decidable (Counts start count) := instDecidableOr

/-- The test at the end of round `n`, in signed numbers. -/
theorem ult_num_iff (hw : 0 < w) {start count : BitVec w} {n : ℕ} (hn : n ≤ count.toInt)
    (hfits : start.toInt + count.toInt < 2 ^ (w - 1)) :
    (start + BitVec.ofNat w n).ult (count + start) ↔
      (0 ≤ start.toInt + n ∧ start.toInt + count.toInt < 0) ∨
        ((0 ≤ start.toInt + n ↔ 0 ≤ start.toInt + count.toInt) ∧ n < count.toInt) := by
  have hcount : ((count.toInt.toNat : ℕ) : ℤ) = count.toInt := Int.toNat_of_nonneg (by omega)
  have hnum : (count + start).toInt = start.toInt + count.toInt := by
    have h := toInt_add_ofNat hw (b := count) (n := count.toInt.toNat) (a := start) (by omega) hfits
    rw [hcount, ← BitVec.ofInt_natCast, hcount, BitVec.ofInt_toInt, BitVec.add_comm] at h
    exact h
  rw [ult_iff, toInt_add_ofNat hw hn hfits, hnum]
  omega

theorem running_iff : running s = true ↔ s.label ≠ .after := bne_iff_ne

theorem running_eq_false (h : s.label = .after) : running s = false := by
  rw [running, h]
  rfl

/-- Events are added at the end only. -/
theorem events_step (form : Form w σ) (s : State w σ) :
    ∃ events, (step form s).events = s.events ++ events := by
  cases h : s.label with
  | setup => exact ⟨_, (afterSetup_step h).events⟩
  | loop => exact ⟨_, (afterRound_step h).events⟩
  | after => exact ⟨[], by rw [step, h, List.append_nil]⟩

theorem events_ends (h : Ends running (step form) s s') :
    ∃ events, s'.events = s.events ++ events := by
  obtain ⟨fuel, hfuel⟩ := h
  induction fuel generalizing s with
  | zero => cases hfuel
  | succ fuel ih =>
    rw [WhileLoops.loop] at hfuel
    split at hfuel
    · obtain ⟨first, hfirst⟩ := events_step form s
      obtain ⟨rest, hrest⟩ := ih hfuel
      exact ⟨first ++ rest, by rw [hrest, hfirst, List.append_assoc]⟩
    · cases hfuel
      exact ⟨[], (List.append_nil _).symm⟩

/-- The number of bodies between two lists of events. -/
theorem bodies_injective {start : BitVec w} {n k : ℕ} (h : bodies start n = bodies start k) :
    n = k := by
  have hlen := congrArg List.length h
  simpa [bodies] using hlen

theorem label_setup (hw : 0 < w) (hs : s.label = .setup) :
    (step form s).label = if (countValue form s.world).toInt = 0 then .after else .loop := by
  have hzero : countValue form s.world = 0 ↔ (countValue form s.world).toInt = 0 := by
    rw [← BitVec.toInt_inj]
    exact Eq.congr_right BitVec.toInt_zero
  rw [(afterSetup_step hs).label]
  exact if_congr ((ult_one_iff hw _).trans hzero) rfl rfl

theorem atRound_zero (hs : s.label = .setup) :
    AtRound form s.world (s.events ++ evaluations form) 0 (step form s) where
  ptr := by
    rw [(afterSetup_step hs).ptr]
    exact (BitVec.add_zero _).symm
  num := (afterSetup_step hs).num
  events := by
    rw [(afterSetup_step hs).events]
    exact (List.append_nil _).symm

section

variable (hw : 0 < w) (hs : s.label = .setup)
  (hfits : (startValue form s.world).toInt + (countValue form s.world).toInt < 2 ^ (w - 1))

include hw hs hfits

/-- The rule of the loop where the comparisons make no difference: round `n` is the last one just if
`n` is the count, and what the body keeps from round to round holds at the end. -/
theorem exists_ends_of_counts (h : Counts (startValue form s.world) (countValue form s.world))
    {I : ℕ → σ → Prop} (hI : I 0 (step form s).world)
    (hbody : ∀ k world, k < (countValue form s.world).toInt.toNat → I k world →
      I (k + 1) (form.body (startValue form s.world + BitVec.ofNat w k) world)) :
    ∃ s', Ends running (step form) s s' ∧
      AtRound form s.world (s.events ++ evaluations form) (countValue form s.world).toInt.toNat s' ∧
      I (countValue form s.world).toInt.toNat s'.world := by
  have hlabel := @label_setup _ _ form _ hw hs
  have hstart := @atRound_zero _ _ form _ hs
  have hrun : running s = true := running_iff.mpr (by rw [hs]; exact Label.noConfusion)
  cases h with
  | inl hzero =>
    rw [if_pos hzero] at hlabel
    rw [hzero]
    exact ⟨_, ends_of_step hrun (ends_of_done (running_eq_false hlabel)), hstart, hI⟩
  | inr hpos =>
    rw [if_neg (by omega)] at hlabel
    generalize hcount : (countValue form s.world).toInt.toNat = n at hbody ⊢
    have hn : (n : ℤ) = (countValue form s.world).toInt := by omega
    have hrounds := @ends_of_rounds _ running (step form) (step form s)
      (fun k s' => (AtRound form s.world (s.events ++ evaluations form) k s' ∧ I k s'.world) ∧
        s'.label = if k < n then .loop else .after) n ?_ ?_ ?_ ⟨⟨hstart, hI⟩, ?_⟩
    · obtain ⟨s', hends, ⟨hat, hI'⟩, -⟩ := hrounds
      exact ⟨s', ends_of_step hrun hends, hat, hI'⟩
    · intro k s' hk h'
      rw [running_iff, h'.2, if_pos hk]
      exact Label.noConfusion
    · intro k s' hk h'
      rw [if_pos hk] at h'
      have hround := @afterRound_step _ _ form _ h'.2
      have hnext := h'.1.1.next hround
      have hworld := @world_round _ _ form _ h'.2
      rw [h'.1.1.ptr] at hworld
      refine ⟨⟨hnext, hworld ▸ hbody k s'.world hk h'.1.2⟩, ?_⟩
      have htest := @ult_num_iff _ hw (startValue form s.world) (countValue form s.world)
        (k + 1) (by omega) hfits
      rw [hround.label, ← hround.ptr, hnext.ptr, h'.1.1.num]
      refine if_congr ?_ rfl rfl
      rw [htest]
      omega
    · intro s' h'
      rw [if_neg (Nat.lt_irrefl n)] at h'
      exact running_eq_false h'.2
    · rw [hlabel, if_pos (by omega)]

theorem runsCountTimes_of_counts
    (h : Counts (startValue form s.world) (countValue form s.world)) : RunsCountTimes form s := by
  obtain ⟨s', hends, hat, -⟩ := exists_ends_of_counts hw hs hfits h (I := fun _ _ => True) trivial
    fun _ _ _ _ => trivial
  refine ⟨s', hends, ?_⟩
  rw [hat.events, List.append_assoc]

theorem counts_of_runsCountTimes (h : RunsCountTimes form s) :
    Counts (startValue form s.world) (countValue form s.world) := by
  by_contra hnot
  rw [Counts, not_or, not_and_or, not_or] at hnot
  have hlabel := @label_setup _ _ form _ hw hs
  have hstart := @atRound_zero _ _ form _ hs
  have hrun : running s = true := running_iff.mpr (by rw [hs]; exact Label.noConfusion)
  rw [if_neg hnot.1] at hlabel
  have hrun' : running (step form s) = true := running_iff.mpr (by rw [hlabel]; exact Label.noConfusion)
  have hround := @afterRound_step _ _ form _ hlabel
  have hfirst := hstart.next hround
  obtain ⟨s', hends, hevents⟩ := h
  have hbehind := (hends.behind hrun).behind hrun'
  cases hnot.2 with
  | inl hneg =>
    -- a negative count leads into the loop
    obtain ⟨events, hmore⟩ := events_ends hbehind
    have hcount : (countValue form s.world).toInt.toNat = 0 := by omega
    rw [hevents, hfirst.events, hcount, List.append_assoc, List.append_assoc] at hmore
    have hnil := List.append_cancel_left (List.append_cancel_left hmore)
    cases hnil
  | inr hacross =>
    -- the index stays negative behind the first round, and the sum is not
    have htest := @ult_num_iff _ hw (startValue form s.world) (countValue form s.world) 1
      (by omega) hfits
    have hlast : (step form (step form s)).label = .after := by
      rw [hround.label, ← hround.ptr, hfirst.ptr, hstart.num]
      refine if_neg ?_
      rw [htest]
      omega
    have hsame := hbehind.unique (ends_of_done (running_eq_false hlast))
    rw [hsame, hfirst.events, List.append_assoc] at hevents
    have hone := bodies_injective (List.append_cancel_left (List.append_cancel_left hevents))
    omega

end

/-- The body is run as often as the count says, and the code ends, just for those counts and
starts. -/
theorem runsCountTimes_iff (hw : 0 < w) (hs : s.label = .setup)
    (hfits : (startValue form s.world).toInt + (countValue form s.world).toInt < 2 ^ (w - 1)) :
    RunsCountTimes form s ↔ Counts (startValue form s.world) (countValue form s.world) :=
  ⟨counts_of_runsCountTimes hw hs hfits, runsCountTimes_of_counts hw hs hfits⟩

/-- The rule without a start: the index goes up from zero and ends at the count. -/
theorem exists_ends_of_nonneg (hw : 0 < w) (hs : s.label = .setup) (hstart : form.start = none)
    (hcount : 0 ≤ (countValue form s.world).toInt) {I : ℕ → σ → Prop}
    (hI : I 0 (form.count s.world).2)
    (hbody : ∀ k world, k < (countValue form s.world).toInt.toNat → I k world →
      I (k + 1) (form.body (BitVec.ofNat w k) world)) :
    ∃ s', Ends running (step form) s s' ∧ s'.ptr = countValue form s.world ∧
      I (countValue form s.world).toInt.toNat s'.world := by
  have hzero : startValue form s.world = 0 := by rw [startValue, hstart]
  have htoInt : (startValue form s.world).toInt = 0 := by rw [hzero]; exact BitVec.toInt_zero
  have hhigh : (countValue form s.world).toInt < 2 ^ (w - 1) := BitVec.toInt_lt
  have hcounts : Counts (startValue form s.world) (countValue form s.world) := by
    rw [Counts, htoInt]
    omega
  obtain ⟨s', hends, hat, hI'⟩ := exists_ends_of_counts hw hs (by omega) hcounts (I := I)
    (by rwa [world_setup hs hstart]) (by simpa [hzero] using hbody)
  refine ⟨s', hends, ?_, hI'⟩
  rw [hat.ptr, hzero, ← BitVec.ofInt_natCast, Int.toNat_of_nonneg hcount, BitVec.ofInt_toInt]
  exact BitVec.zero_add _

/-- A form with constants for the start and the count, and an empty body. -/
def constantForm (start count : BitVec w) : Form w Unit where
  count := fun s => (count, s)
  start := some fun s => (start, s)
  body := fun _ s => s

def initial (w : ℕ) : State w Unit where
  label := .setup
  regs := fun _ => 0
  flags := fun _ => false
  ptr := 0
  world := ()
  events := []

/-- From minus one on, a range that crosses zero is gone through. -/
theorem runsCountTimes_crossing : RunsCountTimes (constantForm (-1) 3) (initial 32) :=
  (runsCountTimes_iff (by decide) rfl (by decide)).mpr (by decide)

/-- From minus two on it is not: the body is run once instead of four times. -/
theorem not_runsCountTimes_crossing : ¬ RunsCountTimes (constantForm (-2) 4) (initial 32) := by
  intro h
  have hcounts := counts_of_runsCountTimes (by decide) rfl (by decide) h
  revert hcounts
  decide

end Extempore.CountedLoops
