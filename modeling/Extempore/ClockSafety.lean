import Extempore.ClockElection
import Mathlib.Tactic.Common
import Mathlib.Data.Nat.Basic

/-!
# At most one clock

A peer that is about to win has told everybody who was up when it called the election. What each
of them knows is one of four things: the question is still on its way, the answer is, the other
peer has the smaller value and did not stream when it was asked, or it has joined since.
-/

namespace Extempore.ClockElection
open GuardedRuns

variable {ι V : Type*} {c : Network ι} {w w' : World ι V} {i j : ι}
  {p p' q : Peer ι V} {mail mail' : List (Packet ι V)}

/-- The last message of a clock, as far as a peer knows, is from after its first second. -/
def Patient (c : Network ι) (w : World ι V) : Prop :=
  ∀ i p, w.peers i = some p → p.joined + c.samplerate ≤ p.lastmsg ∧ p.joined ≤ w.now

/-- Callbacks on time, three seconds of silence and the second before that are the four
seconds that an election takes. -/
theorem Patient.late (h : Patient c w) (hlag : c.lag = 0) (a : Act ι V) : Late c w a := by
  cases a with
  | wake i =>
    intro p hp hs hcall
    have hp' := (h i p hp).1
    rw [topclockSync] at hcall
    split_ifs at hcall with hc
    · omega
    · rw [again, hs] at hcall
      cases hcall
  | _ => trivial

section
variable [DecidableEq ι]

theorem Patient.change (h : Patient c w) (hnow : w.now ≤ w'.now)
    (hpeers : w'.peers = Function.update w.peers i (some p'))
    (hp : p'.joined + c.samplerate ≤ p'.lastmsg) (hp' : p'.joined ≤ w.now) : Patient c w' :=
  forall_peers_update hpeers ⟨hp, Nat.le_trans hp' hnow⟩ fun j q _ hj =>
    ⟨(h j q hj).1, Nat.le_trans (h j q hj).2 hnow⟩

end

variable [LinearOrder V]

/-- Where the call of peer `p` stands with peer `q`. -/
def Answered (c : Network ι) (mail : List (Packet ι V)) (i : ι) (p : Peer ι V) (j : ι)
    (q : Peer ι V) : Prop :=
  ⟨i, j, .electionQ p.electionVal, p.called⟩ ∈ mail ∨
    (∃ t ≤ p.called + c.delay, ⟨j, i, .electionR, t⟩ ∈ mail) ∨
    (q.electionVal < p.electionVal ∧ (q.master = true → p.called ≤ q.won)) ∨
    p.called ≤ q.joined

structure Sane (c : Network ι) (now : ℕ) (p : Peer ι V) : Prop where
  winner : p.electionWinner = true → p.sleeping = true
  election : p.sleeping = true →
    p.master = false ∧ p.called ≤ now ∧ p.callback = p.called + 4 * c.samplerate
  late : p.sleeping = true ∨ p.master = true → p.joined + 4 * c.samplerate + c.lag < p.called
  won : p.master = true → p.called + 4 * c.samplerate ≤ p.won ∧
    p.won ≤ p.called + 4 * c.samplerate + c.lag ∧ p.won ≤ now
  joined : p.joined ≤ now
  due : now ≤ p.callback + c.lag

structure Peaceful (c : Network ι) (mail : List (Packet ι V)) (i : ι) (p : Peer ι V) (j : ι)
    (q : Peer ι V) : Prop where
  distinct : p.electionVal ≠ q.electionVal
  answered : p.electionWinner = true → Answered c mail i p j q
  outranked : q.master = true → p.electionVal < q.electionVal ∨ q.called ≤ p.joined
  single : p.master = true → q.master = false

structure Kept (c : Network ι) (w : World ι V) : Prop where
  hosts : ∀ i p, w.peers i = some p → i ∈ c.hosts
  sane : ∀ i p, w.peers i = some p → Sane c w.now p
  peaceful : ∀ i p j q, i ≠ j → w.peers i = some p → w.peers j = some q →
    Peaceful c w.mail i p j q
  timely : ∀ m ∈ w.mail, m.message = .stream ∨ w.now ≤ m.sent + c.delay

/-- `p'` promises nothing that `p` did not. -/
structure Tame (p p' : Peer ι V) : Prop where
  electionVal : p'.electionVal = p.electionVal
  joined : p'.joined = p.joined
  called : p'.called = p.called
  won : p'.won = p.won
  master : p'.master = true → p.master = true
  winner : p'.electionWinner = true → p.electionWinner = true

/-- The election messages that are not yet answered by a lost election stay. -/
def Keeps (mail mail' : List (Packet ι V)) (i : ι) (p' : Peer ι V) : Prop :=
  ∀ m ∈ mail, m.message ≠ .stream →
    m ∈ mail' ∨ m.message = .electionR ∧ m.dst = i ∧ p'.electionWinner = false

theorem Peaceful.tame_left (h : Peaceful c mail i p j q) (ht : Tame p p')
    (hm : Keeps mail mail' i p') : Peaceful c mail' i p' j q where
  distinct := ht.electionVal ▸ h.distinct
  answered := by
    intro hw
    have stays {m : Packet ι V} (hmem : m ∈ mail) (hs : m.message ≠ .stream) : m ∈ mail' := by
      rcases hm m hmem hs with h' | ⟨-, -, hf⟩
      · exact h'
      · rw [hw] at hf
        cases hf
    rw [Answered, ht.electionVal, ht.called]
    rcases h.answered (ht.winner hw) with hq | ⟨t, ht', hr⟩ | hl | hj
    · exact .inl (stays hq (by simp))
    · exact .inr (.inl ⟨t, ht', stays hr (by simp)⟩)
    · exact .inr (.inr (.inl hl))
    · exact .inr (.inr (.inr hj))
  outranked := by
    rw [ht.electionVal, ht.joined]
    exact h.outranked
  single := fun hp => h.single (ht.master hp)

theorem Peaceful.tame_right (h : Peaceful c mail j q i p) (hne : i ≠ j) (ht : Tame p p')
    (hm : Keeps mail mail' i p') : Peaceful c mail' j q i p' where
  distinct := ht.electionVal ▸ h.distinct
  answered := by
    intro hw
    rw [Answered, ht.electionVal, ht.won, ht.joined]
    rcases h.answered hw with hq | ⟨t, ht', hr⟩ | hl | hj
    · rcases hm _ hq (by simp) with h' | ⟨h', -⟩
      · exact .inl h'
      · cases h'
    · rcases hm _ hr (by simp) with h' | ⟨-, h', -⟩
      · exact .inr (.inl ⟨t, ht', h'⟩)
      · exact absurd h'.symm hne
    · exact .inr (.inr (.inl ⟨hl.1, fun hm' => hl.2 (ht.master hm')⟩))
    · exact .inr (.inr (.inr hj))
  outranked := by
    intro hm'
    rw [ht.electionVal, ht.called]
    exact h.outranked (ht.master hm')
  single := by
    intro hq
    cases hp : p'.master with
    | false => rfl
    | true => exact absurd (ht.master hp) (by simp [h.single hq])

theorem Peaceful.mono (h : Peaceful c mail i p j q)
    (hm : ∀ m ∈ mail, m.message ≠ .stream → m.dst = i ∨ m.dst = j → m ∈ mail') :
    Peaceful c mail' i p j q where
  distinct := h.distinct
  answered := by
    intro hw
    rcases h.answered hw with hq | ⟨t, ht, hr⟩ | hl
    · exact .inl (hm _ hq (by simp) (.inr rfl))
    · exact .inr (.inl ⟨t, ht, hm _ hr (by simp) (.inl rfl)⟩)
    · exact .inr (.inr hl)
  outranked := h.outranked
  single := h.single

/-- By the time `sys:sleep` is over, all questions and answers have arrived. -/
theorem Kept.heard (h : Kept c w) (hd : 2 * c.delay < 4 * c.samplerate) (hne : i ≠ j)
    (hi : w.peers i = some p) (hj : w.peers j = some q) (hw : p.electionWinner = true)
    (hc : p.callback ≤ w.now) :
    q.electionVal < p.electionVal ∧ (q.master = true → p.called ≤ q.won) ∨
      p.called ≤ q.joined := by
  have hp := h.sane i p hi
  obtain ⟨-, -, hcall⟩ := hp.election (hp.winner hw)
  rcases (h.peaceful i p j q hne hi hj).answered hw with hq | ⟨t, ht, hr⟩ | hl
  · rcases h.timely _ hq with he | he
    · cases he
    · simp only at he
      omega
  · rcases h.timely _ hr with he | he
    · cases he
    · simp only at he
      omega
  · exact hl

/-- Nobody streams when an election is won. -/
theorem Kept.unopposed (h : Kept c w) (hd : 2 * c.delay < 4 * c.samplerate) (hne : i ≠ j)
    (hi : w.peers i = some p) (hj : w.peers j = some q) (hw : p.electionWinner = true)
    (hc : p.callback ≤ w.now) : q.master = false := by
  have hp := h.sane i p hi
  have hq := h.sane j q hj
  have hsleep := hp.winner hw
  obtain ⟨-, -, hcall⟩ := hp.election hsleep
  have hplate := hp.late (.inl hsleep)
  cases hm : q.master with
  | false => rfl
  | true =>
    exfalso
    have hqlate := hq.late (.inr hm)
    obtain ⟨hwon, hwon', hnow⟩ := hq.won hm
    have hdue := hp.due
    rcases h.heard hd hne hi hj hw hc with ⟨hlt, hbefore⟩ | hjoin
    · rcases (h.peaceful i p j q hne hi hj).outranked hm with hgt | hcalled
      · exact absurd hgt (not_lt.mpr (le_of_lt hlt))
      · have := hbefore hm
        omega
    · omega

theorem Kept.elapse (h : Kept c w) {n : ℕ} (ht : Timely c w (w.now + n)) :
    Kept c { w with now := w.now + n } where
  hosts := h.hosts
  sane := by
    intro i p hi
    have hp := h.sane i p hi
    have hdue := ht.1 i (h.hosts i p hi) p hi
    exact {
      winner := hp.winner
      election := fun hs => ⟨(hp.election hs).1, Nat.le_add_right_of_le (hp.election hs).2.1,
        (hp.election hs).2.2⟩
      late := hp.late
      won := fun hm => ⟨(hp.won hm).1, (hp.won hm).2.1, Nat.le_add_right_of_le (hp.won hm).2.2⟩
      joined := Nat.le_add_right_of_le hp.joined
      due := hdue }
  peaceful := h.peaceful
  timely := ht.2

theorem kept_start : Kept c (World.start : World ι V) where
  hosts := fun _ _ hi => absurd hi (by simp [World.start])
  sane := fun _ _ hi => absurd hi (by simp [World.start])
  peaceful := fun _ _ _ _ _ hi => absurd hi (by simp [World.start])
  timely := fun _ hm => absurd hm (by simp [World.start])

variable [DecidableEq ι]

/-- One peer has changed, and only packets to it are gone. -/
theorem Kept.change (h : Kept c w) (hi : i ∈ c.hosts) (hnow : w'.now = w.now)
    (hpeers : w'.peers = Function.update w.peers i (some p')) (hsane : Sane c w.now p')
    (hmail : ∀ m ∈ w.mail, m.message ≠ .stream → m.dst ≠ i → m ∈ w'.mail)
    (htimely : ∀ m ∈ w'.mail, m.message = .stream ∨ w.now ≤ m.sent + c.delay)
    (hpair : ∀ j q, j ≠ i → w.peers j = some q →
      Peaceful c w'.mail i p' j q ∧ Peaceful c w'.mail j q i p') : Kept c w' where
  hosts := forall_peers_update hpeers hi fun j q _ => h.hosts j q
  sane := by
    rw [hnow]
    exact forall_peers_update hpeers hsane fun j q _ => h.sane j q
  peaceful := by
    intro j q k r hne hj hk
    rw [hpeers, Function.update_apply] at hj hk
    split_ifs at hj hk with hji hki hki
    · exact absurd (hji.trans hki.symm) hne
    · obtain rfl := Option.some.inj hj
      exact hji ▸ (hpair k r hki hk).1
    · obtain rfl := Option.some.inj hk
      exact hki ▸ (hpair j q hji hj).2
    · refine (h.peaceful j q k r hne hj hk).mono fun m hm hs hd => hmail m hm hs ?_
      rcases hd with rfl | rfl
      · exact hji
      · exact hki
  timely := by
    intro m hm
    rw [hnow]
    exact htimely m hm

/-- What is read of the clock's answers changes only in ways that promise less. -/
theorem Kept.tame (h : Kept c w) (hi : w.peers i = some p) (hnow : w'.now = w.now)
    (hpeers : w'.peers = Function.update w.peers i (some p')) (hsane : Sane c w.now p')
    (hmail : Keeps w.mail w'.mail i p')
    (htimely : ∀ m ∈ w'.mail, m.message = .stream ∨ w.now ≤ m.sent + c.delay)
    (ht : Tame p p') : Kept c w' := by
  refine h.change (h.hosts i p hi) hnow hpeers hsane ?_ htimely ?_
  · intro m hm hs hd
    rcases hmail m hm hs with h' | ⟨-, h', -⟩
    · exact h'
    · exact absurd h' hd
  · intro j q hj hq
    exact ⟨(h.peaceful i p j q (Ne.symm hj) hi hq).tame_left ht hmail,
      (h.peaceful j q i p hj hq hi).tame_right (Ne.symm hj) ht hmail⟩

theorem timely_act (h : Kept c w) (r : Peer ι V × List (Message V)) :
    ∀ m ∈ (w.act c i r).mail, m.message = .stream ∨ w.now ≤ m.sent + c.delay := by
  intro m hm
  rcases mem_mail_act.mp hm with hm | ⟨x, -, k, -, rfl⟩
  · exact h.timely m hm
  · exact .inr (Nat.le_add_right _ _)

theorem Kept.act_tame (h : Kept c w) (hi : w.peers i = some p) {r : Peer ι V × List (Message V)}
    (hsane : Sane c w.now r.1) (ht : Tame p r.1) : Kept c (w.act c i r) :=
  h.tame hi rfl rfl hsane (fun _ hm _ => .inl (mem_mail_act_of_mem _ hm)) (timely_act h r) ht

theorem Kept.act_election (h : Kept c w) (hi : w.peers i = some p) (hm : p.master = false)
    (hl : p.joined + 4 * c.samplerate + c.lag < w.now) :
    Kept c (w.act c i (topclockElection c w.now p)) := by
  refine h.change (h.hosts i p hi) rfl rfl ?_ ?_ (timely_act h _) ?_
  · exact {
      winner := fun _ => rfl
      election := fun _ => ⟨hm, Nat.le_refl _, rfl⟩
      late := fun _ => hl
      won := fun hm' => absurd hm' (by simp [topclockElection, hm])
      joined := (h.sane i p hi).joined
      due := by simp only [topclockElection]; omega }
  · exact fun m hmem _ _ => mem_mail_act_of_mem _ hmem
  · intro j q hj hq
    have hij := h.peaceful i p j q (Ne.symm hj) hi hq
    have hji := h.peaceful j q i p hj hq hi
    have asked : j ∈ (w.put i (topclockElection c w.now p).1).audience c := by
      rw [mem_audience]
      exact ⟨h.hosts j q hq, q, by simp only [World.put, Function.update_of_ne hj, hq]⟩
    constructor
    · exact {
        distinct := hij.distinct
        answered := fun _ => .inl (mem_mail_act.mpr
          (.inr ⟨_, List.mem_singleton.mpr rfl, j, asked, rfl⟩))
        outranked := hij.outranked
        single := fun hm' => absurd hm' (by simp [topclockElection, hm]) }
    · have hmono := hji.mono fun m hmem _ _ =>
        mem_mail_act_of_mem (c := c) (i := i) (topclockElection c w.now p) hmem
      exact {
        distinct := hmono.distinct
        answered := hmono.answered
        outranked := fun hm' => absurd hm' (by simp [topclockElection, hm])
        single := fun _ => hm }

theorem Kept.act_win (h : Kept c w) (hd : 2 * c.delay < 4 * c.samplerate)
    (hi : w.peers i = some p) (hw : p.electionWinner = true) (hc : p.callback ≤ w.now) :
    Kept c (w.act c i (electionReturns w.now p)) := by
  have hp := h.sane i p hi
  have hsleep := hp.winner hw
  obtain ⟨-, hcalled, hcall⟩ := hp.election hsleep
  have hdue := hp.due
  have hr : electionReturns w.now p = (again w.now { p with
      master := true, won := w.now, streamers := p.streamers + 1, electionWinner := false,
      sleeping := false }, [.stream]) := by
    simp [electionReturns, topclockStreamer, hw]
  rw [hr]
  refine h.change (h.hosts i p hi) rfl rfl ?_ ?_ (timely_act h _) ?_
  · exact {
      winner := fun hf => absurd hf (by simp [again])
      election := fun hf => absurd hf (by simp [again])
      late := fun _ => hp.late (.inl hsleep)
      won := fun _ => by simp only [again]; omega
      joined := hp.joined
      due := by simp only [again]; omega }
  · exact fun m hmem _ _ => mem_mail_act_of_mem _ hmem
  · intro j q hj hq
    have hij := h.peaceful i p j q (Ne.symm hj) hi hq
    have hji := h.peaceful j q i p hj hq hi
    have hfree := h.unopposed hd (Ne.symm hj) hi hq hw hc
    constructor
    · exact {
        distinct := hij.distinct
        answered := fun hf => absurd hf (by simp [again])
        outranked := hij.outranked
        single := fun _ => hfree }
    · exact {
        distinct := hji.distinct
        answered := by
          intro hw'
          have hq' := h.sane j q hq
          rcases hji.answered hw' with ha | ⟨t, ht, ha⟩ | ⟨hl, -⟩ | hjoin
          · exact .inl (mem_mail_act_of_mem _ ha)
          · exact .inr (.inl ⟨t, ht, mem_mail_act_of_mem _ ha⟩)
          · exact .inr (.inr (.inl ⟨hl, fun _ => (hq'.election (hq'.winner hw')).2.1⟩))
          · exact .inr (.inr (.inr hjoin))
        outranked := by
          intro _
          rcases h.heard hd (Ne.symm hj) hi hq hw hc with ⟨hlt, -⟩ | hjoin
          · exact .inl hlt
          · exact .inr hjoin
        single := fun hm => absurd hm (by simp [hfree]) }

theorem Kept.wake (h : Kept c w) (hd : 2 * c.delay < 4 * c.samplerate)
    (hi : w.peers i = some p) (hc : p.callback ≤ w.now)
    (hl : p.sleeping = false → (topclockSync c w.now p).1.sleeping = true →
      p.joined + 4 * c.samplerate + c.lag < w.now) :
    Kept c (w.act c i (runCallback c w.now p)) := by
  have hp := h.sane i p hi
  cases hs : p.sleeping with
  | true =>
    rw [runCallback, if_pos hs]
    obtain ⟨hm, -, -⟩ := hp.election hs
    cases hw : p.electionWinner with
    | true => exact h.act_win hd hi hw hc
    | false =>
      have hr : electionReturns w.now p =
          (again w.now { p with electionWinner := false, sleeping := false }, []) := by
        simp [electionReturns, hw]
      rw [hr]
      refine h.act_tame hi ?_ ⟨rfl, rfl, rfl, rfl, fun hf => hf, fun hf => ?_⟩
      · exact {
          winner := fun hf => absurd hf (by simp [again])
          election := fun hf => absurd hf (by simp [again])
          late := fun hf => absurd hf (by simp [again, hm])
          won := fun hf => absurd hf (by simp [again, hm])
          joined := hp.joined
          due := by simp only [again]; omega }
      · exact absurd hf (by simp [again])
  | false =>
    rw [runCallback, if_neg (by simp [hs]), topclockSync]
    split_ifs with hcall
    · refine h.act_election hi (by simpa using hcall.1) (hl hs ?_)
      rw [topclockSync, if_pos hcall]
      rfl
    · refine h.act_tame hi ?_ ⟨rfl, rfl, rfl, rfl, fun hf => hf, fun hf => hf⟩
      exact {
        winner := hp.winner
        election := fun hf => absurd hf (by simp [again, hs])
        late := hp.late
        won := hp.won
        joined := hp.joined
        due := by simp only [again]; omega }

theorem Kept.streamer (h : Kept c w) (hi : w.peers i = some p) :
    Kept c (w.act c i (topclockStreamer { p with streamers := p.streamers - 1 })) := by
  have hp := h.sane i p hi
  have hsame : ∃ n, (topclockStreamer { p with streamers := p.streamers - 1 }).1 =
      { p with streamers := n } := by
    rw [topclockStreamer]
    split_ifs
    · exact ⟨_, rfl⟩
    · exact ⟨_, rfl⟩
  obtain ⟨n, hn⟩ := hsame
  refine h.act_tame hi ?_ ?_
  · rw [hn]
    exact ⟨hp.winner, hp.election, hp.late, hp.won, hp.joined, hp.due⟩
  · rw [hn]
    exact ⟨rfl, rfl, rfl, rfl, fun hf => hf, fun hf => hf⟩

theorem Kept.join (h : Kept c w) {v : V} (hi : i ∈ c.hosts)
    (hv : ∀ j ∈ c.hosts, ∀ q ∈ w.peers j, q.electionVal ≠ v) :
    Kept c (w.act c i (again w.now (load c w.now v), [])) := by
  refine h.change hi rfl rfl ?_ ?_ (timely_act h _) ?_
  · exact {
      winner := fun hf => absurd hf (by simp [again, load])
      election := fun hf => absurd hf (by simp [again, load])
      late := fun hf => absurd hf (by simp [again, load])
      won := fun hf => absurd hf (by simp [again, load])
      joined := Nat.le_refl _
      due := by simp only [again, load]; omega }
  · exact fun m hmem _ _ => mem_mail_act_of_mem _ hmem
  · intro j q hj hq
    have hne := hv j (h.hosts j q hq) q hq
    have hsane := h.sane j q hq
    constructor
    · exact {
        distinct := Ne.symm hne
        answered := fun hf => absurd hf (by simp [again, load])
        outranked := by
          intro hm
          obtain ⟨hwon, -, hnow⟩ := hsane.won hm
          exact .inr (by simp only [again, load]; omega)
        single := fun hf => absurd hf (by simp [again, load]) }
    · exact {
        distinct := hne
        answered := fun hw => .inr (.inr (.inr (hsane.election (hsane.winner hw)).2.1))
        outranked := fun hf => absurd hf (by simp [again, load])
        single := fun _ => rfl }

theorem Kept.leave (h : Kept c w) (i : ι) :
    Kept c { w with peers := Function.update w.peers i none } where
  hosts := fun j q hj => h.hosts j q (peers_of_leave hj).2
  sane := fun j q hj => h.sane j q (peers_of_leave hj).2
  peaceful := fun j q k r hne hj hk =>
    h.peaceful j q k r hne (peers_of_leave hj).2 (peers_of_leave hk).2
  timely := h.timely

/-- Packets that nobody waits for may go. -/
theorem Kept.drop (h : Kept c w) {m : Packet ι V}
    (hm : m.message = .stream ∨ w.peers m.dst = none) :
    Kept c { w with mail := w.mail.erase m } where
  hosts := h.hosts
  sane := h.sane
  peaceful := by
    intro i p j q hne hi hj
    refine (h.peaceful i p j q hne hi hj).mono fun x hx hs hd => ?_
    refine (List.mem_erase_of_ne ?_).mpr hx
    rintro rfl
    rcases hm with hm | hm
    · exact hs hm
    · rcases hd with hd | hd
      · rw [hd, hi] at hm
        cases hm
      · rw [hd, hj] at hm
        cases hm
  timely := fun x hx => h.timely x (List.mem_of_mem_erase hx)

theorem mem_erase_append {m x : Packet ι V} (ms : List (Packet ι V)) (hx : x ∈ mail)
    (hne : x ≠ m) : x ∈ mail.erase m ++ ms :=
  List.mem_append_left _ ((List.mem_erase_of_ne hne).mpr hx)

theorem timely_answer (h : Kept c w) (m : Packet ι V) (r : Peer ι V × List (Message V)) :
    ∀ x ∈ (w.answer m r).mail, x.message = .stream ∨ w.now ≤ x.sent + c.delay := by
  intro x hx
  rw [mail_answer] at hx
  rcases List.mem_append.mp hx with hx | hx
  · exact h.timely x (List.mem_of_mem_erase hx)
  · obtain ⟨y, -, rfl⟩ := List.mem_map.mp hx
    exact .inr (Nat.le_add_right _ _)

/-- Whoever asks is told of a master and of a greater value. -/
theorem Kept.receive_electionQ (h : Kept c w) {src dst : ι} {v : V} {sent : ℕ}
    (hmem : ⟨src, dst, .electionQ v, sent⟩ ∈ w.mail) (hi : w.peers dst = some p) :
    Kept c (w.answer ⟨src, dst, .electionQ v, sent⟩
      (topclockReceive c w.now p src (.electionQ v))) := by
  refine h.change (h.hosts dst p hi) rfl rfl (h.sane _ p hi) ?_ (timely_answer h _ _) ?_
  · intro x hx _ hd
    rw [mail_answer]
    exact mem_erase_append _ hx fun he => hd (by rw [he])
  · intro j q hj hq
    rw [mail_answer]
    have hij := h.peaceful dst p j q (Ne.symm hj) hi hq
    have hji := h.peaceful j q dst p hj hq hi
    constructor
    · refine ⟨hij.distinct, fun hw => ?_, hij.outranked, hij.single⟩
      rcases hij.answered hw with ha | ⟨t, ht, ha⟩ | hl
      · exact .inl (mem_erase_append _ ha fun he => hj (Packet.mk.inj he).2.1)
      · refine .inr (.inl ⟨t, ht, mem_erase_append _ ha fun he => ?_⟩)
        cases (Packet.mk.inj he).2.2.1
      · exact .inr (.inr hl)
    · refine ⟨hji.distinct, fun hw => ?_, hji.outranked, hji.single⟩
      rcases hji.answered hw with ha | ⟨t, ht, ha⟩ | hl
      · -- the question of `j` itself may be what arrives
        by_cases he : (⟨j, dst, .electionQ q.electionVal, q.called⟩ : Packet ι V) =
            ⟨src, dst, .electionQ v, sent⟩
        · obtain ⟨rfl, -, hv, rfl⟩ := Packet.mk.inj he
          obtain rfl := Message.electionQ.inj hv
          by_cases hr : p.master = true ∨ q.electionVal < p.electionVal
          · refine .inr (.inl ⟨w.now, ?_, List.mem_append_right _ ?_⟩)
            · rcases h.timely _ hmem with hs | hs
              · cases hs
              · exact hs
            · simp [topclockReceive, hr]
          · obtain ⟨hm, hlt⟩ := not_or.mp hr
            refine .inr (.inr (.inl ⟨?_, fun hm' => absurd hm' hm⟩))
            exact lt_of_le_of_ne (not_lt.mp hlt) (Ne.symm hji.distinct)
        · exact .inl (mem_erase_append _ ha he)
      · refine .inr (.inl ⟨t, ht, mem_erase_append _ ha fun he => ?_⟩)
        cases (Packet.mk.inj he).2.2.1
      · exact .inr (.inr hl)

theorem Kept.receive_electionR (h : Kept c w) {src dst : ι} {sent : ℕ}
    (hi : w.peers dst = some p) :
    Kept c (w.answer ⟨src, dst, .electionR, sent⟩
      (topclockReceive c w.now p src .electionR)) := by
  have hp := h.sane _ p hi
  have hlost : (topclockReceive c w.now p src .electionR).1.electionWinner = false := rfl
  refine h.tame hi rfl rfl ?_ ?_ (timely_answer h _ _)
    ⟨rfl, rfl, rfl, rfl, fun hf => hf, fun hf => absurd hf (by simp [hlost])⟩
  · exact ⟨fun hf => absurd hf (by simp [hlost]), hp.election, hp.late, hp.won, hp.joined, hp.due⟩
  · intro x hx _
    rw [mail_answer]
    by_cases he : x = ⟨src, dst, .electionR, sent⟩
    · exact .inr ⟨by rw [he], by rw [he], hlost⟩
    · exact .inl (mem_erase_append _ hx he)

theorem Kept.receive_stream (h : Kept c w) {src dst : ι} {sent : ℕ}
    (hi : w.peers dst = some p) :
    Kept c (w.answer ⟨src, dst, .stream, sent⟩ (topclockReceive c w.now p src .stream)) := by
  have hp := h.sane _ p hi
  rw [topclockReceive_stream]
  refine h.tame hi rfl rfl ?_ ?_ (timely_answer h _ _)
    ⟨rfl, rfl, rfl, rfl, fun hf => (Bool.and_eq_true_iff.mp hf).1, fun hf => hf⟩
  · exact {
      winner := hp.winner
      election := fun hs => ⟨by simp [(hp.election hs).1], (hp.election hs).2⟩
      late := fun hs => hp.late (hs.imp_right fun hf => (Bool.and_eq_true_iff.mp hf).1)
      won := fun hf => hp.won (Bool.and_eq_true_iff.mp hf).1
      joined := hp.joined
      due := hp.due }
  · intro x hx hs
    rw [mail_answer]
    exact .inl (mem_erase_append _ hx fun he => hs (by rw [he]))

theorem Kept.receive (h : Kept c w) {m : Packet ι V} (hmem : m ∈ w.mail)
    (hi : w.peers m.dst = some p) :
    Kept c (w.answer m (topclockReceive c w.now p m.src m.message)) := by
  obtain ⟨src, dst, message, sent⟩ := m
  cases message with
  | electionQ v => exact h.receive_electionQ hmem hi
  | electionR => exact h.receive_electionR hi
  | stream => exact h.receive_stream hi

theorem Kept.step (hd : 2 * c.delay < 4 * c.samplerate) (h : Kept c w) {a : Act ι V}
    (ha : Distinct c w a ∧ Late c w a) (hs : step c w a = some w') : Kept c w' := by
  cases goes_of_step hs with
  | join hi _ => exact h.join hi ha.1
  | leave i => exact h.leave i
  | wake hp hc => exact h.wake hd hp hc (ha.2 _ hp)
  | streamer hp _ => exact h.streamer hp
  | drop _ hp => exact h.drop (.inr hp)
  | receive hm hp => exact h.receive hm hp
  | lose _ hm => exact h.drop (.inl hm)
  | elapse ht => exact h.elapse ht

theorem kept_run (hd : 2 * c.delay < 4 * c.samplerate) {as : List (Act ι V)}
    (hok : Meets (fun w a => Distinct c w a ∧ Late c w a) (step c) World.start as)
    (hr : run (step c) World.start as = some w) : Kept c w :=
  run_invariant (fun _ _ _ h ha hs => h.step hd ha hs) kept_start hok hr

theorem Kept.eq_of_master (h : Kept c w) (hi : Master w i) (hj : Master w j) : i = j := by
  obtain ⟨p, hp, hm⟩ := hi
  obtain ⟨q, hq, hm'⟩ := hj
  by_contra hne
  exact absurd ((h.peaceful i p j q hne hp hq).single hm) (by simp [hm'])

/-- In every run there is at most one clock: whoever calls and answers elections, joins, leaves
and loses streamed packets in which order ever. -/
theorem master_unique (hd : 2 * c.delay < 4 * c.samplerate) {as : List (Act ι V)}
    (hok : Meets (fun w a => Distinct c w a ∧ Late c w a) (step c) World.start as)
    (hr : run (step c) World.start as = some w) (hi : Master w i) (hj : Master w j) : i = j :=
  (kept_run hd hok hr).eq_of_master hi hj

/-- Two peers call an election at almost the same time. -/
def contested : List (Act ℕ ℕ) :=
  [.join 0 5, .elapse 7, .join 1 9, .elapse 9993, .wake 0, .elapse 5,
    .deliver ⟨0, 0, .electionQ 5, 10000⟩, .deliver ⟨0, 1, .electionQ 5, 10000⟩, .elapse 2, .wake 1,
    .deliver ⟨1, 0, .electionR, 10005⟩, .deliver ⟨1, 0, .electionQ 9, 10007⟩,
    .deliver ⟨1, 1, .electionQ 9, 10007⟩, .elapse 33, .wake 0, .elapse 7, .wake 1,
    .deliver ⟨1, 0, .stream, 10047⟩]

theorem master_unique_contested : ∃ w, run (step ⟨[0, 1], 10, 5, 0⟩) World.start contested = some w ∧
    Master w 1 ∧ ∀ i, Master w i → i = 1 := by
  have h : ∃ w ∈ run (step ⟨[0, 1], 10, 5, 0⟩) World.start contested, Master w 1 := by
    decide +kernel
  obtain ⟨w, hw, hm⟩ := h
  exact ⟨w, hw, hm, fun i hi => master_unique (by decide) (by decide +kernel) hw hi hm⟩

theorem Patient.step (h : Patient c w) {a : Act ι V} (ha : Quiet c w a)
    (hs : step c w a = some w') : Patient c w' := by
  cases goes_of_step hs with
  | join => exact h.change (Nat.le_refl _) rfl (Nat.le_refl _) (Nat.le_refl _)
  | leave i => exact fun j q hj => h j q (peers_of_leave hj).2
  | @wake i p hp =>
    obtain ⟨hjoin, hlast⟩ := runCallback_untouched c w.now p
    refine h.change (Nat.le_refl _) rfl ?_ ?_
    · rw [hjoin, hlast]
      exact (h i p hp).1
    · rw [hjoin]
      exact (h i p hp).2
  | @streamer i p hp =>
    obtain ⟨hjoin, hlast⟩ := topclockStreamer_untouched { p with streamers := p.streamers - 1 }
    refine h.change (Nat.le_refl _) rfl ?_ ?_
    · rw [hjoin, hlast]
      exact (h i p hp).1
    · rw [hjoin]
      exact (h i p hp).2
  | drop => exact h
  | @receive m p _ hp =>
    have hm := h m.dst p hp
    obtain ⟨src, dst, message, sent⟩ := m
    cases message with
    | electionQ v => exact h.change (Nat.le_refl _) rfl hm.1 hm.2
    | electionR =>
      refine h.change (Nat.le_refl _) rfl ?_ hm.2
      simp only [topclockReceive]
      have := hm.2
      omega
    | stream =>
      rw [topclockReceive_stream]
      exact h.change (Nat.le_refl _) rfl (ha rfl p hp) hm.2
  | lose => exact h
  | elapse => exact fun i p hi => ⟨(h i p hi).1, Nat.le_add_right_of_le (h i p hi).2⟩

theorem late_of_quiet (hlag : c.lag = 0) {as : List (Act ι V)}
    (hok : Meets (fun w a => Distinct c w a ∧ Quiet c w a) (step c) World.start as) :
    Meets (fun w a => Distinct c w a ∧ Late c w a) (step c) World.start as := by
  refine meets_of_invariant (J := Patient c) (fun _ _ _ h ha hs => h.step ha.2 hs)
    (fun _ a h ha => ⟨ha.1, h.late hlag a⟩) ?_ hok
  intro i p hi
  cases hi

end Extempore.ClockElection
