import Extempore.ClockElection
import Mathlib.Data.Nat.Basic

/-!
# A clock that stops is replaced

When nobody streams, the peer with the greatest election value loses no election by an answer to
what it asks from now on. So it hears the last such answer soon, waits for five seconds and for
three more, and wins the next election that it calls, unless another peer has won before.
-/

namespace Extempore.ClockElection
open GuardedRuns

variable {ι V : Type*} {c : Network ι} {w w' : World ι V} {i j : ι} {p p' q : Peer ι V}

/-- Timers of a peer are set for a few seconds at most. -/
structure Prompt (c : Network ι) (now : ℕ) (p : Peer ι V) : Prop where
  lastmsg : p.lastmsg ≤ now + 5 * c.samplerate
  awake : p.sleeping = false → p.callback ≤ now + 10000
  asleep : p.sleeping = true → p.callback ≤ now + 4 * c.samplerate
  due : now ≤ p.callback + c.lag

structure Punctual (c : Network ι) (w : World ι V) : Prop where
  hosts : ∀ i p, w.peers i = some p → i ∈ c.hosts
  prompt : ∀ i p, w.peers i = some p → Prompt c w.now p
  sent : ∀ m ∈ w.mail, m.sent ≤ w.now
  timely : ∀ m ∈ w.mail, m.message = .stream ∨ w.now ≤ m.sent + c.delay

theorem Prompt.again (h : p.lastmsg ≤ w.now + 5 * c.samplerate) (hs : p.sleeping = false) :
    Prompt c w.now (again w.now p) where
  lastmsg := h
  awake _ := Nat.le_refl _
  asleep hf := absurd hf (by simp [ClockElection.again, hs])
  due := by simp only [ClockElection.again]; omega

theorem Prompt.topclockStreamer (h : Prompt c w.now p) (n : ℕ) :
    Prompt c w.now (topclockStreamer { p with streamers := n }).1 := by
  rw [ClockElection.topclockStreamer]
  split_ifs
  · exact ⟨h.lastmsg, h.awake, h.asleep, h.due⟩
  · exact ⟨h.lastmsg, h.awake, h.asleep, h.due⟩

theorem Prompt.runCallback (h : Prompt c w.now p) :
    Prompt c w.now (runCallback c w.now p).1 := by
  have hlast := (runCallback_untouched c w.now p).2
  rw [ClockElection.runCallback] at hlast ⊢
  split_ifs at hlast ⊢ with hs
  · refine .again ?_ rfl
    exact hlast.symm ▸ h.lastmsg
  · rw [topclockSync]
    split_ifs
    · exact {
        lastmsg := h.lastmsg
        awake := fun hf => absurd hf (by simp [topclockElection])
        asleep := fun _ => Nat.le_refl _
        due := by simp only [topclockElection]; omega }
    · exact .again h.lastmsg (by simpa using hs)

theorem Prompt.receive [DecidableEq ι] [LinearOrder V] (h : Prompt c w.now p) (src : ι)
    (m : Message V) : Prompt c w.now (topclockReceive c w.now p src m).1 := by
  cases m with
  | electionQ v => exact h
  | electionR => exact ⟨Nat.le_refl _, h.awake, h.asleep, h.due⟩
  | stream =>
    rw [topclockReceive_stream]
    exact ⟨Nat.le_add_right _ _, h.awake, h.asleep, h.due⟩

/-- What the greatest peer still waits for when nobody has streamed since `t`. -/
structure Hopeful (c : Network ι) (t : ℕ) (p : Peer ι V) : Prop where
  lastmsg : p.lastmsg ≤ t + 2 * c.delay + 5 * c.samplerate
  awake : p.sleeping = false →
    p.callback ≤ t + 2 * c.delay + 8 * c.samplerate + c.lag + 10000
  lost : p.sleeping = true → p.electionWinner = false →
    p.callback ≤ t + 2 * c.delay + 4 * c.samplerate
  winning : p.sleeping = true → p.electionWinner = true →
    p.callback ≤ t + 2 * c.delay + 12 * c.samplerate + 2 * c.lag + 10000

/-- A callback that does not make its peer the clock sends a question at most. -/
theorem runCallback_of_not_master (hw : (runCallback c w.now p).1.master = false) :
    (runCallback c w.now p).1.streamers = p.streamers ∧
      (runCallback c w.now p).1.electionVal = p.electionVal ∧
      ∀ x ∈ (runCallback c w.now p).2, x = .electionQ p.electionVal := by
  rw [ClockElection.runCallback] at hw ⊢
  split_ifs at hw ⊢
  · have hlost : p.electionWinner = false := by
      cases hwin : p.electionWinner with
      | false => rfl
      | true => simp [electionReturns, topclockStreamer, hwin, again] at hw
    simp [electionReturns, hlost, again]
  · rw [topclockSync]
    split_ifs
    · exact ⟨rfl, rfl, fun x hx => List.mem_singleton.mp hx⟩
    · exact ⟨rfl, rfl, fun x hx => absurd hx (by simp)⟩

theorem Hopeful.runCallback {t : ℕ} (h : Hopeful c t p) (hdue : w.now ≤ p.callback + c.lag)
    (hw : (runCallback c w.now p).1.master = false) (hm : p.master = false) :
    Hopeful c t (runCallback c w.now p).1 := by
  have hlast := (runCallback_untouched c w.now p).2
  rw [ClockElection.runCallback] at hw hlast ⊢
  split_ifs at hw hlast ⊢ with hs
  · have hlost : p.electionWinner = false := by
      cases hwin : p.electionWinner with
      | false => rfl
      | true => simp [electionReturns, topclockStreamer, hwin, again] at hw
    have := h.lost hs hlost
    refine ⟨hlast.symm ▸ h.lastmsg, fun _ => ?_, fun hf => ?_, fun hf => ?_⟩
    · simp only [electionReturns, again]
      omega
    · cases hf
    · cases hf
  · have hs : p.sleeping = false := by simpa using hs
    have := h.awake hs
    rw [topclockSync]
    split_ifs with hc
    · refine ⟨h.lastmsg, fun hf => ?_, fun _ hf => ?_, fun _ _ => ?_⟩
      · cases hf
      · cases hf
      · simp only [topclockElection]
        omega
    · have hwait : w.now ≤ p.lastmsg + 3 * c.samplerate := by
        by_contra hlate
        exact hc ⟨by simp [hm], by omega⟩
      have := h.lastmsg
      refine ⟨h.lastmsg, fun _ => ?_, fun hf => absurd hf (by simp [again, hs]),
        fun hf => absurd hf (by simp [again, hs])⟩
      simp only [again]
      omega

theorem Hopeful.electionR {t : ℕ} (h : Hopeful c t p) (hp : Prompt c w.now p)
    (hnow : w.now ≤ t + 2 * c.delay) :
    Hopeful c t { p with lastmsg := w.now + 5 * c.samplerate, electionWinner := false } := by
  refine ⟨?_, h.awake, fun hs _ => ?_, fun _ hf => ?_⟩
  · simp only
    omega
  · have := hp.asleep hs
    simp only
    omega
  · cases hf

section
variable [LinearOrder V]

/-- Nobody is the clock, and nothing of an earlier clock is still to come. -/
structure Silent (w : World ι V) : Prop where
  peers : ∀ i p, w.peers i = some p → p.master = false ∧ p.streamers = 0
  mail : ∀ m ∈ w.mail, m.message ≠ .stream

structure Waiting (c : Network ι) (t : ℕ) (i : ι) (v : V) (w : World ι V) : Prop where
  punctual : Punctual c w
  silent : Silent w
  greatest : ∀ j q, w.peers j = some q → q.electionVal ≤ v
  asked : ∀ m ∈ w.mail, ∀ u, m.message = .electionQ u → m.src = i → u = v ∨ m.sent ≤ t
  told : ∀ m ∈ w.mail, m.message = .electionR → m.dst = i → m.sent ≤ t + c.delay
  hopeful : ∃ p, w.peers i = some p ∧ p.electionVal = v ∧ Hopeful c t p

/-- While the time that the greatest peer needs is not over, nobody need be the clock. -/
theorem Waiting.now_le {t : ℕ} {v : V} (h : Waiting c t i v w) :
    w.now ≤ t + 2 * c.delay + 12 * c.samplerate + 3 * c.lag + 10000 := by
  obtain ⟨p, hp, -, hhope⟩ := h.hopeful
  have hdue := (h.punctual.prompt i p hp).due
  cases hs : p.sleeping with
  | false =>
    have := hhope.awake hs
    omega
  | true =>
    cases hw : p.electionWinner with
    | false =>
      have := hhope.lost hs hw
      omega
    | true =>
      have := hhope.winning hs hw
      omega

theorem Punctual.waiting (h : Punctual c w) (hs : Silent w) (hi : w.peers i = some p)
    (hg : ∀ j q, w.peers j = some q → q.electionVal ≤ p.electionVal) :
    Waiting c w.now i p.electionVal w where
  punctual := h
  silent := hs
  greatest := hg
  asked := fun m hm _ _ _ => .inr (h.sent m hm)
  told := fun m hm _ _ => Nat.le_add_right_of_le (h.sent m hm)
  hopeful := by
    have hp := h.prompt i p hi
    refine ⟨p, hi, rfl, ?_, fun hf => ?_, fun hf _ => ?_, fun hf _ => ?_⟩
    · have := hp.lastmsg
      omega
    · have := hp.awake hf
      omega
    · have := hp.asleep hf
      omega
    · have := hp.asleep hf
      omega

end

variable [DecidableEq ι]

theorem Punctual.act (h : Punctual c w) (hi : i ∈ c.hosts) {r : Peer ι V × List (Message V)}
    (hp : Prompt c w.now r.1) : Punctual c (w.act c i r) where
  hosts := forall_peers_update rfl hi fun j q _ => h.hosts j q
  prompt := forall_peers_update rfl hp fun j q _ => h.prompt j q
  sent := by
    intro m hm
    rcases mem_mail_act.mp hm with hm | ⟨x, -, k, -, rfl⟩
    · exact h.sent m hm
    · exact Nat.le_refl _
  timely := by
    intro m hm
    rcases mem_mail_act.mp hm with hm | ⟨x, -, k, -, rfl⟩
    · exact h.timely m hm
    · exact .inr (Nat.le_add_right _ _)

variable [LinearOrder V]

theorem Punctual.answer (h : Punctual c w) {m : Packet ι V} (hi : m.dst ∈ c.hosts)
    {r : Peer ι V × List (Message V)} (hp : Prompt c w.now r.1) :
    Punctual c (w.answer m r) where
  hosts := forall_peers_update rfl hi fun j q _ => h.hosts j q
  prompt := forall_peers_update rfl hp fun j q _ => h.prompt j q
  sent := by
    intro x hx
    rw [mail_answer, List.mem_append, List.mem_map] at hx
    rcases hx with hx | ⟨y, -, rfl⟩
    · exact h.sent x (List.mem_of_mem_erase hx)
    · exact Nat.le_refl _
  timely := by
    intro x hx
    rw [mail_answer, List.mem_append, List.mem_map] at hx
    rcases hx with hx | ⟨y, -, rfl⟩
    · exact h.timely x (List.mem_of_mem_erase hx)
    · exact .inr (Nat.le_add_right _ _)

theorem Punctual.drop (h : Punctual c w) (m : Packet ι V) :
    Punctual c { w with mail := w.mail.erase m } :=
  ⟨h.hosts, h.prompt, fun x hx => h.sent x (List.mem_of_mem_erase hx),
    fun x hx => h.timely x (List.mem_of_mem_erase hx)⟩

theorem Punctual.step (h : Punctual c w) {a : Act ι V} (hs : step c w a = some w') :
    Punctual c w' := by
  cases goes_of_step hs with
  | join hi _ =>
    refine h.act hi (.again ?_ rfl)
    simp only [load]
    omega
  | leave i =>
    exact ⟨fun j q hj => h.hosts j q (peers_of_leave hj).2,
      fun j q hj => h.prompt j q (peers_of_leave hj).2, h.sent, h.timely⟩
  | @wake i p hp => exact h.act (h.hosts i p hp) (h.prompt i p hp).runCallback
  | @streamer i p hp => exact h.act (h.hosts i p hp) ((h.prompt i p hp).topclockStreamer _)
  | @drop m => exact h.drop m
  | @receive m p _ hp => exact h.answer (h.hosts _ p hp) ((h.prompt _ p hp).receive _ _)
  | @lose m => exact h.drop m
  | elapse ht =>
    refine ⟨h.hosts, fun i p hi => ?_, fun m hm => Nat.le_add_right_of_le (h.sent m hm), ht.2⟩
    have hp := h.prompt i p hi
    exact {
      lastmsg := by have := hp.lastmsg; simp only; omega
      awake := fun hs => by have := hp.awake hs; simp only; omega
      asleep := fun hs => by have := hp.asleep hs; simp only; omega
      due := ht.1 i (h.hosts i p hi) p hi }

theorem punctual_run {as : List (Act ι V)} (hr : run (step c) World.start as = some w) :
    Punctual c w := by
  refine run_invariant (I := Punctual c) (fun _ _ _ h _ hs => h.step hs) ?_
    (meets_true World.start as) hr
  exact ⟨fun _ _ hi => absurd hi (by simp [World.start]),
    fun _ _ hi => absurd hi (by simp [World.start]), fun _ hm => absurd hm (by simp [World.start]),
    fun _ hm => absurd hm (by simp [World.start])⟩

/-- Peer `i` stays, and nobody with a greater value joins. -/
def Stays (i : ι) (v : V) : Act ι V → Prop
  | .join _ u => u ≤ v
  | .leave j => j ≠ i
  | _ => True

theorem Waiting.act {t : ℕ} {v : V} (h : Waiting c t i v w) {r : Peer ι V × List (Message V)}
    (hpun : Punctual c (w.act c j r)) (hp : r.1.master = false ∧ r.1.streamers = 0)
    (hv : r.1.electionVal ≤ v) (hms : ∀ x ∈ r.2, x = .electionQ r.1.electionVal)
    (hi : j = i → r.1.electionVal = v ∧ Hopeful c t r.1) : Waiting c t i v (w.act c j r) where
  punctual := hpun
  silent := by
    refine ⟨forall_peers_update rfl hp fun k q _ => h.silent.peers k q, fun m hm => ?_⟩
    rcases mem_mail_act.mp hm with hm | ⟨x, hx, k, -, rfl⟩
    · exact h.silent.mail m hm
    · simp [hms x hx]
  greatest := forall_peers_update rfl hv fun k q _ => h.greatest k q
  asked := by
    intro m hm u hu hsrc
    rcases mem_mail_act.mp hm with hm | ⟨x, hx, k, -, rfl⟩
    · exact h.asked m hm u hu hsrc
    · obtain rfl : u = r.1.electionVal := Message.electionQ.inj (hu.symm.trans (hms x hx))
      exact .inl (hi hsrc).1
  told := by
    intro m hm hr hd
    rcases mem_mail_act.mp hm with hm | ⟨x, hx, k, -, rfl⟩
    · exact h.told m hm hr hd
    · cases hr.symm.trans (hms x hx)
  hopeful := by
    by_cases hji : j = i
    · obtain ⟨hval, hhope⟩ := hi hji
      exact ⟨r.1, by rw [peers_act, hji, Function.update_self], hval, hhope⟩
    · obtain ⟨p, hp, hrest⟩ := h.hopeful
      exact ⟨p, by rw [peers_act, Function.update_of_ne (Ne.symm hji), hp], hrest⟩

theorem Waiting.drop {t : ℕ} {v : V} (h : Waiting c t i v w) (m : Packet ι V) :
    Waiting c t i v { w with mail := w.mail.erase m } where
  punctual := h.punctual.drop m
  silent := ⟨h.silent.peers, fun x hx => h.silent.mail x (List.mem_of_mem_erase hx)⟩
  greatest := h.greatest
  asked := fun x hx => h.asked x (List.mem_of_mem_erase hx)
  told := fun x hx => h.told x (List.mem_of_mem_erase hx)
  hopeful := h.hopeful

/-- Peer `i` is answered by nobody, unless it has asked before. -/
theorem Waiting.electionQ {t : ℕ} {v u : V} (h : Waiting c t i v w) {src dst : ι} {sent : ℕ}
    (hm : ⟨src, dst, .electionQ u, sent⟩ ∈ w.mail) (hp : w.peers dst = some p) :
    Waiting c t i v (w.answer ⟨src, dst, .electionQ u, sent⟩
      (topclockReceive c w.now p src (.electionQ u))) := by
  have hsame : Function.update w.peers dst (some p) = w.peers := by
    rw [← hp, Function.update_eq_self]
  have hpeers : (w.answer ⟨src, dst, .electionQ u, sent⟩
      (topclockReceive c w.now p src (.electionQ u))).peers = w.peers := hsame
  have hmail : ∀ x ∈ (w.answer ⟨src, dst, .electionQ u, sent⟩
      (topclockReceive c w.now p src (.electionQ u))).mail,
      x ∈ w.mail ∨ x = ⟨dst, src, .electionR, w.now⟩ ∧ u < p.electionVal := by
    intro x hx
    rw [mail_answer, List.mem_append, List.mem_map] at hx
    rcases hx with hx | ⟨y, hy, rfl⟩
    · exact .inl (List.mem_of_mem_erase hx)
    · have hmaster := (h.silent.peers dst p hp).1
      by_cases hlt : u < p.electionVal
      · obtain rfl : y = .electionR := by simpa [topclockReceive, hmaster, hlt] using hy
        exact .inr ⟨rfl, hlt⟩
      · simp [topclockReceive, hmaster, hlt] at hy
  refine ⟨h.punctual.answer (h.punctual.hosts dst p hp)
    ((h.punctual.prompt dst p hp).receive _ _), ⟨?_, ?_⟩, ?_, ?_, ?_, ?_⟩
  · rw [hpeers]
    exact h.silent.peers
  · intro x hx
    rcases hmail x hx with hx | ⟨rfl, -⟩
    · exact h.silent.mail x hx
    · simp
  · rw [hpeers]
    exact h.greatest
  · intro x hx u' hu hsrc
    rcases hmail x hx with hx | ⟨rfl, -⟩
    · exact h.asked x hx u' hu hsrc
    · cases hu
  · intro x hx hr hd
    rcases hmail x hx with hx | ⟨rfl, hlt⟩
    · exact h.told x hx hr hd
    · rcases h.asked _ hm u rfl hd with rfl | hsent
      · exact absurd hlt (not_lt.mpr (h.greatest dst p hp))
      · rcases h.punctual.timely _ hm with hs | hs
        · cases hs
        · simp only at hs hsent ⊢
          omega
  · rw [hpeers]
    exact h.hopeful

theorem Waiting.electionR {t : ℕ} {v : V} (h : Waiting c t i v w) {src dst : ι} {sent : ℕ}
    (hm : ⟨src, dst, .electionR, sent⟩ ∈ w.mail) (hp : w.peers dst = some p) :
    Waiting c t i v (w.answer ⟨src, dst, .electionR, sent⟩
      (topclockReceive c w.now p src .electionR)) := by
  have hmail : ∀ x ∈ (w.answer ⟨src, dst, .electionR, sent⟩
      (topclockReceive c w.now p src .electionR)).mail, x ∈ w.mail := by
    intro x hx
    rw [mail_answer, List.mem_append, List.mem_map] at hx
    rcases hx with hx | ⟨y, hy, rfl⟩
    · exact List.mem_of_mem_erase hx
    · cases hy
  refine ⟨h.punctual.answer (h.punctual.hosts dst p hp)
    ((h.punctual.prompt dst p hp).receive _ _), ⟨?_, ?_⟩, ?_, ?_, ?_, ?_⟩
  · exact forall_peers_update rfl (h.silent.peers dst p hp) fun k q _ => h.silent.peers k q
  · exact fun x hx => h.silent.mail x (hmail x hx)
  · exact forall_peers_update rfl (h.greatest dst p hp) fun k q _ => h.greatest k q
  · exact fun x hx => h.asked x (hmail x hx)
  · exact fun x hx => h.told x (hmail x hx)
  · obtain ⟨q, hq, hval, hhope⟩ := h.hopeful
    by_cases hdi : dst = i
    · subst hdi
      obtain rfl : p = q := Option.some.inj (hp.symm.trans hq)
      have hnow : w.now ≤ t + 2 * c.delay := by
        have := h.told _ hm rfl rfl
        rcases h.punctual.timely _ hm with hs | hs
        · cases hs
        · simp only at hs this
          omega
      exact ⟨_, Function.update_self _ _ _, hval,
        hhope.electionR (h.punctual.prompt dst p hp) hnow⟩
    · exact ⟨q, (Function.update_of_ne (Ne.symm hdi) _ _).trans hq, hval, hhope⟩

theorem Waiting.step {t : ℕ} {v : V} (h : Waiting c t i v w) {a : Act ι V} (ha : Stays i v a)
    (hs : step c w a = some w') (hno : ∀ j, ¬ Master w' j) : Waiting c t i v w' := by
  have hpun := h.punctual.step hs
  cases goes_of_step hs with
  | @join j u _ hj =>
    refine h.act hpun ⟨rfl, rfl⟩ ha (fun x hx => absurd hx (by simp)) ?_
    rintro rfl
    obtain ⟨p, hp, -⟩ := h.hopeful
    cases hj.symm.trans hp
  | leave j =>
    obtain ⟨p, hp, hrest⟩ := h.hopeful
    exact ⟨hpun, ⟨fun k q hk => h.silent.peers k q (peers_of_leave hk).2, h.silent.mail⟩,
      fun k q hk => h.greatest k q (peers_of_leave hk).2, h.asked, h.told,
      p, (Function.update_of_ne (Ne.symm ha) _ _).trans hp, hrest⟩
  | @wake j p hp hc =>
    have hw : (runCallback c w.now p).1.master = false := by
      cases hm : (runCallback c w.now p).1.master with
      | false => rfl
      | true => exact absurd ⟨_, Function.update_self _ _ _, hm⟩ (hno j)
    obtain ⟨hstr, hval, hms⟩ := runCallback_of_not_master hw
    have hsil := h.silent.peers j p hp
    refine h.act hpun ⟨hw, hstr.trans hsil.2⟩ (hval ▸ h.greatest j p hp) (hval ▸ hms) ?_
    rintro rfl
    obtain ⟨q, hq, hqval, hhope⟩ := h.hopeful
    obtain rfl : p = q := Option.some.inj (hp.symm.trans hq)
    exact ⟨hval.trans hqval, hhope.runCallback (h.punctual.prompt j p hp).due hw hsil.1⟩
  | @streamer j p hp hn => exact absurd (h.silent.peers j p hp).2 hn
  | @drop m => exact h.drop m
  | @receive m p hm hp =>
    obtain ⟨src, dst, message, sent⟩ := m
    cases message with
    | electionQ u => exact h.electionQ hm hp
    | electionR => exact h.electionR hm hp
    | stream => exact absurd rfl (h.silent.mail _ hm)
  | @lose m => exact h.drop m
  | elapse =>
    exact ⟨hpun, ⟨h.silent.peers, h.silent.mail⟩, h.greatest, h.asked, h.told, h.hopeful⟩

/-- The first of three peers has won, abdicates when it hears its own clock, and leaves. -/
def deserted : List (Act ℕ ℕ) :=
  [.join 0 5, .elapse 10000, .wake 0, .deliver ⟨0, 0, .electionQ 5, 10000⟩, .elapse 40, .wake 0,
    .join 1 7, .join 2 6, .deliver ⟨0, 0, .stream, 10040⟩, .leave 0]

/-- The second calls the election that it wins. -/
def replaced : List (Act ℕ ℕ) :=
  [.elapse 10000, .wake 1, .wake 2, .deliver ⟨1, 1, .electionQ 7, 20040⟩,
    .deliver ⟨1, 2, .electionQ 7, 20040⟩, .deliver ⟨2, 1, .electionQ 6, 20040⟩,
    .deliver ⟨2, 2, .electionQ 6, 20040⟩, .deliver ⟨1, 2, .electionR, 20040⟩, .elapse 40, .wake 1,
    .wake 2, .elapse 10000]

end Extempore.ClockElection
