import Extempore.GuardedRuns
import Mathlib.Order.Lattice
import Mathlib.Logic.Function.Basic
import Mathlib.Data.Nat.Notation
import Mathlib.Tactic.Common

/-!
# The election of the distributed clock

Every peer that has loaded `topclock.xtm` runs `topclock-sync`, answers the messages that arrive
on the clock's port, and calls an election when no clock has streamed for three seconds. The
caller broadcasts its election value, sleeps for four seconds and is the master if nobody has
answered. A world is all peers with the packets between them; a step runs one callback, delivers
or loses one packet, starts or stops a peer, or lets time pass.
-/

namespace Extempore.ClockElection
open GuardedRuns

variable {ι V : Type*} [DecidableEq ι] [LinearOrder V]

/-- The machines that a broadcast reaches, and how fast they and the network are. Time is counted
in samples: election messages arrive within `delay`, callbacks run at most `lag` late. -/
structure Network (ι : Type*) where
  hosts : List ι
  samplerate : ℕ
  delay : ℕ
  lag : ℕ

inductive Message (V : Type*)
  | electionQ (electionVal : V)
  | electionR
  | stream
  deriving DecidableEq

structure Packet (ι V : Type*) where
  src : ι
  dst : ι
  message : Message V
  sent : ℕ
  deriving DecidableEq

/-- The globals of one peer, with its pending callbacks: `callback` is when `sys:sleep` returns
into the election, or when `topclock-sync` runs again. An address is `none` for `127.0.0.1`.
The last three fields record when things happened and are never read. -/
structure Peer (ι V : Type*) where
  electionVal : V
  master : Bool
  masterIp : Option ι
  oldMasterIp : Option ι
  lastmsg : ℕ
  electionWinner : Bool
  sleeping : Bool
  callback : ℕ
  streamers : ℕ
  joined : ℕ
  called : ℕ
  won : ℕ

/-- The library's top level, up to the first `(topclock-sync 0)`. -/
def load (c : Network ι) (now : ℕ) (electionVal : V) : Peer ι V where
  electionVal := electionVal
  master := false
  masterIp := none
  oldMasterIp := none
  lastmsg := now + c.samplerate
  electionWinner := false
  sleeping := false
  callback := now
  streamers := 0
  joined := now
  called := 0
  won := 0

/-- `topclock-receive`: the peer afterwards and what it sends back. -/
def topclockReceive (c : Network ι) (now : ℕ) (p : Peer ι V) (src : ι) :
    Message V → Peer ι V × List (Message V)
  | .electionQ electionVal =>
    (p, if p.master ∨ electionVal < p.electionVal then [.electionR] else [])
  | .electionR => ({ p with lastmsg := now + 5 * c.samplerate, electionWinner := false }, [])
  | .stream =>
    let p := { p with masterIp := some src }
    let p := if p.masterIp = p.oldMasterIp then p else
      { p with master := false, oldMasterIp := p.masterIp }
    ({ p with lastmsg := now }, [])

/-- `topclock-streamer`: one message for everybody, and another call for as long as the peer is
the master. -/
def topclockStreamer (p : Peer ι V) : Peer ι V × List (Message V) :=
  (if p.master then { p with streamers := p.streamers + 1 } else p, [.stream])

/-- `topclock-election` up to its `sys:sleep`. -/
def topclockElection (c : Network ι) (now : ℕ) (p : Peer ι V) : Peer ι V × List (Message V) :=
  ({ p with
      electionWinner := true, sleeping := true, called := now,
      callback := now + 4 * c.samplerate },
    [.electionQ p.electionVal])

/-- The end of `topclock-sync`. -/
def again (now : ℕ) (p : Peer ι V) : Peer ι V := { p with callback := now + 10000 }

/-- `topclock-election` from its `sys:sleep` on, and back into `topclock-sync`. -/
def electionReturns (now : ℕ) (p : Peer ι V) : Peer ι V × List (Message V) :=
  let r := if p.electionWinner then
    topclockStreamer { p with master := true, won := now } else (p, [])
  (again now { r.1 with electionWinner := false, sleeping := false }, r.2)

def topclockSync (c : Network ι) (now : ℕ) (p : Peer ι V) : Peer ι V × List (Message V) :=
  if ¬ p.master ∧ p.lastmsg + 3 * c.samplerate < now then topclockElection c now p
  else (again now p, [])

/-- What the scheduler finds in the pending callback. -/
def runCallback (c : Network ι) (now : ℕ) (p : Peer ι V) : Peer ι V × List (Message V) :=
  if p.sleeping then electionReturns now p else topclockSync c now p

structure World (ι V : Type*) where
  now : ℕ
  peers : ι → Option (Peer ι V)
  mail : List (Packet ι V)

def World.start : World ι V := ⟨0, fun _ => none, []⟩

/-- Everybody who is up gets a broadcast, the sender as well. -/
def World.audience (c : Network ι) (w : World ι V) : List ι :=
  c.hosts.filter fun j => (w.peers j).isSome

def World.put (w : World ι V) (i : ι) (p : Peer ι V) : World ι V :=
  { w with peers := Function.update w.peers i (some p) }

def World.post (w : World ι V) (i : ι) (ms : List (Message V)) (js : List ι) : World ι V :=
  { w with mail := w.mail ++ ms.flatMap fun m => js.map fun j => ⟨i, j, m, w.now⟩ }

/-- Peer `i` has become `r.1` and broadcasts `r.2`. -/
def World.act (c : Network ι) (w : World ι V) (i : ι) (r : Peer ι V × List (Message V)) :
    World ι V :=
  (w.put i r.1).post i r.2 ((w.put i r.1).audience c)

/-- Peer `m.dst` has taken `m` and become `r.1`, and answers `r.2`. -/
def World.answer (w : World ι V) (m : Packet ι V) (r : Peer ι V × List (Message V)) :
    World ι V :=
  (World.put { w with mail := w.mail.erase m } m.dst r.1).post m.dst r.2 [m.src]

inductive Act (ι V : Type*)
  | join (i : ι) (electionVal : V)
  | leave (i : ι)
  | wake (i : ι)
  | streamer (i : ι)
  | deliver (m : Packet ι V)
  | lose (m : Packet ι V)
  | elapse (n : ℕ)

/-- At time `t` no callback and no election message is later than allowed. -/
def Timely (c : Network ι) (w : World ι V) (t : ℕ) : Prop :=
  (∀ i ∈ c.hosts, ∀ p ∈ w.peers i, t ≤ p.callback + c.lag) ∧
    ∀ m ∈ w.mail, m.message = .stream ∨ t ≤ m.sent + c.delay

instance (c : Network ι) (w : World ι V) (t : ℕ) : Decidable (Timely c w t) :=
  inferInstanceAs (Decidable (_ ∧ _))

def step (c : Network ι) (w : World ι V) : Act ι V → Option (World ι V)
  | .join i v =>
    if i ∈ c.hosts ∧ (w.peers i).isNone then
      some (w.act c i (topclockSync c w.now (load c w.now v)))
    else none
  | .leave i => some { w with peers := Function.update w.peers i none }
  | .wake i =>
    (w.peers i).bind fun p =>
      if p.callback ≤ w.now then some (w.act c i (runCallback c w.now p)) else none
  | .streamer i =>
    (w.peers i).bind fun p =>
      if p.streamers = 0 then none else
        some (w.act c i (topclockStreamer { p with streamers := p.streamers - 1 }))
  | .deliver m =>
    if m ∈ w.mail then
      match w.peers m.dst with
      | none => some { w with mail := w.mail.erase m }
      | some p => some (w.answer m (topclockReceive c w.now p m.src m.message))
    else none
  | .lose m =>
    if m ∈ w.mail ∧ m.message = .stream then some { w with mail := w.mail.erase m } else none
  | .elapse n => if Timely c w (w.now + n) then some { w with now := w.now + n } else none

/-- The election values are drawn at random: no two peers have the same. -/
def Distinct (c : Network ι) (w : World ι V) : Act ι V → Prop
  | .join _ v => ∀ j ∈ c.hosts, ∀ q ∈ w.peers j, q.electionVal ≠ v
  | _ => True

/-- The call of an election is more than four seconds after the peer was started. -/
def Late (c : Network ι) (w : World ι V) : Act ι V → Prop
  | .wake i => ∀ p ∈ w.peers i, p.sleeping = false →
      (topclockSync c w.now p).1.sleeping = true → p.joined + 4 * c.samplerate + c.lag < w.now
  | _ => True

/-- Nobody hears a clock in the first second after being started. -/
def Quiet (c : Network ι) (w : World ι V) : Act ι V → Prop
  | .deliver m => m.message = .stream → ∀ p ∈ w.peers m.dst, p.joined + c.samplerate ≤ w.now
  | _ => True

instance (c : Network ι) (w : World ι V) : (a : Act ι V) → Decidable (Distinct c w a)
  | .join _ v => inferInstanceAs (Decidable (∀ j ∈ c.hosts, ∀ q ∈ w.peers j, q.electionVal ≠ v))
  | .leave _ | .wake _ | .streamer _ | .deliver _ | .lose _ | .elapse _ => isTrue trivial

instance (c : Network ι) (w : World ι V) : (a : Act ι V) → Decidable (Late c w a)
  | .wake i => inferInstanceAs (Decidable (∀ p ∈ w.peers i, p.sleeping = false →
      (topclockSync c w.now p).1.sleeping = true → p.joined + 4 * c.samplerate + c.lag < w.now))
  | .join _ _ | .leave _ | .streamer _ | .deliver _ | .lose _ | .elapse _ => isTrue trivial

instance (c : Network ι) (w : World ι V) : (a : Act ι V) → Decidable (Quiet c w a)
  | .deliver m => inferInstanceAs (Decidable (m.message = .stream →
      ∀ p ∈ w.peers m.dst, p.joined + c.samplerate ≤ w.now))
  | .join _ _ | .leave _ | .wake _ | .streamer _ | .lose _ | .elapse _ => isTrue trivial

def Master (w : World ι V) (i : ι) : Prop := ∃ p ∈ w.peers i, p.master = true

instance (w : World ι V) (i : ι) : Decidable (Master w i) :=
  inferInstanceAs (Decidable (∃ p ∈ w.peers i, p.master = true))

section
variable {ι V : Type*} {c : Network ι} {w : World ι V} {i j : ι}

theorem topclockStreamer_untouched (p : Peer ι V) :
    (topclockStreamer p).1.joined = p.joined ∧ (topclockStreamer p).1.lastmsg = p.lastmsg := by
  rw [topclockStreamer]
  split_ifs
  · exact ⟨rfl, rfl⟩
  · exact ⟨rfl, rfl⟩

theorem runCallback_untouched (c : Network ι) (now : ℕ) (p : Peer ι V) :
    (runCallback c now p).1.joined = p.joined ∧ (runCallback c now p).1.lastmsg = p.lastmsg := by
  rw [runCallback, electionReturns, topclockSync]
  split_ifs
  · exact topclockStreamer_untouched _
  · exact ⟨rfl, rfl⟩
  · exact ⟨rfl, rfl⟩
  · exact ⟨rfl, rfl⟩

theorem mem_audience : j ∈ w.audience c ↔ j ∈ c.hosts ∧ ∃ q, w.peers j = some q := by
  simp [World.audience, Option.isSome_iff_exists]

/-- A peer that has just been started does not call an election yet. -/
theorem topclockSync_load (c : Network ι) (now : ℕ) (v : V) :
    topclockSync c now (load c now v : Peer ι V) = (again now (load c now v), []) := by
  rw [topclockSync, if_neg]
  simp only [load]
  omega

variable [DecidableEq ι]

/-- What holds of the new peer and held of the others. -/
theorem forall_peers_update {w' : World ι V} {p' : Peer ι V} {P : ι → Peer ι V → Prop}
    (hpeers : w'.peers = Function.update w.peers i (some p')) (hp : P i p')
    (h : ∀ j q, j ≠ i → w.peers j = some q → P j q) : ∀ j q, w'.peers j = some q → P j q := by
  intro j q hj
  rw [hpeers, Function.update_apply] at hj
  split_ifs at hj with hji
  · exact hji ▸ Option.some.inj hj ▸ hp
  · exact h j q hji hj

theorem peers_of_leave {q : Peer ι V} (hj : Function.update w.peers i none j = some q) :
    j ≠ i ∧ w.peers j = some q := by
  rw [Function.update_apply] at hj
  split_ifs at hj with hji
  exact ⟨hji, hj⟩

@[simp] theorem now_act (r : Peer ι V × List (Message V)) : (w.act c i r).now = w.now := rfl

@[simp] theorem peers_act (r : Peer ι V × List (Message V)) :
    (w.act c i r).peers = Function.update w.peers i (some r.1) := rfl

theorem mem_mail_act {r : Peer ι V × List (Message V)} {m : Packet ι V} :
    m ∈ (w.act c i r).mail ↔ m ∈ w.mail ∨
      ∃ x ∈ r.2, ∃ k ∈ (w.put i r.1).audience c, ⟨i, k, x, w.now⟩ = m := by
  simp only [World.act, World.post, World.put, List.mem_append, List.mem_flatMap, List.mem_map]

theorem mem_mail_act_of_mem (r : Peer ι V × List (Message V)) {m : Packet ι V} (hm : m ∈ w.mail) :
    m ∈ (w.act c i r).mail := mem_mail_act.mpr (.inl hm)

end

theorem mail_answer (w : World ι V) (m : Packet ι V) (r : Peer ι V × List (Message V)) :
    (w.answer m r).mail =
      w.mail.erase m ++ r.2.map fun x => ⟨m.dst, m.src, x, w.now⟩ := by
  simp [World.answer, World.post, World.put, List.map_eq_flatMap]

/-- A clock at another address than the last one ends the own one. -/
theorem topclockReceive_stream (c : Network ι) (now : ℕ) (p : Peer ι V) (src : ι) :
    topclockReceive c now p src .stream =
      ({ p with
          masterIp := some src, oldMasterIp := some src, lastmsg := now,
          master := p.master && decide (p.oldMasterIp = some src) }, []) := by
  simp only [topclockReceive]
  split_ifs with h
  · simp [← h]
  · simp [Ne.symm h]

/-- All that a step can do. -/
inductive Goes (c : Network ι) (w : World ι V) : Act ι V → World ι V → Prop
  | join {i : ι} {v : V} (hi : i ∈ c.hosts) (hp : w.peers i = none) :
      Goes c w (.join i v) (w.act c i (again w.now (load c w.now v), []))
  | leave (i : ι) : Goes c w (.leave i) { w with peers := Function.update w.peers i none }
  | wake {i : ι} {p : Peer ι V} (hp : w.peers i = some p) (hc : p.callback ≤ w.now) :
      Goes c w (.wake i) (w.act c i (runCallback c w.now p))
  | streamer {i : ι} {p : Peer ι V} (hp : w.peers i = some p) (hn : p.streamers ≠ 0) :
      Goes c w (.streamer i)
        (w.act c i (topclockStreamer { p with streamers := p.streamers - 1 }))
  | drop {m : Packet ι V} (hm : m ∈ w.mail) (hp : w.peers m.dst = none) :
      Goes c w (.deliver m) { w with mail := w.mail.erase m }
  | receive {m : Packet ι V} {p : Peer ι V} (hm : m ∈ w.mail) (hp : w.peers m.dst = some p) :
      Goes c w (.deliver m) (w.answer m (topclockReceive c w.now p m.src m.message))
  | lose {m : Packet ι V} (hm : m ∈ w.mail) (hs : m.message = .stream) :
      Goes c w (.lose m) { w with mail := w.mail.erase m }
  | elapse {n : ℕ} (ht : Timely c w (w.now + n)) :
      Goes c w (.elapse n) { w with now := w.now + n }

theorem goes_of_step {c : Network ι} {w w' : World ι V} {a : Act ι V}
    (hs : step c w a = some w') : Goes c w a w' := by
  cases a with
  | join i v =>
    simp only [step, topclockSync_load] at hs
    split_ifs at hs with hi
    exact Option.some.inj hs ▸ .join hi.1 (Option.isNone_iff_eq_none.mp hi.2)
  | leave i => exact Option.some.inj hs ▸ .leave i
  | wake i =>
    obtain ⟨p, hp, hs⟩ := Option.bind_eq_some_iff.mp hs
    split_ifs at hs with hc
    exact Option.some.inj hs ▸ .wake hp hc
  | streamer i =>
    obtain ⟨p, hp, hs⟩ := Option.bind_eq_some_iff.mp hs
    split_ifs at hs with hn
    exact Option.some.inj hs ▸ .streamer hp hn
  | deliver m =>
    simp only [step] at hs
    split_ifs at hs with hm
    cases hp : w.peers m.dst with
    | none =>
      rw [hp] at hs
      exact Option.some.inj hs ▸ .drop hm hp
    | some p =>
      rw [hp] at hs
      exact Option.some.inj hs ▸ .receive hm hp
  | lose m =>
    simp only [step] at hs
    split_ifs at hs with hm
    exact Option.some.inj hs ▸ .lose hm.1 hm.2
  | elapse n =>
    simp only [step] at hs
    split_ifs at hs with ht
    exact Option.some.inj hs ▸ .elapse ht

end Extempore.ClockElection
