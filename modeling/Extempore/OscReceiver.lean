import Mathlib.Algebra.Order.BigOperators.Group.List
import Mathlib.Data.List.Infix
import Extempore.GuardedRuns
import Extempore.OscMessages

/-!
# The OSC receiver

A receiver takes one packet after the other: `osc_mesg_callback` from a UDP socket,
`process_osc_data` from the SLIP decoder of a TCP connection. A packet is a message or a
bundle, whose elements are reached by the sizes that stand before them.
-/

namespace Extempore.OscReceiver
open SchemeReader OscStrings OscMessages GuardedRuns

inductive Transport where
  | udp | tcp
  deriving DecidableEq, Repr

/-- An `OSC` object with its socket. Compiled callbacks are known to return. -/
structure Server where
  osc : Settings
  transport : Transport
  nativeOSC : Bool
  nativeUDP : Bool

/-- What is done with a message: a task for the Scheme process, or a call of a compiled
function with the position of the arguments and their length. -/
inductive Call where
  | task (text : List UInt8)
  | nativeOSC (address typetags : List UInt8) (args length : ℤ)
  | nativeUDP (length : ℤ)
  deriving DecidableEq, Repr

/-- How a message was taken. -/
inductive Taken where
  | called (call : Call)
  | dropped
  | threw
  deriving DecidableEq, Repr

/-- How a packet was handled. `returned` stands for the `return 0` at a nested bundle. -/
inductive Outcome where
  | finished (calls : List Call)
  | returned (calls : List Call)
  | threw (calls : List Call)
  deriving DecidableEq, Repr

/-- A packet with its sender. For a packet taken from a TCP stream `behind` is the memory
around the decoded bytes. -/
structure Packet where
  bytes : List UInt8
  netaddy : List UInt8
  netport : ℕ
  behind : Bytes

/-- `address.find("#bundle") != npos` -/
def isBundle (address : List UInt8) : Bool := decide (ascii "#bundle" <:+: address)

/-- The call for the message whose arguments stand at `pos`. -/
def take (server : Server) (p : Packet) (data : Bytes) (t : RealNum) (address typetags : List UInt8)
    (pos length : ℤ) : Taken :=
  if server.nativeOSC then
    .called (.nativeOSC address typetags pos (Int.bmod length (2 ^ 32)))
  else
    match (match server.transport with
      | .udp => sendSchemeCall server.osc t address typetags p.netaddy p.netport (data.at pos)
      | .tcp => sendSchemeProcessCall server.osc t address typetags (data.at pos)) with
    | .sent _ text => .called (.task text)
    | .dropped => .dropped
    | .threw => .threw

/-- The loop over the elements of a bundle, for at most `fuel` rounds. -/
def bundleLoop (call : List UInt8 → List UInt8 → ℤ → ℤ → Taken) (data : Bytes) (length : ℤ) :
    ℕ → ℤ → List Call → Option Outcome
  | 0, pos, calls => if pos < length then none else some (.finished calls)
  | fuel + 1, pos, calls =>
    if pos < length then
      let size := getOSCInt (data.at pos)
      let pos := pos + 4
      match getOSCString (data.at pos) with
      | none => some (.threw calls)
      | some (address, res) =>
        if isBundle address then some (.returned calls)
        else
          let used := res
          let pos := pos + res
          match getOSCString (data.at pos) with
          | none => some (.threw calls)
          | some (typetags, res) =>
            let used := used + res
            let pos := pos + res
            match call address typetags pos (size - used) with
            | .threw => some (.threw calls)
            | .dropped => some (.finished calls)
            | .called c => bundleLoop call data length fuel (pos + (size - used)) (calls ++ [c])
    else some (.finished calls)

/-- The part that `osc_mesg_callback` and `process_osc_data` have in common. -/
def handle (call : RealNum → List UInt8 → List UInt8 → ℤ → ℤ → Taken) (data : Bytes) (length : ℤ)
    (fuel : ℕ) : Option Outcome :=
  match getOSCString data with
  | none => some (.threw [])
  | some (address, pos) =>
    if isBundle address then
      bundleLoop (call (getOSCTimestamp (data.at pos))) data length fuel (pos + 8) []
    else
      match getOSCString (data.at pos) with
      | none => some (.threw [])
      | some (typetags, res) =>
        match call .zero address typetags (pos + res) (length - (pos + res)) with
        | .threw => some (.threw [])
        | .dropped => some (.finished [])
        | .called c => some (.finished [c])

/-- One round of `osc_mesg_callback`, after `recvfrom` has returned a packet. -/
def oscMesgCallback (server : Server) (p : Packet) (data : Bytes) (fuel : ℕ) : Option Outcome :=
  if server.nativeUDP then some (.finished [.nativeUDP p.bytes.length])
  else handle (take server p data) data p.bytes.length fuel

def processOscData (server : Server) (p : Packet) (data : Bytes) (fuel : ℕ) : Option Outcome :=
  if 0 < p.bytes.length then handle (take server p data) data p.bytes.length fuel
  else some (.finished [])

/-- `ready` at the head of the receiver loop, `stopped` when the thread function has returned,
`crashed` when an exception has left it. -/
inductive Status where
  | ready | stopped | crashed
  deriving DecidableEq, Repr

/-- `memory` is `message_data`, where every UDP packet leaves its bytes. -/
structure Receiver where
  memory : Bytes
  calls : List Call
  status : Status

def start (memory : Bytes) : Receiver := ⟨memory, [], .ready⟩

/-- The packet over what is in memory. -/
def overwrite (memory : Bytes) (bytes : List UInt8) : Bytes :=
  fun i => if 0 ≤ i ∧ i < bytes.length then bytes.getD i.toNat 0 else memory i

/-- What the handler of a packet sees. -/
def Server.view (server : Server) (memory : Bytes) (p : Packet) : Bytes :=
  match server.transport with
  | .udp => overwrite memory p.bytes
  | .tcp => overwrite p.behind p.bytes

/-- The receiver thread ends with the function that handles UDP packets. The TCP thread
does not look at the result of `process_osc_data`. -/
def Receiver.after (r : Receiver) (transport : Transport) (data : Bytes) : Outcome → Receiver
  | .finished calls => ⟨data, r.calls ++ calls, .ready⟩
  | .returned calls =>
    ⟨data, r.calls ++ calls, match transport with | .udp => .stopped | .tcp => .ready⟩
  | .threw calls => ⟨data, r.calls ++ calls, .crashed⟩

/-- Receive a packet, with at most `fuel` rounds of the bundle loop. -/
def receive (server : Server) (fuel : ℕ) (r : Receiver) (p : Packet) : Option Receiver :=
  if r.status = .ready then
    let data := server.view r.memory p
    (match server.transport with
      | .udp => oscMesgCallback server p data fuel
      | .tcp => processOscData server p data fuel).map (r.after server.transport data)
  else some r

/-- The packet is a message by itself, and `call` is what it asks for. -/
structure Asks (server : Server) (memory : Bytes) (p : Packet) (call : Call) : Prop where
  nonempty : 0 < p.bytes.length
  notNative : server.transport = .udp → server.nativeUDP = false
  message : ∃ address n typetags m,
    getOSCString (server.view memory p) = some (address, n) ∧ isBundle address = false ∧
    getOSCString ((server.view memory p).at n) = some (typetags, m) ∧
    take server p (server.view memory p) .zero address typetags (n + m)
      (p.bytes.length - (n + m)) = .called call

/-- The receiver gets through every packet in finitely many rounds, is ready after it, and
then answers any message. -/
def Serves (server : Server) (memory : Bytes) (ps : List Packet) : Prop :=
  ∃ fuel, ∀ qs, qs <+: ps → ∃ r, run (receive server fuel) (start memory) qs = some r ∧
    r.status = .ready ∧ ∀ p call, Asks server r.memory p call →
      ∃ r', receive server fuel r p = some r' ∧ r'.status = .ready ∧ r'.calls = r.calls ++ [call]

/-! ## Safe packets -/

/-- Where the type tags of the message at `data` stand. -/
def tagsAt (data : Bytes) : ℤ := paddedLength (oscChars data).length

/-- The type tags as they stand in the message. -/
def rawTags (data : Bytes) : List UInt8 := oscChars (data.at (tagsAt data))

/-- The tags behind the comma as the walk over the arguments sees them. -/
def tags (data : Bytes) : List UInt8 := ((escapeQuotes none (rawTags data)).getD []).drop 1

def argsAt (data : Bytes) : ℤ := tagsAt data + paddedLength (rawTags data).length

/-- The message at `data` is not dropped. -/
def Continues (server : Server) (data : Bytes) : Prop :=
  server.nativeOSC = true ∨ Supported (tags data)

/-- Neither the type tags nor a string argument begin with a quote. -/
structure SafeMessage (server : Server) (data : Bytes) : Prop where
  typetags : (rawTags data).head? ≠ some quote
  strings : server.nativeOSC = false → ∀ s,
    .string s ∈ items server.osc.format (data.at (argsAt data)) (tags data) 0 →
      s.head? ≠ some quote

/-- The address as it is searched for `#bundle`. -/
def escapedAddress (data : Bytes) : List UInt8 := (escapeQuotes none (oscChars data)).getD []

/-- The size of the element at `pos` does not lead back, and its message is safe. -/
structure SafeElement (server : Server) (data : Bytes) (pos : ℤ) : Prop where
  address : (oscChars (data.at (pos + 4))).head? ≠ some quote
  nested : isBundle (escapedAddress (data.at (pos + 4))) = true → server.transport = .tcp
  message : isBundle (escapedAddress (data.at (pos + 4))) = false →
    SafeMessage server (data.at (pos + 4))
  size : isBundle (escapedAddress (data.at (pos + 4))) = false →
    Continues server (data.at (pos + 4)) → -4 < getOSCInt (data.at pos)

/-- The elements that the sizes lead to, up to one that is dropped. -/
inductive Met (server : Server) (data : Bytes) (length : ℤ) (first : ℤ) : ℤ → Prop
  | first : first < length → Met server data length first first
  | next {pos : ℤ} : Met server data length first pos → Continues server (data.at (pos + 4)) →
      pos + 4 + getOSCInt (data.at pos) < length →
      Met server data length first (pos + 4 + getOSCInt (data.at pos))

/-- The bytes that the receiver will see make a safe message, or a bundle of safe elements. -/
structure SafePacket (server : Server) (data : Bytes) (length : ℤ) : Prop where
  address : (oscChars data).head? ≠ some quote
  message : isBundle (escapedAddress data) = false → SafeMessage server data
  elements : isBundle (escapedAddress data) = true →
    ∀ pos, Met server data length (tagsAt data + 8) pos → SafeElement server data pos

/-- The receiver looks into the packet. -/
def Parsed (server : Server) (p : Packet) : Prop :=
  match server.transport with
  | .udp => server.nativeUDP = false
  | .tcp => 0 < p.bytes.length

/-- Every packet is safe, seen over what the earlier ones have left in memory. -/
def SafeRun (server : Server) : Bytes → List Packet → Prop
  | _, [] => True
  | memory, p :: ps =>
    (Parsed server p → SafePacket server (server.view memory p) p.bytes.length) ∧
      SafeRun server (server.view memory p) ps

/-- A string that does not begin with a quote is extracted. -/
theorem getOSCString_eq {data : Bytes} (h : (oscChars data).head? ≠ some quote) :
    getOSCString data = some (escapedAddress data, tagsAt data) := by
  cases ho : escapeQuotes none (oscChars data) with
  | none => exact absurd (escapeQuotes_eq_none_iff.mp ho) h
  | some out => simp [getOSCString, escapedAddress, tagsAt, ho]

variable {server : Server} {data : Bytes}

theorem SafeMessage.getOSCString_tags (h : SafeMessage server data) :
    ∃ typetags : List UInt8, getOSCString (data.at (tagsAt data)) =
      some (typetags, (paddedLength (rawTags data).length : ℤ)) ∧ typetags.drop 1 = tags data :=
  ⟨_, getOSCString_eq h.typetags, rfl⟩

theorem SafeMessage.of_noTags (h : (rawTags data).head? ≠ some quote) (ht : tags data = []) :
    SafeMessage server data :=
  ⟨h, fun _ s hs => by simp [ht, items] at hs⟩

/-- A safe message leads to a call, unless it is dropped. -/
theorem SafeMessage.take (h : SafeMessage server data) (p : Packet) (whole : Bytes) {pos : ℤ}
    (hpos : whole.at pos = data.at (argsAt data)) {typetags : List UInt8}
    (htags : typetags.drop 1 = tags data) (t : RealNum) (address : List UInt8) (length : ℤ) :
    (Continues server data ∧
      ∃ c, OscReceiver.take server p whole t address typetags pos length = .called c) ∨
      OscReceiver.take server p whole t address typetags pos length = .dropped := by
  cases hn : server.nativeOSC with
  | true => exact .inl ⟨.inl hn, _, by rw [OscReceiver.take, if_pos hn]⟩
  | false =>
    have hsend := sendArgs_sent_or_dropped (h.strings hn)
    rw [OscReceiver.take, if_neg (by simp [hn]), hpos]
    cases server.transport with
    | udp =>
      simp only [sendSchemeCall, htags]
      rcases hsend _ with ⟨hsup, _, text, heq⟩|heq
      · exact .inl ⟨.inr hsup, .task text, by rw [heq]⟩
      · exact .inr (by rw [heq])
    | tcp =>
      simp only [sendSchemeProcessCall, htags]
      rcases hsend _ with ⟨hsup, _, text, heq⟩|heq
      · exact .inl ⟨.inr hsup, .task text, by rw [heq]⟩
      · exact .inr (by rw [heq])

/-- The handling ended and the receiver goes on. -/
def Outcome.GoesOn (transport : Transport) : Outcome → Prop
  | .finished _ => True
  | .returned _ => transport = .tcp
  | .threw _ => False

/-- Safe elements lead the loop out of the bundle: every round gets it at least one byte
further. -/
theorem bundleLoop_goesOn {length first : ℤ} {p : Packet} {t : RealNum}
    (h : ∀ pos, Met server data length first pos → SafeElement server data pos) (fuel : ℕ) {pos : ℤ}
    (calls : List Call) (hpos : pos < length → Met server data length first pos)
    (hfuel : length - pos ≤ fuel) :
    ∃ out, bundleLoop (take server p data t) data length fuel pos calls = some out ∧
      out.GoesOn server.transport := by
  induction fuel generalizing pos calls with
  | zero =>
    refine ⟨.finished calls, ?_, trivial⟩
    rw [bundleLoop, if_neg (by omega)]
  | succ fuel ih =>
    rw [bundleLoop]
    split
    · rename_i hlt
      have hmet := hpos hlt
      obtain ⟨haddr, hnested, hmsg, hsize⟩ := h pos hmet
      simp only [getOSCString_eq haddr]
      cases hb : isBundle (escapedAddress (data.at (pos + 4))) with
      | true => exact ⟨.returned calls, rfl, hnested hb⟩
      | false =>
        obtain ⟨typetags, hget, htags⟩ := (hmsg hb).getOSCString_tags
        have hat : (data.at (pos + 4)).at (tagsAt (data.at (pos + 4))) =
            data.at (pos + 4 + tagsAt (data.at (pos + 4))) := at_at _ _ _
        rw [hat] at hget
        simp only [hget, if_false, Bool.false_eq_true]
        have hargs : data.at (pos + 4 + tagsAt (data.at (pos + 4)) +
            paddedLength (rawTags (data.at (pos + 4))).length) =
            (data.at (pos + 4)).at (argsAt (data.at (pos + 4))) := by
          rw [at_at, argsAt]
          congr 1
          ring
        rcases (hmsg hb).take p data hargs htags t (escapedAddress (data.at (pos + 4)))
          (getOSCInt (data.at pos) - (tagsAt (data.at (pos + 4)) +
            paddedLength (rawTags (data.at (pos + 4))).length)) with ⟨hcont, c, hc⟩|hd
        · rw [hc]
          have hforward := hsize hb hcont
          have hnext : pos + 4 + tagsAt (data.at (pos + 4)) +
              paddedLength (rawTags (data.at (pos + 4))).length +
              (getOSCInt (data.at pos) - (tagsAt (data.at (pos + 4)) +
                paddedLength (rawTags (data.at (pos + 4))).length)) =
              pos + 4 + getOSCInt (data.at pos) := by ring
          simp only [hnext]
          exact ih (calls ++ [c]) (fun hlt' => .next hmet hcont hlt') (by omega)
        · rw [hd]
          exact ⟨.finished calls, rfl, trivial⟩
    · exact ⟨.finished calls, rfl, trivial⟩

theorem handle_goesOn {length : ℤ} {p : Packet} {fuel : ℕ} (h : SafePacket server data length)
    (hfuel : length ≤ fuel) :
    ∃ out, handle (take server p data) data length fuel = some out ∧
      out.GoesOn server.transport := by
  rw [handle, getOSCString_eq h.address]
  cases hb : isBundle (escapedAddress data) with
  | true =>
    have hpos : (0 : ℤ) ≤ tagsAt data := Int.natCast_nonneg _
    simp only [hb, if_true]
    exact bundleLoop_goesOn (h.elements hb) fuel [] .first (by omega)
  | false =>
    obtain ⟨typetags, hget, htags⟩ := (h.message hb).getOSCString_tags
    have hargs : tagsAt data + paddedLength (rawTags data).length = argsAt data := rfl
    simp only [hb, Bool.false_eq_true, if_false, hget, hargs]
    rcases (h.message hb).take p data rfl htags .zero (escapedAddress data)
      (length - argsAt data) with ⟨-, c, hc⟩|hd
    · exact ⟨.finished [c], by rw [hc], trivial⟩
    · exact ⟨.finished [], by rw [hd], trivial⟩

/-- The receiver is ready again after a safe packet. -/
theorem receive_ready {r : Receiver} {p : Packet} {fuel : ℕ} (hr : r.status = .ready)
    (h : Parsed server p → SafePacket server (server.view r.memory p) p.bytes.length)
    (hfuel : p.bytes.length ≤ fuel) :
    ∃ r', receive server fuel r p = some r' ∧ r'.status = .ready ∧
      r'.memory = server.view r.memory p := by
  have hhandle (hp : Parsed server p) :=
    handle_goesOn (p := p) (h hp) (Int.ofNat_le.mpr hfuel)
  rw [receive, if_pos hr]
  generalize server.view r.memory p = data at h hhandle ⊢
  cases ht : server.transport with
  | udp =>
    simp only [Parsed, ht] at hhandle
    cases hn : server.nativeUDP with
    | true => simp [oscMesgCallback, hn, Receiver.after]
    | false =>
      obtain ⟨out, ho, hgo⟩ := hhandle hn
      simp only [oscMesgCallback, hn, Bool.false_eq_true, if_false, ho, Option.map_some]
      cases out with
      | finished calls => exact ⟨_, rfl, rfl, rfl⟩
      | returned calls => simp [Outcome.GoesOn] at hgo
      | threw calls => exact hgo.elim
  | tcp =>
    simp only [Parsed, ht] at hhandle
    by_cases hlen : 0 < p.bytes.length
    · obtain ⟨out, ho, hgo⟩ := hhandle hlen
      simp only [processOscData, hlen, if_true, ho, Option.map_some]
      cases out with
      | finished calls => exact ⟨_, rfl, rfl, rfl⟩
      | returned calls => exact ⟨_, rfl, rfl, rfl⟩
      | threw calls => exact hgo.elim
    · simp [processOscData, hlen, Receiver.after]

/-- A receiver that is ready answers a message, however many rounds bundles may take. -/
theorem receive_asks {r : Receiver} {p : Packet} {call : Call} (hr : r.status = .ready)
    (h : Asks server r.memory p call) (fuel : ℕ) :
    ∃ r', receive server fuel r p = some r' ∧ r'.status = .ready ∧ r'.calls = r.calls ++ [call] := by
  obtain ⟨hlen, hnative, address, n, typetags, m, haddr, hb, htags, hcall⟩ := h
  have hhandle : handle (take server p (server.view r.memory p)) (server.view r.memory p)
      p.bytes.length fuel = some (.finished [call]) := by
    simp [handle, haddr, hb, htags, hcall]
  rw [receive, if_pos hr]
  cases ht : server.transport with
  | udp =>
    simp only [oscMesgCallback, hnative ht, Bool.false_eq_true, if_false, hhandle, Option.map_some]
    exact ⟨_, rfl, rfl, rfl⟩
  | tcp =>
    simp only [processOscData, hlen, if_true, hhandle, Option.map_some]
    exact ⟨_, rfl, rfl, rfl⟩

theorem SafeRun.mono {memory : Bytes} {ps qs : List Packet} (h : SafeRun server memory ps)
    (hq : qs <+: ps) : SafeRun server memory qs := by
  induction qs generalizing memory ps with
  | nil => trivial
  | cons q qs ih =>
    obtain ⟨rs, rfl⟩ := hq
    exact ⟨h.1, ih h.2 (List.prefix_append qs rs)⟩

/-- The receiver is ready after every run of safe packets. -/
theorem run_ready {r : Receiver} {ps : List Packet} {fuel : ℕ} (hr : r.status = .ready)
    (h : SafeRun server r.memory ps) (hfuel : ∀ p ∈ ps, p.bytes.length ≤ fuel) :
    ∃ r', run (receive server fuel) r ps = some r' ∧ r'.status = .ready := by
  induction ps generalizing r with
  | nil => exact ⟨r, rfl, hr⟩
  | cons p ps ih =>
    obtain ⟨m, hm, hready, hmem⟩ := receive_ready hr h.1 (hfuel p (by simp))
    have hps : SafeRun server m.memory ps := by
      rw [hmem]
      exact h.2
    obtain ⟨r', hr', hready'⟩ := ih hready hps fun q hq => hfuel q (by simp [hq])
    exact ⟨r', run_cons_eq_some.mpr ⟨m, hm, hr'⟩, hready'⟩

/-- A run of safe packets does not stop the receiver: each of them is handled in finitely
many rounds, and any message that follows is answered. -/
theorem serves_of_safeRun (server : Server) (memory : Bytes) (ps : List Packet)
    (h : SafeRun server memory ps) : Serves server memory ps := by
  refine ⟨(ps.map fun p => p.bytes.length).sum, fun qs hq => ?_⟩
  have hfuel : ∀ q ∈ qs, q.bytes.length ≤ (ps.map fun p => p.bytes.length).sum := by
    intro q hm
    exact List.le_sum_of_mem (List.mem_map_of_mem (hq.subset hm))
  obtain ⟨r, hr, hready⟩ := run_ready (r := start memory) rfl (h.mono hq) hfuel
  exact ⟨r, hr, hready, fun p call ha => receive_asks hready ha _⟩

/-- A server without compiled callbacks. -/
def udpServer : Server := ⟨zeroSettings, .udp, false, false⟩

/-- The message `/a` without arguments. -/
def message : List UInt8 := ascii "/a" ++ [0, 0] ++ ascii "," ++ [0, 0, 0]

def packetOf (bytes : List UInt8) : Packet := ⟨bytes, ascii "127.0.0.1", 9000, fun _ => 0⟩

/-- A bundle of one element, which is `message` with the given size field. -/
def singleBundle (size : List UInt8) : Packet :=
  packetOf (ascii "#bundle" ++ List.replicate 9 0 ++ size ++ message)

theorem serves_singleBundle :
    Serves udpServer (fun _ => 0) [singleBundle [0, 0, 0, 8], packetOf message] := by
  refine serves_of_safeRun udpServer (fun _ => 0) [singleBundle [0, 0, 0, 8], packetOf message]
    ⟨fun _ => ⟨by decide +kernel, fun hb => ?_, fun _ pos hmet => ?_⟩,
      fun _ => ⟨by decide +kernel, fun _ => ?_, fun hb => ?_⟩, trivial⟩
  · exact absurd hb (by decide +kernel)
  · have hpos : pos = 16 := by
      induction hmet with
      | first => decide +kernel
      | next hmet hcont hlt ih =>
        subst ih
        exact absurd hlt (by decide +kernel)
    subst hpos
    exact ⟨by decide +kernel, fun hb => absurd hb (by decide +kernel),
      fun _ => .of_noTags (by decide +kernel) (by decide +kernel), fun _ _ => by decide +kernel⟩
  · exact .of_noTags (by decide +kernel) (by decide +kernel)
  · exact absurd hb (by decide +kernel)

/-- The element of size -4 is met again and again. -/
theorem not_serves_of_negative_size :
    ¬ Serves udpServer (fun _ => 0) [singleBundle [255, 255, 255, 252]] := by
  rintro ⟨fuel, h⟩
  obtain ⟨r, hr, -⟩ := h [singleBundle [255, 255, 255, 252]] List.prefix_rfl
  obtain ⟨m, hm, -⟩ := run_cons_eq_some.mp hr
  generalize hp : singleBundle [255, 255, 255, 252] = p at hm
  generalize hdata : udpServer.view (fun _ => 0) p = data at hm
  have hlen : (p.bytes.length : ℤ) = 28 := by rw [← hp]; decide
  have hsize : getOSCInt (data.at 16) = -4 := by rw [← hdata, ← hp]; decide +kernel
  have haddr : getOSCString (data.at (16 + 4)) = some (ascii "/a", 4) := by
    rw [← hdata, ← hp]
    decide +kernel
  have htags : getOSCString (data.at (16 + 4 + 4)) = some (ascii ",", 4) := by
    rw [← hdata, ← hp]
    decide +kernel
  have hbundle : getOSCString data = some (ascii "#bundle", 8) := by
    rw [← hdata, ← hp]
    decide +kernel
  have hnot : isBundle (ascii "/a") = false := by decide
  have hloop (t : RealNum) (n : ℕ) (calls : List Call) :
      bundleLoop (OscReceiver.take udpServer p data t) data 28 n 16 calls = none := by
    induction n generalizing calls with
    | zero => rfl
    | succ n ih =>
      obtain ⟨c, hc⟩ : ∃ c, OscReceiver.take udpServer p data t (ascii "/a") (ascii ",")
          (16 + 4 + 4 + 4) (-4 - (4 + 4)) = .called c := ⟨_, rfl⟩
      rw [bundleLoop, if_pos (by decide)]
      simp only [hsize, haddr, hnot, htags, hc, Bool.false_eq_true, if_false]
      exact ih (calls ++ [c])
  have hhandle : handle (OscReceiver.take udpServer p data) data p.bytes.length fuel = none := by
    rw [handle, hbundle, hlen]
    exact hloop _ fuel []
  have hnone : receive udpServer fuel (start fun _ => 0) p = none := by
    simp only [receive, start, hdata]
    exact congrArg (Option.map _) hhandle
  rw [hnone] at hm
  cases hm

end Extempore.OscReceiver
