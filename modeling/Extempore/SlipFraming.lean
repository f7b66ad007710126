import Mathlib.Data.List.Count
import Extempore.ChunkedStreams

/-!
# SLIP framing of OSC over TCP

`tcp_osc_server_thread` keeps three maps for every client socket: the bytes of the packet
that is being received, whether a packet has begun, and whether an escape byte is pending.
`parse_osc_slip_data` carries the pending escape through its return code.
-/

namespace Extempore.SlipFraming
open ChunkedStreams

abbrev slipEnd : UInt8 := 0o300
abbrev slipEsc : UInt8 := 0o333
abbrev slipEscEnd : UInt8 := 0o334
abbrev slipEscEsc : UInt8 := 0o335

/-- `parse_osc_slip_data`: the bytes collected and the return code, 2 for a completed
packet, 1 and 0 for more reading with and without a pending escape, -1 for a bad packet. -/
def parseOscSlipData (data : List UInt8) : List UInt8 → Bool → List UInt8 × ℤ
  | [], activeEscape => (data, if activeEscape then 1 else 0)
  | b :: buf, activeEscape =>
    if b = slipEnd then (data, 2)
    else if b = slipEsc then parseOscSlipData data buf true
    else if activeEscape then
      if b = slipEscEsc then parseOscSlipData (data ++ [slipEsc]) buf false
      else if b = slipEscEnd then parseOscSlipData (data ++ [slipEnd]) buf false
      else (data, -1)
    else parseOscSlipData (data ++ [b]) buf false

/-- The entries of `data_map`, `data_packet` and `data_active_escape` for one socket, and
the packets that were handed to `process_osc_data`. -/
structure Socket where
  data : List UInt8
  dataPacket : Bool
  activeEscape : Bool
  processed : List (List UInt8)
  deriving DecidableEq, Repr

/-- The bytes after the first END, for a socket that is not in a packet. -/
def skipToPacket : List UInt8 → Option (List UInt8)
  | [] => none
  | b :: buf => if b = slipEnd then some buf else skipToPacket buf

/-- What the read loop does with the bytes of one `read` that lie inside a packet. -/
def load (s : Socket) (buf : List UInt8) : Socket :=
  let (data, result) := parseOscSlipData s.data buf s.activeEscape
  if result = 2 then
    { data := [], dataPacket := false, activeEscape := false, processed := s.processed ++ [data] }
  else if result = -1 then { s with data := [], dataPacket := false, activeEscape := false }
  else if result = 0 ∨ result = 1 then
    { s with data, dataPacket := true, activeEscape := decide (result ≠ 0) }
  else { s with data := [], dataPacket := false, activeEscape := false }

/-- One `read` of the read loop of a socket. Whether the buffer came back full only decides
if the thread reads on at once or looks at the other sockets first. -/
def readChunk (s : Socket) (buf : List UInt8) : Socket :=
  if s.dataPacket then load s buf
  else match skipToPacket buf with
    | none => s
    | some buf => load { s with dataPacket := true } buf

/-- The state of a socket between two packets. -/
def idle (processed : List (List UInt8)) : Socket where
  data := []
  dataPacket := false
  activeEscape := false
  processed

/-- The escaped bytes of a packet. -/
def escape (packet : List UInt8) : List UInt8 :=
  packet.flatMap fun b =>
    if b = slipEnd then [slipEsc, slipEscEnd]
    else if b = slipEsc then [slipEsc, slipEscEsc] else [b]

/-- A packet as a sender frames it. -/
def frame (packet : List UInt8) : List UInt8 := slipEnd :: (escape packet ++ [slipEnd])

@[simp] theorem slipEsc_ne : slipEsc ≠ slipEnd := by decide

@[simp] theorem slipEscEnd_ne : slipEscEnd ≠ slipEnd ∧ slipEscEnd ≠ slipEsc ∧
    slipEscEnd ≠ slipEscEsc := by decide

@[simp] theorem slipEscEsc_ne : slipEscEsc ≠ slipEnd ∧ slipEscEsc ≠ slipEsc := by decide

/-- Parsing may be interrupted at any byte and taken up again with the return code. -/
theorem parseOscSlipData_append (data u v : List UInt8) (esc : Bool) :
    parseOscSlipData data (u ++ v) esc =
      if (parseOscSlipData data u esc).2 = 0 then
        parseOscSlipData (parseOscSlipData data u esc).1 v false
      else if (parseOscSlipData data u esc).2 = 1 then
        parseOscSlipData (parseOscSlipData data u esc).1 v true
      else parseOscSlipData data u esc := by
  induction u generalizing data esc with
  | nil => cases esc <;> simp [parseOscSlipData]
  | cons b u ih =>
    rw [List.cons_append, parseOscSlipData, parseOscSlipData]
    split
    · simp
    · split
      · exact ih data true
      · split
        · split
          · exact ih _ false
          · split
            · exact ih _ false
            · simp
        · exact ih _ false

theorem parseOscSlipData_escape (data packet rest : List UInt8) :
    parseOscSlipData data (escape packet ++ slipEnd :: rest) false = (data ++ packet, 2) := by
  induction packet generalizing data with
  | nil => simp [escape, parseOscSlipData]
  | cons b packet ih =>
    have hcons : escape (b :: packet) ++ slipEnd :: rest =
        (if b = slipEnd then [slipEsc, slipEscEnd]
          else if b = slipEsc then [slipEsc, slipEscEsc] else [b]) ++
        (escape packet ++ slipEnd :: rest) := by simp [escape]
    rw [hcons]
    by_cases h1 : b = slipEnd
    · subst h1
      simpa [parseOscSlipData, slipEscEnd_ne] using ih (data ++ [slipEnd])
    · by_cases h2 : b = slipEsc
      · subst h2
        simpa [parseOscSlipData, slipEscEsc_ne] using ih (data ++ [slipEsc])
      · simpa [parseOscSlipData, h1, h2] using ih (data ++ [b])

/-- The return code is one of the four documented ones. -/
theorem parseOscSlipData_code (data buf : List UInt8) (esc : Bool) :
    (parseOscSlipData data buf esc).2 = 2 ∨ (parseOscSlipData data buf esc).2 = -1 ∨
      (parseOscSlipData data buf esc).2 = 0 ∨ (parseOscSlipData data buf esc).2 = 1 := by
  induction buf generalizing data esc with
  | nil => cases esc <;> simp [parseOscSlipData]
  | cons b buf ih =>
    rw [parseOscSlipData]
    split
    · simp
    · split
      · exact ih data true
      · split
        · split
          · exact ih _ false
          · split
            · exact ih _ false
            · simp
        · exact ih _ false

theorem mem_of_complete {data buf : List UInt8} {esc : Bool}
    (h : (parseOscSlipData data buf esc).2 = 2) : slipEnd ∈ buf := by
  induction buf generalizing data esc with
  | nil => cases esc <;> simp [parseOscSlipData] at h
  | cons b buf ih =>
    rw [parseOscSlipData] at h
    split at h
    · rename_i hb
      simp [hb]
    · refine List.mem_cons_of_mem b ?_
      split at h
      · exact ih h
      · split at h
        · split at h
          · exact ih h
          · split at h
            · exact ih h
            · simp at h
        · exact ih h

theorem slipEnd_not_mem_escape (packet : List UInt8) : slipEnd ∉ escape packet := by
  intro h
  obtain ⟨b, _, hb⟩ := List.mem_flatMap.mp h
  split at hb
  · revert hb
    decide
  · split at hb
    · revert hb
      decide
    · rename_i hne _
      exact hne (List.mem_singleton.mp hb).symm

theorem count_frame (packet : List UInt8) : (frame packet).count slipEnd = 2 := by
  simp [frame, List.count_append, List.count_eq_zero.mpr (slipEnd_not_mem_escape packet)]

theorem count_frames (packets : List (List UInt8)) :
    (packets.map frame).flatten.count slipEnd = 2 * packets.length := by
  induction packets with
  | nil => rfl
  | cons p packets ih =>
    rw [List.map_cons, List.flatten_cons, List.count_append, count_frame, ih, List.length_cons]
    omega

/-! ## No END byte counts twice -/

/-- The END bytes that the packets processed so far and the packet begun have used up. -/
def Socket.ends (s : Socket) : ℕ := 2 * s.processed.length + if s.dataPacket then 1 else 0

theorem ends_load_le {s : Socket} (hs : s.dataPacket = true) (buf : List UInt8) :
    (load s buf).ends ≤ s.ends + buf.count slipEnd := by
  rcases parseOscSlipData_code s.data buf s.activeEscape with h|h|h|h
  · have hpos := List.count_pos_iff.mpr (mem_of_complete h)
    simp only [load, h, Socket.ends, hs, if_true, List.length_append, List.length_singleton]
    simp only [Bool.false_eq_true, if_false]
    omega
  · simp only [load, h, Socket.ends, hs]
    simp
    omega
  · simp [load, h, Socket.ends, hs]
  · simp [load, h, Socket.ends, hs]

theorem skipToPacket_eq_some {buf rest : List UInt8} (h : skipToPacket buf = some rest) :
    buf.count slipEnd = rest.count slipEnd + 1 := by
  induction buf with
  | nil => simp [skipToPacket] at h
  | cons b buf ih =>
    rw [skipToPacket] at h
    split at h
    · rename_i hb
      obtain rfl := Option.some.inj h
      simp [hb]
    · rename_i hb
      rw [List.count_cons_of_ne hb, ih h]

theorem ends_readChunk_le (s : Socket) (buf : List UInt8) :
    (readChunk s buf).ends ≤ s.ends + buf.count slipEnd := by
  rw [readChunk]
  split
  · rename_i hs
    exact ends_load_le hs buf
  · rename_i hs
    split
    · omega
    · rename_i rest hrest
      have hle := ends_load_le (s := { s with dataPacket := true }) rfl rest
      have hends : ({ s with dataPacket := true } : Socket).ends = s.ends + 1 := by
        simp [Socket.ends, hs]
      have hcount := skipToPacket_eq_some hrest
      omega

theorem ends_foldl_le (s : Socket) (cs : List (List UInt8)) :
    (cs.foldl readChunk s).ends ≤ s.ends + cs.flatten.count slipEnd := by
  induction cs generalizing s with
  | nil => simp
  | cons c cs ih =>
    have h := ih (readChunk s c)
    have hc := ends_readChunk_le s c
    rw [List.foldl_cons, List.flatten_cons, List.count_append]
    omega

/-! ## Receiving one packet -/

/-- The socket is inside the packet `p`, of which the escaped bytes `v` are still to come. -/
structure Inside (s : Socket) (done : List (List UInt8)) (p v : List UInt8) : Prop where
  processed : s.processed = done
  dataPacket : s.dataPacket = true
  parse : parseOscSlipData s.data (v ++ [slipEnd]) s.activeEscape = (p, 2)
  noEnd : slipEnd ∉ v

theorem inside_escape (done : List (List UInt8)) (p : List UInt8) :
    Inside { idle done with dataPacket := true } done p (escape p) :=
  ⟨rfl, rfl, by simpa [idle] using parseOscSlipData_escape [] p [], slipEnd_not_mem_escape p⟩

/-- Bytes of the packet leave it unfinished. -/
theorem Inside.parse_prefix {s : Socket} {done : List (List UInt8)} {p u v : List UInt8}
    (h : Inside s done p (u ++ v)) :
    ∃ data esc, parseOscSlipData s.data u s.activeEscape = (data, if esc then 1 else 0) ∧
      parseOscSlipData data (v ++ [slipEnd]) esc = (p, 2) := by
  have hparse := h.parse
  rw [List.append_assoc, parseOscSlipData_append] at hparse
  have hu : slipEnd ∉ u := fun hm => h.noEnd (List.mem_append_left v hm)
  rcases parseOscSlipData_code s.data u s.activeEscape with hc|hc|hc|hc
  · exact absurd (mem_of_complete hc) hu
  · simp only [hc] at hparse
    rw [if_neg (by decide), if_neg (by decide)] at hparse
    rw [hparse] at hc
    simp at hc
  · exact ⟨_, false, Prod.ext rfl hc, by simpa [hc] using hparse⟩
  · exact ⟨_, true, Prod.ext rfl hc, by simpa [hc] using hparse⟩

theorem Inside.load {s : Socket} {done : List (List UInt8)} {p u v : List UInt8}
    (h : Inside s done p (u ++ v)) : Inside (load s u) done p v := by
  obtain ⟨data, esc, hu, hv⟩ := h.parse_prefix
  have hno : slipEnd ∉ v := fun hm => h.noEnd (List.mem_append_right u hm)
  cases esc <;> simp only [SlipFraming.load, hu] <;> exact ⟨h.processed, rfl, hv, hno⟩

/-- The closing END hands the packet over; what follows it in the chunk is dropped. -/
theorem Inside.load_end {s : Socket} {done : List (List UInt8)} {p u : List UInt8}
    (h : Inside s done p u) (w : List UInt8) :
    SlipFraming.load s (u ++ slipEnd :: w) = idle (done ++ [p]) := by
  have h' : Inside s done p (u ++ []) := by simpa using h
  obtain ⟨data, esc, hu, hend⟩ := h'.parse_prefix
  have hdata : data = p := by
    have hp : (data, (2 : ℤ)) = (p, 2) := by simpa [parseOscSlipData] using hend
    exact congrArg Prod.fst hp
  have hparse : parseOscSlipData s.data (u ++ slipEnd :: w) s.activeEscape = (p, 2) := by
    rw [parseOscSlipData_append, hu, hdata]
    cases esc <;> simp [parseOscSlipData]
  simp [SlipFraming.load, hparse, idle, h.processed]

/-- Inside a packet, the chunks up to the one that holds the closing END. -/
theorem Inside.foldl {s : Socket} {done g : List (List UInt8)} {p u v w : List UInt8}
    (h : Inside s done p v) (hu : u ≠ []) (hg : g.flatten ++ u = v ++ [slipEnd]) :
    (g ++ [u ++ w]).foldl readChunk s = idle (done ++ [p]) := by
  induction g generalizing s v with
  | nil =>
    obtain rfl : u = v ++ [slipEnd] := by simpa using hg
    simpa [readChunk, h.dataPacket] using h.load_end w
  | cons c g ih =>
    obtain ⟨v', rfl⟩ : ∃ v', v = c ++ v' := by
      rw [List.flatten_cons, List.append_assoc] at hg
      rcases List.append_eq_append_iff.mp hg with ⟨m, hv, _⟩|⟨m, hc, hm⟩
      · exact ⟨m, hv⟩
      · have hlen := congrArg List.length hm
        have hpos := List.length_pos_of_ne_nil hu
        simp only [List.length_append, List.length_singleton] at hlen
        have hm0 : m = [] := List.length_eq_zero_iff.mp (by omega)
        exact ⟨[], by simpa [hm0] using hc.symm⟩
    rw [List.cons_append, List.foldl_cons, readChunk, if_pos h.dataPacket]
    exact ih h.load (by simpa using hg)

/-- From one packet end to the next: non-empty chunks that hold exactly one frame, apart from
the bytes that follow it in the last chunk. -/
theorem foldl_frame {g : List (List UInt8)} {p u : List UInt8} (done : List (List UInt8))
    (w : List UInt8)
    (hne : ∀ c ∈ g, c ≠ []) (hu : u ≠ []) (hg : g.flatten ++ u = frame p) :
    (g ++ [u ++ w]).foldl readChunk (idle done) = idle (done ++ [p]) := by
  have hin := inside_escape done p
  rcases g with _ | ⟨c, g⟩
  · obtain rfl : u = frame p := by simpa using hg
    have hload := hin.load_end w
    simpa [readChunk, idle, frame, skipToPacket] using hload
  · obtain ⟨b, c, rfl⟩ := List.exists_cons_of_ne_nil (hne c (by simp))
    rw [List.flatten_cons, List.append_assoc, List.cons_append, frame] at hg
    obtain ⟨rfl, hg⟩ := List.cons.inj hg
    have hread : readChunk (idle done) (slipEnd :: c) =
        readChunk { idle done with dataPacket := true } c := by
      simp [readChunk, idle, skipToPacket]
    rw [List.cons_append, List.foldl_cons, hread, ← List.foldl_cons, ← List.cons_append]
    exact hin.foldl hu (by simpa using hg)

theorem foldl_aligned {packets cs : List (List UInt8)} (done : List (List UInt8)) (hne : ∀ c ∈ cs, c ≠ [])
    (h : Aligned (packets.map frame) cs) :
    cs.foldl readChunk (idle done) = idle (done ++ packets) := by
  induction packets generalizing done cs with
  | nil =>
    obtain rfl := aligned_nil.mp h
    simp
  | cons p packets ih =>
    obtain ⟨g, cs', rfl, hg, hal⟩ := aligned_cons.mp h
    obtain ⟨g, u, rfl⟩ : ∃ g' u, g = g' ++ [u] := by
      rcases List.eq_nil_or_concat' g with rfl|hg'
      · simp [frame] at hg
      · exact hg'
    have hu : u ≠ [] := hne u (by simp)
    have hfirst := foldl_frame done []
      (fun c (hc : c ∈ g) => hne c (by simp [hc])) hu (by simpa using hg)
    rw [List.append_nil] at hfirst
    rw [List.foldl_append, hfirst, ih (done ++ [p]) (fun c hc => hne c (by simp [hc])) hal]
    simp

/-- `process_osc_data` gets exactly the packets sent just when no chunk holds bytes of two
packets: the rest of a chunk behind the end of a packet is dropped. -/
theorem processed_eq_iff {packets cs : List (List UInt8)} (hne : ∀ c ∈ cs, c ≠ [])
    (hcat : cs.flatten = (packets.map frame).flatten) :
    (cs.foldl readChunk (idle [])).processed = packets ↔ Aligned (packets.map frame) cs := by
  refine ⟨fun h => ?_, fun h => by rw [foldl_aligned [] hne h]; rfl⟩
  suffices hgen : ∀ done, (cs.foldl readChunk (idle done)).processed = done ++ packets →
      Aligned (packets.map frame) cs from hgen [] h
  clear h
  induction packets generalizing cs with
  | nil =>
    intro done _
    refine aligned_nil.mpr (List.eq_nil_iff_forall_not_mem.mpr fun c hc => hne c hc ?_)
    exact List.flatten_eq_nil_iff.mp hcat c hc
  | cons p packets ih =>
    intro done hproc
    rcases exists_cut hcat with ⟨g, cs', rfl, hg, hrest⟩|⟨g, u, w, cs', rfl, hg, hu, hw, hrest⟩
    · have hal : Aligned [frame p] g := ⟨[g], by simp, by simp [hg]⟩
      have hfirst := @foldl_aligned [p] g done
        (fun c hc => hne c (by simp [hc])) hal
      rw [List.foldl_append, hfirst] at hproc
      exact aligned_cons.mpr ⟨g, cs', rfl, hg,
        ih (fun c hc => hne c (by simp [hc])) hrest (done ++ [p]) (by simpa using hproc)⟩
    · -- the END that opens the next packet is among the dropped bytes
      exfalso
      have hfirst := foldl_frame done w
        (fun c hc => hne c (by simp [hc])) hu hg
      rw [List.append_cons, List.foldl_append, hfirst] at hproc
      have hends := ends_foldl_le (idle (done ++ [p])) cs'
      have hcount := congrArg (List.count slipEnd) hrest
      rw [List.count_append, count_frames] at hcount
      have hhead : 0 < w.count slipEnd := by
        rcases packets with _ | ⟨q, packets⟩
        · simp at hrest
          exact absurd hrest.1 hw
        · obtain ⟨b, w, rfl⟩ := List.exists_cons_of_ne_nil hw
          have hb : b = slipEnd := (List.cons.inj hrest).1
          simp [hb]
      rw [Socket.ends, Socket.ends, hproc] at hends
      simp only [idle, List.length_append, List.length_cons, List.length_nil,
        Bool.false_eq_true, if_false] at hends
      omega

/-- Two packets in three reads, with a cut between an escape and its follower. -/
theorem processed_eq_iff_two :
    (([[0o300, 1, 0o333], [0o334, 0o300], [0o300, 2, 0o300]] : List (List UInt8)).foldl
      readChunk (idle [])).processed = [[1, 0o300], [2]] :=
  (processed_eq_iff (by decide) (by decide)).mpr
    ⟨[[[0o300, 1, 0o333], [0o334, 0o300]], [[0o300, 2, 0o300]]], by decide, by decide⟩

/-- Two packets in one read: the second one is lost. -/
theorem processed_ne_of_one_read :
    ([frame [1] ++ frame [2]].foldl readChunk (idle [])).processed ≠ [[1], [2]] := by
  decide

end Extempore.SlipFraming
