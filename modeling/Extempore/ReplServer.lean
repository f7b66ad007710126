import Mathlib.Data.Finset.Basic
import Mathlib.Data.List.Infix
import Mathlib.Data.List.TakeWhile
import Mathlib.Algebra.Order.BigOperators.Group.List
import Extempore.GuardedRuns
import Extempore.TerminatedRecords

/-!
# The REPL server thread

`SchemeProcess::serverImpl` listens on the server socket and on every accepted client
socket. What a client sends is collected in `inStrings` until a read ends in CR LF; then
the collected text is cut at its carriage returns and every piece becomes a task.

One event of the model is one pass of the server loop up to the end of an `accept`, of a
failed `select`, or of one `recv`. While the read loop of a socket waits for more bytes no
other event happens.
-/

namespace Extempore.ReplServer
open GuardedRuns TerminatedRecords

abbrev cr : UInt8 := 0x0d
abbrev lf : UInt8 := 0x0a

/-- A `SchemeTask` of type `REPL`: its label is the socket, its string the expression. -/
structure Task where
  sock : ℕ
  text : List UInt8
  deriving DecidableEq, Repr

/-- The locals of `serverImpl` and the task queue. `reading` holds the socket and the
counter `j` of a read loop that is not left yet; `negativeReads` lists the sockets for which
`buf[res - 2]` was evaluated with `res = 1`. -/
structure Server where
  serverSocket : ℕ
  readFds : Finset ℕ
  clientSockets : List ℕ
  inStrings : ℕ → List UInt8
  numFds : ℕ
  reading : Option (ℕ × ℕ)
  taskQueue : List Task
  negativeReads : List ℕ

/-- The outcome of one `recv`. A chunk comes with the byte that lies before the buffer. -/
inductive Recv where
  | closed
  | error
  | data (buf : List UInt8) (below : UInt8)
  deriving DecidableEq, Repr

inductive Event where
  | selectError (closed : List ℕ)
  | acceptError
  | accept (res : ℕ)
  | recv (sock : ℕ) (r : Recv)
  deriving DecidableEq, Repr

def BUFLEN : ℕ := 1024

/-- The state in which the loop is entered. -/
def start (serverSocket : ℕ) : Server where
  serverSocket
  readFds := {serverSocket}
  clientSockets := []
  inStrings := fun _ => []
  numFds := serverSocket + 1
  reading := none
  taskQueue := []
  negativeReads := []

/-- `string += buf` with `buf[res] = 0` appends up to the first NUL. -/
def cString (buf : List UInt8) : List UInt8 := buf.takeWhile (· ≠ 0)

/-- `buf[res - 2] == 0x0d && buf[res - 1] == 0x0a`. -/
def endOfMessage (buf : List UInt8) (below : UInt8) : Bool :=
  (if buf.length = 1 then below else buf.getD (buf.length - 2) 0) == cr &&
    buf.getD (buf.length - 1) 0 == lf

/-- The pieces of `evalStr` from `pos` on; `acc` holds what lies between `pos` and the byte
that `find_first_of` looks at. Each piece keeps its CR and the byte after it is skipped. -/
def subexprs (acc : List UInt8) : List UInt8 → List (List UInt8)
  | [] => []
  | [b] => if b = cr then [acc ++ [b]] else []
  | b :: c :: bs =>
    if b = cr then (acc ++ [b]) :: subexprs [] bs else subexprs (acc ++ [b]) (c :: bs)

/-- The strings of the tasks pushed for the text that a read loop has handed over. -/
def taskTexts (evalStr : List UInt8) : List (List UInt8) :=
  if evalStr = "#break#".toList.map (fun c => UInt8.ofNat c.toNat) then [] else subexprs [] evalStr

/-- The read loop of one socket after a `recv` that returned data: the text kept in
`inStrings`, the text handed over, and the next counter unless the loop is left. -/
def readData (string buf : List UInt8) (below : UInt8) (j : ℕ) :
    List UInt8 × List UInt8 × Option ℕ :=
  let string := string ++ cString buf
  if endOfMessage buf below then ([], string, none)
  else if j > 1024 * 10 then ([], [], none)
  else (string, [], some (j + 1))

/-- The counter with which a `recv` on the client `sock` is reached. -/
def counter (s : Server) (sock : ℕ) : Option ℕ :=
  if sock ∉ s.clientSockets then none
  else match s.reading with
    | none => some 0
    | some (sock', j) => if sock = sock' then some j else none

/-- A descriptor that `accept` may return. -/
def Unopened (s : Server) (res : ℕ) : Prop := res ≠ s.serverSocket ∧ res ∉ s.clientSockets

instance (s : Server) (res : ℕ) : Decidable (Unopened s res) := instDecidableAnd

/-- One event, `none` where it cannot happen. -/
def step (s : Server) : Event → Option Server
  | .selectError closed =>
    if s.reading.isSome then none
    else match s.clientSockets.find? (· ∈ closed) with
      | none => some s
      | some fd => some { s with
          readFds := s.readFds.erase fd
          clientSockets := s.clientSockets.erase fd }
  | .acceptError => if s.reading.isSome then none else some s
  | .accept res =>
    if s.reading.isSome ∨ ¬ Unopened s res then none
    else some { s with
      numFds := res + 1
      readFds := insert res s.readFds
      clientSockets := s.clientSockets ++ [res]
      inStrings := Function.update s.inStrings res [] }
  | .recv sock r => (counter s sock).bind fun j =>
    match r with
    | .closed => some { s with
        readFds := s.readFds.erase sock
        inStrings := Function.update s.inStrings sock []
        clientSockets := s.clientSockets.erase sock
        reading := none }
    | .error => some { s with reading := none }
    | .data buf below =>
      if buf = [] ∨ BUFLEN < buf.length then none
      else
        let (string, evalStr, j') := readData (s.inStrings sock) buf below j
        some { s with
          inStrings := Function.update s.inStrings sock string
          reading := j'.map (sock, ·)
          taskQueue := s.taskQueue ++ (taskTexts evalStr).map (Task.mk sock)
          negativeReads := s.negativeReads ++ if buf.length = 1 then [sock] else [] }

/-! ## Listening to every client -/

/-- `select` is asked for the server socket and for every client. -/
def Listening (s : Server) : Prop :=
  s.serverSocket < s.numFds ∧ ∀ fd ∈ s.clientSockets, fd < s.numFds

/-- Every open descriptor is in the set that `select` gets a copy of. -/
structure Registered (s : Server) : Prop where
  nodup : s.clientSockets.Nodup
  server : s.serverSocket ∉ s.clientSockets
  readFds : ∀ fd, fd ∈ s.readFds ↔ fd = s.serverSocket ∨ fd ∈ s.clientSockets

/-- An accepted descriptor is above all that are open. -/
def Ascending (s : Server) : Event → Prop
  | .accept res => s.serverSocket < res ∧ ∀ fd ∈ s.clientSockets, fd < res
  | _ => True

theorem listening_start (serverSocket : ℕ) : Listening (start serverSocket) :=
  ⟨Nat.lt_succ_self _, by simp [start]⟩

theorem registered_start (serverSocket : ℕ) : Registered (start serverSocket) :=
  ⟨by simp [start], by simp [start], by simp [start]⟩

theorem mem_of_counter {s : Server} {sock j : ℕ} (h : counter s sock = some j) :
    sock ∈ s.clientSockets := by
  by_contra hn
  simp [counter, hn] at h

/-- What an event can do to the sockets: accept one, close one client, or leave all alone. -/
theorem step_sockets {s s' : Server} {e : Event} (h : step s e = some s') :
    s'.serverSocket = s.serverSocket ∧
      ((∃ res, e = .accept res ∧ Unopened s res ∧ s'.numFds = res + 1 ∧
          s'.readFds = insert res s.readFds ∧ s'.clientSockets = s.clientSockets ++ [res]) ∨
        ((∀ res, e ≠ .accept res) ∧ s'.numFds = s.numFds ∧
          ((∃ fd ∈ s.clientSockets, s'.readFds = s.readFds.erase fd ∧
              s'.clientSockets = s.clientSockets.erase fd) ∨
            (s'.readFds = s.readFds ∧ s'.clientSockets = s.clientSockets)))) := by
  cases e with
  | selectError closed =>
    simp only [step] at h
    split at h
    · cases h
    · split at h
      · obtain rfl := Option.some.inj h
        exact ⟨rfl, .inr ⟨by simp, rfl, .inr ⟨rfl, rfl⟩⟩⟩
      · rename_i fd hfd
        obtain rfl := Option.some.inj h
        exact ⟨rfl, .inr ⟨by simp, rfl, .inl ⟨fd, List.mem_of_find?_eq_some hfd, rfl, rfl⟩⟩⟩
  | acceptError =>
    simp only [step] at h
    split at h
    · cases h
    · obtain rfl := Option.some.inj h
      exact ⟨rfl, .inr ⟨by simp, rfl, .inr ⟨rfl, rfl⟩⟩⟩
  | accept res =>
    simp only [step] at h
    split at h
    · cases h
    · rename_i hres
      obtain rfl := Option.some.inj h
      exact ⟨rfl, .inl ⟨res, rfl, by tauto, rfl, rfl, rfl⟩⟩
  | recv sock r =>
    obtain ⟨j, hj, h⟩ := Option.bind_eq_some_iff.mp h
    cases r with
    | closed =>
      obtain rfl := Option.some.inj h
      exact ⟨rfl, .inr ⟨by simp, rfl, .inl ⟨sock, mem_of_counter hj, rfl, rfl⟩⟩⟩
    | error =>
      obtain rfl := Option.some.inj h
      exact ⟨rfl, .inr ⟨by simp, rfl, .inr ⟨rfl, rfl⟩⟩⟩
    | data buf below =>
      simp only at h
      split at h
      · cases h
      · obtain rfl := Option.some.inj h
        exact ⟨rfl, .inr ⟨by simp, rfl, .inr ⟨rfl, rfl⟩⟩⟩

theorem step_registered {s s' : Server} {e : Event} (hs : Registered s)
    (h : step s e = some s') : Registered s' := by
  obtain ⟨hserver, ⟨res, _, hres, _, hfds, hcs⟩|⟨_, _, ⟨fd, hfd, hfds, hcs⟩|⟨hfds, hcs⟩⟩⟩ :=
    step_sockets h
  · refine ⟨?_, ?_, ?_⟩
    · rw [hcs]
      exact hs.nodup.append (List.nodup_singleton res) (by simpa using hres.2)
    · rw [hcs, hserver]
      simpa [hs.server] using hres.1.symm
    · intro fd
      rw [hcs, hserver, hfds, Finset.mem_insert, hs.readFds, List.mem_append, List.mem_singleton]
      tauto
  · have hne : fd ≠ s.serverSocket := fun he => hs.server (he ▸ hfd)
    refine ⟨?_, ?_, ?_⟩
    · rw [hcs]
      exact hs.nodup.erase fd
    · rw [hcs, hserver]
      exact fun hm => hs.server (List.mem_of_mem_erase hm)
    · intro c
      rw [hcs, hserver, hfds, Finset.mem_erase, hs.readFds, hs.nodup.mem_erase_iff]
      have hc : c = s.serverSocket → c ≠ fd := by
        rintro rfl
        exact hne.symm
      tauto
  · refine ⟨by rw [hcs]; exact hs.nodup, by rw [hcs, hserver]; exact hs.server, ?_⟩
    intro c
    rw [hcs, hserver, hfds, hs.readFds]

/-- Along every run `select` is handed the descriptors that are open and no others. -/
theorem run_registered {serverSocket : ℕ} {es : List Event} {s : Server}
    (hr : run step (start serverSocket) es = some s) : Registered s :=
  run_invariant (fun _ _ _ hs _ h => step_registered hs h) (registered_start serverSocket)
    (meets_true _ es) hr

/-- An event keeps the server listening just when the descriptor that it may accept is
above all open ones: `numFds` is set from the newest descriptor alone. -/
theorem step_listening {s s' : Server} {e : Event} (hs : Listening s)
    (h : step s e = some s') : Listening s' ↔ Ascending s e := by
  obtain ⟨hserver, ⟨res, rfl, _, hnum, _, hcs⟩|⟨hne, hnum, hcs⟩⟩ := step_sockets h
  · simp only [Listening, Ascending, hserver, hnum, hcs, List.mem_append, List.mem_singleton]
    constructor
    · rintro ⟨h1, h2⟩
      have hres : Unopened s res := by
        by_contra hn
        simp [step, hn] at h
      refine ⟨?_, ?_⟩
      · have hn := hres.1
        omega
      · intro fd hfd
        have hlt := h2 fd (.inl hfd)
        have hn : fd ≠ res := fun he => hres.2 (he ▸ hfd)
        omega
    · rintro ⟨h1, h2⟩
      refine ⟨by omega, ?_⟩
      rintro fd (hfd|rfl)
      · exact Nat.lt_succ_of_lt (h2 fd hfd)
      · exact Nat.lt_succ_self _
  · have hasc : Ascending s e := by
      cases e with
      | accept res => exact absurd rfl (hne res)
      | _ => trivial
    refine iff_of_true ?_ hasc
    refine ⟨by rw [hserver, hnum]; exact hs.1, ?_⟩
    intro fd hfd
    rw [hnum]
    rcases hcs with ⟨c, _, _, hcs⟩|⟨_, hcs⟩
    · exact hs.2 fd (List.mem_of_mem_erase (hcs ▸ hfd))
    · exact hs.2 fd (hcs ▸ hfd)

/-- The server watches every open descriptor at all times just when every accepted
descriptor is above the server socket and all clients of that moment. -/
theorem always_listening_iff {serverSocket : ℕ} {es : List Event} {s : Server}
    (hr : run step (start serverSocket) es = some s) :
    Always Listening step (start serverSocket) es ↔
      Meets Ascending step (start serverSocket) es :=
  always_iff_meets (fun _ h => h) (fun _ _ _ hs h hs' => (step_listening hs h).mp hs')
    (fun _ _ _ hs ha h => (step_listening hs h).mpr ha) (listening_start serverSocket) hr

/-- A client that comes and goes once. -/
theorem always_listening_iff_once :
    Always Listening step (start 3) [.accept 4, .recv 4 .closed] ↔
      Meets Ascending step (start 3) [.accept 4, .recv 4 .closed] :=
  always_listening_iff rfl

/-- The second of two clients is no longer watched after the first one has reconnected. -/
theorem not_listening_after_reuse :
    (run step (start 3) [.accept 4, .accept 5, .recv 4 .closed, .accept 4]).isSome ∧
      ¬ Always Listening step (start 3) [.accept 4, .accept 5, .recv 4 .closed, .accept 4] :=
  ⟨rfl, fun h => absurd ((h _ [] _ (List.append_nil _).symm (Option.some_get rfl).symm).2 5)
    (by decide)⟩

/-! ## Framing -/

/-- What the server keeps for one socket. -/
structure Line where
  text : List UInt8
  j : ℕ
  tasks : List (List UInt8)
  negative : Bool
  deriving DecidableEq, Repr

/-- One `recv` of the bytes `c.1` with the byte `c.2` before the buffer. -/
def Line.read (l : Line) (c : List UInt8 × UInt8) : Line :=
  let (string, evalStr, j') := readData l.text c.1 c.2 l.j
  { text := string
    j := j'.getD 0
    tasks := l.tasks ++ taskTexts evalStr
    negative := l.negative || c.1.length == 1 }

/-- The part of the server that belongs to the socket `sock`. -/
def Server.line (s : Server) (sock : ℕ) : Line where
  text := s.inStrings sock
  j := match s.reading with
    | none => 0
    | some (sock', j) => if sock = sock' then j else 0
  tasks := (s.taskQueue.filter (·.sock = sock)).map Task.text
  negative := sock ∈ s.negativeReads

/-- The chunks that `recv` returned for `sock`. -/
def chunksOf (sock : ℕ) (es : List Event) : List (List UInt8 × UInt8) :=
  es.filterMap fun
    | .recv sock' (.data buf below) => if sock = sock' then some (buf, below) else none
    | _ => none

/-- The event leaves the connection `sock` open. -/
def Undisturbed (sock : ℕ) : Event → Prop
  | .selectError closed => sock ∉ closed
  | .acceptError => True
  | .accept res => res ≠ sock
  | .recv sock' r => sock' = sock → ∃ buf below, r = .data buf below

theorem chunksOf_cons (sock : ℕ) (e : Event) (es : List Event) :
    chunksOf sock (e :: es) = chunksOf sock [e] ++ chunksOf sock es := by
  rw [chunksOf, ← List.singleton_append, List.filterMap_append]
  rfl

theorem counter_line {s : Server} {sock j : ℕ} (h : counter s sock = some j) :
    (s.line sock).j = j ∧ ∀ sock' ≠ sock, (s.line sock').j = 0 := by
  simp only [counter] at h
  split at h
  · cases h
  · simp only [Server.line]
    split at h
    · exact ⟨Option.some.inj h, fun _ _ => rfl⟩
    · rename_i k i _
      split at h
      · subst k
        simp only [if_true]
        exact ⟨Option.some.inj h, fun sock' hne => if_neg hne⟩
      · cases h

private theorem filter_map_task (sock sock' : ℕ) (ts : List (List UInt8)) :
    ((ts.map (Task.mk sock')).filter (·.sock = sock)).map Task.text =
      if sock' = sock then ts else [] := by
  induction ts with
  | nil => simp
  | cons t ts ih => by_cases h : sock' = sock <;> simp_all

/-- A chunk for another socket leaves the line of `sock` alone. -/
private theorem line_of_ne {s s' : Server} {sock sock' : ℕ} {r : Recv} (hne : sock ≠ sock')
    (h : step s (.recv sock' r) = some s') : s'.line sock = s.line sock := by
  obtain ⟨j, hj, h⟩ := Option.bind_eq_some_iff.mp h
  have hzero := (counter_line hj).2 sock hne
  cases r with
  | closed =>
    obtain rfl := Option.some.inj h
    simp_all [Server.line]
  | error =>
    obtain rfl := Option.some.inj h
    simp_all [Server.line]
  | data buf below =>
    simp only at h
    split at h
    · cases h
    · obtain rfl := Option.some.inj h
      have hread (o : Option ℕ) : (match o.map (fun i => (sock', i)) with
          | none => 0
          | some (k, i) => if sock = k then i else 0) = (s.line sock).j := by
        cases o <;> simp [hne, hzero]
      simp only [Server.line] at hread ⊢
      rw [hread]
      simp only [Function.update_of_ne hne, List.filter_append, List.map_append, filter_map_task,
        if_neg hne.symm, List.append_nil, List.mem_append]
      split <;> simp [hne]

/-- A chunk for `sock` is read into its line. -/
private theorem line_of_data {s s' : Server} {sock : ℕ} {buf : List UInt8} {below : UInt8}
    (h : step s (.recv sock (.data buf below)) = some s') :
    buf ≠ [] ∧ s'.line sock = (s.line sock).read (buf, below) := by
  obtain ⟨j, hj, h⟩ := Option.bind_eq_some_iff.mp h
  have hj' := (counter_line hj).1
  simp only at h
  split at h
  · cases h
  · rename_i hbuf
    obtain rfl := Option.some.inj h
    refine ⟨by tauto, ?_⟩
    have hread (o : Option ℕ) : (match o.map (fun i => (sock, i)) with
        | none => 0
        | some (k, i) => if sock = k then i else 0) = o.getD 0 := by
      cases o <;> simp
    rw [Line.read, hj']
    simp only [Server.line, hread, Function.update_self, List.filter_append, List.map_append,
      filter_map_task, if_true, List.mem_append]
    split <;> simp_all

/-- An event changes the line of `sock` by the chunk that it reads there and not otherwise. -/
theorem step_line {s s' : Server} {e : Event} {sock : ℕ} (hu : Undisturbed sock e)
    (h : step s e = some s') :
    s'.line sock = (chunksOf sock [e]).foldl Line.read (s.line sock) ∧
      ∀ c ∈ chunksOf sock [e], c.1 ≠ [] := by
  cases e with
  | selectError closed =>
    simp only [step] at h
    split at h
    · cases h
    · split at h <;> obtain rfl := Option.some.inj h <;> simp [Server.line, chunksOf]
  | acceptError =>
    simp only [step] at h
    split at h
    · cases h
    · obtain rfl := Option.some.inj h
      simp [chunksOf]
  | accept res =>
    simp only [step] at h
    split at h
    · cases h
    · obtain rfl := Option.some.inj h
      have hne : sock ≠ res := fun he => hu he.symm
      simp [Server.line, chunksOf, hne]
  | recv sock' r =>
    by_cases hs : sock = sock'
    · subst hs
      obtain ⟨buf, below, rfl⟩ := hu rfl
      obtain ⟨hbuf, hline⟩ := line_of_data h
      simp [chunksOf, hline, hbuf]
    · have hnil : chunksOf sock [.recv sock' r] = [] := by
        cases r <;> simp [chunksOf, hs]
      rw [hnil, line_of_ne hs h]
      simp

/-- What a run leaves on the line of `sock` depends on the chunks of that socket only. -/
theorem run_line {s s' : Server} {es : List Event} {sock : ℕ}
    (hu : ∀ e ∈ es, Undisturbed sock e) (hr : run step s es = some s') :
    s'.line sock = (chunksOf sock es).foldl Line.read (s.line sock) ∧
      ∀ c ∈ chunksOf sock es, c.1 ≠ [] := by
  induction es generalizing s with
  | nil =>
    obtain rfl : s = s' := by simpa using hr
    simp [chunksOf]
  | cons e es ih =>
    obtain ⟨m, hm, hr⟩ := run_cons_eq_some.mp hr
    obtain ⟨h1, h2⟩ := step_line (hu e (by simp)) hm
    obtain ⟨ih1, ih2⟩ := ih (fun e he => hu e (by simp [he])) hr
    rw [chunksOf_cons, List.foldl_append, ← h1, ih1]
    refine ⟨rfl, ?_⟩
    intro c hc
    rcases List.mem_append.mp hc with hc|hc
    · exact h2 c hc
    · exact ih2 c hc

/-- The read loop never comes to its limit of consecutive reads without an end of message,
when it is entered with the counter `j`. -/
def WithinLimit (j : ℕ) : List (List UInt8) → Prop
  | [] => True
  | c :: cs =>
    if [cr, lf] <:+ c then WithinLimit 0 cs else j ≤ 1024 * 10 ∧ WithinLimit (j + 1) cs

/-- Within the limit: nowhere more than 10241 consecutive chunks end in something else than
CR LF. -/
theorem withinLimit_iff {j : ℕ} (hj : j ≤ 10241) {cs : List (List UInt8)} :
    WithinLimit j cs ↔
      (∀ ms, ms <+: cs → (∀ c ∈ ms, ¬ [cr, lf] <:+ c) → j + ms.length ≤ 10241) ∧
        ∀ ms, ms <:+: cs → (∀ c ∈ ms, ¬ [cr, lf] <:+ c) → ms.length ≤ 10241 := by
  induction cs generalizing j with
  | nil =>
    simp only [WithinLimit, List.prefix_nil, List.infix_nil, forall_eq, true_iff]
    simp [hj]
  | cons c cs ih =>
    by_cases hc : [cr, lf] <:+ c
    · have hnil (ms : List (List UInt8)) (hm : ms <+: c :: cs) (ho : ∀ x ∈ ms, ¬ [cr, lf] <:+ x) :
          ms = [] := by
        rcases List.prefix_cons_iff.mp hm with rfl|⟨m, rfl, _⟩
        · rfl
        · exact absurd hc (ho c (by simp))
      rw [WithinLimit, if_pos hc, ih (Nat.zero_le _)]
      constructor
      · rintro ⟨_, h⟩
        refine ⟨fun ms hm ho => by simpa [hnil ms hm ho] using hj, fun ms hm ho => ?_⟩
        rcases List.infix_cons_iff.mp hm with hm|hm
        · simp [hnil ms hm ho]
        · exact h ms hm ho
      · rintro ⟨_, h⟩
        have h' ms (hm : ms <:+: cs) := h ms (List.infix_cons hm)
        exact ⟨fun ms hm ho => by simpa using h' ms hm.isInfix ho, h'⟩
    · rw [WithinLimit, if_neg hc]
      constructor
      · rintro ⟨hle, h⟩
        obtain ⟨hp, hi⟩ := (ih (by omega)).mp h
        have hpre ms (hm : ms <+: c :: cs) (ho : ∀ x ∈ ms, ¬ [cr, lf] <:+ x) :
            j + ms.length ≤ 10241 := by
          rcases List.prefix_cons_iff.mp hm with rfl|⟨m, rfl, hm'⟩
          · simpa using hj
          · have hlen := hp m hm' (fun x hx => ho x (by simp [hx]))
            simp only [List.length_cons]
            omega
        refine ⟨hpre, fun ms hm ho => ?_⟩
        rcases List.infix_cons_iff.mp hm with hm|hm
        · have hlen := hpre ms hm ho
          omega
        · exact hi ms hm ho
      · rintro ⟨hp, hi⟩
        have hone := hp [c] (List.prefix_append [c] cs) (by simpa using hc)
        have hle : j ≤ 1024 * 10 := by
          simp only [List.length_singleton] at hone
          omega
        refine ⟨hle, (ih (by omega)).mpr ⟨fun ms hm ho => ?_, fun ms hm ho => ?_⟩⟩
        · have hlen := hp (c :: ms) ((List.prefix_cons_inj c).mpr hm) (by simpa [hc] using ho)
          simp only [List.length_cons] at hlen
          omega
        · exact hi ms (List.infix_cons hm) ho

theorem endOfMessage_iff {buf : List UInt8} (h : 2 ≤ buf.length) (below : UInt8) :
    endOfMessage buf below = true ↔ [cr, lf] <:+ buf := by
  obtain ⟨l, x, y, rfl⟩ : ∃ l x y, buf = l ++ [x, y] := by
    rcases List.eq_nil_or_concat' buf with rfl|⟨l, y, rfl⟩
    · simp at h
    · rcases List.eq_nil_or_concat' l with rfl|⟨l, x, rfl⟩
      · simp at h
      · exact ⟨l, x, y, by simp⟩
  rw [suffix_append_iff (by simp)]
  have hlen : (l ++ [x, y]).length = l.length + 2 := by simp
  have hx : (l ++ [x, y]).getD l.length 0 = x := by simp
  have hy : (l ++ [x, y]).getD (l.length + 1) 0 = y := by simp
  simp only [endOfMessage, hlen, Nat.add_sub_cancel, if_neg (by omega : l.length + 2 ≠ 1), hx,
    show l.length + 2 - 1 = l.length + 1 by omega, hy, Bool.and_eq_true, beq_iff_eq]
  constructor
  · rintro ⟨rfl, rfl⟩
    exact List.suffix_rfl
  · intro hs
    have he := hs.eq_of_length (by simp)
    simp_all

@[simp] theorem cString_eq_self {buf : List UInt8} (h : 0 ∉ buf) : cString buf = buf := by
  rw [cString, List.takeWhile_eq_self_iff]
  intro x hx
  have hx0 : x ≠ 0 := by
    rintro rfl
    exact h hx
  simpa using hx0

/-- What one chunk of at least two bytes without NUL does to a line. -/
theorem read_eq {l : Line} {c : List UInt8 × UInt8} (hc : 2 ≤ c.1.length) (hz : 0 ∉ c.1) :
    l.read c =
      if [cr, lf] <:+ c.1 then { l with
        text := [], j := 0, tasks := l.tasks ++ taskTexts (l.text ++ c.1) }
      else if l.j > 1024 * 10 then { l with text := [], j := 0 }
      else { l with text := l.text ++ c.1, j := l.j + 1 } := by
  have hlen : (c.1.length == 1) = false := by simp; omega
  simp only [Line.read, readData, endOfMessage_iff hc, cString_eq_self hz, hlen, Bool.or_false]
  split
  · rfl
  · split <;> simp [taskTexts, subexprs]

theorem subexprs_record {e rest : List UInt8} (h : cr ∉ e) (acc : List UInt8) :
    subexprs acc (e ++ cr :: lf :: rest) = (acc ++ e ++ [cr]) :: subexprs [] rest := by
  induction e generalizing acc with
  | nil => simp [subexprs]
  | cons b e ih =>
    have hb : b ≠ cr := fun he => h (by simp [he])
    have he : cr ∉ e := fun hm => h (by simp [hm])
    obtain ⟨x, l, hl⟩ : ∃ x l, e ++ cr :: lf :: rest = x :: l :=
      List.exists_cons_of_ne_nil (by simp)
    rw [List.cons_append, hl, subexprs, if_neg hb, ← hl, ih he]
    simp

theorem subexprs_stream {es : List (List UInt8)} (h : ∀ e ∈ es, cr ∉ e) :
    subexprs [] (stream cr lf es) = es.map (· ++ [cr]) := by
  induction es with
  | nil => simp [subexprs]
  | cons e es ih =>
    rw [stream_cons, subexprs_record (h e (by simp)), ih fun e he => h e (by simp [he])]
    simp

theorem taskTexts_stream {es : List (List UInt8)} (h : ∀ e ∈ es, cr ∉ e) :
    taskTexts (stream cr lf es) = es.map (· ++ [cr]) := by
  have hb : stream cr lf es ≠ "#break#".toList.map (fun c => UInt8.ofNat c.toNat) := by
    intro he
    rcases es with _ | ⟨e, es⟩
    · exact absurd he (by decide)
    · have hm : cr ∈ stream cr lf (e :: es) := mem_stream.mpr ⟨e, by simp⟩
      rw [he] at hm
      exact absurd hm (by decide)
  rw [taskTexts, if_neg hb, subexprs_stream h]

/-- Chunks of at least two bytes that stay within the limit leave exactly the records. -/
theorem foldl_read_stream {cs : List (List UInt8 × UInt8)} {l : Line} {es : List (List UInt8)}
    (hlen : ∀ c ∈ cs, 2 ≤ c.1.length) (hz : ∀ c ∈ cs, 0 ∉ c.1) (hcr : ∀ e ∈ es, cr ∉ e)
    (hopen : ¬ [cr, lf] <:+ l.text) (hlim : WithinLimit l.j (cs.map Prod.fst))
    (hcat : l.text ++ (cs.map Prod.fst).flatten = stream cr lf es) :
    (cs.foldl Line.read l).tasks = l.tasks ++ es.map (· ++ [cr]) ∧
      (cs.foldl Line.read l).negative = l.negative := by
  induction cs generalizing l es with
  | nil =>
    have hes : es = [] := by
      by_contra hne
      have hs := suffix_stream (c := cr) (d := lf) hne
      rw [← hcat] at hs
      exact hopen (by simpa using hs)
    simp [hes]
  | cons c cs ih =>
    have hc := hlen c (by simp)
    have ih' := fun {l : Line} {es : List (List UInt8)} => @ih l es
      (fun c hc => hlen c (by simp [hc])) (fun c hc => hz c (by simp [hc]))
    have hcat' : (l.text ++ c.1) ++ (cs.map Prod.fst).flatten = stream cr lf es := by
      simpa using hcat
    rw [List.foldl_cons, read_eq hc (hz c (by simp))]
    rw [List.map_cons, WithinLimit] at hlim
    by_cases hend : [cr, lf] <:+ c.1
    · rw [if_pos hend] at hlim ⊢
      obtain ⟨done, more, rfl, htext, hrest⟩ :=
        exists_split (by decide) hcr ((suffix_append_iff hc).mpr hend) hcat'
      obtain ⟨htasks, hneg⟩ := ih' (l := { l with
          text := [], j := 0, tasks := l.tasks ++ taskTexts (l.text ++ c.1) })
        (fun e (he : e ∈ more) => hcr e (by simp [he])) (by simp) hlim (by simpa using hrest)
      rw [htasks, hneg, htext, taskTexts_stream fun e he => hcr e (by simp [he])]
      simp
    · rw [if_neg hend] at hlim ⊢
      rw [if_neg (by omega)]
      exact ih' hcr (by rwa [suffix_append_iff hc]) hlim.2 hcat'

/-- Every byte of the stream is accounted for: a task and the byte after its CR. -/
def Line.size (l : Line) : ℕ := (l.tasks.map fun t => t.length + 1).sum + l.text.length

theorem sum_subexprs_le (acc e : List UInt8) (h : e.getLast? ≠ some cr) :
    ((subexprs acc e).map fun t => t.length + 1).sum ≤ acc.length + e.length := by
  induction acc, e using subexprs.induct with
  | case1 acc => simp [subexprs]
  | case2 acc => simp at h
  | case3 acc b hb => simp [subexprs, hb]
  | case4 acc c bs ih =>
    have hbs : bs.getLast? ≠ some cr := by
      rcases bs with _ | ⟨x, bs⟩
      · simp
      · simpa using h
    have hle := ih hbs
    simp only [subexprs, if_true, List.map_cons, List.sum_cons, List.length_append,
      List.length_cons, List.length_nil] at hle ⊢
    omega
  | case5 acc b c bs hb ih =>
    have hle := ih (by simpa using h)
    simp only [subexprs, if_neg hb, List.length_append, List.length_cons,
      List.length_nil] at hle ⊢
    omega

theorem sum_taskTexts_le {e : List UInt8} (h : [cr, lf] <:+ e) :
    ((taskTexts e).map fun t => t.length + 1).sum ≤ e.length := by
  rw [taskTexts]
  split
  · simp
  · obtain ⟨u, rfl⟩ := h
    have hle := sum_subexprs_le [] (u ++ [cr, lf]) (by simp [cr, lf])
    simpa using hle

theorem size_read_le {l : Line} {c : List UInt8 × UInt8} (hc : 2 ≤ c.1.length) (hz : 0 ∉ c.1) :
    (l.read c).size ≤ l.size + c.1.length := by
  rw [read_eq hc hz]
  split
  · rename_i hend
    have hle := sum_taskTexts_le (hend.trans (List.suffix_append l.text c.1))
    simp only [Line.size, List.map_append, List.sum_append, List.length_append,
      List.length_nil] at hle ⊢
    omega
  · split
    · simp only [Line.size, List.length_nil]
      omega
    · simp only [Line.size, List.length_append]
      omega

/-- Once the limit is exceeded the cleared bytes are missing for good. -/
theorem size_foldl_lt {cs : List (List UInt8 × UInt8)} {l : Line}
    (hlen : ∀ c ∈ cs, 2 ≤ c.1.length) (hz : ∀ c ∈ cs, 0 ∉ c.1) :
    (cs.foldl Line.read l).size ≤ l.size + (cs.map Prod.fst).flatten.length ∧
      (¬ WithinLimit l.j (cs.map Prod.fst) →
        (cs.foldl Line.read l).size < l.size + (cs.map Prod.fst).flatten.length) := by
  induction cs generalizing l with
  | nil => simp [WithinLimit]
  | cons c cs ih =>
    have hc := hlen c (by simp)
    have hc' := hz c (by simp)
    obtain ⟨hle, hlt⟩ := ih (l := l.read c) (fun c hc => hlen c (by simp [hc]))
      (fun c hc => hz c (by simp [hc]))
    have hsize := size_read_le (l := l) hc hc'
    simp only [List.foldl_cons, List.map_cons, List.flatten_cons, List.length_append]
    refine ⟨by omega, ?_⟩
    intro hlim
    rw [WithinLimit] at hlim
    have hread := read_eq (l := l) hc hc'
    by_cases hend : [cr, lf] <:+ c.1
    · rw [if_pos hend] at hlim hread
      have hj : (l.read c).j = 0 := by rw [hread]
      have hlt' := hlt (by rwa [hj])
      omega
    · rw [if_neg hend] at hlim hread
      by_cases hj : l.j > 1024 * 10
      · have hlost : (l.read c).size < l.size + c.1.length := by
          rw [hread, if_pos hj]
          simp only [Line.size, List.length_nil]
          omega
        omega
      · rw [if_neg hj] at hread
        have hj' : (l.read c).j = l.j + 1 := by rw [hread]
        have hlt' := hlt (by
          rw [hj']
          intro hw
          exact hlim ⟨by omega, hw⟩)
        omega

theorem negative_read (l : Line) (c : List UInt8 × UInt8) :
    (l.read c).negative = (l.negative || c.1.length == 1) := rfl

theorem negative_foldl {cs : List (List UInt8 × UInt8)} {l : Line} :
    (cs.foldl Line.read l).negative = (l.negative || cs.any fun c => c.1.length == 1) := by
  induction cs generalizing l with
  | nil => simp
  | cons c cs ih => simp [ih, negative_read, Bool.or_assoc]

/-- The tasks of a socket are the expressions that were sent, and the chunk buffer is never
read before its start, just when no chunk is a single byte and nowhere more than 10241
consecutive chunks end in something else than CR LF. -/
theorem tasks_eq_iff {s s' : Server} {es : List Event} {sock : ℕ} {exprs : List (List UInt8)}
    (hr : run step s es = some s') (hs : s.line sock = ⟨[], 0, [], false⟩)
    (hu : ∀ e ∈ es, Undisturbed sock e) (hexprs : ∀ e ∈ exprs, cr ∉ e ∧ 0 ∉ e)
    (hcat : ((chunksOf sock es).map Prod.fst).flatten = stream cr lf exprs) :
    ((s'.line sock).tasks = exprs.map (· ++ [cr]) ∧ (s'.line sock).negative = false) ↔
      (∀ c ∈ chunksOf sock es, c.1.length ≠ 1) ∧
        ∀ ms, ms <:+: (chunksOf sock es).map Prod.fst →
          (∀ c ∈ ms, ¬ [cr, lf] <:+ c) → ms.length ≤ 10241 := by
  obtain ⟨hline, hne⟩ := run_line hu hr
  have hz : ∀ c ∈ chunksOf sock es, 0 ∉ c.1 := by
    intro c hc hm
    have hmem : (0 : UInt8) ∈ stream cr lf exprs := by
      rw [← hcat]
      exact List.mem_flatten.mpr ⟨c.1, List.mem_map_of_mem hc, hm⟩
    obtain ⟨e, he, hm⟩ := mem_stream.mp hmem
    rcases hm with hm|hm|hm
    · exact (hexprs e he).2 hm
    · exact absurd hm (by decide)
    · exact absurd hm (by decide)
  have hlim : WithinLimit 0 ((chunksOf sock es).map Prod.fst) ↔
      ∀ ms, ms <:+: (chunksOf sock es).map Prod.fst →
        (∀ c ∈ ms, ¬ [cr, lf] <:+ c) → ms.length ≤ 10241 := by
    rw [withinLimit_iff (Nat.zero_le _)]
    exact ⟨fun h => h.2, fun h => ⟨fun ms hm ho => by simpa using h ms hm.isInfix ho, h⟩⟩
  rw [hline, hs, ← hlim]
  have htwo (h : ∀ c ∈ chunksOf sock es, c.1.length ≠ 1) :
      ∀ c ∈ chunksOf sock es, 2 ≤ c.1.length := by
    intro c hc
    have h1 := h c hc
    have h0 : 0 < c.1.length := List.length_pos_of_ne_nil (hne c hc)
    omega
  constructor
  · rintro ⟨htasks, hneg⟩
    have hone : ∀ c ∈ chunksOf sock es, c.1.length ≠ 1 := by
      simpa [negative_foldl] using hneg
    refine ⟨hone, ?_⟩
    by_contra hw
    have hlt := (size_foldl_lt (l := ⟨[], 0, [], false⟩) (htwo hone) hz).2 hw
    rw [Line.size, htasks, hcat, length_stream] at hlt
    simp only [List.map_map, Function.comp_def, List.length_append, List.length_singleton,
      Nat.add_assoc, Nat.reduceAdd, Line.size, List.map_nil, List.sum_nil, List.length_nil] at hlt
    omega
  · rintro ⟨hone, hw⟩
    have h := foldl_read_stream (l := ⟨[], 0, [], false⟩) (htwo hone) hz
      (fun e he => (hexprs e he).1) (by simp) hw (by simpa using hcat)
    simpa using h

/-- Two expressions that arrive in two chunks, the first of which ends inside a terminator. -/
theorem tasks_eq_iff_two :
    ∃ s s', step (start 3) (.accept 5) = some s ∧
      run step s [.recv 5 (.data [97, cr] 0), .recv 5 (.data [lf, 98, cr, lf] 0)] = some s' ∧
      (s'.line 5).tasks = [[97, cr], [98, cr]] ∧ (s'.line 5).negative = false := by
  refine ⟨(step (start 3) (.accept 5)).get rfl, _, rfl, rfl, ?_⟩
  have hs' : run step ((step (start 3) (.accept 5)).get rfl)
    [.recv 5 (.data [97, cr] 0), .recv 5 (.data [lf, 98, cr, lf] 0)] = some _ := rfl
  have hexprs : ∀ e ∈ ([[97], [98]] : List (List UInt8)), cr ∉ e ∧ 0 ∉ e := by decide
  have hcat : ((chunksOf 5 [.recv 5 (.data [97, cr] 0),
    .recv 5 (.data [lf, 98, cr, lf] 0)]).map Prod.fst).flatten = stream cr lf [[97], [98]] := rfl
  refine (tasks_eq_iff hs' rfl ?_ hexprs hcat).mpr ⟨by decide, ?_⟩
  · intro e he
    rcases List.mem_cons.mp he with rfl|he
    · exact fun _ => ⟨_, _, rfl⟩
    · obtain rfl := List.mem_singleton.mp he
      exact fun _ => ⟨_, _, rfl⟩
  · intro ms hm _
    exact hm.length_le.trans (by decide)

/-- A terminator cut so that its LF comes alone is not recognised. -/
theorem tasks_ne_of_single_lf :
    ((run step (start 3) [.accept 5, .recv 5 (.data [97, cr] 0), .recv 5 (.data [lf] 0)]).map
      fun s => ((s.line 5).tasks, (s.line 5).negative)) = some ([], true) := by
  decide

end Extempore.ReplServer
