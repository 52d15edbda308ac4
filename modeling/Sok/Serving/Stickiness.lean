import Sok.Dispatch
import Sok.Foundation.Transition

/-!
# The protocol of a connection

One connection and its readiness events.  The state of TLS is an entry in `ssl_map`,
but `dispatch_protocol` does not look there: on every event it decides again from the
bytes that happen to be in front.  Those are whatever OpenSSL has left in the socket,
so they need not be the beginning of a record.

`FrontOfRecord` is the condition that they are, on every event after the SSL object
was created.  Under it every such event goes to `handle_https`, with that object.
-/

namespace Sok.Connection

/-! ## State -/

/-- An event that has been handled. -/
structure Event where
  /-- The SSL object had been created before. -/
  hadObject : Bool
  /-- The peer had closed, and nothing was left to read. -/
  atEnd : Bool
  run : DispatchRun

structure State where
  socket : Socket
  isOpen : Bool
  /-- The fd has an entry in `ssl_map`. -/
  entry : Bool
  /-- An SSL object has been created for the connection. -/
  created : Bool
  log : List Event

def start : State where
  socket := ⟨[], false⟩
  isOpen := true
  entry := false
  created := false
  log := []

/-- The process and the port the connection was accepted on. -/
structure Params where
  config : YamlReader
  port : Port

/-! ## Steps -/

inductive Action
  | arrive (bytes : Bytes)
  | hangup
  /-- A worker handles an event: what its calls return, and what they leave unread. -/
  | event (env : Env) (calls : Calls) (unread : Bytes)

/-- `dispatch_protocol` on the connection. -/
def State.dispatch (P : Params) (s : State) (env : Env) (calls : Calls) : DispatchRun :=
  dispatchProtocol P.config P.port env s.socket.peek s.entry calls

/-- The peer has closed and nothing is left to read. -/
def State.atEnd (s : State) : Bool :=
  s.socket.unread = [] && s.socket.ended

/-- A step of the peer or of a worker.  When the handler returns false the worker
erases the entry and closes; while it has not returned there is no step. -/
def next (P : Params) (s : State) : Action → Option State
  | .arrive bytes =>
      some { s with socket := { s.socket with unread := s.socket.unread ++ bytes } }
  | .hangup => some { s with socket := { s.socket with ended := true } }
  | .event env calls unread =>
      if s.isOpen ∧ unread <:+ s.socket.unread ∧ calls.tls.peek = s.socket.unread.head? then
        let run := s.dispatch P env calls
        run.returned.map fun keep =>
          { socket := { s.socket with unread := unread }
            isOpen := keep
            entry := keep && run.entryAfter s.entry
            created := s.created || run.creates
            log := s.log ++ [⟨s.created, s.atEnd, run⟩] }
      else none

/-- The events of one connection. -/
def system (P : Params) : Transition.System State Action where
  init s := s = start
  step := next P

/-! ## The condition -/

def Action.isEvent : Action → Bool
  | .event _ _ _ => true
  | _ => false

/-- When an event of a TLS connection is handled, the bytes in front look like the
beginning of a TLS record, or the peer has closed and nothing is left. -/
def FrontOfRecord (s : State) (a : Action) : Prop :=
  a.isEvent = true → s.created = true → looksTls s.socket.unread = true ∨ s.atEnd = true

instance (s : State) (a : Action) : Decidable (FrontOfRecord s a) :=
  inferInstanceAs (Decidable (_ → _ → _))

/-! ## The invariant -/

/-- The event went to `handle_https`, which used the SSL object there was. -/
def Event.Sticks (event : Event) : Prop :=
  ∃ run, event.run = .https run ∧ run.created = false

/-- Every event behind the creation of the SSL object went to `handle_https`, unless
the peer had closed. -/
def Sticky (s : State) : Prop :=
  ∀ event ∈ s.log, event.hadObject = true → event.atEnd = false → event.Sticks

structure Invariant (P : Params) (s : State) : Prop where
  sticky : Sticky s
  /-- `ssl_map` keeps the entry as long as the connection is open. -/
  entry : s.isOpen = true → s.created = true → s.entry = true
  site : s.created = true → ∃ site, SiteInfo.ofPort P.config P.port = .ok site

theorem invariant_start (P : Params) : Invariant P start where
  sticky _ h := absurd h (by simp [start])
  entry _ h := absurd h (by simp [start])
  site h := absurd h (by simp [start])

/-- The peer changes neither the log nor the TLS state. -/
theorem Invariant.of_socket {P : Params} {s : State} (hinv : Invariant P s) (socket : Socket) :
    Invariant P { s with socket := socket } :=
  ⟨hinv.sticky, hinv.entry, hinv.site⟩

section

variable {P : Params} {s : State} {env : Env} {calls : Calls}

/-- With a record in front, a site for the port and an entry the event sticks. -/
theorem sticks_of_looksTls {site : SiteInfo} (hfront : looksTls s.socket.unread = true)
    (hsite : SiteInfo.ofPort P.config P.port = .ok site) (hentry : s.entry = true) :
    ∃ run, s.dispatch P env calls = .https run ∧ run.created = false := by
  have hne : s.socket.unread ≠ [] := by
    intro hnil
    rw [hnil] at hfront
    exact absurd hfront (by decide)
  have hdetect : detect (s.socket.unread.take 16) = .https := by
    rw [detect_take, detect, if_pos hfront]
  refine ⟨HttpsUtil.handleHttps env site true calls.tls, ?_, HttpsUtil.created_handleHttps _ _ _⟩
  rw [State.dispatch, Socket.peek, if_neg hne, hentry, dispatchProtocol_https hdetect hsite]

theorem site_of_https {run : HttpsUtil.HttpsRun} (h : s.dispatch P env calls = .https run) :
    ∃ site, SiteInfo.ofPort P.config P.port = .ok site ∧
      run = HttpsUtil.handleHttps env site s.entry calls.tls := by
  rcases dispatchProtocol_cases P.config P.port env s.socket.peek s.entry calls with
    hrun | ⟨site, hsite, hrun | hrun⟩
  · exact absurd (h.symm.trans hrun) (by simp)
  · exact ⟨site, hsite, DispatchRun.https.inj (h.symm.trans hrun)⟩
  · exact absurd (h.symm.trans hrun) (by simp)

end

theorem Invariant.event {P : Params} {s : State} {env : Env} {calls : Calls} {unread : Bytes}
    {keep : Bool} (hinv : Invariant P s) (hopen : s.isOpen = true)
    (hguard : s.created = true → looksTls s.socket.unread = true ∨ s.atEnd = true)
    (hreturned : (s.dispatch P env calls).returned = some keep) :
    Invariant P
      { socket := { s.socket with unread := unread }
        isOpen := keep
        entry := keep && (s.dispatch P env calls).entryAfter s.entry
        created := s.created || (s.dispatch P env calls).creates
        log := s.log ++ [⟨s.created, s.atEnd, s.dispatch P env calls⟩] } where
  sticky event hevent hobject hend := by
    rcases List.mem_append.mp hevent with hold | hnew
    · exact hinv.sticky event hold hobject hend
    · obtain rfl := List.mem_singleton.mp hnew
      obtain ⟨site, hsite⟩ := hinv.site hobject
      have hfront := (hguard hobject).resolve_right (Bool.not_eq_true _ ▸ hend)
      exact sticks_of_looksTls hfront hsite (hinv.entry hopen hobject)
  entry hkeep hcreated := by
    obtain rfl : keep = true := hkeep
    -- only `handle_https` touches the entry, and it keeps it when it returns true
    cases hrun : s.dispatch P env calls with
    | refused =>
        simpa [DispatchRun.entryAfter] using
          hinv.entry hopen (by simpa [hrun, DispatchRun.creates] using hcreated)
    | http run =>
        simpa [DispatchRun.entryAfter] using
          hinv.entry hopen (by simpa [hrun, DispatchRun.creates] using hcreated)
    | https run =>
        obtain ⟨site, -, rfl⟩ := site_of_https hrun
        rw [hrun] at hreturned
        simpa [DispatchRun.entryAfter] using HttpsUtil.entry_of_returned hreturned
  site hcreated := by
    rcases Bool.or_eq_true _ _ ▸ hcreated with hcreated | hcreates
    · exact hinv.site hcreated
    · cases hrun : s.dispatch P env calls with
      | refused => simp [hrun, DispatchRun.creates] at hcreates
      | http run => simp [hrun, DispatchRun.creates] at hcreates
      | https run =>
          obtain ⟨site, hsite, -⟩ := site_of_https hrun
          exact ⟨site, hsite⟩

theorem Invariant.step {P : Params} {s result : State} {a : Action} (hguard : FrontOfRecord s a)
    (hstep : next P s a = some result) (hinv : Invariant P s) : Invariant P result := by
  cases a with
  | arrive bytes => exact Option.some.inj hstep ▸ hinv.of_socket _
  | hangup => exact Option.some.inj hstep ▸ hinv.of_socket _
  | event env calls unread =>
      obtain ⟨⟨hopen, -, -⟩, hmap⟩ := Option.ite_none_right_eq_some.mp hstep
      obtain ⟨keep, hreturned, rfl⟩ := Option.map_eq_some_iff.mp hmap
      exact hinv.event hopen (hguard rfl) hreturned

theorem reachable_invariant {P : Params} {s : State} (h : (system P).Reachable FrontOfRecord s) :
    Invariant P s := by
  refine h.invariant (fun state hinit => ?_) fun _ _ _ => Invariant.step
  obtain rfl : state = start := hinit
  exact invariant_start P

/-- **Protocol stickiness.**  In every run in which the bytes in front of a TLS
connection look like a record whenever one of its events is handled, every event
behind the creation of the SSL object goes to `handle_https`. -/
theorem tls_connection_sticks (P : Params) (s : State)
    (h : (system P).Reachable FrontOfRecord s) : Sticky s :=
  (reachable_invariant h).sticky

/-! ## A record in two pieces -/

/-- A process with one site, and a client on its port. -/
def blogParams : Params := ⟨oneServer 8080 (ascii "/srv/blog"), 8080⟩

/-- A handshake that is still going on: OpenSSL has taken what there was. -/
def handshake (peek : Option UInt8) : Calls :=
  ⟨[], [], ⟨peek, .want, [], []⟩⟩

/-- A TLS record of which OpenSSL takes the first bytes before the others arrive. -/
def splitRecord (second : Bytes) : List Action :=
  [.arrive [0x16, 0x03, 0x01], .event (.ofFiles []) (handshake (some 0x16)) [], .arrive second,
    .event (.ofFiles []) (handshake second.head?) []]

/-- The second half of the record is taken for another protocol, and the live
connection is dropped. -/
theorem split_record_dropped :
    ¬ ∀ (P : Params) (s : State), (system P).Reachable Transition.anyStep s → Sticky s := by
  intro h
  have hrun : ((system blogParams).exec start (splitRecord [0x01, 0xfc])).map
      (fun s => s.log.map fun event => (event.hadObject, event.atEnd, event.run.isHttps)) =
        some [(false, false, true), (true, false, false)] := by
    decide +kernel
  obtain ⟨s, hexec, hlog⟩ := Option.map_eq_some_iff.mp hrun
  have hmem : (true, false, false) ∈
      s.log.map fun event => (event.hadObject, event.atEnd, event.run.isHttps) := by
    simp [hlog]
  obtain ⟨event, hevent, heq⟩ := List.mem_map.mp hmem
  obtain ⟨hobject, hend, hother⟩ : event.hadObject = true ∧ event.atEnd = false ∧
      event.run.isHttps = false := by
    simpa using heq
  have hreach := Transition.System.reachable_of_exec (S := system blogParams) rfl hexec
  obtain ⟨run, hrun, -⟩ := h blogParams s hreach event hevent hobject hend
  rw [hrun] at hother
  exact absurd hother (by simp [DispatchRun.isHttps])

/-- A second record follows the first. -/
theorem tls_connection_sticks_two_records :
    ∃ s, (system blogParams).exec start (splitRecord [0x16, 0x03, 0x01]) = some s ∧
      s.created = true ∧ Sticky s := by
  have hrun : ((system blogParams).exec start (splitRecord [0x16, 0x03, 0x01])).map State.created =
      some true := by
    decide +kernel
  obtain ⟨s, hexec, hcreated⟩ := Option.map_eq_some_iff.mp hrun
  refine ⟨s, hexec, hcreated, tls_connection_sticks blogParams s ?_⟩
  exact (Transition.System.Reachable.initial rfl).exec (by decide +kernel) hexec

end Sok.Connection
