import Sok.Dispatch
import Sok.Epoll.Attached
import Sok.Http.Request
import Sok.Serving.Framing

/-!
# Connections that are kept alive

A client that behaves: it sends whole requests, each a GET of an existing file that asks
to keep the connection, and it does not hang up.  The connection is closed all the
same when a task for it finds nothing in the socket, because `dispatch_protocol` takes
an empty peek for a peer that has closed; and a task can find nothing there, because the
event it was enqueued for may have been reported before the task before it emptied the
socket.

`NoIdleCall` is the condition that this does not happen.  Under it the socket holds whole
requests whenever the handler is called, every call returns true, and the connection
stays open (`keep_alive_stays_open`).

A call of the handler is one step.  Bytes that arrive while it reads might as well have
arrived before it, since the request it answers was there as a whole.
-/

namespace Sok

/-! ## What the client asks for -/

/-- `q` is a GET of a file that is there. -/
structure GetsFile (config : YamlReader) (present : Bytes → Prop) (port : Port) (q : Request) :
    Prop where
  get : ascii "GET " <+: q.header
  file : ∃ site, SiteInfo.ofPort config port = .ok site ∧
    present (requestedFile site.rootDir (requestLine q.header).path)

/-- Whole requests, and nothing else. -/
def Whole (config : YamlReader) (present : Bytes → Prop) (port : Port) (unread : Bytes) : Prop :=
  ∃ requests : List Request, (∀ q ∈ requests, GetsFile config present port q) ∧
    unread = Request.stream requests

/-- The files that are there can be read, and have not become shorter. -/
def Env.Provides (env : Env) (present : Bytes → Prop) : Prop :=
  ∀ path, present path → ∃ content mime, env.get path = .found content mime ∧
    ∀ file ∈ env.openFile path, content.length ≤ file.length

section

variable {config : YamlReader} {present : Bytes → Prop} {port : Port} {q : Request}

theorem Whole.append {unread : Bytes} (h : Whole config present port unread)
    (hq : GetsFile config present port q) : Whole config present port (unread ++ q.bytes) := by
  obtain ⟨requests, hrequests, rfl⟩ := h
  refine ⟨requests ++ [q], ?_, by simp [Request.stream]⟩
  intro other hother
  rcases List.mem_append.mp hother with hold | hnew
  · exact hrequests other hold
  · exact List.mem_singleton.mp hnew ▸ hq

theorem whole_nil : Whole config present port [] :=
  ⟨[], by simp, rfl⟩

theorem GetsFile.method (hq : GetsFile config present port q) :
    (requestLine q.header).method = methodGet := by
  obtain ⟨rest, hrest⟩ := hq.get
  have hword : ∀ b ∈ methodGet, isSpace b = false := by
    intro b hb
    have hall : (methodGet.all fun b => !isSpace b) = true := by decide
    simpa using List.all_eq_true.mp hall b hb
  have htoken := nextToken_append rest (by decide : methodGet ≠ []) hword
    (by decide : isSpace 32 = true)
  rw [← hrest]
  exact congrArg Prod.fst htoken

theorem GetsFile.detect_append (hq : GetsFile config present port q) (more : Bytes) :
    detect (q.header ++ more) = .http := by
  obtain ⟨rest, hrest⟩ := hq.get
  have hget : ascii "GET " = [71, 69, 84, 32] := by decide
  have hword : looksHttp (q.header ++ more) = true :=
    looksHttp_iff.mpr ⟨ascii "GET ", by decide, hq.get.trans (List.prefix_append _ _)⟩
  have htls : looksTls (q.header ++ more) = false := by
    rw [← hrest, hget]
    simp [looksTls]
  rw [detect, htls, hword]
  rfl

/-- With such a request in front, the response keeps the connection. -/
theorem GetsFile.answer (hq : GetsFile config present port q) {env : Env}
    (henv : env.Provides present) {site : SiteInfo} (hsite : SiteInfo.ofPort config port = .ok site)
    (more : Bytes) :
    ∃ r, (HttpUtil.answer env site (q.header ++ more)).response = some r ∧ r.keepAlive = true ∧
      HttpUtil.FileFits env.openFile r := by
  obtain ⟨site', hsite', hpresent⟩ := hq.file
  obtain rfl : site = site' := Except.ok.inj (hsite.symm.trans hsite')
  obtain ⟨hmethod, hpath, hversion, hkeep⟩ := q.header_end.requestLine_append q.wellFormed more
  have hnames : NamesFile (q.header ++ more) := by
    refine ⟨fun hmal => q.wellFormed ?_, Or.inl (hmethod.trans hq.method)⟩
    rwa [RequestLine.Malformed, hmethod, hpath, hversion] at hmal
  obtain ⟨content, mime, hfound, hfits⟩ := henv _ hpresent
  rw [HttpUtil.answer, answerWith_file _ _ env site hnames, hpath, hfound]
  exact ⟨_, rfl, hkeep.trans q.keepAlive, fun _ file hfile => hfits file hfile⟩

end

/-! ## One call of the handler -/

/-- With whole requests in the socket, `handle_http` is called and keeps the connection. -/
theorem dispatch_keeps {config : YamlReader} {present : Bytes → Prop} {port : Port} {q : Request}
    (hq : GetsFile config present port q) {env : Env} (henv : env.Provides present)
    {writes : List WriteResult} (hwrites : Serving.WritesInFull writes) {unread more : Bytes}
    (hunread : unread = q.header ++ more) (ended entry : Bool) (tls : HttpsUtil.TlsResults) :
    ∃ run, dispatchProtocol config port env (Socket.peek ⟨unread, ended⟩) entry
        ⟨Socket.results ⟨unread, ended⟩, writes, tls⟩ = .http run ∧
      run.returned = some true ∧ HttpUtil.left run = unread.drop (blockEnd q.header.length) := by
  obtain ⟨site, hsite, -⟩ := hq.file
  obtain ⟨results, rfl⟩ := Serving.eq_cons_of_writesInFull hwrites
  have hne : unread ≠ [] := by
    rw [hunread]
    exact fun hnil => q.wellFormed ((List.append_eq_nil_iff.mp hnil).1 ▸ malformed_nil)
  have hfind : Search.find headerEnd unread = some (q.header.length - 4) := by
    rw [hunread]
    exact Search.find_append more q.header_end
  have hdetect : detect (unread.take 16) = .http := by
    rw [detect_take, hunread]
    exact hq.detect_append more
  have hread := readLoop_results hfind ended
  rw [q.header_end.four_le] at hread
  have hanswers : HttpUtil.Answers (Socket.results ⟨unread, ended⟩) := by
    rw [HttpUtil.Answers, hread]
    simp
  have hreceived : HttpUtil.received (Socket.results ⟨unread, ended⟩) =
      q.header ++ more.take (blockEnd q.header.length - q.header.length) := by
    rw [HttpUtil.received, hread, hunread, List.take_append, List.take_of_length_le
      (le_blockEnd _)]
  obtain ⟨r, hr, hkeep, hfits⟩ := hq.answer henv hsite
    (more.take (blockEnd q.header.length - q.header.length))
  refine ⟨_, by rw [Socket.peek, if_neg hne]; exact dispatchProtocol_http hdetect hsite, ?_, ?_⟩
  · rw [HttpUtil.handleHttp_answers env site _ hanswers (hreceived.symm ▸ hr),
      HttpUtil.brokenPipe_sendHttpResponse_full hfits, hkeep]
    rfl
  · have hleft := (handleHttp_found env site (.full :: .full :: results) hfind ended).2
    rwa [q.header_end.four_le] at hleft

namespace EpollWorker

/-- How `epoll_worker` takes the value returned. -/
def HandlerResult.ofReturned (keepAlive : Bool) : HandlerResult :=
  if keepAlive then .keepAlive else .drop

/-- The result of the handler and what it leaves in the socket are those of
`dispatch_protocol`, where the files are there and every write succeeds. -/
def Handled (config : YamlReader) (present : Bytes → Prop) (port : Port) (socket : Socket)
    (result : HandlerResult) (unread : Bytes) : Prop :=
  ∃ env entry writes tls, env.Provides present ∧ Serving.WritesInFull writes ∧
    let run := dispatchProtocol config port env socket.peek entry ⟨socket.results, writes, tls⟩
    (∃ kept, run.returned = some kept ∧ result = .ofReturned kept) ∧
      (run = .refused → unread = socket.unread) ∧
      ∀ httpRun, run = .http httpRun → unread = HttpUtil.left httpRun

/-! ## The client and the condition -/

/-- The steps of a client that behaves, on the connection with serial number `k`: what
arrives are whole requests, it does not hang up, and the handler is called as it is. -/
structure Behaves (P : Params) (config : YamlReader) (present : Bytes → Prop) (k : ℕ) (s : State)
    (a : Action) : Prop where
  arrives : ∀ fd bytes, a = .arrive fd bytes → ∀ c ∈ s.conns fd, c.serial = k →
    ∃ q, GetsFile config present (P.listening.registry.getPort c.listener) q ∧ bytes = q.bytes
  stays : ∀ fd, a = .hangup fd → ∀ c ∈ s.conns fd, c.serial ≠ k
  handled : ∀ id result unread, a = .handle id result unread → ∀ t ∈ s.tasks id,
    ∀ c ∈ s.conns t.fd, c.serial = k → Handled config present t.port c.socket result unread

/-- The condition on the connection `k`: no mark of a task is erased by the main thread;
the handler is not called while the socket is empty; and the block with the end of the
first header block, which the handler takes as a whole, does not end within a request. -/
structure NoIdleCall (P : Params) (config : YamlReader) (present : Bytes → Prop) (k : ℕ)
    (s : State) (a : Action) : Prop where
  marks : NoStaleRelease s a
  pending : ∀ id result unread, a = .handle id result unread → ∀ t ∈ s.tasks id,
    ∀ c ∈ s.conns t.fd, c.serial = k → c.socket.unread ≠ []
  boundary : ∀ id result unread, a = .handle id result unread → ∀ t ∈ s.tasks id,
    ∀ c ∈ s.conns t.fd, c.serial = k → ∀ i, Search.find headerEnd c.socket.unread = some i →
      Whole config present (P.listening.registry.getPort c.listener)
        (c.socket.unread.drop (blockEnd (i + 4)))

/-- The task is about to close its connection. -/
def TaskPc.closes : TaskPc → Bool
  | .freeing => true
  | .unregistering => true
  | .closing => true
  | _ => false

/-- Connection `k` is open as `fd`, its socket holds whole requests, and no task is about
to close it. -/
def KeptAt (P : Params) (config : YamlReader) (present : Bytes → Prop) (k : ℕ) (s : State)
    (fd : Fd) : Prop :=
  ∃ c, s.conns fd = some c ∧ c.serial = k ∧
    Whole config present (P.listening.registry.getPort c.listener) c.socket.unread ∧
    ∀ id t, s.tasks id = some t → t.fd = fd → t.pc.closes = false

section

variable {P : Params} {config : YamlReader} {present : Bytes → Prop} {k : ℕ} {s next : State}
  {fd : Fd}

/-- No task has come to a cleanup. -/
def NoNewCleanup (s next : State) (fd : Fd) : Prop :=
  ∀ id t, next.tasks id = some t → t.fd = fd → t.pc.closes = true →
    ∃ u, s.tasks id = some u ∧ u.fd = fd ∧ u.pc.closes = true

theorem noNewCleanup_of_tasks_eq (h : next.tasks = s.tasks) : NoNewCleanup s next fd :=
  fun _ t ht hfd hcloses => ⟨t, h ▸ ht, hfd, hcloses⟩

theorem noNewCleanup_setPc {base : State} (htasks : base.tasks = s.tasks) {id : ℕ} {task : Task}
    (htask : s.tasks id = some task) {pc : TaskPc}
    (hcloses : pc.closes = true → task.pc.closes = true) :
    NoNewCleanup s (base.setPc id task pc) fd := by
  intro other t ht hfd hpc
  rcases State.tasks_setPc ht with ⟨rfl, rfl⟩ | ⟨-, ht⟩
  · exact ⟨task, htask, hfd, hcloses hpc⟩
  · exact ⟨t, htasks ▸ ht, hfd, hpc⟩

/-- The connection is the same, but for its registration and the end of its socket. -/
def SameFront (s next : State) (fd : Fd) : Prop :=
  ∀ c, s.conns fd = some c → ∃ d, next.conns fd = some d ∧ d.serial = c.serial ∧
    d.listener = c.listener ∧ d.socket.unread = c.socket.unread

theorem sameFront_of_conns_eq (h : next.conns fd = s.conns fd) : SameFront s next fd :=
  fun c hc => ⟨c, h.trans hc, rfl, rfl, rfl⟩

theorem sameFront_setRegistered (other : Fd) (registered : Bool) :
    SameFront s (s.setRegistered other registered) fd := by
  intro c hc
  obtain ⟨d, hd, hserial, hlistener, hsocket⟩ := State.exists_conn_setRegistered registered hc
  exact ⟨d, hd, hserial, hlistener, by rw [hsocket]⟩

theorem KeptAt.conn (h : KeptAt P config present k s fd) :
    ∃ c, s.conns fd = some c ∧ c.serial = k := by
  obtain ⟨c, hc, hserial, -⟩ := h
  exact ⟨c, hc, hserial⟩

theorem KeptAt.not_closes (h : KeptAt P config present k s fd) :
    ∀ id t, s.tasks id = some t → t.fd = fd → t.pc.closes = false := by
  obtain ⟨-, -, -, -, hnobody⟩ := h
  exact hnobody

/-- A step that leaves what the socket holds, and brings no task to a cleanup. -/
theorem KeptAt.frame (h : KeptAt P config present k s fd)
    (hconn : SameFront s next fd) (htasks : NoNewCleanup s next fd) :
    KeptAt P config present k next fd := by
  obtain ⟨c, hc, hserial, hwhole, hnobody⟩ := h
  obtain ⟨d, hd, hserial', hlistener, hunread⟩ := hconn c hc
  refine ⟨d, hd, hserial'.trans hserial, by rwa [hlistener, hunread], ?_⟩
  intro id t ht hfd
  by_contra hcloses
  obtain ⟨u, hu, hfdu, hclosesU⟩ := htasks id t ht hfd (by simpa using hcloses)
  exact absurd (hnobody id u hu hfdu) (by simp [hclosesU])

/-- With whole requests in the socket, a call of the handler returns true. -/
theorem eq_keepAlive_of_handled {port : Port} {socket : Socket} {result : HandlerResult}
    {unread : Bytes} (hhandled : Handled config present port socket result unread)
    (hwhole : Whole config present port socket.unread) (hpending : socket.unread ≠ []) :
    result = .keepAlive ∧ ∃ i, Search.find headerEnd socket.unread = some i ∧
      unread = socket.unread.drop (blockEnd (i + 4)) := by
  obtain ⟨requests, hrequests, hunread⟩ := hwhole
  cases requests with
  | nil => exact absurd hunread hpending
  | cons q rest =>
      have hsplit : socket.unread = q.header ++ (q.body ++ Request.stream rest) := by
        rw [hunread, Request.stream, List.flatMap_cons, Request.bytes, List.append_assoc]
        rfl
      obtain ⟨env, entry, writes, tls, henv, hwrites, ⟨kept, hreturned, hresult⟩, -, hleft⟩ :=
        hhandled
      obtain ⟨run, hrun, hkept, hdrop⟩ := dispatch_keeps (hrequests q (by simp)) henv hwrites hsplit
        socket.ended entry tls
      refine ⟨?_, q.header.length - 4, ?_, ?_⟩
      · rw [hrun, DispatchRun.returned, hkept] at hreturned
        obtain rfl := Option.some.inj hreturned
        exact hresult
      · rw [hsplit]
        exact Search.find_append _ q.header_end
      · rw [hleft run hrun, hdrop, q.header_end.four_le]

theorem KeptAt.handle (h : KeptAt P config present k s fd) (hattached : Attached P s)
    {id : ℕ} {task : Task} {result : HandlerResult} {unread : Bytes}
    (htask : s.tasks id = some task) (hpc : task.pc = .running)
    (hbehaves : Behaves P config present k s (.handle id result unread))
    (hcond : NoIdleCall P config present k s (.handle id result unread)) :
    KeptAt P config present k
      ((s.setSocket task.fd fun socket => { socket with unread := unread }).setPc id task
        result.next) fd := by
  by_cases hfd : fd = task.fd
  · -- the handler runs on this connection, with its port
    subst hfd
    obtain ⟨c, hc, hserial, hwhole, hnobody⟩ := h
    obtain ⟨c', hc', hport⟩ := hattached.task id task htask (by rw [hpc]; rfl)
    obtain rfl : c = c' := Option.some.inj (hc.symm.trans hc')
    have hhandled := hbehaves.handled id result unread rfl task htask c hc hserial
    rw [hport] at hhandled
    obtain ⟨rfl, i, hfind, hunread⟩ := eq_keepAlive_of_handled hhandled hwhole
      (hcond.pending id result unread rfl task htask c hc hserial)
    have hboundary := hcond.boundary id .keepAlive unread rfl task htask c hc hserial i hfind
    rw [← hunread] at hboundary
    have hconn : (s.setSocket task.fd fun socket => { socket with unread := unread }).conns
        task.fd = some { c with socket := { c.socket with unread := unread } } :=
      State.conns_setSocket_self hc
    refine ⟨_, hconn, hserial, hboundary, ?_⟩
    intro other t ht hfd
    rcases State.tasks_setPc ht with ⟨-, rfl⟩ | ⟨-, ht⟩
    · rfl
    · exact hnobody other t ht hfd
  · have hconn : (s.setSocket task.fd fun socket => { socket with unread := unread }).conns fd =
        s.conns fd := State.conns_setSocket_of_ne hfd
    refine h.frame (sameFront_of_conns_eq hconn) fun other t ht hfd' hcloses => ?_
    rcases State.tasks_setPc ht with ⟨-, rfl⟩ | ⟨-, ht⟩
    · exact absurd hfd'.symm hfd
    · exact ⟨t, ht, hfd', hcloses⟩

/-! ## The other steps -/

theorem KeptAt.arrive (h : KeptAt P config present k s fd) {other : Fd} {bytes : Bytes}
    (hbehaves : Behaves P config present k s (.arrive other bytes)) :
    KeptAt P config present k
      (s.setSocket other fun socket => { socket with unread := socket.unread ++ bytes }) fd := by
  by_cases hfd : fd = other
  · subst hfd
    obtain ⟨c, hc, hserial, hwhole, hnobody⟩ := h
    obtain ⟨q, hq, rfl⟩ := hbehaves.arrives fd bytes rfl c hc hserial
    exact ⟨_, State.conns_setSocket_self hc, hserial, hwhole.append hq, hnobody⟩
  · exact h.frame (sameFront_of_conns_eq (State.conns_setSocket_of_ne hfd))
      (noNewCleanup_of_tasks_eq rfl)

theorem keptAt_accept (hattached : Attached P s) {server new : Fd} {rest : List Fd}
    (hunused : P.Unused s new) :
    KeptAt P config present s.nextSerial
      { s with
        conns := Function.update s.conns new (some ⟨s.nextSerial, server, ⟨[], false⟩, false⟩)
        nextSerial := s.nextSerial + 1
        main := .accepted new server rest } new := by
  refine ⟨⟨s.nextSerial, server, ⟨[], false⟩, false⟩, by simp, rfl, whole_nil, ?_⟩
  intro id t ht hfd
  by_contra hcloses
  have hattachedPc : t.pc.attached = true := by
    cases hpc : t.pc <;> simp [hpc, TaskPc.closes, TaskPc.attached] at hcloses ⊢
  obtain ⟨c, hc, -⟩ := hattached.task id t ht hattachedPc
  exact absurd (hunused.1.symm.trans (hfd ▸ hc)) (by simp)

theorem KeptAt.step {a : Action} (hstep : Step P s a next) (hattached : Attached P s)
    (hbehaves : Behaves P config present k s a)
    (hcond : NoIdleCall P config present k s a) (h : KeptAt P config present k s fd) :
    KeptAt P config present k next fd := by
  cases hstep with
  -- the main thread leaves the connection alone, and its number is not handed out
  | epollWait _ _ | acceptNone _ | mapInsert _ | check _ | findPortMissing _ _ | findPortSkip _ _
  | findPort _ _ | eraseStale _ | findPortAgain _ _ | findPortGone _ _ =>
      exact h.frame (sameFront_of_conns_eq rfl) (noNewCleanup_of_tasks_eq rfl)
  | @accept _ new _ _ _ hunused =>
      obtain ⟨c, hc, -⟩ := h.conn
      have hne : fd ≠ new := fun heq => absurd (hunused.1.symm.trans (heq ▸ hc)) (by simp)
      exact h.frame (sameFront_of_conns_eq (Function.update_of_ne hne _ _))
        (noNewCleanup_of_tasks_eq rfl)
  | @ctlAdd other _ ok _ =>
      exact h.frame (sameFront_setRegistered other ok) (noNewCleanup_of_tasks_eq rfl)
  | @enqueue new port _ _ =>
      refine h.frame (sameFront_of_conns_eq rfl) fun other t ht hfd hcloses => ?_
      by_cases hid : other = s.nextTask
      · subst hid
        have heq : (⟨new, port, .queued⟩ : Task) = t := by simpa using ht
        exact absurd hcloses (by simp [← heq, TaskPc.closes])
      · exact ⟨t, by simpa [Function.update_of_ne hid] using ht, hfd, hcloses⟩
  -- the call of the handler is the step that counts
  | handle htask hpc _ => exact h.handle hattached htask hpc hbehaves hcond
  -- the tasks that clean up are those of other connections
  | begin htask _ =>
      exact h.frame (sameFront_of_conns_eq rfl)
        (noNewCleanup_setPc rfl htask (by simp [TaskPc.closes]))
  | freeSsl htask hpc =>
      exact h.frame (sameFront_of_conns_eq rfl)
        (noNewCleanup_setPc rfl htask fun _ => by rw [hpc]; rfl)
  | @ctlDel _ task htask hpc =>
      exact h.frame (sameFront_setRegistered task.fd false)
        (noNewCleanup_setPc (by rfl) htask fun _ => by rw [hpc]; rfl)
  | @close id task htask hpc =>
      have hne : fd ≠ task.fd := fun heq =>
        absurd (h.not_closes id task htask heq.symm) (by simp [hpc, TaskPc.closes])
      exact h.frame (sameFront_of_conns_eq (Function.update_of_ne hne _ _))
        (noNewCleanup_setPc (by rfl) htask (by simp [TaskPc.closes]))
  | mapErase htask _ =>
      exact h.frame (sameFront_of_conns_eq rfl)
        (noNewCleanup_setPc (by rfl) htask (by simp [TaskPc.closes]))
  | @release id task htask _ =>
      refine h.frame (sameFront_of_conns_eq rfl) fun other t ht hfd hcloses => ?_
      have hid : other ≠ id := by
        rintro rfl
        simp at ht
      exact ⟨t, by simpa [Function.update_of_ne hid] using ht, hfd, hcloses⟩
  -- the peers
  | arrive => exact h.arrive hbehaves
  | @hangup other =>
      refine h.frame (fun c hc => ?_) (noNewCleanup_of_tasks_eq rfl)
      by_cases hfd : fd = other
      · subst hfd
        exact ⟨_, State.conns_setSocket_self hc, rfl, rfl, rfl⟩
      · exact ⟨c, (State.conns_setSocket_of_ne hfd).trans hc, rfl, rfl, rfl⟩

/-! ## All runs -/

theorem nextSerial_step {a : Action} (hstep : Step P s a next) :
    next.nextSerial = s.nextSerial ∨ ∃ server new rest, P.Unused s new ∧
      next = { s with
        conns := Function.update s.conns new (some ⟨s.nextSerial, server, ⟨[], false⟩, false⟩)
        nextSerial := s.nextSerial + 1
        main := .accepted new server rest } := by
  cases hstep with
  | accept _ _ hunused => exact Or.inr ⟨_, _, _, hunused, rfl⟩
  | _ => exact Or.inl rfl

/-- What holds in every state of a run that meets the condition. -/
structure Keeping (P : Params) (config : YamlReader) (present : Bytes → Prop) (k : ℕ) (s : State) :
    Prop where
  marked : Marked s
  attached : Attached P s
  kept : k < s.nextSerial → ∃ fd, KeptAt P config present k s fd

theorem Keeping.step {a : Action} (hstep : Step P s a next)
    (hbehaves : Behaves P config present k s a) (hcond : NoIdleCall P config present k s a)
    (h : Keeping P config present k s) : Keeping P config present k next where
  marked := h.marked.step hcond.marks hstep
  attached := h.attached.step hstep h.marked
  kept hlt := by
    by_cases hold : k < s.nextSerial
    · obtain ⟨fd, hkept⟩ := h.kept hold
      exact ⟨fd, hkept.step hstep h.attached hbehaves hcond⟩
    · rcases nextSerial_step hstep with hsame | ⟨server, new, rest, hunused, rfl⟩
      · exact absurd (hsame ▸ hlt) hold
      · obtain rfl : k = s.nextSerial := Nat.le_antisymm (Nat.lt_succ_iff.mp hlt) (not_lt.mp hold)
        exact ⟨new, keptAt_accept h.attached hunused⟩

theorem keeping_start : Keeping P config present k start where
  marked := marked_start
  attached := attached_start P
  kept hlt := absurd hlt (by simp [start])

theorem reachable_keeping (h : (system P).Reachable
    (fun s a => Behaves P config present k s a ∧ NoIdleCall P config present k s a) s) :
    Keeping P config present k s := by
  refine h.invariant (fun state hinit => ?_) fun state a next hguard hstep => ?_
  · obtain rfl : state = start := hinit
    exact keeping_start
  · exact Keeping.step (step_of_next hstep) hguard.1 hguard.2

end

/-- The connection with serial number `k`, once it has been accepted, is open. -/
def StaysOpen (k : ℕ) (s : State) : Prop :=
  k < s.nextSerial → ∃ fd c, s.conns fd = some c ∧ c.serial = k

/-- **No spurious close.**  In every run in which the client of a connection behaves and
that meets the condition, no worker closes the connection. -/
theorem keep_alive_stays_open (P : Params) (config : YamlReader) (present : Bytes → Prop) (k : ℕ)
    (s : State) (h : (system P).Reachable
      (fun s a => Behaves P config present k s a ∧ NoIdleCall P config present k s a) s) :
    StaysOpen k s := by
  intro hlt
  obtain ⟨fd, hkept⟩ := (reachable_keeping h).kept hlt
  exact ⟨fd, hkept.conn⟩

/-! ## One request -/

/-- Only the page is there. -/
def onlyPage : Bytes → Prop :=
  fun path => path = ascii "/srv/index.html"

theorem provides_pages : pages.Provides onlyPage := by
  rintro path rfl
  exact ⟨ascii "hello", FileCache.getMimeType (ascii "/srv/index.html"), by rfl,
    fun file hfile => (Option.some.inj hfile) ▸ le_rfl⟩

theorem getsFile_keptRequest :
    GetsFile (oneServer 8080 (ascii "/srv")) onlyPage 8080 keptRequest where
  get := by decide
  file := ⟨⟨ascii "blog", ascii "/srv"⟩, rfl,
    (by decide : requestedFile (ascii "/srv") (requestLine keptRequest.header).path =
      ascii "/srv/index.html")⟩

/-- A step that the client and the condition have nothing to say about. -/
def Action.quiet : Action → Bool
  | .arrive .. => false
  | .hangup _ => false
  | .handle .. => false
  | .eraseStale => false
  | _ => true

theorem behaves_of_quiet {P : Params} {config : YamlReader} {present : Bytes → Prop} {k : ℕ}
    {a : Action} (h : a.quiet = true) (s : State) : Behaves P config present k s a where
  arrives _ _ heq := absurd h (by simp [heq, Action.quiet])
  stays _ heq := absurd h (by simp [heq, Action.quiet])
  handled _ _ _ heq := absurd h (by simp [heq, Action.quiet])

theorem noIdleCall_of_quiet {P : Params} {config : YamlReader} {present : Bytes → Prop} {k : ℕ}
    {a : Action} (h : a.quiet = true) (s : State) : NoIdleCall P config present k s a where
  marks heq := absurd h (by simp [heq, Action.quiet])
  pending _ _ _ heq := absurd h (by simp [heq, Action.quiet])
  boundary _ _ _ heq := absurd h (by simp [heq, Action.quiet])

/-- The handler is called for one request, which it answers. -/
theorem handled_keptRequest (ended : Bool) :
    Handled (oneServer 8080 (ascii "/srv")) onlyPage 8080 ⟨keptRequest.bytes, ended⟩ .keepAlive
      [] := by
  have hwrites : Serving.WritesInFull ([.full, .full] : List WriteResult) := ⟨le_rfl, by simp⟩
  have hbytes : keptRequest.bytes = keptRequest.header ++ [] := rfl
  obtain ⟨run, hrun, hreturned, hleft⟩ := dispatch_keeps getsFile_keptRequest provides_pages hwrites
    hbytes ended false ⟨none, .error, [], []⟩
  refine ⟨pages, false, _, ⟨none, .error, [], []⟩, provides_pages, hwrites, ⟨true, ?_, rfl⟩,
    fun hrefused => ?_, fun httpRun hhttp => ?_⟩
  · rw [hrun]
    exact hreturned
  · exact absurd (hrun.symm.trans hrefused) (by simp)
  · obtain rfl := DispatchRun.http.inj (hrun.symm.trans hhttp)
    rw [hleft]
    decide

/-- Nothing is there: the connection is given up. -/
theorem handled_idle :
    Handled (oneServer 8080 (ascii "/srv")) onlyPage 8080 ⟨[], false⟩ .drop [] :=
  ⟨pages, false, [.full, .full], ⟨none, .error, [], []⟩, provides_pages, ⟨le_rfl, by simp⟩,
    ⟨false, rfl, rfl⟩, fun _ => rfl, fun _ h => absurd h (by simp [dispatchProtocol, Socket.peek])⟩

/-- A request arrives, and the event for it is reported once more before the handler is
called. -/
def reportedTwice : List Action :=
  acceptAs 5 ++ [.arrive 5 keptRequest.bytes] ++ (enqueueFor 5 ++ [.begin 0, .epollWait [5]])

/-- The request is answered. -/
def answeredRun : List Action :=
  reportedTwice ++ [.handle 0 .keepAlive []]

/-- The second event is examined after the worker has released the fd. -/
def secondEvent : List Action :=
  answeredRun ++ [.release 0, .check, .findPort, .findPortAgain, .enqueue, .begin 1]

/-- The second task finds nothing in the socket and closes the connection. -/
def closedRun : List Action :=
  secondEvent ++ [.handle 1 .drop []] ++ [.freeSsl 1, .ctlDel 1, .close 1]

/-- Client and condition, on the only connection of a run. -/
def Allowed (s : State) (a : Action) : Prop :=
  Behaves oneSite (oneServer 8080 (ascii "/srv")) onlyPage 0 s a ∧
    NoIdleCall oneSite (oneServer 8080 (ascii "/srv")) onlyPage 0 s a

/-- What a run comes to holds of its last state. -/
theorem eq_of_exec {P : Params} {labels : List Action} {s : State} {β : Type} {f : State → β}
    {value : β} (hs : s ∈ (system P).exec start labels)
    (h : ((system P).exec start labels).map f = some value) : f s = value := by
  rw [Option.mem_def.mp hs] at h
  exact Option.some.inj h

/-- A call of the handler says which task and which connection it is for. -/
theorem eq_of_handle {s : State} {id id' : ℕ} {result result' : HandlerResult}
    {unread unread' : Bytes} {task t : Task} {conn c : Conn}
    (htask : s.tasks id = some task) (hconn : s.conns task.fd = some conn)
    (heq : Action.handle id result unread = .handle id' result' unread')
    (ht : s.tasks id' = some t) (hc : s.conns t.fd = some c) :
    result' = result ∧ unread' = unread ∧ t = task ∧ c = conn := by
  obtain ⟨rfl, rfl, rfl⟩ := Action.handle.inj heq
  obtain rfl := Option.some.inj (htask.symm.trans ht)
  exact ⟨rfl, rfl, rfl, Option.some.inj (hc.symm.trans hconn)⟩

theorem allowed_arrive {s : State} (hconn : s.conns 5 = some ⟨0, 4, ⟨[], false⟩, true⟩) :
    Allowed s (.arrive 5 keptRequest.bytes) where
  left := {
    arrives := fun fd bytes heq c hc _ => by
      obtain ⟨rfl, rfl⟩ := Action.arrive.inj heq
      obtain rfl := Option.some.inj (hconn.symm.trans hc)
      exact ⟨keptRequest, getsFile_keptRequest, rfl⟩
    stays := fun _ heq => absurd heq (by simp)
    handled := fun _ _ _ heq => absurd heq (by simp) }
  right := {
    marks := fun heq => absurd heq (by simp)
    pending := fun _ _ _ heq => absurd heq (by simp)
    boundary := fun _ _ _ heq => absurd heq (by simp) }

theorem allowed_handle {s : State} (htask : s.tasks 0 = some ⟨5, 8080, .running⟩)
    (hconn : s.conns 5 = some ⟨0, 4, ⟨keptRequest.bytes, false⟩, true⟩) :
    Allowed s (.handle 0 .keepAlive []) where
  left := {
    arrives := fun _ _ heq => absurd heq (by simp)
    stays := fun _ heq => absurd heq (by simp)
    handled := fun id result unread heq t ht c hc _ => by
      obtain ⟨rfl, rfl, rfl, rfl⟩ := eq_of_handle htask hconn heq ht hc
      exact handled_keptRequest false }
  right := {
    marks := fun heq => absurd heq (by simp)
    pending := fun id result unread heq t ht c hc _ => by
      obtain ⟨rfl, rfl, rfl, rfl⟩ := eq_of_handle htask hconn heq ht hc
      decide
    boundary := fun id result unread heq t ht c hc _ i hfind => by
      obtain ⟨rfl, rfl, rfl, rfl⟩ := eq_of_handle htask hconn heq ht hc
      have hend : Search.find headerEnd keptRequest.bytes = some 38 := by decide
      obtain rfl := Option.some.inj (hend.symm.trans hfind)
      exact ⟨[], by simp, by decide⟩ }

theorem permits_answeredRun : (system oneSite).Permits Allowed start answeredRun := by
  have hquiet : ∀ labels : List Action, (∀ a ∈ labels, a.quiet = true) → ∀ s,
      (system oneSite).Permits Allowed s labels := fun labels h =>
    Transition.System.permits_of_forall fun a ha s =>
      ⟨behaves_of_quiet (h a ha) s, noIdleCall_of_quiet (h a ha) s⟩
  have haccepted : ((system oneSite).exec start (acceptAs 5)).map (fun s => s.conns 5) =
      some (some ⟨0, 4, ⟨[], false⟩, true⟩) := by
    decide +kernel
  have hcalled : ((system oneSite).exec start reportedTwice).map
      (fun s => (s.tasks 0, s.conns 5)) =
        some (some ⟨5, 8080, .running⟩, some ⟨0, 4, ⟨keptRequest.bytes, false⟩, true⟩) := by
    decide +kernel
  refine Transition.System.permits_append (Transition.System.permits_append
    (Transition.System.permits_append (hquiet _ (by decide) _) fun s hs => ⟨?_, fun _ _ => trivial⟩)
    fun s _ => hquiet _ (by decide) s) fun s hs => ⟨?_, fun _ _ => trivial⟩
  · exact allowed_arrive (eq_of_exec hs haccepted)
  · have hfacts := eq_of_exec hs hcalled
    obtain ⟨htask, hconn⟩ := Prod.mk.inj hfacts
    exact allowed_handle htask hconn

/-- The second task calls the handler on an empty socket. -/
theorem behaves_idle {s : State} (htask : s.tasks 1 = some ⟨5, 8080, .running⟩)
    (hconn : s.conns 5 = some ⟨0, 4, ⟨[], false⟩, true⟩) :
    Behaves oneSite (oneServer 8080 (ascii "/srv")) onlyPage 0 s (.handle 1 .drop []) where
  arrives _ _ heq := absurd heq (by simp)
  stays _ heq := absurd heq (by simp)
  handled id result unread heq t ht c hc _ := by
    obtain ⟨rfl, rfl, rfl, rfl⟩ := eq_of_handle htask hconn heq ht hc
    exact handled_idle

/-- A client that behaves loses its connection to an event that was reported before its
request was answered and is examined after. -/
theorem connection_closed_after_stale_event :
    ¬ ∀ (P : Params) (config : YamlReader) (present : Bytes → Prop) (k : ℕ) (s : State),
      (system P).Reachable (Behaves P config present k) s → StaysOpen k s := by
  intro h
  have hquiet : ∀ labels : List Action, (∀ a ∈ labels, a.quiet = true) → ∀ s,
      (system oneSite).Permits (Behaves oneSite (oneServer 8080 (ascii "/srv")) onlyPage 0) s
        labels := fun labels h =>
    Transition.System.permits_of_forall fun a ha s => behaves_of_quiet (h a ha) s
  have hidle : ((system oneSite).exec start secondEvent).map (fun s => (s.tasks 1, s.conns 5)) =
      some (some ⟨5, 8080, .running⟩, some ⟨0, 4, ⟨[], false⟩, true⟩) := by
    decide +kernel
  -- the fd is free at the end, and no other was ever handed out
  have hclosed : ((system oneSite).exec start closedRun).map
      (fun s => (s.nextSerial, s.conns 5)) = some (1, none) := by
    decide +kernel
  have hpermits : (system oneSite).Permits
      (Behaves oneSite (oneServer 8080 (ascii "/srv")) onlyPage 0) start closedRun := by
    refine Transition.System.permits_append (Transition.System.permits_append
      (Transition.System.permits_append (permits_answeredRun.mono fun _ _ h => h.1) fun s _ =>
        hquiet _ (by decide) s) fun s hs => ⟨?_, fun _ _ => trivial⟩)
      fun s _ => hquiet _ (by decide) s
    have hfacts := eq_of_exec hs hidle
    obtain ⟨htask, hconn⟩ := Prod.mk.inj hfacts
    exact behaves_idle htask hconn
  obtain ⟨s, hexec, hfinal⟩ := Option.map_eq_some_iff.mp hclosed
  obtain ⟨hserial, hfree⟩ := Prod.mk.inj hfinal
  have hreach := (Transition.System.Reachable.initial (S := system oneSite) rfl).exec hpermits hexec
  obtain ⟨fd, c, hc, -⟩ := h oneSite _ onlyPage 0 s hreach (by omega)
  have hother : fd ≠ 5 := fun heq => absurd (hfree.symm.trans (heq ▸ hc)) (by simp)
  have hnone := conns_none_exec hexec (rfl : start.conns fd = none) (by simp [closedRun,
    secondEvent, answeredRun, reportedTwice, acceptAs, enqueueFor, hother])
  exact absurd (hnone.symm.trans hc) (by simp)

/-- Where the second event is not reported, the connection stays open. -/
theorem keep_alive_stays_open_page :
    ∃ s, (system oneSite).exec start (answeredRun ++ [.release 0]) = some s ∧ s.nextSerial = 1 ∧
      StaysOpen 0 s := by
  have hrun : ((system oneSite).exec start (answeredRun ++ [.release 0])).map State.nextSerial =
      some 1 := by
    decide +kernel
  obtain ⟨s, hexec, hserial⟩ := Option.map_eq_some_iff.mp hrun
  refine ⟨s, hexec, hserial, keep_alive_stays_open oneSite (oneServer 8080 (ascii "/srv")) onlyPage
    0 s ((Transition.System.Reachable.initial rfl).exec ?_ hexec)⟩
  exact Transition.System.permits_append permits_answeredRun fun s _ =>
    ⟨⟨behaves_of_quiet rfl s, noIdleCall_of_quiet rfl s⟩, fun _ _ => trivial⟩

end EpollWorker

end Sok
