import Sok.Epoll.Model

/-!
# The port of every open connection

The main thread enters a connection into `client_map_port` between `accept` and
`EPOLL_CTL_ADD`.  The worker that closes a connection erases the entry after
`close`, and between the two the number may already belong to a new connection,
whose entry is then erased.

`KeepsNewEntry` is the condition that this never happens: when a worker comes to
erase an entry, the number is free, or its new connection is not entered yet.
Under it every open connection has its entry, except right after `accept`
(`Mapped`).
-/

namespace Sok.EpollWorker

/-! ## The invariant -/

/-- Every open connection has the entry of its listening socket, or is just being
entered. -/
structure Mapped (P : Params) (s : State) : Prop where
  server : ∀ fd c, s.conns fd = some c → c.listener ∈ P.listening.serverFds
  entry : ∀ fd c, s.conns fd = some c →
    s.clientMapPort fd = some (P.listening.registry.getPort c.listener) ∨
      ∃ rest, s.main = .accepted fd c.listener rest
  accepted : ∀ fd listener rest c, s.main = .accepted fd listener rest → s.conns fd = some c →
    c.listener = listener

theorem mapped_start {P : Params} : Mapped P start where
  server _ _ h := absurd h (by simp [start])
  entry _ _ h := absurd h (by simp [start])
  accepted _ _ _ _ h := absurd h (by simp [start])

/-- Every open connection was open before, on the same listening socket. -/
def SameListeners (s next : State) : Prop :=
  ∀ fd c, next.conns fd = some c → ∃ d, s.conns fd = some d ∧ d.listener = c.listener

theorem sameListeners_of_conns_eq {s next : State} (h : next.conns = s.conns) :
    SameListeners s next :=
  fun _ c hc => ⟨c, h ▸ hc, rfl⟩

theorem sameListeners_setSocket (s : State) (fd : Fd) (f : Socket → Socket) :
    SameListeners s (s.setSocket fd f) := by
  intro other c hc
  by_cases hfd : other = fd
  · subst hfd
    obtain ⟨d, hd, heq⟩ := Option.map_eq_some_iff.mp (by simpa [State.setSocket] using hc)
    exact ⟨d, hd, heq ▸ rfl⟩
  · exact ⟨c, by simpa [State.setSocket, hfd] using hc, rfl⟩

theorem sameListeners_setRegistered (s : State) (fd : Fd) (registered : Bool) :
    SameListeners s (s.setRegistered fd registered) := by
  intro other c hc
  by_cases hfd : other = fd
  · subst hfd
    obtain ⟨d, hd, heq⟩ := Option.map_eq_some_iff.mp (by simpa [State.setRegistered] using hc)
    exact ⟨d, hd, heq ▸ rfl⟩
  · exact ⟨c, by simpa [State.setRegistered, hfd] using hc, rfl⟩

theorem sameListeners_close (s : State) (fd : Fd) :
    SameListeners s { s with conns := Function.update s.conns fd none } := by
  intro other c hc
  have hfd : other ≠ fd := fun hfd => absurd hc (by simp [hfd])
  exact ⟨c, by simpa [Function.update_of_ne hfd] using hc, rfl⟩

/-- A step that opens no connection, leaves the entries alone and neither begins
nor ends the entering of a connection keeps the invariant. -/
theorem Mapped.of_sameListeners {P : Params} {s next : State} (hmapped : Mapped P s)
    (hconns : SameListeners s next) (hentries : next.clientMapPort = s.clientMapPort)
    (hmain : ∀ fd listener rest,
      next.main = .accepted fd listener rest ↔ s.main = .accepted fd listener rest) :
    Mapped P next where
  server fd c hc := by
    obtain ⟨d, hd, hlistener⟩ := hconns fd c hc
    exact hlistener ▸ hmapped.server fd d hd
  entry fd c hc := by
    obtain ⟨d, hd, hlistener⟩ := hconns fd c hc
    rw [hentries, ← hlistener]
    rcases hmapped.entry fd d hd with hentry | ⟨rest, hrest⟩
    · exact Or.inl hentry
    · exact Or.inr ⟨rest, (hmain _ _ _).mpr hrest⟩
  accepted fd listener rest c haccepted hc := by
    obtain ⟨d, hd, hlistener⟩ := hconns fd c hc
    rw [← hlistener]
    exact hmapped.accepted fd listener rest d ((hmain _ _ _).mp haccepted) hd

/-! ## The condition -/

/-- The fd that the main thread has accepted and not yet entered. -/
def MainPc.entering : MainPc → Option Fd
  | .accepted fd _ _ => some fd
  | _ => none

/-- The task that erases an entry of `client_map_port`. -/
def Action.mapErases : Action → Option ℕ
  | .mapErase id => some id
  | _ => none

/-- When a worker erases an entry of `client_map_port`, no new connection with the
same number has been entered. -/
def KeepsNewEntry (s : State) (a : Action) : Prop :=
  ∀ id ∈ a.mapErases, ∀ t ∈ s.tasks id, s.conns t.fd = none ∨ s.main.entering = some t.fd

instance (s : State) (a : Action) : Decidable (KeepsNewEntry s a) :=
  inferInstanceAs (Decidable (∀ id ∈ a.mapErases, ∀ t ∈ s.tasks id, _))

theorem accepted_of_entering {main : MainPc} {fd : Fd} (h : main.entering = some fd) :
    ∃ listener rest, main = .accepted fd listener rest := by
  cases main with
  | accepted new listener rest =>
      obtain rfl := Option.some.inj h
      exact ⟨listener, rest, rfl⟩
  | _ => exact absurd h (by simp [MainPc.entering])

theorem Mapped.accept {P : Params} {s : State} (hmapped : Mapped P s) {fd new : Fd}
    {rest : List Fd} (hmain : s.main = .events (fd :: rest))
    (hserver : fd ∈ P.listening.serverFds) :
    Mapped P { s with
      conns := Function.update s.conns new (some ⟨s.nextSerial, fd, ⟨[], false⟩, false⟩)
      nextSerial := s.nextSerial + 1
      main := .accepted new fd rest } := by
  have hconn : ∀ other c,
      Function.update s.conns new (some ⟨s.nextSerial, fd, ⟨[], false⟩, false⟩) other = some c →
        (other = new ∧ c.listener = fd) ∨ s.conns other = some c := by
    intro other c hc
    by_cases hnew : other = new
    · subst hnew
      rw [Function.update_self, Option.some.injEq] at hc
      exact Or.inl ⟨rfl, hc ▸ rfl⟩
    · exact Or.inr (by rwa [Function.update_of_ne hnew] at hc)
  constructor
  case server =>
    intro other c hc
    rcases hconn other c hc with ⟨-, hlistener⟩ | hold
    · rwa [hlistener]
    · exact hmapped.server other c hold
  case entry =>
    intro other c hc
    rcases hconn other c hc with ⟨rfl, hlistener⟩ | hold
    · exact Or.inr ⟨rest, by rw [hlistener]⟩
    · rcases hmapped.entry other c hold with hentry | ⟨rest', hrest⟩
      · exact Or.inl hentry
      · exact absurd (hmain.symm.trans hrest) (by simp)
  case accepted =>
    intro other listener rest' c haccepted hc
    obtain ⟨rfl, rfl, -⟩ := MainPc.accepted.inj haccepted
    have heq : (⟨s.nextSerial, fd, ⟨[], false⟩, false⟩ : Conn) = c := by simpa using hc
    rw [← heq]

theorem Mapped.mapInsert {P : Params} {s : State} (hmapped : Mapped P s) {fd listener : Fd}
    {rest : List Fd} (hmain : s.main = .accepted fd listener rest) :
    Mapped P { s with
      clientMapPort :=
        Function.update s.clientMapPort fd (some (P.listening.registry.getPort listener))
      main := .mapped fd rest } where
  server := hmapped.server
  entry other c hc := by
    refine Or.inl ?_
    by_cases hfd : other = fd
    · subst hfd
      simp [hmapped.accepted other listener rest c hmain hc]
    · rcases hmapped.entry other c hc with hentry | ⟨rest', hrest⟩
      · simpa [Function.update_of_ne hfd] using hentry
      · exact absurd (MainPc.accepted.inj (hmain.symm.trans hrest)).1.symm hfd
  accepted _ _ _ _ haccepted := absurd haccepted (by simp)

theorem Mapped.mapErase {P : Params} {s : State} (hmapped : Mapped P s) {id : ℕ} {task : Task}
    (htask : s.tasks id = some task) (hguard : KeepsNewEntry s (.mapErase id)) :
    Mapped P { s with clientMapPort := Function.update s.clientMapPort task.fd none } where
  server := hmapped.server
  entry other c hc := by
    by_cases hfd : other = task.fd
    · subst hfd
      rcases hguard id rfl task htask with hfree | hentering
      · exact absurd (hfree.symm.trans hc) (by simp)
      · obtain ⟨listener, rest, hmain⟩ := accepted_of_entering hentering
        exact Or.inr ⟨rest, by rw [hmapped.accepted _ _ _ c hmain hc]; exact hmain⟩
    · rcases hmapped.entry other c hc with hentry | hrest
      · exact Or.inl (by simpa [Function.update_of_ne hfd] using hentry)
      · exact Or.inr hrest
  accepted := hmapped.accepted

/-- Every step that meets the condition keeps the invariant. -/
theorem Mapped.step {P : Params} {s next : State} {a : Action} (hguard : KeepsNewEntry s a)
    (hstep : Step P s a next) (hmapped : Mapped P s) : Mapped P next := by
  cases hstep with
  -- a connection comes and is entered
  | accept hmain hserver _ => exact hmapped.accept hmain hserver
  | mapInsert hmain => exact hmapped.mapInsert hmain
  | @ctlAdd fd _ ok hmain =>
      exact hmapped.of_sameListeners (sameListeners_setRegistered s fd ok) rfl (by simp [hmain])
  -- the main thread does something else
  | epollWait hmain _ | acceptNone hmain | check hmain | findPortMissing hmain _
  | findPortSkip hmain _ | findPort hmain _ | eraseStale hmain | findPortAgain hmain _
  | findPortGone hmain _ | enqueue hmain =>
      exact hmapped.of_sameListeners (sameListeners_of_conns_eq rfl) rfl (by simp [hmain])
  -- the tasks; only the erase touches an entry
  | mapErase htask _ =>
      exact (hmapped.mapErase htask hguard).of_sameListeners (sameListeners_of_conns_eq rfl) rfl
        fun _ _ _ => Iff.rfl
  | begin _ _ | freeSsl _ _ | release _ _ =>
      exact hmapped.of_sameListeners (sameListeners_of_conns_eq rfl) rfl fun _ _ _ => Iff.rfl
  | @handle _ task _ unread _ _ _ =>
      exact hmapped.of_sameListeners (sameListeners_setSocket s task.fd
        fun socket => { socket with unread := unread }) rfl fun _ _ _ => Iff.rfl
  | @ctlDel _ task _ _ =>
      exact hmapped.of_sameListeners (sameListeners_setRegistered s task.fd false) rfl
        fun _ _ _ => Iff.rfl
  | @close _ task _ _ =>
      exact hmapped.of_sameListeners (sameListeners_close s task.fd) rfl fun _ _ _ => Iff.rfl
  -- the peers
  | @arrive fd _ | @hangup fd =>
      exact hmapped.of_sameListeners (sameListeners_setSocket s fd _) rfl fun _ _ _ => Iff.rfl

theorem reachable_mapped {P : Params} {s : State} (h : (system P).Reachable KeepsNewEntry s) :
    Mapped P s :=
  h.invariant (fun _ hinit => hinit ▸ mapped_start) fun _ _ _ hguard hstep =>
    Mapped.step hguard (step_of_next hstep)

/-! ## The entry of an open connection -/

/-- Between two events, every client that is open and registered has the port of
its listening socket, as the setup loop opened it, in `client_map_port`. -/
def ClientsMapped (passes : List SetupPass) (s : State) : Prop :=
  ∀ batch, s.main = .events batch → ∀ fd c, s.conns fd = some c → c.registered = true →
    ∃ pass ∈ passes, pass.added = true ∧ pass.fd = c.listener ∧
      s.clientMapPort fd = some pass.port

/-- **Every open connection has its port.**  In every run in which no worker erases
the entry of a newer connection, on listening sockets that have their own numbers. -/
theorem clients_mapped (epollFd : Fd) (passes : List SetupPass)
    (hpasses : NoRecycledListener passes) (s : State)
    (h : (system ⟨epollFd, setupLoop passes⟩).Reachable KeepsNewEntry s) :
    ClientsMapped passes s := by
  intro batch hmain fd c hc _
  have hmapped := reachable_mapped h
  have hserver := hmapped.server fd c hc
  rw [setupLoop_serverFds] at hserver
  obtain ⟨pass, hpass, hfd⟩ := List.mem_map.mp hserver
  obtain ⟨hpass, hadded⟩ := List.mem_filter.mp hpass
  refine ⟨pass, hpass, hadded, hfd, ?_⟩
  rcases hmapped.entry fd c hc with hentry | ⟨rest, hrest⟩
  · rw [hentry, ← hfd, getPort_setupLoop hpasses hpass hadded]
  · exact absurd (hmain.symm.trans hrest) (by simp)

/-- Up to the moment where the worker erases the entry of the closed connection. -/
def cleanupRun : List Action :=
  acceptAs 5 ++ [.arrive 5 [71]] ++ enqueueFor 5 ++
    [.begin 0, .handle 0 .drop [], .freeSsl 0, .ctlDel 0, .close 0]

/-- The number is handed out again before the worker erases the entry. -/
def lostEntryRun : List Action :=
  cleanupRun ++ acceptAs 5 ++ [.mapErase 0]

theorem lostEntryRun_state :
    ((system oneSite).exec start lostEntryRun).map
        (fun s => (s.main, s.conns 5, s.clientMapPort 5)) =
      some (.events [], some ⟨1, 4, ⟨[], false⟩, true⟩, none) := by
  decide +kernel

/-- Without the condition a live connection loses its entry. -/
theorem live_connection_loses_port :
    ¬ ∀ (epollFd : Fd) (passes : List SetupPass) (s : State),
      (system ⟨epollFd, setupLoop passes⟩).Reachable Transition.anyStep s →
        ClientsMapped passes s := by
  intro h
  obtain ⟨s, hexec, hstate⟩ := Option.map_eq_some_iff.mp lostEntryRun_state
  obtain ⟨hmain, hrest⟩ := Prod.mk.inj hstate
  obtain ⟨hconn, hentry⟩ := Prod.mk.inj hrest
  have hreach := Transition.System.reachable_of_exec (S := system oneSite) rfl hexec
  obtain ⟨pass, -, -, -, hport⟩ := h 3 [⟨8080, 4, true⟩] s hreach [] hmain 5 _ hconn rfl
  exact absurd (hentry.symm.trans hport) (by simp)

/-- The number is handed out again after the cleanup. -/
theorem clients_mapped_number_again :
    ∃ s, (system oneSite).exec start (cleanupRun ++ [.mapErase 0, .release 0] ++ acceptAs 5) =
        some s ∧ s.conns 5 = some ⟨1, 4, ⟨[], false⟩, true⟩ ∧
      ClientsMapped [⟨8080, 4, true⟩] s := by
  have hfinal : ((system oneSite).exec start
      (cleanupRun ++ [.mapErase 0, .release 0] ++ acceptAs 5)).map (fun s => s.conns 5) =
        some (some ⟨1, 4, ⟨[], false⟩, true⟩) := by
    decide +kernel
  obtain ⟨s, hexec, hconn⟩ := Option.map_eq_some_iff.mp hfinal
  refine ⟨s, hexec, hconn, clients_mapped 3 [⟨8080, 4, true⟩] (by decide) s ?_⟩
  exact (Transition.System.Reachable.initial rfl).exec (by decide +kernel) hexec

end Sok.EpollWorker
