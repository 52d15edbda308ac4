import Sok.Epoll.PortMap

/-!
# The site of an accepted connection

The registry knows the port of a listening socket by its number.  The branch of
the event loop that accepts a connection asks it once, and what it says is the
port under which the connection is handed to the thread pool.

Two things are needed for that to be the right site: the registry names the
port that the socket listens on (`RegistryExact`), and nothing on the way to the
pool mixes up two connections (`Attributed.step`).  The second holds in every run; the
first does not, since a socket that epoll refused leaves its entry behind.
-/

namespace Sok

/-- The numbers that `socket` can return while the loop runs: a socket that epoll
took stays open, one that it refused is closed again. -/
def KernelNumbers (passes : List SetupPass) : Prop :=
  passes.Pairwise fun earlier later => earlier.added = true → later.fd ≠ earlier.fd

instance (passes : List SetupPass) : Decidable (KernelNumbers passes) :=
  inferInstanceAs (Decidable (passes.Pairwise _))

/-- Every listening socket is registered under the port it was opened for. -/
def RegistryExact (passes : List SetupPass) : Prop :=
  ∀ pass ∈ passes, pass.added = true → (setupLoop passes).registry.getPort pass.fd = pass.port

/-- The registry is exact when, and only when, the first socket with the number of
a listening socket was opened for the same port. -/
theorem registryExact_iff {passes : List SetupPass} :
    RegistryExact passes ↔ NoRecycledListener passes := by
  constructor
  · intro h pass hpass hadded
    have hexact := h pass hpass hadded
    rw [FdPortRegistry.getPort, setupLoop_registry] at hexact
    have hfound : (passes.find? (·.fd == pass.fd)).isSome :=
      List.find?_isSome.mpr ⟨pass, hpass, beq_self_eq_true pass.fd⟩
    obtain ⟨first, hfirst⟩ := Option.isSome_iff_exists.mp hfound
    rw [hfirst] at hexact ⊢
    exact congrArg some hexact
  · exact fun h pass hpass hadded => getPort_setupLoop h hpass hadded

namespace EpollWorker

/-! ## The port of a connection on its way to the pool -/

/-- What the registry said about the listening socket is what is known about the
connection: an entry that is there is right, and so is the port looked up. -/
structure Attributed (P : Params) (s : State) : Prop where
  entry : ∀ fd c port, s.conns fd = some c → s.clientMapPort fd = some port →
    port = P.listening.registry.getPort c.listener ∨ s.main.entering = some fd
  accepted : ∀ fd listener rest c, s.main = .accepted fd listener rest → s.conns fd = some c →
    c.listener = listener
  enqueueing : ∀ fd port rest c, s.main = .enqueueing fd port rest → s.conns fd = some c →
    port = P.listening.registry.getPort c.listener

theorem attributed_start {P : Params} : Attributed P start where
  entry _ _ _ h := absurd h (by simp [start])
  accepted _ _ _ _ h := absurd h (by simp [start])
  enqueueing _ _ _ _ h := absurd h (by simp [start])

/-- A step that opens no connection and makes no entry, and after which the main
thread is where it was or between two other places. -/
theorem Attributed.of_sameListeners {P : Params} {s next : State} (h : Attributed P s)
    (hconns : SameListeners s next)
    (hentries : ∀ fd port, next.clientMapPort fd = some port → s.clientMapPort fd = some port)
    (hentering : next.main.entering = s.main.entering)
    (haccepted : ∀ fd listener rest,
      next.main = .accepted fd listener rest → s.main = .accepted fd listener rest)
    (henqueueing : ∀ fd port rest,
      next.main = .enqueueing fd port rest → s.main = .enqueueing fd port rest) :
    Attributed P next where
  entry fd c port hc hport := by
    obtain ⟨d, hd, hlistener⟩ := hconns fd c hc
    rw [hentering, ← hlistener]
    exact h.entry fd d port hd (hentries fd port hport)
  accepted fd listener rest c hmain hc := by
    obtain ⟨d, hd, hlistener⟩ := hconns fd c hc
    rw [← hlistener]
    exact h.accepted fd listener rest d (haccepted _ _ _ hmain) hd
  enqueueing fd port rest c hmain hc := by
    obtain ⟨d, hd, hlistener⟩ := hconns fd c hc
    rw [← hlistener]
    exact h.enqueueing fd port rest d (henqueueing _ _ _ hmain) hd

theorem Attributed.accept {P : Params} {s : State} (h : Attributed P s) {fd new : Fd}
    {rest : List Fd} (hmain : s.main = .events (fd :: rest)) :
    Attributed P { s with
      conns := Function.update s.conns new (some ⟨s.nextSerial, fd, ⟨[], false⟩, false⟩)
      nextSerial := s.nextSerial + 1
      main := .accepted new fd rest } where
  entry other c port hc hport := by
    by_cases hnew : other = new
    · exact Or.inr (by rw [hnew]; rfl)
    · have hold : s.conns other = some c := by simpa [Function.update_of_ne hnew] using hc
      rcases h.entry other c port hold hport with hright | hentering
      · exact Or.inl hright
      · exact absurd hentering (by simp [hmain, MainPc.entering])
  accepted other listener rest' c haccepted hc := by
    obtain ⟨rfl, rfl, -⟩ := MainPc.accepted.inj haccepted
    have heq : (⟨s.nextSerial, fd, ⟨[], false⟩, false⟩ : Conn) = c := by simpa using hc
    rw [← heq]
  enqueueing _ _ _ _ henqueueing := absurd henqueueing (by simp)

theorem Attributed.mapInsert {P : Params} {s : State} (h : Attributed P s) {fd listener : Fd}
    {rest : List Fd} (hmain : s.main = .accepted fd listener rest) :
    Attributed P { s with
      clientMapPort :=
        Function.update s.clientMapPort fd (some (P.listening.registry.getPort listener))
      main := .mapped fd rest } where
  entry other c port hc hport := by
    refine Or.inl ?_
    by_cases hfd : other = fd
    · subst hfd
      have hnew : P.listening.registry.getPort listener = port := by simpa using hport
      rw [h.accepted other listener rest c hmain hc, hnew]
    · have hold : s.clientMapPort other = some port := by
        simpa [Function.update_of_ne hfd] using hport
      rcases h.entry other c port hc hold with hright | hentering
      · exact hright
      · rw [hmain] at hentering
        exact absurd (Option.some.inj hentering).symm hfd
  accepted _ _ _ _ haccepted := absurd haccepted (by simp)
  enqueueing _ _ _ _ henqueueing := absurd henqueueing (by simp)

theorem Attributed.findPortAgain {P : Params} {s : State} (h : Attributed P s) {fd : Fd}
    {port : Port} {rest : List Fd} (hmain : s.main = .looking fd rest)
    (hport : s.clientMapPort fd = some port) :
    Attributed P { s with main := .enqueueing fd port rest } where
  entry other c port' hc hport' := by
    rcases h.entry other c port' hc hport' with hright | hentering
    · exact Or.inl hright
    · exact absurd hentering (by simp [hmain, MainPc.entering])
  accepted _ _ _ _ haccepted := absurd haccepted (by simp)
  enqueueing other port' rest' c henqueueing hc := by
    obtain ⟨rfl, rfl, -⟩ := MainPc.enqueueing.inj henqueueing
    rcases h.entry fd c port hc hport with hright | hentering
    · exact hright
    · exact absurd hentering (by simp [hmain, MainPc.entering])

/-- Every step keeps the ports of the connections apart. -/
theorem Attributed.step {P : Params} {s next : State} {a : Action} (hstep : Step P s a next)
    (h : Attributed P s) : Attributed P next := by
  have hsame : ∀ {middle : State}, middle.main = s.main → SameListeners s middle →
      (∀ fd port, middle.clientMapPort fd = some port → s.clientMapPort fd = some port) →
      Attributed P middle := by
    intro middle hmain hconns hentries
    exact h.of_sameListeners hconns hentries (by rw [hmain]) (fun _ _ _ h => hmain ▸ h)
      fun _ _ _ h => hmain ▸ h
  cases hstep with
  -- a connection comes, is entered, and its port is looked up
  | accept hmain _ _ => exact h.accept hmain
  | mapInsert hmain => exact h.mapInsert hmain
  | findPortAgain hmain hport => exact h.findPortAgain hmain hport
  | @ctlAdd fd _ ok hmain =>
      exact h.of_sameListeners (sameListeners_setRegistered s fd ok) (fun _ _ => id)
        (by simp [hmain, MainPc.entering]) (by simp) (by simp)
  -- the main thread does something else
  | epollWait hmain _ | acceptNone hmain | check hmain | findPortMissing hmain _
  | findPortSkip hmain _ | findPort hmain _ | eraseStale hmain | findPortGone hmain _
  | enqueue hmain =>
      exact h.of_sameListeners (sameListeners_of_conns_eq rfl) (fun _ _ => id)
        (by simp [hmain, MainPc.entering]) (by simp) (by simp)
  -- the tasks; an entry that is erased says nothing
  | @mapErase _ task _ _ =>
      refine hsame rfl (sameListeners_of_conns_eq rfl) fun fd port hport => ?_
      by_cases hfd : fd = task.fd
      · subst hfd
        exact absurd hport (by simp [State.setPc])
      · simpa [State.setPc, Function.update_of_ne hfd] using hport
  | begin _ _ | freeSsl _ _ | release _ _ =>
      exact hsame rfl (sameListeners_of_conns_eq rfl) fun _ _ => id
  | @handle _ task _ unread _ _ _ =>
      exact hsame rfl (sameListeners_setSocket s task.fd
        fun socket => { socket with unread := unread }) fun _ _ => id
  | @ctlDel _ task _ _ =>
      exact hsame rfl (sameListeners_setRegistered s task.fd false) fun _ _ => id
  | @close _ task _ _ => exact hsame rfl (sameListeners_close s task.fd) fun _ _ => id
  -- the peers
  | @arrive fd _ | @hangup fd => exact hsame rfl (sameListeners_setSocket s fd _) fun _ _ => id

/-- In every run, whatever the registry says. -/
theorem reachable_attributed {P : Params} {s : State}
    (h : (system P).Reachable Transition.anyStep s) : Attributed P s := by
  induction h with
  | initial hinit =>
      obtain rfl : _ = start := hinit
      exact attributed_start
  | step _ _ hstep ih => exact ih.step (step_of_next hstep)

/-! ## The site of the port -/

/-- The port under which a connection is handed to the pool, and with it the site
that answers, are those of the listening socket it was accepted on. -/
def ServedFromArrivalSite (passes : List SetupPass) (root : YamlReader) (s : State) : Prop :=
  ∀ fd port rest c, s.main = .enqueueing fd port rest → s.conns fd = some c →
    ∀ pass ∈ passes, pass.added = true → pass.fd = c.listener →
      port = pass.port ∧ SiteInfo.ofPort root port = SiteInfo.ofPort root pass.port

/-- **The registry is exact.**  Every listening socket is registered under its port
and every connection is served from the site of the port it arrived on, when and
only when no listening socket has the number of an earlier one for another port. -/
theorem arrival_site (passes : List SetupPass) :
    (RegistryExact passes ∧ ∀ epollFd root s,
      (system ⟨epollFd, setupLoop passes⟩).Reachable Transition.anyStep s →
        ServedFromArrivalSite passes root s) ↔
      NoRecycledListener passes := by
  constructor
  · exact fun h => registryExact_iff.mp h.1
  · intro h
    refine ⟨registryExact_iff.mpr h, ?_⟩
    intro epollFd root s hreach fd port rest c hmain hc pass hpass hadded hlistener
    have hport := (reachable_attributed hreach).enqueueing fd port rest c hmain hc
    rw [← hlistener] at hport
    have hexact : port = pass.port := hport.trans (getPort_setupLoop h hpass hadded)
    exact ⟨hexact, by rw [hexact]⟩

/-- Epoll refuses the socket for 8080; the one for 9090 gets its number. -/
theorem refused_port_is_kept :
    ¬ ∀ passes, KernelNumbers passes →
      RegistryExact passes ∧ ∀ epollFd root s,
        (system ⟨epollFd, setupLoop passes⟩).Reachable Transition.anyStep s →
          ServedFromArrivalSite passes root s := by
  intro h
  have hexact := (h [⟨8080, 4, false⟩, ⟨9090, 4, true⟩] (by decide)).1
  exact absurd (hexact ⟨9090, 4, true⟩ (by simp) rfl) (by decide)

end EpollWorker

end Sok
