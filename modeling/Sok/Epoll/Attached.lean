import Sok.Epoll.PortMap
import Sok.Epoll.SingleWorker

/-!
# The connection of a task

A task belongs to the connection that has its fd number, from the enqueue to its call
of `close`, and it has the port of that connection's listening socket.  This rests on the
ownership of the marks: as long as the main thread or a task holds the mark of an fd,
nobody else closes it.
-/

namespace Sok.EpollWorker

/-! ## The invariant -/

/-- The task has neither closed its connection nor left it open. -/
def TaskPc.attached : TaskPc → Bool
  | .unmapping => false
  | .releasing => false
  | _ => true

/-- Tasks, entries and the main thread refer to open connections. -/
structure Attached (P : Params) (s : State) : Prop where
  fresh : ∀ id t, s.tasks id = some t → id < s.nextTask
  task : ∀ id t, s.tasks id = some t → t.pc.attached = true →
    ∃ c, s.conns t.fd = some c ∧ t.port = P.listening.registry.getPort c.listener
  entry : ∀ fd port, s.clientMapPort fd = some port → s.main.entering ≠ some fd →
    (∃ c, s.conns fd = some c ∧ port = P.listening.registry.getPort c.listener) ∨
      ∃ id t, s.tasks id = some t ∧ t.pc = .unmapping ∧ t.fd = fd
  entering : ∀ fd listener rest, s.main = .accepted fd listener rest →
    (∃ c, s.conns fd = some c ∧ c.listener = listener) ∧
      ∀ id t, s.tasks id = some t → t.pc.attached = true → t.fd ≠ fd
  enqueueing : ∀ fd port rest, s.main = .enqueueing fd port rest →
    ∃ c, s.conns fd = some c ∧ port = P.listening.registry.getPort c.listener

theorem attached_start (P : Params) : Attached P start where
  fresh _ _ h := absurd h (by simp [start])
  task _ _ h := absurd h (by simp [start])
  entry _ _ h := absurd h (by simp [start])
  entering _ _ _ h := absurd h (by simp [start])
  enqueueing _ _ _ h := absurd h (by simp [start])

/-! ## Frames -/

/-- Every open connection stays open, on the same listening socket. -/
def KeepsConns (s next : State) : Prop :=
  ∀ fd c, s.conns fd = some c → ∃ d, next.conns fd = some d ∧ d.listener = c.listener

theorem keepsConns_of_conns_eq {s next : State} (h : next.conns = s.conns) : KeepsConns s next :=
  fun _ c hc => ⟨c, h ▸ hc, rfl⟩

theorem keepsConns_setSocket (s : State) (fd : Fd) (f : Socket → Socket) :
    KeepsConns s (s.setSocket fd f) := by
  intro other c hc
  obtain ⟨d, hd, -, hlistener⟩ := State.exists_conn_setSocket f hc
  exact ⟨d, hd, hlistener⟩

theorem keepsConns_setRegistered (s : State) (fd : Fd) (registered : Bool) :
    KeepsConns s (s.setRegistered fd registered) := by
  intro other c hc
  obtain ⟨d, hd, -, hlistener, -⟩ := State.exists_conn_setRegistered registered hc
  exact ⟨d, hd, hlistener⟩

theorem keepsConns_accept {P : Params} {s : State} {new : Fd} (hunused : P.Unused s new)
    (c : Conn) : KeepsConns s { s with conns := Function.update s.conns new (some c) } := by
  intro other d hd
  have hne : other ≠ new := fun heq => absurd (hunused.1.symm.trans (heq ▸ hd)) (by simp)
  exact ⟨d, by simpa [Function.update_of_ne hne] using hd, rfl⟩

/-- No task has come or become attached, and those that are unmapping stay so. -/
structure KeepsTasks (s next : State) : Prop where
  nextTask : next.nextTask = s.nextTask
  back : ∀ id t, next.tasks id = some t →
    ∃ u, s.tasks id = some u ∧ u.fd = t.fd ∧ u.port = t.port ∧
      (t.pc.attached = true → u.pc.attached = true)
  unmapping : ∀ id t, s.tasks id = some t → t.pc = .unmapping → next.tasks id = some t

theorem keepsTasks_of_tasks_eq {s next : State} (htasks : next.tasks = s.tasks)
    (hnext : next.nextTask = s.nextTask) : KeepsTasks s next where
  nextTask := hnext
  back _ t ht := ⟨t, htasks ▸ ht, rfl, rfl, fun h => h⟩
  unmapping _ _ ht _ := htasks ▸ ht

theorem keepsTasks_setPc {s base : State} (htasks : base.tasks = s.tasks)
    (hnext : base.nextTask = s.nextTask) {id : ℕ} {task : Task} (htask : s.tasks id = some task)
    {pc : TaskPc} (hpc : task.pc ≠ .unmapping)
    (hattached : pc.attached = true → task.pc.attached = true) :
    KeepsTasks s (base.setPc id task pc) where
  nextTask := hnext
  back other t ht := by
    rcases State.tasks_setPc ht with ⟨rfl, rfl⟩ | ⟨-, ht⟩
    · exact ⟨task, htask, rfl, rfl, hattached⟩
    · exact ⟨t, htasks ▸ ht, rfl, rfl, fun h => h⟩
  unmapping other t ht hunmapping := by
    have hid : other ≠ id := by
      rintro rfl
      exact hpc (Option.some.inj (htask.symm.trans ht) ▸ hunmapping)
    rw [State.tasks_setPc_of_ne hid, htasks]
    exact ht

section

variable {P : Params} {s next : State}

/-- A step that keeps the connections, the tasks and the entries, and neither enters a
connection nor comes to an enqueue, keeps the invariant. -/
theorem Attached.frame (h : Attached P s) (hconns : KeepsConns s next) (htasks : KeepsTasks s next)
    (hentries : next.clientMapPort = s.clientMapPort) (hmain : next.main = s.main ∨
      (s.main.entering = none ∧ next.main.entering = none ∧
        ∀ fd port rest, next.main ≠ .enqueueing fd port rest)) :
    Attached P next where
  fresh id t ht := by
    obtain ⟨u, hu, -⟩ := htasks.back id t ht
    exact htasks.nextTask ▸ h.fresh id u hu
  task id t ht hattached := by
    obtain ⟨u, hu, hfd, hport, hback⟩ := htasks.back id t ht
    obtain ⟨c, hc, hlistener⟩ := h.task id u hu (hback hattached)
    obtain ⟨d, hd, hsame⟩ := hconns u.fd c hc
    exact ⟨d, hfd ▸ hd, by rw [← hport, hlistener, hsame]⟩
  entry fd port hport hentering := by
    have hbefore : s.main.entering ≠ some fd := by
      rcases hmain with hsame | ⟨hnone, -⟩
      · rwa [← hsame]
      · simp [hnone]
    rcases h.entry fd port (hentries ▸ hport) hbefore with ⟨c, hc, hlistener⟩ |
        ⟨id, t, ht, hpc, hfd⟩
    · obtain ⟨d, hd, hsame⟩ := hconns fd c hc
      exact Or.inl ⟨d, hd, by rw [hlistener, hsame]⟩
    · exact Or.inr ⟨id, t, htasks.unmapping id t ht hpc, hpc, hfd⟩
  entering fd listener rest haccepted := by
    rcases hmain with hsame | ⟨-, hnone, -⟩
    · obtain ⟨⟨c, hc, hlistener⟩, hnobody⟩ := h.entering fd listener rest (hsame ▸ haccepted)
      obtain ⟨d, hd, hlistener'⟩ := hconns fd c hc
      refine ⟨⟨d, hd, by rw [hlistener', hlistener]⟩, ?_⟩
      intro id t ht hattached
      obtain ⟨u, hu, hfd, -, hback⟩ := htasks.back id t ht
      exact hfd ▸ hnobody id u hu (hback hattached)
    · rw [haccepted] at hnone
      exact absurd hnone (by simp [MainPc.entering])
  enqueueing fd port rest henqueueing := by
    rcases hmain with hsame | ⟨-, -, hno⟩
    · obtain ⟨c, hc, hlistener⟩ := h.enqueueing fd port rest (hsame ▸ henqueueing)
      obtain ⟨d, hd, hsame'⟩ := hconns fd c hc
      exact ⟨d, hd, by rw [hlistener, hsame']⟩
    · exact absurd henqueueing (hno fd port rest)

/-! ## The steps that do more -/

theorem Attached.accept (h : Attached P s) {fd new : Fd} {rest : List Fd}
    (hmain : s.main = .events (fd :: rest)) (hunused : P.Unused s new) :
    Attached P { s with
      conns := Function.update s.conns new (some ⟨s.nextSerial, fd, ⟨[], false⟩, false⟩)
      nextSerial := s.nextSerial + 1
      main := .accepted new fd rest } := by
  have hkept := keepsConns_accept hunused ⟨s.nextSerial, fd, ⟨[], false⟩, false⟩
  -- the number is not in use, and attached tasks have open connections
  have hnobody : ∀ id t, s.tasks id = some t → t.pc.attached = true → t.fd ≠ new := by
    intro id t ht hattached hnew
    obtain ⟨c, hc, -⟩ := h.task id t ht hattached
    exact absurd (hunused.1.symm.trans (hnew ▸ hc)) (by simp)
  constructor
  case fresh => exact h.fresh
  case task =>
    intro id t ht hattached
    obtain ⟨c, hc, hlistener⟩ := h.task id t ht hattached
    obtain ⟨d, hd, hsame⟩ := hkept t.fd c hc
    exact ⟨d, hd, by rw [hlistener, hsame]⟩
  case entry =>
    intro other port hport hentering
    have hbefore : s.main.entering ≠ some other := by simp [hmain, MainPc.entering]
    rcases h.entry other port hport hbefore with ⟨c, hc, hlistener⟩ | htask
    · obtain ⟨d, hd, hsame⟩ := hkept other c hc
      exact Or.inl ⟨d, hd, by rw [hlistener, hsame]⟩
    · exact Or.inr htask
  case entering =>
    intro other listener rest' haccepted
    obtain ⟨rfl, rfl, -⟩ := MainPc.accepted.inj haccepted
    exact ⟨⟨⟨s.nextSerial, fd, ⟨[], false⟩, false⟩, by simp, rfl⟩, hnobody⟩
  case enqueueing => exact fun _ _ _ henqueueing => absurd henqueueing (by simp)

theorem Attached.mapInsert (h : Attached P s) {fd listener : Fd} {rest : List Fd}
    (hmain : s.main = .accepted fd listener rest) :
    Attached P { s with
      clientMapPort :=
        Function.update s.clientMapPort fd (some (P.listening.registry.getPort listener))
      main := .mapped fd rest } where
  fresh := h.fresh
  task := h.task
  entry other port hport _ := by
    by_cases hfd : other = fd
    · subst hfd
      obtain ⟨⟨c, hc, hlistener⟩, -⟩ := h.entering other listener rest hmain
      have heq : P.listening.registry.getPort listener = port := by simpa using hport
      exact Or.inl ⟨c, hc, by rw [← heq, hlistener]⟩
    · have hold : s.clientMapPort other = some port := by
        simpa [Function.update_of_ne hfd] using hport
      exact h.entry other port hold (by simpa [hmain, MainPc.entering] using Ne.symm hfd)
  entering _ _ _ haccepted := absurd haccepted (by simp)
  enqueueing _ _ _ henqueueing := absurd henqueueing (by simp)

/-- The main thread holds the mark, so no task is about to erase the entry it has found. -/
theorem Attached.findPortAgain (h : Attached P s) (hmarked : Marked s) {fd : Fd} {port : Port}
    {rest : List Fd} (hmain : s.main = .looking fd rest) (hport : s.clientMapPort fd = some port) :
    Attached P { s with main := .enqueueing fd port rest } where
  fresh := h.fresh
  task := h.task
  entry other port' hport' _ := h.entry other port' hport' (by simp [hmain, MainPc.entering])
  entering _ _ _ haccepted := absurd haccepted (by simp)
  enqueueing other port' rest' henqueueing := by
    obtain ⟨rfl, rfl, -⟩ := MainPc.enqueueing.inj henqueueing
    rcases h.entry fd port hport (by simp [hmain, MainPc.entering]) with hconn | ⟨id, t, ht, -, hfd⟩
    · exact hconn
    · exact absurd hfd (hmarked.main_unique fd (by rw [hmain]; rfl) id t ht)

theorem Attached.enqueue (h : Attached P s) {fd : Fd} {port : Port} {rest : List Fd}
    (hmain : s.main = .enqueueing fd port rest) :
    Attached P { s with
      tasks := Function.update s.tasks s.nextTask (some ⟨fd, port, .queued⟩)
      nextTask := s.nextTask + 1
      main := .events rest } where
  fresh id t ht := by
    by_cases hid : id = s.nextTask
    · exact hid ▸ Nat.lt_succ_self _
    · have hold : s.tasks id = some t := by simpa [Function.update_of_ne hid] using ht
      exact (h.fresh id t hold).trans (Nat.lt_succ_self _)
  task id t ht hattached := by
    by_cases hid : id = s.nextTask
    · subst hid
      have heq : (⟨fd, port, .queued⟩ : Task) = t := by simpa using ht
      exact heq ▸ h.enqueueing fd port rest hmain
    · have hold : s.tasks id = some t := by simpa [Function.update_of_ne hid] using ht
      exact h.task id t hold hattached
  entry other port' hport' _ := by
    rcases h.entry other port' hport' (by simp [hmain, MainPc.entering]) with hconn |
        ⟨id, t, ht, hpc, hfd⟩
    · exact Or.inl hconn
    · have hid : id ≠ s.nextTask := (h.fresh id t ht).ne
      exact Or.inr ⟨id, t, by simpa [Function.update_of_ne hid] using ht, hpc, hfd⟩
  entering _ _ _ haccepted := absurd haccepted (by simp)
  enqueueing _ _ _ henqueueing := absurd henqueueing (by simp)

/-- A task closes only the connection of its own fd, on which it is alone. -/
theorem Attached.close (h : Attached P s) (hmarked : Marked s) {id : ℕ} {task : Task}
    (htask : s.tasks id = some task) (hpc : task.pc = .closing) :
    Attached P ({ s with conns := Function.update s.conns task.fd none }.setPc id task
      .unmapping) := by
  have hattached : task.pc.attached = true := by rw [hpc]; rfl
  -- the mark of the fd is that of `id`, so no other task has the fd
  have hothers : ∀ other t, ({ s with conns := Function.update s.conns task.fd none }.setPc id task
      .unmapping).tasks other = some t →
        (other = id ∧ t = { task with pc := .unmapping }) ∨
          (s.tasks other = some t ∧ t.fd ≠ task.fd) := by
    intro other t ht
    rcases State.tasks_setPc ht with heq | ⟨hid, hold⟩
    · exact Or.inl heq
    · exact Or.inr ⟨hold, fun hfd => hid (hmarked.task_unique other id t task hold htask hfd)⟩
  have hconn : ∀ fd, fd ≠ task.fd → Function.update s.conns task.fd none fd = s.conns fd :=
    fun fd hfd => Function.update_of_ne hfd _ _
  constructor
  case fresh =>
    intro other t ht
    rcases hothers other t ht with ⟨rfl, -⟩ | ⟨hold, -⟩
    · exact h.fresh other task htask
    · exact h.fresh other t hold
  case task =>
    intro other t ht hattached'
    rcases hothers other t ht with ⟨-, rfl⟩ | ⟨hold, hfd⟩
    · exact absurd hattached' (by simp [TaskPc.attached])
    · obtain ⟨c, hc, hlistener⟩ := h.task other t hold hattached'
      exact ⟨c, (hconn t.fd hfd).trans hc, hlistener⟩
  case entry =>
    intro fd port hport hentering
    by_cases hfd : fd = task.fd
    · exact Or.inr ⟨id, { task with pc := .unmapping }, State.tasks_setPc_self, rfl, hfd.symm⟩
    · rcases h.entry fd port hport hentering with ⟨c, hc, hlistener⟩ | ⟨other, t, ht, hpc', hfd'⟩
      · exact Or.inl ⟨c, (hconn fd hfd).trans hc, hlistener⟩
      · have hid : other ≠ id := by
          rintro rfl
          rw [Option.some.inj (htask.symm.trans ht)] at hpc
          exact absurd (hpc.symm.trans hpc') (by simp)
        exact Or.inr ⟨other, t, (State.tasks_setPc_of_ne hid).trans ht, hpc', hfd'⟩
  case entering =>
    intro fd listener rest haccepted
    obtain ⟨⟨c, hc, hlistener⟩, hnobody⟩ := h.entering fd listener rest haccepted
    have hfd : fd ≠ task.fd := (hnobody id task htask hattached).symm
    refine ⟨⟨c, (hconn fd hfd).trans hc, hlistener⟩, ?_⟩
    intro other t ht hattached'
    rcases hothers other t ht with ⟨-, rfl⟩ | ⟨hold, -⟩
    · exact absurd hattached' (by simp [TaskPc.attached])
    · exact hnobody other t hold hattached'
  case enqueueing =>
    intro fd port rest henqueueing
    obtain ⟨c, hc, hlistener⟩ := h.enqueueing fd port rest henqueueing
    have hmain : s.main = .enqueueing fd port rest := henqueueing
    have hfd : fd ≠ task.fd :=
      (hmarked.main_unique fd (by rw [hmain]; rfl) id task htask).symm
    exact ⟨c, (hconn fd hfd).trans hc, hlistener⟩

theorem Attached.mapErase (h : Attached P s) {id : ℕ} {task : Task}
    (htask : s.tasks id = some task) :
    Attached P ({ s with clientMapPort := Function.update s.clientMapPort task.fd none }.setPc id
      task .releasing) where
  fresh other t ht := by
    rcases State.tasks_setPc ht with ⟨rfl, -⟩ | ⟨-, ht⟩
    · exact h.fresh other task htask
    · exact h.fresh other t ht
  task other t ht hattached := by
    rcases State.tasks_setPc ht with ⟨-, rfl⟩ | ⟨-, ht⟩
    · exact absurd hattached (by simp [TaskPc.attached])
    · exact h.task other t ht hattached
  entry fd port hport hentering := by
    have hfd : fd ≠ task.fd := by
      rintro rfl
      simp [State.setPc] at hport
    have hold : s.clientMapPort fd = some port := by
      simpa [State.setPc, Function.update_of_ne hfd] using hport
    rcases h.entry fd port hold hentering with hconn | ⟨other, t, ht, hpc, hfd'⟩
    · exact Or.inl hconn
    · have hid : other ≠ id := by
        rintro rfl
        exact hfd (hfd'.symm.trans (congrArg Task.fd (Option.some.inj (ht.symm.trans htask))))
      exact Or.inr ⟨other, t, (State.tasks_setPc_of_ne hid).trans ht, hpc, hfd'⟩
  entering fd listener rest haccepted := by
    obtain ⟨hconn, hnobody⟩ := h.entering fd listener rest haccepted
    refine ⟨hconn, ?_⟩
    intro other t ht hattached
    rcases State.tasks_setPc ht with ⟨-, rfl⟩ | ⟨-, ht⟩
    · exact absurd hattached (by simp [TaskPc.attached])
    · exact hnobody other t ht hattached
  enqueueing := h.enqueueing

theorem Attached.release (h : Attached P s) {id : ℕ} {task : Task}
    (htask : s.tasks id = some task) (hpc : task.pc = .releasing) :
    Attached P { s with
      tasks := Function.update s.tasks id none
      workingFds := Function.update s.workingFds task.fd false } := by
  refine h.frame (keepsConns_of_conns_eq rfl)
    ⟨rfl, fun other t ht => ?_, fun other t ht hunmapping => ?_⟩ rfl (Or.inl rfl)
  · have hid : other ≠ id := by
      rintro rfl
      simp at ht
    exact ⟨t, by simpa [Function.update_of_ne hid] using ht, rfl, rfl, fun h => h⟩
  · have hid : other ≠ id := by
      rintro rfl
      rw [Option.some.inj (htask.symm.trans ht)] at hpc
      exact absurd (hpc.symm.trans hunmapping) (by simp)
    simpa [Function.update_of_ne hid] using ht

/-! ## All steps -/

theorem Attached.step {a : Action} (hstep : Step P s a next) (hmarked : Marked s)
    (h : Attached P s) : Attached P next := by
  cases hstep with
  -- a connection comes, and its port goes the way to the task
  | accept hmain _ hunused => exact h.accept hmain hunused
  | mapInsert hmain => exact h.mapInsert hmain
  | @ctlAdd fd _ ok hmain =>
      exact h.frame (keepsConns_setRegistered s fd ok) (keepsTasks_of_tasks_eq rfl rfl) rfl
        (Or.inr ⟨by rw [hmain]; rfl, rfl, by simp⟩)
  | findPortAgain hmain hport => exact h.findPortAgain hmarked hmain hport
  | enqueue hmain => exact h.enqueue hmain
  -- the main thread does something else
  | epollWait hmain _ | acceptNone hmain | check hmain | findPortMissing hmain _
  | findPortSkip hmain _ | findPort hmain _ | eraseStale hmain | findPortGone hmain _ =>
      exact h.frame (keepsConns_of_conns_eq rfl) (keepsTasks_of_tasks_eq rfl rfl) rfl
        (Or.inr ⟨by rw [hmain]; rfl, rfl, by simp⟩)
  -- a task works on its connection
  | begin htask hpc | freeSsl htask hpc =>
      exact h.frame (keepsConns_of_conns_eq rfl)
        (keepsTasks_setPc rfl rfl htask (by simp [hpc]) fun _ => by rw [hpc]; rfl) rfl (Or.inl rfl)
  | @handle id task outcome unread htask hpc _ =>
      exact h.frame (keepsConns_setSocket s task.fd fun socket => { socket with unread := unread })
        (keepsTasks_setPc (by rfl) (by rfl) htask (by simp [hpc]) fun _ => by rw [hpc]; rfl) rfl
        (Or.inl rfl)
  | @ctlDel id task htask hpc =>
      exact h.frame (keepsConns_setRegistered s task.fd false)
        (keepsTasks_setPc (by rfl) (by rfl) htask (by simp [hpc]) fun _ => by rw [hpc]; rfl) rfl
        (Or.inl rfl)
  -- and leaves it
  | close htask hpc => exact h.close hmarked htask hpc
  | mapErase htask _ => exact h.mapErase htask
  | release htask hpc => exact h.release htask hpc
  -- the peers
  | @arrive fd _ | @hangup fd =>
      exact h.frame (keepsConns_setSocket s fd _) (keepsTasks_of_tasks_eq rfl rfl) rfl (Or.inl rfl)

end

end Sok.EpollWorker
