import Sok.Epoll.Listen
import Sok.Foundation.Transition
import Sok.Socket

/-!
# The event loop of a child process

`epoll_worker` as a transition system.  The parties are the main thread, which waits
for events and works through the batch one event at a time, the tasks in the
thread pool, and the peers.  The atomic steps are the system calls, the
mutex-protected blocks on `working_fds` and `client_map_port`, the enqueue, and
the call of the handler; between any two of them any other party may move.

The kernel may hand out any number that is not in use, in particular one that
was just closed.  A connection carries a serial number, so that a later
connection with the same fd number can be told apart from it.

What the handler does with the bytes of the socket and what it returns is a
choice of the label here: the results about the event loop hold for any handler.
-/

namespace Sok.EpollWorker

/-! ## State -/

/-- The kernel's side of an accepted connection. -/
structure Conn where
  serial : ℕ
  /-- The listening socket it was accepted on. -/
  listener : Fd
  socket : Socket
  /-- It is in the interest list of epoll. -/
  registered : Bool
  deriving DecidableEq

/-- Where a task of the pool is. -/
inductive TaskPc
  | queued
  | running  -- inside `handle_connection`
  | freeing  -- `!keep_alive` or an exception: about to clean up `ssl_map`
  | unregistering  -- about to call `EPOLL_CTL_DEL`
  | closing  -- about to call `close`
  | unmapping  -- about to erase from `client_map_port`
  | releasing  -- about to erase from `working_fds`, the last step
  deriving DecidableEq, Repr

/-- A task that has not reached its final `working_fds.erase`. -/
structure Task where
  fd : Fd
  port : Port
  pc : TaskPc
  deriving DecidableEq, Repr

/-- Where the main thread is; `rest` is the part of the batch behind the event at hand. -/
inductive MainPc
  /-- Between events. -/
  | events (batch : List Fd)
  /-- `accept` has returned `fd`; the entry in `client_map_port` comes next. -/
  | accepted (fd listener : Fd) (rest : List Fd)
  /-- The entry is made; `EPOLL_CTL_ADD` comes next. -/
  | mapped (fd : Fd) (rest : List Fd)
  /-- The block on `working_fds` is done. -/
  | checked (fd : Fd) (skip : Bool) (rest : List Fd)
  /-- `client_map_port` has no entry: about to erase from `working_fds`, with the
  mutex of the map held. -/
  | stale (fd : Fd) (skip : Bool) (rest : List Fd)
  /-- Not skipped: the port is looked up again. -/
  | looking (fd : Fd) (rest : List Fd)
  /-- About to enqueue. -/
  | enqueueing (fd : Fd) (port : Port) (rest : List Fd)
  deriving DecidableEq, Repr

/-- The main thread holds the mutex of `client_map_port` between two steps. -/
def MainPc.holdsMap : MainPc → Bool
  | .stale _ _ _ => true
  | _ => false

structure State where
  conns : Fd → Option Conn
  clientMapPort : Fd → Option Port
  workingFds : Fd → Bool
  /-- The tasks, by the number of their enqueue. -/
  tasks : ℕ → Option Task
  nextTask : ℕ
  nextSerial : ℕ
  main : MainPc

/-- The state in which `epoll_worker` starts. -/
def start : State where
  conns _ := none
  clientMapPort _ := none
  workingFds _ := false
  tasks _ := none
  nextTask := 0
  nextSerial := 0
  main := .events []

/-! ## Steps -/

/-- What a call of the handler comes to. -/
inductive HandlerResult
  | keepAlive
  | drop
  | throws
  deriving DecidableEq, Repr

inductive Action
  | epollWait (batch : List Fd)
  | accept (result : Option Fd)
  | mapInsert
  | ctlAdd (ok : Bool)
  | check
  | findPort
  | eraseStale
  | findPortAgain
  | enqueue
  | begin (task : ℕ)
  | handle (task : ℕ) (result : HandlerResult) (unread : Bytes)
  | freeSsl (task : ℕ)
  | ctlDel (task : ℕ)
  | close (task : ℕ)
  | mapErase (task : ℕ)
  | release (task : ℕ)
  | arrive (fd : Fd) (bytes : Bytes)
  | hangup (fd : Fd)
  deriving DecidableEq, Repr

/-- What `epoll_worker` is called with. -/
structure Params where
  epollFd : Fd
  listening : Listening

namespace Params

/-- A readable fd in the interest list: a listening socket, or a client. -/
def Ready (P : Params) (s : State) (fd : Fd) : Prop :=
  fd ∈ P.listening.serverFds ∨
    ∃ c ∈ s.conns fd, c.registered = true ∧ c.socket.Readable

instance (P : Params) (s : State) (fd : Fd) : Decidable (P.Ready s fd) :=
  inferInstanceAs (Decidable (_ ∨ _))

/-- A number the kernel may hand out. -/
def Unused (P : Params) (s : State) (fd : Fd) : Prop :=
  s.conns fd = none ∧ fd ∉ P.listening.serverFds ∧ fd ≠ P.epollFd

instance (P : Params) (s : State) (fd : Fd) : Decidable (P.Unused s fd) :=
  inferInstanceAs (Decidable (_ ∧ _))

end Params

namespace State

/-- Replace the socket of a connection that is open. -/
def setSocket (s : State) (fd : Fd) (f : Socket → Socket) : State :=
  { s with conns := fun other =>
      if other = fd then (s.conns fd).map fun c => { c with socket := f c.socket }
      else s.conns other }

/-- `epoll_ctl` on a connection that is open. -/
def setRegistered (s : State) (fd : Fd) (registered : Bool) : State :=
  { s with conns := fun other =>
      if other = fd then (s.conns fd).map fun c => { c with registered := registered }
      else s.conns other }

/-- Move a task on. -/
def setPc (s : State) (id : ℕ) (task : Task) (pc : TaskPc) : State :=
  { s with tasks := Function.update s.tasks id (some { task with pc := pc }) }

section

variable {s : State} {fd other : Fd} {c : Conn} {id : ℕ} {task : Task} {pc : TaskPc}

theorem conns_setSocket_self {f : Socket → Socket} (hc : s.conns fd = some c) :
    (s.setSocket fd f).conns fd = some { c with socket := f c.socket } := by
  simp [setSocket, hc]

theorem conns_setSocket_of_ne {f : Socket → Socket} (h : other ≠ fd) :
    (s.setSocket fd f).conns other = s.conns other :=
  if_neg h

theorem conns_setRegistered_self {registered : Bool} (hc : s.conns fd = some c) :
    (s.setRegistered fd registered).conns fd = some { c with registered := registered } := by
  simp [setRegistered, hc]

theorem conns_setRegistered_of_ne {registered : Bool} (h : other ≠ fd) :
    (s.setRegistered fd registered).conns other = s.conns other :=
  if_neg h

/-- Of an open connection only the socket is replaced. -/
theorem exists_conn_setSocket (f : Socket → Socket) (hc : s.conns other = some c) :
    ∃ d, (s.setSocket fd f).conns other = some d ∧ d.serial = c.serial ∧
      d.listener = c.listener := by
  by_cases hfd : other = fd
  · subst hfd
    exact ⟨_, conns_setSocket_self hc, rfl, rfl⟩
  · exact ⟨c, (conns_setSocket_of_ne hfd).trans hc, rfl, rfl⟩

theorem exists_conn_setRegistered (registered : Bool) (hc : s.conns other = some c) :
    ∃ d, (s.setRegistered fd registered).conns other = some d ∧ d.serial = c.serial ∧
      d.listener = c.listener ∧ d.socket = c.socket := by
  by_cases hfd : other = fd
  · subst hfd
    exact ⟨_, conns_setRegistered_self hc, rfl, rfl, rfl⟩
  · exact ⟨c, (conns_setRegistered_of_ne hfd).trans hc, rfl, rfl, rfl⟩

theorem tasks_setPc_self : (s.setPc id task pc).tasks id = some { task with pc := pc } :=
  Function.update_self _ _ _

theorem tasks_setPc_of_ne {other : ℕ} (h : other ≠ id) :
    (s.setPc id task pc).tasks other = s.tasks other :=
  Function.update_of_ne h _ _

theorem tasks_setPc {other : ℕ} {t : Task} (ht : (s.setPc id task pc).tasks other = some t) :
    (other = id ∧ t = { task with pc := pc }) ∨ (other ≠ id ∧ s.tasks other = some t) := by
  by_cases hid : other = id
  · subst hid
    rw [tasks_setPc_self] at ht
    exact Or.inl ⟨rfl, (Option.some.inj ht).symm⟩
  · rw [tasks_setPc_of_ne hid] at ht
    exact Or.inr ⟨hid, ht⟩

end

end State

/-- Where a task goes after the handler: a connection kept alive is only released;
the three copies of the cleanup are one. -/
def HandlerResult.next : HandlerResult → TaskPc
  | .keepAlive => .releasing
  | .drop => .freeing
  | .throws => .freeing

/-- A step of the task `id`, which has to be at `pc`. -/
def State.onTask (s : State) (id : ℕ) (pc : TaskPc) (f : Task → Option State) : Option State :=
  match s.tasks id with
  | some task => if task.pc = pc then f task else none
  | none => none

/-- A step of the main thread, the tasks or the peers; `none` when it is not enabled. -/
def next (P : Params) (s : State) : Action → Option State
  -- the main thread
  | .epollWait batch =>
      if s.main = .events [] ∧ batch.Nodup ∧ ∀ fd ∈ batch, P.Ready s fd then
        some { s with main := .events batch }
      else none
  | .accept result =>
      match s.main, result with
      | .events (fd :: rest), none =>
          if fd ∈ P.listening.serverFds then some { s with main := .events rest } else none
      | .events (fd :: rest), some new =>
          if fd ∈ P.listening.serverFds ∧ P.Unused s new then
            some { s with
              conns := Function.update s.conns new (some ⟨s.nextSerial, fd, ⟨[], false⟩, false⟩)
              nextSerial := s.nextSerial + 1
              main := .accepted new fd rest }
          else none
      | _, _ => none
  | .mapInsert =>
      match s.main with
      | .accepted fd listener rest =>
          some { s with
            clientMapPort :=
              Function.update s.clientMapPort fd (some (P.listening.registry.getPort listener))
            main := .mapped fd rest }
      | _ => none
  | .ctlAdd ok =>
      match s.main with
      | .mapped fd rest => some { s.setRegistered fd ok with main := .events rest }
      | _ => none
  | .check =>
      match s.main with
      | .events (fd :: rest) =>
          if fd ∈ P.listening.serverFds then none
          else some { s with
            workingFds := Function.update s.workingFds fd true
            main := .checked fd (s.workingFds fd) rest }
      | _ => none
  | .findPort =>
      match s.main with
      | .checked fd skip rest =>
          if s.clientMapPort fd = none then some { s with main := .stale fd skip rest }
          else if skip then some { s with main := .events rest }
          else some { s with main := .looking fd rest }
      | _ => none
  | .eraseStale =>
      match s.main with
      | .stale fd _ rest =>
          some { s with
            workingFds := Function.update s.workingFds fd false
            main := .events rest }
      | _ => none
  | .findPortAgain =>
      match s.main with
      | .looking fd rest =>
          match s.clientMapPort fd with
          | some port => some { s with main := .enqueueing fd port rest }
          | none => some { s with main := .stale fd false rest }
      | _ => none
  | .enqueue =>
      match s.main with
      | .enqueueing fd port rest =>
          some { s with
            tasks := Function.update s.tasks s.nextTask (some ⟨fd, port, .queued⟩)
            nextTask := s.nextTask + 1
            main := .events rest }
      | _ => none
  -- the tasks
  | .begin id => s.onTask id .queued fun task => some (s.setPc id task .running)
  | .handle id result unread =>
      s.onTask id .running fun task =>
        if ∀ c ∈ s.conns task.fd, unread <:+ c.socket.unread then
          some ((s.setSocket task.fd fun socket => { socket with unread := unread }).setPc id task
            result.next)
        else none
  | .freeSsl id => s.onTask id .freeing fun task => some (s.setPc id task .unregistering)
  | .ctlDel id =>
      s.onTask id .unregistering fun task =>
        some ((s.setRegistered task.fd false).setPc id task .closing)
  | .close id =>
      s.onTask id .closing fun task =>
        some ({ s with conns := Function.update s.conns task.fd none }.setPc id task .unmapping)
  | .mapErase id =>
      s.onTask id .unmapping fun task =>
        -- the main thread holds the mutex of the map in `stale`
        if s.main.holdsMap then none
        else some ({ s with clientMapPort := Function.update s.clientMapPort task.fd none }.setPc
          id task .releasing)
  | .release id =>
      s.onTask id .releasing fun task =>
        some { s with
          tasks := Function.update s.tasks id none
          workingFds := Function.update s.workingFds task.fd false }
  -- the peers
  | .arrive fd bytes =>
      some (s.setSocket fd fun socket => { socket with unread := socket.unread ++ bytes })
  | .hangup fd => some (s.setSocket fd fun socket => { socket with ended := true })

/-- The event loop of one child process. -/
def system (P : Params) : Transition.System State Action where
  init s := s = start
  step := next P

/-! ## What a step can do -/

/-- The enabled steps, one constructor for each branch of `next`. -/
inductive Step (P : Params) (s : State) : Action → State → Prop
  | epollWait {batch : List Fd} (hmain : s.main = .events [])
      (hready : ∀ fd ∈ batch, P.Ready s fd) :
      Step P s (.epollWait batch) { s with main := .events batch }
  | acceptNone {fd : Fd} {rest : List Fd} (hmain : s.main = .events (fd :: rest))
      (hserver : fd ∈ P.listening.serverFds) :
      Step P s (.accept none) { s with main := .events rest }
  | accept {fd new : Fd} {rest : List Fd} (hmain : s.main = .events (fd :: rest))
      (hserver : fd ∈ P.listening.serverFds) (hunused : P.Unused s new) :
      Step P s (.accept (some new))
        { s with
          conns := Function.update s.conns new (some ⟨s.nextSerial, fd, ⟨[], false⟩, false⟩)
          nextSerial := s.nextSerial + 1
          main := .accepted new fd rest }
  | mapInsert {fd listener : Fd} {rest : List Fd} (hmain : s.main = .accepted fd listener rest) :
      Step P s .mapInsert
        { s with
          clientMapPort :=
            Function.update s.clientMapPort fd (some (P.listening.registry.getPort listener))
          main := .mapped fd rest }
  | ctlAdd {fd : Fd} {rest : List Fd} {ok : Bool} (hmain : s.main = .mapped fd rest) :
      Step P s (.ctlAdd ok) { s.setRegistered fd ok with main := .events rest }
  | check {fd : Fd} {rest : List Fd} (hmain : s.main = .events (fd :: rest)) :
      Step P s .check
        { s with
          workingFds := Function.update s.workingFds fd true
          main := .checked fd (s.workingFds fd) rest }
  | findPortMissing {fd : Fd} {skip : Bool} {rest : List Fd}
      (hmain : s.main = .checked fd skip rest) (hport : s.clientMapPort fd = none) :
      Step P s .findPort { s with main := .stale fd skip rest }
  | findPortSkip {fd : Fd} {rest : List Fd} (hmain : s.main = .checked fd true rest)
      (hport : s.clientMapPort fd ≠ none) :
      Step P s .findPort { s with main := .events rest }
  | findPort {fd : Fd} {rest : List Fd} (hmain : s.main = .checked fd false rest)
      (hport : s.clientMapPort fd ≠ none) :
      Step P s .findPort { s with main := .looking fd rest }
  | eraseStale {fd : Fd} {skip : Bool} {rest : List Fd} (hmain : s.main = .stale fd skip rest) :
      Step P s .eraseStale
        { s with workingFds := Function.update s.workingFds fd false, main := .events rest }
  | findPortAgain {fd : Fd} {port : Port} {rest : List Fd} (hmain : s.main = .looking fd rest)
      (hport : s.clientMapPort fd = some port) :
      Step P s .findPortAgain { s with main := .enqueueing fd port rest }
  | findPortGone {fd : Fd} {rest : List Fd} (hmain : s.main = .looking fd rest)
      (hport : s.clientMapPort fd = none) :
      Step P s .findPortAgain { s with main := .stale fd false rest }
  | enqueue {fd : Fd} {port : Port} {rest : List Fd} (hmain : s.main = .enqueueing fd port rest) :
      Step P s .enqueue
        { s with
          tasks := Function.update s.tasks s.nextTask (some ⟨fd, port, .queued⟩)
          nextTask := s.nextTask + 1
          main := .events rest }
  | begin {id : ℕ} {task : Task} (htask : s.tasks id = some task) (hpc : task.pc = .queued) :
      Step P s (.begin id) (s.setPc id task .running)
  | handle {id : ℕ} {task : Task} {result : HandlerResult} {unread : Bytes}
      (htask : s.tasks id = some task) (hpc : task.pc = .running)
      (hread : ∀ c ∈ s.conns task.fd, unread <:+ c.socket.unread) :
      Step P s (.handle id result unread)
        ((s.setSocket task.fd fun socket => { socket with unread := unread }).setPc id task
          result.next)
  | freeSsl {id : ℕ} {task : Task} (htask : s.tasks id = some task) (hpc : task.pc = .freeing) :
      Step P s (.freeSsl id) (s.setPc id task .unregistering)
  | ctlDel {id : ℕ} {task : Task} (htask : s.tasks id = some task)
      (hpc : task.pc = .unregistering) :
      Step P s (.ctlDel id) ((s.setRegistered task.fd false).setPc id task .closing)
  | close {id : ℕ} {task : Task} (htask : s.tasks id = some task) (hpc : task.pc = .closing) :
      Step P s (.close id)
        ({ s with conns := Function.update s.conns task.fd none }.setPc id task .unmapping)
  | mapErase {id : ℕ} {task : Task} (htask : s.tasks id = some task) (hpc : task.pc = .unmapping) :
      Step P s (.mapErase id)
        ({ s with clientMapPort := Function.update s.clientMapPort task.fd none }.setPc id task
          .releasing)
  | release {id : ℕ} {task : Task} (htask : s.tasks id = some task) (hpc : task.pc = .releasing) :
      Step P s (.release id)
        { s with
          tasks := Function.update s.tasks id none
          workingFds := Function.update s.workingFds task.fd false }
  | arrive {fd : Fd} {bytes : Bytes} :
      Step P s (.arrive fd bytes)
        (s.setSocket fd fun socket => { socket with unread := socket.unread ++ bytes })
  | hangup {fd : Fd} :
      Step P s (.hangup fd) (s.setSocket fd fun socket => { socket with ended := true })

theorem onTask_eq_some {s result : State} {id : ℕ} {pc : TaskPc} {f : Task → Option State}
    (h : s.onTask id pc f = some result) :
    ∃ task, s.tasks id = some task ∧ task.pc = pc ∧ f task = some result := by
  unfold State.onTask at h
  split at h
  · rename_i task htask
    split at h
    · exact ⟨task, htask, ‹_›, h⟩
    · exact absurd h (by simp)
  · exact absurd h (by simp)

theorem step_of_next {P : Params} {s result : State} {a : Action} (h : next P s a = some result) :
    Step P s a result := by
  cases a with
  | epollWait batch =>
      simp only [next, Option.ite_none_right_eq_some] at h
      obtain ⟨⟨hmain, -, hready⟩, heq⟩ := h
      exact Option.some.inj heq ▸ .epollWait hmain hready
  | accept got =>
      simp only [next] at h
      split at h
      · rename_i hmain
        obtain ⟨hserver, heq⟩ := Option.ite_none_right_eq_some.mp h
        exact Option.some.inj heq ▸ .acceptNone hmain hserver
      · rename_i hmain
        obtain ⟨⟨hserver, hunused⟩, heq⟩ := Option.ite_none_right_eq_some.mp h
        exact Option.some.inj heq ▸ .accept hmain hserver hunused
      · exact absurd h (by simp)
  | mapInsert =>
      simp only [next] at h
      split at h
      · rename_i hmain
        exact Option.some.inj h ▸ .mapInsert hmain
      · exact absurd h (by simp)
  | ctlAdd ok =>
      simp only [next] at h
      split at h
      · rename_i hmain
        exact Option.some.inj h ▸ .ctlAdd hmain
      · exact absurd h (by simp)
  | check =>
      simp only [next] at h
      split at h
      · rename_i hmain
        obtain ⟨-, heq⟩ := Option.ite_none_left_eq_some.mp h
        exact Option.some.inj heq ▸ .check hmain
      · exact absurd h (by simp)
  | findPort =>
      simp only [next] at h
      split at h
      · rename_i skip rest hmain
        split at h
        · exact Option.some.inj h ▸ .findPortMissing hmain ‹_›
        · cases skip with
          | true => exact Option.some.inj h ▸ .findPortSkip hmain ‹_›
          | false => exact Option.some.inj h ▸ .findPort hmain ‹_›
      · exact absurd h (by simp)
  | eraseStale =>
      simp only [next] at h
      split at h
      · rename_i hmain
        exact Option.some.inj h ▸ .eraseStale hmain
      · exact absurd h (by simp)
  | findPortAgain =>
      simp only [next] at h
      split at h
      · rename_i hmain
        split at h
        · exact Option.some.inj h ▸ .findPortAgain hmain ‹_›
        · exact Option.some.inj h ▸ .findPortGone hmain ‹_›
      · exact absurd h (by simp)
  | enqueue =>
      simp only [next] at h
      split at h
      · rename_i hmain
        exact Option.some.inj h ▸ .enqueue hmain
      · exact absurd h (by simp)
  | begin id =>
      obtain ⟨task, htask, hpc, heq⟩ := onTask_eq_some h
      exact Option.some.inj heq ▸ .begin htask hpc
  | handle id outcome unread =>
      obtain ⟨task, htask, hpc, heq⟩ := onTask_eq_some h
      obtain ⟨hread, heq⟩ := Option.ite_none_right_eq_some.mp heq
      exact Option.some.inj heq ▸ .handle htask hpc hread
  | freeSsl id =>
      obtain ⟨task, htask, hpc, heq⟩ := onTask_eq_some h
      exact Option.some.inj heq ▸ .freeSsl htask hpc
  | ctlDel id =>
      obtain ⟨task, htask, hpc, heq⟩ := onTask_eq_some h
      exact Option.some.inj heq ▸ .ctlDel htask hpc
  | close id =>
      obtain ⟨task, htask, hpc, heq⟩ := onTask_eq_some h
      exact Option.some.inj heq ▸ .close htask hpc
  | mapErase id =>
      obtain ⟨task, htask, hpc, heq⟩ := onTask_eq_some h
      obtain ⟨-, heq⟩ := Option.ite_none_left_eq_some.mp heq
      exact Option.some.inj heq ▸ .mapErase htask hpc
  | release id =>
      obtain ⟨task, htask, hpc, heq⟩ := onTask_eq_some h
      exact Option.some.inj heq ▸ .release htask hpc
  | arrive fd bytes => exact Option.some.inj h ▸ .arrive
  | hangup fd => exact Option.some.inj h ▸ .hangup

/-! ## Numbers that are not in use -/

theorem conns_none_step {P : Params} {s result : State} {a : Action} {fd : Fd}
    (hstep : Step P s a result) (hfree : s.conns fd = none) (ha : a ≠ .accept (some fd)) :
    result.conns fd = none := by
  have hsocket : ∀ other f, (s.setSocket other f).conns fd = none := by
    intro other f
    by_cases hfd : fd = other
    · subst hfd
      simp [State.setSocket, hfree]
    · simp [State.setSocket, hfd, hfree]
  have hregistered : ∀ other registered, (s.setRegistered other registered).conns fd = none := by
    intro other registered
    by_cases hfd : fd = other
    · subst hfd
      simp [State.setRegistered, hfree]
    · simp [State.setRegistered, hfd, hfree]
  cases hstep with
  | @accept _ new _ _ _ _ =>
      have hne : fd ≠ new := fun heq => ha (by rw [heq])
      exact (Function.update_of_ne hne _ _).trans hfree
  | ctlAdd _ => exact hregistered _ _
  | @handle _ task _ unread _ _ _ =>
      exact hsocket task.fd fun socket => { socket with unread := unread }
  | @ctlDel _ task _ _ => exact hregistered task.fd false
  | @close _ task _ _ =>
      by_cases hfd : fd = task.fd
      · simp [State.setPc, hfd]
      · simpa [State.setPc, Function.update_of_ne hfd] using hfree
  | arrive => exact hsocket _ _
  | hangup => exact hsocket _ _
  | _ => exact hfree

theorem conns_none_exec {P : Params} {labels : List Action} {s final : State} {fd : Fd}
    (hexec : (system P).exec s labels = some final) (hfree : s.conns fd = none)
    (hlabels : .accept (some fd) ∉ labels) : final.conns fd = none := by
  induction labels generalizing s with
  | nil =>
      cases hexec
      exact hfree
  | cons a labels ih =>
      obtain ⟨hne, hrest⟩ := not_or.mp (List.mem_cons.not.mp hlabels)
      obtain ⟨middle, hmiddle, hexec⟩ := Option.bind_eq_some_iff.mp hexec
      exact ih hexec (conns_none_step (step_of_next hmiddle) hfree (Ne.symm hne)) hrest

/-! ## Runs on one site -/

/-- One site on port 8080; epoll has fd 3 and the listening socket fd 4. -/
def oneSite : Params where
  epollFd := 3
  listening := setupLoop [⟨8080, 4, true⟩]

/-- The main thread accepts a connection as `fd`. -/
def acceptAs (fd : Fd) : List Action :=
  [.epollWait [4], .accept (some fd), .mapInsert, .ctlAdd true]

/-- The main thread takes a readable client up to the enqueue. -/
def enqueueFor (fd : Fd) : List Action :=
  [.epollWait [fd], .check, .findPort, .findPortAgain, .enqueue]

end Sok.EpollWorker
