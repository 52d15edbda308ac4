import Sok.Dispatch
import Sok.Epoll.Model

/-!
# SSL objects

`handle_connection` step by step inside the event loop, as far as it concerns the
SSL objects: `dispatch_protocol`, the calls of `handle_https` on the object of its fd,
and the cleanup of the worker.  A step is one call on an object, or one block under
`ssl_map_mtx`; between any two of them any other party may move.

`handle_https` erases the entry of its fd without taking the mutex.  What another
access to `ssl_map` during such an erase does is undefined; here it leaves any map
behind (`collide`).

What is done to an object is recorded with it: the calls of `SSL_free`, and whether it
was used or looked up after the first of them.
-/

namespace Sok.Tls

open EpollWorker (Conn HandlerResult Params Task)

/-! ## State -/

/-- An SSL object. -/
structure Object where
  /-- The connection it was made for. -/
  serial : ℕ
  /-- The number of calls of `SSL_free`. -/
  freed : ℕ
  /-- It was used, or found in `ssl_map`, after it had been freed. -/
  stale : Bool
  deriving DecidableEq

namespace Object

/-- Pass it to a call, or find it in `ssl_map`. -/
def use (object : Object) : Object :=
  { object with stale := object.stale || object.freed != 0 }

/-- `SSL_shutdown` and `SSL_free`. -/
def free (object : Object) : Object :=
  { object.use with freed := object.freed + 1 }

end Object

/-- Where a call of `handle_connection` is; an object is named by the number of its
`SSL_new`. -/
inductive CallPc
  | dispatching  -- before the peek of `dispatch_protocol`
  | plain  -- in `handle_http`
  | looking  -- in `handle_https`, before the block on `ssl_map`
  | accepting (ssl : ℕ)
  | reading (ssl : ℕ) (request : Bytes)
  | answering (ssl : ℕ)  -- the request is read: sending a response
  | dropping (ssl : ℕ)  -- before `SSL_shutdown` and `SSL_free`
  | erasing (ssl : ℕ)  -- in `ssl_map.erase`, without the mutex
  | returned (result : HandlerResult)
  deriving DecidableEq

structure State where
  loop : EpollWorker.State
  sslMap : Fd → Option ℕ
  objects : ℕ → Option Object
  nextObject : ℕ
  /-- The calls of `handle_connection`, by the number of their task. -/
  calls : ℕ → Option CallPc

/-- The state in which `epoll_worker` starts. -/
def start : State where
  loop := EpollWorker.start
  sslMap _ := none
  objects _ := none
  nextObject := 0
  calls _ := none

namespace State

/-- Move a call on. -/
def setCall (s : State) (id : ℕ) (pc : CallPc) : State :=
  { s with calls := Function.update s.calls id (some pc) }

/-- A call on an object, or a lookup that finds it. -/
def use (s : State) (ssl : ℕ) : State :=
  { s with objects := Function.update s.objects ssl ((s.objects ssl).map Object.use) }

/-- `SSL_shutdown(ssl)` and `SSL_free(ssl)`. -/
def free (s : State) (ssl : ℕ) : State :=
  { s with objects := Function.update s.objects ssl ((s.objects ssl).map Object.free) }

/-- `SSL_new` and `SSL_set_fd`. -/
def create (s : State) (serial : ℕ) : State :=
  { s with
    objects := Function.update s.objects s.nextObject (some ⟨serial, 0, false⟩)
    nextObject := s.nextObject + 1 }

/-- `ssl_map[fd] = ssl`. -/
def insert (s : State) (fd : Fd) (ssl : ℕ) : State :=
  { s with sslMap := Function.update s.sslMap fd (some ssl) }

/-- `ssl_map.erase(fd)`. -/
def erase (s : State) (fd : Fd) : State :=
  { s with sslMap := Function.update s.sslMap fd none }

/-- The cleanup of the worker: it frees the object of the fd, if there is one. -/
def cleanUp (s : State) (fd : Fd) : State :=
  match s.sslMap fd with
  | some ssl => (s.free ssl).erase fd
  | none => s

/-- The connection of the fd, if its first byte begins a handshake. -/
def hello (s : State) (fd : Fd) : Option Conn :=
  (s.loop.conns fd).filter fun c => c.socket.unread.head? == some 0x16

end State

/-! ## Steps of a call -/

/-- What the calls inside `handle_connection` come to. -/
inductive Event
  /-- The peek, and whether `SiteInfo(port)` finds a site. -/
  | dispatch (siteFound : Bool)
  /-- `handle_http` returns, or something leaves it. -/
  | plain (result : HandlerResult)
  /-- The block on `ssl_map`. -/
  | lookup
  /-- The block on `ssl_map`, where `ssl_map[client_fd] = ssl` throws. -/
  | insertFails
  | accept (result : HttpsUtil.AcceptResult)
  | read (result : SslReadResult)
  | write
  /-- The response is sent; `keepAlive` also tells that the pipe is not broken. -/
  | answered (keepAlive : Bool)
  /-- An exception; `escapes` when a `catch` block of the handlers throws in turn. -/
  | throws (escapes : Bool)
  | free
  | erased
  deriving DecidableEq

/-- Where `dispatch_protocol` goes with what it has peeked. -/
def dispatchTo (peeked : Option Bytes) (siteFound : Bool) : CallPc :=
  match peeked with
  | none => .returned .drop
  | some data =>
      match detect data with
      | .https => if siteFound then .looking else .returned .drop
      | .http => if siteFound then .plain else .returned .drop
      | .unsupported => .returned .drop

/-- Where `handle_https` goes with what `SSL_accept` returns. -/
def acceptTo (ssl : ℕ) : HttpsUtil.AcceptResult → CallPc
  | .done => .reading ssl []
  | .want => .returned .keepAlive
  -- the object is left to the worker
  | .error => .returned .drop

/-- Where `handle_https` goes with what `SSL_read` returns. -/
def readTo (ssl : ℕ) (request : Bytes) : SslReadResult → CallPc
  | .data block =>
      if headerEnd <:+: request ++ block.bytes then .answering ssl
      else .reading ssl (request ++ block.bytes)
  | .stop .closed => .dropping ssl
  | .stop .want => .returned .keepAlive
  | .stop .error => .answering ssl

/-- What an exception ends a call with. -/
def thrown (escapes : Bool) : HandlerResult :=
  if escapes then .throws else .drop

namespace CallPc

/-- A `try` block of the handlers is open, and code in it may throw. -/
def mayThrow : CallPc → Bool
  | dispatching => true
  | looking => true
  | accepting _ => true
  | reading _ _ => true
  | answering _ => true
  | _ => false

/-- It is inside `ssl_map.erase`. -/
def erases : CallPc → Bool
  | erasing _ => true
  | _ => false

end CallPc

/-- A step of the call of the task `id`; `none` when it is not at a point for it. -/
def callStep (s : State) (id : ℕ) (task : Task) (pc : CallPc) (event : Event) : Option State :=
  match pc, event with
  | .dispatching, .dispatch siteFound =>
      let peeked := (s.loop.conns task.fd).bind fun c => c.socket.peek
      some (s.setCall id (dispatchTo peeked siteFound))
  | .plain, .plain result => some (s.setCall id (.returned result))
  | .looking, .lookup =>
      match s.sslMap task.fd with
      | some ssl => some ((s.use ssl).setCall id (.accepting ssl))
      | none =>
          match s.hello task.fd with
          | none => some (s.setCall id (.returned .drop))
          | some c =>
              some (((s.create c.serial).insert task.fd s.nextObject).setCall id
                (.accepting s.nextObject))
  | .looking, .insertFails =>
      match s.sslMap task.fd, s.hello task.fd with
      -- the object is neither in the map nor freed
      | none, some c => some ((s.create c.serial).setCall id (.returned .drop))
      | _, _ => none
  | .accepting ssl, .accept result => some ((s.use ssl).setCall id (acceptTo ssl result))
  | .reading ssl request, .read result => some ((s.use ssl).setCall id (readTo ssl request result))
  | .answering ssl, .write => some ((s.use ssl).setCall id (.answering ssl))
  | .answering ssl, .answered keepAlive =>
      some (s.setCall id (if keepAlive then .returned .keepAlive else .dropping ssl))
  | .dropping ssl, .free => some ((s.free ssl).setCall id (.erasing ssl))
  | .erasing _, .erased => some ((s.erase task.fd).setCall id (.returned .drop))
  | pc, .throws escapes =>
      if pc.mayThrow then some (s.setCall id (.returned (thrown escapes))) else none
  | _, _ => none

/-! ## Steps -/

inductive Action
  /-- A step of the event loop. -/
  | loop (a : EpollWorker.Action)
  /-- A step inside `handle_connection`. -/
  | call (task : ℕ) (event : Event)
  /-- The task accesses `ssl_map` while another one is erasing from it. -/
  | collide (task : ℕ) (map : Fd → Option ℕ)

namespace State

/-- A task leaves the handler only with what the call has returned. -/
def Allows (s : State) : EpollWorker.Action → Prop
  | .handle id result _ => s.calls id = some (.returned result)
  | _ => True

instance (s : State) : DecidablePred s.Allows
  | .handle _ _ _ => inferInstanceAs (Decidable (_ = _))
  | .epollWait _ | .accept _ | .mapInsert | .ctlAdd _ | .check | .findPort | .eraseStale
  | .findPortAgain | .enqueue | .begin _ | .freeSsl _ | .ctlDel _ | .close _ | .mapErase _
  | .release _ | .arrive _ _ | .hangup _ => inferInstanceAs (Decidable True)

/-- What a step of the event loop does to the calls and the objects. -/
def beside (s : State) : EpollWorker.Action → State
  | .begin id => s.setCall id .dispatching
  | .handle id _ _ => { s with calls := Function.update s.calls id none }
  | .freeSsl id =>
      match s.loop.tasks id with
      | some task => s.cleanUp task.fd
      | none => s
  | _ => s

/-- The task is in its erase. -/
def Erasing (s : State) (id : ℕ) : Prop :=
  ∃ pc ∈ s.calls id, pc.erases = true

instance (s : State) (id : ℕ) : Decidable (s.Erasing id) :=
  inferInstanceAs (Decidable (∃ pc ∈ s.calls id, pc.erases = true))

/-- The task is about to access `ssl_map`, or in its erase. -/
def Accesses (s : State) (id : ℕ) : Prop :=
  (∃ task ∈ s.loop.tasks id, task.pc = .freeing) ∨ s.calls id = some .looking ∨ s.Erasing id

instance (s : State) (id : ℕ) : Decidable (s.Accesses id) :=
  inferInstanceAs (Decidable (_ ∨ _ ∨ _))

end State

/-- A step of the event loop or of a call; `none` when it is not enabled. -/
def next (P : Params) (s : State) : Action → Option State
  | .loop a =>
      if s.Allows a then
        (EpollWorker.next P s.loop a).map fun loop => { s.beside a with loop := loop }
      else none
  | .call id event =>
      match s.loop.tasks id, s.calls id with
      | some task, some pc => callStep s id task pc event
      | _, _ => none
  | .collide id map =>
      if s.Accesses id ∧ ∃ other < s.loop.nextTask, other ≠ id ∧ s.Erasing other then
        some { s with sslMap := map }
      else none

/-- The event loop of one child process with its SSL objects. -/
def system (P : Params) : Transition.System State Action where
  init s := s = start
  step := next P

/-! ## What a step can do -/

namespace CallPc

/-- The object the call will use, or the one it has freed, and how often that has
been freed. -/
def object : CallPc → Option (ℕ × ℕ)
  | accepting ssl => some (ssl, 0)
  | reading ssl _ => some (ssl, 0)
  | answering ssl => some (ssl, 0)
  | dropping ssl => some (ssl, 0)
  | erasing ssl => some (ssl, 1)
  | _ => none

end CallPc

/-- The enabled steps, one constructor for each thing that happens to the map and
the objects. -/
inductive Step (P : Params) (s : State) : Action → State → Prop
  | loop {a : EpollWorker.Action} {loop : EpollWorker.State} (hallows : s.Allows a)
      (hloop : EpollWorker.Step P s.loop a loop) :
      Step P s (.loop a) { s.beside a with loop := loop }
  /-- The call goes on with the object it has, or without one. -/
  | move {id : ℕ} {task : Task} {pc pc' : CallPc} {event : Event}
      (htask : s.loop.tasks id = some task) (hcall : s.calls id = some pc)
      (hpc : pc.erases = false) (hobject : pc'.object = none ∨ pc'.object = pc.object) :
      Step P s (.call id event) (s.setCall id pc')
  /-- A call on the object. -/
  | use {id ssl : ℕ} {task : Task} {pc pc' : CallPc} {event : Event}
      (htask : s.loop.tasks id = some task) (hcall : s.calls id = some pc)
      (hpc : pc.object = some (ssl, 0)) (hobject : pc'.object = none ∨ pc'.object = pc.object) :
      Step P s (.call id event) ((s.use ssl).setCall id pc')
  | find {id ssl : ℕ} {task : Task} (htask : s.loop.tasks id = some task)
      (hcall : s.calls id = some .looking) (hentry : s.sslMap task.fd = some ssl) :
      Step P s (.call id .lookup) ((s.use ssl).setCall id (.accepting ssl))
  | create {id : ℕ} {task : Task} {c : Conn} (htask : s.loop.tasks id = some task)
      (hcall : s.calls id = some .looking) (hentry : s.sslMap task.fd = none)
      (hconn : s.loop.conns task.fd = some c) :
      Step P s (.call id .lookup)
        (((s.create c.serial).insert task.fd s.nextObject).setCall id (.accepting s.nextObject))
  | lose {id : ℕ} {task : Task} {c : Conn} (htask : s.loop.tasks id = some task)
      (hcall : s.calls id = some .looking) :
      Step P s (.call id .insertFails) ((s.create c.serial).setCall id (.returned .drop))
  | free {id ssl : ℕ} {task : Task} (htask : s.loop.tasks id = some task)
      (hcall : s.calls id = some (.dropping ssl)) :
      Step P s (.call id .free) ((s.free ssl).setCall id (.erasing ssl))
  | erase {id ssl : ℕ} {task : Task} (htask : s.loop.tasks id = some task)
      (hcall : s.calls id = some (.erasing ssl)) :
      Step P s (.call id .erased) ((s.erase task.fd).setCall id (.returned .drop))
  | collide {id : ℕ} {map : Fd → Option ℕ} :
      Step P s (.collide id map) { s with sslMap := map }

theorem conn_of_hello {s : State} {fd : Fd} {c : Conn} (h : s.hello fd = some c) :
    s.loop.conns fd = some c :=
  (Option.filter_eq_some_iff.mp h).1

theorem object_dispatchTo (peeked : Option Bytes) (siteFound : Bool) :
    (dispatchTo peeked siteFound).object = none := by
  unfold dispatchTo
  split
  · rfl
  · split
    · cases siteFound <;> rfl
    · cases siteFound <;> rfl
    · rfl

theorem object_acceptTo (ssl : ℕ) (result : HttpsUtil.AcceptResult) :
    (acceptTo ssl result).object = none ∨ (acceptTo ssl result).object = some (ssl, 0) := by
  cases result with
  | done => exact Or.inr rfl
  | want => exact Or.inl rfl
  | error => exact Or.inl rfl

theorem object_readTo (ssl : ℕ) (request : Bytes) (result : SslReadResult) :
    (readTo ssl request result).object = none ∨
      (readTo ssl request result).object = some (ssl, 0) := by
  unfold readTo
  split
  · split
    · exact Or.inr rfl
    · exact Or.inr rfl
  · exact Or.inr rfl
  · exact Or.inl rfl
  · exact Or.inr rfl

theorem step_of_callStep {P : Params} {s result : State} {id : ℕ} {task : Task} {pc : CallPc}
    {event : Event} (htask : s.loop.tasks id = some task) (hcall : s.calls id = some pc)
    (h : callStep s id task pc event = some result) : Step P s (.call id event) result := by
  unfold callStep at h
  split at h
  · exact Option.some.inj h ▸ .move htask hcall rfl (Or.inl (object_dispatchTo _ _))
  · exact Option.some.inj h ▸ .move htask hcall rfl (Or.inl rfl)
  · split at h
    · exact Option.some.inj h ▸ .find htask hcall ‹_›
    · split at h
      · exact Option.some.inj h ▸ .move htask hcall rfl (Or.inl rfl)
      · exact Option.some.inj h ▸ .create htask hcall ‹_› (conn_of_hello ‹_›)
  · split at h
    · exact Option.some.inj h ▸ .lose htask hcall
    · exact absurd h (by simp)
  · exact Option.some.inj h ▸ .use htask hcall rfl (object_acceptTo _ _)
  · exact Option.some.inj h ▸ .use htask hcall rfl (object_readTo _ _ _)
  · exact Option.some.inj h ▸ .use htask hcall rfl (Or.inr rfl)
  · rename_i keepAlive
    cases keepAlive with
    | true => exact Option.some.inj h ▸ .move htask hcall rfl (Or.inl rfl)
    | false => exact Option.some.inj h ▸ .move htask hcall rfl (Or.inr rfl)
  · exact Option.some.inj h ▸ .free htask hcall
  · exact Option.some.inj h ▸ .erase htask hcall
  · split at h
    · rename_i hthrow
      refine Option.some.inj h ▸ .move htask hcall ?_ (Or.inl rfl)
      revert hthrow
      cases pc <;> simp [CallPc.mayThrow, CallPc.erases]
    · exact absurd h (by simp)
  · exact absurd h (by simp)

theorem step_of_next {P : Params} {s result : State} {a : Action} (h : next P s a = some result) :
    Step P s a result := by
  cases a with
  | loop a =>
      obtain ⟨hallows, h⟩ := Option.ite_none_right_eq_some.mp h
      obtain ⟨loop, hloop, rfl⟩ := Option.map_eq_some_iff.mp h
      exact .loop hallows (EpollWorker.step_of_next hloop)
  | call id event =>
      simp only [next] at h
      split at h
      · exact step_of_callStep ‹_› ‹_› h
      · exact absurd h (by simp)
  | collide id map =>
      obtain ⟨-, h⟩ := Option.ite_none_right_eq_some.mp h
      exact Option.some.inj h ▸ .collide

/-- The steps of the calls are inside one step of the event loop, or beside it. -/
theorem reachable_loop {P : Params} {guard : State → Action → Prop} {s : State}
    (h : (system P).Reachable guard s) :
    (EpollWorker.system P).Reachable Transition.anyStep s.loop := by
  induction h with
  | initial hinit => exact .initial (congrArg State.loop hinit)
  | @step s next a _ _ hstep ih =>
      cases a with
      | loop a =>
          obtain ⟨-, h⟩ := Option.ite_none_right_eq_some.mp hstep
          obtain ⟨loop, hloop, rfl⟩ := Option.map_eq_some_iff.mp h
          exact ih.step trivial hloop
      | call id event =>
          have hcall : Step P s (.call id event) next := step_of_next hstep
          have hloop : next.loop = s.loop := by
            cases hcall <;> rfl
          exact hloop ▸ ih
      | collide id map =>
          have hcollide : Step P s (.collide id map) next := step_of_next hstep
          have hloop : next.loop = s.loop := by
            cases hcollide
            rfl
          exact hloop ▸ ih

end Sok.Tls
