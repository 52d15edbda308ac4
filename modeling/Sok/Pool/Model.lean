import Mathlib.Data.Nat.Notation
import Mathlib.Logic.Function.Basic
import Sok.Foundation.Transition

/-!
# The thread pool

`ThreadPool`: `n` workers, any number of calls of `enqueue` and the destructor,
interleaved.  One step is one access to `_stop`, or what one party does under the
mutex between two such accesses.  `wait(lock, pred)` evaluates the predicate
under the mutex and only in a further step releases the mutex and blocks; a
notification wakes workers that are blocked, and a blocked worker may also wake
spuriously.

A task is named by the call of `enqueue` that brought it.
-/

namespace Sok

namespace ThreadPool

/-- Where a worker is in its loop. -/
inductive WorkerPc
  | lock  -- before `std::unique_lock`
  | check  -- in `wait`, with the mutex, before evaluating the predicate
  | block  -- the predicate was false: about to release the mutex and block
  | blocked
  | woken  -- before taking the mutex again
  | test  -- behind `wait`, before `if (_stop && _tasks.empty())`
  | pop  -- the test was false: about to take a task
  | running (task : ℕ)
  | exited
  deriving DecidableEq

/-- Where a call of `enqueue` is. -/
inductive CallPc
  | idle  -- not made yet
  | lock
  | check  -- with the mutex, before `if (_stop) throw`
  | push  -- `_stop` was false: about to enter the task
  | notify  -- the mutex released, before `notify_one`
  | returned
  | threw
  deriving DecidableEq

/-- Where the destructor is. -/
inductive DestructorPc
  | alive  -- not called yet
  | stopped  -- `_stop` is stored, `notify_all` is next
  | joining (worker : ℕ)
  | destroyed
  deriving DecidableEq

/-- The owner of `_queueMutex`. -/
inductive Owner (n : ℕ)
  | worker (w : Fin n)
  | call (c : ℕ)
  deriving DecidableEq

end ThreadPool

open ThreadPool

/-- `ThreadPool` with `n` workers.  The last three fields are not in the source:
the tasks in the order in which they were entered, taken, and finished. -/
structure ThreadPool (n : ℕ) where
  mutex : Option (Owner n)
  tasks : List ℕ
  stop : Bool
  workers : Fin n → WorkerPc
  calls : ℕ → CallPc
  destructor : DestructorPc
  pushed : List ℕ
  started : List ℕ
  finished : List ℕ

namespace ThreadPool

variable {n : ℕ}

/-- After the constructor. -/
def new (n : ℕ) : ThreadPool n where
  mutex := none
  tasks := []
  stop := false
  workers := fun _ => .lock
  calls := fun _ => .idle
  destructor := .alive
  pushed := []
  started := []
  finished := []

/-- A worker goes on to `pc`. -/
def worker (pool : ThreadPool n) (w : Fin n) (pc : WorkerPc) : ThreadPool n :=
  { pool with workers := Function.update pool.workers w pc }

/-- A call goes on to `pc`. -/
def call (pool : ThreadPool n) (c : ℕ) (pc : CallPc) : ThreadPool n :=
  { pool with calls := Function.update pool.calls c pc }

/-- The predicate of `wait`. -/
def ready (pool : ThreadPool n) : Bool := pool.stop || !pool.tasks.isEmpty

/-- The next step of a worker, unless it has to wait. -/
def workerStep (pool : ThreadPool n) (w : Fin n) : Option (ThreadPool n) :=
  match pool.workers w with
  | .lock | .woken =>
      if pool.mutex = none then some ({ pool with mutex := some (.worker w) }.worker w .check)
      else none
  | .check => some (pool.worker w (if pool.ready then .test else .block))
  | .block => some ({ pool with mutex := none }.worker w .blocked)
  | .blocked => none
  | .test =>
      if pool.stop && pool.tasks.isEmpty then
        some ({ pool with mutex := none }.worker w .exited)
      else some (pool.worker w .pop)
  | .pop =>
      match pool.tasks with
      | [] => none  -- undefined: `front` of an empty queue
      | task :: rest =>
          some ({ pool with
            mutex := none
            tasks := rest
            started := pool.started ++ [task] }.worker w (.running task))
  | .running task => some ({ pool with finished := pool.finished ++ [task] }.worker w .lock)
  | .exited => none

/-- The next step of a call of `enqueue`, its notification apart. -/
def callStep (pool : ThreadPool n) (c : ℕ) : Option (ThreadPool n) :=
  match pool.calls c with
  | .idle => some (pool.call c .lock)
  | .lock =>
      if pool.mutex = none then some ({ pool with mutex := some (.call c) }.call c .check)
      else none
  | .check =>
      if pool.stop then some ({ pool with mutex := none }.call c .threw)
      else some (pool.call c .push)
  | .push =>
      some ({ pool with
        mutex := none
        tasks := pool.tasks ++ [c]
        pushed := pool.pushed ++ [c] }.call c .notify)
  | .notify | .returned | .threw => none

/-- A woken worker takes the mutex next; the others stay where they are. -/
def wake (pc : WorkerPc) : WorkerPc :=
  if pc = .blocked then .woken else pc

/-- `notify_one`: it wakes a blocked worker of the environment's choice, if there
is one. -/
def notifyOne (pool : ThreadPool n) (c : ℕ) (choice : Option (Fin n)) : Option (ThreadPool n) :=
  if pool.calls c ≠ .notify then none
  else
    match choice with
    | some w =>
        if pool.workers w = .blocked then some ((pool.worker w .woken).call c .returned) else none
    | none => if ∀ w, pool.workers w ≠ .blocked then some (pool.call c .returned) else none

/-- The next step of the destructor. -/
def destructorStep (pool : ThreadPool n) : Option (ThreadPool n) :=
  match pool.destructor with
  | .alive => some { pool with stop := true, destructor := .stopped }
  | .stopped =>
      some { pool with workers := fun w => wake (pool.workers w), destructor := .joining 0 }
  | .joining k =>
      if h : k < n then
        if pool.workers ⟨k, h⟩ = .exited then some { pool with destructor := .joining (k + 1) }
        else none
      else some { pool with destructor := .destroyed }
  | .destroyed => none

/-- Who moves, and the choice of a notification. -/
inductive Move (n : ℕ)
  | worker (w : Fin n)
  | spurious (w : Fin n)
  | call (c : ℕ)
  | notifyOne (c : ℕ) (choice : Option (Fin n))
  | destructor

/-- One step. -/
def step (pool : ThreadPool n) : Move n → Option (ThreadPool n)
  | .worker w => pool.workerStep w
  | .spurious w => if pool.workers w = .blocked then some (pool.worker w .woken) else none
  | .call c => pool.callStep c
  | .notifyOne c choice => pool.notifyOne c choice
  | .destructor => pool.destructorStep

/-- All interleavings. -/
def system (n : ℕ) : Transition.System (ThreadPool n) (Move n) where
  init pool := pool = new n
  step := step

/-! ## What one step can do -/

/-- The steps one by one, with what each of them finds and leaves. -/
inductive Steps (pool : ThreadPool n) : Move n → ThreadPool n → Prop
  | acquire {w : Fin n} : pool.workers w = .lock ∨ pool.workers w = .woken → pool.mutex = none →
      Steps pool (.worker w) ({ pool with mutex := some (.worker w) }.worker w .check)
  | leaveWait {w : Fin n} : pool.workers w = .check → pool.ready = true →
      Steps pool (.worker w) (pool.worker w .test)
  | enterWait {w : Fin n} : pool.workers w = .check → pool.ready = false →
      Steps pool (.worker w) (pool.worker w .block)
  | block {w : Fin n} : pool.workers w = .block →
      Steps pool (.worker w) ({ pool with mutex := none }.worker w .blocked)
  | spurious {w : Fin n} : pool.workers w = .blocked →
      Steps pool (.spurious w) (pool.worker w .woken)
  | exit {w : Fin n} : pool.workers w = .test → pool.stop = true → pool.tasks = [] →
      Steps pool (.worker w) ({ pool with mutex := none }.worker w .exited)
  | goOn {w : Fin n} : pool.workers w = .test → pool.stop = false ∨ pool.tasks ≠ [] →
      Steps pool (.worker w) (pool.worker w .pop)
  | take {w : Fin n} {task : ℕ} {rest : List ℕ} : pool.workers w = .pop →
      pool.tasks = task :: rest →
      Steps pool (.worker w) ({ pool with
        mutex := none
        tasks := rest
        started := pool.started ++ [task] }.worker w (.running task))
  | finish {w : Fin n} {task : ℕ} : pool.workers w = .running task →
      Steps pool (.worker w) ({ pool with finished := pool.finished ++ [task] }.worker w .lock)
  | enter {c : ℕ} : pool.calls c = .idle → Steps pool (.call c) (pool.call c .lock)
  | acquireCall {c : ℕ} : pool.calls c = .lock → pool.mutex = none →
      Steps pool (.call c) ({ pool with mutex := some (.call c) }.call c .check)
  | refuse {c : ℕ} : pool.calls c = .check → pool.stop = true →
      Steps pool (.call c) ({ pool with mutex := none }.call c .threw)
  | accept {c : ℕ} : pool.calls c = .check → pool.stop = false →
      Steps pool (.call c) (pool.call c .push)
  | push {c : ℕ} : pool.calls c = .push →
      Steps pool (.call c) ({ pool with
        mutex := none
        tasks := pool.tasks ++ [c]
        pushed := pool.pushed ++ [c] }.call c .notify)
  | notifyWorker {c : ℕ} {w : Fin n} : pool.calls c = .notify → pool.workers w = .blocked →
      Steps pool (.notifyOne c (some w)) ((pool.worker w .woken).call c .returned)
  | notifyNobody {c : ℕ} : pool.calls c = .notify → (∀ w, pool.workers w ≠ .blocked) →
      Steps pool (.notifyOne c none) (pool.call c .returned)
  | store : pool.destructor = .alive →
      Steps pool .destructor { pool with stop := true, destructor := .stopped }
  | notifyAll : pool.destructor = .stopped →
      Steps pool .destructor { pool with
        workers := fun w => wake (pool.workers w)
        destructor := .joining 0 }
  | join {k : ℕ} {next : DestructorPc} : pool.destructor = .joining k → next ≠ .alive →
      next ≠ .stopped → Steps pool .destructor { pool with destructor := next }

theorem steps_of_workerStep {pool next : ThreadPool n} {w : Fin n}
    (h : pool.workerStep w = some next) : Steps pool (.worker w) next := by
  unfold workerStep at h
  cases hpc : pool.workers w with
  | lock =>
      simp only [hpc, Option.ite_none_right_eq_some, Option.some.injEq] at h
      exact h.2 ▸ .acquire (Or.inl hpc) h.1
  | woken =>
      simp only [hpc, Option.ite_none_right_eq_some, Option.some.injEq] at h
      exact h.2 ▸ .acquire (Or.inr hpc) h.1
  | check =>
      simp only [hpc, Option.some.injEq] at h
      cases hready : pool.ready with
      | true => exact h ▸ by simpa [hready] using Steps.leaveWait hpc hready
      | false => exact h ▸ by simpa [hready] using Steps.enterWait hpc hready
  | block =>
      simp only [hpc, Option.some.injEq] at h
      exact h ▸ .block hpc
  | blocked => simp [hpc] at h
  | test =>
      simp only [hpc, Bool.and_eq_true, List.isEmpty_iff] at h
      split at h
      case isTrue htest => exact Option.some.inj h ▸ .exit hpc htest.1 htest.2
      case isFalse htest =>
        refine Option.some.inj h ▸ .goOn hpc ?_
        rcases not_and_or.mp htest with hstop | htasks
        · exact Or.inl (by simpa using hstop)
        · exact Or.inr htasks
  | pop =>
      cases htasks : pool.tasks with
      | nil => simp [hpc, htasks] at h
      | cons task rest =>
          simp only [hpc, htasks, Option.some.injEq] at h
          exact h ▸ .take hpc htasks
  | running task =>
      simp only [hpc, Option.some.injEq] at h
      exact h ▸ .finish hpc
  | exited => simp [hpc] at h

theorem steps_of_callStep {pool next : ThreadPool n} {c : ℕ} (h : pool.callStep c = some next) :
    Steps pool (.call c) next := by
  unfold callStep at h
  cases hpc : pool.calls c with
  | idle =>
      simp only [hpc, Option.some.injEq] at h
      exact h ▸ .enter hpc
  | lock =>
      simp only [hpc, Option.ite_none_right_eq_some, Option.some.injEq] at h
      exact h.2 ▸ .acquireCall hpc h.1
  | check =>
      simp only [hpc] at h
      split at h
      case isTrue hstop => exact Option.some.inj h ▸ .refuse hpc hstop
      case isFalse hstop => exact Option.some.inj h ▸ .accept hpc (by simpa using hstop)
  | push =>
      simp only [hpc, Option.some.injEq] at h
      exact h ▸ .push hpc
  | notify => simp [hpc] at h
  | returned => simp [hpc] at h
  | threw => simp [hpc] at h

theorem steps_of_notifyOne {pool next : ThreadPool n} {c : ℕ} {choice : Option (Fin n)}
    (h : pool.notifyOne c choice = some next) : Steps pool (.notifyOne c choice) next := by
  unfold notifyOne at h
  split at h
  case isTrue => simp at h
  case isFalse hpc =>
    have hnotify : pool.calls c = .notify := not_not.mp hpc
    cases choice with
    | some w =>
        simp only [Option.ite_none_right_eq_some, Option.some.injEq] at h
        exact h.2 ▸ .notifyWorker hnotify h.1
    | none =>
        simp only [Option.ite_none_right_eq_some, Option.some.injEq] at h
        exact h.2 ▸ .notifyNobody hnotify h.1

theorem steps_of_destructorStep {pool next : ThreadPool n}
    (h : pool.destructorStep = some next) : Steps pool .destructor next := by
  unfold destructorStep at h
  cases hpc : pool.destructor with
  | alive =>
      simp only [hpc, Option.some.injEq] at h
      exact h ▸ .store hpc
  | stopped =>
      simp only [hpc, Option.some.injEq] at h
      exact h ▸ .notifyAll hpc
  | joining k =>
      simp only [hpc] at h
      split at h
      · simp only [Option.ite_none_right_eq_some, Option.some.injEq] at h
        exact h.2 ▸ .join hpc (by simp) (by simp)
      · exact Option.some.inj h ▸ .join hpc (by simp) (by simp)
  | destroyed => simp [hpc] at h

/-- Every step is one of these. -/
theorem steps_of_step {pool next : ThreadPool n} {move : Move n}
    (h : pool.step move = some next) : Steps pool move next := by
  cases move with
  | worker w => exact steps_of_workerStep h
  | spurious w =>
      simp only [step, Option.ite_none_right_eq_some, Option.some.injEq] at h
      exact h.2 ▸ .spurious h.1
  | call c => exact steps_of_callStep h
  | notifyOne c choice => exact steps_of_notifyOne h
  | destructor => exact steps_of_destructorStep h

end ThreadPool

end Sok
