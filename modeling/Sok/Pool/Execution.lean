import Mathlib.Data.List.Nodup
import Sok.Foundation.Mutex
import Sok.Pool.Model

/-!
# Every accepted task runs once

`_stop` is written without the mutex, but a call of `enqueue` reads it and enters
its task, and a worker reads it and leaves, inside one critical section each.  So
a worker that leaves has seen `_stop` and an empty queue while no call was about to
enter a task, and no later call will (`Settled`).

## Strategy

Four invariants, each by one case split on the steps.  Exactly the owner of the mutex is
inside a critical section (`guarded_step`), so a step outside leaves alone what was seen
inside.  The queue holds what calls have entered and workers have not taken
(`queued_step`).  What a worker has seen about `_stop` and the queue stays true while it is
inside (`settled_step`), and for a worker that has left it stays true for good.  A task that has
been taken is being run or is finished (`finishing_step`).  The result is read off the four
together.
-/

namespace Sok.ThreadPool

open Mutex (Guarded)

variable {n : ℕ} {pool next : ThreadPool n} {move : Move n}

/-! ## The mutex -/

/-- The worker has the mutex. -/
def WorkerPc.Inside : WorkerPc → Prop
  | .check | .block | .test | .pop => True
  | _ => False

/-- The call has the mutex. -/
def CallPc.Inside : CallPc → Prop
  | .check | .push => True
  | _ => False

/-- The party is inside a critical section. -/
def Inside (pool : ThreadPool n) : Owner n → Prop
  | .worker w => (pool.workers w).Inside
  | .call c => (pool.calls c).Inside

theorem inside_worker_self (pool : ThreadPool n) (w : Fin n) (pc : WorkerPc) :
    (pool.worker w pc).Inside (.worker w) ↔ pc.Inside := by
  simp [Inside, worker]

theorem inside_worker_of_ne (pool : ThreadPool n) {w : Fin n} (pc : WorkerPc) {q : Owner n}
    (hne : q ≠ .worker w) : (pool.worker w pc).Inside q ↔ pool.Inside q := by
  cases q with
  | call c => exact Iff.rfl
  | worker v =>
      have hv : v ≠ w := fun h => hne (h ▸ rfl)
      simp [Inside, worker, hv]

theorem inside_call_self (pool : ThreadPool n) (c : ℕ) (pc : CallPc) :
    (pool.call c pc).Inside (.call c) ↔ pc.Inside := by
  simp [Inside, call]

theorem inside_call_of_ne (pool : ThreadPool n) {c : ℕ} (pc : CallPc) {q : Owner n}
    (hne : q ≠ .call c) : (pool.call c pc).Inside q ↔ pool.Inside q := by
  cases q with
  | worker w => exact Iff.rfl
  | call d =>
      have hd : d ≠ c := fun h => hne (h ▸ rfl)
      simp [Inside, call, hd]

theorem inside_worker_iff (pool : ThreadPool n) {w : Fin n} {pc : WorkerPc}
    (hpc : pc.Inside ↔ (pool.workers w).Inside) (q : Owner n) :
    (pool.worker w pc).Inside q ↔ pool.Inside q := by
  by_cases heq : q = .worker w
  · subst heq
    rw [inside_worker_self, hpc, Inside]
  · exact inside_worker_of_ne pool pc heq

theorem inside_call_iff (pool : ThreadPool n) {c : ℕ} {pc : CallPc}
    (hpc : pc.Inside ↔ (pool.calls c).Inside) (q : Owner n) :
    (pool.call c pc).Inside q ↔ pool.Inside q := by
  by_cases heq : q = .call c
  · subst heq
    rw [inside_call_self, hpc, Inside]
  · exact inside_call_of_ne pool pc heq

theorem inside_wake (pc : WorkerPc) : (wake pc).Inside ↔ pc.Inside := by
  cases pc <;> simp [wake, WorkerPc.Inside]

/-- Exactly the owner of the mutex is inside, after every step. -/
theorem guarded_step (h : Guarded pool.Inside pool.mutex) (hs : Steps pool move next) :
    Guarded next.Inside next.mutex := by
  cases hs with
  | acquire hpc hfree =>
      exact h.acquire hfree ((inside_worker_self _ _ _).mpr trivial)
        fun q hne => inside_worker_of_ne _ _ hne
  | acquireCall hpc hfree =>
      exact h.acquire hfree ((inside_call_self _ _ _).mpr trivial)
        fun q hne => inside_call_of_ne _ _ hne
  | @block w hpc | @exit w hpc | @take w _ _ hpc =>
      have hin : pool.Inside (.worker w) := by simp [Inside, hpc, WorkerPc.Inside]
      exact h.release hin (fun hout => (inside_worker_self _ _ _).mp hout)
        fun q hne => inside_worker_of_ne _ _ hne
  | @refuse c hpc | @push c hpc =>
      have hin : pool.Inside (.call c) := by simp [Inside, hpc, CallPc.Inside]
      exact h.release hin (fun hout => (inside_call_self _ _ _).mp hout)
        fun q hne => inside_call_of_ne _ _ hne
  | leaveWait hpc | enterWait hpc | goOn hpc | spurious hpc | finish hpc =>
      exact h.keep (inside_worker_iff _ (by simp [hpc, WorkerPc.Inside]))
  | enter hpc | accept hpc | notifyNobody hpc =>
      exact h.keep (inside_call_iff _ (by simp [hpc, CallPc.Inside]))
  | @notifyWorker c w hpc hblocked =>
      refine h.keep fun q => (inside_call_iff _ ?_ q).trans (inside_worker_iff _ ?_ q)
      · simp [worker, hpc, CallPc.Inside]
      · simp [hblocked, WorkerPc.Inside]
  | notifyAll hdestructor =>
      refine h.keep fun q => ?_
      cases q with
      | call c => exact Iff.rfl
      | worker w => exact inside_wake _
  | store | join => exact h

/-! ## The queue -/

/-- The call has entered its task. -/
def CallPc.Entered : CallPc → Prop
  | .notify | .returned => True
  | _ => False

/-- The queue is what has been entered and not taken, in that order; every task was
entered once, by its call. -/
structure Queued (pool : ThreadPool n) : Prop where
  history : pool.pushed = pool.started ++ pool.tasks
  entered : ∀ c, c ∈ pool.pushed ↔ (pool.calls c).Entered
  nodup : pool.pushed.Nodup

theorem Queued.call (h : Queued pool) {c : ℕ} {pc : CallPc}
    (hpc : pc.Entered ↔ (pool.calls c).Entered) : Queued (pool.call c pc) := by
  refine ⟨h.history, fun d => ?_, h.nodup⟩
  change d ∈ pool.pushed ↔ (Function.update pool.calls c pc d).Entered
  by_cases heq : d = c
  · subst heq
    rw [Function.update_self, hpc]
    exact h.entered d
  · rw [Function.update_of_ne heq]
    exact h.entered d

theorem Queued.mutex (h : Queued pool) (owner : Option (Owner n)) :
    Queued { pool with mutex := owner } :=
  ⟨h.history, h.entered, h.nodup⟩

theorem queued_step (h : Queued pool) (hs : Steps pool move next) : Queued next := by
  cases hs with
  | @take w task rest hpc htasks =>
      refine ⟨?_, h.entered, h.nodup⟩
      change pool.pushed = (pool.started ++ [task]) ++ rest
      rw [h.history, htasks, List.append_assoc, List.singleton_append]
  | @push c hpc =>
      have hnew : c ∉ pool.pushed := fun hmem => by
        have := (h.entered c).mp hmem
        rw [hpc] at this
        exact this
      refine ⟨?_, fun d => ?_, ?_⟩
      · change pool.pushed ++ [c] = pool.started ++ (pool.tasks ++ [c])
        rw [h.history, List.append_assoc]
      · change d ∈ pool.pushed ++ [c] ↔ (Function.update pool.calls c .notify d).Entered
        by_cases heq : d = c
        · subst heq
          simp [CallPc.Entered]
        · rw [Function.update_of_ne heq, ← h.entered d]
          simp [heq]
      · exact List.nodup_append'.mpr ⟨h.nodup, List.nodup_singleton c, by simpa using hnew⟩
  | enter hpc | accept hpc | notifyNobody hpc => exact h.call (by simp [hpc, CallPc.Entered])
  | acquireCall hpc _ | refuse hpc _ => exact (h.mutex _).call (by simp [hpc, CallPc.Entered])
  | @notifyWorker c w hpc _ =>
      have hworker : Queued (pool.worker w .woken) := ⟨h.history, h.entered, h.nodup⟩
      exact hworker.call (by simp [ThreadPool.worker, hpc, CallPc.Entered])
  | _ => exact ⟨h.history, h.entered, h.nodup⟩

/-! ## What a worker has seen -/

/-- What is known at the places where a worker has read the queue: about to block it
was empty, about to take a task it was not, and once a worker has left it is
empty and stays so. -/
def WorkerPc.Settled (pool : ThreadPool n) : WorkerPc → Prop
  | .block => pool.tasks = []
  | .test => pool.stop = true ∨ pool.tasks ≠ []
  | .pop => pool.tasks ≠ []
  | .exited => pool.stop = true ∧ pool.tasks = [] ∧ ∀ c, pool.calls c ≠ .push
  | _ => True

/-- What the workers have seen is still so. -/
def Settled (pool : ThreadPool n) : Prop :=
  ∀ w, (pool.workers w).Settled pool

theorem settled_worker {w : Fin n} {pc : WorkerPc}
    (hworkers : next.workers = Function.update pool.workers w pc) (hpc : pc.Settled next)
    (hother : ∀ v, v ≠ w → (pool.workers v).Settled next) : next.Settled := by
  intro v
  rw [hworkers]
  by_cases heq : v = w
  · subst heq
    rw [Function.update_self]
    exact hpc
  · rw [Function.update_of_ne heq]
    exact hother v heq

/-- Queue, `_stop` and the calls that are about to enter a task decide what a worker
has seen. -/
theorem WorkerPc.Settled.congr {pc : WorkerPc} (h : pc.Settled pool)
    (htasks : next.tasks = pool.tasks) (hstop : pool.stop = true → next.stop = true)
    (hcalls : pool.stop = true → ∀ c, next.calls c = .push → pool.calls c = .push) :
    pc.Settled next := by
  cases pc with
  | block => exact htasks.trans h
  | test => exact h.imp hstop fun hne => htasks ▸ hne
  | pop => exact fun hnil => h (htasks ▸ hnil)
  | exited =>
      obtain ⟨hpool, hnil, hpush⟩ := h
      exact ⟨hstop hpool, htasks.trans hnil, fun c hc => hpush c (hcalls hpool c hc)⟩
  | lock | check | blocked | woken | running => trivial

/-- What is known outside a critical section survives a step of the party inside. -/
theorem WorkerPc.Settled.of_not_inside {pc : WorkerPc} (h : pc.Settled pool)
    (hout : ¬ pc.Inside) (hnot : pc = .exited → pc.Settled next) : pc.Settled next := by
  cases pc with
  | block | test | pop => exact absurd trivial hout
  | exited => exact hnot rfl
  | lock | check | blocked | woken | running => trivial

theorem push_of_update {calls : ℕ → CallPc} {c : ℕ} {pc : CallPc} (hpc : pc ≠ .push) {d : ℕ}
    (h : Function.update calls c pc d = .push) : calls d = .push := by
  by_cases heq : d = c
  · subst heq
    rw [Function.update_self] at h
    exact absurd h hpc
  · rwa [Function.update_of_ne heq] at h

theorem settled_step (hguarded : Guarded pool.Inside pool.mutex) (h : pool.Settled)
    (hs : Steps pool move next) : next.Settled := by
  cases hs with
  | acquire | block | spurious | finish =>
      exact settled_worker rfl trivial fun v _ => (h v).congr rfl id fun _ _ => id
  | leaveWait hpc hready =>
      refine settled_worker rfl ?_ fun v _ => (h v).congr rfl id fun _ _ => id
      change pool.stop = true ∨ pool.tasks ≠ []
      simpa [ready] using hready
  | enterWait hpc hready =>
      refine settled_worker rfl ?_ fun v _ => (h v).congr rfl id fun _ _ => id
      have hboth : pool.stop = false ∧ pool.tasks = [] := by simpa [ready] using hready
      exact hboth.2
  | @exit w hpc hstop htasks =>
      refine settled_worker rfl ⟨hstop, htasks, fun c hpush => ?_⟩
        fun v _ => (h v).congr rfl id fun _ _ => id
      -- the mutex is with the worker, so no call is about to enter a task
      have hworker : pool.Inside (.worker w) := by simp [Inside, hpc, WorkerPc.Inside]
      have hpush : pool.calls c = .push := hpush
      have hcall : pool.Inside (.call c) := by simp [Inside, hpush, CallPc.Inside]
      exact absurd (hguarded.unique hworker hcall) (by simp)
  | @goOn w hpc hgo =>
      refine settled_worker rfl ?_ fun v _ => (h v).congr rfl id fun _ _ => id
      have hseen := h w
      rw [hpc] at hseen
      rcases hgo with hstop | htasks
      · exact hseen.resolve_left (by simp [hstop])
      · exact htasks
  | @take w task rest hpc htasks =>
      refine settled_worker rfl trivial fun v hne => ?_
      have hworker : pool.Inside (.worker w) := by simp [Inside, hpc, WorkerPc.Inside]
      refine (h v).of_not_inside (fun hin => ?_) fun hexited => ?_
      · have hin : pool.Inside (.worker v) := hin
        exact hne (Owner.worker.inj (hguarded.unique hin hworker))
      · have hseen := h v
        rw [hexited] at hseen
        exact absurd hseen.2.1 (by simp [htasks])
  | enter | acquireCall | refuse | notifyNobody =>
      exact fun v => (h v).congr rfl id fun _ _ => push_of_update (by simp)
  | @accept c hpc hstop =>
      refine fun v => (h v).congr rfl id fun htrue => ?_
      rw [hstop] at htrue
      exact absurd htrue (by simp)
  | @push c hpc =>
      intro v
      have hcall : pool.Inside (.call c) := by simp [Inside, hpc, CallPc.Inside]
      refine (h v).of_not_inside (fun hin => ?_) fun hexited => ?_
      · have hin : pool.Inside (.worker v) := hin
        exact absurd (hguarded.unique hin hcall) (by simp)
      · have hseen := h v
        rw [hexited] at hseen
        exact absurd hpc (hseen.2.2 c)
  | @notifyWorker c w hpc hblocked =>
      refine settled_worker rfl trivial fun v _ => ?_
      exact (h v).congr rfl id fun _ _ => push_of_update (by simp)
  | store =>
      exact fun v => (h v).congr rfl (fun _ => rfl) fun _ _ => id
  | notifyAll =>
      intro v
      change (wake (pool.workers v)).Settled _
      have hseen := h v
      unfold wake
      split
      · trivial
      · exact hseen.congr rfl id fun _ _ => id
  | join => exact fun v => (h v).congr rfl id fun _ _ => id

/-! ## Tasks that have been taken -/

/-- A task that was taken is finished or being run. -/
def Finishing (pool : ThreadPool n) : Prop :=
  ∀ c ∈ pool.started, c ∈ pool.finished ∨ ∃ w, pool.workers w = .running c

theorem running_of_update {w : Fin n} {old pc : WorkerPc} (hpc : pool.workers w = old)
    (hidle : ∀ task, old ≠ .running task) {c : ℕ} :
    (∃ v, pool.workers v = .running c) →
      ∃ v, Function.update pool.workers w pc v = .running c := by
  rintro ⟨v, hv⟩
  have hne : v ≠ w := fun heq => hidle c (hpc.symm.trans (heq ▸ hv))
  exact ⟨v, (Function.update_of_ne hne ..).trans hv⟩

theorem finishing_step (h : pool.Finishing) (hs : Steps pool move next) : next.Finishing := by
  cases hs with
  | acquire hpc _ =>
      intro c hc
      rcases hpc with hpc | hpc
      · exact (h c hc).imp_right (running_of_update hpc (by simp))
      · exact (h c hc).imp_right (running_of_update hpc (by simp))
  | leaveWait hpc _ | enterWait hpc _ | block hpc | spurious hpc | exit hpc _ _ | goOn hpc _
  | notifyWorker _ hpc =>
      exact fun c hc => (h c hc).imp_right (running_of_update hpc (by simp))
  | @take w task rest hpc htasks =>
      intro c hc
      rcases List.mem_append.mp hc with hold | hnew
      · exact (h c hold).imp_right (running_of_update hpc (by simp))
      · obtain rfl := List.mem_singleton.mp hnew
        exact Or.inr ⟨w, Function.update_self ..⟩
  | @finish w task hpc =>
      intro c hc
      rcases h c hc with hdone | ⟨v, hv⟩
      · exact Or.inl (List.mem_append_left _ hdone)
      · by_cases heq : v = w
        · -- the worker that finishes was running this task
          subst heq
          rw [hpc, WorkerPc.running.injEq] at hv
          exact Or.inl (List.mem_append_right _ (by simp [hv]))
        · exact Or.inr ⟨v, (Function.update_of_ne heq ..).trans hv⟩
  | notifyAll _ =>
      refine fun c hc => (h c hc).imp_right ?_
      rintro ⟨v, hv⟩
      exact ⟨v, by simp [wake, hv]⟩
  | enter | acquireCall | refuse | accept | push | notifyNobody | store | join => exact h

/-! ## Every run -/

/-- What holds in every state of the pool. -/
structure Sound (pool : ThreadPool n) : Prop where
  guarded : Guarded pool.Inside pool.mutex
  queued : pool.Queued
  settled : pool.Settled
  finishing : pool.Finishing

theorem sound_new (n : ℕ) : (new n).Sound where
  guarded := Mutex.guarded_none fun p => by
    cases p with
    | worker w => exact id
    | call c => exact id
  queued := ⟨rfl, fun c => by simp [new, CallPc.Entered], List.nodup_nil⟩
  settled _ := trivial
  finishing c hc := absurd hc List.not_mem_nil

theorem Sound.step (h : pool.Sound) (hs : Steps pool move next) : next.Sound where
  guarded := guarded_step h.guarded hs
  queued := queued_step h.queued hs
  settled := settled_step h.guarded h.settled hs
  finishing := finishing_step h.finishing hs

theorem sound_of_reachable {guard : ThreadPool n → Move n → Prop}
    (h : (system n).Reachable guard pool) : pool.Sound := by
  refine h.invariant ?_ ?_
  · rintro _ rfl
    exact sound_new n
  · intro pool move next _ hstep hpool
    exact hpool.step (steps_of_step hstep)

/-- Once a worker has left, no task is entered and the worker stays away. -/
theorem Sound.pushed_step (h : pool.Sound) (hs : Steps pool move next) {w : Fin n}
    (hexited : pool.workers w = .exited) :
    next.pushed = pool.pushed ∧ next.workers w = .exited := by
  have hother : ∀ {v : Fin n} {old pc : WorkerPc}, pool.workers v = old → old ≠ .exited →
      Function.update pool.workers v pc w = .exited := by
    intro v old pc hpc hold
    have hne : w ≠ v := fun heq => hold (hpc.symm.trans (heq ▸ hexited))
    exact (Function.update_of_ne hne ..).trans hexited
  cases hs with
  | acquire hpc _ =>
      rcases hpc with hpc | hpc
      · exact ⟨rfl, hother hpc (by simp)⟩
      · exact ⟨rfl, hother hpc (by simp)⟩
  | leaveWait hpc _ | enterWait hpc _ | block hpc | spurious hpc | exit hpc _ _ | goOn hpc _
  | take hpc _ | finish hpc | notifyWorker _ hpc =>
      exact ⟨rfl, hother hpc (by simp)⟩
  | @push c hpc =>
      have hseen := h.settled w
      rw [hexited] at hseen
      exact absurd hpc (hseen.2.2 c)
  | notifyAll _ => exact ⟨rfl, by simp [wake, hexited]⟩
  | enter | acquireCall | refuse | accept | notifyNobody | store | join => exact ⟨rfl, hexited⟩

theorem Sound.pushed_exec (h : pool.Sound) {w : Fin n} (hexited : pool.workers w = .exited)
    {moves : List (Move n)} {later : ThreadPool n}
    (hexec : (system n).exec pool moves = some later) : later.pushed = pool.pushed := by
  induction moves generalizing pool with
  | nil =>
      cases hexec
      rfl
  | cons move moves ih =>
      obtain ⟨next, hnext, hrest⟩ := Option.bind_eq_some_iff.mp hexec
      have hs := steps_of_step hnext
      obtain ⟨hpushed, hstays⟩ := h.pushed_step hs hexited
      exact (ih (h.step hs) hstays hrest).trans hpushed

/-- **Execution.**  In every interleaving the tasks are taken in the order in which
they were entered, each at most once, a worker leaves only an empty queue behind,
and when all workers have left every task has been run and no later one is entered. -/
theorem tasks_run_once (hn : 0 < n) (h : (system n).Reachable Transition.anyStep pool) :
    pool.pushed = pool.started ++ pool.tasks ∧ pool.started.Nodup ∧
      (∀ c, pool.calls c = .returned → c ∈ pool.pushed) ∧
      (∀ w, pool.workers w = .exited → pool.tasks = []) ∧
      ((∀ w, pool.workers w = .exited) →
        (∀ c ∈ pool.pushed, c ∈ pool.finished) ∧
          ∀ moves later, (system n).exec pool moves = some later →
            later.pushed = pool.pushed) := by
  have hsound := sound_of_reachable h
  obtain ⟨hhistory, hentered, hnodup⟩ := hsound.queued
  have hempty : ∀ w, pool.workers w = .exited → pool.tasks = [] := by
    intro w hexited
    have hseen := hsound.settled w
    rw [hexited] at hseen
    exact hseen.2.1
  refine ⟨hhistory, ?_, ?_, hempty, fun hall => ⟨fun c hc => ?_, fun moves later hexec => ?_⟩⟩
  · rw [hhistory] at hnodup
    exact hnodup.of_append_left
  · intro c hc
    rw [hentered, hc]
    trivial
  · -- what was entered was taken, and nobody is running it any more
    rw [hhistory, hempty ⟨0, hn⟩ (hall _), List.append_nil] at hc
    refine (hsound.finishing c hc).resolve_right ?_
    rintro ⟨w, hw⟩
    rw [hall w] at hw
    exact absurd hw (by simp)
  · exact hsound.pushed_exec (hall ⟨0, hn⟩) hexec

/-- One task is entered, run by the only worker, and the pool is stopped. -/
def oneTask : List (Move 1) :=
  [.call 0, .call 0, .call 0, .call 0, .notifyOne 0 none,
    .worker 0, .worker 0, .worker 0, .worker 0, .worker 0,
    .destructor, .worker 0, .worker 0, .worker 0]

theorem tasks_run_once_one_task :
    ∃ pool, (system 1).exec (new 1) oneTask = some pool ∧ (∀ w, pool.workers w = .exited) ∧
      pool.pushed = [0] ∧ ∀ c ∈ pool.pushed, c ∈ pool.finished := by
  have hrun : ((system 1).exec (new 1) oneTask).map (fun pool => (pool.workers 0, pool.pushed)) =
      some (.exited, [0]) := by
    decide +kernel
  obtain ⟨pool, hexec, hpool⟩ := Option.map_eq_some_iff.mp hrun
  obtain ⟨hexited, hpushed⟩ := Prod.mk.inj hpool
  have hall : ∀ w, pool.workers w = .exited := fun w => Subsingleton.elim 0 w ▸ hexited
  have hreachable := Transition.System.reachable_of_exec (S := system 1) rfl hexec
  exact ⟨pool, hexec, hall, hpushed,
    ((tasks_run_once Nat.one_pos hreachable).2.2.2.2 hall).1⟩

end Sok.ThreadPool
