import Sok.Epoll.Model

/-!
# At most one task per connection

`working_fds` is meant to keep a second task away from an fd: the main thread
enters the fd before it enqueues a task, and the task erases it as its last step.
The main thread also erases the fd when `client_map_port` has no entry for it,
and it does so even when it has just found the fd in the set, that is, when the
mark belongs to a task.

`NoStaleRelease` is the condition that this erase never removes a mark that was
there before.  Under it the mark of an fd has one owner at a time, a task or the
main thread (`Marked`), so no fd has two tasks.
-/

namespace Sok.EpollWorker

/-! ## Who owns a mark -/

/-- The fd whose mark the main thread has set and not yet handed to a task. -/
def MainPc.holds : MainPc → Option Fd
  | .checked fd false _ => some fd
  | .stale fd false _ => some fd
  | .looking fd _ => some fd
  | .enqueueing fd _ _ => some fd
  | _ => none

/-- The fd that the main thread is about to erase although it had found it in
`working_fds`. -/
def MainPc.skipped : MainPc → Option Fd
  | .stale fd true _ => some fd
  | _ => none

/-- The marks in `working_fds` have one owner each. -/
structure Marked (s : State) : Prop where
  task_marked : ∀ id t, s.tasks id = some t → s.workingFds t.fd = true
  task_unique : ∀ i j t u, s.tasks i = some t → s.tasks j = some u → t.fd = u.fd → i = j
  main_marked : ∀ fd, s.main.holds = some fd → s.workingFds fd = true
  main_unique : ∀ fd, s.main.holds = some fd → ∀ id t, s.tasks id = some t → t.fd ≠ fd

/-- No task has been lost or changed its fd. -/
def SameFds (s next : State) : Prop :=
  ∀ id t, next.tasks id = some t → ∃ u, s.tasks id = some u ∧ u.fd = t.fd

theorem sameFds_of_tasks_eq {s next : State} (h : next.tasks = s.tasks) : SameFds s next :=
  fun _ t ht => ⟨t, h ▸ ht, rfl⟩

theorem sameFds_setPc {s : State} {id : ℕ} {task : Task} (htask : s.tasks id = some task)
    (pc : TaskPc) : SameFds s (s.setPc id task pc) := by
  intro other t ht
  rcases State.tasks_setPc ht with ⟨rfl, rfl⟩ | ⟨-, ht⟩
  · exact ⟨task, htask, rfl⟩
  · exact ⟨t, ht, rfl⟩

/-- A step that leaves the fds of the tasks and the marks alone, and gives the
main thread no new mark, keeps the ownership. -/
theorem Marked.of_sameFds {s next : State} (hmarked : Marked s) (htasks : SameFds s next)
    (hworking : next.workingFds = s.workingFds)
    (hmain : ∀ fd, next.main.holds = some fd → s.main.holds = some fd) : Marked next where
  task_marked id t ht := by
    obtain ⟨u, hu, hfd⟩ := htasks id t ht
    rw [hworking, ← hfd]
    exact hmarked.task_marked id u hu
  task_unique i j t u ht hu hfd := by
    obtain ⟨t', ht', hfdt⟩ := htasks i t ht
    obtain ⟨u', hu', hfdu⟩ := htasks j u hu
    exact hmarked.task_unique i j t' u' ht' hu' (by rw [hfdt, hfdu, hfd])
  main_marked fd hfd := hworking ▸ hmarked.main_marked fd (hmain fd hfd)
  main_unique fd hfd id t ht := by
    obtain ⟨u, hu, hfdu⟩ := htasks id t ht
    exact hfdu ▸ hmarked.main_unique fd (hmain fd hfd) id u hu

theorem marked_start : Marked start where
  task_marked _ _ h := absurd h (by simp [start])
  task_unique _ _ _ _ h := absurd h (by simp [start])
  main_marked _ h := absurd h (by simp [start, MainPc.holds])
  main_unique _ h := absurd h (by simp [start, MainPc.holds])

/-! ## The condition -/

/-- When the main thread erases an fd it had found in `working_fds`, the task has
already erased it. -/
def NoStaleRelease (s : State) (a : Action) : Prop :=
  a = .eraseStale → ∀ fd ∈ s.main.skipped, s.workingFds fd = false

instance (s : State) (a : Action) : Decidable (NoStaleRelease s a) :=
  inferInstanceAs (Decidable (_ → _))

/-- The block on `working_fds`: the mark is new, or it belongs to someone else. -/
theorem Marked.check {s : State} (hmarked : Marked s) (fd : Fd) (rest : List Fd) :
    Marked { s with
      workingFds := Function.update s.workingFds fd true
      main := .checked fd (s.workingFds fd) rest } where
  task_marked id t ht := by
    by_cases hfd : t.fd = fd
    · simp [hfd]
    · simpa [Function.update_of_ne hfd] using hmarked.task_marked id t ht
  task_unique := hmarked.task_unique
  main_marked other hother := by
    cases hworking : s.workingFds fd with
    | true => simp [hworking, MainPc.holds] at hother
    | false =>
        obtain rfl : fd = other := by simpa [hworking, MainPc.holds] using hother
        simp
  main_unique other hother id t ht := by
    cases hworking : s.workingFds fd with
    | true => simp [hworking, MainPc.holds] at hother
    | false =>
        obtain rfl : fd = other := by simpa [hworking, MainPc.holds] using hother
        intro hfd
        have hmark := hmarked.task_marked id t ht
        rw [hfd, hworking] at hmark
        exact absurd hmark (by simp)

theorem Marked.eraseStale {s : State} (hmarked : Marked s) {fd : Fd} {skip : Bool}
    {rest : List Fd} (hguard : NoStaleRelease s .eraseStale)
    (hmain : s.main = .stale fd skip rest) :
    Marked { s with
      workingFds := Function.update s.workingFds fd false
      main := .events rest } where
  task_marked id t ht := by
    have hfd : t.fd ≠ fd := by
      cases skip with
      | false => exact hmarked.main_unique fd (by rw [hmain]; rfl) id t ht
      | true =>
          intro hfd
          have hmark := hmarked.task_marked id t ht
          rw [hfd, hguard rfl fd (by rw [hmain]; rfl)] at hmark
          exact absurd hmark (by simp)
    simpa [Function.update_of_ne hfd] using hmarked.task_marked id t ht
  task_unique := hmarked.task_unique
  main_marked _ h := absurd h (by simp [MainPc.holds])
  main_unique _ h := absurd h (by simp [MainPc.holds])

/-- The enqueue hands the mark of the main thread to the new task. -/
theorem Marked.enqueue {s : State} (hmarked : Marked s) {fd : Fd} {port : Port} {rest : List Fd}
    (hmain : s.main = .enqueueing fd port rest) :
    Marked { s with
      tasks := Function.update s.tasks s.nextTask (some ⟨fd, port, .queued⟩)
      nextTask := s.nextTask + 1
      main := .events rest } := by
  have hholds : s.main.holds = some fd := by rw [hmain]; rfl
  have hnew : ∀ id t, Function.update s.tasks s.nextTask (some ⟨fd, port, .queued⟩) id = some t →
      (id = s.nextTask ∧ t.fd = fd) ∨ (id ≠ s.nextTask ∧ s.tasks id = some t) := by
    intro id t ht
    by_cases hid : id = s.nextTask
    · subst hid
      rw [Function.update_self, Option.some.injEq] at ht
      exact Or.inl ⟨rfl, ht ▸ rfl⟩
    · rw [Function.update_of_ne hid] at ht
      exact Or.inr ⟨hid, ht⟩
  constructor
  case task_marked =>
    intro id t ht
    rcases hnew id t ht with ⟨-, hfd⟩ | ⟨-, ht⟩
    · rw [hfd]
      exact hmarked.main_marked fd hholds
    · exact hmarked.task_marked id t ht
  case task_unique =>
    intro i j t u ht hu hfd
    rcases hnew i t ht with ⟨hi, hti⟩ | ⟨-, ht⟩ <;> rcases hnew j u hu with ⟨hj, huj⟩ | ⟨-, hu⟩
    · rw [hi, hj]
    · exact absurd (hfd.symm.trans hti) (hmarked.main_unique fd hholds j u hu)
    · exact absurd (hfd.trans huj) (hmarked.main_unique fd hholds i t ht)
    · exact hmarked.task_unique i j t u ht hu hfd
  -- the main thread is between events
  case main_marked => exact fun _ h => absurd h (by simp [MainPc.holds])
  case main_unique => exact fun _ h => absurd h (by simp [MainPc.holds])

/-- The final erase of a task removes the task and its mark together. -/
theorem Marked.release {s : State} (hmarked : Marked s) {id : ℕ} {task : Task}
    (htask : s.tasks id = some task) :
    Marked { s with
      tasks := Function.update s.tasks id none
      workingFds := Function.update s.workingFds task.fd false } := by
  have hold : ∀ other t, Function.update s.tasks id none other = some t →
      other ≠ id ∧ s.tasks other = some t := by
    intro other t ht
    by_cases hid : other = id
    · simp [hid] at ht
    · exact ⟨hid, by rwa [Function.update_of_ne hid] at ht⟩
  constructor
  case task_marked =>
    intro other t ht
    obtain ⟨hne, ht⟩ := hold other t ht
    have hfd : t.fd ≠ task.fd := by
      intro hfd
      exact hne (hmarked.task_unique other id t task ht htask hfd)
    simpa [Function.update_of_ne hfd] using hmarked.task_marked other t ht
  case task_unique =>
    intro i j t u ht hu hfd
    exact hmarked.task_unique i j t u (hold i t ht).2 (hold j u hu).2 hfd
  case main_marked =>
    intro fd hfd
    have hne : fd ≠ task.fd := (hmarked.main_unique fd hfd id task htask).symm
    simpa [Function.update_of_ne hne] using hmarked.main_marked fd hfd
  case main_unique =>
    intro fd hfd other t ht
    exact hmarked.main_unique fd hfd other t (hold other t ht).2

/-- Every step that meets the condition keeps the ownership of the marks. -/
theorem Marked.step {P : Params} {s next : State} {a : Action} (hguard : NoStaleRelease s a)
    (hstep : Step P s a next) (hmarked : Marked s) : Marked next := by
  cases hstep with
  -- the main thread ends up without a mark of its own
  | epollWait _ _ | acceptNone _ | accept _ _ _ | mapInsert _ | ctlAdd _ | findPortSkip _ _ =>
      exact hmarked.of_sameFds (sameFds_of_tasks_eq rfl) rfl (by simp [MainPc.holds])
  -- or keeps the one it has
  | @findPortMissing fd skip rest hmain _ =>
      refine hmarked.of_sameFds (sameFds_of_tasks_eq rfl) rfl fun other hother => ?_
      rw [hmain]
      cases skip <;> exact hother
  | findPort hmain _ | findPortAgain hmain _ | findPortGone hmain _ =>
      refine hmarked.of_sameFds (sameFds_of_tasks_eq rfl) rfl fun other hother => ?_
      rw [hmain]
      exact hother
  -- the steps on `working_fds`, and the one that hands a mark on
  | check _ => exact hmarked.check _ _
  | eraseStale hmain => exact hmarked.eraseStale hguard hmain
  | enqueue hmain => exact hmarked.enqueue hmain
  | release htask _ => exact hmarked.release htask
  -- the other steps of a task only move it on
  | begin htask _ | freeSsl htask _ =>
      exact hmarked.of_sameFds (sameFds_setPc htask _) rfl fun _ h => h
  | handle htask _ _ =>
      exact hmarked.of_sameFds (sameFds_setPc (s := s.setSocket _ _) htask _) rfl fun _ h => h
  | ctlDel htask _ =>
      exact hmarked.of_sameFds (sameFds_setPc (s := s.setRegistered _ _) htask _) rfl fun _ h => h
  | @close id task htask _ =>
      exact hmarked.of_sameFds
        (sameFds_setPc (s := { s with conns := Function.update s.conns task.fd none }) htask _) rfl
        fun _ h => h
  | @mapErase id task htask _ =>
      exact hmarked.of_sameFds
        (sameFds_setPc (s := { s with
          clientMapPort := Function.update s.clientMapPort task.fd none }) htask _) rfl fun _ h => h
  | arrive | hangup => exact hmarked.of_sameFds (sameFds_of_tasks_eq rfl) rfl fun _ h => h

theorem reachable_marked {P : Params} {s : State}
    (h : (system P).Reachable NoStaleRelease s) : Marked s :=
  h.invariant (fun _ hinit => hinit ▸ marked_start) fun _ _ _ hguard hstep =>
    Marked.step hguard (step_of_next hstep)

/-! ## One task per fd -/

/-- No fd has two tasks that have not reached their final erase. -/
def OneTaskPerFd (s : State) : Prop :=
  ∀ i j t u, s.tasks i = some t → s.tasks j = some u → t.fd = u.fd → i = j

/-- The main thread finds the mark of the first task, the task closes fd 5 and
erases its port, and the main thread then erases the mark.  The number is handed
out again and a second task takes it up; now the first task erases the mark as its
last step, and a third task is let in. -/
def staleReleaseRun : List Action :=
  acceptAs 5 ++ [.arrive 5 [71]] ++ enqueueFor 5 ++
    [.begin 0, .epollWait [5], .check, .handle 0 .drop [], .freeSsl 0, .ctlDel 0, .close 0,
      .mapErase 0, .findPort, .eraseStale] ++
    acceptAs 5 ++ [.arrive 5 [71]] ++ enqueueFor 5 ++
    [.begin 1, .release 0] ++ enqueueFor 5 ++ [.begin 2]

theorem staleReleaseRun_tasks :
    ((system oneSite).exec start staleReleaseRun).map (fun s => (s.tasks 1, s.tasks 2)) =
      some (some ⟨5, 8080, .running⟩, some ⟨5, 8080, .running⟩) := by
  decide +kernel

/-- Without the condition two workers come to run the handler on one fd. -/
theorem two_workers_after_stale_release :
    ¬ ∀ (P : Params) (s : State), (system P).Reachable Transition.anyStep s → OneTaskPerFd s := by
  intro h
  obtain ⟨s, hexec, htasks⟩ := Option.map_eq_some_iff.mp staleReleaseRun_tasks
  obtain ⟨hone, htwo⟩ := Prod.mk.inj htasks
  have hreach := Transition.System.reachable_of_exec (S := system oneSite) rfl hexec
  have hsame := h oneSite s hreach 1 2 _ _ hone htwo rfl
  omega

/-- A worker is between taking the task up and the final erase: it may be in the
handler, free the SSL object or close the fd. -/
def Task.Running (t : Task) : Prop :=
  t.pc ≠ .queued

/-- **At most one worker per connection.**  In every run in which the main thread
never erases the mark of a task, no fd has two tasks, and so no two workers run
the handler, `SSL_free` or `close` on one fd. -/
theorem one_worker_per_connection (P : Params) (s : State)
    (h : (system P).Reachable NoStaleRelease s) :
    OneTaskPerFd s ∧
      ∀ i j t u, s.tasks i = some t → s.tasks j = some u → t.Running → u.Running → i ≠ j →
        t.fd ≠ u.fd :=
  ⟨(reachable_marked h).task_unique, fun i j t u ht hu _ _ hne hfd =>
    hne ((reachable_marked h).task_unique i j t u ht hu hfd)⟩

/-- Two clients served side by side. -/
theorem one_worker_per_connection_two_clients :
    ∃ s, (system oneSite).exec start
        (acceptAs 5 ++ acceptAs 6 ++ [.arrive 5 [71], .arrive 6 [71]] ++ enqueueFor 5 ++
          enqueueFor 6 ++ [.begin 0, .begin 1]) = some s ∧
      s.tasks 0 = some ⟨5, 8080, .running⟩ ∧ s.tasks 1 = some ⟨6, 8080, .running⟩ ∧
      OneTaskPerFd s := by
  have hrun : ((system oneSite).exec start
      (acceptAs 5 ++ acceptAs 6 ++ [.arrive 5 [71], .arrive 6 [71]] ++ enqueueFor 5 ++
        enqueueFor 6 ++ [.begin 0, .begin 1])).map (fun s => (s.tasks 0, s.tasks 1)) =
      some (some ⟨5, 8080, .running⟩, some ⟨6, 8080, .running⟩) := by
    decide +kernel
  obtain ⟨s, hexec, htasks⟩ := Option.map_eq_some_iff.mp hrun
  obtain ⟨hzero, hone⟩ := Prod.mk.inj htasks
  refine ⟨s, hexec, hzero, hone, (one_worker_per_connection oneSite s ?_).1⟩
  exact (Transition.System.Reachable.initial rfl).exec (by decide +kernel) hexec

end Sok.EpollWorker
