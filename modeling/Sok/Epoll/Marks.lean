import Sok.Epoll.SingleWorker
import Sok.Foundation.Simulation

/-!
# No mark is left behind

An fd in `working_fds` is not taken up again.  In every interleaving, also in those in which the
main thread erases the mark of a task, a mark has an owner: a task that has the fd, or the main
thread at this fd (`Owned`).  A task has few steps to go.  It waits for a worker of the pool and
for its handler, which need not return; behind the handler nothing but a short section of the main
thread can hold it up.

A client that nobody works on is taken up by every round of the main thread whose batch has it.
From `epoll_wait` on the main thread has the client in sight (`Awaited`): its fd is open, so
`accept` does not return it; no task is on it, so nobody closes it or erases its entry, and nobody
but the main thread can mark it.  Every step keeps this or is the enqueue, and a main thread that
waits has nothing in sight.
-/

namespace Sok.EpollWorker

/-! ## Owners -/

/-- Every mark has an owner; the numbers of the tasks are not used again. -/
structure Owned (s : State) : Prop where
  fresh : ∀ id t, s.tasks id = some t → id < s.nextTask
  owner : ∀ fd, s.workingFds fd = true →
    (∃ id t, s.tasks id = some t ∧ t.fd = fd) ∨ s.main.holds = some fd

theorem owned_start : Owned start where
  fresh _ _ h := absurd h (by simp [start])
  owner _ h := absurd h (by simp [start])

/-- The tasks are those that there were, and have the fds they had. -/
structure SameTasks (s next : State) : Prop where
  nextTask : next.nextTask = s.nextTask
  back : SameFds s next
  forth : ∀ id t, s.tasks id = some t → ∃ u, next.tasks id = some u ∧ u.fd = t.fd

theorem sameTasks_of_tasks_eq {s next : State} (h : next.tasks = s.tasks)
    (hnext : next.nextTask = s.nextTask) : SameTasks s next where
  nextTask := hnext
  back := sameFds_of_tasks_eq h
  forth _ t ht := ⟨t, h ▸ ht, rfl⟩

theorem sameTasks_setPc {s base : State} (htasks : base.tasks = s.tasks)
    (hnext : base.nextTask = s.nextTask) {id : ℕ} {task : Task} (htask : s.tasks id = some task)
    (pc : TaskPc) : SameTasks s (base.setPc id task pc) where
  nextTask := hnext
  back other t ht := by
    rcases State.tasks_setPc ht with ⟨rfl, rfl⟩ | ⟨-, ht⟩
    · exact ⟨task, htask, rfl⟩
    · exact ⟨t, htasks ▸ ht, rfl⟩
  forth other t ht := by
    by_cases hid : other = id
    · subst hid
      obtain rfl := Option.some.inj (htask.symm.trans ht)
      exact ⟨_, State.tasks_setPc_self, rfl⟩
    · exact ⟨t, (State.tasks_setPc_of_ne hid).trans (htasks ▸ ht), rfl⟩

section

variable {P : Params} {s next : State}

/-- A step that leaves marks and tasks alone and takes no mark from the main thread. -/
theorem Owned.frame (h : Owned s) (htasks : SameTasks s next)
    (hworking : next.workingFds = s.workingFds)
    (hmain : ∀ fd, s.main.holds = some fd → next.main.holds = some fd) : Owned next where
  fresh id t ht := by
    obtain ⟨u, hu, -⟩ := htasks.back id t ht
    exact htasks.nextTask ▸ h.fresh id u hu
  owner fd hmark := by
    rw [hworking] at hmark
    rcases h.owner fd hmark with ⟨id, t, ht, hfd⟩ | hholds
    · obtain ⟨u, hu, hsame⟩ := htasks.forth id t ht
      exact Or.inl ⟨id, u, hu, hsame.trans hfd⟩
    · exact Or.inr (hmain fd hholds)

/-- The block on `working_fds` makes a mark of the main thread, or finds one. -/
theorem Owned.check (h : Owned s) {fd : Fd} {rest : List Fd} (hmain : s.main = .events (fd :: rest)) :
    Owned { s with
      workingFds := Function.update s.workingFds fd true
      main := .checked fd (s.workingFds fd) rest } where
  fresh := h.fresh
  owner other hmark := by
    have hnone : s.main.holds ≠ some other := by simp [hmain, MainPc.holds]
    by_cases hfd : other = fd
    · subst hfd
      cases hworking : s.workingFds other with
      | true => exact Or.inl ((h.owner other hworking).resolve_right hnone)
      | false => exact Or.inr rfl
    · have hold : s.workingFds other = true := by
        simpa [Function.update_of_ne hfd] using hmark
      exact Or.inl ((h.owner other hold).resolve_right hnone)

theorem Owned.eraseStale (h : Owned s) {fd : Fd} {skip : Bool} {rest : List Fd}
    (hmain : s.main = .stale fd skip rest) :
    Owned { s with
      workingFds := Function.update s.workingFds fd false
      main := .events rest } where
  fresh := h.fresh
  owner other hmark := by
    have hfd : other ≠ fd := by
      intro heq
      rw [heq] at hmark
      exact absurd hmark (by simp)
    have hold : s.workingFds other = true := by simpa [Function.update_of_ne hfd] using hmark
    refine Or.inl ((h.owner other hold).resolve_right fun hholds => hfd ?_)
    rw [hmain] at hholds
    cases skip with
    | true => exact absurd hholds (by simp [MainPc.holds])
    | false => exact (Option.some.inj hholds).symm

/-- The mark of the main thread becomes that of the new task. -/
theorem Owned.enqueue (h : Owned s) {fd : Fd} {port : Port} {rest : List Fd}
    (hmain : s.main = .enqueueing fd port rest) :
    Owned { s with
      tasks := Function.update s.tasks s.nextTask (some ⟨fd, port, .queued⟩)
      nextTask := s.nextTask + 1
      main := .events rest } where
  fresh id t ht := by
    by_cases hid : id = s.nextTask
    · exact hid ▸ Nat.lt_succ_self _
    · have hold : s.tasks id = some t := by simpa [Function.update_of_ne hid] using ht
      exact (h.fresh id t hold).trans (Nat.lt_succ_self _)
  owner other hmark := by
    rcases h.owner other hmark with ⟨id, t, ht, hfd⟩ | hholds
    · have hid : id ≠ s.nextTask := (h.fresh id t ht).ne
      exact Or.inl ⟨id, t, by simpa [Function.update_of_ne hid] using ht, hfd⟩
    · rw [hmain] at hholds
      exact Or.inl ⟨s.nextTask, _, Function.update_self .., Option.some.inj hholds⟩

theorem Owned.release (h : Owned s) {id : ℕ} {task : Task} (htask : s.tasks id = some task) :
    Owned { s with
      tasks := Function.update s.tasks id none
      workingFds := Function.update s.workingFds task.fd false } where
  fresh other t ht := by
    have hid : other ≠ id := by
      intro heq
      rw [heq] at ht
      simp at ht
    exact h.fresh other t (by simpa [Function.update_of_ne hid] using ht)
  owner fd hmark := by
    have hne : fd ≠ task.fd := by
      intro heq
      rw [heq] at hmark
      exact absurd hmark (by simp)
    have hold : s.workingFds fd = true := by simpa [Function.update_of_ne hne] using hmark
    rcases h.owner fd hold with ⟨other, t, ht, hfd⟩ | hholds
    · have hid : other ≠ id := by
        intro heq
        rw [heq] at ht
        exact hne (hfd.symm.trans (congrArg Task.fd (Option.some.inj (ht.symm.trans htask))))
      exact Or.inl ⟨other, t, by simpa [Function.update_of_ne hid] using ht, hfd⟩
    · exact Or.inr hholds

/-- Every step leaves every mark with an owner. -/
theorem Owned.step {a : Action} (hstep : Step P s a next) (h : Owned s) : Owned next := by
  cases hstep with
  -- the main thread has no mark before or after
  | epollWait hmain _ | acceptNone hmain | accept hmain _ _ | mapInsert hmain | ctlAdd hmain
  | findPortSkip hmain _ =>
      exact h.frame (sameTasks_of_tasks_eq rfl rfl) rfl (by simp [hmain, MainPc.holds])
  -- or keeps the one it has
  | @findPortMissing fd skip rest hmain _ =>
      refine h.frame (sameTasks_of_tasks_eq rfl rfl) rfl fun other hother => ?_
      rw [hmain] at hother
      cases skip <;> exact hother
  | findPort hmain _ | findPortAgain hmain _ | findPortGone hmain _ =>
      refine h.frame (sameTasks_of_tasks_eq rfl rfl) rfl fun other hother => ?_
      rw [hmain] at hother
      exact hother
  -- the steps on `working_fds`, and the one that hands a mark on
  | check hmain => exact h.check hmain
  | eraseStale hmain => exact h.eraseStale hmain
  | enqueue hmain => exact h.enqueue hmain
  | release htask _ => exact h.release htask
  -- the other steps of a task only move it on
  | begin htask _ | freeSsl htask _ | handle htask _ _ | ctlDel htask _ | close htask _
  | mapErase htask _ =>
      exact h.frame (sameTasks_setPc (by rfl) (by rfl) htask _) rfl fun _ h => h
  | arrive | hangup => exact h.frame (sameTasks_of_tasks_eq rfl rfl) rfl fun _ h => h

end

theorem owned_of_reachable {P : Params} {guard : State → Action → Prop} {s : State}
    (h : (system P).Reachable guard s) : Owned s := by
  refine h.invariant ?_ fun state a next _ hstep howned => howned.step (step_of_next hstep)
  intro state hinit
  obtain rfl : state = start := hinit
  exact owned_start

/-! ## The way of a task -/

/-- The task that makes the step. -/
def Action.task : Action → Option ℕ
  | .begin id => some id
  | .handle id _ _ => some id
  | .freeSsl id => some id
  | .ctlDel id => some id
  | .close id => some id
  | .mapErase id => some id
  | .release id => some id
  | _ => none

/-- The steps a task has left. -/
def TaskPc.left : TaskPc → ℕ
  | .queued => 7
  | .running => 6
  | .freeing => 5
  | .unregistering => 4
  | .closing => 3
  | .unmapping => 2
  | .releasing => 1

theorem TaskPc.left_le (pc : TaskPc) : pc.left ≤ 7 := by
  cases pc <;> simp [left]

/-- The steps left to the task with this number; it need not be there yet. -/
def taskLeft (id : ℕ) (s : State) : ℕ :=
  match s.tasks id with
  | some t => t.pc.left
  | none => if id < s.nextTask then 0 else 7

section

variable {P : Params} {s next : State}

theorem taskLeft_setPc {base : State} (htasks : base.tasks = s.tasks)
    (hnext : base.nextTask = s.nextTask) {id other : ℕ} {task : Task}
    (htask : s.tasks other = some task) {pc : TaskPc} (hless : pc.left < task.pc.left) :
    (if some other = some id then 1 else 0) + taskLeft id (base.setPc other task pc) ≤
      taskLeft id s := by
  unfold taskLeft
  by_cases hid : other = id
  · subst hid
    rw [State.tasks_setPc_self, htask, if_pos rfl]
    show 1 + pc.left ≤ task.pc.left
    omega
  · have hne : ¬ some other = some id := fun h => hid (Option.some.inj h)
    have hsame : (base.setPc other task pc).nextTask = s.nextTask := hnext
    rw [State.tasks_setPc_of_ne (Ne.symm hid), htasks, hsame, if_neg hne, Nat.zero_add]

theorem taskLeft_of_tasks_eq (htasks : next.tasks = s.tasks) (hnext : next.nextTask = s.nextTask)
    (id : ℕ) : 0 + taskLeft id next ≤ taskLeft id s := by
  unfold taskLeft
  rw [htasks, hnext, Nat.zero_add]

/-- Every step of a task is one less that it has left. -/
theorem taskLeft_step {a : Action} (h : Owned s) (hstep : Step P s a next) (id : ℕ) :
    (if a.task = some id then 1 else 0) + taskLeft id next ≤ taskLeft id s := by
  cases hstep with
  | @enqueue fd port rest hmain =>
      unfold taskLeft
      by_cases hid : id = s.nextTask
      · have hnone : s.tasks id = none := by
          cases htask : s.tasks id with
          | none => rfl
          | some t => exact absurd (h.fresh id t htask) (by omega)
        subst hid
        rw [hnone, if_neg (lt_irrefl _)]
        simp [TaskPc.left, Action.task]
      · simp only [Function.update_of_ne hid, Action.task]
        cases s.tasks id with
        | some t => simp
        | none =>
            simp only [reduceCtorEq, if_false, Nat.zero_add]
            split <;> split <;> omega
  | @release other task htask hpc =>
      unfold taskLeft
      by_cases hid : other = id
      · subst hid
        have hlt := h.fresh other task htask
        simp [Action.task, htask, hpc, hlt, TaskPc.left]
      · have hne : ¬ some other = some id := fun h => hid (Option.some.inj h)
        simp [Action.task, hid, Function.update_of_ne (Ne.symm hid)]
  | begin htask hpc | freeSsl htask hpc | ctlDel htask hpc | close htask hpc
  | mapErase htask hpc =>
      exact taskLeft_setPc (by rfl) (by rfl) htask (by simp [hpc, TaskPc.left])
  | @handle other task result unread htask hpc hread =>
      refine taskLeft_setPc (by rfl) (by rfl) htask ?_
      cases result <;> simp [hpc, TaskPc.left, HandlerResult.next]
  | epollWait | acceptNone | accept | mapInsert | ctlAdd | check | findPortMissing | findPortSkip
  | findPort | eraseStale | findPortAgain | findPortGone | arrive | hangup =>
      exact taskLeft_of_tasks_eq rfl rfl id

theorem isSome_onTask {id : ℕ} {pc : TaskPc} {f : Task → Option State} {t : Task}
    (ht : s.tasks id = some t) (hpc : t.pc = pc) (hf : (f t).isSome) :
    (s.onTask id pc f).isSome := by
  unfold State.onTask
  rw [ht]
  dsimp only
  rw [if_pos hpc]
  exact hf

/-- A worker of the pool has taken the task, and the handler has returned or thrown. -/
def TaskPc.handled : TaskPc → Bool
  | .queued => false
  | .running => false
  | _ => true

/-- Behind the handler a task can make its next step, unless the main thread is in the section in
which it erases a mark with the mutex of the map held; then the main thread can. -/
theorem task_goes_on {id : ℕ} {t : Task} (ht : s.tasks id = some t) (hpc : t.pc.handled = true) :
    (∃ a : Action, a.task = some id ∧ (EpollWorker.next P s a).isSome) ∨
      (EpollWorker.next P s .eraseStale).isSome := by
  cases hat : t.pc with
  | queued => exact absurd hpc (by simp [hat, TaskPc.handled])
  | running => exact absurd hpc (by simp [hat, TaskPc.handled])
  | freeing => exact Or.inl ⟨.freeSsl id, rfl, isSome_onTask ht hat rfl⟩
  | unregistering => exact Or.inl ⟨.ctlDel id, rfl, isSome_onTask ht hat rfl⟩
  | closing => exact Or.inl ⟨.close id, rfl, isSome_onTask ht hat rfl⟩
  | releasing => exact Or.inl ⟨.release id, rfl, isSome_onTask ht hat rfl⟩
  | unmapping =>
      cases hmain : s.main with
      | stale fd skip rest =>
          refine Or.inr ?_
          simp only [EpollWorker.next, hmain]
          rfl
      | events | accepted | mapped | checked | looking | enqueueing =>
          refine Or.inl ⟨.mapErase id, rfl, isSome_onTask ht hat ?_⟩
          rw [hmain]
          rfl

/-- **Marks are given back.**  In every interleaving every fd in `working_fds` belongs to a task or
to the main thread at this fd; a task makes at most seven steps, whatever the other parties do; and
once a worker has taken it and its handler has returned, it can always make the next one, but for a
section of the main thread that is one step long. -/
theorem marks_given_back (h : (system P).Reachable Transition.anyStep s) :
    (∀ fd, s.workingFds fd = true →
      (∃ id t, s.tasks id = some t ∧ t.fd = fd) ∨ s.main.holds = some fd) ∧
    ∀ id t, s.tasks id = some t →
      (∀ labels final, (system P).Run Transition.anyStep s labels final →
        labels.countP (fun a => a.task = some id) ≤ 7) ∧
      (t.pc.handled = true →
        (∃ a : Action, a.task = some id ∧ (EpollWorker.next P s a).isSome) ∨
          (EpollWorker.next P s .eraseStale).isSome) := by
  have howned := owned_of_reachable h
  refine ⟨howned.owner, fun id t ht => ⟨fun labels final hrun => ?_, task_goes_on ht⟩⟩
  have hlower : ∀ (state : State) (label : Action) (next : State), Owned state →
      Transition.anyStep state label → (system P).step state label = some next →
      Owned next ∧ (if decide (label.task = some id) then 1 else 0) + taskLeft id next ≤
        taskLeft id state := by
    intro state label next hinv _ hstep
    refine ⟨hinv.step (step_of_next hstep), ?_⟩
    simpa using taskLeft_step hinv (step_of_next hstep) id
  have hcount := hrun.countP_add_rank_le hlower howned
  have hseven : taskLeft id s ≤ 7 := by
    unfold taskLeft
    rw [ht]
    exact t.pc.left_le
  calc labels.countP (fun a => a.task = some id)
      ≤ labels.countP (fun a => a.task = some id) + taskLeft id final := Nat.le_add_right _ _
    _ ≤ taskLeft id s := hcount
    _ ≤ 7 := hseven

end

/-! ## A round of the main thread -/

/-- The main thread comes to the event of this fd in this round, or is at it, and has not skipped
it. -/
def MainPc.Brings (fd : Fd) (port : Port) : MainPc → Prop
  | .events batch => fd ∈ batch
  | .accepted new _ rest => new ≠ fd ∧ fd ∈ rest
  | .mapped _ rest => fd ∈ rest
  | .checked other skip rest => (other = fd ∧ skip = false) ∨ other ≠ fd ∧ fd ∈ rest
  | .stale other _ rest => other ≠ fd ∧ fd ∈ rest
  | .looking other rest => other = fd ∨ fd ∈ rest
  | .enqueueing other entry rest => (other = fd ∧ entry = port) ∨ other ≠ fd ∧ fd ∈ rest

/-- A client that the round will take up: open, with its entry, and nobody works on it. -/
structure Awaited (fd : Fd) (port : Port) (s : State) : Prop where
  owned : Owned s
  isOpen : s.conns fd ≠ none
  entry : s.clientMapPort fd = some port
  nobody : ∀ id t, s.tasks id = some t → t.fd ≠ fd
  brings : s.main.Brings fd port

section

variable {P : Params} {s next : State} {fd : Fd} {port : Port}

/-- Where the main thread has no mark of the fd, there is none. -/
theorem Awaited.unmarked (h : Awaited fd port s) (hmain : s.main.holds ≠ some fd) :
    s.workingFds fd = false := by
  by_contra hmark
  rw [Bool.not_eq_false] at hmark
  rcases h.owned.owner fd hmark with ⟨id, t, ht, hfd⟩ | hholds
  · exact h.nobody id t ht hfd
  · exact hmain hholds

theorem Awaited.frame {a : Action} (h : Awaited fd port s) (hstep : Step P s a next)
    (hopen : s.conns fd ≠ none → next.conns fd ≠ none)
    (hentry : next.clientMapPort fd = s.clientMapPort fd)
    (htasks : SameFds s next) (hbrings : next.main.Brings fd port) :
    Awaited fd port next where
  owned := h.owned.step hstep
  isOpen := hopen h.isOpen
  entry := hentry.trans h.entry
  nobody id t ht hfd := by
    obtain ⟨u, hu, hsame⟩ := htasks id t ht
    exact h.nobody id u hu (hsame.trans hfd)
  brings := hbrings

theorem conns_setSocket_ne_none {other : Fd} {f : Socket → Socket} (h : s.conns fd ≠ none) :
    (s.setSocket other f).conns fd ≠ none := by
  obtain ⟨c, hc⟩ := Option.ne_none_iff_exists'.mp h
  obtain ⟨d, hd, -⟩ := State.exists_conn_setSocket f hc
  rw [hd]
  exact Option.some_ne_none d

theorem conns_setRegistered_ne_none {other : Fd} {registered : Bool} (h : s.conns fd ≠ none) :
    (s.setRegistered other registered).conns fd ≠ none := by
  obtain ⟨c, hc⟩ := Option.ne_none_iff_exists'.mp h
  obtain ⟨d, hd, -⟩ := State.exists_conn_setRegistered registered hc
  rw [hd]
  exact Option.some_ne_none d

/-- No task is on this fd, so none closes it or erases its entry. -/
theorem Awaited.taskStep {a : Action} {worker : ℕ} (h : Awaited fd port s)
    (hstep : Step P s a next) (hworker : a.task = some worker) : Awaited fd port next := by
  have hstep' := hstep
  cases hstep with
  | begin htask _ | freeSsl htask _ =>
      exact h.frame hstep' id rfl (sameFds_setPc htask _) h.brings
  | @handle id task result unread htask _ _ =>
      refine h.frame hstep' (fun hopen => ?_) rfl (sameFds_setPc htask _) h.brings
      show (s.setSocket task.fd fun socket => { socket with unread := unread }).conns fd ≠ none
      exact conns_setSocket_ne_none hopen
  | @ctlDel id task htask _ =>
      refine h.frame hstep' (fun hopen => ?_) rfl (sameFds_setPc htask _) h.brings
      show (s.setRegistered task.fd false).conns fd ≠ none
      exact conns_setRegistered_ne_none hopen
  | @close id task htask _ =>
      have hne : fd ≠ task.fd := (h.nobody id task htask).symm
      refine h.frame hstep' (fun hopen => ?_) rfl (sameFds_setPc htask _) h.brings
      simp only [State.setPc, Function.update_of_ne hne]
      exact hopen
  | @mapErase id task htask _ =>
      have hne : fd ≠ task.fd := (h.nobody id task htask).symm
      exact h.frame hstep' (fun hopen => hopen) (Function.update_of_ne hne _ _)
        (sameFds_setPc htask _) h.brings
  | @release id task htask _ =>
      refine h.frame hstep' (fun hopen => hopen) rfl (fun other t ht => ?_) h.brings
      dsimp only at ht
      by_cases hid : other = id
      · rw [hid, Function.update_self] at ht
        exact absurd ht (by simp)
      · rw [Function.update_of_ne hid] at ht
        exact ⟨t, ht, rfl⟩
  | _ => exact absurd hworker (by simp [Action.task])

/-- The step that ends the wait of the client. -/
def TakesUp (fd : Fd) (port : Port) (s : State) (a : Action) : Prop :=
  a = .enqueue ∧ ∃ rest, s.main = .enqueueing fd port rest

/-- The main thread goes on with the client in sight, or takes it up. -/
theorem Awaited.step {a : Action} (h : Awaited fd port s) (hclient : fd ∉ P.listening.serverFds)
    (hstep : Step P s a next) : Awaited fd port next ∨ TakesUp fd port s a := by
  have hbrings := h.brings
  have hstep' := hstep
  cases hstep with
  -- the main thread, with an event of a listening socket
  | epollWait hmain _ =>
      rw [hmain] at hbrings
      exact absurd hbrings (by simp [MainPc.Brings])
  | @acceptNone other rest hmain hserver =>
      have hne : fd ≠ other := fun heq => hclient (heq ▸ hserver)
      rw [hmain] at hbrings
      refine Or.inl (h.frame hstep' id rfl (sameFds_of_tasks_eq rfl) ?_)
      exact (List.mem_cons.mp hbrings).resolve_left hne
  | @accept other new rest hmain hserver hunused =>
      have hne : fd ≠ other := fun heq => hclient (heq ▸ hserver)
      have hnew : new ≠ fd := fun heq => h.isOpen (heq ▸ hunused.1)
      rw [hmain] at hbrings
      refine Or.inl (h.frame hstep' (fun hopen => ?_) rfl (sameFds_of_tasks_eq rfl)
        ⟨hnew, (List.mem_cons.mp hbrings).resolve_left hne⟩)
      dsimp only
      rw [Function.update_of_ne hnew.symm]
      exact hopen
  | @mapInsert new listener rest hmain =>
      rw [hmain] at hbrings
      obtain ⟨hnew, hrest⟩ := hbrings
      exact Or.inl (h.frame hstep' id (Function.update_of_ne hnew.symm _ _)
        (sameFds_of_tasks_eq rfl) hrest)
  | ctlAdd hmain =>
      rw [hmain] at hbrings
      exact Or.inl (h.frame hstep' conns_setRegistered_ne_none rfl (sameFds_of_tasks_eq rfl) hbrings)
  -- with the event of a client: this one is not skipped, and its entry is found
  | @check other rest hmain =>
      rw [hmain] at hbrings
      refine Or.inl (h.frame hstep' id rfl (sameFds_of_tasks_eq rfl) ?_)
      by_cases hfd : other = fd
      · exact Or.inl ⟨hfd, hfd ▸ h.unmarked (by simp [hmain, MainPc.holds])⟩
      · exact Or.inr ⟨hfd, (List.mem_cons.mp hbrings).resolve_left (Ne.symm hfd)⟩
  | @findPortMissing other skip rest hmain hport =>
      rw [hmain] at hbrings
      have hfd : other ≠ fd := by
        rintro rfl
        exact absurd (h.entry.symm.trans hport) (by simp)
      refine Or.inl (h.frame hstep' id rfl (sameFds_of_tasks_eq rfl) ⟨hfd, ?_⟩)
      exact (hbrings.resolve_left fun hat => hfd hat.1).2
  | @findPortSkip other rest hmain hport =>
      rw [hmain] at hbrings
      refine Or.inl (h.frame hstep' id rfl (sameFds_of_tasks_eq rfl) ?_)
      exact (hbrings.resolve_left fun hat => absurd hat.2 (by simp)).2
  | @findPort other rest hmain hport =>
      rw [hmain] at hbrings
      refine Or.inl (h.frame hstep' id rfl (sameFds_of_tasks_eq rfl) ?_)
      exact hbrings.imp And.left And.right
  | @eraseStale other skip rest hmain =>
      rw [hmain] at hbrings
      exact Or.inl (h.frame hstep' id rfl (sameFds_of_tasks_eq rfl) hbrings.2)
  | @findPortAgain other entry rest hmain hport =>
      rw [hmain] at hbrings
      refine Or.inl (h.frame hstep' id rfl (sameFds_of_tasks_eq rfl) ?_)
      by_cases hfd : other = fd
      · subst hfd
        exact Or.inl ⟨rfl, Option.some.inj (hport.symm.trans h.entry)⟩
      · exact Or.inr ⟨hfd, hbrings.resolve_left hfd⟩
  | @findPortGone other rest hmain hport =>
      rw [hmain] at hbrings
      have hfd : other ≠ fd := by
        rintro rfl
        exact absurd (h.entry.symm.trans hport) (by simp)
      exact Or.inl (h.frame hstep' id rfl (sameFds_of_tasks_eq rfl)
        ⟨hfd, hbrings.resolve_left hfd⟩)
  | @enqueue other entry rest hmain =>
      rw [hmain] at hbrings
      rcases hbrings with ⟨rfl, rfl⟩ | ⟨hfd, hrest⟩
      · exact Or.inr ⟨rfl, rest, hmain⟩
      · refine Or.inl ⟨h.owned.step hstep', h.isOpen, h.entry, fun id t ht => ?_, hrest⟩
        dsimp only at ht
        by_cases hid : id = s.nextTask
        · rw [hid, Function.update_self] at ht
          obtain rfl := Option.some.inj ht
          exact hfd
        · rw [Function.update_of_ne hid] at ht
          exact h.nobody id t ht
  -- the tasks and the clients
  | begin | handle | freeSsl | ctlDel | close | mapErase | release =>
      exact Or.inl (h.taskStep hstep' rfl)
  | arrive | hangup =>
      exact Or.inl (h.frame hstep' conns_setSocket_ne_none rfl (sameFds_of_tasks_eq rfl) hbrings)

/-- **A readable client is taken up.**  In every round of the main thread whose batch has a client
with an entry in `client_map_port` on whose fd no task is left, a task for it is enqueued before
the main thread waits again: no interleaving before that leaves a mark that would keep it away,
and none of the round erases its entry. -/
theorem readable_is_enqueued (h : (system P).Reachable Transition.anyStep s) {batch : List Fd}
    (hbatch : fd ∈ batch) (hclient : fd ∉ P.listening.serverFds)
    (hport : s.clientMapPort fd = some port)
    (hnobody : ∀ id t, s.tasks id = some t → t.fd ≠ fd) {labels : List Action} {final : State}
    (hround : (system P).Run Transition.anyStep s (.epollWait batch :: labels) final)
    (hover : final.main = .events []) :
    ∃ front back middle taken, labels = front ++ .enqueue :: back ∧
      (system P).Run Transition.anyStep s (.epollWait batch :: front) middle ∧
      EpollWorker.next P middle .enqueue = some taken ∧
      taken.tasks middle.nextTask = some ⟨fd, port, .queued⟩ := by
  obtain ⟨first, -, hwait, hrun⟩ := hround.exists_of_cons
  have hstart : Step P s (.epollWait batch) first := step_of_next hwait
  have howned := (owned_of_reachable h).step hstart
  have hawaited : Awaited fd port first := by
    cases hstart with
    | epollWait hmain hready =>
        refine ⟨howned, ?_, hport, hnobody, hbatch⟩
        obtain ⟨c, hc, -⟩ := (hready fd hbatch).resolve_left hclient
        show s.conns fd ≠ none
        rw [hc]
        exact Option.some_ne_none c
  have hleft : ¬ Awaited fd port final := fun hfinal => by
    have hbrings := hfinal.brings
    rw [hover] at hbrings
    exact absurd hbrings (by simp [MainPc.Brings])
  obtain ⟨front, label, back, middle, hlabels, hfront, -, ⟨rfl, rest, hmain⟩, -⟩ :=
    hrun.exists_exit (fun _ _ _ hinv _ hstep => hinv.step hclient (step_of_next hstep))
      hawaited hleft
  have henqueue : EpollWorker.next P middle .enqueue = some { middle with
      tasks := Function.update middle.tasks middle.nextTask (some ⟨fd, port, .queued⟩)
      nextTask := middle.nextTask + 1
      main := .events rest } := by
    simp only [EpollWorker.next, hmain]
  exact ⟨front, back, middle, _, hlabels, hfront.cons trivial hwait, henqueue,
    Function.update_self ..⟩

end

/-- A client has sent a byte, and its first task is at work. -/
theorem marks_given_back_one_client :
    ∃ s, (system oneSite).exec start (acceptAs 5 ++ [.arrive 5 [71]] ++ enqueueFor 5) = some s ∧
      s.workingFds 5 = true ∧
      ((∃ id t, s.tasks id = some t ∧ t.fd = 5) ∨ s.main.holds = some 5) := by
  have hrun : ((system oneSite).exec start (acceptAs 5 ++ [.arrive 5 [71]] ++ enqueueFor 5)).map
      (fun s => s.workingFds 5) = some true := by
    decide +kernel
  obtain ⟨s, hexec, hmark⟩ := Option.map_eq_some_iff.mp hrun
  have hreach := Transition.System.reachable_of_exec (S := system oneSite) rfl hexec
  exact ⟨s, hexec, hmark, (marks_given_back hreach).1 5 hmark⟩

/-- The client sends again when its first task is done, and so does another one. -/
def sendsAgain : List Action :=
  acceptAs 5 ++ acceptAs 6 ++ [.arrive 5 [71]] ++ enqueueFor 5 ++
    [.begin 0, .handle 0 .keepAlive [], .release 0, .arrive 5 [72], .arrive 6 [71]]

/-- A round with the events of both, in which the task of the other one is at work. -/
def bothRound : List Action :=
  [.epollWait [6, 5], .check, .findPort, .findPortAgain, .enqueue, .begin 1, .check, .arrive 5 [73],
    .findPort, .handle 1 .drop [], .findPortAgain, .freeSsl 1, .enqueue]

theorem readable_is_enqueued_again :
    ∃ s final, (system oneSite).exec start sendsAgain = some s ∧
      (system oneSite).exec s bothRound = some final ∧
      ∃ front back middle taken, bothRound.tail = front ++ .enqueue :: back ∧
        (system oneSite).Run Transition.anyStep s (.epollWait [6, 5] :: front) middle ∧
        EpollWorker.next oneSite middle .enqueue = some taken ∧
        taken.tasks middle.nextTask = some ⟨5, 8080, .queued⟩ := by
  have hrun : ((system oneSite).exec start sendsAgain).map
      (fun s => (s.clientMapPort 5, s.nextTask, s.tasks 0,
        ((system oneSite).exec s bothRound).map State.main)) =
      some (some 8080, 1, none, some (.events [])) := by
    decide +kernel
  obtain ⟨s, hexec, hs⟩ := Option.map_eq_some_iff.mp hrun
  simp only [Prod.mk.injEq] at hs
  obtain ⟨hport, hnext, hnone, hround⟩ := hs
  obtain ⟨final, hfinal, hover⟩ := Option.map_eq_some_iff.mp hround
  have hreach := Transition.System.reachable_of_exec (S := system oneSite) rfl hexec
  have hnobody : ∀ id t, s.tasks id = some t → t.fd ≠ 5 := by
    intro id t ht
    have hfresh := (owned_of_reachable hreach).fresh id t ht
    obtain rfl : id = 0 := by omega
    exact absurd (ht.symm.trans hnone) (by simp)
  exact ⟨s, final, hexec, hfinal, readable_is_enqueued hreach (by decide) (by decide) hport hnobody
    ⟨Transition.System.permits_of_forall (fun _ _ _ => trivial) s, hfinal⟩ hover⟩

end Sok.EpollWorker
