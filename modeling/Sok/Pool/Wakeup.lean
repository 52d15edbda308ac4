import Sok.Pool.Execution

/-!
# Wake-ups of the thread pool

A task that is entered wakes a worker, or finds one that will look at the queue
before it blocks (`Served`).  The destructor has no such guarantee: `_stop` is
stored without the mutex, so `notify_all` can fall between a worker's look at the
predicate and its block.  When it does not (`NotifiesInTime`), no worker is left
waiting.

## Strategy

For tasks the invariant is that when one is queued somebody is up or about to be woken: a
worker outside its wait, or a call that has entered its task and not yet notified
(`Served`).  Only a worker that blocks could break it, and it has just seen an empty
queue under the mutex.

For the destructor the same holds but for one step, and the condition excludes exactly
that: `notify_all` while a worker stands between its look and its block.  When it comes
there, the state it leads to is the lost one (`stopLost_of_late`), so the condition is
also necessary.
-/

namespace Sok.ThreadPool

open Mutex (Guarded)

variable {n : ℕ} {pool next : ThreadPool n} {move : Move n}

/-! ## The two kinds of lost wake-up -/

/-- The destructor is past `notify_all`. -/
def DestructorPc.Notified : DestructorPc → Prop
  | .joining _ | .destroyed => True
  | _ => False

/-- The worker is blocked, or about to block. -/
def WorkerPc.Waiting : WorkerPc → Prop
  | .block | .blocked => True
  | _ => False

/-- The destructor is past `notify_all`, and a worker waits or is about to. -/
def StopLost (pool : ThreadPool n) : Prop :=
  pool.destructor.Notified ∧ ∃ w, (pool.workers w).Waiting

/-- There is a task, all workers are blocked, and no call is about to notify. -/
def TaskLost (pool : ThreadPool n) : Prop :=
  pool.tasks ≠ [] ∧ (∀ w, pool.workers w = .blocked) ∧ ∀ c, pool.calls c ≠ .notify

/-- When the destructor comes to `notify_all`, no worker is between its look at the
predicate and its block. -/
def NotifiesInTime (pool : ThreadPool n) : Move n → Prop
  | .destructor => pool.destructor = .stopped → ∀ w, pool.workers w ≠ .block
  | _ => True

instance (pool : ThreadPool n) : ∀ move, Decidable (NotifiesInTime pool move)
  | .destructor =>
      inferInstanceAs (Decidable (pool.destructor = .stopped → ∀ w, pool.workers w ≠ .block))
  | .worker _ => inferInstanceAs (Decidable True)
  | .spurious _ => inferInstanceAs (Decidable True)
  | .call _ => inferInstanceAs (Decidable True)
  | .notifyOne _ _ => inferInstanceAs (Decidable True)

/-! ## Tasks -/

/-- A task in the queue is about to be announced, or a worker is up. -/
def Served (pool : ThreadPool n) : Prop :=
  pool.tasks ≠ [] → (∃ c, pool.calls c = .notify) ∨ ∃ w, pool.workers w ≠ .blocked

theorem Served.not_taskLost (h : pool.Served) : ¬ TaskLost pool := by
  rintro ⟨htasks, hblocked, hnotify⟩
  rcases h htasks with ⟨c, hc⟩ | ⟨w, hw⟩
  · exact hnotify c hc
  · exact hw (hblocked w)

theorem Served.of_call (h : pool.Served) (htasks : next.tasks = pool.tasks)
    (hworkers : next.workers = pool.workers) {c : ℕ} {old pc : CallPc}
    (hcalls : next.calls = Function.update pool.calls c pc) (hpc : pool.calls c = old)
    (hold : old ≠ .notify) : next.Served := by
  intro hne
  rw [htasks] at hne
  rw [hworkers, hcalls]
  refine (h hne).imp_left ?_
  rintro ⟨d, hd⟩
  have hother : d ≠ c := fun heq => hold (hpc.symm.trans (heq ▸ hd))
  exact ⟨d, (Function.update_of_ne hother ..).trans hd⟩

theorem served_of_up {w : Fin n} {pc : WorkerPc}
    (hworkers : next.workers = Function.update pool.workers w pc) (hpc : pc ≠ .blocked) :
    next.Served := by
  intro _
  refine Or.inr ⟨w, ?_⟩
  rwa [hworkers, Function.update_self]

theorem served_step (hn : 0 < n) (hsound : pool.Sound) (h : pool.Served)
    (hs : Steps pool move next) : next.Served := by
  cases hs with
  | acquire | leaveWait | enterWait | spurious | exit | goOn | take | finish | notifyWorker =>
      exact served_of_up rfl (by simp)
  | @block w hpc =>
      -- the predicate was false, and the mutex kept the queue as it was
      have hseen := hsound.settled w
      rw [hpc] at hseen
      exact fun hne => absurd hseen hne
  | enter hpc | acquireCall hpc _ | refuse hpc _ | accept hpc _ =>
      exact h.of_call rfl rfl rfl hpc (by simp)
  | @push c hpc => exact fun _ => Or.inl ⟨c, Function.update_self ..⟩
  | notifyNobody _ hnobody => exact fun _ => Or.inr ⟨⟨0, hn⟩, hnobody _⟩
  | notifyAll =>
      refine fun _ => Or.inr ⟨⟨0, hn⟩, ?_⟩
      change wake _ ≠ _
      unfold wake
      split
      · simp
      · assumption
  | store | join => exact h

/-! ## The destructor -/

/-- `_stop` is stored before anything else, and behind `notify_all` nobody waits. -/
structure Released (pool : ThreadPool n) : Prop where
  stored : pool.destructor ≠ .alive → pool.stop = true
  nobody : pool.destructor.Notified → ∀ w, ¬ (pool.workers w).Waiting

theorem Released.of_worker (h : pool.Released) (hstop : next.stop = pool.stop)
    (hdestructor : next.destructor = pool.destructor) {w : Fin n} {pc : WorkerPc}
    (hworkers : next.workers = Function.update pool.workers w pc)
    (hpc : pool.destructor.Notified → ¬ pc.Waiting) : next.Released := by
  refine ⟨fun hne => ?_, fun hnotified v => ?_⟩
  · rw [hstop]
    exact h.stored (hdestructor ▸ hne)
  · rw [hdestructor] at hnotified
    rw [hworkers]
    by_cases heq : v = w
    · subst heq
      rw [Function.update_self]
      exact hpc hnotified
    · rw [Function.update_of_ne heq]
      exact h.nobody hnotified v

theorem released_step (h : pool.Released) (hs : Steps pool move next)
    (hguard : NotifiesInTime pool move) : next.Released := by
  cases hs with
  | acquire | leaveWait | spurious | exit | goOn | take | finish =>
      exact h.of_worker rfl rfl rfl fun _ => id
  | @enterWait w hpc hready =>
      refine h.of_worker rfl rfl rfl fun hnotified => ?_
      -- `_stop` was still false, so the destructor has not come to `notify_all`
      have halive : pool.destructor ≠ .alive := fun heq => by
        rw [heq] at hnotified
        exact hnotified
      have hstop := h.stored halive
      exact absurd hready (by simp [ready, hstop])
  | @block w hpc =>
      refine h.of_worker rfl rfl rfl fun hnotified => ?_
      have hwaiting := h.nobody hnotified w
      rw [hpc] at hwaiting
      exact absurd trivial hwaiting
  | notifyWorker =>
      exact @Released.of_worker _ pool _ h rfl rfl _ _ rfl fun _ => id
  | enter | acquireCall | refuse | accept | push | notifyNobody => exact ⟨h.stored, h.nobody⟩
  | store hdestructor => exact ⟨fun _ => rfl, fun hnotified => hnotified.elim⟩
  | notifyAll hdestructor =>
      refine ⟨fun _ => h.stored (by simp [hdestructor]), fun _ w => ?_⟩
      have hblock := hguard hdestructor w
      change ¬ (wake (pool.workers w)).Waiting
      unfold wake
      split
      · exact id
      · cases hpc : pool.workers w <;> simp_all [WorkerPc.Waiting]
  | @join k state hdestructor halive hstopped =>
      refine ⟨fun _ => h.stored (by simp [hdestructor]), fun _ w => ?_⟩
      exact h.nobody (by simp [hdestructor, DestructorPc.Notified]) w

/-- When `notify_all` comes too early, the worker about to block is not woken. -/
theorem stopLost_of_late (hs : Steps pool move next) (hlate : ¬ NotifiesInTime pool move) :
    StopLost next := by
  cases hs with
  | store hdestructor | join hdestructor =>
      exact absurd (fun heq => by simp [hdestructor] at heq) hlate
  | notifyAll hdestructor =>
      unfold NotifiesInTime at hlate
      push Not at hlate
      obtain ⟨-, w, hw⟩ := hlate
      refine ⟨trivial, w, ?_⟩
      change (wake (pool.workers w)).Waiting
      rw [hw]
      trivial
  | _ => exact absurd trivial hlate

/-! ## Every run -/

theorem served_of_reachable {guard : ThreadPool n → Move n → Prop} (hn : 0 < n)
    (h : (system n).Reachable guard pool) : pool.Served := by
  have hboth : pool.Sound ∧ pool.Served := by
    refine @Transition.System.Reachable.invariant _ _ (system n) guard
      (fun pool => pool.Sound ∧ pool.Served) ?_ ?_ _ h
    · rintro _ rfl
      exact ⟨sound_new n, fun hne => absurd rfl hne⟩
    · rintro pool move next _ hstep ⟨hsound, hserved⟩
      have hs := steps_of_step hstep
      exact ⟨hsound.step hs, served_step hn hsound hserved hs⟩
  exact hboth.2

theorem released_of_reachable {guard : ThreadPool n → Move n → Prop}
    (hguard : ∀ pool move, guard pool move → NotifiesInTime pool move)
    (h : (system n).Reachable guard pool) : pool.Released := by
  refine h.invariant ?_ ?_
  · rintro _ rfl
    exact ⟨fun hne => absurd rfl hne, fun hnotified => hnotified.elim⟩
  · intro pool move next hmove hstep hpool
    exact released_step hpool (steps_of_step hstep) (hguard pool move hmove)

/-- **No lost wake-up.**  In every interleaving of a pool with a worker no task is
lost.  As long as `notify_all` comes in time no worker misses it, and a step at which
it does not leaves a worker waiting for ever. -/
theorem no_lost_wakeup {guard : ThreadPool n → Move n → Prop}
    (h : (system n).Reachable guard pool) :
    (0 < n → ¬ TaskLost pool) ∧
      ((∀ pool move, guard pool move → NotifiesInTime pool move) → ¬ StopLost pool) ∧
      ∀ move next, pool.step move = some next → ¬ NotifiesInTime pool move → StopLost next := by
  refine ⟨fun hn => (served_of_reachable hn h).not_taskLost, fun hguard => ?_,
    fun move next hstep => stopLost_of_late (steps_of_step hstep)⟩
  rintro ⟨hnotified, w, hwaiting⟩
  exact (released_of_reachable hguard h).nobody hnotified w hwaiting

/-- The only worker of a pool moves. -/
def work : Move 1 := .worker ⟨0, Nat.one_pos⟩

/-- The worker is blocked when the pool is stopped, wakes up and leaves. -/
def stoppedInTime : List (Move 1) :=
  [work, work, work, .destructor, .destructor, work, work, work, .destructor, .destructor]

theorem no_lost_wakeup_in_time :
    ∃ pool, (system 1).exec (new 1) stoppedInTime = some pool ∧
      pool.destructor = .destroyed ∧ ¬ StopLost pool := by
  have hrun : ((system 1).exec (new 1) stoppedInTime).map destructor = some .destroyed := by
    decide +kernel
  obtain ⟨pool, hexec, hdestroyed⟩ := Option.map_eq_some_iff.mp hrun
  have hreachable : (system 1).Reachable NotifiesInTime pool :=
    (Transition.System.Reachable.initial rfl).exec (by decide +kernel) hexec
  exact ⟨pool, hexec, hdestroyed, (no_lost_wakeup hreachable).2.1 fun _ _ => id⟩

/-- The worker finds the predicate false, the destructor stores `_stop` and notifies,
and only then the worker blocks: the destructor waits for it for ever. -/
theorem worker_misses_stop :
    ∃ pool, (system 1).Reachable Transition.anyStep pool ∧ StopLost pool := by
  have hrun : ((system 1).exec (new 1)
      [work, work, .destructor, .destructor, work]).map
      (fun pool => (pool.destructor, pool.workers 0)) = some (.joining 0, .blocked) := by
    decide +kernel
  obtain ⟨pool, hexec, hpool⟩ := Option.map_eq_some_iff.mp hrun
  obtain ⟨hdestructor, hblocked⟩ := Prod.mk.inj hpool
  refine ⟨pool, Transition.System.reachable_of_exec rfl hexec, ?_, 0, ?_⟩
  · rw [hdestructor]
    trivial
  · rw [hblocked]
    trivial

end Sok.ThreadPool
