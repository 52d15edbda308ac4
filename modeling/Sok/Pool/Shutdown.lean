import Mathlib.Algebra.Order.BigOperators.Group.Finset
import Mathlib.Data.Fintype.BigOperators
import Sok.Foundation.Simulation
import Sok.Pool.Wakeup

/-!
# The destructor ends

When `_stop` is stored, the workers have a bounded number of steps to go, also where blocked ones
wake up spuriously: each finds the predicate true and leaves or takes one of the tasks that are
left (`rank`).  As long as `notify_all` comes in time somebody can always go on, so the
destructor returns; then all workers have left and every task has been run.
-/

namespace Sok.ThreadPool

open scoped BigOperators
open Mutex (Guarded)

variable {n : ℕ} {pool next : ThreadPool n} {move : Move n}

/-! ## What is left to do -/

/-- The steps a worker has left behind the store to `_stop`, up to its next task. -/
def WorkerPc.left : WorkerPc → ℕ
  | .block => 6
  | .blocked => 5
  | .running _ => 5
  | .lock => 4
  | .woken => 4
  | .check => 3
  | .test => 2
  | .pop => 1
  | .exited => 0

/-- The steps the destructor has left. -/
def DestructorPc.left (n : ℕ) : DestructorPc → ℕ
  | .alive => n + 3
  | .stopped => n + 2
  | .joining k => n - k + 1
  | .destroyed => 0

/-- The call that has found `_stop` false and is about to enter its task: it has the mutex. -/
def entering (pool : ThreadPool n) : ℕ :=
  match pool.mutex with
  | some (.call c) => if pool.calls c = .push then 1 else 0
  | _ => 0

/-- The steps that the workers and the destructor have left behind the store to `_stop`. -/
def rank (pool : ThreadPool n) : ℕ :=
  ∑ w, (pool.workers w).left + 5 * (pool.tasks.length + pool.entering) + pool.destructor.left n

/-- The steps of the workers, also those they make when they wake up spuriously, and of the
destructor. -/
def internal : Move n → Bool
  | .worker _ => true
  | .spurious _ => true
  | .destructor => true
  | .call _ => false
  | .notifyOne _ _ => false

/-- One worker goes on, the others have as much left as before. -/
theorem sum_left_update (workers : Fin n → WorkerPc) (w : Fin n) (pc : WorkerPc) :
    ∑ v, (Function.update workers w pc v).left + (workers w).left =
      ∑ v, (workers v).left + pc.left := by
  have hupdate : (fun v => (Function.update workers w pc v).left) =
      Function.update (fun v => (workers v).left) w pc.left := by
    funext v
    by_cases heq : v = w
    · subst heq
      rw [Function.update_self, Function.update_self]
    · rw [Function.update_of_ne heq, Function.update_of_ne heq]
  calc ∑ v, (Function.update workers w pc v).left + (workers w).left
      = pc.left + ∑ v ∈ Finset.univ \ {w}, (workers v).left + (workers w).left := by
        rw [hupdate, Finset.sum_update_of_mem (Finset.mem_univ w)]
    _ = pc.left + ∑ v, (workers v).left := by
        rw [Nat.add_assoc, Finset.sdiff_singleton_eq_erase,
          Finset.sum_erase_add _ _ (Finset.mem_univ w)]
    _ = ∑ v, (workers v).left + pc.left := Nat.add_comm _ _

theorem sum_left_wake (workers : Fin n → WorkerPc) :
    ∑ v, (wake (workers v)).left ≤ ∑ v, (workers v).left := by
  refine Finset.sum_le_sum fun v _ => ?_
  unfold wake
  split
  · next hblocked =>
      rw [hblocked]
      exact Nat.le_succ 4
  · exact le_rfl

theorem entering_call {c : ℕ} {pc : CallPc} (hold : pool.calls c ≠ .push) (hpc : pc ≠ .push) :
    (pool.call c pc).entering = pool.entering := by
  unfold entering call
  dsimp only
  split
  · next d _ =>
      by_cases heq : d = c
      · subst heq
        simp only [Function.update_self, if_neg hpc, if_neg hold]
      · simp only [Function.update_of_ne heq]
  · rfl

/-! ## One step -/

theorem joined_of_step {k : ℕ} (hjoining : pool.destructor = .joining k)
    (hstep : pool.step .destructor = some next) :
    (∃ hk : k < n, pool.workers ⟨k, hk⟩ = .exited ∧
      next = { pool with destructor := .joining (k + 1) }) ∨
    (n ≤ k ∧ next = { pool with destructor := .destroyed }) := by
  have hstep : pool.destructorStep = some next := hstep
  unfold destructorStep at hstep
  rw [hjoining] at hstep
  dsimp only at hstep
  split at hstep
  · next hk =>
      obtain ⟨hexited, heq⟩ := Option.ite_none_right_eq_some.mp hstep
      exact Or.inl ⟨hk, hexited, (Option.some.inj heq).symm⟩
  · next hk => exact Or.inr ⟨not_lt.mp hk, (Option.some.inj hstep).symm⟩

/-- A worker goes on, to a place with less to do; the queue may become shorter for it. -/
theorem rank_of_worker {w : Fin n} {pc : WorkerPc}
    (hworkers : next.workers = Function.update pool.workers w pc)
    (hdestructor : next.destructor = pool.destructor) (hentering : next.entering ≤ pool.entering)
    (hless : 1 + pc.left + 5 * next.tasks.length ≤
      (pool.workers w).left + 5 * pool.tasks.length) :
    1 + next.rank ≤ pool.rank := by
  have hsum := sum_left_update pool.workers w pc
  unfold rank
  rw [hworkers, hdestructor]
  omega

theorem rank_of_call (hworkers : next.workers = pool.workers)
    (hdestructor : next.destructor = pool.destructor)
    (hentering : next.tasks.length + next.entering ≤ pool.tasks.length + pool.entering) :
    next.rank ≤ pool.rank := by
  unfold rank
  rw [hworkers, hdestructor]
  omega

theorem rank_of_destructor
    (hworkers : ∑ w, (next.workers w).left ≤ ∑ w, (pool.workers w).left)
    (htasks : next.tasks = pool.tasks) (hentering : next.entering = pool.entering)
    (hless : 1 + next.destructor.left n ≤ pool.destructor.left n) : 1 + next.rank ≤ pool.rank := by
  unfold rank
  rw [htasks, hentering]
  omega

/-- Behind the store to `_stop` every step of a worker or of the destructor leaves less to do, and
no step of a call leaves more. -/
theorem rank_step (h : pool.Sound) (hstop : pool.stop = true) (hdestructor : pool.destructor ≠ .alive)
    (hstep : pool.step move = some next) :
    (if internal move then 1 else 0) + next.rank ≤ pool.rank := by
  cases steps_of_step hstep with
  | @acquire w hpc hfree =>
      refine rank_of_worker rfl rfl (Nat.zero_le _) ?_
      rcases hpc with hpc | hpc
      all_goals
        rw [hpc]
        exact le_rfl
  | @leaveWait w hpc _ => exact rank_of_worker rfl rfl le_rfl (by rw [hpc]; exact le_rfl)
  | @enterWait w hpc hready =>
      unfold ready at hready
      rw [hstop] at hready
      exact absurd hready (by simp)
  | @block w hpc => exact rank_of_worker rfl rfl (Nat.zero_le _) (by rw [hpc]; exact le_rfl)
  | @spurious w hpc => exact rank_of_worker rfl rfl le_rfl (by rw [hpc]; exact le_rfl)
  | @exit w hpc _ _ =>
      refine rank_of_worker rfl rfl (Nat.zero_le _) ?_
      rw [hpc]
      exact Nat.add_le_add_right (Nat.le_succ 1) _
  | @goOn w hpc _ => exact rank_of_worker rfl rfl le_rfl (by rw [hpc]; exact le_rfl)
  | @take w task rest hpc htasks =>
      refine rank_of_worker rfl rfl (Nat.zero_le _) ?_
      rw [hpc, htasks, List.length_cons]
      show 1 + 5 + 5 * rest.length ≤ 1 + 5 * (rest.length + 1)
      omega
  | @finish w task hpc => exact rank_of_worker rfl rfl le_rfl (by rw [hpc]; exact le_rfl)
  | @enter c hpc =>
      refine (Nat.zero_add _).trans_le (rank_of_call rfl rfl (Nat.add_le_add_left (le_of_eq ?_) _))
      exact entering_call (by simp [hpc]) (by simp)
  | @acquireCall c hpc hfree =>
      refine (Nat.zero_add _).trans_le (rank_of_call rfl rfl (Nat.add_le_add_left ?_ _))
      simp [entering, call]
  | @refuse c hpc _ =>
      exact (Nat.zero_add _).trans_le
        (rank_of_call rfl rfl (Nat.add_le_add_left (Nat.zero_le _) _))
  | @accept c hpc hfalse =>
      rw [hstop] at hfalse
      exact absurd hfalse (by simp)
  | @push c hpc =>
      refine (Nat.zero_add _).trans_le (rank_of_call rfl rfl ?_)
      have hinside : pool.Inside (.call c) := by simp [Inside, hpc, CallPc.Inside]
      have hone : pool.entering = 1 := by
        unfold entering
        rw [(h.guarded (.call c)).mp hinside]
        exact if_pos hpc
      rw [hone]
      show (pool.tasks ++ [c]).length + 0 ≤ pool.tasks.length + 1
      rw [List.length_append, List.length_singleton]
  | @notifyWorker c w hpc hblocked =>
      have hcall : ((pool.worker w .woken).call c .returned).entering =
          (pool.worker w .woken).entering :=
        entering_call (by simp [worker, hpc]) (by simp)
      have hless : 1 + ((pool.worker w .woken).call c .returned).rank ≤ pool.rank :=
        rank_of_worker rfl rfl hcall.le (by rw [hblocked]; exact le_rfl)
      show 0 + _ ≤ _
      omega
  | @notifyNobody c hpc _ =>
      refine (Nat.zero_add _).trans_le (rank_of_call rfl rfl (Nat.add_le_add_left (le_of_eq ?_) _))
      exact entering_call (by simp [hpc]) (by simp)
  | store halive => exact absurd halive hdestructor
  | notifyAll hstopped =>
      refine rank_of_destructor (sum_left_wake pool.workers) rfl rfl ?_
      rw [hstopped]
      show 1 + (n - 0 + 1) ≤ n + 2
      omega
  | @join k d hjoining _ _ =>
      refine rank_of_destructor le_rfl rfl rfl ?_
      rw [hjoining]
      obtain ⟨hk, -, hnext⟩ | ⟨-, hnext⟩ := joined_of_step hjoining hstep
      · obtain rfl : d = .joining (k + 1) := congrArg destructor hnext
        show 1 + (n - (k + 1) + 1) ≤ n - k + 1
        omega
      · obtain rfl : d = .destroyed := congrArg destructor hnext
        exact Nat.le_add_left 1 (n - k)

/-! ## Somebody can go on -/

/-- Once it is stored, `_stop` stays, and the destructor waits for the workers in turn. -/
structure Joining (pool : ThreadPool n) : Prop where
  stored : pool.destructor ≠ .alive → pool.stop = true
  joined : ∀ k, pool.destructor = .joining k → ∀ w : Fin n, w < k → pool.workers w = .exited
  all : pool.destructor = .destroyed → ∀ w, pool.workers w = .exited

theorem joining_new (n : ℕ) : Joining (new n) where
  stored hne := absurd rfl hne
  joined k h := absurd h (by simp [new])
  all h := absurd h (by simp [new])

/-- Only the destructor stores `_stop` and goes on in its own code. -/
theorem destructor_of_steps (hs : Steps pool move next) (hmove : move ≠ .destructor) :
    next.destructor = pool.destructor ∧ next.stop = pool.stop := by
  cases hs <;> first | exact ⟨rfl, rfl⟩ | exact absurd rfl hmove

/-- A worker that has been joined stays away. -/
theorem Joining.of_other (h : Joining pool) (hdestructor : next.destructor = pool.destructor)
    (hstop : next.stop = pool.stop)
    (hexited : ∀ w, pool.workers w = .exited → next.workers w = .exited) : Joining next where
  stored hne := hstop.trans (h.stored (hdestructor ▸ hne))
  joined k hk w hw := hexited w (h.joined k (hdestructor ▸ hk) w hw)
  all hk w := hexited w (h.all (hdestructor ▸ hk) w)

theorem Joining.step (h : Joining pool) (hsound : pool.Sound)
    (hstep : pool.step move = some next) : Joining next := by
  have hs := steps_of_step hstep
  by_cases hmove : move = .destructor
  · subst hmove
    cases hs with
    | store _ =>
        refine ⟨fun _ => rfl, fun k hk => absurd hk (by simp), fun hk => absurd hk (by simp)⟩
    | notifyAll hstopped =>
        refine ⟨fun _ => h.stored (by simp [hstopped]), fun k hk w hw => ?_,
          fun hk => absurd hk (by simp)⟩
        obtain rfl := DestructorPc.joining.inj hk
        exact absurd hw (Nat.not_lt_zero _)
    | @join k d hjoining _ _ =>
        have hstored := h.stored (by simp [hjoining])
        have hjoined := h.joined k hjoining
        obtain ⟨hk, hexited, hnext⟩ | ⟨hle, hnext⟩ := joined_of_step hjoining hstep
        · rw [hnext]
          refine ⟨fun _ => hstored, fun k' hk' w hw => ?_, fun hk' => absurd hk' (by simp)⟩
          obtain rfl := DestructorPc.joining.inj hk'
          rcases Nat.lt_succ_iff_lt_or_eq.mp hw with hlt | heq
          · exact hjoined w hlt
          · obtain rfl : w = ⟨k, hk⟩ := Fin.ext heq
            exact hexited
        · rw [hnext]
          refine ⟨fun _ => hstored, fun k' hk' => absurd hk' (by simp), fun _ w => ?_⟩
          exact hjoined w (w.isLt.trans_le hle)
  · obtain ⟨hdestructor, hstop⟩ := destructor_of_steps hs hmove
    exact h.of_other hdestructor hstop fun w hw => (hsound.pushed_step hs hw).2

theorem exists_workerStep (h : pool.Sound) {w : Fin n} (hinside : pool.Inside (.worker w)) :
    (pool.step (.worker w)).isSome := by
  have hseen := h.settled w
  show (pool.workerStep w).isSome
  unfold workerStep
  cases hpc : pool.workers w with
  | check => rfl
  | block => rfl
  | test =>
      dsimp only
      split <;> rfl
  | pop =>
      rw [hpc] at hseen
      cases htasks : pool.tasks with
      | nil => exact absurd htasks hseen
      | cons task rest => rfl
  | lock | blocked | woken | running | exited =>
      have hinside : (pool.workers w).Inside := hinside
      rw [hpc] at hinside
      exact hinside.elim

theorem exists_callStep {c : ℕ} (hinside : pool.Inside (.call c)) :
    (pool.step (.call c)).isSome := by
  show (pool.callStep c).isSome
  unfold callStep
  cases hpc : pool.calls c with
  | check =>
      dsimp only
      split <;> rfl
  | push => rfl
  | idle | lock | notify | returned | threw =>
      have hinside : (pool.calls c).Inside := hinside
      rw [hpc] at hinside
      exact hinside.elim

/-- Somebody can go on who holds up the destructor: it, a worker, or a call with the mutex. -/
def CanGoOn (pool : ThreadPool n) : Prop :=
  (pool.step .destructor).isSome ∨ (∃ w, (pool.step (.worker w)).isSome) ∨
    ∃ c, pool.Inside (.call c) ∧ (pool.step (.call c)).isSome

/-- Whoever has the mutex can go on, and if nobody has it, who waits for it can. -/
theorem canGoOn_of_lock (h : pool.Sound) {w : Fin n}
    (hpc : pool.workers w = .lock ∨ pool.workers w = .woken) : pool.CanGoOn := by
  cases howner : pool.mutex with
  | none =>
      refine Or.inr (Or.inl ⟨w, ?_⟩)
      show (pool.workerStep w).isSome
      unfold workerStep
      rcases hpc with hpc | hpc
      all_goals
        rw [hpc]
        dsimp only
        rw [if_pos howner]
        rfl
  | some owner =>
      have hinside := (h.guarded owner).mpr howner
      cases owner with
      | worker v => exact Or.inr (Or.inl ⟨v, exists_workerStep h hinside⟩)
      | call c => exact Or.inr (Or.inr ⟨c, hinside, exists_callStep hinside⟩)

/-- Until it has returned the destructor waits for nobody who cannot go on. -/
theorem canGoOn (h : pool.Sound) (hreleased : pool.Released) (halive : pool.destructor ≠ .alive)
    (hthere : pool.destructor ≠ .destroyed) : pool.CanGoOn := by
  have hdestructor : (pool.destructorStep).isSome → pool.CanGoOn := Or.inl
  cases hd : pool.destructor with
  | alive => exact absurd hd halive
  | destroyed => exact absurd hd hthere
  | stopped =>
      apply hdestructor
      unfold destructorStep
      rw [hd]
      rfl
  | joining k =>
      by_cases hk : k < n
      · cases hpc : pool.workers ⟨k, hk⟩ with
        | lock => exact canGoOn_of_lock h (Or.inl hpc)
        | woken => exact canGoOn_of_lock h (Or.inr hpc)
        | check | block | test | pop =>
            refine Or.inr (Or.inl ⟨⟨k, hk⟩, exists_workerStep h ?_⟩)
            show (pool.workers ⟨k, hk⟩).Inside
            rw [hpc]
            trivial
        | running task =>
            refine Or.inr (Or.inl ⟨⟨k, hk⟩, ?_⟩)
            show (pool.workerStep _).isSome
            unfold workerStep
            rw [hpc]
            rfl
        | blocked =>
            have hnobody := hreleased.nobody (by rw [hd]; trivial) ⟨k, hk⟩
            rw [hpc] at hnobody
            exact absurd trivial hnobody
        | exited =>
            apply hdestructor
            unfold destructorStep
            rw [hd]
            dsimp only
            rw [dif_pos hk, if_pos hpc]
            rfl
      · apply hdestructor
        unfold destructorStep
        rw [hd]
        dsimp only
        rw [dif_neg hk]
        rfl

/-! ## Every run -/

theorem joining_of_reachable {guard : ThreadPool n → Move n → Prop}
    (h : (system n).Reachable guard pool) : pool.Sound ∧ Joining pool := by
  refine @Transition.System.Reachable.invariant _ _ (system n) guard
    (fun pool => pool.Sound ∧ Joining pool) ?_ ?_ _ h
  · intro pool hinit
    obtain rfl : pool = new n := hinit
    exact ⟨sound_new n, joining_new n⟩
  · intro pool move next _ hstep hboth
    exact ⟨hboth.1.step (steps_of_step hstep), hboth.2.step hboth.1 hstep⟩

/-- Between the store to `_stop` and the end. -/
structure Stopping (pool : ThreadPool n) : Prop where
  sound : pool.Sound
  joining : Joining pool
  behind : pool.destructor ≠ .alive

theorem Stopping.step (h : Stopping pool) (hstep : pool.step move = some next) : Stopping next := by
  have hs := steps_of_step hstep
  refine ⟨h.sound.step hs, h.joining.step h.sound hstep, ?_⟩
  cases hs with
  | store hstore => exact absurd hstore h.behind
  | notifyAll _ => simp
  | join _ hne _ => exact hne
  | _ => exact h.behind

theorem rank_le (pool : ThreadPool n) : pool.rank ≤ 7 * n + 5 * pool.tasks.length + 8 := by
  have hworkers : ∑ w, (pool.workers w).left ≤ 6 * n := by
    calc ∑ w, (pool.workers w).left ≤ ∑ _w : Fin n, 6 :=
          Finset.sum_le_sum fun w _ => by cases pool.workers w <;> simp [WorkerPc.left]
      _ = 6 * n := by simp [Nat.mul_comm]
  have hentering : pool.entering ≤ 1 := by
    unfold entering
    split
    · split <;> omega
    · omega
  have hdestructor : pool.destructor.left n ≤ n + 3 := by
    cases pool.destructor <;> simp only [DestructorPc.left] <;> omega
  unfold rank
  omega

/-- **The destructor returns.**  Once it has stored `_stop`, the workers and the destructor make at
most `7 * n + 5 * tasks + 8` more steps, however they are interleaved with calls of `enqueue` and
however often blocked workers wake up.  As long as `notify_all` comes in time, one of them, or a
call that has the mutex, can go on until the destructor has returned; and then all workers have
left and every task that was entered has been run. -/
theorem destructor_returns (hn : 0 < n) (h : (system n).Reachable NotifiesInTime pool)
    (halive : pool.destructor ≠ .alive) :
    (∀ moves later, (system n).Run Transition.anyStep pool moves later →
      moves.countP internal ≤ 7 * n + 5 * pool.tasks.length + 8) ∧
    (pool.destructor ≠ .destroyed → pool.CanGoOn) ∧
    (pool.destructor = .destroyed →
      (∀ w, pool.workers w = .exited) ∧ ∀ c ∈ pool.pushed, c ∈ pool.finished) := by
  obtain ⟨hsound, hjoining⟩ := joining_of_reachable h
  refine ⟨fun moves later hrun => ?_, fun hthere => ?_, fun hdestroyed => ?_⟩
  · have hstopping : Stopping pool := ⟨hsound, hjoining, halive⟩
    have hlower : ∀ (pool : ThreadPool n) (move : Move n) (next : ThreadPool n), Stopping pool →
        Transition.anyStep pool move → (system n).step pool move = some next →
        Stopping next ∧ (if internal move then 1 else 0) + rank next ≤ rank pool := by
      intro pool move next h _ hstep
      exact ⟨h.step hstep, rank_step h.sound (h.joining.stored h.behind) h.behind hstep⟩
    have hcount : moves.countP internal + rank later ≤ rank pool :=
      hrun.countP_add_rank_le hlower hstopping
    calc moves.countP internal ≤ moves.countP internal + later.rank := Nat.le_add_right _ _
      _ ≤ pool.rank := hcount
      _ ≤ 7 * n + 5 * pool.tasks.length + 8 := rank_le pool
  · exact canGoOn hsound (released_of_reachable (fun _ _ => id) h) halive hthere
  · have hall := hjoining.all hdestroyed
    refine ⟨hall, fun c hc => ?_⟩
    have hseen := hsound.settled ⟨0, hn⟩
    rw [hall] at hseen
    rw [hsound.queued.history, hseen.2.1, List.append_nil] at hc
    refine (hsound.finishing c hc).resolve_right fun hrunning => ?_
    obtain ⟨w, hw⟩ := hrunning
    rw [hall w] at hw
    exact absurd hw (by simp)

/-- The pool is stopped with a task in the queue, which the worker runs before it leaves. -/
def stoppedBusy : List (Move 1) :=
  [.call 0, .call 0, .call 0, .call 0, .notifyOne 0 none, .destructor, .destructor, work, work,
    work, work, work, work, work, work, .destructor, .destructor]

theorem destructor_returns_busy :
    ∃ pool, (system 1).exec (new 1) stoppedBusy = some pool ∧ pool.destructor = .destroyed ∧
      pool.pushed = [0] ∧ ∀ c ∈ pool.pushed, c ∈ pool.finished := by
  have hrun : ((system 1).exec (new 1) stoppedBusy).map
      (fun pool => (pool.destructor, pool.pushed)) = some (.destroyed, [0]) := by
    decide +kernel
  obtain ⟨pool, hexec, hpool⟩ := Option.map_eq_some_iff.mp hrun
  obtain ⟨hdestroyed, hpushed⟩ := Prod.mk.inj hpool
  have hreachable : (system 1).Reachable NotifiesInTime pool :=
    (Transition.System.Reachable.initial rfl).exec (by decide +kernel) hexec
  have hreturns := destructor_returns Nat.one_pos hreachable (by simp [hdestroyed])
  exact ⟨pool, hexec, hdestroyed, hpushed, (hreturns.2.2 hdestroyed).2⟩

end Sok.ThreadPool
