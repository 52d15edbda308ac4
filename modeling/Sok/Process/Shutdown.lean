import Sok.Foundation.Simulation
import Sok.Process.Commands

/-!
# The way out of the command loop

When `running` has been cleared, the parent has a bounded number of steps to go: it reads at most
one more command, ends the children and returns.  The bound is a `rank` that no step raises and
every step of the parent lowers: what the call of `ForkManager` under way has left, and what the
longest way from where `main` is to its end adds to it.

The rank says nothing of waiting.  `main` waits for a command, whether or not `running` has been
cleared meanwhile, and in `terminateAll` for a child; `sigchld_handler` may wait for ever for the
mutex of the log; and a configuration file may send `parseFile` through an invalid pointer.
Everywhere else `Kept` says where `main` is and what its calls find, so that one of its steps is
enabled.
-/

namespace Sok.Server.Commands

variable {s t : State}

/-- The steps of the parent; the others are those of children, of the kernel and of the terminal. -/
def own : Action → Bool
  | .manager (.childExits _) => false
  | .manager .sigchld => false
  | .sigint => false
  | .handlerBlocks _ => false
  | _ => true

/-- More steps than a call of `ForkManager` has left. -/
def callLeft (cpuCores : ℕ) (manager : ForkManager.State) : ℕ :=
  match manager.pc with
  | .command => 2 * cpuCores + 4
  | .forked _ => 0
  | .monitoring _ i => manager.childPids.length - i + 3
  | .monitored _ => 1
  | .terminating _ i => 2 * (manager.childPids.length - i) + 2
  | .waiting _ i => 2 * (manager.childPids.length - i) + 1

/-- `push_back` comes first, or the round is over. -/
def roundLeft (manager : ForkManager.State) : ℕ :=
  match manager.pc with
  | .forked _ => 0
  | _ => 1

/-- A bound on the steps that the parent makes when `running` has been cleared. -/
def rank (s : State) : ℕ :=
  let call := 2 * s.cpuCores + 4
  match s.pc with
  | .returned => 0
  | .aborted => 0
  | .blocked => 0
  | .leave => callLeft s.cpuCores s.manager + 1
  | .test => call + 2
  | .monitor => callLeft s.cpuCores s.manager + call + 2
  | .forking _ left => 2 * left + roundLeft s.manager + 2 * call + 3
  | .reload => 3 * call + 4
  | .setLogfile locked => 3 * call + if locked then 5 else 6
  | .terminate => callLeft s.cpuCores s.manager + 3 * call + 6
  | .log locked => 4 * call + if locked then 7 else 8
  | .read => 4 * call + 9

theorem rank_manager (h : Kept s) {a : ForkManager.Action} (hallows : s.pc.allows a = true)
    {manager : ForkManager.State} (hnext : ForkManager.next s.manager a = some manager) :
    (if own (.manager a) then 1 else 0) + rank { s with
      manager := manager
      pc := s.pc.after a
      childConfig := inherit s.config s.childConfig a } ≤ rank s := by
  obtain ⟨hhosts, hroom, -⟩ := h.placed
  cases a with
  | fork pid =>
      obtain ⟨again, left, hpc⟩ := allows_of_forking hallows (Or.inl ⟨pid, rfl⟩)
      cases ForkManager.step_of_next hnext with
      | fork hcommand _ => simp [rank, hpc, Pc.after, own, roundLeft, hcommand]; omega
  | pushBack =>
      obtain ⟨again, left, hpc⟩ := allows_of_forking hallows (Or.inr rfl)
      cases ForkManager.step_of_next hnext with
      | pushBack hforked => simp [rank, hpc, Pc.after, own, roundLeft, hforked]; omega
  | childExits pid =>
      rw [after_of_env s.pc (Or.inl ⟨pid, rfl⟩)]
      cases ForkManager.step_of_next hnext with
      | childExits _ => exact (Nat.zero_add _).le
  | sigchld =>
      rw [after_of_env s.pc (Or.inr rfl)]
      cases ForkManager.step_of_next hnext with
      | sigchld => exact (Nat.zero_add _).le
  | monitorChildren =>
      have hpc := allows_of_monitor hallows (Or.inl rfl)
      cases ForkManager.step_of_next hnext with
      | monitorChildren hcommand =>
          simp only [rank, hpc, Pc.after, own, callLeft, hcommand, Pc.room] at hroom ⊢
          simp; omega
  | checkChild =>
      have hpc := allows_of_monitor hallows (Or.inr (Or.inl rfl))
      obtain ⟨before, i, hm, ⟨pid, hget, -, rfl⟩ | ⟨hlt, rfl⟩ | rfl⟩ :=
        ForkManager.next_checkChild hnext
      · have hlt := (List.getElem?_eq_some_iff.mp hget).1
        simp [rank, hpc, Pc.after, own, callLeft, hm, List.length_eraseIdx, hlt]; omega
      · simp [rank, hpc, Pc.after, own, callLeft, hm]; omega
      · simp [rank, hpc, Pc.after, own, callLeft, hm]; omega
  | monitorReturns =>
      have hpc := allows_of_monitor hallows (Or.inr (Or.inr rfl))
      cases ForkManager.step_of_next hnext with
      | monitorReturns hm => simp [rank, hpc, Pc.after, own, callLeft, hm]; omega
  | terminateAll =>
      cases ForkManager.step_of_next hnext with
      | terminateAll hcommand =>
          rcases allows_of_terminate hallows (Or.inl rfl) with hpc | hpc
          all_goals
            simp only [rank, hpc, Pc.after, own, callLeft, hcommand, Pc.room] at hroom ⊢
            simp; omega
  | kill =>
      obtain ⟨before, i, hm, -, rfl⟩ := ForkManager.next_kill hnext
      rcases allows_of_terminate hallows (Or.inr (Or.inl rfl)) with hpc | hpc
      all_goals simp [rank, hpc, Pc.after, own, callLeft, hm]; omega
  | waitpid =>
      obtain ⟨before, i, pid, hm, hget, -, rfl⟩ := ForkManager.next_waitpid hnext
      have hlt := (List.getElem?_eq_some_iff.mp hget).1
      rcases allows_of_terminate hallows (Or.inr (Or.inr (Or.inl rfl))) with hpc | hpc
      all_goals simp [rank, hpc, Pc.after, own, callLeft, hm]; omega
  | clear =>
      obtain ⟨before, i, hm, -, rfl⟩ := ForkManager.next_clear hnext
      rcases allows_of_terminate hallows (Or.inr (Or.inr (Or.inr rfl))) with hpc | hpc
      · simp [rank, hpc, Pc.after, own, callLeft, hm]
        omega
      · simp [rank, hpc, Pc.after, own, callLeft, hm]

/-- When `running` has been cleared, it stays so, and every step of the parent lowers the rank. -/
theorem rank_step (h : Kept s) (hstopped : s.running = false) {a : Action}
    (hnext : next s a = some t) :
    t.running = false ∧ (if own a then 1 else 0) + rank t ≤ rank s := by
  have hkept := h.step hnext
  cases a with
  | manager a =>
      obtain ⟨hallows, hmap⟩ := Option.ite_none_right_eq_some.mp hnext
      obtain ⟨manager, hmanager, rfl⟩ := Option.map_eq_some_iff.mp hmap
      exact ⟨hstopped, rank_manager h hallows hmanager⟩
  | forkFails =>
      simp only [next] at hnext
      split at hnext
      · next again left hpc hcommand =>
          obtain rfl := Option.some.inj hnext
          refine ⟨hstopped, ?_⟩
          simp [rank, hpc, own, roundLeft, hcommand]
          omega
      · exact absurd hnext (by simp)
  | forked =>
      simp only [next] at hnext
      split at hnext
      · next again hpc =>
          obtain rfl := Option.some.inj hnext
          refine ⟨hstopped, ?_⟩
          have hcommand : s.manager.pc = .command := (h.placedAt hpc).hosts
          cases again <;> simp [rank, hpc, own, roundLeft, callLeft, hcommand] <;> omega
      · exact absurd hnext (by simp)
  | sigint =>
      obtain ⟨-, heq⟩ := Option.ite_none_left_eq_some.mp hnext
      obtain rfl := Option.some.inj heq
      exact ⟨rfl, (Nat.zero_add _).le⟩
  | handlerBlocks pid =>
      obtain ⟨-, rfl⟩ := next_handlerBlocks hnext
      exact ⟨hstopped, Nat.zero_le _⟩
  | lock =>
      rcases next_lock hnext with ⟨hpc, rfl⟩ | ⟨hpc, rfl⟩
      all_goals
        refine ⟨hstopped, ?_⟩
        simp [rank, hpc, own]
        omega
  | unlock =>
      rcases next_unlock hnext with ⟨hpc, rfl⟩ | ⟨hpc, rfl⟩
      · have hcommand : s.manager.pc = .command := (h.placedAt hpc).hosts
        refine ⟨hstopped, ?_⟩
        simp [rank, hpc, own, callLeft, hcommand]
        omega
      · refine ⟨hstopped, ?_⟩
        simp [rank, hpc, own]
        omega
  | test =>
      simp only [next] at hnext
      split at hnext
      · next hpc =>
          obtain rfl := Option.some.inj hnext
          refine ⟨hstopped, ?_⟩
          have hcommand : s.manager.pc = .command := (h.placedAt hpc).hosts
          simp [rank, hpc, own, callLeft, hcommand, hstopped]
          omega
      · exact absurd hnext (by simp)
  | read command =>
      simp only [next] at hnext
      split at hnext
      · next hpc =>
          have hcommand : s.manager.pc = .command := (h.placedAt hpc).hosts
          split at hnext
          · obtain rfl := Option.some.inj hnext
            refine ⟨hstopped, ?_⟩
            simp [rank, hpc, own]
            omega
          · split at hnext
            all_goals
              obtain rfl := Option.some.inj hnext
              refine ⟨by first | rfl | exact hstopped, ?_⟩
              simp [rank, hpc, own, callLeft, hcommand]
              omega
      · exact absurd hnext (by simp)
  | load file =>
      simp only [next] at hnext
      split at hnext
      · next hpc =>
          obtain ⟨⟨config, thrown⟩, -, rfl⟩ := Option.map_eq_some_iff.mp hnext
          refine ⟨hstopped, ?_⟩
          have hcommand : s.manager.pc = .command := (h.placedAt hpc).hosts
          by_cases hthrown : thrown = none
          · simp [rank, hpc, own, roundLeft, hcommand, hthrown]
            omega
          · simp [rank, hpc, own, hthrown]
      · exact absurd hnext (by simp)

/-- The parent waits for a child that is running: it has been sent `SIGTERM`. -/
def AwaitsChild (s : State) : Prop :=
  ∃ before i pid, s.manager.pc = .waiting before i ∧ s.manager.childPids[i]? = some pid ∧
    s.manager.procs pid = .running

/-- The parent waits for a command. -/
def AwaitsCommand (s : State) : Prop :=
  s.pc = .read

/-- The parent waits for a mutex that nobody will unlock. -/
def Deadlocked (s : State) : Prop :=
  s.pc = .blocked

/-- A restart, and a child that exits while it is logged. -/
example : (system.exec (start .empty 1)
    [.manager (.fork 100), .manager .pushBack, .forked, .test, .read (ascii "restart"), .lock,
      .manager (.childExits 100), .handlerBlocks 100]).map State.pc = some .blocked := by
  decide +kernel

/-- The steps for which the parent needs nothing but the kernel. -/
def unaided : Action → Bool
  | .read _ => false
  | .load _ => false
  | a => own a

/-- The parent can make a step: one that waits for nothing, or it loads the configuration, whatever
the file may be, short of one that is parsed through an invalid pointer. -/
def CanStep (s : State) : Prop :=
  (∃ a, unaided a = true ∧ (next s a).isSome) ∨
    ∀ file : ConfigFile, file.parse ≠ .error .undefined → (next s (.load file)).isSome

theorem canStep_manager {a : ForkManager.Action} (hown : unaided (.manager a) = true)
    (hallows : s.pc.allows a = true) (hm : (ForkManager.next s.manager a).isSome) : CanStep s := by
  refine Or.inl ⟨.manager a, hown, ?_⟩
  simp only [next, if_pos hallows, Option.isSome_map]
  exact hm

/-- `Config::load` returns or throws, unless its behaviour is undefined. -/
theorem canStep_reload (hpc : s.pc = .reload) : CanStep s := by
  refine Or.inr fun file hdefined => ?_
  simp only [next, hpc, Option.isSome_map]
  unfold load
  split
  · rfl
  · rfl
  · next hundefined => exact absurd hundefined hdefined

theorem Kept.canStep_terminate (h : Kept s) (hpc : s.pc = .terminate ∨ s.pc = .leave)
    (hawaits : ¬ AwaitsChild s) : CanStep s := by
  have hallows : ∀ a, a = .terminateAll ∨ a = .kill ∨ a = .waitpid ∨ a = .clear →
      s.pc.allows a = true := by
    intro a ha
    rcases hpc with hpc | hpc <;> rw [hpc] <;> rcases ha with rfl | rfl | rfl | rfl <;> rfl
  have hhosts : s.manager.pc = .command ∨ (∃ before i, s.manager.pc = .terminating before i) ∨
      ∃ before i, s.manager.pc = .waiting before i := by
    rcases hpc with hpc | hpc
    · exact (h.placedAt hpc).hosts
    · exact (h.placedAt hpc).hosts
  rcases hhosts with hm | ⟨before, i, hm⟩ | ⟨before, i, hm⟩
  · exact canStep_manager (a := .terminateAll) rfl (hallows _ (Or.inl rfl))
      (by simp only [ForkManager.next, hm]; rfl)
  · by_cases hlt : i < s.manager.childPids.length
    · exact canStep_manager (a := .kill) rfl (hallows _ (Or.inr (Or.inl rfl)))
        (by simp only [ForkManager.next, hm, if_pos hlt]; rfl)
    · exact canStep_manager (a := .clear) rfl (hallows _ (Or.inr (Or.inr (Or.inr rfl))))
        (by simp only [ForkManager.next, hm, if_neg hlt]; rfl)
  · have hlt := h.inList before i hm
    have hget := List.getElem?_eq_getElem hlt
    have hnot : s.manager.procs (s.manager.childPids[i]) ≠ .running := fun hrunning =>
      hawaits ⟨before, i, _, hm, hget, hrunning⟩
    have hwaitpid := hallows .waitpid (Or.inr (Or.inr (Or.inl rfl)))
    cases hstatus : s.manager.procs (s.manager.childPids[i]) with
    | running => exact absurd hstatus hnot
    | notChild =>
        exact canStep_manager rfl hwaitpid (by simp only [ForkManager.next, hm, hget, hstatus]; rfl)
    | exited =>
        exact canStep_manager rfl hwaitpid (by simp only [ForkManager.next, hm, hget, hstatus]; rfl)

/-- As long as `main` is there and waits for nobody, it can make a step. -/
theorem Kept.progress (h : Kept s) (hthere : s.pc ≠ .returned ∧ s.pc ≠ .aborted)
    (hchild : ¬ AwaitsChild s) (hcommand : ¬ AwaitsCommand s) (hblocked : ¬ Deadlocked s) :
    CanStep s := by
  cases hpc : s.pc with
  | forking again left =>
      cases left with
      | zero => exact Or.inl ⟨.forked, rfl, by simp only [next, hpc]; rfl⟩
      | succ left =>
          rcases (h.placedAt hpc).hosts with hm | ⟨pid, hm⟩
          · exact Or.inl ⟨.forkFails, rfl, by simp only [next, hpc, hm]; rfl⟩
          · exact canStep_manager (a := .pushBack) rfl (by rw [hpc]; rfl)
              (by simp only [ForkManager.next, hm]; rfl)
  | test => exact Or.inl ⟨.test, rfl, by simp only [next, hpc]; rfl⟩
  | read => exact absurd hpc hcommand
  | log locked =>
      cases locked with
      | false => exact Or.inl ⟨.lock, rfl, by simp only [next, hpc]; rfl⟩
      | true => exact Or.inl ⟨.unlock, rfl, by simp only [next, hpc]; rfl⟩
  | terminate => exact h.canStep_terminate (Or.inl hpc) hchild
  | setLogfile locked =>
      cases locked with
      | false => exact Or.inl ⟨.lock, rfl, by simp only [next, hpc]; rfl⟩
      | true => exact Or.inl ⟨.unlock, rfl, by simp only [next, hpc]; rfl⟩
  | reload => exact canStep_reload hpc
  | monitor =>
      rcases (h.placedAt hpc).hosts with hm | ⟨before, i, hm⟩ | ⟨before, hm⟩
      · exact canStep_manager (a := .monitorChildren) rfl (by rw [hpc]; rfl)
          (by simp only [ForkManager.next, hm]; rfl)
      · apply canStep_manager (a := .checkChild) rfl (by rw [hpc]; rfl)
        simp only [ForkManager.next, hm]
        split
        · split <;> rfl
        · rfl
      · exact canStep_manager (a := .monitorReturns) rfl (by rw [hpc]; rfl)
          (by simp only [ForkManager.next, hm]; rfl)
  | leave => exact h.canStep_terminate (Or.inr hpc) hchild
  | returned => exact absurd hpc hthere.1
  | aborted => exact absurd hpc hthere.2
  | blocked => exact absurd hpc hblocked

theorem rank_le (h : Kept s) : rank s ≤ 8 * s.cpuCores + 25 := by
  obtain ⟨hhosts, hroom, -⟩ := h.placed
  have hcall : callLeft s.cpuCores s.manager ≤ 2 * s.cpuCores + 4 := by
    unfold callLeft
    cases s.manager.pc <;> dsimp only <;> omega
  have hround : roundLeft s.manager ≤ 1 := by
    unfold roundLeft
    split <;> omega
  unfold rank
  cases hpc : s.pc <;> rw [hpc] at hroom <;> simp only [Pc.room] at hroom ⊢ <;>
    (try split) <;> omega

/-- **The way out is short.**  When `running` has been cleared, by `exit` or by `SIGINT`, the parent
makes at most `8 * cpu_cores + 25` more steps, whatever is typed and however signals and exits
come between them.  Until it has ended it can always go on, unless it waits for a command, or for
a child that has been sent `SIGTERM` and is still running, or `sigchld_handler` has interrupted
one of its own calls of the log. -/
theorem shutdown_ends (h : system.Reachable Transition.anyStep s) (hstopped : s.running = false) :
    (∀ actions final, system.Run Transition.anyStep s actions final →
      actions.countP own ≤ 8 * s.cpuCores + 25) ∧
    (s.pc = .returned ∨ s.pc = .aborted ∨ AwaitsCommand s ∨ AwaitsChild s ∨ Deadlocked s ∨
      CanStep s) := by
  have hkept := kept_of_reachable h
  refine ⟨fun actions final hrun => ?_, ?_⟩
  · have hlower : ∀ (state : State) (a : Action) (next : State),
        (Kept state ∧ state.running = false) → Transition.anyStep state a →
        system.step state a = some next → (Kept next ∧ next.running = false) ∧
          (if own a then 1 else 0) + rank next ≤ rank state := by
      intro state a next hinv _ hstep
      obtain ⟨hstays, hrank⟩ := rank_step hinv.1 hinv.2 hstep
      exact ⟨⟨hinv.1.step hstep, hstays⟩, hrank⟩
    have hcount : actions.countP own + rank final ≤ rank s :=
      hrun.countP_add_rank_le hlower ⟨hkept, hstopped⟩
    calc actions.countP own ≤ actions.countP own + rank final := Nat.le_add_right _ _
      _ ≤ rank s := hcount
      _ ≤ 8 * s.cpuCores + 25 := rank_le hkept
  · by_contra hnone
    push Not at hnone
    obtain ⟨hreturned, haborted, hcommand, hchild, hblocked, hstep⟩ := hnone
    exact hstep (hkept.progress ⟨hreturned, haborted⟩ hchild hcommand hblocked)

/-- `SIGINT` while the first command is awaited. -/
theorem shutdown_ends_sigint :
    ∃ s, system.exec (start .empty 1)
        [.manager (.fork 100), .manager .pushBack, .forked, .test, .sigint] = some s ∧
      (∀ actions final, system.Run Transition.anyStep s actions final →
        actions.countP own ≤ 8 * s.cpuCores + 25) ∧
      (s.pc = .returned ∨ s.pc = .aborted ∨ AwaitsCommand s ∨ AwaitsChild s ∨ Deadlocked s ∨
        CanStep s) := by
  have hrun : (system.exec (start .empty 1)
      [.manager (.fork 100), .manager .pushBack, .forked, .test, .sigint]).map State.running =
      some false := by
    decide +kernel
  obtain ⟨s, hexec, hstopped⟩ := Option.map_eq_some_iff.mp hrun
  have hinit : system.init (start .empty 1) := ⟨_, _, rfl⟩
  have hreachable := Transition.System.reachable_of_exec hinit hexec
  exact ⟨s, hexec, shutdown_ends hreachable hstopped⟩

end Sok.Server.Commands
