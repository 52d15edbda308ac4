import Sok.Config.Load
import Sok.Process.Recorded

/-!
# The command loop of the parent process

`main` forks the children, reads commands until it is told to stop, and ends the children.  Its
calls of `ForkManager` are broken up at every system call; between any two steps a child may exit,
`SIGCHLD` may be delivered, and so may `SIGINT`, which clears `running`.

`sigchld_handler` runs on the thread of `main` and logs every child that it reaps.  Where it
interrupts a call of the log that holds the mutex of the `Logger`, it reaps one child and waits for
ever for a mutex that only the interrupted call can unlock: `main` is then `blocked`.  Everywhere
else it runs to its end, and one step stands for it.

As no child is ever forgotten, `terminateAll` leaves no child behind, a restart never mixes
children of two configurations, and neither the end of `main` nor an exception from the
configuration file leaves a child running.
-/

namespace Sok.Server

open ForkManager (Pid AllRecorded)

namespace Commands

/-- Where `main` is. -/
inductive Pc
  /-- In a loop of `createChildProcess`, the one of the start or of a restart, with so many rounds
  to go. -/
  | forking (again : Bool) (left : ℕ)
  /-- `while (running.load())`. -/
  | test
  /-- `std::cin >> command`. -/
  | read
  /-- `SOK_LOG_INFO` of a restart; `locked` when it holds the mutex of the log. -/
  | log (locked : Bool)
  /-- `terminateAll` of a restart. -/
  | terminate
  /-- `set_logfile`. -/
  | setLogfile (locked : Bool)
  /-- `Config::instance().load`. -/
  | reload
  /-- `monitorChildren`. -/
  | monitor
  /-- `terminateAll` behind the loop. -/
  | leave
  /-- `main` has returned. -/
  | returned
  /-- An exception has left `main`. -/
  | aborted
  /-- In `sigchld_handler`, at the mutex that the interrupted call of the log holds. -/
  | blocked
  deriving DecidableEq

namespace Pc

/-- The steps of `ForkManager`, of the children and of the kernel that can come here. -/
def allows : Pc → ForkManager.Action → Bool
  | .returned, _ => false
  | .aborted, _ => false
  | _, .childExits _ => true
  -- where the handler does not return, it is `handlerBlocks`
  | .log true, .sigchld => false
  | .setLogfile true, .sigchld => false
  | .blocked, .sigchld => false
  | _, .sigchld => true
  | .forking _ (_ + 1), .fork _ => true
  | .forking _ (_ + 1), .pushBack => true
  | .monitor, .monitorChildren => true
  | .monitor, .checkChild => true
  | .monitor, .monitorReturns => true
  | .terminate, .terminateAll => true
  | .terminate, .kill => true
  | .terminate, .waitpid => true
  | .terminate, .clear => true
  | .leave, .terminateAll => true
  | .leave, .kill => true
  | .leave, .waitpid => true
  | .leave, .clear => true
  | _, _ => false

/-- Where `main` goes on when a call of `ForkManager` returns. -/
def after : Pc → ForkManager.Action → Pc
  | .forking again (left + 1), .pushBack => .forking again left
  | .monitor, .monitorReturns => .test
  | .terminate, .clear => .setLogfile false
  | .leave, .clear => .returned
  | pc, _ => pc

end Pc

/-- The parent process.  `childConfig` is the configuration in the memory of a child, and `late`
counts the commands read when `running` was already false; neither is in the source. -/
structure State where
  manager : ForkManager.State
  running : Bool
  config : YamlReader
  cpuCores : ℕ
  pc : Pc
  childConfig : Pid → YamlReader
  late : ℕ

/-- `main` behind the first `load`, with its `cpu_cores`. -/
def start (config : YamlReader) (cpuCores : ℕ) : State where
  manager := ForkManager.start
  running := true
  config := config
  cpuCores := cpuCores
  pc := .forking false cpuCores
  childConfig _ := config
  late := 0

inductive Action
  /-- A step of a call of `ForkManager`, a child that exits, or `SIGCHLD`. -/
  | manager (a : ForkManager.Action)
  /-- `fork` fails; `createChildProcess` returns. -/
  | forkFails
  /-- The loop of `createChildProcess` ends. -/
  | forked
  /-- `signalHandler`. -/
  | sigint
  /-- `SIGCHLD` comes while `main` holds the mutex of the log: the handler reaps this child, and
  cannot log it. -/
  | handlerBlocks (pid : Pid)
  /-- The call of the log locks its mutex. -/
  | lock
  /-- The call of the log returns. -/
  | unlock
  | test
  | read (command : Bytes)
  /-- `Config::load`, with what it finds. -/
  | load (file : ConfigFile)

/-- The child that a step forks has the memory of the parent. -/
def inherit (config : YamlReader) (childConfig : Pid → YamlReader) :
    ForkManager.Action → Pid → YamlReader
  | .fork pid => Function.update childConfig pid config
  | _ => childConfig

/-- A step of the parent, a child or the kernel; `none` when it is not enabled. -/
def next (s : State) : Action → Option State
  | .manager a =>
      if s.pc.allows a then
        (ForkManager.next s.manager a).map fun manager =>
          { s with
            manager := manager
            pc := s.pc.after a
            childConfig := inherit s.config s.childConfig a }
      else none
  | .forkFails =>
      match s.pc, s.manager.pc with
      | .forking again (left + 1), .command => some { s with pc := .forking again left }
      | _, _ => none
  | .forked =>
      match s.pc with
      | .forking again 0 => some { s with pc := if again then .monitor else .test }
      | _ => none
  | .sigint =>
      if s.pc = .returned ∨ s.pc = .aborted then none else some { s with running := false }
  | .handlerBlocks pid =>
      if (s.pc = .log true ∨ s.pc = .setLogfile true) ∧ s.manager.procs pid = .exited then
        some { s with
          manager := { s.manager with procs := Function.update s.manager.procs pid .notChild }
          pc := .blocked }
      else none
  | .lock =>
      match s.pc with
      | .log false => some { s with pc := .log true }
      | .setLogfile false => some { s with pc := .setLogfile true }
      | _ => none
  | .unlock =>
      match s.pc with
      | .log true => some { s with pc := .terminate }
      | .setLogfile true => some { s with pc := .reload }
      | _ => none
  | .test =>
      match s.pc with
      | .test => some { s with pc := if s.running then .read else .leave }
      | _ => none
  | .read command =>
      match s.pc with
      | .read =>
          let late := if s.running then s.late else s.late + 1
          if command = ascii "restart" then some { s with pc := .log false, late := late }
          else if command = ascii "exit" then
            some { s with running := false, pc := .monitor, late := late }
          else some { s with pc := .monitor, late := late }
      | _ => none
  | .load file =>
      match s.pc with
      | .reload =>
          (load s.config file).map fun (config, thrown) =>
            { s with
              config := config
              pc := if thrown = none then .forking true s.cpuCores else .aborted }
      | _ => none

/-- The parent, its children and the kernel. -/
def system : Transition.System State Action where
  init s := ∃ config cpuCores, s = start config cpuCores
  step := next

/-! ## The invariant -/

/-- Where `ForkManager` can be while `main` is here. -/
def Pc.Hosts : Pc → ForkManager.Pc → Prop
  | .forking _ 0, m => m = .command
  | .forking _ (_ + 1), m => m = .command ∨ ∃ pid, m = .forked pid
  | .monitor, m => m = .command ∨ (∃ before i, m = .monitoring before i) ∨
      ∃ before, m = .monitored before
  | .terminate, m => m = .command ∨ (∃ before i, m = .terminating before i) ∨
      ∃ before i, m = .waiting before i
  | .leave, m => m = .command ∨ (∃ before i, m = .terminating before i) ∨
      ∃ before i, m = .waiting before i
  | _, m => m = .command

/-- How many children can still be entered before the list is cleared. -/
def Pc.room : Pc → ℕ
  | .forking _ left => left
  | _ => 0

/-- `main` has just ended its children, or has ended. -/
def Pc.Cleared : Pc → Prop
  | .setLogfile _ => True
  | .reload => True
  | .returned => True
  | .aborted => True
  | _ => False

/-- The call of `ForkManager` that is under way is one that `main` makes here, the list has room for
the children of one start, and it is empty where the children have just been ended. -/
structure Placed (pc : Pc) (manager : ForkManager.State) (cpuCores : ℕ) : Prop where
  hosts : pc.Hosts manager.pc
  room : manager.childPids.length + pc.room ≤ cpuCores
  cleared : pc.Cleared → manager.childPids = []

/-- What holds in every state: no child is forgotten, every child has the loaded configuration, and
no more than one command is read when `running` is false. -/
structure Kept (s : State) : Prop where
  recorded : AllRecorded s.manager
  config : ∀ pid, s.manager.procs pid ≠ .notChild → s.childConfig pid = s.config
  placed : Placed s.pc s.manager s.cpuCores
  inList : ForkManager.InList s.manager
  late : s.late ≤ 1
  reading : s.late = 1 → s.running = false ∧ s.pc ≠ .read

theorem hosts_forking (again : Bool) (left : ℕ) : (Pc.forking again left).Hosts .command := by
  cases left with
  | zero => rfl
  | succ left => exact Or.inl rfl

theorem kept_start (config : YamlReader) (cpuCores : ℕ) : Kept (start config cpuCores) where
  recorded := ForkManager.allRecorded_start
  config _ _ := rfl
  placed :=
    { hosts := hosts_forking false cpuCores
      room := by simp [start, ForkManager.start, Pc.room]
      cleared := fun h => absurd h (by simp [start, Pc.Cleared]) }
  inList _ _ h := absurd h (by simp [start, ForkManager.start])
  late := Nat.zero_le _
  reading h := absurd h (by simp [start])

/-! ## Where the calls of `ForkManager` can come -/

section

variable {pc : Pc} {forks next : ForkManager.State} {a : ForkManager.Action}

theorem allows_of_forking (h : pc.allows a = true) (ha : (∃ pid, a = .fork pid) ∨ a = .pushBack) :
    ∃ again left, pc = .forking again (left + 1) := by
  rcases ha with ⟨pid, rfl⟩ | rfl
  all_goals
    cases pc with
    | forking again left =>
        cases left with
        | zero => exact absurd h (by simp [Pc.allows])
        | succ left => exact ⟨again, left, rfl⟩
    | _ => exact absurd h (by simp [Pc.allows])

theorem allows_of_monitor (h : pc.allows a = true)
    (ha : a = .monitorChildren ∨ a = .checkChild ∨ a = .monitorReturns) : pc = .monitor := by
  rcases ha with rfl | rfl | rfl
  all_goals
    cases pc with
    | monitor => rfl
    | forking again left => cases left <;> exact absurd h (by simp [Pc.allows])
    | _ => exact absurd h (by simp [Pc.allows])

theorem allows_of_terminate (h : pc.allows a = true)
    (ha : a = .terminateAll ∨ a = .kill ∨ a = .waitpid ∨ a = .clear) :
    pc = .terminate ∨ pc = .leave := by
  rcases ha with rfl | rfl | rfl | rfl
  all_goals
    cases pc with
    | terminate => exact Or.inl rfl
    | leave => exact Or.inr rfl
    | forking again left => cases left <;> exact absurd h (by simp [Pc.allows])
    | _ => exact absurd h (by simp [Pc.allows])

/-! ## Steps of `ForkManager` under `main` -/

theorem after_of_env (pc : Pc) (ha : (∃ pid, a = .childExits pid) ∨ a = .sigchld) :
    pc.after a = pc := by
  rcases ha with ⟨pid, rfl⟩ | rfl
  all_goals
    cases pc with
    | forking again left => cases left <;> rfl
    | _ => rfl

theorem after_ne_read (h : pc ≠ .read) : pc.after a ≠ .read := by
  unfold Pc.after
  split <;> simp_all

theorem Placed.manager {cpuCores : ℕ} (h : Placed pc forks cpuCores)
    (hallows : pc.allows a = true) (hnext : ForkManager.next forks a = some next) :
    Placed (pc.after a) next cpuCores := by
  obtain ⟨hhosts, hroom, hcleared⟩ := h
  cases a with
  | fork pid =>
      obtain ⟨again, left, rfl⟩ := allows_of_forking hallows (Or.inl ⟨pid, rfl⟩)
      cases ForkManager.step_of_next hnext with
      | fork _ _ => exact ⟨Or.inr ⟨pid, rfl⟩, hroom, hcleared⟩
  | pushBack =>
      obtain ⟨again, left, rfl⟩ := allows_of_forking hallows (Or.inr rfl)
      cases ForkManager.step_of_next hnext with
      | pushBack _ =>
          refine ⟨hosts_forking again left, ?_, fun h => absurd h (by simp [Pc.after, Pc.Cleared])⟩
          simp only [Pc.room, Pc.after, List.length_append, List.length_singleton] at hroom ⊢
          omega
  | childExits pid =>
      rw [after_of_env pc (Or.inl ⟨pid, rfl⟩)]
      cases ForkManager.step_of_next hnext with
      | childExits _ => exact ⟨hhosts, hroom, hcleared⟩
  | sigchld =>
      rw [after_of_env pc (Or.inr rfl)]
      cases ForkManager.step_of_next hnext with
      | sigchld => exact ⟨hhosts, hroom, hcleared⟩
  | monitorChildren =>
      obtain rfl := allows_of_monitor hallows (Or.inl rfl)
      cases ForkManager.step_of_next hnext with
      | monitorChildren _ => exact ⟨Or.inr (Or.inl ⟨_, _, rfl⟩), hroom, hcleared⟩
  | checkChild =>
      obtain rfl := allows_of_monitor hallows (Or.inr (Or.inl rfl))
      obtain ⟨before, i, hpc, ⟨pid, -, -, rfl⟩ | ⟨-, rfl⟩ | rfl⟩ := ForkManager.next_checkChild hnext
      · refine ⟨hhosts, ?_, fun h => absurd h (by simp [Pc.after, Pc.Cleared])⟩
        exact (Nat.add_le_add_right (List.length_eraseIdx_le _ i) _).trans hroom
      · exact ⟨Or.inr (Or.inl ⟨_, _, rfl⟩), hroom, hcleared⟩
      · exact ⟨Or.inr (Or.inr ⟨_, rfl⟩), hroom, hcleared⟩
  | monitorReturns =>
      obtain rfl := allows_of_monitor hallows (Or.inr (Or.inr rfl))
      cases ForkManager.step_of_next hnext with
      | monitorReturns _ => exact ⟨rfl, hroom, fun h => absurd h (by simp [Pc.after, Pc.Cleared])⟩
  | terminateAll =>
      cases ForkManager.step_of_next hnext with
      | terminateAll _ =>
          rcases allows_of_terminate hallows (Or.inl rfl) with rfl | rfl
          all_goals exact ⟨Or.inr (Or.inl ⟨_, _, rfl⟩), hroom, hcleared⟩
  | kill =>
      obtain ⟨before, i, -, -, rfl⟩ := ForkManager.next_kill hnext
      rcases allows_of_terminate hallows (Or.inr (Or.inl rfl)) with rfl | rfl
      all_goals exact ⟨Or.inr (Or.inr ⟨_, _, rfl⟩), hroom, hcleared⟩
  | waitpid =>
      obtain ⟨before, i, pid, -, -, -, rfl⟩ := ForkManager.next_waitpid hnext
      rcases allows_of_terminate hallows (Or.inr (Or.inr (Or.inl rfl))) with rfl | rfl
      all_goals exact ⟨Or.inr (Or.inl ⟨_, _, rfl⟩), hroom, hcleared⟩
  | clear =>
      obtain ⟨before, i, -, -, rfl⟩ := ForkManager.next_clear hnext
      rcases allows_of_terminate hallows (Or.inr (Or.inr (Or.inr rfl))) with rfl | rfl
      all_goals exact ⟨rfl, Nat.zero_le _, fun _ => rfl⟩

end

section

variable {s t : State}

theorem Kept.manager (h : Kept s) {a : ForkManager.Action} (hallows : s.pc.allows a = true)
    {manager : ForkManager.State} (hnext : ForkManager.next s.manager a = some manager) :
    Kept { s with
      manager := manager
      pc := s.pc.after a
      childConfig := inherit s.config s.childConfig a } := by
  refine ⟨h.recorded.step hnext, fun pid hlive => ?_, h.placed.manager hallows hnext,
    h.inList.step hnext, h.late, fun hlate => ?_⟩
  · show inherit s.config s.childConfig a pid = s.config
    rcases ForkManager.live_of_next hnext hlive with rfl | hold
    · exact Function.update_self ..
    · unfold inherit
      split
      · next other =>
          by_cases heq : pid = other
          · rw [heq, Function.update_self]
          · rw [Function.update_of_ne heq]
            exact h.config pid hold
      · exact h.config pid hold
  · obtain ⟨hstopped, hread⟩ := h.reading hlate
    exact ⟨hstopped, after_ne_read hread⟩

/-- `main` goes on outside `ForkManager`. -/
theorem Kept.move (h : Kept s) {pc : Pc} (hplaced : Placed pc s.manager s.cpuCores)
    (hread : pc = .read → s.running = true) : Kept { s with pc := pc } := by
  refine ⟨h.recorded, h.config, hplaced, h.inList, h.late, fun hlate => ?_⟩
  obtain ⟨hstopped, -⟩ := h.reading hlate
  refine ⟨hstopped, fun heq => ?_⟩
  rw [hread heq] at hstopped
  exact absurd hstopped (by simp)

theorem Kept.placedAt (h : Kept s) {pc : Pc} (hpc : s.pc = pc) :
    Placed pc s.manager s.cpuCores :=
  hpc ▸ h.placed

/-- Where the list is empty between two calls, there is no child. -/
theorem Kept.no_child (h : Kept s) (hcleared : s.pc.Cleared) (pid : Pid) :
    s.manager.procs pid = .notChild := by
  by_contra hlive
  have hcommand : s.manager.pc = .command := by
    have hhosts := h.placed.hosts
    cases hpc : s.pc <;> rw [hpc] at hcleared hhosts <;> first | exact hhosts | exact hcleared.elim
  have hmem := h.recorded pid hlive
  rw [ForkManager.State.pending, h.placed.cleared hcleared, hcommand] at hmem
  exact absurd hmem (by simp [ForkManager.Pc.justForked])

theorem Kept.read (h : Kept s) (hpc : s.pc = .read) {pc : Pc} {running : Bool}
    (hpc' : pc = .log false ∨ pc = .monitor) (hstopped : s.running = false → running = false) :
    Kept { s with
      running := running, pc := pc, late := if s.running then s.late else s.late + 1 } := by
  obtain ⟨hcommand, hroom, -⟩ := h.placedAt hpc
  have hzero : s.late = 0 := by
    by_contra hne
    have hlate := h.late
    exact (h.reading (by omega)).2 hpc
  refine ⟨h.recorded, h.config, ?_, h.inList, ?_, fun hlate => ?_⟩
  · rcases hpc' with rfl | rfl
    · exact ⟨hcommand, hroom, fun hc => hc.elim⟩
    · exact ⟨Or.inl hcommand, hroom, fun hc => hc.elim⟩
  · dsimp only
    split <;> omega
  · have hnot : s.running = false := by
      by_contra hrunning
      rw [Bool.not_eq_false] at hrunning
      rw [hrunning, if_pos rfl, hzero] at hlate
      exact absurd hlate (by simp)
    refine ⟨hstopped hnot, ?_⟩
    rcases hpc' with rfl | rfl <;> simp

/-- What a handler that blocks has done: it has reaped one child. -/
theorem next_handlerBlocks {pid : Pid} (hnext : next s (.handlerBlocks pid) = some t) :
    (s.pc = .log true ∨ s.pc = .setLogfile true) ∧
      t = { s with
        manager := { s.manager with procs := Function.update s.manager.procs pid .notChild }
        pc := .blocked } := by
  obtain ⟨⟨hpc, -⟩, heq⟩ := Option.ite_none_right_eq_some.mp hnext
  exact ⟨hpc, (Option.some.inj heq).symm⟩

/-- What a call of the log does, as far as the children are concerned. -/
theorem next_lock (hnext : next s .lock = some t) :
    (s.pc = .log false ∧ t = { s with pc := .log true }) ∨
      s.pc = .setLogfile false ∧ t = { s with pc := .setLogfile true } := by
  simp only [next] at hnext
  split at hnext
  · next hpc => exact Or.inl ⟨hpc, (Option.some.inj hnext).symm⟩
  · next hpc => exact Or.inr ⟨hpc, (Option.some.inj hnext).symm⟩
  · exact absurd hnext (by simp)

theorem next_unlock (hnext : next s .unlock = some t) :
    (s.pc = .log true ∧ t = { s with pc := .terminate }) ∨
      s.pc = .setLogfile true ∧ t = { s with pc := .reload } := by
  simp only [next] at hnext
  split at hnext
  · next hpc => exact Or.inl ⟨hpc, (Option.some.inj hnext).symm⟩
  · next hpc => exact Or.inr ⟨hpc, (Option.some.inj hnext).symm⟩
  · exact absurd hnext (by simp)

/-- A child that the handler has reaped is lost to nobody. -/
theorem Kept.handlerBlocks (h : Kept s) (hpc : s.pc = .log true ∨ s.pc = .setLogfile true)
    (pid : Pid) : Kept { s with
      manager := { s.manager with procs := Function.update s.manager.procs pid .notChild }
      pc := .blocked } := by
  obtain ⟨hhosts, hroom, -⟩ := h.placed
  have hcommand : s.manager.pc = .command := by
    rcases hpc with hpc | hpc <;> rw [hpc] at hhosts <;> exact hhosts
  refine ⟨fun other hlive => h.recorded other (ForkManager.ne_of_update hlive).2,
    fun other hlive => h.config other (ForkManager.ne_of_update hlive).2, ?_, h.inList, h.late,
    fun hlate => ⟨(h.reading hlate).1, by simp⟩⟩
  refine ⟨hcommand, ?_, fun hc => hc.elim⟩
  exact (Nat.le_add_right _ _).trans hroom

theorem Kept.step (h : Kept s) {a : Action} (hnext : next s a = some t) : Kept t := by
  cases a with
  | manager a =>
      obtain ⟨hallows, hmap⟩ := Option.ite_none_right_eq_some.mp hnext
      obtain ⟨manager, hmanager, rfl⟩ := Option.map_eq_some_iff.mp hmap
      exact h.manager hallows hmanager
  | forkFails =>
      simp only [next] at hnext
      split at hnext
      · next again left hpc hcommand =>
          obtain rfl := Option.some.inj hnext
          refine h.move ⟨hcommand ▸ hosts_forking again left, ?_, fun hc => hc.elim⟩ (by simp)
          have hroom := h.placed.room
          simp only [hpc, Pc.room] at hroom ⊢
          omega
      · exact absurd hnext (by simp)
  | forked =>
      simp only [next] at hnext
      split at hnext
      · next again hpc =>
          obtain rfl := Option.some.inj hnext
          obtain ⟨hcommand, hroom, -⟩ := h.placedAt hpc
          cases again with
          | false => exact h.move ⟨hcommand, hroom, fun hc => hc.elim⟩ (by simp)
          | true => exact h.move ⟨Or.inl hcommand, hroom, fun hc => hc.elim⟩ (by simp)
      · exact absurd hnext (by simp)
  | sigint =>
      obtain ⟨-, heq⟩ := Option.ite_none_left_eq_some.mp hnext
      obtain rfl := Option.some.inj heq
      exact ⟨h.recorded, h.config, h.placed, h.inList, h.late, fun hlate =>
        ⟨rfl, (h.reading hlate).2⟩⟩
  | handlerBlocks pid =>
      obtain ⟨hpc, rfl⟩ := next_handlerBlocks hnext
      exact h.handlerBlocks hpc pid
  | lock =>
      rcases next_lock hnext with ⟨hpc, rfl⟩ | ⟨hpc, rfl⟩
      all_goals
        obtain ⟨hcommand, hroom, hcleared⟩ := h.placedAt hpc
        exact h.move ⟨hcommand, hroom, hcleared⟩ (by simp)
  | unlock =>
      rcases next_unlock hnext with ⟨hpc, rfl⟩ | ⟨hpc, rfl⟩
      · obtain ⟨hcommand, hroom, hcleared⟩ := h.placedAt hpc
        exact h.move ⟨Or.inl hcommand, hroom, hcleared⟩ (by simp)
      · obtain ⟨hcommand, hroom, hcleared⟩ := h.placedAt hpc
        exact h.move ⟨hcommand, hroom, hcleared⟩ (by simp)
  | test =>
      simp only [next] at hnext
      split at hnext
      · next hpc =>
          obtain rfl := Option.some.inj hnext
          obtain ⟨hcommand, hroom, -⟩ := h.placedAt hpc
          by_cases hrunning : s.running = true
          · rw [if_pos hrunning]
            exact h.move ⟨hcommand, hroom, fun hc => hc.elim⟩ fun _ => hrunning
          · rw [if_neg hrunning]
            exact h.move ⟨Or.inl hcommand, hroom, fun hc => hc.elim⟩ (by simp)
      · exact absurd hnext (by simp)
  | read command =>
      simp only [next] at hnext
      split at hnext
      · next hpc =>
          split at hnext
          · exact Option.some.inj hnext ▸ h.read hpc (Or.inl rfl) id
          · split at hnext
            · exact Option.some.inj hnext ▸ h.read hpc (Or.inr rfl) fun _ => rfl
            · exact Option.some.inj hnext ▸ h.read hpc (Or.inr rfl) id
      · exact absurd hnext (by simp)
  | load file =>
      simp only [next] at hnext
      split at hnext
      · next hpc =>
          obtain ⟨⟨config, thrown⟩, -, rfl⟩ := Option.map_eq_some_iff.mp hnext
          have hnone := h.no_child (by rw [hpc]; trivial)
          have hinList := h.inList
          obtain ⟨hcommand, -, hcleared⟩ := h.placedAt hpc
          have hempty : s.manager.childPids = [] := hcleared trivial
          refine ⟨h.recorded, fun pid hlive => absurd (hnone pid) hlive, ?_, hinList, h.late,
            fun hlate => ⟨(h.reading hlate).1, ?_⟩⟩
          · dsimp only
            split
            · refine ⟨hcommand ▸ hosts_forking true s.cpuCores, ?_, fun hc => hc.elim⟩
              rw [hempty]
              exact (Nat.zero_add _).le
            · refine ⟨hcommand, ?_, fun _ => hempty⟩
              rw [hempty]
              exact Nat.zero_le _
          · dsimp only
            split <;> simp
      · exact absurd hnext (by simp)

theorem kept_of_reachable {guard : State → Action → Prop} (h : system.Reachable guard s) :
    Kept s := by
  refine h.invariant ?_ fun state a next _ hstep hkept => hkept.step hstep
  intro state hinit
  obtain ⟨config, cpuCores, rfl⟩ := hinit
  exact kept_start config cpuCores

/-- The children to be waited for are no more than one start makes. -/
theorem Placed.length_pending_le {pc : Pc} {manager : ForkManager.State} {cpuCores : ℕ}
    (h : Placed pc manager cpuCores) : manager.pending.length ≤ cpuCores := by
  have hroom := h.room
  have hforked : manager.pc.justForked.length ≤ pc.room := by
    cases hm : manager.pc with
    | forked pid =>
        have hhosts := h.hosts
        rw [hm] at hhosts
        cases pc with
        | forking again left =>
            cases left with
            | zero => exact absurd hhosts (by simp [Pc.Hosts])
            | succ left => exact Nat.succ_le_succ (Nat.zero_le left)
        | _ => simp [Pc.Hosts] at hhosts
    | _ => exact Nat.zero_le _
  unfold ForkManager.State.pending
  rw [List.length_append, List.length_drop]
  omega

/-- **No orphan, no mixture, no second command.**  However forks, exits, signals and commands are
interleaved, every child has the configuration that is loaded, there are at most `cpu_cores` of
them, when `main` returns or is left by an exception there are none, and when `running` has been
cleared at most one more command is read. -/
theorem children_of_one_start (h : system.Reachable Transition.anyStep s) :
    (∀ pid, s.manager.procs pid ≠ .notChild → s.childConfig pid = s.config) ∧
      (∀ pids : List Pid, pids.Nodup → (∀ pid ∈ pids, s.manager.procs pid ≠ .notChild) →
        pids.length ≤ s.cpuCores) ∧
      (s.pc = .returned ∨ s.pc = .aborted → ∀ pid, s.manager.procs pid = .notChild) ∧
      s.late ≤ 1 := by
  have hkept := kept_of_reachable h
  refine ⟨hkept.config, fun pids hnodup hlive => ?_, fun hended => ?_, hkept.late⟩
  · have hsub : pids ⊆ s.manager.pending := fun pid hpid => hkept.recorded pid (hlive pid hpid)
    calc pids.length ≤ s.manager.pending.length := List.Nodup.length_le_of_subset hnodup hsub
      _ ≤ s.cpuCores := hkept.placed.length_pending_le
  · apply hkept.no_child
    rcases hended with hpc | hpc <;> rw [hpc] <;> trivial

/-- One child is forked, ends, and `main` is told to stop. -/
def exitRun : List Action :=
  [.manager (.fork 100), .manager .pushBack, .forked, .test, .read (ascii "exit"),
    .manager .monitorChildren, .manager .checkChild, .manager .checkChild, .manager .monitorReturns,
    .test, .manager .terminateAll, .manager .kill, .manager (.childExits 100), .manager .waitpid,
    .manager .clear]

theorem children_of_one_start_exit :
    ∃ s, system.exec (start .empty 1) exitRun = some s ∧ s.pc = .returned ∧
      ∀ pid, s.manager.procs pid = .notChild := by
  have hrun : (system.exec (start .empty 1) exitRun).map State.pc = some .returned := by
    decide +kernel
  obtain ⟨s, hexec, hpc⟩ := Option.map_eq_some_iff.mp hrun
  have hinit : system.init (start .empty 1) := ⟨_, _, rfl⟩
  have hreachable := Transition.System.reachable_of_exec hinit hexec
  exact ⟨s, hexec, hpc, (children_of_one_start hreachable).2.2.1 (Or.inl hpc)⟩

end

end Commands

end Sok.Server
