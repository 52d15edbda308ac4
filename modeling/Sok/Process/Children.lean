import Mathlib.Data.List.Nodup
import Mathlib.Logic.Function.Basic
import Sok.Foundation.Transition

/-!
# The children of the parent process

`ForkManager` keeps the pids of the children in `child_pids`.  Two parties reap:
its own `monitorChildren` and `terminateAll`, which wait for one pid at a time, and
the signal handler `sigchld_handler`, which waits for any child and knows nothing of
`child_pids`.

The parties are the parent, whose calls are broken up at every system call, the
children, which may exit at any time, and the kernel, which may deliver `SIGCHLD`
between any two steps.  A pid that has been reaped is free: the kernel may give it
to any other process, or to the next child.
-/

namespace Sok.ForkManager

abbrev Pid := ℕ

/-- What a pid is to the parent. -/
inductive Status
  /-- Not a child: never forked, or reaped. -/
  | notChild
  | running
  /-- Exited and not reaped. -/
  | exited
  deriving DecidableEq, Repr

/-- Where the parent is; `before` is the state of the pids when the call began, and
the number is the position of the iterator in `child_pids`. -/
inductive Pc
  /-- Between two calls. -/
  | command
  /-- `fork` has returned; `push_back` comes next. -/
  | forked (pid : Pid)
  /-- In the loop of `monitorChildren`. -/
  | monitoring (before : Pid → Status) (i : ℕ)
  /-- `monitorChildren` returns. -/
  | monitored (before : Pid → Status)
  /-- In the loop of `terminateAll`, at `kill`. -/
  | terminating (before : Pid → Status) (i : ℕ)
  /-- At `waitpid`. -/
  | waiting (before : Pid → Status) (i : ℕ)

namespace Pc

def inTerminateAll : Pc → Bool
  | .terminating _ _ => true
  | .waiting _ _ => true
  | _ => false

/-- The child that is not entered in `child_pids` yet. -/
def justForked : Pc → List Pid
  | .forked pid => [pid]
  | _ => []

/-- The state of the pids when the call began that is under way. -/
def before : Pc → Option (Pid → Status)
  | .monitoring before _ => some before
  | .monitored before => some before
  | .terminating before _ => some before
  | .waiting before _ => some before
  | _ => none

end Pc

structure State where
  procs : Pid → Status
  childPids : List Pid
  pc : Pc

/-- The parent before its first fork. -/
def start : State where
  procs _ := .notChild
  childPids := []
  pc := .command

/-- What `sigchld_handler` does: it reaps every child that has exited. -/
def sigchldHandler (procs : Pid → Status) : Pid → Status := fun pid =>
  match procs pid with
  | .exited => .notChild
  | status => status

theorem sigchldHandler_of_ne {procs : Pid → Status} {pid : Pid} (h : procs pid ≠ .exited) :
    sigchldHandler procs pid = procs pid := by
  unfold sigchldHandler
  split
  · exact absurd ‹_› h
  · rfl

inductive Action
  | fork (pid : Pid)
  | pushBack
  | childExits (pid : Pid)
  | sigchld
  | monitorChildren
  /-- `waitpid(*it, nullptr, WNOHANG)`, and the erase when it reaped. -/
  | checkChild
  | monitorReturns
  | terminateAll
  | kill
  /-- `waitpid(pid, nullptr, 0)`, which blocks while the child is running. -/
  | waitpid
  | clear
  deriving DecidableEq, Repr

/-- A step of the parent, the children or the kernel; `none` when it is not enabled. -/
def next (s : State) : Action → Option State
  -- `createChildProcess`
  | .fork pid =>
      match s.pc, s.procs pid with
      | .command, .notChild =>
          some { s with procs := Function.update s.procs pid .running, pc := .forked pid }
      | _, _ => none
  | .pushBack =>
      match s.pc with
      | .forked pid => some { s with childPids := s.childPids ++ [pid], pc := .command }
      | _ => none
  | .childExits pid =>
      match s.procs pid with
      | .running => some { s with procs := Function.update s.procs pid .exited }
      | _ => none
  | .sigchld => some { s with procs := sigchldHandler s.procs }
  -- `monitorChildren`
  | .monitorChildren =>
      match s.pc with
      | .command => some { s with pc := .monitoring s.procs 0 }
      | _ => none
  | .checkChild =>
      match s.pc with
      | .monitoring before i =>
          match s.childPids[i]? with
          | some pid =>
              if s.procs pid = .exited then
                some { s with
                  procs := Function.update s.procs pid .notChild
                  childPids := s.childPids.eraseIdx i }
              else some { s with pc := .monitoring before (i + 1) }
          | none => some { s with pc := .monitored before }
      | _ => none
  | .monitorReturns =>
      match s.pc with
      | .monitored _ => some { s with pc := .command }
      | _ => none
  -- `terminateAll`
  | .terminateAll =>
      match s.pc with
      | .command => some { s with pc := .terminating s.procs 0 }
      | _ => none
  | .kill =>
      match s.pc with
      | .terminating before i =>
          if i < s.childPids.length then some { s with pc := .waiting before i } else none
      | _ => none
  | .waitpid =>
      match s.pc with
      | .waiting before i =>
          match s.childPids[i]? with
          | some pid =>
              match s.procs pid with
              | .running => none
              | _ => some { s with
                  procs := Function.update s.procs pid .notChild
                  pc := .terminating before (i + 1) }
          | none => none
      | _ => none
  | .clear =>
      match s.pc with
      | .terminating _ i =>
          if i < s.childPids.length then none else some { s with childPids := [], pc := .command }
      | _ => none

/-- The parent, its children and the kernel. -/
def system : Transition.System State Action where
  init s := s = start
  step := next

/-! ## What a step can do -/

/-- The enabled steps, one constructor for each branch of `next`. -/
inductive Step (s : State) : Action → State → Prop
  | fork {pid : Pid} (hpc : s.pc = .command) (hpid : s.procs pid = .notChild) :
      Step s (.fork pid)
        { s with procs := Function.update s.procs pid .running, pc := .forked pid }
  | pushBack {pid : Pid} (hpc : s.pc = .forked pid) :
      Step s .pushBack { s with childPids := s.childPids ++ [pid], pc := .command }
  | childExits {pid : Pid} (hpid : s.procs pid = .running) :
      Step s (.childExits pid) { s with procs := Function.update s.procs pid .exited }
  | sigchld : Step s .sigchld { s with procs := sigchldHandler s.procs }
  | monitorChildren (hpc : s.pc = .command) :
      Step s .monitorChildren { s with pc := .monitoring s.procs 0 }
  | reaped {before : Pid → Status} {i : ℕ} {pid : Pid} (hpc : s.pc = .monitoring before i)
      (hget : s.childPids[i]? = some pid) :
      Step s .checkChild
        { s with
          procs := Function.update s.procs pid .notChild
          childPids := s.childPids.eraseIdx i }
  | kept {before : Pid → Status} {i : ℕ} (hpc : s.pc = .monitoring before i) :
      Step s .checkChild { s with pc := .monitoring before (i + 1) }
  | monitored {before : Pid → Status} {i : ℕ} (hpc : s.pc = .monitoring before i) :
      Step s .checkChild { s with pc := .monitored before }
  | monitorReturns {before : Pid → Status} (hpc : s.pc = .monitored before) :
      Step s .monitorReturns { s with pc := .command }
  | terminateAll (hpc : s.pc = .command) :
      Step s .terminateAll { s with pc := .terminating s.procs 0 }
  | kill {before : Pid → Status} {i : ℕ} (hpc : s.pc = .terminating before i) :
      Step s .kill { s with pc := .waiting before i }
  | waitpid {before : Pid → Status} {i : ℕ} {pid : Pid} (hpc : s.pc = .waiting before i) :
      Step s .waitpid
        { s with
          procs := Function.update s.procs pid .notChild
          pc := .terminating before (i + 1) }
  | clear {before : Pid → Status} {i : ℕ} (hpc : s.pc = .terminating before i) :
      Step s .clear { s with childPids := [], pc := .command }

theorem step_of_next {s result : State} {a : Action} (h : next s a = some result) :
    Step s a result := by
  cases a with
  | fork pid =>
      simp only [next] at h
      split at h
      · exact Option.some.inj h ▸ .fork ‹_› ‹_›
      · exact absurd h (by simp)
  | pushBack =>
      simp only [next] at h
      split at h
      · exact Option.some.inj h ▸ .pushBack ‹_›
      · exact absurd h (by simp)
  | childExits pid =>
      simp only [next] at h
      split at h
      · exact Option.some.inj h ▸ .childExits ‹_›
      · exact absurd h (by simp)
  | sigchld => exact Option.some.inj h ▸ .sigchld
  | monitorChildren =>
      simp only [next] at h
      split at h
      · exact Option.some.inj h ▸ .monitorChildren ‹_›
      · exact absurd h (by simp)
  | checkChild =>
      simp only [next] at h
      split at h
      · rename_i before i hpc
        split at h
        · rename_i pid hget
          split at h
          · exact Option.some.inj h ▸ .reaped hpc hget
          · exact Option.some.inj h ▸ .kept hpc
        · exact Option.some.inj h ▸ .monitored hpc
      · exact absurd h (by simp)
  | monitorReturns =>
      simp only [next] at h
      split at h
      · exact Option.some.inj h ▸ .monitorReturns ‹_›
      · exact absurd h (by simp)
  | terminateAll =>
      simp only [next] at h
      split at h
      · exact Option.some.inj h ▸ .terminateAll ‹_›
      · exact absurd h (by simp)
  | kill =>
      simp only [next] at h
      split at h
      · obtain ⟨-, heq⟩ := Option.ite_none_right_eq_some.mp h
        exact Option.some.inj heq ▸ .kill ‹_›
      · exact absurd h (by simp)
  | waitpid =>
      simp only [next] at h
      split at h
      · rename_i before i hpc
        split at h
        · split at h
          · exact absurd h (by simp)
          · exact Option.some.inj h ▸ .waitpid hpc
        · exact absurd h (by simp)
      · exact absurd h (by simp)
  | clear =>
      simp only [next] at h
      split at h
      · obtain ⟨-, heq⟩ := Option.ite_none_left_eq_some.mp h
        exact Option.some.inj heq ▸ .clear ‹_›
      · exact absurd h (by simp)

/-! ## The invariant -/

/-- The children the parent knows of: those entered, and the one just forked. -/
def State.recorded (s : State) : List Pid := s.childPids ++ s.pc.justForked

/-- Outside `terminateAll` every pid the parent knows is one of its children, and
none is there twice; a call never finds a pid that was not a child when it began. -/
structure Tracked (s : State) : Prop where
  child : s.pc.inTerminateAll = false → ∀ pid ∈ s.recorded, s.procs pid ≠ .notChild
  nodup : s.pc.inTerminateAll = false → s.recorded.Nodup
  before : ∀ before ∈ s.pc.before, ∀ pid ∈ s.childPids, before pid ≠ .notChild

theorem tracked_start : Tracked start where
  child _ _ h := absurd h (by simp [start, State.recorded, Pc.justForked])
  nodup _ := List.nodup_nil
  before _ h := absurd h (by simp [start, Pc.before])

/-- **The condition.**  Outside `terminateAll` the signal handler finds no child to
reap that the parent knows of. -/
def HandlerSparesRecorded (s : State) (a : Action) : Prop :=
  a = .sigchld → s.pc.inTerminateAll = false → ∀ pid ∈ s.recorded, s.procs pid ≠ .exited

instance (s : State) (a : Action) : Decidable (HandlerSparesRecorded s a) :=
  inferInstanceAs (Decidable (_ → _ → ∀ pid ∈ s.recorded, _))

theorem Tracked.fork {s : State} {pid : Pid} (h : Tracked s) (hpc : s.pc = .command)
    (hpid : s.procs pid = .notChild) :
    Tracked { s with procs := Function.update s.procs pid .running, pc := .forked pid } := by
  have hrecorded : s.recorded = s.childPids := by simp [State.recorded, hpc, Pc.justForked]
  have hchild : ∀ other ∈ s.childPids, s.procs other ≠ .notChild :=
    hrecorded ▸ h.child (by rw [hpc]; rfl)
  have hnew : pid ∉ s.childPids := fun hmem => hchild pid hmem hpid
  constructor
  case child =>
    intro _ other hother
    by_cases heq : other = pid
    · simp [heq]
    · have hmem : other ∈ s.childPids := by
        simpa [State.recorded, Pc.justForked, heq] using hother
      simpa [Function.update_of_ne heq] using hchild other hmem
  case nodup =>
    intro _
    have hnodup : s.childPids.Nodup := hrecorded ▸ h.nodup (by rw [hpc]; rfl)
    simp only [State.recorded, Pc.justForked]
    exact hnodup.append (List.nodup_singleton pid) (by simpa using hnew)
  case before => exact fun _ hbefore => absurd hbefore (by simp [Pc.before])

theorem Tracked.pushBack {s : State} {pid : Pid} (h : Tracked s) (hpc : s.pc = .forked pid) :
    Tracked { s with childPids := s.childPids ++ [pid], pc := .command } := by
  have hrecorded : s.recorded = s.childPids ++ [pid] := by
    simp [State.recorded, hpc, Pc.justForked]
  constructor
  case child =>
    intro _ other hother
    have hmem : other ∈ s.recorded := by
      rw [hrecorded]
      simpa [State.recorded, Pc.justForked] using hother
    exact h.child (by rw [hpc]; rfl) other hmem
  case nodup =>
    intro _
    have hnodup := h.nodup (by rw [hpc]; rfl)
    rw [hrecorded] at hnodup
    simpa [State.recorded, Pc.justForked] using hnodup
  case before => exact fun _ hbefore => absurd hbefore (by simp [Pc.before])

/-- A step of a call, or between calls, that leaves the pids and the list alone. -/
theorem Tracked.move {s : State} {pc : Pc} (h : Tracked s) (hforked : s.pc.justForked = [])
    (hin : s.pc.inTerminateAll = false) (hto : pc.justForked = [])
    (hbefore : ∀ before ∈ pc.before, ∀ pid ∈ s.childPids, before pid ≠ .notChild) :
    Tracked { s with pc := pc } := by
  have hrecorded : ({ s with pc := pc } : State).recorded = s.recorded := by
    simp [State.recorded, hforked, hto]
  constructor
  case child =>
    intro _
    rw [hrecorded]
    exact h.child hin
  case nodup =>
    intro _
    rw [hrecorded]
    exact h.nodup hin
  case before => exact hbefore

/-- A step that changes only the state of the pids, and takes no recorded child away. -/
theorem Tracked.of_procs {s : State} {procs : Pid → Status} (h : Tracked s)
    (hprocs : s.pc.inTerminateAll = false → ∀ pid ∈ s.recorded,
      s.procs pid ≠ .notChild → procs pid ≠ .notChild) :
    Tracked { s with procs := procs } where
  child hpc pid hpid := hprocs hpc pid hpid (h.child hpc pid hpid)
  nodup := h.nodup
  before := h.before

theorem Tracked.reaped {s : State} {before : Pid → Status} {i : ℕ} {pid : Pid} (h : Tracked s)
    (hpc : s.pc = .monitoring before i) (hget : s.childPids[i]? = some pid) :
    Tracked { s with
      procs := Function.update s.procs pid .notChild
      childPids := s.childPids.eraseIdx i } := by
  have hrecorded : s.recorded = s.childPids := by simp [State.recorded, hpc, Pc.justForked]
  have hnodup : s.childPids.Nodup := hrecorded ▸ h.nodup (by rw [hpc]; rfl)
  obtain ⟨hi, hpid⟩ := List.getElem?_eq_some_iff.mp hget
  have hsub : ∀ other ∈ s.childPids.eraseIdx i, other ∈ s.childPids ∧ other ≠ pid := by
    intro other hother
    refine ⟨List.mem_of_mem_eraseIdx hother, fun heq => ?_⟩
    -- the pid stands only once in the list, so it is gone
    obtain ⟨j, hne, hget'⟩ := List.mem_eraseIdx_iff_getElem?.mp hother
    obtain ⟨hj, hjpid⟩ := List.getElem?_eq_some_iff.mp hget'
    exact hne (hnodup.getElem_inj_iff.mp (hjpid.trans (heq.trans hpid.symm)))
  constructor
  case child =>
    intro _ other hother
    have hmem : other ∈ s.childPids.eraseIdx i := by
      simpa [State.recorded, hpc, Pc.justForked] using hother
    obtain ⟨hold, hne⟩ := hsub other hmem
    have hchild := h.child (by rw [hpc]; rfl) other (hrecorded ▸ hold)
    simpa [Function.update_of_ne hne] using hchild
  case nodup =>
    intro _
    simpa [State.recorded, hpc, Pc.justForked] using hnodup.sublist (List.eraseIdx_sublist _ i)
  case before =>
    intro snapshot hsnapshot other hother
    exact h.before snapshot hsnapshot other (hsub other hother).1

/-- Every step that meets the condition keeps the invariant. -/
theorem Tracked.step {s t : State} {a : Action} (hguard : HandlerSparesRecorded s a)
    (hstep : Step s a t) (h : Tracked s) : Tracked t := by
  cases hstep with
  | fork hpc hpid => exact h.fork hpc hpid
  | pushBack hpc => exact h.pushBack hpc
  | @childExits pid hpid =>
      refine h.of_procs fun _ other _ hother => ?_
      by_cases heq : other = pid
      · simp [heq]
      · simpa [Function.update_of_ne heq] using hother
  | sigchld =>
      refine h.of_procs fun hpc pid hpid hchild => ?_
      rw [sigchldHandler_of_ne (hguard rfl hpc pid hpid)]
      exact hchild
  | reaped hpc hget => exact h.reaped hpc hget
  -- a call begins: its snapshot is the present
  | monitorChildren hpc | terminateAll hpc =>
      refine h.move (by rw [hpc]; rfl) (by rw [hpc]; rfl) rfl fun snapshot hsnapshot pid hpid => ?_
      obtain rfl := Option.some.inj hsnapshot
      exact h.child (by rw [hpc]; rfl) pid (List.mem_append_left _ hpid)
  -- a call goes on, with the same list
  | kept hpc | monitored hpc =>
      refine h.move (by rw [hpc]; rfl) (by rw [hpc]; rfl) rfl ?_
      simpa [hpc, Pc.before] using h.before
  | monitorReturns hpc =>
      exact h.move (by rw [hpc]; rfl) (by rw [hpc]; rfl) rfl fun _ hbefore =>
        absurd hbefore (by simp [Pc.before])
  | kill hpc | waitpid hpc =>
      constructor
      case child => exact fun hin => absurd hin (by simp [Pc.inTerminateAll])
      case nodup => exact fun hin => absurd hin (by simp [Pc.inTerminateAll])
      case before => simpa [hpc, Pc.before] using h.before
  | clear _ =>
      constructor
      case child => simp [State.recorded, Pc.justForked]
      case nodup => simp [State.recorded, Pc.justForked]
      case before => exact fun _ hbefore => absurd hbefore (by simp [Pc.before])

theorem reachable_tracked {s : State} (h : system.Reachable HandlerSparesRecorded s) :
    Tracked s := by
  induction h with
  | initial hinit =>
      obtain rfl : _ = start := hinit
      exact tracked_start
  | step _ hguard hstep ih => exact ih.step hguard (step_of_next hstep)

/-! ## What is tracked and signalled -/

/-- When `monitorChildren` returns, the list has no pid that was already reaped when
it was called; `terminateAll` is never about to signal a pid that was already
reaped when it began. -/
structure OnlyLiveChildren (s : State) : Prop where
  monitored : ∀ before, s.pc = .monitored before → ∀ pid ∈ s.childPids, before pid ≠ .notChild
  signalled : ∀ before i pid, s.pc = .terminating before i → s.childPids[i]? = some pid →
    before pid ≠ .notChild

/-- **Only live children are tracked and signalled.**  In every run in which the
signal handler never reaps a recorded child outside `terminateAll`. -/
theorem only_live_children (s : State) (h : system.Reachable HandlerSparesRecorded s) :
    OnlyLiveChildren s where
  monitored before hpc pid hpid :=
    (reachable_tracked h).before before (by rw [hpc]; rfl) pid hpid
  signalled before i pid hpc hget :=
    (reachable_tracked h).before before (by rw [hpc]; rfl) pid (List.mem_of_getElem? hget)

/-- Two children; the first exits and `monitorChildren` comes before the handler. -/
def orderlyRun : List Action :=
  [.fork 100, .pushBack, .fork 101, .pushBack, .childExits 100, .monitorChildren, .checkChild,
    .checkChild, .checkChild, .sigchld, .monitorReturns, .terminateAll]

theorem only_live_children_orderly :
    ∃ s, system.exec start orderlyRun = some s ∧ s.childPids = [101] ∧ OnlyLiveChildren s := by
  have hstate : (system.exec start orderlyRun).map State.childPids = some [101] := by
    decide
  obtain ⟨s, hexec, hpids⟩ := Option.map_eq_some_iff.mp hstate
  refine ⟨s, hexec, hpids, only_live_children s ?_⟩
  exact (Transition.System.Reachable.initial rfl).exec (by decide) hexec

/-- The child exits and the handler reaps it. -/
def reapedRun : List Action :=
  [.fork 100, .pushBack, .childExits 100, .sigchld, .terminateAll]

/-- `terminateAll` is about to signal a pid that is no child any more. -/
theorem reaped_child_signalled :
    ¬ ∀ s, system.Reachable Transition.anyStep s → OnlyLiveChildren s := by
  intro h
  have hstate : (system.exec start reapedRun).map
      (fun s => (s.childPids[0]?, match s.pc with
        | .terminating before i => some (before 100, i)
        | _ => none)) = some (some 100, some (.notChild, 0)) := by
    decide
  obtain ⟨s, hexec, hs⟩ := Option.map_eq_some_iff.mp hstate
  obtain ⟨hget, hpc⟩ := Prod.mk.inj hs
  have hlive := h s (Transition.System.reachable_of_exec (S := system) rfl hexec)
  split at hpc
  · rename_i before i hterm
    obtain ⟨hbefore, rfl⟩ := Prod.mk.inj (Option.some.inj hpc)
    exact hlive.signalled before 0 100 hterm hget hbefore
  · exact absurd hpc (by simp)

end Sok.ForkManager
