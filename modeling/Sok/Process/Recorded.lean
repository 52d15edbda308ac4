import Sok.Process.Children

/-!
# Every child is recorded

`ForkManager` never forgets a child: one that has not been reaped stands in `child_pids`, and
in `terminateAll` it stands behind the iterator.  This holds without the condition of
`Tracked`, also where the signal handler reaps recorded children and their pids are used again.
-/

namespace Sok.ForkManager

/-- The position of the iterator in `terminateAll`. -/
def Pc.position : Pc → ℕ
  | .terminating _ i => i
  | .waiting _ i => i
  | _ => 0

/-- The children that are still to be waited for: in `terminateAll` those behind the iterator. -/
def State.pending (s : State) : List Pid :=
  s.childPids.drop s.pc.position ++ s.pc.justForked

/-- Every child that has not been reaped is still to be waited for. -/
def AllRecorded (s : State) : Prop :=
  ∀ pid, s.procs pid ≠ .notChild → pid ∈ s.pending

theorem allRecorded_start : AllRecorded start :=
  fun _ hpid => absurd rfl hpid

section

variable {s t : State}

theorem next_waitpid (h : next s .waitpid = some t) :
    ∃ before i pid, s.pc = .waiting before i ∧ s.childPids[i]? = some pid ∧
      s.procs pid ≠ .running ∧
      t = { s with
        procs := Function.update s.procs pid .notChild
        pc := .terminating before (i + 1) } := by
  simp only [next] at h
  split at h
  · rename_i before i hpc
    split at h
    · rename_i pid hget
      split at h
      · exact absurd h (by simp)
      · rename_i hrunning
        exact ⟨before, i, pid, hpc, hget, hrunning, (Option.some.inj h).symm⟩
    · exact absurd h (by simp)
  · exact absurd h (by simp)

theorem next_clear (h : next s .clear = some t) :
    ∃ before i, s.pc = .terminating before i ∧ s.childPids.length ≤ i ∧
      t = { s with childPids := [], pc := .command } := by
  simp only [next] at h
  split at h
  · rename_i before i hpc
    obtain ⟨hlength, heq⟩ := Option.ite_none_left_eq_some.mp h
    exact ⟨before, i, hpc, Nat.not_lt.mp hlength, (Option.some.inj heq).symm⟩
  · exact absurd h (by simp)

theorem next_kill (h : next s .kill = some t) :
    ∃ before i, s.pc = .terminating before i ∧ i < s.childPids.length ∧
      t = { s with pc := .waiting before i } := by
  simp only [next] at h
  split at h
  · rename_i before i hpc
    obtain ⟨hlength, heq⟩ := Option.ite_none_right_eq_some.mp h
    exact ⟨before, i, hpc, hlength, (Option.some.inj heq).symm⟩
  · exact absurd h (by simp)

theorem next_checkChild (h : next s .checkChild = some t) :
    ∃ before i, s.pc = .monitoring before i ∧
      ((∃ pid, s.childPids[i]? = some pid ∧ s.procs pid = .exited ∧
          t = { s with
            procs := Function.update s.procs pid .notChild
            childPids := s.childPids.eraseIdx i }) ∨
        (i < s.childPids.length ∧ t = { s with pc := .monitoring before (i + 1) }) ∨
        t = { s with pc := .monitored before }) := by
  simp only [next] at h
  split at h
  · rename_i before i hpc
    refine ⟨before, i, hpc, ?_⟩
    split at h
    · rename_i pid hget
      split at h
      · exact Or.inl ⟨pid, hget, ‹_›, (Option.some.inj h).symm⟩
      · have hlength := (List.getElem?_eq_some_iff.mp hget).1
        exact Or.inr (Or.inl ⟨hlength, (Option.some.inj h).symm⟩)
    · exact Or.inr (Or.inr (Option.some.inj h).symm)
  · exact absurd h (by simp)

/-- Reaping one child is no loss to the others. -/
theorem ne_of_update {procs : Pid → Status} {pid other : Pid}
    (h : Function.update procs pid .notChild other ≠ .notChild) :
    other ≠ pid ∧ procs other ≠ .notChild := by
  by_cases heq : other = pid
  · subst heq
    exact absurd (Function.update_self other Status.notChild procs) h
  · rw [Function.update_of_ne heq] at h
    exact ⟨heq, h⟩

/-- A child is one that was there, or the one just forked. -/
theorem live_of_next {a : Action} (hnext : next s a = some t) {pid : Pid}
    (hlive : t.procs pid ≠ .notChild) : a = .fork pid ∨ s.procs pid ≠ .notChild := by
  cases step_of_next hnext with
  | @fork other hpc hother =>
      by_cases heq : pid = other
      · exact Or.inl (by rw [heq])
      · exact Or.inr (by simpa [Function.update_of_ne heq] using hlive)
  | @childExits other hother =>
      by_cases heq : pid = other
      · exact Or.inr (by rw [heq, hother]; simp)
      · exact Or.inr (by simpa [Function.update_of_ne heq] using hlive)
  | sigchld =>
      refine Or.inr fun hnone => hlive ?_
      show sigchldHandler s.procs pid = .notChild
      rw [sigchldHandler_of_ne (by rw [hnone]; simp), hnone]
  | reaped hpc hget => exact Or.inr (ne_of_update hlive).2
  | waitpid hpc => exact Or.inr (ne_of_update hlive).2
  | pushBack hpc | monitorChildren hpc | kept hpc | monitored hpc | monitorReturns hpc
  | terminateAll hpc | kill hpc | clear hpc => exact Or.inr hlive

theorem AllRecorded.of_pending_eq (h : AllRecorded s) {a : Action} (hnext : next s a = some t)
    (hfork : ∀ pid, a ≠ .fork pid) (hpending : t.pending = s.pending) : AllRecorded t := by
  intro pid hpid
  rw [hpending]
  exact h pid ((live_of_next hnext hpid).resolve_left (hfork pid))

/-- At `waitpid` the iterator is in the list. -/
def InList (s : State) : Prop :=
  ∀ before i, s.pc = .waiting before i → i < s.childPids.length

theorem InList.step (h : InList s) {a : Action} (hnext : next s a = some t) : InList t := by
  intro before i hpc
  cases step_of_next hnext with
  | childExits _ => exact h before i hpc
  | sigchld => exact h before i hpc
  | kill hterminating =>
      obtain ⟨before', i', -, hlt, heq⟩ := next_kill hnext
      rw [heq] at hpc
      obtain ⟨-, rfl⟩ := Pc.waiting.inj hpc
      exact hlt
  | reaped hmonitoring hget =>
      have hpc : s.pc = .waiting before i := hpc
      rw [hmonitoring] at hpc
      exact absurd hpc (by simp)
  | fork _ _ | pushBack _ | monitorChildren _ | kept _ | monitored _ | monitorReturns _
  | terminateAll _ | waitpid _ | clear _ => exact absurd hpc (by simp)

theorem AllRecorded.step (h : AllRecorded s) {a : Action} (hnext : next s a = some t) :
    AllRecorded t := by
  cases a with
  | fork pid =>
      cases step_of_next hnext with
      | fork hpc hpid =>
          intro other hother
          have hlist : s.pending = s.childPids := by
            simp [State.pending, hpc, Pc.position, Pc.justForked]
          show other ∈ s.childPids.drop 0 ++ [pid]
          rcases live_of_next hnext hother with heq | hold
          · exact List.mem_append_right _ (List.mem_singleton.mpr (Action.fork.inj heq).symm)
          · exact List.mem_append_left _ (hlist ▸ h other hold)
  | pushBack =>
      cases step_of_next hnext with
      | pushBack hpc =>
          apply h.of_pending_eq hnext (by simp)
          simp [State.pending, hpc, Pc.position, Pc.justForked]
  | childExits pid =>
      cases step_of_next hnext with
      | childExits hpid => exact h.of_pending_eq hnext (by simp) rfl
  | sigchld =>
      cases step_of_next hnext with
      | sigchld => exact h.of_pending_eq hnext (by simp) rfl
  | monitorChildren =>
      cases step_of_next hnext with
      | monitorChildren hpc =>
          apply h.of_pending_eq hnext (by simp)
          simp [State.pending, hpc, Pc.position, Pc.justForked]
  | checkChild =>
      obtain ⟨before, i, hpc, ⟨pid, hget, -, rfl⟩ | ⟨-, rfl⟩ | rfl⟩ := next_checkChild hnext
      · intro other hother
        obtain ⟨hne, hold⟩ := ne_of_update hother
        have hmem := h other hold
        simp only [State.pending, hpc, Pc.position, Pc.justForked, List.drop_zero,
          List.append_nil] at hmem ⊢
        obtain ⟨j, hj⟩ := List.mem_iff_getElem?.mp hmem
        refine List.mem_eraseIdx_iff_getElem?.mpr ⟨j, fun heq => ?_, hj⟩
        rw [heq, hget] at hj
        exact hne (Option.some.inj hj).symm
      · apply h.of_pending_eq hnext (by simp)
        simp [State.pending, hpc, Pc.position, Pc.justForked]
      · apply h.of_pending_eq hnext (by simp)
        simp [State.pending, hpc, Pc.position, Pc.justForked]
  | monitorReturns =>
      cases step_of_next hnext with
      | monitorReturns hpc =>
          apply h.of_pending_eq hnext (by simp)
          simp [State.pending, hpc, Pc.position, Pc.justForked]
  | terminateAll =>
      cases step_of_next hnext with
      | terminateAll hpc =>
          apply h.of_pending_eq hnext (by simp)
          simp [State.pending, hpc, Pc.position, Pc.justForked]
  | kill =>
      obtain ⟨before, i, hpc, -, rfl⟩ := next_kill hnext
      apply h.of_pending_eq hnext (by simp)
      simp [State.pending, hpc, Pc.position, Pc.justForked]
  | waitpid =>
      obtain ⟨before, i, pid, hpc, hget, -, rfl⟩ := next_waitpid hnext
      intro other hother
      obtain ⟨hne, hold⟩ := ne_of_update hother
      have hmem := h other hold
      obtain ⟨hi, hpid⟩ := List.getElem?_eq_some_iff.mp hget
      simp only [State.pending, hpc, Pc.position, Pc.justForked, List.append_nil] at hmem ⊢
      rw [List.drop_eq_getElem_cons hi, hpid] at hmem
      exact (List.mem_cons.mp hmem).resolve_left hne
  | clear =>
      obtain ⟨before, i, hpc, hlength, rfl⟩ := next_clear hnext
      intro other hother
      have hmem := h other hother
      simp only [State.pending, hpc, Pc.position, Pc.justForked, List.append_nil,
        List.drop_eq_nil_of_le hlength] at hmem
      exact absurd hmem List.not_mem_nil

end

end Sok.ForkManager
