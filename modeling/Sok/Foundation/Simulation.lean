import Mathlib.Data.List.Basic
import Mathlib.Order.Nat
import Sok.Foundation.Transition

/-!
# Simulation and termination

A system is compared with a simpler one through a view of its states.  When every
step is, seen through the view, a step of the simpler system, a run is a run of
the simpler system, and what that guarantees of its runs carries over
(`Run.simulates`).

A system whose runs have a bounded length comes to an end on every infinite
sequence of labels (`exists_not_running`).
-/

namespace Transition.System

variable {σ τ α β : Type*} {S : System σ α} {guard : σ → α → Prop}

/-- A list of labels that the guard permits, and the state behind it. -/
structure Run (S : System σ α) (guard : σ → α → Prop) (state : σ) (labels : List α)
    (final : σ) : Prop where
  permits : S.Permits guard state labels
  exec : S.exec state labels = some final

/-! ## Building runs and taking them apart -/

theorem Run.nil (state : σ) : S.Run guard state [] state :=
  ⟨trivial, rfl⟩

theorem Run.eq_of_nil {state final : σ} (h : S.Run guard state [] final) : final = state :=
  (Option.some.inj h.exec).symm

theorem Run.cons {state next final : σ} {label : α} {rest : List α} (hguard : guard state label)
    (hstep : S.step state label = some next) (h : S.Run guard next rest final) :
    S.Run guard state (label :: rest) final := by
  refine ⟨⟨hguard, fun other hother => ?_⟩, ?_⟩
  · obtain rfl : next = other := Option.some.inj (hstep.symm.trans hother)
    exact h.permits
  · rw [System.exec, hstep]
    exact h.exec

theorem Run.exists_of_cons {state final : σ} {label : α} {rest : List α}
    (h : S.Run guard state (label :: rest) final) :
    ∃ next, guard state label ∧ S.step state label = some next ∧ S.Run guard next rest final := by
  obtain ⟨next, hnext, hrest⟩ := Option.bind_eq_some_iff.mp h.exec
  exact ⟨next, h.permits.1, hnext, h.permits.2 next hnext, hrest⟩

theorem Run.snoc {state middle final : σ} {label : α} {labels : List α}
    (h : S.Run guard state labels middle) (hguard : guard middle label)
    (hstep : S.step middle label = some final) : S.Run guard state (labels ++ [label]) final := by
  induction labels generalizing state with
  | nil =>
      obtain rfl := h.eq_of_nil
      exact Run.cons hguard hstep (Run.nil final)
  | cons first rest ih =>
      obtain ⟨next, hfirst, hnext, hrest⟩ := h.exists_of_cons
      exact Run.cons hfirst hnext (ih hrest)

theorem Run.append {state middle final : σ} {labels more : List α}
    (h : S.Run guard state labels middle) (hmore : S.Run guard middle more final) :
    S.Run guard state (labels ++ more) final := by
  induction labels generalizing state with
  | nil =>
      obtain rfl := h.eq_of_nil
      exact hmore
  | cons first rest ih =>
      obtain ⟨next, hfirst, hnext, hrest⟩ := h.exists_of_cons
      exact Run.cons hfirst hnext (ih hrest)

/-! ## Simulation -/

/-- What is preserved by the steps and makes each of them, seen through the view, a step of `T`
makes a run a run of `T`. -/
theorem Run.simulates {T : System τ β} {guard' : τ → β → Prop} {view : σ → τ} {act : α → β}
    {Inv : σ → Prop}
    (hsim : ∀ state label next, Inv state → guard state label →
      S.step state label = some next →
      Inv next ∧ guard' (view state) (act label) ∧
        T.step (view state) (act label) = some (view next))
    {state final : σ} {labels : List α} (hinv : Inv state) (h : S.Run guard state labels final) :
    Inv final ∧ T.Run guard' (view state) (labels.map act) (view final) := by
  induction labels generalizing state with
  | nil =>
      obtain rfl := h.eq_of_nil
      exact ⟨hinv, Run.nil _⟩
  | cons label rest ih =>
      obtain ⟨next, hguard, hstep, hrest⟩ := h.exists_of_cons
      obtain ⟨hnext, hguard', hstep'⟩ := hsim state label next hinv hguard hstep
      obtain ⟨hfinal, hrun⟩ := ih hnext hrest
      exact ⟨hfinal, Run.cons hguard' hstep' hrun⟩

/-- The same for a relation and for what can be seen of the labels: where every step is matched by a
run of `T` that shows the same, a run is matched by a run with the same history. -/
theorem Run.simulates_history {T : System τ β} {guard' : τ → β → Prop} {ε : Type*}
    {shown : α → Option ε} {shown' : β → Option ε} {Related : σ → τ → Prop}
    (hsim : ∀ state label next view, Related state view → guard state label →
      S.step state label = some next →
      ∃ labels' view', T.Run guard' view labels' view' ∧
        labels'.filterMap shown' = [label].filterMap shown ∧ Related next view')
    {state final : σ} {labels : List α} {view : τ} (hrelated : Related state view)
    (h : S.Run guard state labels final) :
    ∃ labels' view', T.Run guard' view labels' view' ∧
      labels'.filterMap shown' = labels.filterMap shown ∧ Related final view' := by
  induction labels generalizing state view with
  | nil =>
      obtain rfl := h.eq_of_nil
      exact ⟨[], view, Run.nil view, rfl, hrelated⟩
  | cons label rest ih =>
      obtain ⟨next, hguard, hstep, hrest⟩ := h.exists_of_cons
      obtain ⟨first, middle, hfirst, hshown, hnext⟩ := hsim state label next view hrelated hguard hstep
      obtain ⟨later, view', hlater, hshown', hfinal⟩ := ih hnext hrest
      refine ⟨first ++ later, view', hfirst.append hlater, ?_, hfinal⟩
      calc (first ++ later).filterMap shown'
          = first.filterMap shown' ++ later.filterMap shown' := List.filterMap_append
        _ = [label].filterMap shown ++ rest.filterMap shown := by rw [hshown, hshown']
        _ = (label :: rest).filterMap shown := by rw [← List.filterMap_append, List.singleton_append]

/-- Where a step is possible exactly if it is one of `T`, seen through the view, so is a list of
steps. -/
theorem exec_map_of_step {T : System τ α} {view : σ → τ} {Inv : σ → Prop}
    (hview : ∀ state label, Inv state → (S.step state label).map view = T.step (view state) label)
    (hinv : ∀ state label next, Inv state → S.step state label = some next → Inv next)
    {state : σ} (h : Inv state) (labels : List α) :
    (S.exec state labels).map view = T.exec (view state) labels := by
  induction labels generalizing state with
  | nil => rfl
  | cons label rest ih =>
      rw [System.exec, System.exec, ← hview state label h]
      cases hstep : S.step state label with
      | none => rfl
      | some next => exact ih (hinv state label next h hstep)

/-! ## Leaving an invariant -/

/-- A run that has left what holds at its start has made one of the steps that lead out. -/
theorem Run.exists_exit {Inv : σ → Prop} {Exits : σ → α → Prop}
    (hstep : ∀ state label next, Inv state → guard state label → S.step state label = some next →
      Inv next ∨ Exits state label)
    {state final : σ} {labels : List α} (hinv : Inv state) (h : S.Run guard state labels final)
    (hleft : ¬ Inv final) :
    ∃ front label back middle, labels = front ++ label :: back ∧ S.Run guard state front middle ∧
      Inv middle ∧ Exits middle label ∧ (S.step middle label).isSome := by
  induction labels generalizing state with
  | nil =>
      obtain rfl := h.eq_of_nil
      exact absurd hinv hleft
  | cons label rest ih =>
      obtain ⟨next, hguard, hnext, hrest⟩ := h.exists_of_cons
      rcases hstep state label next hinv hguard hnext with hstays | hexits
      · obtain ⟨front, last, back, middle, hlabels, hfront, hmiddle⟩ := ih hstays hrest
        exact ⟨label :: front, last, back, middle, by rw [hlabels]; rfl,
          Run.cons hguard hnext hfront, hmiddle⟩
      · exact ⟨[], label, rest, state, rfl, Run.nil state, hinv, hexits, by rw [hnext]; rfl⟩

/-! ## Termination -/

/-- Where no step of a run raises the rank, and the steps of one party lower it, that party makes no
more steps than the rank at the start. -/
theorem Run.countP_add_rank_le {Inv : σ → Prop} {rank : σ → ℕ} {mine : α → Bool}
    (hstep : ∀ state label next, Inv state → guard state label → S.step state label = some next →
      Inv next ∧ (if mine label then 1 else 0) + rank next ≤ rank state)
    {state final : σ} {labels : List α} (hinv : Inv state) (h : S.Run guard state labels final) :
    labels.countP mine + rank final ≤ rank state := by
  induction labels generalizing state with
  | nil =>
      obtain rfl := h.eq_of_nil
      rw [List.countP_nil, Nat.zero_add]
  | cons label rest ih =>
      obtain ⟨next, hguard, hnext, hrest⟩ := h.exists_of_cons
      obtain ⟨hinv', hrank⟩ := hstep state label next hinv hguard hnext
      have hlater := ih hinv' hrest
      rw [List.countP_cons]
      omega

/-- Where every step lowers the rank, a run is no longer than the rank at the start. -/
theorem Run.length_add_rank_le {Inv : σ → Prop} {rank : σ → ℕ}
    (hstep : ∀ state label next, Inv state → guard state label → S.step state label = some next →
      Inv next ∧ rank next < rank state)
    {state final : σ} {labels : List α} (hinv : Inv state) (h : S.Run guard state labels final) :
    labels.length + rank final ≤ rank state := by
  rw [← List.countP_true]
  refine h.countP_add_rank_le (fun state label next hinv hguard hnext => ?_) hinv
  obtain ⟨hinv', hlower⟩ := hstep state label next hinv hguard hnext
  refine ⟨hinv', ?_⟩
  rw [if_pos rfl, Nat.add_comm]
  exact hlower

/-- When runs are no longer than a bound, and a running system can take whatever label comes,
it stops running within the bound. -/
theorem exists_not_running {Running : σ → Prop} {state : σ} {bound : ℕ}
    (hstep : ∀ state label, Running state → ∃ next, S.step state label = some next)
    (hbound : ∀ labels final, S.Run guard state labels final → labels.length ≤ bound)
    (labels : ℕ → α)
    (hguard : ∀ n middle, S.Run guard state ((List.range n).map labels) middle →
      Running middle → guard middle (labels n)) :
    ∃ n ≤ bound, ∃ final, S.Run guard state ((List.range n).map labels) final ∧
      ¬ Running final := by
  by_contra hnone
  have hrun : ∀ n ≤ bound + 1, ∃ final, S.Run guard state ((List.range n).map labels) final := by
    intro n
    induction n with
    | zero =>
        intro _
        exact ⟨state, Run.nil state⟩
    | succ n ih =>
        intro hn
        obtain ⟨middle, hmiddle⟩ := ih (by omega)
        have hrunning : Running middle := by
          by_contra hstops
          exact hnone ⟨n, by omega, middle, hmiddle, hstops⟩
        obtain ⟨next, hnext⟩ := hstep middle (labels n) hrunning
        refine ⟨next, ?_⟩
        rw [List.range_succ, List.map_append]
        exact hmiddle.snoc (hguard n middle hmiddle hrunning) hnext
  obtain ⟨final, hfinal⟩ := hrun (bound + 1) le_rfl
  have hlength := hbound _ _ hfinal
  rw [List.length_map, List.length_range] at hlength
  omega

end Transition.System
