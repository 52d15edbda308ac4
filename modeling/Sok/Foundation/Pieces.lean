import Mathlib.Data.List.Infix
import Sok.Foundation.Simulation
import Sok.Foundation.Transfer

/-!
# A transfer step by step

What a loop that moves a source in pieces is for: each step moves at least one of
the elements that are left, or stops the transfer.  A loop with its own bookkeeping is
compared with `moving` by a view of its states, and has the results below from it:
what it has put out is a prefix of the source, and it ends.
-/

namespace Transfer

open Transition (System)

variable {σ α β ε R : Type*}

/-- A transfer between two of its steps. -/
structure Moving (β : Type*) where
  /-- The elements put out. -/
  out : List β
  stopped : Bool

namespace Moving

/-- The transfer goes on. -/
def Running (source : List β) (state : Moving β) : Prop :=
  state.stopped = false ∧ state.out.length < source.length

instance (source : List β) (state : Moving β) : Decidable (state.Running source) :=
  inferInstanceAs (Decidable (_ ∧ _))

end Moving

/-- A step moves a number of elements, or stops the transfer. -/
def moving (source : List β) : System (Moving β) (Option ℕ) where
  init state := state = ⟨[], false⟩
  step state label :=
    if state.Running source then
      match label with
      | none => some { state with stopped := true }
      | some count =>
          some { state with out := state.out ++ (source.drop state.out.length).take count }
    else none

/-- A step that does not stop the transfer moves something, and no more than there is left. -/
def Moves (source : List β) (state : Moving β) (label : Option ℕ) : Prop :=
  ∀ count ∈ label, 0 < count ∧ state.out.length + count ≤ source.length

variable {source : List β} {state next final : Moving β} {labels : List (Option ℕ)}

theorem moves_none : Moves source state none :=
  fun count hcount => absurd hcount (by simp)

theorem moves_some {count : ℕ} (hpos : 0 < count)
    (hle : state.out.length + count ≤ source.length) : Moves source state (some count) := by
  intro moved hmoved
  obtain rfl := Option.some.inj hmoved
  exact ⟨hpos, hle⟩

theorem moving_stop (h : state.Running source) :
    (moving source).step state none = some { state with stopped := true } := by
  simp only [moving, if_pos h]

theorem moving_some (h : state.Running source) (count : ℕ) :
    (moving source).step state (some count) =
      some { state with out := state.out ++ (source.drop state.out.length).take count } := by
  simp only [moving, if_pos h]

theorem moving_cases {label : Option ℕ} (h : (moving source).step state label = some next) :
    state.Running source ∧
      (label = none ∧ next = { state with stopped := true } ∨
        ∃ count, label = some count ∧
          next = { state with out := state.out ++ (source.drop state.out.length).take count }) := by
  simp only [moving] at h
  split at h
  · rename_i hrunning
    refine ⟨hrunning, ?_⟩
    cases label with
    | none => exact Or.inl ⟨rfl, (Option.some.inj h).symm⟩
    | some count => exact Or.inr ⟨count, rfl, (Option.some.inj h).symm⟩
  · exact absurd h (by simp)

/-! ## Runs -/

theorem append_piece {out : List β} (h : out <+: source) (count : ℕ) :
    out ++ (source.drop out.length).take count = source.take (out.length + count) := by
  rw [List.take_add, ← List.prefix_iff_eq_take.mp h]

theorem length_append_piece {out : List β} {count : ℕ} (hle : out.length + count ≤ source.length) :
    (out ++ (source.drop out.length).take count).length = out.length + count := by
  rw [List.length_append, List.length_take, List.length_drop]
  omega

/-- What is put out stays a prefix of the source. -/
theorem prefix_out (h : (moving source).Run (Moves source) state labels final)
    (hfront : state.out <+: source) : final.out <+: source := by
  induction labels generalizing state with
  | nil =>
      obtain rfl := h.eq_of_nil
      exact hfront
  | cons label rest ih =>
      obtain ⟨next, hmoves, hstep, hrest⟩ := h.exists_of_cons
      apply ih hrest
      rcases (moving_cases hstep).2 with ⟨-, rfl⟩ | ⟨count, -, rfl⟩
      · exact hfront
      · rw [append_piece hfront]
        exact List.take_prefix _ _

/-- Each step puts something out or is the last one. -/
theorem length_le_out (h : (moving source).Run (Moves source) state labels final) :
    labels.length + state.out.length + state.stopped.toNat ≤
      final.out.length + final.stopped.toNat := by
  induction labels generalizing state with
  | nil =>
      obtain rfl := h.eq_of_nil
      simp
  | cons label rest ih =>
      obtain ⟨next, hmoves, hstep, hrest⟩ := h.exists_of_cons
      have hnext := ih hrest
      obtain ⟨hrunning, hcases⟩ := moving_cases hstep
      rw [List.length_cons, hrunning.1]
      rcases hcases with ⟨-, rfl⟩ | ⟨count, rfl, rfl⟩
      · simp only [Bool.toNat_true, Bool.toNat_false] at hnext ⊢
        omega
      · obtain ⟨hpos, hle⟩ := hmoves count rfl
        rw [length_append_piece hle, hrunning.1, Bool.toNat_false] at hnext
        rw [Bool.toNat_false]
        omega

theorem stopped_iff (h : (moving source).Run (Moves source) state labels final) :
    final.stopped = true ↔ state.stopped = true ∨ none ∈ labels := by
  induction labels generalizing state with
  | nil =>
      obtain rfl := h.eq_of_nil
      simp
  | cons label rest ih =>
      obtain ⟨next, -, hstep, hrest⟩ := h.exists_of_cons
      rw [ih hrest]
      rcases (moving_cases hstep).2 with ⟨rfl, rfl⟩ | ⟨count, rfl, rfl⟩ <;> simp

/-- From the start: there are at most as many steps as elements, and one more that stops. -/
theorem length_le_of_run (h : (moving source).Run (Moves source) ⟨[], false⟩ labels final) :
    labels.length ≤ source.length + 1 := by
  have hlength := length_le_out h
  have hout := (prefix_out h List.nil_prefix).length_le
  have hstopped : final.stopped.toNat ≤ 1 := Bool.toNat_le _
  simp only [List.length_nil, Bool.toNat_false] at hlength
  omega

/-- A transfer that ends without having been stopped has put out the whole source. -/
theorem out_eq_of_not_running (h : (moving source).Run (Moves source) ⟨[], false⟩ labels final)
    (hend : ¬ final.Running source) (hstopped : none ∉ labels) : final.out = source := by
  have hfront := prefix_out h List.nil_prefix
  have hnot : final.stopped = false := by
    rw [Bool.eq_false_iff, Ne, stopped_iff h]
    simp [hstopped]
  have hlength : source.length ≤ final.out.length := by
    by_contra hlt
    exact hend ⟨hnot, not_le.mp hlt⟩
  exact hfront.eq_of_length_le hlength

/-! ## Loops with their own bookkeeping -/

/-- While the books of a loop are right, each of its steps is seen as a step of the transfer, and
leaves the books right. -/
def Implements (S : System σ α) (guard : σ → α → Prop) (Books : σ → Prop) (view : σ → Moving β)
    (act : α → Option ℕ) (source : List β) : Prop :=
  ∀ state a next, Books state → guard state a → S.step state a = some next →
    Books next ∧ Moves source (view state) (act a) ∧
      (moving source).step (view state) (act a) = some (view next)

/-- A call does what a step says: it moves that many elements, or fails. -/
def Agrees (act : Option ℕ) (moved : Except ε ℕ) : Prop :=
  match act with
  | none => ∃ error, moved = .error error
  | some count => moved = .ok count

/-- On the results that a run was made of, `loop` puts out what the run has put out, and has ended
if the run has. -/
theorem Implements.loop_of_run {S : System σ α} {guard : σ → α → Prop} {Books : σ → Prop}
    {view : σ → Moving β} {act : α → Option ℕ} (h : Implements S guard Books view act source)
    (call : ℕ → R → Except ε ℕ) (result : α → R)
    (hcall : ∀ state a, Books state → guard state a → Moves source (view state) (act a) →
      Agrees (act a) (call (view state).out.length (result a)))
    {state final : σ} {steps : List α} (hbooks : Books state)
    (hrun : S.Run guard state steps final) (hrunning : (view state).stopped = false) :
    (view state).out ++
        (loop source source.length call (view state).out.length (steps.map result)).out =
        (view final).out ∧
      (loop source source.length call (view state).out.length (steps.map result)).total =
        (view final).out.length ∧
      ((loop source source.length call (view state).out.length (steps.map result)).ended.isSome ↔
        ¬ (view final).Running source) := by
  induction steps generalizing state with
  | nil =>
      obtain rfl := hrun.eq_of_nil
      refine ⟨List.append_nil _, rfl, ?_⟩
      simp only [List.map_nil, loop, Moving.Running, hrunning, true_and, not_lt]
      by_cases hle : source.length ≤ (view final).out.length
      · simp [hle]
      · simp [hle]
  | cons a rest ih =>
      obtain ⟨next, hguard, hstep, hrest⟩ := hrun.exists_of_cons
      obtain ⟨hbooks', hmoves, hstep'⟩ := h state a next hbooks hguard hstep
      have hresult := hcall state a hbooks hguard hmoves
      obtain ⟨hmoving, hcases⟩ := moving_cases hstep'
      rw [List.map_cons]
      rcases hcases with ⟨hact, hview⟩ | ⟨count, hact, hview⟩
      · -- the transfer is stopped, so there are no more steps
        rw [hact] at hresult
        obtain ⟨error, herror⟩ := hresult
        have hnil : rest = [] := by
          cases rest with
          | nil => rfl
          | cons other rest =>
              obtain ⟨after, hother, hafter, -⟩ := hrest.exists_of_cons
              have hstopped := (moving_cases (h next other after hbooks' hother hafter).2.2).1.1
              rw [hview] at hstopped
              exact absurd hstopped (by simp)
        subst hnil
        obtain rfl := hrest.eq_of_nil
        rw [loop_cons_error hmoving.2 herror, hview]
        simp [Moving.Running]
      · rw [hact] at hresult hmoves
        obtain ⟨-, hle⟩ := hmoves count rfl
        obtain ⟨hout, htotal, hended⟩ := ih hbooks' hrest (by rw [hview]; exact hrunning)
        rw [hview, length_append_piece hle] at hout htotal hended
        rw [loop_cons_ok hmoving.2 hresult, Progress.after_out, Progress.after_total,
          Progress.after_ended, ← List.append_assoc]
        exact ⟨hout, htotal, hended⟩

end Transfer
