import Mathlib.Data.List.Basic
import Mathlib.Order.Nat

/-!
# Moving a source in pieces

The loop that repeats a transfer call until a goal is reached.  A call is a
function of the number of elements moved so far and of the result the
environment gives it; it moves some elements or stops the loop with an error.
The list of results is the history of one execution: when it is used up before
the loop has ended, the loop is still running.

Whatever the results are, the loop emits a contiguous piece of the source
(`loop_out`).  How long the piece is follows from the results alone (`outcome`): the
whole goal when the loop ends without an error, and less when an error ends it.
-/

namespace Transfer

variable {β ε R : Type*}

/-- What the loop has done so far. -/
structure Progress (β ε R : Type*) where
  /-- The elements emitted. -/
  out : List β
  /-- How many elements have been moved, those before the start included. -/
  total : ℕ
  /-- `none` while the loop is running; otherwise the error that stopped it, if
  any, and the results it did not use. -/
  ended : Option (Option ε × List R)

/-- Put the piece a call has moved in front. -/
def Progress.after (piece : List β) (progress : Progress β ε R) : Progress β ε R :=
  { progress with out := piece ++ progress.out }

@[simp] theorem Progress.after_out (piece : List β) (progress : Progress β ε R) :
    (progress.after piece).out = piece ++ progress.out := rfl

@[simp] theorem Progress.after_total (piece : List β) (progress : Progress β ε R) :
    (progress.after piece).total = progress.total := rfl

@[simp] theorem Progress.after_ended (piece : List β) (progress : Progress β ε R) :
    (progress.after piece).ended = progress.ended := rfl

/-- `while (total < goal) total += call(...)`, emitting from `source`. -/
def loop (source : List β) (goal : ℕ) (call : ℕ → R → Except ε ℕ) :
    ℕ → List R → Progress β ε R
  | total, [] => ⟨[], total, if goal ≤ total then some (none, []) else none⟩
  | total, result :: results =>
      if goal ≤ total then ⟨[], total, some (none, result :: results)⟩
      else match call total result with
        | .error error => ⟨[], total, some (some error, results)⟩
        | .ok moved =>
            (loop source goal call (total + moved) results).after ((source.drop total).take moved)

/-- Every call moves only what the source and the goal still have. -/
def Bounded (source : List β) (goal : ℕ) (call : ℕ → R → Except ε ℕ) : Prop :=
  ∀ total result moved, total < goal → total ≤ source.length → call total result = .ok moved →
    total + moved ≤ goal ∧ total + moved ≤ source.length

variable {source : List β} {goal : ℕ} {call : ℕ → R → Except ε ℕ}

theorem loop_of_goal_le {total : ℕ} (h : goal ≤ total) (results : List R) :
    loop source goal call total results = ⟨[], total, some (none, results)⟩ := by
  cases results <;> simp [loop, h]

theorem loop_cons_ok {total moved : ℕ} {result : R} (hlt : total < goal)
    (h : call total result = .ok moved) (results : List R) :
    loop source goal call total (result :: results) =
      (loop source goal call (total + moved) results).after ((source.drop total).take moved) := by
  simp only [loop, if_neg (not_le.mpr hlt), h]

theorem loop_cons_error {total : ℕ} {error : ε} {result : R} (hlt : total < goal)
    (h : call total result = .error error) (results : List R) :
    loop source goal call total (result :: results) = ⟨[], total, some (some error, results)⟩ := by
  simp only [loop, if_neg (not_le.mpr hlt), h]

/-- Two loops whose calls and pieces agree below the goal do the same. -/
theorem loop_congr {source' : List β} {call' : ℕ → R → Except ε ℕ}
    (hcall : ∀ total result, total < goal → call total result = call' total result)
    (hpiece : ∀ total result moved, total < goal → call total result = .ok moved →
      (source.drop total).take moved = (source'.drop total).take moved)
    (total : ℕ) (results : List R) :
    loop source goal call total results = loop source' goal call' total results := by
  induction results generalizing total with
  | nil => rfl
  | cons result results ih =>
      by_cases hgoal : goal ≤ total
      · rw [loop_of_goal_le hgoal, loop_of_goal_le hgoal]
      · have hlt := not_le.mp hgoal
        have hsame := hcall total result hlt
        cases hmoved : call total result with
        | error error => rw [loop_cons_error hlt hmoved, loop_cons_error hlt (hsame ▸ hmoved)]
        | ok moved =>
            rw [loop_cons_ok hlt hmoved, loop_cons_ok hlt (hsame ▸ hmoved), ih,
              hpiece total result moved hlt hmoved]

theorem le_loop_total (total : ℕ) (results : List R) :
    total ≤ (loop source goal call total results).total := by
  induction results generalizing total with
  | nil => exact le_rfl
  | cons result results ih =>
      simp only [loop]
      split
      · exact le_rfl
      · split
        · exact le_rfl
        · exact (Nat.le_add_right _ _).trans (ih _)

theorem loop_total_le (hcall : Bounded source goal call) {total : ℕ} (hgoal : total ≤ goal)
    (hsource : total ≤ source.length) (results : List R) :
    (loop source goal call total results).total ≤ goal ∧
      (loop source goal call total results).total ≤ source.length := by
  induction results generalizing total with
  | nil => exact ⟨hgoal, hsource⟩
  | cons result results ih =>
      simp only [loop]
      split
      · exact ⟨hgoal, hsource⟩
      · rename_i hlt
        split
        · exact ⟨hgoal, hsource⟩
        · rename_i moved hmoved
          have hbound := hcall total result moved (by omega) hsource hmoved
          exact ih hbound.1 hbound.2

/-- The emitted elements are the piece of the source between the first and the
last value of the running total: no gap and no repetition. -/
theorem loop_out (hcall : Bounded source goal call) {total : ℕ} (hsource : total ≤ source.length)
    (results : List R) :
    (loop source goal call total results).out =
      (source.drop total).take ((loop source goal call total results).total - total) := by
  induction results generalizing total with
  | nil => simp [loop]
  | cons result results ih =>
      simp only [loop]
      split
      · simp
      · rename_i hlt
        split
        · simp
        · rename_i moved hmoved
          have hle : total + moved ≤ (loop source goal call (total + moved) results).total :=
            le_loop_total _ _
          have hsplit : (loop source goal call (total + moved) results).total - total =
              moved + ((loop source goal call (total + moved) results).total -
                (total + moved)) := by
            omega
          have hbound := (hcall total result moved (by omega) hsource hmoved).2
          rw [Progress.after_out, Progress.after_total, ih hbound, hsplit, List.take_add,
            List.drop_drop]

/-- From the start of the source, a prefix of it is emitted. -/
theorem loop_out_zero (hcall : Bounded source goal call) (results : List R) :
    (loop source goal call 0 results).out =
      source.take (loop source goal call 0 results).total := by
  simpa using loop_out hcall (Nat.zero_le _) results

/-! ## What the results come to -/

/-- How many elements the calls move, and what ends them, as far as the results
tell: nothing yet, the goal, or an error. -/
def outcome (goal : ℕ) (call : ℕ → R → Except ε ℕ) : ℕ → List R → ℕ × Option (Option ε)
  | total, [] => (total, if goal ≤ total then some none else none)
  | total, result :: results =>
      if goal ≤ total then (total, some none)
      else match call total result with
        | .error error => (total, some (some error))
        | .ok moved => outcome goal call (total + moved) results

/-- The source plays no part in how far the loop comes. -/
theorem loop_outcome (total : ℕ) (results : List R) :
    (loop source goal call total results).total = (outcome goal call total results).1 ∧
      (loop source goal call total results).ended.map Prod.fst =
        (outcome goal call total results).2 := by
  induction results generalizing total with
  | nil =>
      refine ⟨rfl, ?_⟩
      simp only [loop, outcome]
      split <;> rfl
  | cons result results ih =>
      simp only [loop, outcome]
      split
      · exact ⟨rfl, rfl⟩
      · split
        · exact ⟨rfl, rfl⟩
        · exact ih _

/-- The loop puts out what the calls have moved. -/
theorem loop_out_outcome (hcall : Bounded source goal call) (results : List R) :
    (loop source goal call 0 results).out = source.take (outcome goal call 0 results).1 := by
  rw [loop_out_zero hcall, (loop_outcome 0 results).1]

theorem outcome_le (hcall : Bounded source goal call) (results : List R) :
    (outcome goal call 0 results).1 ≤ goal ∧ (outcome goal call 0 results).1 ≤ source.length := by
  rw [← (loop_outcome 0 results).1]
  exact loop_total_le hcall (Nat.zero_le _) (Nat.zero_le _) results

/-- Without an error the transfer ends at its goal. -/
theorem goal_le_of_outcome {total : ℕ} {results : List R}
    (h : (outcome goal call total results).2 = some none) :
    goal ≤ (outcome goal call total results).1 := by
  induction results generalizing total with
  | nil =>
      by_contra hlt
      simp [outcome, show ¬ goal ≤ total from hlt] at h
  | cons result results ih =>
      by_cases hle : goal ≤ total
      · simp [outcome, hle]
      · simp only [outcome, if_neg hle] at h ⊢
        cases hcall : call total result with
        | error error => simp [hcall] at h
        | ok moved =>
            simp only [hcall] at h ⊢
            exact ih h

/-- An error ends the transfer before its goal. -/
theorem outcome_lt_goal {total : ℕ} {results : List R} {error : ε}
    (h : (outcome goal call total results).2 = some (some error)) :
    (outcome goal call total results).1 < goal := by
  induction results generalizing total with
  | nil =>
      simp only [outcome] at h
      split at h <;> simp at h
  | cons result results ih =>
      by_cases hle : goal ≤ total
      · simp [outcome, hle] at h
      · simp only [outcome, if_neg hle] at h ⊢
        cases hcall : call total result with
        | error error => exact not_le.mp hle
        | ok moved =>
            simp only [hcall] at h ⊢
            exact ih h

theorem outcome_ne_error {results : List R}
    (h : ∀ result ∈ results, ∀ total error, call total result ≠ .error error) (total : ℕ)
    (error : ε) : (outcome goal call total results).2 ≠ some (some error) := by
  induction results generalizing total with
  | nil =>
      unfold outcome
      split <;> simp
  | cons result results ih =>
      unfold outcome
      split
      · simp
      · cases hcall : call total result with
        | error other => exact absurd hcall (h result List.mem_cons_self total other)
        | ok moved => exact ih (fun other hother => h other (List.mem_cons_of_mem _ hother)) _

/-- A transfer from a source shorter than its goal does not end by itself. -/
theorem ended_eq_none_of_short (hcall : Bounded source goal call) (hshort : source.length < goal)
    {results : List R} (h : ∀ result ∈ results, ∀ total error, call total result ≠ .error error) :
    (loop source goal call 0 results).ended = none := by
  rw [← Option.map_eq_none_iff, (loop_outcome 0 results).2]
  cases hend : (outcome goal call 0 results).2 with
  | none => rfl
  | some end' =>
      cases end' with
      | none =>
          have hreached := goal_le_of_outcome hend
          have hle := (outcome_le hcall results).2
          omega
      | some error => exact absurd hend (outcome_ne_error h 0 error)

/-- A result that is an error whenever it comes ends the loop. -/
theorem ended_of_error {total : ℕ} {results : List R} {result : R} (hmem : result ∈ results)
    (h : ∀ total, ∃ error, call total result = .error error) :
    (loop source goal call total results).ended.isSome := by
  induction results generalizing total with
  | nil => exact absurd hmem (by simp)
  | cons other results ih =>
      by_cases hgoal : goal ≤ total
      · rw [loop_of_goal_le hgoal]
        rfl
      · have hlt : total < goal := not_le.mp hgoal
        cases hcall : call total other with
        | error error =>
            rw [loop_cons_error hlt hcall]
            rfl
        | ok moved =>
            rw [loop_cons_ok hlt hcall, Progress.after_ended]
            rcases List.mem_cons.mp hmem with rfl | hmem
            · obtain ⟨error, herror⟩ := h total
              exact absurd (hcall.symm.trans herror) (by simp)
            · exact ih hmem

/-! ## Calls that make progress -/

/-- Enough calls that fail or move something come to an end. -/
theorem ended_of_progress {total : ℕ} {results : List R}
    (h : ∀ total result, total < goal → result ∈ results → ∀ moved,
      call total result = .ok moved → 0 < moved)
    (henough : goal ≤ total + results.length) :
    (loop source goal call total results).ended.isSome := by
  induction results generalizing total with
  | nil =>
      have hgoal : goal ≤ total := henough
      rw [loop_of_goal_le hgoal]
      rfl
  | cons result results ih =>
      by_cases hgoal : goal ≤ total
      · rw [loop_of_goal_le hgoal]
        rfl
      · have hlt : total < goal := not_le.mp hgoal
        cases hcall : call total result with
        | error error =>
            rw [loop_cons_error hlt hcall]
            rfl
        | ok moved =>
            have hpos := h total result hlt List.mem_cons_self moved hcall
            rw [List.length_cons] at henough
            rw [loop_cons_ok hlt hcall, Progress.after_ended]
            exact ih (fun total other hlt hother =>
              h total other hlt (List.mem_cons_of_mem result hother)) (by omega)

/-- Calls that all move something up to a limit, and nothing beyond it, come to the
limit if there are enough of them. -/
theorem loop_total_of_limit {limit total : ℕ} {results : List R} (hgoal : limit ≤ goal)
    (hmove : ∀ total result, total < limit → result ∈ results →
      ∃ moved, 0 < moved ∧ total + moved ≤ limit ∧ call total result = .ok moved)
    (hstop : limit < goal → ∀ result ∈ results, ∀ moved,
      call limit result = .ok moved → moved = 0)
    (htotal : total ≤ limit) (henough : limit ≤ total + results.length) :
    (loop source goal call total results).total = limit := by
  induction results generalizing total with
  | nil => exact le_antisymm htotal henough
  | cons result results ih =>
      have hmem : result ∈ result :: results := List.mem_cons_self
      have hmove' := fun total other hlt (hother : other ∈ results) =>
        hmove total other hlt (List.mem_cons_of_mem result hother)
      have hstop' := fun hlt other (hother : other ∈ results) =>
        hstop hlt other (List.mem_cons_of_mem result hother)
      rw [List.length_cons] at henough
      rcases htotal.lt_or_eq with hlt | rfl
      · obtain ⟨moved, hpos, hle, hcall⟩ := hmove total result hlt hmem
        rw [loop_cons_ok (hlt.trans_le hgoal) hcall, Progress.after_total]
        exact ih hmove' hstop' hle (by omega)
      · -- at the limit the remaining calls change nothing
        by_cases hend : goal ≤ total
        · rw [loop_of_goal_le hend]
        · have hlt : total < goal := not_le.mp hend
          cases hcall : call total result with
          | error error => rw [loop_cons_error hlt hcall]
          | ok moved =>
              obtain rfl := hstop hlt result hmem moved hcall
              rw [loop_cons_ok hlt hcall, Progress.after_total]
              exact ih hmove' hstop' le_rfl (Nat.le_add_right _ _)

end Transfer
