import Mathlib.Logic.Basic

/-!
# Labelled transition systems

A system whose steps are a partial function of the state and a label.  The
label says which party moves and carries every choice of the environment, so that
a concrete run is a list of labels that `exec` can evaluate.

`Reachable guard` collects the states reached by runs whose steps all satisfy
`guard`; with the trivial guard `anyStep` these are all the reachable states.
-/

namespace Transition

variable {σ α : Type*}

/-- Initial states and a partial step function. -/
structure System (σ α : Type*) where
  init : σ → Prop
  step : σ → α → Option σ

/-- The guard that restricts nothing. -/
def anyStep : σ → α → Prop := fun _ _ => True

namespace System

/-- The states reached from an initial state by steps that all satisfy `guard`. -/
inductive Reachable (S : System σ α) (guard : σ → α → Prop) : σ → Prop
  | initial {state : σ} : S.init state → Reachable S guard state
  | step {state next : σ} {label : α} : Reachable S guard state → guard state label →
      S.step state label = some next → Reachable S guard next

/-- Execute a list of labels. -/
def exec (S : System σ α) : σ → List α → Option σ
  | state, [] => some state
  | state, label :: rest => (S.step state label).bind fun next => exec S next rest

variable {S : System σ α}

/-- The invariant rule: what holds initially and is preserved by every guarded
step holds in every state reached. -/
theorem Reachable.invariant {guard : σ → α → Prop} {Inv : σ → Prop}
    (hinit : ∀ state, S.init state → Inv state)
    (hstep : ∀ state label next, guard state label → S.step state label = some next →
      Inv state → Inv next)
    {state : σ} (h : S.Reachable guard state) : Inv state := by
  induction h with
  | initial hi => exact hinit _ hi
  | step _ hg hs ih => exact hstep _ _ _ hg hs ih

/-- Along the list every step meets the guard. -/
def Permits (S : System σ α) (guard : σ → α → Prop) : σ → List α → Prop
  | _, [] => True
  | state, label :: rest =>
      guard state label ∧ ∀ next ∈ S.step state label, Permits S guard next rest

instance decidablePermits (S : System σ α) (guard : σ → α → Prop)
    [∀ state label, Decidable (guard state label)] :
    ∀ (state : σ) (labels : List α), Decidable (S.Permits guard state labels)
  | _, [] => isTrue trivial
  | state, label :: rest =>
      haveI : DecidablePred fun next => S.Permits guard next rest :=
        fun next => decidablePermits S guard next rest
      inferInstanceAs
        (Decidable (guard state label ∧ ∀ next ∈ S.step state label, S.Permits guard next rest))

/-- An executed list of labels is a run, if the guard permits it. -/
theorem Reachable.exec {guard : σ → α → Prop} {labels : List α} {state final : σ}
    (h : S.Reachable guard state) (hpermits : S.Permits guard state labels)
    (hexec : S.exec state labels = some final) : S.Reachable guard final := by
  induction labels generalizing state with
  | nil =>
      cases hexec
      exact h
  | cons label rest ih =>
      obtain ⟨next, hnext, hrest⟩ := Option.bind_eq_some_iff.mp hexec
      obtain ⟨hguard, hpermits⟩ := hpermits
      exact ih (h.step hguard hnext) (hpermits next hnext) hrest

theorem permits_of_forall {guard : σ → α → Prop} {labels : List α}
    (h : ∀ label ∈ labels, ∀ state, guard state label) (state : σ) :
    S.Permits guard state labels := by
  induction labels generalizing state with
  | nil => trivial
  | cons label rest ih =>
      exact ⟨h label (by simp) state, fun next _ => ih (fun other hother =>
        h other (List.mem_cons_of_mem label hother)) next⟩

theorem Permits.mono {guard weaker : σ → α → Prop}
    (hle : ∀ state label, guard state label → weaker state label) {labels : List α} {state : σ}
    (h : S.Permits guard state labels) : S.Permits weaker state labels := by
  induction labels generalizing state with
  | nil => trivial
  | cons label rest ih => exact ⟨hle _ _ h.1, fun next hnext => ih (h.2 next hnext)⟩

/-- Guards that agree in states with an invariant, which the steps they allow preserve. -/
theorem permits_iff_of_invariant {guard other : σ → α → Prop} {Inv : σ → Prop}
    (hiff : ∀ state label, Inv state → (guard state label ↔ other state label))
    (hstep : ∀ state label next, Inv state → guard state label → S.step state label = some next →
      Inv next) {state : σ} (hinv : Inv state) (labels : List α) :
    S.Permits guard state labels ↔ S.Permits other state labels := by
  induction labels generalizing state with
  | nil => exact Iff.rfl
  | cons label rest ih =>
      constructor
      · rintro ⟨hlabel, hrest⟩
        exact ⟨(hiff _ _ hinv).mp hlabel, fun next hnext =>
          (ih (hstep _ _ _ hinv hlabel hnext)).mp (hrest next hnext)⟩
      · rintro ⟨hlabel, hrest⟩
        have hguard := (hiff _ _ hinv).mpr hlabel
        exact ⟨hguard, fun next hnext =>
          (ih (hstep _ _ _ hinv hguard hnext)).mpr (hrest next hnext)⟩

/-- A stronger guard, where it need be stronger only in states with the invariant. -/
theorem Permits.mono_of_invariant {guard weaker : σ → α → Prop} {Inv : σ → Prop}
    (hstep : ∀ state label next, S.step state label = some next → Inv state → Inv next)
    (hle : ∀ state label, Inv state → guard state label → weaker state label) {labels : List α}
    {state : σ} (h : S.Permits guard state labels) (hinv : Inv state) :
    S.Permits weaker state labels := by
  induction labels generalizing state with
  | nil => trivial
  | cons label rest ih =>
      exact ⟨hle _ _ hinv h.1, fun next hnext => ih (h.2 next hnext) (hstep _ _ _ hnext hinv)⟩

theorem permits_append {guard : σ → α → Prop} {labels more : List α} {state : σ}
    (h : S.Permits guard state labels)
    (hmore : ∀ middle ∈ S.exec state labels, S.Permits guard middle more) :
    S.Permits guard state (labels ++ more) := by
  induction labels generalizing state with
  | nil => exact hmore state rfl
  | cons label rest ih =>
      refine ⟨h.1, fun next hnext => ih (h.2 next hnext) fun middle hmiddle => hmore middle ?_⟩
      exact Option.bind_eq_some_iff.mpr ⟨next, hnext, hmiddle⟩

theorem permits_anyStep (state : σ) (labels : List α) : S.Permits anyStep state labels :=
  permits_of_forall (fun _ _ _ => trivial) state

theorem reachable_of_exec {labels : List α} {state final : σ} (hinit : S.init state)
    (hexec : S.exec state labels = some final) : S.Reachable anyStep final :=
  (Reachable.initial hinit).exec (permits_anyStep state labels) hexec

end System

end Transition
