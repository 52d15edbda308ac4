import Mathlib.Logic.Basic

/-!
# Critical sections under one mutex

Parties that are inside or outside a critical section, and the owner of the mutex
that guards it.  `Guarded` says that exactly the owner is inside.  Its three rules
cover every step of a program: taking a free mutex, releasing it, and all steps
that do neither.
-/

namespace Mutex

variable {party : Type*} {inside inside' : party → Prop} {owner : Option party} {p q : party}

/-- Exactly the owner of the mutex is inside. -/
def Guarded (inside : party → Prop) (owner : Option party) : Prop :=
  ∀ p, inside p ↔ owner = some p

theorem guarded_none (h : ∀ p, ¬ inside p) : Guarded inside none :=
  fun p => iff_of_false (h p) (by simp)

/-- Two parties that are inside are the same. -/
theorem Guarded.unique (h : Guarded inside owner) (hp : inside p) (hq : inside q) : p = q :=
  Option.some.inj (((h p).mp hp).symm.trans ((h q).mp hq))

theorem Guarded.not_inside (h : Guarded inside owner) (hfree : owner = none) (p : party) :
    ¬ inside p := by
  intro hp
  have howner := (h p).mp hp
  rw [hfree] at howner
  exact absurd howner (by simp)

theorem Guarded.acquire (h : Guarded inside owner) (hfree : owner = none) (hp : inside' p)
    (hother : ∀ q, q ≠ p → (inside' q ↔ inside q)) : Guarded inside' (some p) := by
  intro q
  by_cases heq : q = p
  · subst heq
    exact iff_of_true hp rfl
  · rw [hother q heq]
    refine iff_of_false (h.not_inside hfree q) fun howner => heq ?_
    exact (Option.some.inj howner).symm

theorem Guarded.release (h : Guarded inside owner) (hp : inside p) (hout : ¬ inside' p)
    (hother : ∀ q, q ≠ p → (inside' q ↔ inside q)) : Guarded inside' none := by
  refine guarded_none fun q hq => ?_
  by_cases heq : q = p
  · exact hout (heq ▸ hq)
  · exact heq (h.unique ((hother q heq).mp hq) hp)

/-- A step across which every party stays inside or outside. -/
theorem Guarded.keep (h : Guarded inside owner) (hsame : ∀ q, inside' q ↔ inside q) :
    Guarded inside' owner :=
  fun q => (hsame q).trans (h q)

end Mutex
