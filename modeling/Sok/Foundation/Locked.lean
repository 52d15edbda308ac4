import Mathlib.Algebra.BigOperators.Group.Finset.Basic
import Sok.Foundation.Mutex
import Sok.Foundation.Simulation

/-!
# Methods under a shared mutex

An object whose methods hold one mutex from their first statement to their last,
alone or together with other readers.  `concurrent` is the object in use by any
number of parties, whose statements are interleaved in any order.  In `atomic` a
call takes effect at one moment between its call and its return.

`linearizable` says that what the parties can see of the first, the calls and the
values returned in their order, can be seen of the second as well.  What it asks
of the object is a fact about single bodies: run alone, a body does what `apply`
says.
-/

namespace Locked

open Transition.System (Run)

/-- How a method holds the mutex. -/
inductive Mode
  | exclusive
  | shared
  deriving DecidableEq

/-- Methods with their bodies, statement by statement: `point` is a point of a body, `input` what a
statement is given from outside. -/
structure Object (σ op point input ret : Type*) where
  mode : op → Mode
  enter : op → point
  step : op → σ → point → input → Option (σ × (point ⊕ ret))
  /-- Who holds the mutex with others changes nothing. -/
  step_of_shared : ∀ {o s at' given next}, mode o = .shared → step o s at' given = some next →
    next.1 = s

variable {σ op point input ret : Type*}

/-! ## Bodies -/

namespace Object

variable {obj : Object σ op point input ret} {allowed : op → input → Prop} {o : op}

/-- The statements of a body from one point to another, given what is allowed. -/
inductive Steps (obj : Object σ op point input ret) (allowed : op → input → Prop) (o : op) :
    σ × point → σ × point → Prop
  | refl (at' : σ × point) : Steps obj allowed o at' at'
  | tail {first : σ × point} {s : σ} {p : point} {given : input} {s' : σ} {p' : point} :
      Steps obj allowed o first (s, p) → allowed o given →
        obj.step o s p given = some (s', .inl p') → Steps obj allowed o first (s', p')

/-- A body that runs alone ends with a value. -/
inductive Completes (obj : Object σ op point input ret) (allowed : op → input → Prop) (o : op)
    (start : σ) : σ → ret → Prop
  | intro {s : σ} {p : point} {given : input} {s' : σ} {r : ret} :
      Steps obj allowed o (start, obj.enter o) (s, p) → allowed o given →
        obj.step o s p given = some (s', .inr r) → Completes obj allowed o start s' r

/-- An assertion for every point of a body. -/
theorem Steps.invariant {Inv : σ → point → Prop}
    (hstep : ∀ s p given s' p', Inv s p → obj.step o s p given = some (s', .inl p') → Inv s' p')
    {first last : σ × point} (h : obj.Steps allowed o first last) (hfirst : Inv first.1 first.2) :
    Inv last.1 last.2 := by
  induction h with
  | refl => exact hfirst
  | tail _ _ hlast ih => exact hstep _ _ _ _ _ ih hlast

section Rest

variable {ι : Type*} {whole : ι → Prop} {rest : σ → point → ι → Option (σ × ret)}

/-- What is still to come from a point on: when every statement leaves it as it is, it is at the
first point what the whole body does. -/
theorem Steps.rest_eq
    (hstep : ∀ s p given s' p', allowed o given → obj.step o s p given = some (s', .inl p') →
      ∀ later, whole later → ∃ all, whole all ∧ rest s p all = rest s' p' later)
    {first last : σ × point} (h : obj.Steps allowed o first last) {later : ι}
    (hlater : whole later) :
    ∃ all, whole all ∧ rest first.1 first.2 all = rest last.1 last.2 later := by
  induction h generalizing later with
  | refl => exact ⟨later, hlater, rfl⟩
  | tail _ hgiven hlast ih =>
      obtain ⟨middle, hmiddle, heq⟩ := hstep _ _ _ _ _ hgiven hlast later hlater
      obtain ⟨all, hall, heq'⟩ := ih hmiddle
      exact ⟨all, hall, heq'.trans heq⟩

theorem Completes.rest_eq
    (hstep : ∀ s p given s' p', allowed o given → obj.step o s p given = some (s', .inl p') →
      ∀ later, whole later → ∃ all, whole all ∧ rest s p all = rest s' p' later)
    (hlast : ∀ s p given s' r, allowed o given → obj.step o s p given = some (s', .inr r) →
      ∃ all, whole all ∧ rest s p all = some (s', r))
    {s s' : σ} {r : ret} (h : obj.Completes allowed o s s' r) :
    ∃ all, whole all ∧ rest s (obj.enter o) all = some (s', r) := by
  obtain ⟨hsteps, hgiven, hreturn⟩ := h
  obtain ⟨later, hlater, heq⟩ := hlast _ _ _ _ _ hgiven hreturn
  obtain ⟨all, hall, heq'⟩ := hsteps.rest_eq hstep hlater
  exact ⟨all, hall, heq'.trans heq⟩

end Rest

/-- A reader's body changes nothing. -/
theorem Steps.of_shared (hmode : obj.mode o = .shared) {first last : σ × point}
    (h : obj.Steps allowed o first last) : last.1 = first.1 := by
  induction h with
  | refl => rfl
  | tail _ _ hlast ih => exact (obj.step_of_shared hmode hlast).trans ih

end Object

/-! ## The object in use -/

/-- Where a party stands. -/
inductive Phase (op point ret : Type*)
  | idle
  | called (o : op)
  | inside (o : op) (at' : point)
  /-- The body has ended, and the mutex is still held. -/
  | done (o : op) (r : ret)
  | left (r : ret)
  deriving DecidableEq

/-- The object, the parties, and the mutex with its holders. -/
structure Concurrent (party σ op point ret : Type*) where
  state : σ
  phase : party → Phase op point ret
  writer : Option party
  readers : Finset party

inductive Action (party op input ret : Type*)
  | call (p : party) (o : op)
  | lock (p : party)
  | statement (p : party) (given : input)
  | unlock (p : party)
  | return (p : party) (r : ret)

/-- What can be seen of an object. -/
inductive Event (party op ret : Type*)
  | called (p : party) (o : op)
  | returned (p : party) (r : ret)
  deriving DecidableEq

variable {party : Type*}

def Action.event : Action party op input ret → Option (Event party op ret)
  | .call p o => some (.called p o)
  | .return p r => some (.returned p r)
  | .lock _ | .statement _ _ | .unlock _ => none

variable [DecidableEq party]

namespace Concurrent

/-- A party goes to another phase. -/
def goto (c : Concurrent party σ op point ret) (p : party) (phase : Phase op point ret) :
    Concurrent party σ op point ret :=
  { c with phase := Function.update c.phase p phase }

/-- `lock` or `lock_shared`, when the mutex can be had. -/
def lock (c : Concurrent party σ op point ret) (p : party) :
    Mode → Option (Concurrent party σ op point ret)
  | .exclusive => if c.writer = none ∧ c.readers = ∅ then some { c with writer := some p } else none
  | .shared =>
      if c.writer = none then some { c with readers := insert p c.readers } else none

/-- `unlock` or `unlock_shared`. -/
def unlock (c : Concurrent party σ op point ret) (p : party) : Mode → Concurrent party σ op point ret
  | .exclusive => { c with writer := none }
  | .shared => { c with readers := c.readers.erase p }

end Concurrent

/-- Any number of parties use the object. -/
def concurrent [DecidableEq ret] (obj : Object σ op point input ret) (init : σ → Prop) :
    Transition.System (Concurrent party σ op point ret) (Action party op input ret) where
  init c := init c.state ∧ (∀ p, c.phase p = .idle) ∧ c.writer = none ∧ c.readers = ∅
  step c
    | .call p o =>
        match c.phase p with
        | .idle => some (c.goto p (.called o))
        | _ => none
    | .lock p =>
        match c.phase p with
        | .called o => (c.lock p (obj.mode o)).map fun c => c.goto p (.inside o (obj.enter o))
        | _ => none
    | .statement p given =>
        match c.phase p with
        | .inside o at' =>
            (obj.step o c.state at' given).map fun next =>
              { c with state := next.1 }.goto p (next.2.elim (.inside o) (.done o))
        | _ => none
    | .unlock p =>
        match c.phase p with
        | .done o r => some ((c.unlock p (obj.mode o)).goto p (.left r))
        | _ => none
    | .return p r =>
        match c.phase p with
        | .left r' => if r' = r then some (c.goto p .idle) else none
        | _ => none

/-- The statements are given what is allowed. -/
def Given (allowed : op → input → Prop) (c : Concurrent party σ op point ret) :
    Action party op input ret → Prop
  | .statement p given => ∀ o at', c.phase p = .inside o at' → allowed o given
  | .call _ _ | .lock _ | .unlock _ | .return _ _ => True

/-! ## The object as it is meant -/

/-- Where a party stands, seen from outside. -/
inductive Stage (op ret : Type*)
  | idle
  | called (o : op)
  | left (r : ret)

structure Atomic (party σ op ret : Type*) where
  state : σ
  stage : party → Stage op ret

inductive Moment (party op ret ι : Type*)
  | call (p : party) (o : op)
  /-- The call takes effect. -/
  | effect (p : party) (given : ι)
  | return (p : party) (r : ret)

def Moment.event {ι : Type*} : Moment party op ret ι → Option (Event party op ret)
  | .call p o => some (.called p o)
  | .return p r => some (.returned p r)
  | .effect _ _ => none

/-- The same object, with every call in one step. -/
def atomic {ι : Type*} [DecidableEq ret] (apply : op → σ → ι → Option (σ × ret))
    (init : σ → Prop) : Transition.System (Atomic party σ op ret) (Moment party op ret ι) where
  init a := init a.state ∧ ∀ p, a.stage p = .idle
  step a
    | .call p o =>
        match a.stage p with
        | .idle => some { a with stage := Function.update a.stage p (.called o) }
        | _ => none
    | .effect p given =>
        match a.stage p with
        | .called o =>
            (apply o a.state given).map fun next =>
              ⟨next.1, Function.update a.stage p (.left next.2)⟩
        | _ => none
    | .return p r =>
        match a.stage p with
        | .left r' =>
            if r' = r then some { a with stage := Function.update a.stage p .idle } else none
        | _ => none

/-- The effects are given what is allowed. -/
def GivenWhole {ι : Type*} (whole : op → ι → Prop) (a : Atomic party σ op ret) :
    Moment party op ret ι → Prop
  | .effect p given => ∀ o, a.stage p = .called o → whole o given
  | .call _ _ | .return _ _ => True

/-! ## The steps of the object in use -/

variable {obj : Object σ op point input ret} {allowed : op → input → Prop}
  {c next : Concurrent party σ op point ret}

namespace Concurrent

@[simp] theorem phase_goto_self (p : party) (phase : Phase op point ret) :
    (c.goto p phase).phase p = phase :=
  Function.update_self ..

theorem phase_goto_of_ne {p q : party} (phase : Phase op point ret) (hne : q ≠ p) :
    (c.goto p phase).phase q = c.phase q :=
  Function.update_of_ne hne ..

variable (obj) in
/-- What one step does. -/
inductive Step (c : Concurrent party σ op point ret) :
    Action party op input ret → Concurrent party σ op point ret → Prop
  | call {p : party} {o : op} (hidle : c.phase p = .idle) : Step c (.call p o) (c.goto p (.called o))
  | lockExclusive {p : party} {o : op} (hcalled : c.phase p = .called o)
      (hmode : obj.mode o = .exclusive) (hwriter : c.writer = none) (hreaders : c.readers = ∅) :
      Step c (.lock p) ({ c with writer := some p }.goto p (.inside o (obj.enter o)))
  | lockShared {p : party} {o : op} (hcalled : c.phase p = .called o)
      (hmode : obj.mode o = .shared) (hwriter : c.writer = none) :
      Step c (.lock p) ({ c with readers := insert p c.readers }.goto p (.inside o (obj.enter o)))
  | statement {p : party} {o : op} {at' later : point} {given : input} {s : σ}
      (hinside : c.phase p = .inside o at')
      (hstep : obj.step o c.state at' given = some (s, .inl later)) :
      Step c (.statement p given) ({ c with state := s }.goto p (.inside o later))
  | last {p : party} {o : op} {at' : point} {given : input} {s : σ} {r : ret}
      (hinside : c.phase p = .inside o at')
      (hstep : obj.step o c.state at' given = some (s, .inr r)) :
      Step c (.statement p given) ({ c with state := s }.goto p (.done o r))
  | unlock {p : party} {o : op} {r : ret} (hdone : c.phase p = .done o r) :
      Step c (.unlock p) ((c.unlock p (obj.mode o)).goto p (.left r))
  | return {p : party} {r : ret} (hleft : c.phase p = .left r) :
      Step c (.return p r) (c.goto p .idle)

end Concurrent

theorem step_cases [DecidableEq ret] {init : σ → Prop} {action : Action party op input ret}
    (h : (concurrent obj init).step c action = some next) : c.Step obj action next := by
  cases action with
  | call p o =>
      simp only [concurrent] at h
      split at h
      case h_1 hidle =>
        obtain rfl := Option.some.inj h
        exact .call hidle
      case h_2 => exact absurd h (by simp)
  | lock p =>
      simp only [concurrent] at h
      split at h
      case h_2 => exact absurd h (by simp)
      case h_1 o hcalled =>
        obtain ⟨locked, hlock, rfl⟩ := Option.map_eq_some_iff.mp h
        cases hmode : obj.mode o with
        | exclusive =>
            rw [hmode, Concurrent.lock] at hlock
            split at hlock
            case isTrue hfree =>
              obtain rfl := Option.some.inj hlock
              exact .lockExclusive hcalled hmode hfree.1 hfree.2
            case isFalse => exact absurd hlock (by simp)
        | shared =>
            rw [hmode, Concurrent.lock] at hlock
            split at hlock
            case isTrue hfree =>
              obtain rfl := Option.some.inj hlock
              exact .lockShared hcalled hmode hfree
            case isFalse => exact absurd hlock (by simp)
  | statement p given =>
      simp only [concurrent] at h
      split at h
      case h_2 => exact absurd h (by simp)
      case h_1 o at' hinside =>
        obtain ⟨⟨s, later⟩, hstep, rfl⟩ := Option.map_eq_some_iff.mp h
        cases later with
        | inl later => exact .statement hinside hstep
        | inr r => exact .last hinside hstep
  | unlock p =>
      simp only [concurrent] at h
      split at h
      case h_1 o r hdone =>
        obtain rfl := Option.some.inj h
        exact .unlock hdone
      case h_2 => exact absurd h (by simp)
  | «return» p r =>
      simp only [concurrent] at h
      split at h
      case h_2 => exact absurd h (by simp)
      case h_1 r' hleft =>
        split at h
        case isTrue heq =>
          obtain rfl := Option.some.inj h
          exact .return (heq ▸ hleft)
        case isFalse => exact absurd h (by simp)

/-! ## Who holds the mutex -/

/-- A party that has taken the mutex in this mode and not released it. -/
def Phase.Holds (obj : Object σ op point input ret) (mode : Mode) : Phase op point ret → Prop
  | .inside o _ | .done o _ => obj.mode o = mode
  | .idle | .called _ | .left _ => False

/-- The mutex knows its holders: one writer alone, or readers. -/
structure Guarded (obj : Object σ op point input ret) (c : Concurrent party σ op point ret) :
    Prop where
  writer : Mutex.Guarded (fun p => (c.phase p).Holds obj .exclusive) c.writer
  readers : ∀ p, p ∈ c.readers ↔ (c.phase p).Holds obj .shared
  apart : c.writer ≠ none → c.readers = ∅

theorem Guarded.goto (h : Guarded obj c) {p : party} {phase : Phase op point ret} (s : σ)
    (hsame : ∀ mode, phase.Holds obj mode ↔ (c.phase p).Holds obj mode) :
    Guarded obj ({ c with state := s }.goto p phase) := by
  have hholds : ∀ mode q, (({ c with state := s }.goto p phase).phase q).Holds obj mode ↔
      (c.phase q).Holds obj mode := by
    intro mode q
    by_cases heq : q = p
    · subst heq
      rw [Concurrent.phase_goto_self]
      exact hsame mode
    · rw [Concurrent.phase_goto_of_ne phase heq]
  exact ⟨h.writer.keep (hholds .exclusive), fun q => (h.readers q).trans (hholds .shared q).symm,
    h.apart⟩

theorem Guarded.step (h : Guarded obj c) {action : Action party op input ret}
    (hstep : c.Step obj action next) : Guarded obj next := by
  cases hstep with
  | call hidle => exact h.goto c.state fun mode => by rw [hidle]; rfl
  | @lockExclusive p o hcalled hmode hwriter hreaders =>
      refine ⟨h.writer.acquire hwriter ?_ fun q hne => ?_, fun q => ?_, fun _ => hreaders⟩
      · rw [Concurrent.phase_goto_self]
        exact hmode
      · rw [Concurrent.phase_goto_of_ne _ hne]
      · by_cases heq : q = p
        · subst heq
          refine iff_of_false (by simp [Concurrent.goto, hreaders]) ?_
          rw [Concurrent.phase_goto_self]
          exact fun hshared => absurd (hmode.symm.trans hshared) (by decide)
        · rw [Concurrent.phase_goto_of_ne _ heq]
          exact h.readers q
  | @lockShared p o hcalled hmode hwriter =>
      refine ⟨?_, fun q => ?_, fun hsome => absurd hwriter hsome⟩
      · refine h.writer.keep fun q => ?_
        by_cases heq : q = p
        · subst heq
          rw [Concurrent.phase_goto_self, hcalled]
          exact iff_of_false (fun hexclusive => absurd (hmode.symm.trans hexclusive) (by decide)) id
        · rw [Concurrent.phase_goto_of_ne _ heq]
      · by_cases heq : q = p
        · subst heq
          rw [Concurrent.phase_goto_self]
          exact iff_of_true (Finset.mem_insert_self ..) hmode
        · rw [Concurrent.phase_goto_of_ne _ heq]
          exact (Finset.mem_insert.trans (or_iff_right heq)).trans (h.readers q)
  | statement hinside _ => exact h.goto _ fun mode => by rw [hinside]; rfl
  | last hinside _ => exact h.goto _ fun mode => by rw [hinside]; rfl
  | @unlock p o r hdone =>
      have hother : ∀ mode q, q ≠ p →
          (((c.unlock p (obj.mode o)).goto p (.left r)).phase q).Holds obj mode =
            (c.phase q).Holds obj mode := by
        intro mode q hne
        rw [Concurrent.phase_goto_of_ne _ hne]
        cases obj.mode o <;> rfl
      have hself : ∀ mode,
          ¬ (((c.unlock p (obj.mode o)).goto p (.left r)).phase p).Holds obj mode := by
        intro mode
        rw [Concurrent.phase_goto_self]
        exact id
      have hholds : (c.phase p).Holds obj (obj.mode o) := by
        rw [hdone]
        rfl
      cases hmode : obj.mode o with
      | exclusive =>
          rw [hmode] at hother hself hholds
          refine ⟨h.writer.release hholds (hself _) fun q hne => iff_of_eq (hother _ q hne),
            fun q => ?_, fun hsome => absurd rfl hsome⟩
          by_cases heq : q = p
          · subst heq
            refine iff_of_false (fun hmem => ?_) (hself _)
            have hshared := (h.readers q).mp hmem
            rw [hdone] at hshared
            exact absurd (hmode.symm.trans hshared) (by decide)
          · exact (h.readers q).trans (iff_of_eq (hother _ q heq).symm)
      | shared =>
          rw [hmode] at hother hself hholds
          have hreader : p ∈ c.readers := (h.readers p).mpr hholds
          have hwriter : c.writer = none := by
            by_contra hsome
            rw [h.apart hsome] at hreader
            exact absurd hreader (by simp)
          refine ⟨?_, fun q => ?_, fun hsome => absurd hwriter hsome⟩
          · refine h.writer.keep fun q => ?_
            by_cases heq : q = p
            · subst heq
              exact iff_of_false (hself _) (h.writer.not_inside hwriter q)
            · exact iff_of_eq (hother _ q heq)
          · by_cases heq : q = p
            · subst heq
              exact iff_of_false (Finset.notMem_erase _ _) (hself _)
            · refine Iff.trans ?_ ((h.readers q).trans (iff_of_eq (hother _ q heq).symm))
              exact Finset.mem_erase.trans (and_iff_right heq)
  | «return» hleft => exact h.goto c.state fun mode => by rw [hleft]; rfl

/-! ## The object in use and the object as it is meant -/

/-- What can be seen of a phase. -/
def Phase.stage : Phase op point ret → Stage op ret
  | .idle => .idle
  | .called o | .inside o _ => .called o
  | .done _ r | .left r => .left r

/-- The atomic object that a state stands for: it is at rest where the writer's body began, and every
body has come as far as it has from there. -/
structure Related (obj : Object σ op point input ret) (allowed : op → input → Prop)
    (c : Concurrent party σ op point ret) (a : Atomic party σ op ret) : Prop where
  guarded : Guarded obj c
  stage : ∀ p, a.stage p = (c.phase p).stage
  bodies : ∀ p o at', c.phase p = .inside o at' →
    obj.Steps allowed o (a.state, obj.enter o) (c.state, at')
  settled : (∀ p o at', c.phase p = .inside o at' → obj.mode o = .shared) → c.state = a.state

section Related

variable {a : Atomic party σ op ret}

theorem stage_goto (h : ∀ p, a.stage p = (c.phase p).stage) (p : party)
    (phase : Phase op point ret) (q : party) :
    Function.update a.stage p phase.stage q = ((c.goto p phase).phase q).stage := by
  by_cases heq : q = p
  · subst heq
    rw [Function.update_self, Concurrent.phase_goto_self]
  · rw [Function.update_of_ne heq, Concurrent.phase_goto_of_ne phase heq, h q]

/-- Who is inside behind the step has been inside before, or is the party that moved. -/
theorem inside_of_goto {p q : party} {phase : Phase op point ret} {o : op} {at' : point}
    (hinside : (c.goto p phase).phase q = .inside o at') :
    q ≠ p ∧ c.phase q = .inside o at' ∨ q = p ∧ phase = .inside o at' := by
  by_cases heq : q = p
  · subst heq
    rw [Concurrent.phase_goto_self] at hinside
    exact Or.inr ⟨rfl, hinside⟩
  · rw [Concurrent.phase_goto_of_ne phase heq] at hinside
    exact Or.inl ⟨heq, hinside⟩

omit [DecidableEq party] in
/-- A writer inside is inside alone. -/
theorem Guarded.alone (h : Guarded obj c) {p q : party} {o o' : op} {at' at'' : point}
    (hp : c.phase p = .inside o at') (hmode : obj.mode o = .exclusive)
    (hq : c.phase q = .inside o' at'') : q = p := by
  have hwriter : (c.phase p).Holds obj .exclusive := by
    rw [hp]
    exact hmode
  cases hmode' : obj.mode o' with
  | exclusive =>
      have hother : (c.phase q).Holds obj .exclusive := by
        rw [hq]
        exact hmode'
      exact h.writer.unique hother hwriter
  | shared =>
      have hother : (c.phase q).Holds obj .shared := by
        rw [hq]
        exact hmode'
      have hreader : q ∈ c.readers := (h.readers q).mpr hother
      rw [h.apart (by rw [(h.writer p).mp hwriter]; simp)] at hreader
      exact absurd hreader (by simp)

omit [DecidableEq party] in
/-- Without a writer the object is at rest. -/
theorem Related.state_eq (h : Related obj allowed c a) (hwriter : c.writer = none) :
    c.state = a.state := by
  apply h.settled
  intro p o at' hinside
  cases hmode : obj.mode o with
  | shared => rfl
  | exclusive =>
      refine absurd ?_ (h.guarded.writer.not_inside hwriter p)
      rw [hinside]
      exact hmode

/-- A party goes on outside its body, with the mutex as it may be. -/
theorem Related.goto (h : Related obj allowed c a) {locked : Concurrent party σ op point ret}
    {p : party}
    {phase : Phase op point ret} (hguarded : Guarded obj (locked.goto p phase))
    (hstate : locked.state = c.state) (hphase : locked.phase = c.phase)
    (hbefore : ∀ o at', c.phase p ≠ .inside o at') (hafter : ∀ o at', phase ≠ .inside o at') :
    Related obj allowed (locked.goto p phase) ⟨a.state, Function.update a.stage p phase.stage⟩ := by
  have hinside : ∀ {q : party} {o : op} {at' : point},
      (locked.goto p phase).phase q = .inside o at' → c.phase q = .inside o at' := by
    intro q o at' hq
    rcases inside_of_goto hq with ⟨-, hother⟩ | ⟨-, hself⟩
    · rwa [hphase] at hother
    · exact absurd hself (hafter o at')
  refine ⟨hguarded, stage_goto (fun q => by rw [hphase, h.stage q]) p phase, ?_, fun hall => ?_⟩
  · intro q o at' hq
    rw [show (locked.goto p phase).state = c.state from hstate]
    exact h.bodies q o at' (hinside hq)
  · refine hstate.trans (h.settled fun q o at' hq => hall q o at' ?_)
    have hne : q ≠ p := by
      rintro rfl
      exact hbefore o at' hq
    rw [Concurrent.phase_goto_of_ne phase hne, hphase, hq]

/-- A party enters its body with the mutex. -/
theorem Related.enter (h : Related obj allowed c a) {locked : Concurrent party σ op point ret}
    {p : party}
    {o : op} (hcalled : c.phase p = .called o)
    (hguarded : Guarded obj (locked.goto p (.inside o (obj.enter o))))
    (hstate : locked.state = c.state) (hphase : locked.phase = c.phase) (hwriter : c.writer = none) :
    Related obj allowed (locked.goto p (.inside o (obj.enter o))) a := by
  have hrest : c.state = a.state := h.state_eq hwriter
  have hstage : Function.update a.stage p (.called o) = a.stage := by
    rw [Function.update_eq_self_iff, h.stage p, hcalled]
    rfl
  refine ⟨hguarded, fun q => ?_, ?_, fun _ => hstate.trans hrest⟩
  · have hq := stage_goto (c := locked) (fun q => by rw [hphase, h.stage q]) p
      (.inside o (obj.enter o)) q
    rwa [show (Phase.inside o (obj.enter o) : Phase op point ret).stage = .called o from rfl,
      hstage] at hq
  · intro q o' at' hq
    rw [show (locked.goto p (.inside o (obj.enter o))).state = c.state from hstate]
    rcases inside_of_goto hq with ⟨-, hother⟩ | ⟨-, hself⟩
    · rw [hphase] at hother
      exact h.bodies q o' at' hother
    · cases hself
      rw [hrest]
      exact .refl _

theorem Related.statement (h : Related obj allowed c a) {p : party} {o : op} {at' later : point}
    {given : input} {s : σ} (hinside : c.phase p = .inside o at') (hgiven : allowed o given)
    (hstep : obj.step o c.state at' given = some (s, .inl later))
    (hguarded : Guarded obj ({ c with state := s }.goto p (.inside o later))) :
    Related obj allowed ({ c with state := s }.goto p (.inside o later)) a := by
  have hbody : obj.Steps allowed o (a.state, obj.enter o) (s, later) :=
    (h.bodies p o at' hinside).tail hgiven hstep
  have hstage : Function.update a.stage p (.called o) = a.stage := by
    rw [Function.update_eq_self_iff, h.stage p, hinside]
    rfl
  refine ⟨hguarded, fun q => ?_, fun q o' at'' hq => ?_, fun hall => ?_⟩
  · have hq := stage_goto (c := { c with state := s }) h.stage p (.inside o later) q
    rwa [show (Phase.inside o later : Phase op point ret).stage = .called o from rfl, hstage] at hq
  · change obj.Steps allowed o' (a.state, obj.enter o') (s, at'')
    rcases inside_of_goto hq with ⟨hne, hother⟩ | ⟨-, hself⟩
    · cases hmode : obj.mode o with
      | exclusive => exact absurd (h.guarded.alone hinside hmode hother) hne
      | shared =>
          obtain rfl : s = c.state := obj.step_of_shared hmode hstep
          exact h.bodies q o' at'' hother
    · cases hself
      exact hbody
  · have hmode : obj.mode o = .shared := hall p o later (Concurrent.phase_goto_self ..)
    change s = a.state
    exact hbody.of_shared hmode

/-- The last statement of a body: here the call takes effect. -/
theorem Related.last (h : Related obj allowed c a) {p : party} {o : op} {at' : point}
    {given : input} {s : σ}
    {r : ret} (hinside : c.phase p = .inside o at') (hgiven : allowed o given)
    (hstep : obj.step o c.state at' given = some (s, .inr r))
    (hguarded : Guarded obj ({ c with state := s }.goto p (.done o r))) :
    obj.Completes allowed o a.state s r ∧
      Related obj allowed ({ c with state := s }.goto p (.done o r))
        ⟨s, Function.update a.stage p (.left r)⟩ := by
  refine ⟨.intro (h.bodies p o at' hinside) hgiven hstep, hguarded,
    stage_goto (c := { c with state := s }) h.stage p (.done o r), fun q o' at'' hq => ?_,
    fun _ => rfl⟩
  rcases inside_of_goto hq with ⟨hne, hother⟩ | ⟨-, hself⟩
  · cases hmode : obj.mode o with
    | exclusive => exact absurd (h.guarded.alone hinside hmode hother) hne
    | shared =>
        -- readers share a state that is at rest
        have hrest : c.state = a.state := by
          apply h.state_eq
          by_contra hsome
          have hreader : p ∈ c.readers := (h.guarded.readers p).mpr (by rw [hinside]; exact hmode)
          rw [h.guarded.apart hsome] at hreader
          exact absurd hreader (by simp)
        have hsame : s = c.state := obj.step_of_shared hmode hstep
        have hbody := h.bodies q o' at'' hother
        change obj.Steps allowed o' (s, obj.enter o') (s, at'')
        rwa [hsame, hrest] at *
  · exact absurd hself (by simp)

/-- What a step has to do with bodies that have ended: the object at rest is as it was or as the body
left it, and who is done newly has run that body. -/
structure Settles (obj : Object σ op point input ret) (allowed : op → input → Prop)
    (c next : Concurrent party σ op point ret) (s s' : σ) : Prop where
  state : s' = s ∨ ∃ o r, obj.Completes allowed o s s' r
  done : ∀ p o r, next.phase p = .done o r →
    c.phase p = .done o r ∨ obj.Completes allowed o s s' r

/-- A party goes on without having ended a body. -/
theorem settles_goto {locked : Concurrent party σ op point ret} (hphase : locked.phase = c.phase)
    (p : party) (phase : Phase op point ret) (hnot : ∀ o r, phase ≠ .done o r) (s : σ) :
    Settles obj allowed c (locked.goto p phase) s s := by
  refine ⟨Or.inl rfl, fun q o r hdone => Or.inl ?_⟩
  by_cases heq : q = p
  · subst heq
    rw [Concurrent.phase_goto_self] at hdone
    exact absurd hdone (hnot o r)
  · rwa [Concurrent.phase_goto_of_ne phase heq, hphase] at hdone

end Related

/-! ## Linearizability -/

section Linearizable

variable {ι : Type*} [DecidableEq ret] {apply : op → σ → ι → Option (σ × ret)}
  {whole : op → ι → Prop} {init : σ → Prop}

variable (init) in
/-- Every step of the object in use is at most one step of the object as it is meant, and shows the
same. -/
theorem Related.step {a : Atomic party σ op ret}
    (hbody : ∀ o s s' r, obj.Completes allowed o s s' r →
      ∃ given, whole o given ∧ apply o s given = some (s', r))
    (h : Related obj allowed c a) {action : Action party op input ret}
    (hgiven : Given allowed c action) (hstep : c.Step obj action next) :
    ∃ moments a', (atomic apply init).Run (GivenWhole whole) a moments a' ∧
      moments.filterMap Moment.event = [action].filterMap Action.event ∧
        Related obj allowed next a' ∧ Settles obj allowed c next a.state a'.state := by
  have hguarded : Guarded obj next := h.guarded.step hstep
  cases hstep with
  | @call p o hidle =>
      refine ⟨[.call p o], _, Run.cons trivial ?_ (Run.nil _), rfl,
        h.goto hguarded rfl rfl (by simp [hidle]) (by simp), ?_⟩
      · have hstage : a.stage p = .idle := by
          rw [h.stage p, hidle]
          rfl
        simp only [atomic, hstage]
        rfl
      · exact settles_goto (by rfl) p _ (by simp) _
  | @lockExclusive p o hcalled _ hwriter _ =>
      refine ⟨[], a, Run.nil a, rfl, h.enter hcalled hguarded rfl rfl hwriter, ?_⟩
      exact settles_goto (by rfl) p _ (by simp) _
  | @lockShared p o hcalled _ hwriter =>
      refine ⟨[], a, Run.nil a, rfl, h.enter hcalled hguarded rfl rfl hwriter, ?_⟩
      exact settles_goto (by rfl) p _ (by simp) _
  | @statement p o at' later given s hinside hstep =>
      refine ⟨[], a, Run.nil a, rfl, h.statement hinside (hgiven o at' hinside) hstep hguarded, ?_⟩
      exact settles_goto (by rfl) p _ (by simp) _
  | @last p o at' given s r hinside hstep =>
      obtain ⟨hcompletes, hrelated⟩ := h.last hinside (hgiven o at' hinside) hstep hguarded
      obtain ⟨all, hall, happly⟩ := hbody o _ _ _ hcompletes
      have hstage : a.stage p = .called o := by
        rw [h.stage p, hinside]
        rfl
      refine ⟨[.effect p all], _, Run.cons ?_ ?_ (Run.nil _), rfl, hrelated,
        ⟨Or.inr ⟨o, r, hcompletes⟩, fun q o' r' hdone => ?_⟩⟩
      · intro o' ho'
        cases hstage.symm.trans ho'
        exact hall
      · simp only [atomic, hstage, happly]
        rfl
      · by_cases heq : q = p
        · subst heq
          rw [Concurrent.phase_goto_self] at hdone
          cases hdone
          exact Or.inr hcompletes
        · rw [Concurrent.phase_goto_of_ne _ heq] at hdone
          exact Or.inl hdone
  | @unlock p o r hdone =>
      have hstage : Function.update a.stage p (.left r) = a.stage := by
        rw [Function.update_eq_self_iff, h.stage p, hdone]
        rfl
      have hlocked : (c.unlock p (obj.mode o)).state = c.state ∧
          (c.unlock p (obj.mode o)).phase = c.phase := by
        cases obj.mode o <;> exact ⟨rfl, rfl⟩
      have hrelated := h.goto hguarded hlocked.1 hlocked.2 (by simp [hdone]) (by simp)
      rw [show (Phase.left r : Phase op point ret).stage = .left r from rfl, hstage] at hrelated
      refine ⟨[], a, Run.nil a, rfl, hrelated, ?_⟩
      exact settles_goto hlocked.2 p _ (by simp) _
  | @«return» p r hleft =>
      refine ⟨[.return p r], _, Run.cons trivial ?_ (Run.nil _), rfl,
        h.goto hguarded rfl rfl (by simp [hleft]) (by simp), ?_⟩
      · have hstage : a.stage p = .left r := by
          rw [h.stage p, hleft]
          rfl
        simp only [atomic, hstage, if_true]
        rfl
      · exact settles_goto (by rfl) p _ (by simp) _

theorem related_init (h : (concurrent obj init).init c) :
    Related obj allowed c ⟨c.state, fun _ => .idle⟩ := by
  obtain ⟨-, hidle, hwriter, hreaders⟩ := h
  refine ⟨⟨?_, fun p => ?_, fun _ => hreaders⟩, fun p => ?_, fun p o at' hinside => ?_, fun _ => rfl⟩
  · rw [hwriter]
    exact Mutex.guarded_none fun p => by rw [hidle p]; exact id
  · rw [hreaders, hidle p]
    exact iff_of_false (by simp) id
  · rw [hidle p]
    rfl
  · exact absurd ((hidle p).symm.trans hinside) (by simp)

/-- **Linearizability.**  What can be seen of an object under its mutex, in any interleaving of its
users' statements, can be seen of the atomic object, which is in the same state whenever there is
no writer. -/
theorem linearizable
    (hbody : ∀ o s s' r, obj.Completes allowed o s s' r →
      ∃ given, whole o given ∧ apply o s given = some (s', r))
    {actions : List (Action party op input ret)} {final : Concurrent party σ op point ret}
    (hinit : (concurrent obj init).init c)
    (h : (concurrent obj init).Run (Given allowed) c actions final) :
    ∃ moments a, (atomic apply init).Run (GivenWhole whole) ⟨c.state, fun _ => .idle⟩ moments a ∧
      moments.filterMap Moment.event = actions.filterMap Action.event ∧
        Related obj allowed final a := by
  have hstep : ∀ (state : Concurrent party σ op point ret) (action : Action party op input ret) next a,
      Related obj allowed state a → Given allowed state action →
      (concurrent obj init).step state action = some next →
      ∃ moments a', (atomic apply init).Run (GivenWhole whole) a moments a' ∧
        moments.filterMap Moment.event = [action].filterMap Action.event ∧
          Related obj allowed next a' :=
    fun _ _ _ _ hrelated hgiven hstep =>
      let ⟨moments, a', hrun, hevents, hnext, _⟩ := hrelated.step init hbody hgiven (step_cases hstep)
      ⟨moments, a', hrun, hevents, hnext⟩
  exact h.simulates_history hstep (related_init hinit)

/-- The rule for methods under a mutex: what every body, run alone, keeps true of the object is true
whenever there is no writer, and what it then says of the value returned is true of every value
returned. -/
theorem monitor
    (hbody : ∀ o s s' r, obj.Completes allowed o s s' r →
      ∃ given, whole o given ∧ apply o s given = some (s', r))
    {Good : σ → Prop} {Right : op → ret → Prop} (hinit : ∀ s, init s → Good s)
    (hright : ∀ o s s' r given, Good s → whole o given → apply o s given = some (s', r) →
      Good s' ∧ Right o r)
    (h : (concurrent obj init).Reachable (Given allowed) c) :
    (c.writer = none → Good c.state) ∧ ∀ p o r, c.phase p = .done o r → Right o r := by
  have hall : ∃ a, Related obj allowed c a ∧ Good a.state ∧
      ∀ p o r, c.phase p = .done o r → Right o r := by
    refine @Transition.System.Reachable.invariant _ _ (concurrent obj init) (Given allowed)
      (fun c => ∃ a, Related obj allowed c a ∧ Good a.state ∧
        ∀ p o r, c.phase p = .done o r → Right o r) (fun c hc => ?_) ?_ _ h
    · refine ⟨_, related_init hc, hinit _ hc.1, fun p o r hdone => ?_⟩
      exact absurd ((hc.2.1 p).symm.trans hdone) (by simp)
    · rintro c action next hgiven hstep ⟨a, hrelated, hgood, hdone⟩
      obtain ⟨-, a', -, -, hnext, hstate, hnew⟩ := hrelated.step init hbody hgiven (step_cases hstep)
      have hcompletes : ∀ {o r}, obj.Completes allowed o a.state a'.state r →
          Good a'.state ∧ Right o r := by
        intro o r hbody'
        obtain ⟨given, hwhole, happly⟩ := hbody o _ _ _ hbody'
        exact hright o _ _ _ given hgood hwhole happly
      refine ⟨a', hnext, ?_, fun p o r hp => ?_⟩
      · rcases hstate with hsame | ⟨o, r, hended⟩
        · rw [hsame]
          exact hgood
        · exact (hcompletes hended).1
      · exact (hnew p o r hp).elim (hdone p o r) fun hended => (hcompletes hended).2
  obtain ⟨a, hrelated, hgood, hdone⟩ := hall
  refine ⟨fun hwriter => ?_, hdone⟩
  rw [hrelated.state_eq hwriter]
  exact hgood

end Linearizable

/-! ## Progress -/

/-- A step that is not a new call, in which a statement is given `given`. -/
def Continues (given : input) : Action party op input ret → Prop
  | .call _ _ => False
  | .statement _ given' => given' = given
  | .lock _ | .unlock _ | .return _ _ => True

section Progress

variable [DecidableEq ret] {init : σ → Prop}

/-- Where every body can go on, no call waits forever for another: as long as there is one, somebody
can make a step. -/
theorem exists_continues (h : Guarded obj c) {given : input}
    (hbody : ∀ p o at', c.phase p = .inside o at' → (obj.step o c.state at' given).isSome)
    {p : party} (hbusy : c.phase p ≠ .idle) :
    ∃ action, Continues given action ∧ ((concurrent obj init).step c action).isSome := by
  have hholder : ∀ q, (∃ mode, (c.phase q).Holds obj mode) →
      ∃ action, Continues given action ∧ ((concurrent obj init).step c action).isSome := by
    rintro q ⟨mode, hholds⟩
    cases hq : c.phase q with
    | inside o at' =>
        refine ⟨.statement q given, rfl, ?_⟩
        simpa [concurrent, hq] using hbody q o at' hq
    | done o r =>
        refine ⟨.unlock q, trivial, ?_⟩
        simp [concurrent, hq]
    | idle | called _ | left _ =>
        rw [hq] at hholds
        exact absurd hholds id
  cases hp : c.phase p with
  | idle => exact absurd hp hbusy
  | inside o at' =>
      apply hholder p
      rw [hp]
      exact ⟨_, rfl⟩
  | done o r =>
      apply hholder p
      rw [hp]
      exact ⟨_, rfl⟩
  | left r =>
      refine ⟨.return p r, trivial, ?_⟩
      simp [concurrent, hp]
  | called o =>
      by_cases hheld : ∃ q mode, (c.phase q).Holds obj mode
      · obtain ⟨q, hq⟩ := hheld
        exact hholder q hq
      · have hwriter : c.writer = none := by
          cases hsome : c.writer with
          | none => rfl
          | some q => exact absurd ⟨q, _, (h.writer q).mpr hsome⟩ hheld
        have hreaders : c.readers = ∅ := by
          apply Finset.eq_empty_of_forall_notMem
          exact fun q hq => hheld ⟨q, _, (h.readers q).mp hq⟩
        refine ⟨.lock p, trivial, ?_⟩
        cases hmode : obj.mode o <;> simp [concurrent, Concurrent.lock, hp, hmode, hwriter, hreaders]

/-- The steps that a party has still to make, where `cost` is what its body may take from a point
on. -/
def Phase.cost (obj : Object σ op point input ret) (cost : point → ℕ) : Phase op point ret → ℕ
  | .idle => 0
  | .called o => cost (obj.enter o) + 4
  | .inside _ at' => cost at' + 3
  | .done _ _ => 2
  | .left _ => 1

variable [Fintype party] (weight : σ → ℕ) (cost : point → ℕ)

/-- The steps that all parties have still to make; `weight` is what the state itself allows. -/
def rank (obj : Object σ op point input ret) (c : Concurrent party σ op point ret) : ℕ :=
  weight c.state + ∑ p, (c.phase p).cost obj cost

variable (obj) in
omit [DecidableEq ret] in
/-- One party goes on, and the state changes. -/
theorem rank_goto {d : Concurrent party σ op point ret} (hphase : d.phase = c.phase) (p : party)
    (phase : Phase op point ret) :
    rank weight cost obj (d.goto p phase) + (weight c.state + (c.phase p).cost obj cost) =
      rank weight cost obj c + (weight d.state + phase.cost obj cost) := by
  have hothers : ∑ q ∈ Finset.univ.erase p, ((d.goto p phase).phase q).cost obj cost =
      ∑ q ∈ Finset.univ.erase p, (c.phase q).cost obj cost := by
    refine Finset.sum_congr rfl fun q hq => ?_
    rw [Concurrent.phase_goto_of_ne phase (Finset.ne_of_mem_erase hq), hphase]
  have hsum := Finset.sum_erase_add Finset.univ (fun q => (c.phase q).cost obj cost)
    (Finset.mem_univ p)
  have hsum' := Finset.sum_erase_add Finset.univ
    (fun q => ((d.goto p phase).phase q).cost obj cost) (Finset.mem_univ p)
  rw [Concurrent.phase_goto_self, hothers] at hsum'
  have hstate : (d.goto p phase).state = d.state := rfl
  unfold rank
  rw [hstate]
  omega

omit [DecidableEq ret] in
/-- Where the statements of a body lower weight and cost, every step that is not a new call lowers the
rank. -/
theorem rank_lt_of_step {given : input} {action : Action party op input ret}
    (hstep : c.Step obj action next) (hcontinues : Continues given action)
    (hstatement : ∀ p o at' s later, c.phase p = .inside o at' →
      obj.step o c.state at' given = some (s, .inl later) →
      weight s + cost later < weight c.state + cost at')
    (hlast : ∀ p o at' s r, c.phase p = .inside o at' →
      obj.step o c.state at' given = some (s, .inr r) → weight s ≤ weight c.state + cost at') :
    rank weight cost obj next < rank weight cost obj c := by
  cases hstep with
  | call _ => exact absurd hcontinues id
  | @lockExclusive p o hcalled _ _ _ =>
      have hrank := rank_goto obj weight cost (c := c) (d := { c with writer := some p }) rfl p
        (.inside o (obj.enter o))
      simp only [hcalled, Phase.cost] at hrank
      omega
  | @lockShared p o hcalled _ _ =>
      have hrank := rank_goto obj weight cost (c := c)
        (d := { c with readers := insert p c.readers }) rfl p (.inside o (obj.enter o))
      simp only [hcalled, Phase.cost] at hrank
      omega
  | @statement p o at' later given' s hinside hstep =>
      cases hcontinues
      have hlower := hstatement p o at' s later hinside hstep
      have hrank := rank_goto obj weight cost (c := c) (d := { c with state := s }) rfl p
        (.inside o later)
      simp only [hinside, Phase.cost] at hrank
      omega
  | @last p o at' given' s r hinside hstep =>
      cases hcontinues
      have hlower := hlast p o at' s r hinside hstep
      have hrank := rank_goto obj weight cost (c := c) (d := { c with state := s }) rfl p
        (.done o r)
      simp only [hinside, Phase.cost] at hrank
      omega
  | @unlock p o r hdone =>
      have hlocked : (c.unlock p (obj.mode o)).state = c.state ∧
          (c.unlock p (obj.mode o)).phase = c.phase := by
        cases obj.mode o <;> exact ⟨rfl, rfl⟩
      have hrank := rank_goto obj weight cost hlocked.2 p (.left r)
      simp only [hdone, Phase.cost, hlocked.1] at hrank
      omega
  | @«return» p r hleft =>
      have hrank := rank_goto obj weight cost (c := c) (d := c) rfl p .idle
      simp only [hleft, Phase.cost] at hrank
      omega

end Progress

end Locked
