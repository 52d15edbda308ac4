import Mathlib.Algebra.Order.BigOperators.Group.Finset
import Mathlib.Data.Fintype.Card
import Sok.Cache.Threads

/-!
# Every call of the cache returns

At every point of a body the statement that comes next has what it needs (`Able`): the
iterator it follows is valid, and the list it takes the last path from is not empty.
Every statement lowers `Point.cost` and the length of the list, so while no new call
comes the threads make a bounded number of steps; and none waits for ever, since the
mutex is free or somebody who holds it can go on.

## Strategy

`Able` is kept by every statement, so a thread that has the lock can always make one.  The
cost of a point is the number of statements behind it in the body; the loop is the
exception, as it goes back, and there every round takes five statements and a node of the
list, so five for every node are added (`weight`).  Between two bodies the cache is one
that whole operations reach, by the linearization, and so `Linked` holds where a body
begins.  How the costs of the threads make one rank, and why somebody can go on, is
`Sok.Foundation.Locked`.
-/

namespace Sok.FileCache

/-! ## What a statement needs -/

def LoopReady (cache : FileCache) : LoopPoint → Prop
  | .test => True
  | .back => cache.lruList ≠ []
  | .shrinkBack lruFile => (cache.files lruFile).isSome ∧ cache.lruList ≠ []
  | .eraseBack _ | .popBack => cache.lruList ≠ []

def GetReady (path : Bytes) (cache : FileCache) : Point → Prop
  | .check | .shrink | .unlink | .erase | .pushFront | .countHit | .copy =>
      (cache.files path).isSome
  | .setIterator => (cache.files path).isSome ∧ cache.lruList ≠ []
  | .setNewIterator _ => cache.lruList ≠ []
  | .loop at' _ => cache.LoopReady at'
  | .assignMaxSize | .readHits | .readMisses => False
  | _ => True

/-- The statement is one of the method's, and its iterators are valid. -/
def StatementReady (method : Method) (cache : FileCache) (at' : Point) : Prop :=
  match method with
  | .get path => GetReady path cache at'
  | .setMaxSize _ =>
      match at' with
      | .assignMaxSize => True
      | .loop at' _ => cache.LoopReady at'
      | _ => False
  | .getCacheHits => at' = .readHits
  | .getCacheMisses => at' = .readMisses

/-- The statement can be executed, and what is still to come ends. -/
structure Able (method : Method) (cache : FileCache) (at' : Point) : Prop where
  ready : StatementReady method cache at'
  returns : ∀ calls, (rest method cache at' calls).isSome

/-- Anything may be returned. -/
def anyAnswers : Bytes → Answers := fun _ =>
  ⟨fun _ => True, fun _ => True, fun _ => True, fun _ => True, fun _ => True, fun _ => True⟩

theorem allowed_anyAnswers (method : Method) (calls : FileCalls) :
    Allowed anyAnswers method calls := by
  cases method with
  | get path => exact ⟨trivial, trivial, trivial, trivial, trivial, trivial⟩
  | setMaxSize _ | getCacheHits | getCacheMisses => trivial

/-! ## What it costs -/

def LoopPoint.cost : LoopPoint → ℕ
  | .test => 4
  | .back => 3
  | .shrinkBack _ => 2
  | .eraseBack _ => 1
  | .popBack => 0

/-- The statements behind this one, but for the rounds of the loop: five for every node in the list,
those for a node that is still to be pushed counted here. -/
def Point.cost : Point → ℕ
  | .copy | .readHits | .readMisses => 0
  | .countHit => 1
  | .setIterator => 2
  | .pushFront => 8
  | .erase => 9
  | .loop at' _ => at'.cost
  | .grow _ | .assignMaxSize => 5
  | .enter _ => 6
  | .setNewIterator _ => 7
  | .pushNew _ => 13
  | .stamp _ _ => 14
  | .read _ => 15
  | .resize _ => 16
  | .sizing => 17
  | .opening => 18
  | .countMiss => 19
  | .drop => 20
  | .unlink => 21
  | .shrink => 22
  | .check => 23
  | .find => 24

/-- The rounds that the list allows. -/
def weight (cache : FileCache) : ℕ := 5 * cache.lruList.length

section Statements

variable {cache next : FileCache} {calls : FileCalls} {later : Point}

theorem length_eraseNode_le (nodes : List LruNode) (it : ℕ) :
    (eraseNode nodes it).length ≤ nodes.length :=
  List.length_eraseP_le

theorem LoopReady.isSome {at' : LoopPoint} {answer : Answer} (h : cache.LoopReady at') :
    (cache.loopStatement at' answer).isSome := by
  cases at' with
  | test =>
      unfold loopStatement
      dsimp only
      split <;> rfl
  | back =>
      unfold loopStatement
      dsimp only
      split
      · rfl
      · split <;> rfl
  | shrinkBack lruFile =>
      obtain ⟨file, hfile⟩ := Option.isSome_iff_exists.mp h.1
      simp only [loopStatement, hfile, Option.bind_some]
      rfl
  | eraseBack _ | popBack => rfl

/-- The loop does not look for a last path in an empty list: it would never end. -/
theorem ne_nil_of_over {answer : Answer} (hover : cache.maxSize < cache.currentSize.value)
    (hreturns : (cache.evictThen answer).isSome) : cache.lruList ≠ [] := by
  intro hnil
  have hforever : cache.evictWhile = none := by
    unfold evictWhile
    rw [hnil, List.length_nil, evictRounds, if_pos hover]
  rw [evictThen, hforever] at hreturns
  exact absurd hreturns (by simp)

theorem LoopReady.statement {at' : LoopPoint} {answer : Answer} (h : cache.LoopReady at')
    (hreturns : (cache.restOfLoop at' answer).isSome)
    (hstep : cache.loopStatement at' answer = some (next, .inl later)) :
    ∃ at'', later = .loop at'' answer ∧ next.LoopReady at'' ∧
      next.weight + at''.cost < cache.weight + at'.cost := by
  cases at' with
  | test =>
      simp only [loopStatement] at hstep
      split at hstep
      case isTrue hover =>
        cases hstep
        exact ⟨.back, rfl, ne_nil_of_over hover hreturns, Nat.lt_succ_self _⟩
      case isFalse => cases hstep
  | back =>
      simp only [loopStatement] at hstep
      split at hstep
      case h_1 hnone => exact absurd (List.getLast?_eq_none_iff.mp hnone) h
      case h_2 node hlast =>
        split at hstep
        case isTrue hsome =>
          cases hstep
          exact ⟨.shrinkBack node.path, rfl, ⟨hsome, h⟩, Nat.lt_succ_self _⟩
        case isFalse =>
          cases hstep
          exact ⟨.popBack, rfl, h, Nat.lt_add_of_pos_right (by decide)⟩
  | shrinkBack lruFile =>
      obtain ⟨file, hfile, hnext⟩ := Option.bind_eq_some_iff.mp hstep
      cases hnext
      exact ⟨.eraseBack lruFile, rfl, h.2, Nat.lt_succ_self _⟩
  | eraseBack lruFile =>
      cases hstep
      exact ⟨.popBack, rfl, h, Nat.lt_succ_self _⟩
  | popBack =>
      cases hstep
      refine ⟨.test, rfl, trivial, ?_⟩
      have hpos : 0 < cache.lruList.length := List.length_pos_iff.mpr h
      simp only [weight, List.length_dropLast, LoopPoint.cost]
      omega

theorem GetReady.isSome {path : Bytes} {at' : Point} (h : GetReady path cache at') :
    (getStatement path cache at' calls).isSome := by
  cases at' with
  | check | shrink | unlink | erase | copy =>
      obtain ⟨file, hfile⟩ := Option.isSome_iff_exists.mp h
      simp only [getStatement, hfile, Option.bind_some]
      first | rfl | (split <;> rfl)
  | setIterator =>
      obtain ⟨file, hfile⟩ := Option.isSome_iff_exists.mp h.1
      obtain ⟨node, nodes, hnodes⟩ := List.exists_cons_of_ne_nil h.2
      simp only [getStatement, hfile, hnodes, List.head?_cons, Option.bind_some]
      rfl
  | setNewIterator file =>
      obtain ⟨node, nodes, hnodes⟩ := List.exists_cons_of_ne_nil h
      simp only [getStatement, hnodes, List.head?_cons, Option.bind_some]
      rfl
  | find | opening | sizing | resize _ =>
      unfold getStatement
      dsimp only
      split <;> rfl
  | drop | countMiss | pushFront | countHit | read _ | stamp _ _ | pushNew _ | enter _ | grow _ => rfl
  | loop at' answer => exact LoopReady.isSome h
  | assignMaxSize | readHits | readMisses => exact absurd h id

theorem GetReady.statement {path : Bytes} {at' : Point} (h : GetReady path cache at')
    (hreturns : (restOfGet path cache at' calls).isSome)
    (hstep : getStatement path cache at' calls = some (next, .inl later)) :
    GetReady path next later ∧ next.weight + later.cost < cache.weight + at'.cost := by
  cases at' with
  | find =>
      simp only [getStatement] at hstep
      split at hstep
      case isTrue hsome =>
        cases hstep
        exact ⟨hsome, Nat.lt_succ_self _⟩
      case isFalse =>
        cases hstep
        exact ⟨trivial, Nat.add_lt_add_left (by decide) _⟩
  | check =>
      obtain ⟨file, hfile, hnext⟩ := Option.bind_eq_some_iff.mp hstep
      split at hnext
      · cases hnext
        exact ⟨h, Nat.lt_succ_self _⟩
      · cases hnext
        exact ⟨h, Nat.add_lt_add_left (by decide) _⟩
  | shrink =>
      obtain ⟨file, hfile, hnext⟩ := Option.bind_eq_some_iff.mp hstep
      cases hnext
      exact ⟨h, Nat.lt_succ_self _⟩
  | unlink =>
      obtain ⟨file, hfile, hnext⟩ := Option.bind_eq_some_iff.mp hstep
      cases hnext
      have hlength := length_eraseNode_le cache.lruList file.lruIt
      refine ⟨trivial, ?_⟩
      simp only [weight, Point.cost]
      omega
  | erase =>
      obtain ⟨file, hfile, hnext⟩ := Option.bind_eq_some_iff.mp hstep
      cases hnext
      have hlength := length_eraseNode_le cache.lruList file.lruIt
      refine ⟨h, ?_⟩
      simp only [weight, Point.cost]
      omega
  | pushFront =>
      cases hstep
      refine ⟨⟨h, by simp⟩, ?_⟩
      simp only [weight, Point.cost, List.length_cons]
      omega
  | setIterator =>
      obtain ⟨file, hfile, hrest⟩ := Option.bind_eq_some_iff.mp hstep
      obtain ⟨node, hnode, hnext⟩ := Option.bind_eq_some_iff.mp hrest
      cases hnext
      refine ⟨?_, Nat.lt_succ_self _⟩
      simp [GetReady]
  | countHit =>
      cases hstep
      exact ⟨h, Nat.lt_succ_self _⟩
  | copy =>
      obtain ⟨file, hfile, hnext⟩ := Option.bind_eq_some_iff.mp hstep
      cases hnext
  | opening | sizing | resize _ =>
      simp only [getStatement] at hstep
      split at hstep
      all_goals cases hstep
      exact ⟨trivial, Nat.lt_succ_self _⟩
  | pushNew file =>
      cases hstep
      refine ⟨by simp [GetReady], ?_⟩
      simp only [weight, Point.cost, List.length_cons]
      omega
  | setNewIterator file =>
      obtain ⟨node, hnode, hnext⟩ := Option.bind_eq_some_iff.mp hstep
      cases hnext
      exact ⟨trivial, Nat.lt_succ_self _⟩
  | drop | countMiss | read _ | stamp _ _ | enter _ | grow _ =>
      cases hstep
      exact ⟨trivial, Nat.lt_succ_self _⟩
  | loop at' answer =>
      obtain ⟨at'', rfl, hready, hlower⟩ := LoopReady.statement h hreturns hstep
      exact ⟨hready, hlower⟩
  | assignMaxSize | readHits | readMisses => exact absurd h id

end Statements

/-! ## Bodies -/

section Bodies

variable {method : Method} {cache next : FileCache} {at' later : Point} {calls : FileCalls}

theorem Linked.able (h : cache.Linked) : Able method cache method.enter := by
  refine ⟨?_, fun calls => ?_⟩
  · cases method with
    | get _ | setMaxSize _ => trivial
    | getCacheHits | getCacheMisses => rfl
  · rw [rest_enter]
    cases method with
    | get path =>
        obtain ⟨next, answer, hget, -⟩ := h.get path calls
        simp only [apply, hget, Option.map_some, Option.isSome_some]
    | setMaxSize maxSize =>
        obtain ⟨next, hset, -⟩ := h.setMaxSize maxSize
        simp only [apply, hset, Option.map_some, Option.isSome_some]
    | getCacheHits | getCacheMisses => rfl

theorem Able.isSome (h : Able method cache at') : (statement method cache at' calls).isSome := by
  have hready := h.ready
  cases method with
  | get path => exact GetReady.isSome hready
  | setMaxSize maxSize =>
      cases at' with
      | assignMaxSize => rfl
      | loop at' answer => exact LoopReady.isSome hready
      | _ => exact absurd hready id
  | getCacheHits | getCacheMisses =>
      obtain rfl := hready
      rfl

theorem Able.statement (h : Able method cache at')
    (hstep : statement method cache at' calls = some (next, .inl later)) :
    Able method next later ∧ next.weight + later.cost < cache.weight + at'.cost := by
  have hreturns : ∀ calls, (rest method next later calls).isSome := by
    intro calls'
    obtain ⟨all, -, heq⟩ := statement_rest (allowed_anyAnswers method calls)
      (allowed_anyAnswers method calls') hstep
    rw [Sum.elim_inl] at heq
    exact heq ▸ h.returns all
  have hready := h.ready
  cases method with
  | get path =>
      obtain ⟨hnext, hlower⟩ := GetReady.statement hready (h.returns calls) hstep
      exact ⟨⟨hnext, hreturns⟩, hlower⟩
  | setMaxSize maxSize =>
      cases at' with
      | assignMaxSize =>
          cases hstep
          exact ⟨⟨trivial, hreturns⟩, Nat.lt_succ_self _⟩
      | loop at' answer =>
          obtain ⟨at'', rfl, hnext, hlower⟩ := LoopReady.statement hready (h.returns calls) hstep
          exact ⟨⟨hnext, hreturns⟩, hlower⟩
      | _ => exact absurd hready id
  | getCacheHits | getCacheMisses =>
      obtain rfl := hready
      cases hstep

theorem eq_of_loop_ends {at' : LoopPoint} {answer answer' : Answer}
    (h : cache.loopStatement at' answer' = some (next, .inr answer)) : next = cache := by
  cases at' with
  | test =>
      simp only [loopStatement] at h
      split at h
      all_goals cases h
      rfl
  | back =>
      simp only [loopStatement] at h
      split at h
      · cases h
      · split at h <;> cases h
  | shrinkBack lruFile =>
      obtain ⟨file, -, hnext⟩ := Option.bind_eq_some_iff.mp h
      cases hnext
  | eraseBack _ | popBack => cases h

theorem eq_of_ends {answer : Answer}
    (h : FileCache.statement method cache at' calls = some (next, .inr answer)) : next = cache := by
  cases method with
  | get path =>
      cases at' with
      | loop at' answer' => exact eq_of_loop_ends h
      | copy | shrink | unlink | erase =>
          obtain ⟨file, -, hnext⟩ := Option.bind_eq_some_iff.mp h
          cases hnext
          try rfl
      | check =>
          obtain ⟨file, -, hnext⟩ := Option.bind_eq_some_iff.mp h
          split at hnext <;> cases hnext
      | setIterator =>
          obtain ⟨file, -, hrest⟩ := Option.bind_eq_some_iff.mp h
          obtain ⟨node, -, hnext⟩ := Option.bind_eq_some_iff.mp hrest
          cases hnext
      | setNewIterator file =>
          obtain ⟨node, -, hnext⟩ := Option.bind_eq_some_iff.mp h
          cases hnext
      | find | opening | sizing | resize _ =>
          simp only [FileCache.statement, getStatement] at h
          split at h
          all_goals cases h
          try rfl
      | _ => cases h
  | setMaxSize maxSize =>
      cases at' with
      | loop at' answer' => exact eq_of_loop_ends h
      | _ => cases h
  | getCacheHits | getCacheMisses =>
      cases at' <;> cases h
      rfl

end Bodies

/-! ## All threads -/

section Threads

variable {thread : Type*} [DecidableEq thread]

/-- The cache in use stands for one that is reached by whole operations. -/
def Standing (c : Locked.Concurrent thread FileCache Method Point Answer) : Prop :=
  ∃ a, Locked.Related object (Allowed anyAnswers) c a ∧
    (Locked.atomic apply IsNew).Reachable (Locked.GivenWhole (Allowed anyAnswers)) a

variable {c next : Locked.Concurrent thread FileCache Method Point Answer}

theorem Standing.step (h : Standing c) {action : Locked.Action thread Method FileCalls Answer}
    (hstep : (Locked.concurrent object IsNew).step c action = some next) : Standing next := by
  obtain ⟨a, hrelated, hreachable⟩ := h
  have hgiven : Locked.Given (Allowed anyAnswers) c action := by
    cases action with
    | statement p given => exact fun method _ _ => allowed_anyAnswers method given
    | call _ _ | lock _ | unlock _ | «return» _ _ => trivial
  obtain ⟨moments, a', hrun, -, hnext, -⟩ := hrelated.step IsNew
    (fun _ _ _ _ hbody => apply_of_completes hbody) hgiven (Locked.step_cases hstep)
  exact ⟨a', hnext, hreachable.exec hrun.permits hrun.exec⟩

theorem standing_of_reachable
    (h : (Locked.concurrent object IsNew).Reachable Transition.anyStep c) : Standing c := by
  refine h.invariant ?_ fun _ _ _ _ hstep hstanding => hstanding.step hstep
  intro c hinit
  refine ⟨⟨c.state, fun _ => .idle⟩, Locked.related_init hinit, .initial ⟨hinit.1, fun _ => rfl⟩⟩

theorem Standing.able (h : Standing c) {p : thread} {method : Method} {at' : Point}
    (hinside : c.phase p = .inside method at') : Able method c.state at' := by
  obtain ⟨a, hrelated, hreachable⟩ := h
  have hlinked : a.state.Linked := linked_of_reachable (reachable_of_atomic hreachable)
  have hkept : ∀ s at' given s' later, Able method s at' →
      object.step method s at' given = some (s', .inl later) → Able method s' later :=
    fun _ _ _ _ _ hable hstep => (hable.statement hstep).1
  exact (hrelated.bodies p method at' hinside).invariant hkept hlinked.able

/-- Every step that is not a new call lowers the rank. -/
theorem Standing.rank_lt [Fintype thread] (h : Standing c)
    {action : Locked.Action thread Method FileCalls Answer} {calls : FileCalls}
    (hcontinues : Locked.Continues calls action)
    (hstep : (Locked.concurrent object IsNew).step c action = some next) :
    Locked.rank weight Point.cost object next < Locked.rank weight Point.cost object c := by
  refine Locked.rank_lt_of_step weight Point.cost (Locked.step_cases hstep) hcontinues ?_ ?_
  · exact fun _ _ _ _ _ hinside hstatement => ((h.able hinside).statement hstatement).2
  · intro _ _ _ _ _ _ hlast
    rw [eq_of_ends hlast]
    exact Nat.le_add_right _ _

theorem Point.cost_le (at' : Point) : at'.cost ≤ 24 := by
  cases at' with
  | loop at' _ => cases at' <;> exact Nat.le_of_ble_eq_true rfl
  | _ => exact Nat.le_of_ble_eq_true rfl

omit [DecidableEq thread] in
theorem rank_le [Fintype thread] (c : Locked.Concurrent thread FileCache Method Point Answer) :
    Locked.rank weight Point.cost object c ≤
      5 * c.state.lruList.length + 28 * Fintype.card thread := by
  refine Nat.add_le_add_left ?_ _
  calc ∑ p, (c.phase p).cost object Point.cost
      ≤ ∑ _p : thread, 28 := Finset.sum_le_sum fun p _ => ?_
    _ = 28 * Fintype.card thread := by
        rw [Finset.sum_const, Finset.card_univ, nsmul_eq_mul, Nat.cast_id, Nat.mul_comm]
  cases c.phase p with
  | called method => exact Nat.add_le_add_right (Point.cost_le _) 4
  | inside _ at' => exact (Nat.add_le_add_right (Point.cost_le at') 3).trans (by decide)
  | idle | done _ _ | left _ => simp [Locked.Phase.cost]

/-- A step that is not a new call. -/
def NoCall (_ : Locked.Concurrent thread FileCache Method Point Answer)
    (action : Locked.Action thread Method FileCalls Answer) : Prop :=
  ∃ calls, Locked.Continues calls action

/-- **Every call returns.**  From any state that the threads reach they make, while no new call comes,
at most five steps for every cached file and 28 for every thread, whoever makes them and whatever the
system calls return; and as long as a call has not returned, somebody can make one. -/
theorem calls_return [Fintype thread]
    (h : (Locked.concurrent object IsNew).Reachable Transition.anyStep c) :
    (∀ actions final, (Locked.concurrent object IsNew).Run NoCall c actions final →
      actions.length ≤ 5 * c.state.lruList.length + 28 * Fintype.card thread) ∧
    ((∃ p, c.phase p ≠ .idle) → ∀ calls, ∃ action, Locked.Continues calls action ∧
      ((Locked.concurrent object IsNew).step c action).isSome) := by
  have hstanding : Standing c := standing_of_reachable h
  constructor
  · intro actions final hrun
    have hlower : ∀ (state : Locked.Concurrent thread ..) (action : Locked.Action thread ..) next,
        Standing state → NoCall state action →
        (Locked.concurrent object IsNew).step state action = some next →
        Standing next ∧ Locked.rank weight Point.cost object next <
          Locked.rank weight Point.cost object state :=
      fun _ _ _ hstate ⟨_, hcontinues⟩ hstep => ⟨hstate.step hstep, hstate.rank_lt hcontinues hstep⟩
    have hbound := hrun.length_add_rank_le hlower hstanding
    exact (Nat.le_of_add_right_le hbound).trans (rank_le c)
  · rintro ⟨p, hbusy⟩ calls
    obtain ⟨a, hrelated, -⟩ := hstanding
    exact Locked.exists_continues hrelated.guarded
      (fun _ _ _ hinside => (standing_of_reachable h).able hinside |>.isSome) hbusy

end Threads

/-- In the middle of the first thread's `get`, while the second one waits for the lock. -/
theorem calls_return_two : ∃ c,
    (Locked.concurrent object IsNew).exec (unused 100) (getAndCount.take 8) = some c ∧
      (∀ actions final, (Locked.concurrent object IsNew).Run NoCall c actions final →
        actions.length ≤ 5 * c.state.lruList.length + 28 * Fintype.card Bool) ∧
      ∃ action, Locked.Continues (callsOn (ascii "page") 1) action ∧
        ((Locked.concurrent object IsNew).step c action).isSome := by
  have hrun : (((Locked.concurrent object IsNew).exec (unused 100) (getAndCount.take 8)).map
      fun c => decide (c.phase true = .idle)) = some false := by
    decide +kernel
  obtain ⟨c, hexec, hbusy⟩ := Option.map_eq_some_iff.mp hrun
  obtain ⟨hbound, hstep⟩ :=
    calls_return (Transition.System.reachable_of_exec ⟨⟨100, rfl⟩, fun _ => rfl, rfl, rfl⟩ hexec)
  exact ⟨c, hexec, hbound, hstep ⟨true, of_decide_eq_false hbusy⟩ _⟩

end Sok.FileCache
