import Sok.Foundation.Chain
import Sok.Queue.Fifo

/-!
# What is left at the end

No node is lost: every address that is in use belongs to a node of the queue or to the new node of
an `enqueue`, and wherever a link is missing there is a thread about to write it (`Complete`).  So
when all threads have returned the queue is a linked list from `head` to `tail`, and the destructor,
which follows the links, deletes each of its nodes once and leaves nothing behind.

## Strategy

`Complete` is kept along with `Layout`, by the same three steps: `ExchangesTail` adds a
node whose link is missing and whose writer is known, `WritesLink` removes one such pair,
`DeletesFirst` takes away a node whose link is written.  At rest there is no writer, so no
link is missing (`Complete.node_of_rest`), and the numbered nodes are a chain
(`Complete.chain_of_rest`).  What the destructor then does to a chain is the general fact
`LinkedFrom.free`.
-/

namespace Sok.LockFreeQueue

variable {n : ℕ} {T : Type}

def Pc.isIdle : Pc T → Bool
  | .idle => true
  | _ => false

theorem Pc.isIdle_iff {pc : Pc T} : pc.isIdle = true ↔ pc = .idle := by
  cases pc <;> simp [Pc.isIdle]

/-- All calls have returned. -/
def State.AtRest (s : State n T) : Prop := ∀ id, s.pcs id = .idle

instance (s : State n T) : Decidable s.AtRest :=
  decidable_of_iff (∀ id, (s.pcs id).isIdle = true) (forall_congr' fun _ => Pc.isIdle_iff)

/-- `empty`, when no other thread is inside a call. -/
def State.empty (s : State n T) : Bool := s.head = s.tail

/-- The loop of the destructor, for at most `passes` passes: the nodes it has deleted, and what is
left.  There is no result when a deleted node is followed, or when the passes do not suffice. -/
def destructor : ℕ → State n T → Option (List (Addr × Node T) × State n T)
  | passes, s =>
      match s.head, passes with
      | none, _ => some ([], s)
      | some _, 0 => none
      | some oldHead, passes + 1 =>
          (s.heap oldHead).bind fun old =>
            (destructor passes ({ s with head := old.next }.write (some oldHead) none)).map
              fun rest => ((oldHead, old) :: rest.1, rest.2)

/-- Every address in use is accounted for, and every missing link is about to be written. -/
structure Complete (slot : ℕ → Addr) (s : State n T) : Prop where
  owned : ∀ a, s.heap a ≠ none →
    (∃ i, s.Present i ∧ slot i = a) ∨ ∃ id, (s.pcs id).newNode = some a
  linking : ∀ i, s.first ≤ i → i < s.last → s.link (some (slot i)) = none →
    ∃ id node, s.pcs id = .enqLink node (some (slot i))

section Steps

variable {slot : ℕ → Addr} {s t : State n T} {id : Fin n}

theorem newNode_setPc_self (s : State n T) (id : Fin n) (pc : Pc T) :
    ((s.setPc id pc).pcs id).newNode = pc.newNode := by
  have hself : (s.setPc id pc).pcs id = pc := Function.update_self _ _ _
  rw [hself]

theorem pcs_of_ne {other : Fin n} {pc : Pc T} (hpcs : t.pcs = Function.update s.pcs id pc)
    (hne : other ≠ id) : t.pcs other = s.pcs other := by
  rw [hpcs, Function.update_of_ne hne]

/-- A step that leaves the nodes alone and is not the writing of a link. -/
theorem Complete.frame (h : Complete slot s) {pc : Pc T}
    (hpcs : t.pcs = Function.update s.pcs id pc) (hheap : t.heap = s.heap)
    (henqueued : t.enqueued = s.enqueued) (hreturned : t.returned = s.returned)
    (hnew : pc.newNode = (s.pcs id).newNode) (hlink : ∀ node p, s.pcs id ≠ .enqLink node p) :
    Complete slot t := by
  have hfirst : t.first = s.first := by rw [State.first, hreturned]
  have hlast : t.last = s.last := by rw [State.last, henqueued]
  constructor
  case owned =>
    intro a ha
    rw [hheap] at ha
    rcases h.owned a ha with ⟨i, hi, hslot⟩ | ⟨other, hother⟩
    · refine Or.inl ⟨i, ?_, hslot⟩
      rwa [State.Present, hfirst, hlast]
    · refine Or.inr ⟨other, ?_⟩
      rw [hpcs]
      by_cases heq : other = id
      · rw [heq, Function.update_self, hnew, ← heq]
        exact hother
      · rwa [Function.update_of_ne heq]
  case linking =>
    intro i hi hlt hnone
    rw [hfirst] at hi
    rw [hlast] at hlt
    have hsame : t.link (some (slot i)) = s.link (some (slot i)) := by
      rw [State.link, State.link, State.node, State.node, hheap]
    obtain ⟨other, node, hother⟩ := h.linking i hi hlt (hsame ▸ hnone)
    refine ⟨other, node, ?_⟩
    rw [hpcs, Function.update_of_ne fun heq => hlink node _ (heq ▸ hother)]
    exact hother

theorem Complete.enqueue (h : Complete slot s) (hlayout : Layout slot s) {value : T} {addr : Addr}
    (hpc : s.pcs id = .idle) (hfree : s.heap addr = none) :
    Complete slot ((s.write (some addr) (some ⟨value, none⟩)).setPc id (.enqLoad addr value)) := by
  constructor
  case owned =>
    intro a ha
    by_cases hnew : a = addr
    · exact Or.inr ⟨id, (newNode_setPc_self _ _ _).trans (congrArg some hnew.symm)⟩
    · have hold : s.heap a ≠ none := by
        intro hnone
        exact ha ((Function.update_of_ne hnew _ _).trans hnone)
      rcases h.owned a hold with hslot | ⟨other, hother⟩
      · exact Or.inl hslot
      · have hne : other ≠ id := by
          rintro rfl
          rw [hpc] at hother
          exact absurd hother (by simp [Pc.newNode])
        exact Or.inr ⟨other, (congrArg Pc.newNode (pcs_of_ne rfl hne)).trans hother⟩
  case linking =>
    intro i hi hlt hnone
    obtain ⟨stored, -, hstored, -⟩ := hlayout.node_slot ⟨hi, Nat.le_of_lt hlt⟩
    have hne : slot i ≠ addr := by
      rintro rfl
      exact absurd (hfree.symm.trans hstored) (by simp)
    have hsame : s.link (some (slot i)) = none := by
      rw [← hnone]
      have hread : Function.update s.heap addr (some (⟨value, none⟩ : Node T)) (slot i) =
          s.heap (slot i) := Function.update_of_ne hne _ _
      exact congrArg (fun node => Option.bind node Node.next) hread.symm
    obtain ⟨other, node, hother⟩ := h.linking i hi hlt hsame
    refine ⟨other, node, (pcs_of_ne rfl ?_).trans hother⟩
    rintro rfl
    exact absurd (hpc.symm.trans hother) (by simp)

/-- The exchange of the tail: the link to the new node is missing, and this thread writes it. -/
theorem Complete.exchangeTail (h : Complete slot s) (hlayout : Layout slot s) {node : Addr}
    {value : T} (e : ExchangesTail s t id node value) : Complete (numbered slot s node) t := by
  have hfirst := e.first_eq
  have hlast := e.last_eq
  constructor
  case owned =>
    intro a ha
    rw [e.heap] at ha
    rcases h.owned a ha with ⟨i, hi, hslot⟩ | ⟨other, hother⟩
    · refine Or.inl ⟨i, ⟨hfirst.trans_le hi.1, ?_⟩, (numbered_old hi.2).trans hslot⟩
      rw [hlast]
      exact Nat.le_succ_of_le hi.2
    · by_cases heq : other = id
      · rw [heq, e.pc] at hother
        obtain rfl : node = a := Option.some.inj hother
        refine Or.inl ⟨s.last + 1, ⟨?_, hlast.ge⟩, numbered_new _ _ _⟩
        exact hfirst.trans_le (Nat.le_succ_of_le hlayout.first_le_last)
      · exact Or.inr ⟨other, (congrArg Pc.newNode (pcs_of_ne e.pcs heq)).trans hother⟩
  case linking =>
    intro i hi hlt hnone
    rw [hfirst] at hi
    have hle : i ≤ s.last := Nat.le_of_lt_succ (hlt.trans_eq hlast)
    rw [numbered_old hle] at hnone ⊢
    rcases Nat.lt_or_eq_of_le hle with hbefore | rfl
    · obtain ⟨other, node', hother⟩ := h.linking i hi hbefore ((e.link_eq _).symm.trans hnone)
      refine ⟨other, node', (pcs_of_ne e.pcs ?_).trans hother⟩
      rintro rfl
      exact absurd (e.pc.symm.trans hother) (by simp)
    · refine ⟨id, node, ?_⟩
      rw [e.pcs, Function.update_self, hlayout.tail]

theorem Complete.writeLink (h : Complete slot s) (hlayout : Layout slot s) {i : ℕ} {old : Node T}
    (w : WritesLink slot s t id i old) : Complete slot t := by
  have hfirst := w.first_eq
  have hlast := w.last_eq
  constructor
  case owned =>
    intro a ha
    have hbefore : s.heap a ≠ none := by
      by_cases heq : a = slot i
      · have hstored : s.heap a = some old := heq ▸ w.node
        simp [hstored]
      · rwa [← w.heap_of_ne heq]
    rcases h.owned a hbefore with ⟨j, hj, hslot⟩ | ⟨other, hother⟩
    · refine Or.inl ⟨j, ?_, hslot⟩
      rwa [State.Present, hfirst, hlast]
    · by_cases heq : other = id
      · -- its node is the one that the link leads to
        rw [heq, w.pc] at hother
        refine Or.inl ⟨i + 1, ⟨?_, ?_⟩, Option.some.inj hother⟩
        · exact hfirst.trans_le (Nat.le_succ_of_le w.first_le)
        · exact w.lt_last.trans_eq hlast.symm
      · exact Or.inr ⟨other, (congrArg Pc.newNode (pcs_of_ne w.pcs heq)).trans hother⟩
  case linking =>
    intro j hj hjlt hnone
    rw [hfirst] at hj
    rw [hlast] at hjlt
    have hne : j ≠ i := by
      rintro rfl
      have hwritten : t.link (some (slot j)) = some (slot (j + 1)) := by
        simp [State.link, State.node, w.heap_old]
      exact absurd (hwritten.symm.trans hnone) (by simp)
    have hsame := w.link_slot hlayout ⟨hj, hjlt.le⟩ hne
    obtain ⟨other, node, hother⟩ := h.linking j hj hjlt (hsame.symm.trans hnone)
    refine ⟨other, node, (pcs_of_ne w.pcs ?_).trans hother⟩
    rintro rfl
    obtain ⟨-, hslots⟩ := Pc.enqLink.inj (w.pc.symm.trans hother)
    exact hne (hlayout.inj i j w.present_old ⟨hj, hjlt.le⟩ (Option.some.inj hslots)).symm

theorem Complete.delete (h : Complete slot s) (hlayout : Layout slot s) {res : T}
    (d : DeletesFirst slot s t id res) : Complete slot t := by
  have hfirst := d.first_eq
  have hlast := d.last_eq
  have hother : ∀ other, (s.pcs other).newNode ≠ none → other ≠ id := by
    rintro other hnew rfl
    rw [d.pc] at hnew
    exact hnew rfl
  constructor
  case owned =>
    intro a ha
    have hne : a ≠ slot s.first := by
      rintro rfl
      exact ha (by rw [d.heap, Function.update_self])
    rw [d.heap_of_ne hne] at ha
    rcases h.owned a ha with ⟨i, hi, hslot⟩ | ⟨other, hnew⟩
    · refine Or.inl ⟨i, ⟨?_, hi.2.trans_eq hlast.symm⟩, hslot⟩
      have hbehind : i ≠ s.first := fun heq => hne (hslot.symm.trans (heq ▸ rfl))
      calc t.first = s.first + 1 := hfirst
        _ ≤ i := Nat.lt_of_le_of_ne hi.1 hbehind.symm
    · have hne := hother other (by simp [hnew])
      exact Or.inr ⟨other, (congrArg Pc.newNode (pcs_of_ne d.pcs hne)).trans hnew⟩
  case linking =>
    intro i hi hilt hnone
    rw [hfirst] at hi
    rw [hlast] at hilt
    have hsame := d.link_slot hlayout ⟨by omega, hilt.le⟩ (Nat.ne_of_gt hi)
    obtain ⟨other, node, hlinking⟩ := h.linking i (by omega) hilt (hsame.symm.trans hnone)
    refine ⟨other, node, (pcs_of_ne d.pcs ?_).trans hlinking⟩
    exact hother other (by simp [hlinking, Pc.newNode])

/-- The steps of a `dequeue` up to the deletion leave the nodes alone. -/
theorem nodes_of_dequeueStep (hnone : (s.pcs id).newNode = none)
    (hdelete : ∀ p res, s.pcs id ≠ .deqDelete p res) (hstep : runStep s id = some t) :
    t.heap = s.heap ∧ t.enqueued = s.enqueued ∧ t.returned = s.returned ∧
      ∃ pc : Pc T, t.pcs = Function.update s.pcs id pc ∧ pc.newNode = none := by
  have hfollow : ∀ (p : Ptr) (f : Node T → Pc T), (∀ node, (f node).newNode = none) →
      s.follow id p (fun node => s.setPc id (f node)) = t → t.heap = s.heap ∧
        t.enqueued = s.enqueued ∧ t.returned = s.returned ∧
        ∃ pc : Pc T, t.pcs = Function.update s.pcs id pc ∧ pc.newNode = none := by
    intro p f hf heq
    unfold State.follow at heq
    cases hnode : s.node p with
    | none =>
        rw [hnode] at heq
        exact heq ▸ ⟨rfl, rfl, rfl, .fault, rfl, rfl⟩
    | some node =>
        rw [hnode] at heq
        exact heq ▸ ⟨rfl, rfl, rfl, f node, rfl, hf node⟩
  unfold runStep at hstep
  cases hpc : s.pcs id with
  | idle | fault =>
      rw [hpc] at hstep
      exact absurd hstep (by simp)
  | enqLoad node value | enqCas node value oldTail | enqLink node oldTail =>
      rw [hpc] at hnone
      exact absurd hnone (by simp [Pc.newNode])
  | deqDelete p res => exact absurd hpc (hdelete p res)
  | deqLoad =>
      rw [hpc] at hstep
      exact Option.some.inj hstep ▸ ⟨rfl, rfl, rfl, .deqTail s.head, rfl, rfl⟩
  | deqTail p =>
      rw [hpc] at hstep
      dsimp only at hstep
      split at hstep
      · exact Option.some.inj hstep ▸ ⟨rfl, rfl, rfl, .deqCheck p false, rfl, rfl⟩
      · exact Option.some.inj hstep ▸ ⟨rfl, rfl, rfl, .deqNext p, rfl, rfl⟩
  | deqCas p next =>
      rw [hpc] at hstep
      dsimp only at hstep
      split at hstep
      · exact Option.some.inj hstep ▸ ⟨rfl, rfl, rfl, .deqCheck p true, rfl, rfl⟩
      · exact Option.some.inj hstep ▸ ⟨rfl, rfl, rfl, .deqLoad, rfl, rfl⟩
  | deqCheck p taken =>
      rw [hpc] at hstep
      dsimp only at hstep
      split at hstep
      · exact Option.some.inj hstep ▸ ⟨rfl, rfl, rfl, .idle, rfl, rfl⟩
      · exact Option.some.inj hstep ▸ ⟨rfl, rfl, rfl, .deqRes p, rfl, rfl⟩
  | deqStore p res newHead =>
      rw [hpc] at hstep
      exact Option.some.inj hstep ▸ ⟨rfl, rfl, rfl, .deqDelete p res, rfl, rfl⟩
  | deqNext p =>
      rw [hpc] at hstep
      exact hfollow p (fun old => .deqCas p old.next) (fun _ => rfl) (Option.some.inj hstep)
  | deqRes p =>
      rw [hpc] at hstep
      exact hfollow p (fun old => .deqData p old.next) (fun _ => rfl) (Option.some.inj hstep)
  | deqData p next =>
      rw [hpc] at hstep
      exact hfollow next (fun node => .deqNewHead p node.data) (fun _ => rfl)
        (Option.some.inj hstep)
  | deqNewHead p res =>
      rw [hpc] at hstep
      exact hfollow p (fun old => .deqStore p res old.next) (fun _ => rfl) (Option.some.inj hstep)

theorem Complete.dequeueStep (h : Complete slot s) (hnone : (s.pcs id).newNode = none)
    (hdelete : ∀ p res, s.pcs id ≠ .deqDelete p res) (hstep : runStep s id = some t) :
    Complete slot t := by
  obtain ⟨hheap, henqueued, hreturned, pc, hpcs, hnew⟩ := nodes_of_dequeueStep hnone hdelete hstep
  refine h.frame hpcs hheap henqueued hreturned (hnew.trans hnone.symm) fun node p hpc => ?_
  rw [hpc] at hnone
  exact absurd hnone (by simp [Pc.newNode])

/-- A careful step of a thread keeps both, with the same numbering of the nodes. -/
theorem Complete.runStep (h : Complete slot s) (hlayout : Layout slot s)
    (hguard : CarefulAt s id (s.pcs id)) (hstep : runStep s id = some t) :
    ∃ slot', Layout slot' t ∧ Complete slot' t := by
  have hself := hlayout.pc id
  have hdequeue : (s.pcs id).newNode = none → (∀ p res, s.pcs id ≠ .deqDelete p res) →
      Layout slot t → ∃ slot', Layout slot' t ∧ Complete slot' t :=
    fun hnone hdelete hkept => ⟨slot, hkept, h.dequeueStep hnone hdelete hstep⟩
  cases hpc : s.pcs id with
  | idle | fault =>
      unfold LockFreeQueue.runStep at hstep
      rw [hpc] at hstep
      exact absurd hstep (by simp)
  | enqLoad node value =>
      rw [hpc] at hself
      rw [LockFreeQueue.runStep, hpc] at hstep
      obtain rfl := Option.some.inj hstep
      refine ⟨slot, ?_, h.frame rfl rfl rfl rfl (by rw [hpc]; rfl) (by simp [hpc])⟩
      exact hlayout.setPc hself (Or.inr (by rw [hpc]; rfl)) (by simp [Pc.taking])
        (by simp [hpc, Pc.taking])
  | enqCas node value oldTail =>
      rw [hpc] at hself
      rw [LockFreeQueue.runStep, hpc] at hstep
      dsimp only at hstep
      split at hstep
      · rename_i htail
        subst htail
        have e : ExchangesTail s t id node value := by
          rw [← Option.some.inj hstep]
          exact ⟨hpc, rfl, rfl, rfl, rfl, rfl, rfl⟩
        exact ⟨_, hlayout.exchangeTail e, h.exchangeTail hlayout e⟩
      · obtain rfl := Option.some.inj hstep
        refine ⟨slot, ?_, h.frame rfl rfl rfl rfl (by rw [hpc]; rfl) (by simp [hpc])⟩
        exact hlayout.setPc hself (Or.inr (by rw [hpc]; rfl)) (by simp [Pc.taking])
          (by simp [hpc, Pc.taking])
  | enqLink node oldTail =>
      rw [hpc] at hself
      obtain ⟨i, hle, hlt, rfl, rfl, hnone⟩ := hself
      obtain ⟨old, -, hnode, -⟩ := hlayout.node_slot ⟨hle, hlt.le⟩
      rw [LockFreeQueue.runStep, hpc] at hstep
      simp only [follow_of_node hnode] at hstep
      have w : WritesLink slot s t id i old := by
        rw [← Option.some.inj hstep]
        exact ⟨hpc, hnode, hle, hlt, hnone, rfl, rfl, rfl, rfl, rfl, rfl⟩
      exact ⟨slot, hlayout.writeLink w, h.writeLink hlayout w⟩
  | deqDelete p res =>
      rw [hpc] at hself hguard
      obtain ⟨⟨rfl, hlt⟩, -⟩ := hself
      obtain ⟨node, -, hnode, -⟩ := hlayout.node_slot hlayout.present_first
      rw [LockFreeQueue.runStep, hpc] at hstep
      simp only [follow_of_node hnode] at hstep
      have d : DeletesFirst slot s t id res := by
        rw [← Option.some.inj hstep]
        exact ⟨hpc, hguard, rfl, rfl, rfl, rfl, rfl, rfl⟩
      exact ⟨slot, hlayout.delete d, h.delete hlayout d⟩
  | deqCheck p taken =>
      exact hdequeue (by rw [hpc]; rfl) (by simp [hpc]) (hlayout.check hpc hguard hstep)
  | deqLoad | deqTail p | deqNext p | deqCas p next =>
      exact hdequeue (by rw [hpc]; rfl) (by simp [hpc]) (hlayout.loop hguard hstep (by simp [hpc]))
  | deqRes p | deqData p next | deqNewHead p res | deqStore p res newHead =>
      exact hdequeue (by rw [hpc]; rfl) (by simp [hpc]) (hlayout.take hguard hstep (by simp [hpc]))

theorem Complete.step (h : Complete slot s) (hlayout : Layout slot s) {a : Action n T}
    (hguard : Careful s a) (hstep : next s a = some t) :
    ∃ slot', Layout slot' t ∧ Complete slot' t := by
  cases a with
  | enqueue id value addr =>
      simp only [next] at hstep
      split at hstep
      · rename_i hpc hfree
        obtain rfl := Option.some.inj hstep
        exact ⟨slot, hlayout.enqueue hpc hfree, h.enqueue hlayout hpc hfree⟩
      · exact absurd hstep (by simp)
  | dequeue id =>
      simp only [next] at hstep
      split at hstep
      · rename_i hpc
        obtain rfl := Option.some.inj hstep
        refine ⟨slot, ?_, h.frame rfl rfl rfl rfl (by rw [hpc]; rfl) (by simp [hpc])⟩
        exact hlayout.setPc trivial (Or.inl rfl) (by simp [Pc.taking]) (by simp [hpc, Pc.taking])
      · exact absurd hstep (by simp)
  | run id => exact h.runStep hlayout hguard hstep
  | weakFails id =>
      have hself := hlayout.pc id
      simp only [next] at hstep
      split at hstep
      · rename_i hpc
        rw [hpc] at hself
        obtain rfl := Option.some.inj hstep
        refine ⟨slot, ?_, h.frame rfl rfl rfl rfl (by rw [hpc]; rfl) (by simp [hpc])⟩
        exact hlayout.setPc hself (Or.inr (by rw [hpc]; rfl)) (by simp [Pc.taking])
          (by simp [hpc, Pc.taking])
      · rename_i hpc
        obtain rfl := Option.some.inj hstep
        refine ⟨slot, ?_, h.frame rfl rfl rfl rfl (by rw [hpc]; rfl) (by simp [hpc])⟩
        exact hlayout.setPc trivial (Or.inl rfl) (by simp [Pc.taking]) (by simp [hpc, Pc.taking])
      · exact absurd hstep (by simp)

end Steps

theorem complete_start (n : ℕ) (dummy : Addr) (value : T) :
    Complete (fun _ => dummy) (start n dummy value) := by
  constructor
  case owned =>
    intro a ha
    refine Or.inl ⟨0, ⟨le_rfl, le_rfl⟩, ?_⟩
    by_contra hne
    apply ha
    show Function.update (fun _ => none) dummy (some (⟨value, none⟩ : Node T)) a = none
    exact Function.update_of_ne (Ne.symm hne) _ _
  case linking => exact fun i _ hlt => absurd hlt (Nat.not_lt_zero i)

theorem complete_of_reachable {s : State n T} (h : (system n T).Reachable Careful s) :
    ∃ slot, Layout slot s ∧ Complete slot s := by
  induction h with
  | initial hinit =>
      obtain ⟨dummy, value, rfl⟩ := hinit
      exact ⟨_, layout_start n dummy value, complete_start n dummy value⟩
  | step _ hguard hstep ih =>
      obtain ⟨slot, hlayout, hcomplete⟩ := ih
      exact hcomplete.step hlayout hguard hstep

/-! ## At rest -/

section Rest

variable {slot : ℕ → Addr} {s : State n T}

theorem Layout.head_of_rest (h : Layout slot s) (hrest : s.AtRest) :
    s.head = some (slot s.first) := by
  refine h.head.resolve_right fun hbusy => ?_
  obtain ⟨⟨id, htaking⟩, -⟩ := hbusy
  rw [hrest id] at htaking
  exact absurd htaking (by simp [Pc.taking])

theorem Complete.node_of_rest (h : Complete slot s) (hlayout : Layout slot s) (hrest : s.AtRest)
    {i : ℕ} (hi : s.first ≤ i) (hlt : i < s.last) :
    ∃ node, s.heap (slot i) = some node ∧ node.next = some (slot (i + 1)) := by
  obtain ⟨node, hnode, -, hlink⟩ := hlayout.node_slot ⟨hi, hlt.le⟩
  refine ⟨node, hnode.1, ?_⟩
  rcases hnode.2.2 with hnone | hnext
  · obtain ⟨id, other, hpc⟩ := h.linking i hi hlt (hlink.trans hnone)
    exact absurd ((hrest id).symm.trans hpc) (by simp)
  · exact hnext.2

/-- At rest an address is in use exactly if a node of the queue is there. -/
theorem Complete.heap_of_rest (h : Complete slot s) (hrest : s.AtRest) {a : Addr}
    (ha : s.heap a ≠ none) : ∃ i, s.Present i ∧ slot i = a := by
  refine (h.owned a ha).resolve_right fun hnew => ?_
  obtain ⟨id, hid⟩ := hnew
  rw [hrest id] at hid
  exact absurd hid (by simp [Pc.newNode])

/-- The queue at rest is a linked list. -/
theorem Complete.chain_of_rest (h : Complete slot s) (hlayout : Layout slot s)
    (hrest : s.AtRest) :
    ∃ nodes, Chain.LinkedFrom Node.next s.heap s.head nodes ∧
      nodes.map Prod.fst = (List.range' s.first (s.last - s.first + 1)).map slot := by
  have hle := hlayout.first_le_last
  have hend : s.first + (s.last - s.first) = s.last := Nat.add_sub_cancel' hle
  rw [hlayout.head_of_rest hrest]
  apply Chain.chain_of_slots (s.last - s.first)
  · intro i hi hlt
    exact h.node_of_rest hlayout hrest hi (by omega)
  · obtain ⟨node, hnode, -, -⟩ := hlayout.node_slot hlayout.present_last
    rw [hend]
    exact ⟨node, hnode.1, hnode.2.2.resolve_right fun hlink => absurd hlink.1 (lt_irrefl _)⟩

theorem Layout.nodup_slots (h : Layout slot s) :
    ((List.range' s.first (s.last - s.first + 1)).map slot).Nodup := by
  have hle := h.first_le_last
  refine List.Nodup.map_on (fun i hi j hj heq => ?_) List.nodup_range'
  rw [List.mem_range'_1] at hi hj
  exact h.inj i j ⟨hi.1, by omega⟩ ⟨hj.1, by omega⟩ heq

/-- The nodes behind the first hold the values that have not been returned. -/
theorem Layout.values_of_chain (h : Layout slot s) {nodes : List (Addr × Node T)}
    (hchain : Chain.LinkedFrom Node.next s.heap s.head nodes)
    (haddrs : nodes.map Prod.fst = (List.range' s.first (s.last - s.first + 1)).map slot) :
    (nodes.map fun node => node.2.data).tail = s.enqueued.drop s.first := by
  have hle := h.first_le_last
  have hlength : nodes.length = s.last - s.first + 1 := by
    calc nodes.length = (nodes.map Prod.fst).length := (List.length_map _).symm
      _ = s.last - s.first + 1 := by rw [haddrs, List.length_map, List.length_range']
  apply List.ext_getElem?
  intro k
  rw [← List.drop_one, List.getElem?_drop, List.getElem?_drop, List.getElem?_map, Nat.add_comm 1 k]
  rcases Nat.lt_or_ge (k + 1) nodes.length with hlt | hge
  · have haddr : (nodes.map Prod.fst)[k + 1]? = some (slot (s.first + (k + 1))) := by
      rw [haddrs, List.getElem?_map, List.getElem?_range' (by omega), Nat.one_mul, Option.map_some]
    rw [List.getElem?_map, List.getElem?_eq_getElem hlt, Option.map_some] at haddr
    have hstored := hchain.stored _ (List.getElem_mem hlt)
    obtain ⟨node, hnode, hdata, -⟩ := h.node (s.first + (k + 1)) ⟨by omega, by omega⟩
    rw [Option.some.inj haddr, hnode] at hstored
    rw [List.getElem?_eq_getElem hlt, Option.map_some, ← Option.some.inj hstored]
    exact (hdata (by omega)).symm
  · have hbehind : s.last ≤ s.first + k := by omega
    rw [List.getElem?_eq_none hge, List.getElem?_eq_none hbehind, Option.map_none]

end Rest

theorem destructor_eq_free (passes : ℕ) (s : State n T) :
    destructor passes s = (Chain.free Node.next passes s.heap s.head).map fun result =>
      (result.1, { s with heap := result.2, head := none }) := by
  induction passes generalizing s with
  | zero =>
      unfold destructor
      cases hhead : s.head with
      | none => simp [Chain.free, ← hhead]
      | some oldHead => simp [Chain.free]
  | succ passes ih =>
      unfold destructor
      cases hhead : s.head with
      | none => simp [Chain.free, ← hhead]
      | some oldHead =>
          dsimp only
          rw [Chain.free]
          cases hstored : s.heap oldHead with
          | none => rfl
          | some old =>
              rw [Option.bind_some, Option.bind_some, ih, Option.map_map, Option.map_map]
              rfl

/-- **The destructor.**  In every run whose steps are careful, when all calls have returned,
`empty` tells whether every value has been returned, and the destructor deletes each node that is
in memory once, those behind the first with the values that have not been returned; then the memory
is empty. -/
theorem destructor_deletes_all {s : State n T} (h : (system n T).Reachable Careful s)
    (hrest : s.AtRest) :
    (s.empty = true ↔ s.returned = s.enqueued) ∧
      ∃ nodes, (nodes.map Prod.fst).Nodup ∧
        (nodes.map fun node => node.2.data).tail = s.enqueued.drop s.returned.length ∧
        ∀ passes, nodes.length ≤ passes →
          destructor passes s = some (nodes, { s with heap := fun _ => none, head := none }) := by
  obtain ⟨slot, hlayout, hcomplete⟩ := complete_of_reachable h
  have hle := hlayout.first_le_last
  refine ⟨?_, ?_⟩
  · have hempty : s.empty = true ↔ slot s.first = slot s.last := by
      rw [State.empty, decide_eq_true_iff, hlayout.head_of_rest hrest, hlayout.tail,
        Option.some_inj]
    refine hempty.trans ⟨fun heq => ?_, fun heq => ?_⟩
    · have hsame := hlayout.inj _ _ hlayout.present_first hlayout.present_last heq
      exact hlayout.returned.eq_of_length hsame
    · rw [State.first, heq]
  · obtain ⟨nodes, hchain, haddrs⟩ := hcomplete.chain_of_rest hlayout hrest
    have hnodup : (nodes.map Prod.fst).Nodup := haddrs ▸ hlayout.nodup_slots
    refine ⟨nodes, hnodup, ?_, fun passes hpasses => ?_⟩
    · exact hlayout.values_of_chain hchain haddrs
    · rw [destructor_eq_free, hchain.free hnodup hpasses, Option.map_some]
      have hgone : (fun a => if a ∈ nodes.map Prod.fst then none else s.heap a) = fun _ => none := by
        funext a
        by_cases hmem : a ∈ nodes.map Prod.fst
        · exact if_pos hmem
        · rw [if_neg hmem]
          by_contra hused
          obtain ⟨i, hi, rfl⟩ := hcomplete.heap_of_rest hrest hused
          apply hmem
          rw [haddrs]
          apply List.mem_map_of_mem
          rw [List.mem_range'_1]
          exact ⟨hi.1, by have := hi.2; omega⟩
      rw [hgone]

/-- Two values are enqueued and one of them is returned. -/
def restRun : List (Action 2 ℕ) := orderlyRun ++ [.run producer]

theorem destructor_deletes_all_orderly :
    ∃ s, (system 2 ℕ).exec (start 2 0 0) restRun = some s ∧ s.empty = false ∧
      ∃ nodes : List (Addr × Node ℕ), (nodes.map fun node => node.2.data).tail = [8] ∧
        destructor nodes.length s = some (nodes, { s with heap := fun _ => none, head := none }) := by
  have hstate : ((system 2 ℕ).exec (start 2 0 0) restRun).map (fun s =>
      ((s.returned, s.enqueued), decide s.AtRest)) = some (([7], [7, 8]), true) := by
    decide
  obtain ⟨s, hexec, hvalues⟩ := Option.map_eq_some_iff.mp hstate
  obtain ⟨hlists, hrest⟩ := Prod.mk.inj hvalues
  obtain ⟨hreturned, henqueued⟩ := Prod.mk.inj hlists
  have hreach : (system 2 ℕ).Reachable Careful s :=
    (Transition.System.Reachable.initial (S := system 2 ℕ) ⟨0, 0, rfl⟩).exec (by decide) hexec
  obtain ⟨hempty, nodes, -, hdata, hdestructor⟩ :=
    destructor_deletes_all hreach (of_decide_eq_true hrest)
  refine ⟨s, hexec, ?_, nodes, ?_, hdestructor nodes.length le_rfl⟩
  · rw [← Bool.not_eq_true, hempty, hreturned, henqueued]
    decide
  · rw [hdata, hreturned, henqueued]
    rfl

end Sok.LockFreeQueue
