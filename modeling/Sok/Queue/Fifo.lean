import Sok.Queue.Steps

/-!
# First in, first out

Every careful step keeps the layout of the queue (`Layout.step`), so it holds in every
state that careful steps reach (`reachable_layout`), and the layout says that the
values returned are the first ones enqueued.

## Strategy

The step of a thread is taken apart by where the thread is.  Three steps change what
is in the queue and are those of `Sok.Queue.Steps`; the others leave the nodes alone
and come down to `Layout.frame`, once for the loop of a `dequeue` (`Layout.loop`), once
for the check that decides whether it leaves the loop (`Layout.check`), and once for
what it does with the node that it has taken (`Layout.take`).  There a step needs what
the guard says: nobody moves the head while another thread is taking a node.
-/

namespace Sok.LockFreeQueue

variable {n : ℕ} {T : Type}

/-! ## One step -/

section Steps

variable {slot : ℕ → Addr} {s t : State n T} {id : Fin n}

theorem follow_of_node {p : Ptr} {node : Node T} (hnode : s.node p = some node)
    (f : Node T → State n T) : s.follow id p f = f node := by
  rw [State.follow, hnode]

theorem Layout.loop (h : Layout slot s) (hguard : CarefulAt s id (s.pcs id))
    (hstep : runStep s id = some t) :
    (s.pcs id = .deqLoad ∨ (∃ p, s.pcs id = .deqTail p) ∨ (∃ p, s.pcs id = .deqNext p) ∨
      ∃ p next, s.pcs id = .deqCas p next) → Layout slot t := by
  have hself := h.pc id
  rintro (hpc | ⟨p, hpc⟩ | ⟨p, hpc⟩ | ⟨p, next, hpc⟩)
  · -- the head is not null, so it is the first node or the second
    rw [hpc] at hguard
    rw [runStep, hpc] at hstep
    obtain rfl := Option.some.inj hstep
    refine h.setPc ?_ (Or.inl rfl) (by simp [Pc.taking]) (by simp [hpc, Pc.taking])
    rcases h.head with hfirst | ⟨hbusy, hlt, hnull | hsecond⟩
    · exact Or.inl hfirst
    · exact absurd hnull hguard
    · exact Or.inr ⟨hbusy, hlt, hsecond⟩
  · rw [hpc] at hself
    rw [runStep, hpc] at hstep
    simp only at hstep
    split at hstep
    · obtain rfl := Option.some.inj hstep
      exact h.setPc hself (Or.inl rfl) (by simp [Pc.taking]) (by simp [hpc, Pc.taking])
    · obtain rfl := Option.some.inj hstep
      exact h.setPc ⟨hself, ‹_›⟩ (Or.inl rfl) (by simp [Pc.taking]) (by simp [hpc, Pc.taking])
  · rw [hpc] at hself
    obtain ⟨hheld, hne⟩ := hself
    obtain ⟨i, hi, rfl⟩ := hheld.present h
    obtain ⟨node, -, hnode, hlink⟩ := h.node_slot hi
    rw [runStep, hpc] at hstep
    simp only [follow_of_node hnode] at hstep
    obtain rfl := Option.some.inj hstep
    exact h.setPc ⟨hheld, hne, Or.inr hlink⟩ (Or.inl rfl) (by simp [Pc.taking])
      (by simp [hpc, Pc.taking])
  · rw [hpc] at hself hguard
    obtain ⟨hheld, hne, hread⟩ := hself
    rw [runStep, hpc] at hstep
    simp only at hstep
    split at hstep
    · -- the exchange succeeds: the thread takes the first node, alone
      rename_i heq
      obtain rfl := Option.some.inj hstep
      have hothers := hguard heq
      have hidle : (s.pcs id).taking = false := by rw [hpc]; rfl
      have hp : p = some (slot s.first) := hheld.of_not_busy (not_busy hothers hidle)
      subst hp
      have htaken := h.taken hne
      refine h.frame rfl rfl rfl rfl (Or.inr hothers) (fun _ _ => rfl) ?_ htaken
        (by simp [Pc.newNode]) (fun _ => hothers) (fun _ => rfl)
      refine Or.inr ⟨⟨id, by simp [State.setPc, Pc.taking]⟩, htaken.2, ?_⟩
      rcases hread with hnull | hlink
      · exact Or.inl hnull
      · obtain ⟨node, hnode, -, hnodeLink⟩ := h.node_slot h.present_first
        rcases hnode.2.2 with hnull | ⟨-, hsecond⟩
        · exact Or.inl (hlink.symm.trans (hnodeLink.trans hnull))
        · exact Or.inr (hlink.symm.trans (hnodeLink.trans hsecond))
    · obtain rfl := Option.some.inj hstep
      exact h.setPc trivial (Or.inl rfl) (by simp [Pc.taking]) (by simp [hpc, Pc.taking])

/-- The second look at the tail. -/
theorem Layout.check (h : Layout slot s) {p : Ptr} {taken : Bool}
    (hpc : s.pcs id = .deqCheck p taken) (hguard : CarefulAt s id (s.pcs id))
    (hstep : runStep s id = some t) : Layout slot t := by
  have hself := h.pc id
  rw [hpc] at hself hguard
  rw [runStep, hpc] at hstep
  simp only at hstep
  cases taken with
  | false =>
      have hidle : (s.pcs id).taking = false := by rw [hpc]; rfl
      split at hstep
      · obtain rfl := Option.some.inj hstep
        exact h.setPc trivial (Or.inl rfl) (by simp [Pc.taking]) (by simp [hpc, Pc.taking])
      · -- the queue was empty and is not any more: the first node is taken now
        rename_i hne
        obtain rfl := Option.some.inj hstep
        have hothers := hguard hne
        have hp : p = some (slot s.first) := hself.of_not_busy (not_busy hothers hidle)
        subst hp
        have htaken := h.taken hne
        exact h.setPc htaken (Or.inl rfl) (fun _ => hothers) (fun _ => rfl)
  | true =>
      have hothers : s.OthersNotTaking id := h.othersNotTaking (by rw [hpc]; rfl)
      rw [if_neg (h.ne_tail hself)] at hstep
      obtain rfl := Option.some.inj hstep
      exact h.setPc hself (Or.inl rfl) (fun _ => hothers) (fun _ => rfl)

/-- The steps of a `dequeue` that has taken a node, up to the deletion. -/
theorem Layout.take (h : Layout slot s) (hguard : CarefulAt s id (s.pcs id))
    (hstep : runStep s id = some t) :
    ((∃ p, s.pcs id = .deqRes p) ∨ (∃ p next, s.pcs id = .deqData p next) ∨
      (∃ p res, s.pcs id = .deqNewHead p res) ∨
      ∃ p res newHead, s.pcs id = .deqStore p res newHead) → Layout slot t := by
  have hself := h.pc id
  rintro (⟨p, hpc⟩ | ⟨p, next, hpc⟩ | ⟨p, res, hpc⟩ | ⟨p, res, newHead, hpc⟩)
  · have hothers : s.OthersNotTaking id := h.othersNotTaking (by rw [hpc]; rfl)
    rw [hpc] at hself hguard
    obtain ⟨rfl, hlt⟩ := hself
    obtain ⟨node, hnodeOk, hnode, hlink⟩ := h.node_slot h.present_first
    -- the link is written, so it leads to the second node
    have hsecond : node.next = some (slot (s.first + 1)) := by
      rcases hnodeOk.2.2 with hnull | hsecond
      · exact absurd (hlink.trans hnull) hguard
      · exact hsecond.2
    rw [runStep, hpc] at hstep
    simp only [follow_of_node hnode] at hstep
    obtain rfl := Option.some.inj hstep
    exact h.setPc ⟨⟨rfl, hlt⟩, hsecond, hlink.trans hsecond⟩ (Or.inl rfl) (fun _ => hothers)
      (fun _ => rfl)
  · have hothers : s.OthersNotTaking id := h.othersNotTaking (by rw [hpc]; rfl)
    rw [hpc] at hself
    obtain ⟨htaken, rfl, hlinked⟩ := hself
    obtain ⟨node, hnodeOk, hnode, -⟩ := h.node_slot ⟨Nat.le_succ s.first, htaken.2⟩
    rw [runStep, hpc] at hstep
    simp only [follow_of_node hnode] at hstep
    obtain rfl := Option.some.inj hstep
    exact h.setPc ⟨htaken, hlinked, hnodeOk.2.1 (Nat.lt_succ_self _)⟩ (Or.inl rfl)
      (fun _ => hothers) (fun _ => rfl)
  · have hothers : s.OthersNotTaking id := h.othersNotTaking (by rw [hpc]; rfl)
    rw [hpc] at hself
    obtain ⟨⟨rfl, hlt⟩, hlinked, hnext⟩ := hself
    obtain ⟨node, -, hnode, hlink⟩ := h.node_slot h.present_first
    rw [runStep, hpc] at hstep
    simp only [follow_of_node hnode] at hstep
    obtain rfl := Option.some.inj hstep
    exact h.setPc ⟨⟨rfl, hlt⟩, hlink.symm.trans hlinked, hlinked, hnext⟩ (Or.inl rfl)
      (fun _ => hothers) (fun _ => rfl)
  · have hothers : s.OthersNotTaking id := h.othersNotTaking (by rw [hpc]; rfl)
    rw [hpc] at hself
    obtain ⟨htaken, rfl, hlinked, hnext⟩ := hself
    rw [runStep, hpc] at hstep
    obtain rfl := Option.some.inj hstep
    refine h.frame rfl rfl rfl rfl (Or.inr hothers) (fun _ _ => rfl) ?_ ?_ (by simp [Pc.newNode])
      (fun _ => hothers) (fun _ => rfl)
    · exact Or.inr ⟨⟨id, by simp [State.setPc, Pc.taking]⟩, htaken.2, Or.inr rfl⟩
    · exact ⟨htaken, rfl, hlinked, hnext⟩

theorem Layout.runStep (h : Layout slot s) (hguard : CarefulAt s id (s.pcs id))
    (hstep : runStep s id = some t) : ∃ slot', Layout slot' t := by
  have hself := h.pc id
  cases hpc : s.pcs id with
  | idle => exact absurd hstep (by simp [LockFreeQueue.runStep, hpc])
  | fault => exact absurd hstep (by simp [LockFreeQueue.runStep, hpc])
  | enqLoad node value =>
      rw [hpc] at hself
      rw [LockFreeQueue.runStep, hpc] at hstep
      obtain rfl := Option.some.inj hstep
      exact ⟨slot, h.setPc hself (Or.inr (by rw [hpc]; rfl)) (by simp [Pc.taking])
        (by simp [hpc, Pc.taking])⟩
  | enqCas node value oldTail =>
      rw [hpc] at hself
      rw [LockFreeQueue.runStep, hpc] at hstep
      simp only at hstep
      split at hstep
      · rename_i htail
        subst htail
        obtain rfl := Option.some.inj hstep
        exact ⟨_, h.exchangeTail ⟨hpc, rfl, rfl, rfl, rfl, rfl, rfl⟩⟩
      · obtain rfl := Option.some.inj hstep
        exact ⟨slot, h.setPc hself (Or.inr (by rw [hpc]; rfl)) (by simp [Pc.taking])
          (by simp [hpc, Pc.taking])⟩
  | enqLink node oldTail =>
      rw [hpc] at hself
      obtain ⟨i, hle, hlt, rfl, rfl, hnone⟩ := hself
      obtain ⟨old, -, hnode, -⟩ := h.node_slot ⟨hle, hlt.le⟩
      rw [LockFreeQueue.runStep, hpc] at hstep
      simp only [follow_of_node hnode] at hstep
      obtain rfl := Option.some.inj hstep
      exact ⟨slot, h.writeLink ⟨hpc, hnode, hle, hlt, hnone, rfl, rfl, rfl, rfl, rfl, rfl⟩⟩
  | deqDelete p res =>
      rw [hpc] at hself hguard
      obtain ⟨⟨rfl, hlt⟩, -⟩ := hself
      obtain ⟨node, -, hnode, -⟩ := h.node_slot h.present_first
      rw [LockFreeQueue.runStep, hpc] at hstep
      simp only [follow_of_node hnode] at hstep
      obtain rfl := Option.some.inj hstep
      exact ⟨slot, h.delete ⟨hpc, hguard, rfl, rfl, rfl, rfl, rfl, rfl⟩⟩
  | deqCheck p taken => exact ⟨slot, h.check hpc hguard hstep⟩
  | deqLoad => exact ⟨slot, h.loop hguard hstep (by simp [hpc])⟩
  | deqTail p => exact ⟨slot, h.loop hguard hstep (by simp [hpc])⟩
  | deqNext p => exact ⟨slot, h.loop hguard hstep (by simp [hpc])⟩
  | deqCas p next => exact ⟨slot, h.loop hguard hstep (by simp [hpc])⟩
  | deqRes p => exact ⟨slot, h.take hguard hstep (by simp [hpc])⟩
  | deqData p next => exact ⟨slot, h.take hguard hstep (by simp [hpc])⟩
  | deqNewHead p res => exact ⟨slot, h.take hguard hstep (by simp [hpc])⟩
  | deqStore p res newHead => exact ⟨slot, h.take hguard hstep (by simp [hpc])⟩

/-- Every careful step keeps the invariant. -/
theorem Layout.step (h : Layout slot s) {a : Action n T} (hguard : Careful s a)
    (hstep : next s a = some t) : ∃ slot', Layout slot' t := by
  cases a with
  | enqueue id value addr =>
      simp only [next] at hstep
      split at hstep
      · obtain rfl := Option.some.inj hstep
        exact ⟨slot, h.enqueue ‹_› ‹_›⟩
      · exact absurd hstep (by simp)
  | dequeue id =>
      simp only [next] at hstep
      split at hstep
      · rename_i hpc
        obtain rfl := Option.some.inj hstep
        exact ⟨slot, h.setPc trivial (Or.inl rfl) (by simp [Pc.taking])
          (by simp [hpc, Pc.taking])⟩
      · exact absurd hstep (by simp)
  | run id => exact h.runStep hguard hstep
  | weakFails id =>
      have hself := h.pc id
      simp only [next] at hstep
      split at hstep
      · rename_i hpc
        rw [hpc] at hself
        obtain rfl := Option.some.inj hstep
        exact ⟨slot, h.setPc hself (Or.inr (by rw [hpc]; rfl)) (by simp [Pc.taking])
          (by simp [hpc, Pc.taking])⟩
      · rename_i hpc
        obtain rfl := Option.some.inj hstep
        exact ⟨slot, h.setPc trivial (Or.inl rfl) (by simp [Pc.taking])
          (by simp [hpc, Pc.taking])⟩
      · exact absurd hstep (by simp)

end Steps

theorem layout_start (n : ℕ) (dummy : Addr) (value : T) :
    Layout (fun _ => dummy) (start n dummy value) := by
  have hpresent : ∀ i, (start n dummy value).Present i → i = 0 := fun i hi => Nat.le_zero.mp hi.2
  constructor
  case returned => exact List.prefix_refl _
  case tail => rfl
  case inj => exact fun i j hi hj _ => (hpresent i hi).trans (hpresent j hj).symm
  case node =>
    intro i hi
    refine ⟨⟨value, none⟩, by simp [start], fun hlt => ?_, Or.inl rfl⟩
    exact absurd (hpresent i hi) (Nat.ne_of_gt hlt)
  case head => exact Or.inl rfl
  case pc => exact fun _ => trivial
  case newNode => exact fun _ _ _ hnode => absurd hnode (by simp [start, Pc.newNode])
  case taking => exact fun _ _ htaking => absurd htaking (by simp [start, Pc.taking])

theorem reachable_layout {s : State n T} (h : (system n T).Reachable Careful s) :
    ∃ slot, Layout slot s := by
  induction h with
  | initial hinit =>
      obtain ⟨dummy, value, rfl⟩ := hinit
      exact ⟨_, layout_start n dummy value⟩
  | step _ hguard hstep ih =>
      obtain ⟨slot, hlayout⟩ := ih
      exact hlayout.step hguard hstep

/-! ## First in, first out -/

/-- No thread has followed a null pointer or a pointer to a deleted node, and the
values returned are the first ones enqueued, each once and in their order. -/
structure Fifo (s : State n T) : Prop where
  memory : ∀ id, s.pcs id ≠ .fault
  order : s.returned <+: s.enqueued

/-- **The queue is a queue**, for any number of threads, in every run whose steps are
careful. -/
theorem queue_fifo (n : ℕ) (T : Type) (s : State n T) (h : (system n T).Reachable Careful s) :
    Fifo s := by
  obtain ⟨slot, hlayout⟩ := reachable_layout h
  refine ⟨fun id hpc => ?_, hlayout.returned⟩
  have hfault := hlayout.pc id
  rw [hpc] at hfault
  exact hfault

/-! ## Two threads -/

def producer : Fin 2 := ⟨0, by decide⟩

def consumer : Fin 2 := ⟨1, by decide⟩

def enqueueSeven : List (Action 2 ℕ) :=
  [.enqueue producer 7 1, .run producer, .run producer]

/-- Up to the point where the value is read. -/
def dequeueValue : List (Action 2 ℕ) :=
  .dequeue consumer :: List.replicate 7 (.run consumer)

/-- The link is written before the other thread begins. -/
def orderlyRun : List (Action 2 ℕ) :=
  enqueueSeven ++ [.run producer] ++ dequeueValue ++
    [.enqueue producer 8 2, .run producer, .run consumer, .run producer, .run consumer,
      .run consumer]

theorem queue_fifo_orderly :
    ∃ s, (system 2 ℕ).exec (start 2 0 0) orderlyRun = some s ∧ s.returned = [7] ∧
      s.enqueued = [7, 8] ∧ Fifo s := by
  have hstate : ((system 2 ℕ).exec (start 2 0 0) orderlyRun).map
      (fun s => (s.returned, s.enqueued)) = some ([7], [7, 8]) := by
    decide
  obtain ⟨s, hexec, hvalues⟩ := Option.map_eq_some_iff.mp hstate
  obtain ⟨hreturned, henqueued⟩ := Prod.mk.inj hvalues
  refine ⟨s, hexec, hreturned, henqueued, queue_fifo 2 ℕ s ?_⟩
  exact (Transition.System.Reachable.initial (S := system 2 ℕ) ⟨0, 0, rfl⟩).exec (by decide) hexec

/-- One `dequeue` has stored the head and is still to return when another one takes the
next node: that one returns first. -/
example :
    ((system 3 ℕ).exec (start 3 0 0)
      ([.enqueue 0 7 1] ++ List.replicate 3 (.run 0) ++ [.enqueue 0 8 2] ++
        List.replicate 3 (.run 0) ++ .dequeue 1 :: List.replicate 9 (.run 1) ++
        .dequeue 2 :: List.replicate 10 (.run 2) ++ [.run 1])).map State.returned =
      some [8, 7] := by
  decide

/-- The tail is exchanged and the link is not written: the other thread follows a
null pointer. -/
theorem unlinked_node_followed :
    ¬ ∀ (n : ℕ) (T : Type) (s : State n T),
      (system n T).Reachable Transition.anyStep s → Fifo s := by
  intro h
  have hstate : ((system 2 ℕ).exec (start 2 0 0) (enqueueSeven ++ dequeueValue)).map
      (fun s => match s.pcs consumer with
        | .fault => true
        | _ => false) = some true := by
    decide
  obtain ⟨s, hexec, hfault⟩ := Option.map_eq_some_iff.mp hstate
  have hfifo := h 2 ℕ s
    (Transition.System.reachable_of_exec (S := system 2 ℕ) ⟨0, 0, rfl⟩ hexec)
  split at hfault
  · exact hfifo.memory _ ‹_›
  · exact absurd hfault (by simp)

end Sok.LockFreeQueue
