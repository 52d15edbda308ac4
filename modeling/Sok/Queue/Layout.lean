import Sok.Queue.Model

/-!
# What is in the queue

The nodes are numbered in the order in which the exchanges of the tail put them into
the queue, with 0 for the dummy.  As long as every step is careful, the memory holds
the nodes from `first`, the number of values returned, to `last`, the number of
values enqueued, each with its value and with a link that is either not yet written
or leads to the next one (`Layout`).

What a thread knows at each point of its program is `PcOk`.  A `dequeue` in its loop
holds the first node, or the second while another one is taking the first; one that
has taken a node holds the first, and is the only one.
-/

namespace Sok.LockFreeQueue

variable {n : ℕ} {T : Type}

/-! ## What is in the queue -/

namespace State

/-- The number of the node that is first in the queue. -/
abbrev first (s : State n T) : ℕ := s.returned.length

/-- The number of the node at the tail. -/
abbrev last (s : State n T) : ℕ := s.enqueued.length

/-- The node with the number is in the queue. -/
def Present (s : State n T) (i : ℕ) : Prop := s.first ≤ i ∧ i ≤ s.last

/-- Some `dequeue` has taken a node. -/
def Busy (s : State n T) : Prop := ∃ id, (s.pcs id).taking = true

end State

section Invariant

variable (slot : ℕ → Addr) (s : State n T)

/-- The new node of an `enqueue` before the exchange: nobody else knows it. -/
def Private (node : Addr) (value : T) : Prop :=
  s.heap node = some ⟨value, none⟩ ∧ ∀ i, s.Present i → slot i ≠ node

/-- The new node of an `enqueue` behind the exchange, when the link to it is missing. -/
def Linking (node : Addr) (oldTail : Ptr) : Prop :=
  ∃ i, s.first ≤ i ∧ i < s.last ∧ oldTail = some (slot i) ∧ node = slot (i + 1) ∧
    s.link oldTail = none

/-- What a `dequeue` in its loop holds. -/
def Held (p : Ptr) : Prop :=
  p = some (slot s.first) ∨
    (s.Busy ∧ s.first < s.last ∧ p = some (slot (s.first + 1)))

/-- What a `dequeue` that has taken a node holds. -/
def Taken (p : Ptr) : Prop := p = some (slot s.first) ∧ s.first < s.last

/-- The link of the first node is written. -/
def Linked : Prop := s.link (some (slot s.first)) = some (slot (s.first + 1))

/-- The value that is returned next. -/
def Next (value : T) : Prop := s.enqueued[s.first]? = some value

/-- A link that was read is the one there, or was not written at the time. -/
def Read (p next : Ptr) : Prop := next = none ∨ s.link p = next

/-- What a thread at this point of its program knows. -/
def PcOk : Pc T → Prop
  | .idle => True
  | .enqLoad node value | .enqCas node value _ => Private slot s node value
  | .enqLink node oldTail => Linking slot s node oldTail
  | .deqLoad => True
  | .deqTail oldHead => Held slot s oldHead
  | .deqNext oldHead => Held slot s oldHead ∧ oldHead ≠ s.tail
  | .deqCas oldHead next => Held slot s oldHead ∧ oldHead ≠ s.tail ∧ Read s oldHead next
  | .deqCheck oldHead false => Held slot s oldHead
  | .deqCheck oldHead true => Taken slot s oldHead
  | .deqRes oldHead => Taken slot s oldHead
  | .deqData oldHead next =>
      Taken slot s oldHead ∧ next = some (slot (s.first + 1)) ∧ Linked slot s
  | .deqNewHead oldHead res => Taken slot s oldHead ∧ Linked slot s ∧ Next s res
  | .deqStore oldHead res newHead =>
      Taken slot s oldHead ∧ newHead = some (slot (s.first + 1)) ∧ Linked slot s ∧ Next s res
  | .deqDelete oldHead res =>
      Taken slot s oldHead ∧ s.head = some (slot (s.first + 1)) ∧ Linked slot s ∧ Next s res
  | .fault => False

/-- A node of the queue: its value, and its link if that is written. -/
def NodeOk (i : ℕ) (node : Node T) : Prop :=
  s.heap (slot i) = some node ∧ (s.first < i → s.enqueued[i - 1]? = some node.data) ∧
    (node.next = none ∨ i < s.last ∧ node.next = some (slot (i + 1)))

/-- Where the head is; it is off the first node only while that is being taken. -/
def HeadOk : Prop :=
  s.head = some (slot s.first) ∨
    (s.Busy ∧ s.first < s.last ∧ (s.head = none ∨ s.head = some (slot (s.first + 1))))

/-- The invariant; `slot i` is the address of the node with the number `i`. -/
structure Layout : Prop where
  returned : s.returned <+: s.enqueued
  tail : s.tail = some (slot s.last)
  inj : ∀ i j, s.Present i → s.Present j → slot i = slot j → i = j
  node : ∀ i, s.Present i → ∃ node, NodeOk slot s i node
  head : HeadOk slot s
  pc : ∀ id, PcOk slot s (s.pcs id)
  newNode : ∀ id other node, (s.pcs id).newNode = some node → (s.pcs other).newNode = some node →
    id = other
  taking : ∀ id other, (s.pcs id).taking = true → (s.pcs other).taking = true → id = other

end Invariant

/-! ## Consequences -/

section Consequences

variable {slot : ℕ → Addr} {s : State n T} {id : Fin n}

theorem Layout.first_le_last (h : Layout slot s) : s.first ≤ s.last := h.returned.length_le

theorem Layout.present_first (h : Layout slot s) : s.Present s.first :=
  ⟨le_refl _, h.first_le_last⟩

theorem Layout.present_last (h : Layout slot s) : s.Present s.last :=
  ⟨h.first_le_last, le_refl _⟩

theorem Layout.othersNotTaking (h : Layout slot s) (htaking : (s.pcs id).taking = true) :
    s.OthersNotTaking id := by
  intro other hother
  cases hpc : (s.pcs other).taking with
  | false => rfl
  | true => exact absurd (h.taking other id hpc htaking) hother

theorem not_busy (hothers : s.OthersNotTaking id) (hself : (s.pcs id).taking = false) :
    ¬ s.Busy := by
  rintro ⟨other, htaking⟩
  by_cases hother : other = id
  · rw [hother, hself] at htaking
    exact absurd htaking (by simp)
  · rw [hothers other hother] at htaking
    exact absurd htaking (by simp)

/-- A pointer to a node of the queue can be followed. -/
theorem Layout.node_slot (h : Layout slot s) {i : ℕ} (hi : s.Present i) :
    ∃ node, NodeOk slot s i node ∧ s.node (some (slot i)) = some node ∧
      s.link (some (slot i)) = node.next := by
  obtain ⟨node, hnode⟩ := h.node i hi
  have hread : s.node (some (slot i)) = some node := hnode.1
  exact ⟨node, hnode, hread, by rw [State.link, hread]; rfl⟩

/-- What is held is in the queue. -/
theorem Held.present (h : Layout slot s) {p : Ptr} (hp : Held slot s p) :
    ∃ i, s.Present i ∧ p = some (slot i) := by
  rcases hp with rfl | ⟨-, hlt, rfl⟩
  · exact ⟨s.first, h.present_first, rfl⟩
  · exact ⟨s.first + 1, ⟨Nat.le_succ _, hlt⟩, rfl⟩

theorem Held.of_not_busy {p : Ptr} (hp : Held slot s p) (hbusy : ¬ s.Busy) :
    p = some (slot s.first) :=
  hp.resolve_right fun h => hbusy h.1

theorem Layout.taken (h : Layout slot s) (hne : some (slot s.first) ≠ s.tail) :
    Taken slot s (some (slot s.first)) := by
  refine ⟨rfl, Nat.lt_of_le_of_ne h.first_le_last fun heq => hne ?_⟩
  rw [h.tail, heq]

theorem Layout.ne_tail (h : Layout slot s) {p : Ptr} (hp : Taken slot s p) : p ≠ s.tail := by
  rw [hp.1, h.tail]
  intro heq
  have hfirst := h.inj _ _ h.present_first h.present_last (Option.some.inj heq)
  have hlt := hp.2
  omega

end Consequences

/-! ## Other threads -/

section Frame

variable {slot slot' : ℕ → Addr} {s t : State n T} {id : Fin n} {pc : Pc T}

/-- What a step of another thread has to leave alone for a thread at `pc`. -/
structure Undisturbed (slot slot' : ℕ → Addr) (s t : State n T) (pc : Pc T) : Prop where
  priv : ∀ node value, pc.newNode = some node → Private slot s node value →
    Private slot' t node value
  linking : ∀ node p, pc.newNode = some node → Linking slot s node p → Linking slot' t node p
  held : ∀ p, pc.oldHead = some p → Held slot s p → Held slot' t p
  tail : ∀ p, Held slot s p → p ≠ s.tail → p ≠ t.tail
  read : ∀ p next, pc.oldHead = some p → Held slot s p → Read s p next → Read t p next
  taken : pc.taking = true → ∀ p, Taken slot s p → Taken slot' t p
  second : pc.taking = true → s.first < s.last → slot' (t.first + 1) = slot (s.first + 1)
  linked : pc.taking = true → Linked slot s → Linked slot' t
  next : pc.taking = true → ∀ v, Next s v → Next t v
  head : pc.taking = true → t.head = s.head

theorem PcOk.of_undisturbed (hpc : PcOk slot s pc) (h : Undisturbed slot slot' s t pc) :
    PcOk slot' t pc := by
  cases pc with
  | idle | deqLoad => trivial
  | enqLoad node value => exact h.priv node value rfl hpc
  | enqCas node value _ => exact h.priv node value rfl hpc
  | enqLink node oldTail => exact h.linking node oldTail rfl hpc
  | deqTail p => exact h.held p rfl hpc
  | deqNext p => exact ⟨h.held p rfl hpc.1, h.tail p hpc.1 hpc.2⟩
  | deqCas p next =>
      obtain ⟨hp, hne, hread⟩ := hpc
      exact ⟨h.held p rfl hp, h.tail p hp hne, h.read p next rfl hp hread⟩
  | deqCheck p taken =>
      cases taken with
      | false => exact h.held p rfl hpc
      | true => exact h.taken rfl p hpc
  | deqRes p => exact h.taken rfl p hpc
  | deqData p next =>
      obtain ⟨hp, hn, hl⟩ := hpc
      exact ⟨h.taken rfl p hp, by rw [h.second rfl hp.2, hn], h.linked rfl hl⟩
  | deqNewHead p res =>
      obtain ⟨hp, hl, hv⟩ := hpc
      exact ⟨h.taken rfl p hp, h.linked rfl hl, h.next rfl res hv⟩
  | deqStore p res newHead =>
      obtain ⟨hp, hn, hl, hv⟩ := hpc
      exact ⟨h.taken rfl p hp, by rw [h.second rfl hp.2, hn], h.linked rfl hl, h.next rfl res hv⟩
  | deqDelete p res =>
      obtain ⟨hp, hn, hl, hv⟩ := hpc
      exact ⟨h.taken rfl p hp, by rw [h.second rfl hp.2, h.head rfl, hn], h.linked rfl hl,
        h.next rfl res hv⟩
  | fault => exact hpc

/-- One thread goes on to `pc`, and the others are not disturbed. -/
theorem pcOk_update (h : ∀ other, PcOk slot s (s.pcs other))
    (hpcs : t.pcs = Function.update s.pcs id pc) (hself : PcOk slot' t pc)
    (hothers : ∀ other, other ≠ id → Undisturbed slot slot' s t (s.pcs other)) :
    ∀ other, PcOk slot' t (t.pcs other) := by
  intro other
  rw [hpcs]
  by_cases hother : other = id
  · rw [hother, Function.update_self]
    exact hself
  · rw [Function.update_of_ne hother]
    exact (h other).of_undisturbed (hothers other hother)

/-- What at most one thread has stays with at most one thread. -/
theorem unique_update {P : Pc T → Prop} (h : ∀ a b, P (s.pcs a) → P (s.pcs b) → a = b)
    (hpcs : t.pcs = Function.update s.pcs id pc)
    (hnew : P pc → ∀ other, other ≠ id → ¬ P (s.pcs other)) :
    ∀ a b, P (t.pcs a) → P (t.pcs b) → a = b := by
  intro a b ha hb
  rw [hpcs] at ha hb
  by_cases haid : a = id <;> by_cases hbid : b = id
  · rw [haid, hbid]
  · rw [haid, Function.update_self] at ha
    rw [Function.update_of_ne hbid] at hb
    exact absurd hb (hnew ha b hbid)
  · rw [hbid, Function.update_self] at hb
    rw [Function.update_of_ne haid] at ha
    exact absurd ha (hnew hb a haid)
  · rw [Function.update_of_ne haid] at ha
    rw [Function.update_of_ne hbid] at hb
    exact h a b ha hb

theorem newNode_update (h : ∀ id other node, (s.pcs id).newNode = some node →
      (s.pcs other).newNode = some node → id = other)
    (hpcs : t.pcs = Function.update s.pcs id pc)
    (hnew : ∀ node, pc.newNode = some node → ∀ other, other ≠ id →
      (s.pcs other).newNode ≠ some node) :
    ∀ a b node, (t.pcs a).newNode = some node → (t.pcs b).newNode = some node → a = b := by
  intro a b node
  exact unique_update (P := fun pc => pc.newNode = some node) (fun c d => h c d node) hpcs
    (hnew node) a b

theorem taking_update (h : ∀ id other, (s.pcs id).taking = true →
      (s.pcs other).taking = true → id = other)
    (hpcs : t.pcs = Function.update s.pcs id pc)
    (htaking : pc.taking = true → s.OthersNotTaking id) :
    ∀ a b, (t.pcs a).taking = true → (t.pcs b).taking = true → a = b := by
  refine unique_update (P := fun pc => pc.taking = true) h hpcs fun hpc other hother => ?_
  rw [htaking hpc other hother]
  exact Bool.false_ne_true

theorem busy_update (hpcs : t.pcs = Function.update s.pcs id pc)
    (hkeeps : (s.pcs id).taking = true → pc.taking = true) (hbusy : s.Busy) : t.Busy := by
  obtain ⟨other, htaking⟩ := hbusy
  refine ⟨other, ?_⟩
  rw [hpcs]
  by_cases hother : other = id
  · subst hother
    rw [Function.update_self]
    exact hkeeps htaking
  · rwa [Function.update_of_ne hother]

/-! ## Steps that leave the queue alone -/

theorem link_of_heap (hheap : ∀ a, s.heap a ≠ none → t.heap a = s.heap a) {a : Addr}
    (ha : s.heap a ≠ none) : t.link (some a) = s.link (some a) := by
  simp [State.link, State.node, hheap a ha]

/-- A step that leaves the nodes alone disturbs nobody, unless it moves the head
under a thread that has taken a node. -/
theorem Layout.undisturbed (h : Layout slot s) (hreturned : t.returned = s.returned)
    (henqueued : t.enqueued = s.enqueued) (htail : t.tail = s.tail)
    (hhead : t.head = s.head ∨ pc.taking = false)
    (hheap : ∀ a, s.heap a ≠ none → t.heap a = s.heap a) (hbusy : s.Busy → t.Busy) :
    Undisturbed slot slot s t pc := by
  have hfirst : t.first = s.first := by rw [State.first, hreturned]
  have hlast : t.last = s.last := by rw [State.last, henqueued]
  have hlink : ∀ i, s.Present i → t.link (some (slot i)) = s.link (some (slot i)) := by
    intro i hi
    obtain ⟨node, hnode, -⟩ := h.node_slot hi
    exact link_of_heap hheap (by simp [hnode.1])
  constructor
  case priv =>
    rintro node value - ⟨hnode, hunused⟩
    refine ⟨(hheap node (by simp [hnode])).trans hnode, fun i hi => hunused i ?_⟩
    rwa [State.Present, ← hfirst, ← hlast]
  case linking =>
    rintro node p - ⟨i, hle, hlt, rfl, hnode, hnone⟩
    refine ⟨i, by omega, by omega, rfl, hnode, ?_⟩
    rw [hlink i ⟨hle, Nat.le_of_lt hlt⟩]
    exact hnone
  case held =>
    rintro p - (hp | ⟨hb, hlt, hp⟩)
    · exact Or.inl (hfirst ▸ hp)
    · exact Or.inr ⟨hbusy hb, by omega, by rw [hfirst]; exact hp⟩
  case tail => exact fun p _ hne => htail ▸ hne
  case read =>
    rintro p next - hp hread
    obtain ⟨i, hi, rfl⟩ := hp.present h
    rw [Read, hlink i hi]
    exact hread
  case taken =>
    rintro - p ⟨hp, hlt⟩
    exact ⟨hfirst ▸ hp, by omega⟩
  case second => exact fun _ _ => by rw [hfirst]
  case linked =>
    intro _ hl
    rw [Linked, hfirst, hlink _ h.present_first]
    exact hl
  case next =>
    intro _ v hv
    rw [Next, hfirst, henqueued]
    exact hv
  case head => exact fun htaking => hhead.resolve_right (by simp [htaking])

/-- A step that leaves the nodes alone and brings one thread to `pc`. -/
theorem Layout.frame (h : Layout slot s) (hpcs : t.pcs = Function.update s.pcs id pc)
    (hreturned : t.returned = s.returned) (henqueued : t.enqueued = s.enqueued)
    (htail : t.tail = s.tail) (hhead : t.head = s.head ∨ s.OthersNotTaking id)
    (hheap : ∀ a, s.heap a ≠ none → t.heap a = s.heap a)
    (hheadOk : HeadOk slot t) (hpc : PcOk slot t pc)
    (hnew : ∀ node, pc.newNode = some node → ∀ other, other ≠ id →
      (s.pcs other).newNode ≠ some node)
    (htaking : pc.taking = true → s.OthersNotTaking id)
    (hkeeps : (s.pcs id).taking = true → pc.taking = true) : Layout slot t := by
  have hfirst : t.first = s.first := by rw [State.first, hreturned]
  have hlast : t.last = s.last := by rw [State.last, henqueued]
  have hpresent : ∀ i, t.Present i ↔ s.Present i := by
    intro i
    rw [State.Present, State.Present, hfirst, hlast]
  constructor
  case returned =>
    rw [hreturned, henqueued]
    exact h.returned
  case tail =>
    rw [htail, hlast]
    exact h.tail
  case inj => exact fun i j hi hj => h.inj i j ((hpresent i).mp hi) ((hpresent j).mp hj)
  case node =>
    intro i hi
    obtain ⟨node, hread, hdata, hnext⟩ := h.node i ((hpresent i).mp hi)
    refine ⟨node, (hheap _ (by simp [hread])).trans hread, ?_, ?_⟩
    · rw [hfirst, henqueued]
      exact hdata
    · rw [hlast]
      exact hnext
  case head => exact hheadOk
  case pc =>
    refine pcOk_update h.pc hpcs hpc fun other hother => ?_
    exact h.undisturbed hreturned henqueued htail
      (hhead.imp_right fun hothers => hothers other hother) hheap (busy_update hpcs hkeeps)
  case newNode => exact newNode_update h.newNode hpcs hnew
  case taking => exact taking_update h.taking hpcs htaking

/-- A step that changes nothing but where the thread is. -/
theorem Layout.setPc (h : Layout slot s) (hpc : PcOk slot s pc)
    (hnew : pc.newNode = none ∨ pc.newNode = (s.pcs id).newNode)
    (htaking : pc.taking = true → s.OthersNotTaking id)
    (hkeeps : (s.pcs id).taking = true → pc.taking = true) : Layout slot (s.setPc id pc) := by
  have hbusy : s.Busy → (s.setPc id pc).Busy := busy_update rfl hkeeps
  refine h.frame rfl rfl rfl rfl (Or.inl rfl) (fun _ _ => rfl) ?_ ?_ ?_ htaking hkeeps
  · exact h.head.imp_right (And.imp_left hbusy)
  · exact hpc.of_undisturbed (h.undisturbed rfl rfl rfl (Or.inl rfl) (fun _ _ => rfl) hbusy)
  · intro node hnode other hother hsame
    rcases hnew with hnone | hold
    · exact absurd (hnone.symm.trans hnode) (by simp)
    · exact hother (h.newNode other id node hsame (hold ▸ hnode))

end Frame

end Sok.LockFreeQueue
