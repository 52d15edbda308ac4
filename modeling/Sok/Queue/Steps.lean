import Sok.Queue.Layout

/-!
# The steps that change the queue

Three steps change what is in the queue, and each of them is described by what it
leaves behind: the exchange of the tail (`ExchangesTail`) puts a node behind the last
one, the write of a link (`WritesLink`) completes a node, and a deletion
(`DeletesFirst`) drops the first node and returns the value of the second.

## Strategy

A step first gets the facts that all of the rest uses: how `first` and `last` move,
which of the nodes present now were present before, and which links are as they were.
From them there is one lemma for each field of `Layout` that the step touches, one for
what the thread itself knows afterwards, and one for the other threads
(`Undisturbed`).  The theorem that the step keeps the layout only puts these together.

* **The exchange** numbers the new node `last + 1`.  It was private, so its address is
  that of no other node, and nobody else's knowledge speaks of the new number.
* **The write of the link** touches one node.  Another thread may have read that link
  before; it then read null, which `Read` allows.
* **The deletion** takes the first node away.  The thread is the only one that has
  taken a node, and by the guard nobody else holds the first, so whoever holds a node
  holds the second, which is the first one now.
-/

namespace Sok.LockFreeQueue

variable {n : ℕ} {T : Type} {slot : ℕ → Addr} {s t : State n T} {id : Fin n}

/-! ## A new node -/

theorem Layout.newNode_live (h : Layout slot s) {node : Addr}
    (hnode : (s.pcs id).newNode = some node) : s.heap node ≠ none := by
  have hpc := h.pc id
  cases hcase : s.pcs id with
  | enqLoad other _ | enqCas other _ _ =>
      rw [hcase] at hpc hnode
      obtain rfl : other = node := Option.some.inj hnode
      simp [hpc.1]
  | enqLink other _ =>
      rw [hcase] at hpc hnode
      obtain rfl : other = node := Option.some.inj hnode
      obtain ⟨i, hle, hlt, -, rfl, -⟩ := hpc
      obtain ⟨stored, hstored⟩ := h.node (i + 1) ⟨Nat.le_succ_of_le hle, hlt⟩
      simp [hstored.1]
  | _ =>
      rw [hcase] at hnode
      exact absurd hnode (by simp [Pc.newNode])

theorem Layout.enqueue (h : Layout slot s) {value : T} {addr : Addr} (hpc : s.pcs id = .idle)
    (hfree : s.heap addr = none) :
    Layout slot ((s.write (some addr) (some ⟨value, none⟩)).setPc id (.enqLoad addr value)) := by
  have hheap : ∀ a, s.heap a ≠ none →
      Function.update s.heap addr (some ⟨value, none⟩) a = s.heap a := by
    intro a ha
    have hne : a ≠ addr := fun heq => ha (heq ▸ hfree)
    exact Function.update_of_ne hne _ _
  have hbusy : s.Busy →
      ((s.write (some addr) (some ⟨value, none⟩)).setPc id (.enqLoad addr value)).Busy :=
    busy_update rfl (by simp [hpc, Pc.taking])
  refine h.frame rfl rfl rfl rfl (Or.inl rfl) hheap ?_ ?_ ?_ (by simp [Pc.taking])
    (by simp [hpc, Pc.taking])
  · exact h.head.imp_right (And.imp_left hbusy)
  · refine ⟨Function.update_self _ _ _, fun i hi heq => ?_⟩
    obtain ⟨node, hnode⟩ := h.node i hi
    exact absurd (hnode.1.symm.trans (heq ▸ hfree)) (by simp)
  · rintro node hnode other - hsame
    obtain rfl : addr = node := Option.some.inj hnode
    exact h.newNode_live hsame hfree

/-! ## The exchange of the tail -/

/-- The thread `id` exchanges the tail for its new node. -/
structure ExchangesTail (s t : State n T) (id : Fin n) (node : Addr) (value : T) : Prop where
  pc : s.pcs id = .enqCas node value s.tail
  pcs : t.pcs = Function.update s.pcs id (.enqLink node s.tail)
  heap : t.heap = s.heap
  head : t.head = s.head
  tail : t.tail = some node
  enqueued : t.enqueued = s.enqueued ++ [value]
  returned : t.returned = s.returned

/-- The new node is numbered behind the last one. -/
def numbered (slot : ℕ → Addr) (s : State n T) (node : Addr) : ℕ → Addr :=
  Function.update slot (s.last + 1) node

@[simp] theorem numbered_new (slot : ℕ → Addr) (s : State n T) (node : Addr) :
    numbered slot s node (s.last + 1) = node :=
  Function.update_self _ _ _

theorem numbered_old {i : ℕ} {node : Addr} (hi : i ≤ s.last) : numbered slot s node i = slot i :=
  Function.update_of_ne (by omega) _ _

namespace ExchangesTail

variable {node : Addr} {value : T}

theorem privateNode (e : ExchangesTail s t id node value) (h : Layout slot s) :
    Private slot s node value := by
  have hself := h.pc id
  rwa [e.pc] at hself

theorem first_eq (e : ExchangesTail s t id node value) : t.first = s.first := by
  rw [State.first, e.returned]

theorem last_eq (e : ExchangesTail s t id node value) : t.last = s.last + 1 := by
  rw [State.last, e.enqueued, List.length_append]
  rfl

theorem busy (e : ExchangesTail s t id node value) (hbusy : s.Busy) : t.Busy :=
  busy_update e.pcs (by simp [e.pc, Pc.taking]) hbusy

theorem link_eq (e : ExchangesTail s t id node value) (p : Ptr) : t.link p = s.link p := by
  rw [State.link, State.link, State.node, State.node, e.heap]

/-- A node that is present now was before, or is the new one. -/
theorem present (e : ExchangesTail s t id node value) {i : ℕ} (hi : t.Present i) :
    s.Present i ∨ i = s.last + 1 := by
  obtain ⟨hi, hi'⟩ := hi
  rw [e.first_eq] at hi
  rw [e.last_eq] at hi'
  rcases Nat.lt_or_ge s.last i with hlt | hge
  · exact Or.inr (by omega)
  · exact Or.inl ⟨hi, hge⟩

theorem inj (e : ExchangesTail s t id node value) (h : Layout slot s) {i j : ℕ}
    (hi : t.Present i) (hj : t.Present j)
    (heq : numbered slot s node i = numbered slot s node j) : i = j := by
  obtain ⟨-, hunused⟩ := e.privateNode h
  rcases e.present hi with hi | rfl <;> rcases e.present hj with hj | rfl
  · rw [numbered_old hi.2, numbered_old hj.2] at heq
    exact h.inj i j hi hj heq
  · rw [numbered_old hi.2, numbered_new] at heq
    exact absurd heq (hunused i hi)
  · rw [numbered_old hj.2, numbered_new] at heq
    exact absurd heq.symm (hunused j hj)
  · rfl

theorem nodeOk (e : ExchangesTail s t id node value) (h : Layout slot s) {i : ℕ}
    (hi : t.Present i) : ∃ stored, NodeOk (numbered slot s node) t i stored := by
  rcases e.present hi with hi | rfl
  · obtain ⟨stored, hread, hdata, hnext⟩ := h.node i hi
    refine ⟨stored, ?_, fun hlt => ?_, hnext.imp_right ?_⟩
    · rw [e.heap, numbered_old hi.2]
      exact hread
    · rw [e.first_eq] at hlt
      obtain ⟨hlt', -⟩ := List.getElem?_eq_some_iff.mp (hdata hlt)
      rw [e.enqueued, List.getElem?_append_left hlt']
      exact hdata hlt
    · rintro ⟨hlt, heq⟩
      have hlast := e.last_eq
      exact ⟨by omega, by rw [numbered_old hlt]; exact heq⟩
  · refine ⟨⟨value, none⟩, ?_, fun _ => ?_, Or.inl rfl⟩
    · rw [e.heap, numbered_new]
      exact (e.privateNode h).1
    · rw [e.enqueued, Nat.add_sub_cancel]
      exact List.getElem?_concat_length

theorem headOk (e : ExchangesTail s t id node value) (h : Layout slot s) :
    HeadOk (numbered slot s node) t := by
  have hlast := e.last_eq
  rw [HeadOk, e.head, e.first_eq, numbered_old h.first_le_last]
  refine h.head.imp_right (And.imp e.busy ?_)
  rintro ⟨hlt, hrest⟩
  exact ⟨by omega, by rwa [numbered_old hlt]⟩

/-- The link from the old tail to the new node is what the thread has to write next. -/
theorem linking (e : ExchangesTail s t id node value) (h : Layout slot s) :
    Linking (numbered slot s node) t node s.tail := by
  have hfirst := e.first_eq
  have hlast := e.last_eq
  have hle := h.first_le_last
  obtain ⟨stored, hstored, -, hlink⟩ := h.node_slot h.present_last
  refine ⟨s.last, by omega, by omega, ?_, (numbered_new _ _ _).symm, ?_⟩
  · rw [numbered_old (le_refl _)]
    exact h.tail
  · rw [e.link_eq, h.tail, hlink]
    exact hstored.2.2.resolve_right fun hlt => absurd hlt.1 (lt_irrefl _)

/-- Nobody else has the new node. -/
theorem newNode_ne (e : ExchangesTail s t id node value) (h : Layout slot s) {other : Fin n}
    (hother : other ≠ id) : (s.pcs other).newNode ≠ some node := by
  intro hsame
  exact hother (h.newNode other id node hsame (by rw [e.pc]; rfl))

theorem undisturbed (e : ExchangesTail s t id node value) (h : Layout slot s) {other : Fin n}
    (hother : other ≠ id) :
    Undisturbed slot (numbered slot s node) s t (s.pcs other) := by
  obtain ⟨-, hunused⟩ := e.privateNode h
  have hfirst := e.first_eq
  have hlast := e.last_eq
  have hfirstSlot : numbered slot s node s.first = slot s.first := numbered_old h.first_le_last
  constructor
  case priv =>
    rintro node' value' hnode' ⟨hread, hfree⟩
    refine ⟨e.heap ▸ hread, fun i hi => ?_⟩
    rcases e.present hi with hi | rfl
    · rw [numbered_old hi.2]
      exact hfree i hi
    · rw [numbered_new]
      rintro rfl
      exact e.newNode_ne h hother hnode'
  case linking =>
    rintro node' p - ⟨i, hfi, hlt, hp, hslot, hnone⟩
    exact ⟨i, by omega, by omega, by rw [numbered_old hlt.le, hp],
      by rw [numbered_old hlt, hslot], by rw [e.link_eq, hnone]⟩
  case held =>
    rintro p - (hp | ⟨hb, hlt, hp⟩)
    · exact Or.inl (by rw [hfirst, hfirstSlot, hp])
    · exact Or.inr ⟨e.busy hb, by omega, by rw [hfirst, numbered_old hlt, hp]⟩
  case tail =>
    intro p hp _ heq
    obtain ⟨i, hi, rfl⟩ := hp.present h
    exact hunused i hi (Option.some.inj (heq.trans e.tail))
  case read =>
    intro p next _ _ hread
    rw [Read, e.link_eq]
    exact hread
  case taken =>
    rintro - p ⟨hp, hlt⟩
    exact ⟨by rw [hfirst, hfirstSlot, hp], by omega⟩
  case second => exact fun _ hlt => by rw [hfirst, numbered_old hlt]
  case linked =>
    intro _ hl
    obtain ⟨stored, hstored, -, hlink⟩ := h.node_slot h.present_first
    have hlt : s.first < s.last := by
      rcases hstored.2.2 with hnone | hlt
      · exact absurd (hl.symm.trans (hlink.trans hnone)) (by simp)
      · exact hlt.1
    rw [Linked, e.link_eq, hfirst, hfirstSlot, numbered_old hlt]
    exact hl
  case next =>
    intro _ v hv
    obtain ⟨hlt, -⟩ := List.getElem?_eq_some_iff.mp hv
    rw [Next, hfirst, e.enqueued, List.getElem?_append_left hlt]
    exact hv
  case head => exact fun _ => e.head

end ExchangesTail

/-- The exchange of the tail puts the node behind the last one. -/
theorem Layout.exchangeTail (h : Layout slot s) {node : Addr} {value : T}
    (e : ExchangesTail s t id node value) : Layout (numbered slot s node) t := by
  constructor
  case returned =>
    rw [e.returned, e.enqueued]
    exact h.returned.trans (List.prefix_append _ _)
  case tail => rw [e.tail, e.last_eq, numbered_new]
  case inj => exact fun i j hi hj => e.inj h hi hj
  case node => exact fun i hi => e.nodeOk h hi
  case head => exact e.headOk h
  case pc => exact pcOk_update h.pc e.pcs (e.linking h) fun other => e.undisturbed h
  case newNode =>
    refine newNode_update h.newNode e.pcs fun node' hnode' other hother => ?_
    obtain rfl : node = node' := Option.some.inj hnode'
    exact e.newNode_ne h hother
  case taking => exact taking_update h.taking e.pcs (by simp [Pc.taking])

/-! ## The write of a link -/

/-- The thread `id` writes the link from the node `i`, which is `old`, to the next one. -/
structure WritesLink (slot : ℕ → Addr) (s t : State n T) (id : Fin n) (i : ℕ) (old : Node T) :
    Prop where
  pc : s.pcs id = .enqLink (slot (i + 1)) (some (slot i))
  node : s.node (some (slot i)) = some old
  first_le : s.first ≤ i
  lt_last : i < s.last
  unwritten : s.link (some (slot i)) = none
  pcs : t.pcs = Function.update s.pcs id .idle
  heap : t.heap = Function.update s.heap (slot i) (some { old with next := some (slot (i + 1)) })
  head : t.head = s.head
  tail : t.tail = s.tail
  enqueued : t.enqueued = s.enqueued
  returned : t.returned = s.returned

namespace WritesLink

variable {i : ℕ} {old : Node T}

theorem present_old (w : WritesLink slot s t id i old) : s.Present i :=
  ⟨w.first_le, w.lt_last.le⟩

theorem first_eq (w : WritesLink slot s t id i old) : t.first = s.first := by
  rw [State.first, w.returned]

theorem last_eq (w : WritesLink slot s t id i old) : t.last = s.last := by
  rw [State.last, w.enqueued]

theorem present (w : WritesLink slot s t id i old) {j : ℕ} (hj : t.Present j) : s.Present j := by
  rwa [State.Present, ← w.first_eq, ← w.last_eq]

theorem busy (w : WritesLink slot s t id i old) (hbusy : s.Busy) : t.Busy :=
  busy_update w.pcs (by simp [w.pc, Pc.taking]) hbusy

theorem heap_old (w : WritesLink slot s t id i old) :
    t.heap (slot i) = some { old with next := some (slot (i + 1)) } := by
  rw [w.heap, Function.update_self]

theorem heap_of_ne (w : WritesLink slot s t id i old) {a : Addr} (ha : a ≠ slot i) :
    t.heap a = s.heap a := by
  rw [w.heap, Function.update_of_ne ha]

theorem heap_slot (w : WritesLink slot s t id i old) (h : Layout slot s) {j : ℕ}
    (hj : s.Present j) (hne : j ≠ i) : t.heap (slot j) = s.heap (slot j) :=
  w.heap_of_ne fun heq => hne (h.inj j i hj w.present_old heq)

theorem link_slot (w : WritesLink slot s t id i old) (h : Layout slot s) {j : ℕ}
    (hj : s.Present j) (hne : j ≠ i) : t.link (some (slot j)) = s.link (some (slot j)) := by
  simp [State.link, State.node, w.heap_slot h hj hne]

theorem nodeOk (w : WritesLink slot s t id i old) (h : Layout slot s) {j : ℕ}
    (hj : t.Present j) : ∃ stored, NodeOk slot t j stored := by
  obtain ⟨stored, hread, hdata, hnext⟩ := h.node j (w.present hj)
  by_cases hji : j = i
  · subst hji
    have heq : stored = old := Option.some.inj (hread.symm.trans w.node)
    refine ⟨_, w.heap_old, ?_, Or.inr ⟨w.last_eq ▸ w.lt_last, rfl⟩⟩
    rw [w.first_eq, w.enqueued, ← heq]
    exact hdata
  · refine ⟨stored, (w.heap_slot h (w.present hj) hji).trans hread, ?_, ?_⟩
    · rw [w.first_eq, w.enqueued]
      exact hdata
    · rw [w.last_eq]
      exact hnext

theorem headOk (w : WritesLink slot s t id i old) (h : Layout slot s) : HeadOk slot t := by
  rw [HeadOk, w.head, w.first_eq, w.last_eq]
  exact h.head.imp_right (And.imp_left w.busy)

theorem undisturbed (w : WritesLink slot s t id i old) (h : Layout slot s) {other : Fin n}
    (hother : other ≠ id) : Undisturbed slot slot s t (s.pcs other) := by
  have hfirst := w.first_eq
  have hlast := w.last_eq
  constructor
  case priv =>
    rintro node value - ⟨hread, hfree⟩
    refine ⟨?_, fun j hj => hfree j (w.present hj)⟩
    rw [w.heap_of_ne (hfree i w.present_old).symm]
    exact hread
  case linking =>
    rintro node p hnode ⟨j, hfj, hjlt, rfl, rfl, hnone⟩
    -- two threads do not link the same node
    have hji : j ≠ i := by
      rintro rfl
      exact hother (h.newNode other id _ hnode (by rw [w.pc]; rfl))
    refine ⟨j, by omega, by omega, rfl, rfl, ?_⟩
    rw [w.link_slot h ⟨hfj, hjlt.le⟩ hji]
    exact hnone
  case held =>
    rintro p - (hp | ⟨hb, hlt, hp⟩)
    · exact Or.inl (hfirst ▸ hp)
    · exact Or.inr ⟨w.busy hb, by omega, by rw [hfirst]; exact hp⟩
  case tail => exact fun p _ hne => w.tail ▸ hne
  case read =>
    rintro p next - hp hread
    obtain ⟨j, hj, rfl⟩ := hp.present h
    by_cases hji : j = i
    · -- what was read before the link was written is null
      subst hji
      rcases hread with hnull | hnext
      · exact Or.inl hnull
      · exact Or.inl (hnext.symm.trans w.unwritten)
    · rw [Read, w.link_slot h hj hji]
      exact hread
  case taken =>
    rintro - p ⟨hp, hlt⟩
    exact ⟨hfirst ▸ hp, by omega⟩
  case second => exact fun _ _ => by rw [hfirst]
  case linked =>
    intro _ hl
    have hne : s.first ≠ i := by
      rintro heq
      have hnone := w.unwritten
      rw [← heq] at hnone
      exact absurd (hl.symm.trans hnone) (by simp)
    rw [Linked, hfirst, w.link_slot h h.present_first hne]
    exact hl
  case next =>
    intro _ v hv
    rw [Next, hfirst, w.enqueued]
    exact hv
  case head => exact fun _ => w.head

end WritesLink

/-- The link to the new node is written. -/
theorem Layout.writeLink (h : Layout slot s) {i : ℕ} {old : Node T}
    (w : WritesLink slot s t id i old) : Layout slot t := by
  constructor
  case returned =>
    rw [w.returned, w.enqueued]
    exact h.returned
  case tail =>
    rw [w.tail, w.last_eq]
    exact h.tail
  case inj => exact fun j k hj hk => h.inj j k (w.present hj) (w.present hk)
  case node => exact fun j hj => w.nodeOk h hj
  case head => exact w.headOk h
  case pc => exact pcOk_update h.pc w.pcs trivial fun other => w.undisturbed h
  case newNode => exact newNode_update h.newNode w.pcs (by simp [Pc.newNode])
  case taking => exact taking_update h.taking w.pcs (by simp [Pc.taking])

/-! ## The deletion of the first node -/

/-- The thread `id` deletes the first node, which nobody else holds, and returns. -/
structure DeletesFirst (slot : ℕ → Addr) (s t : State n T) (id : Fin n) (res : T) : Prop where
  pc : s.pcs id = .deqDelete (some (slot s.first)) res
  holding : s.OthersNotHolding id (some (slot s.first))
  pcs : t.pcs = Function.update s.pcs id .idle
  heap : t.heap = Function.update s.heap (slot s.first) none
  head : t.head = s.head
  tail : t.tail = s.tail
  enqueued : t.enqueued = s.enqueued
  returned : t.returned = s.returned ++ [res]

namespace DeletesFirst

variable {res : T}

/-- What the thread knows: the head is at the second node, and the link to it is written. -/
theorem known (d : DeletesFirst slot s t id res) (h : Layout slot s) :
    s.first < s.last ∧ s.head = some (slot (s.first + 1)) ∧ Linked slot s ∧ Next s res := by
  have hself := h.pc id
  rw [d.pc] at hself
  exact ⟨hself.1.2, hself.2⟩

theorem first_eq (d : DeletesFirst slot s t id res) : t.first = s.first + 1 := by
  rw [State.first, d.returned, List.length_append]
  rfl

theorem last_eq (d : DeletesFirst slot s t id res) : t.last = s.last := by
  rw [State.last, d.enqueued]

/-- What is present now was before, and is not the first node. -/
theorem present (d : DeletesFirst slot s t id res) {i : ℕ} (hi : t.Present i) :
    s.Present i ∧ i ≠ s.first := by
  obtain ⟨hi, hi'⟩ := hi
  rw [d.first_eq] at hi
  rw [d.last_eq] at hi'
  exact ⟨⟨by omega, hi'⟩, by omega⟩

theorem heap_of_ne (d : DeletesFirst slot s t id res) {a : Addr} (ha : a ≠ slot s.first) :
    t.heap a = s.heap a := by
  rw [d.heap, Function.update_of_ne ha]

theorem heap_slot (d : DeletesFirst slot s t id res) (h : Layout slot s) {i : ℕ}
    (hi : s.Present i) (hne : i ≠ s.first) : t.heap (slot i) = s.heap (slot i) :=
  d.heap_of_ne fun heq => hne (h.inj i _ hi h.present_first heq)

theorem link_slot (d : DeletesFirst slot s t id res) (h : Layout slot s) {i : ℕ}
    (hi : s.Present i) (hne : i ≠ s.first) : t.link (some (slot i)) = s.link (some (slot i)) := by
  simp [State.link, State.node, d.heap_slot h hi hne]

/-- The value returned is the one behind those returned before. -/
theorem prefix_enqueued (d : DeletesFirst slot s t id res) (h : Layout slot s) :
    t.returned <+: t.enqueued := by
  obtain ⟨-, -, -, hnext⟩ := d.known h
  rw [d.returned, d.enqueued, List.prefix_iff_eq_take, List.length_append,
    List.length_singleton, List.take_add_one, ← List.prefix_iff_eq_take.mp h.returned, hnext]
  rfl

theorem nodeOk (d : DeletesFirst slot s t id res) (h : Layout slot s) {i : ℕ}
    (hi : t.Present i) : ∃ stored, NodeOk slot t i stored := by
  have hfirst := d.first_eq
  obtain ⟨hold, hne⟩ := d.present hi
  obtain ⟨stored, hread, hdata, hlinks⟩ := h.node i hold
  refine ⟨stored, (d.heap_slot h hold hne).trans hread, fun hlt => ?_, ?_⟩
  · rw [d.enqueued]
    exact hdata (by omega)
  · rw [d.last_eq]
    exact hlinks

/-- Whoever else holds a node holds the second one, which is the first one now. -/
theorem held_second (d : DeletesFirst slot s t id res) {other : Fin n} (hother : other ≠ id)
    {p : Ptr} (hp : (s.pcs other).oldHead = some p) (hheld : Held slot s p) :
    p = some (slot (s.first + 1)) := by
  rcases hheld with rfl | ⟨-, -, hsecond⟩
  · exact absurd hp (d.holding other hother)
  · exact hsecond

theorem undisturbed (d : DeletesFirst slot s t id res) (h : Layout slot s) {other : Fin n}
    (hother : other ≠ id) : Undisturbed slot slot s t (s.pcs other) := by
  obtain ⟨hlt, -, hlinked, -⟩ := d.known h
  have hfirst := d.first_eq
  have hlast := d.last_eq
  have hidle : s.OthersNotTaking id := h.othersNotTaking (by rw [d.pc]; rfl)
  have hnot : ∀ {P : Prop}, (s.pcs other).taking = true → P := fun htaking =>
    absurd htaking (by simp [hidle other hother])
  constructor
  case priv =>
    rintro node value - ⟨hread, hfree⟩
    refine ⟨?_, fun i hi => hfree i (d.present hi).1⟩
    rw [d.heap_of_ne (hfree _ h.present_first).symm]
    exact hread
  case linking =>
    rintro node p - ⟨i, hfi, hilt, rfl, rfl, hnone⟩
    -- the link of the first node is written
    have hne : i ≠ s.first := by
      rintro rfl
      exact absurd (hlinked.symm.trans hnone) (by simp)
    refine ⟨i, by omega, by omega, rfl, rfl, ?_⟩
    rw [d.link_slot h ⟨hfi, hilt.le⟩ hne]
    exact hnone
  case held =>
    intro p hp hheld
    exact Or.inl (by rw [d.held_second hother hp hheld, hfirst])
  case tail => exact fun p _ hne => d.tail ▸ hne
  case read =>
    intro p next hp hheld hread
    rw [d.held_second hother hp hheld] at hread ⊢
    rw [Read, d.link_slot h ⟨by omega, hlt⟩ (by omega)]
    exact hread
  case taken => exact hnot
  case second => exact hnot
  case linked => exact hnot
  case next => exact hnot
  case head => exact hnot

end DeletesFirst

/-- The first node is deleted and its successor's value returned. -/
theorem Layout.delete (h : Layout slot s) {res : T} (d : DeletesFirst slot s t id res) :
    Layout slot t := by
  constructor
  case returned => exact d.prefix_enqueued h
  case tail =>
    rw [d.tail, d.last_eq]
    exact h.tail
  case inj => exact fun i j hi hj => h.inj i j (d.present hi).1 (d.present hj).1
  case node => exact fun i hi => d.nodeOk h hi
  case head => exact Or.inl (by rw [d.head, d.first_eq, (d.known h).2.1])
  case pc => exact pcOk_update h.pc d.pcs trivial fun other => d.undisturbed h
  case newNode => exact newNode_update h.newNode d.pcs (by simp [Pc.newNode])
  case taking => exact taking_update h.taking d.pcs (by simp [Pc.taking])

end Sok.LockFreeQueue
