import Mathlib.Data.Fintype.Basic
import Mathlib.Logic.Function.Basic
import Sok.Foundation.Transition

/-!
# The lock-free queue

`LockFreeQueue` is a linked list with a dummy node in front.  `enqueue` exchanges
the tail for its new node and then links the node before it; `dequeue` exchanges the
head for the node behind it, checks the tail once more, follows the link again, stores
the head again and deletes the old node.

Every atomic access, every access to a field of a node and every deletion is one
step, and the steps of any number of threads interleave in any order.  Memory is
explicit: a deleted address may be handed out again by the next `new`, and a step
that follows a null pointer or a pointer to a deleted node is a fault.
-/

namespace Sok.LockFreeQueue

abbrev Addr := ℕ

/-- A `Node*`; `none` is the null pointer. -/
abbrev Ptr := Option Addr

/-- A `Node`. -/
structure Node (T : Type) where
  data : T
  next : Ptr

/-- Where a thread is in `enqueue` or `dequeue`, with its local variables. -/
inductive Pc (T : Type)
  | idle
  /-- `old_tail = tail.load` -/
  | enqLoad (node : Addr) (value : T)
  /-- `tail.compare_exchange_weak(old_tail, new_node)` -/
  | enqCas (node : Addr) (value : T) (oldTail : Ptr)
  /-- `old_tail->next = new_node` -/
  | enqLink (node : Addr) (oldTail : Ptr)
  /-- `old_head = head.load` -/
  | deqLoad
  /-- `old_head != tail.load` in the condition of the loop -/
  | deqTail (oldHead : Ptr)
  /-- `old_head->next`, the argument of the exchange -/
  | deqNext (oldHead : Ptr)
  /-- `head.compare_exchange_weak(old_head, next)` -/
  | deqCas (oldHead next : Ptr)
  /-- `old_head == tail.load` behind the loop; `taken` records how the loop was left,
  by the exchange or because the queue was empty -/
  | deqCheck (oldHead : Ptr) (taken : Bool)
  /-- `old_head->next` in `old_head->next->data` -/
  | deqRes (oldHead : Ptr)
  /-- `->data` -/
  | deqData (oldHead next : Ptr)
  /-- `new_head = old_head->next` -/
  | deqNewHead (oldHead : Ptr) (res : T)
  /-- `head.store(new_head)` -/
  | deqStore (oldHead : Ptr) (res : T) (newHead : Ptr)
  /-- `delete old_head`, after which `res` is returned -/
  | deqDelete (oldHead : Ptr) (res : T)
  /-- A null pointer or a deleted node was followed. -/
  | fault

/-- The queue, the memory and `n` threads. -/
structure State (n : ℕ) (T : Type) where
  heap : Addr → Option (Node T)
  head : Ptr
  tail : Ptr
  pcs : Fin n → Pc T
  /-- The values enqueued, in the order of the exchanges of the tail. -/
  enqueued : List T
  /-- The values returned, in the order of the returns. -/
  returned : List T

inductive Action (n : ℕ) (T : Type)
  /-- A call of `enqueue`; `new` returns the address. -/
  | enqueue (id : Fin n) (value : T) (addr : Addr)
  | dequeue (id : Fin n)
  /-- The next step of the thread. -/
  | run (id : Fin n)
  /-- The compare-exchange of the thread fails spuriously. -/
  | weakFails (id : Fin n)

variable {n : ℕ} {T : Type}

namespace State

def setPc (s : State n T) (id : Fin n) (pc : Pc T) : State n T :=
  { s with pcs := Function.update s.pcs id pc }

/-- The node a pointer points to. -/
def node (s : State n T) (p : Ptr) : Option (Node T) := p.bind s.heap

/-- A step of the thread that follows a pointer. -/
def follow (s : State n T) (id : Fin n) (p : Ptr) (f : Node T → State n T) : State n T :=
  match s.node p with
  | some node => f node
  | none => s.setPc id .fault

/-- Replace what is stored at the address. -/
def write (s : State n T) (p : Ptr) (node : Option (Node T)) : State n T :=
  match p with
  | some a => { s with heap := Function.update s.heap a node }
  | none => s

end State

/-- The next step of a thread that is not idle. -/
def runStep (s : State n T) (id : Fin n) : Option (State n T) :=
  match s.pcs id with
  | .idle => none
  -- `enqueue`
  | .enqLoad node value => some (s.setPc id (.enqCas node value s.tail))
  | .enqCas node value oldTail =>
      if s.tail = oldTail then
        some ({ s with tail := some node, enqueued := s.enqueued ++ [value] }.setPc id
          (.enqLink node oldTail))
      else some (s.setPc id (.enqLoad node value))
  | .enqLink node oldTail =>
      some (s.follow id oldTail fun old =>
        (s.write oldTail (some { old with next := some node })).setPc id .idle)
  -- `dequeue`
  | .deqLoad => some (s.setPc id (.deqTail s.head))
  | .deqTail oldHead =>
      if oldHead = s.tail then some (s.setPc id (.deqCheck oldHead false))
      else some (s.setPc id (.deqNext oldHead))
  | .deqNext oldHead =>
      some (s.follow id oldHead fun old => s.setPc id (.deqCas oldHead old.next))
  | .deqCas oldHead next =>
      if s.head = oldHead then some ({ s with head := next }.setPc id (.deqCheck oldHead true))
      else some (s.setPc id .deqLoad)
  | .deqCheck oldHead _ =>
      -- the queue is empty: a null `shared_ptr` is returned
      if oldHead = s.tail then some (s.setPc id .idle)
      else some (s.setPc id (.deqRes oldHead))
  | .deqRes oldHead =>
      some (s.follow id oldHead fun old => s.setPc id (.deqData oldHead old.next))
  | .deqData oldHead next =>
      some (s.follow id next fun node => s.setPc id (.deqNewHead oldHead node.data))
  | .deqNewHead oldHead res =>
      some (s.follow id oldHead fun old => s.setPc id (.deqStore oldHead res old.next))
  | .deqStore oldHead res newHead =>
      some ({ s with head := newHead }.setPc id (.deqDelete oldHead res))
  | .deqDelete oldHead res =>
      some (s.follow id oldHead fun _ =>
        { s.write oldHead none with returned := s.returned ++ [res] }.setPc id .idle)
  | .fault => none

/-- A step of one of the threads; `none` when it is not enabled. -/
def next (s : State n T) : Action n T → Option (State n T)
  | .enqueue id value addr =>
      match s.pcs id, s.heap addr with
      | .idle, none =>
          some ((s.write (some addr) (some ⟨value, none⟩)).setPc id (.enqLoad addr value))
      | _, _ => none
  | .dequeue id =>
      match s.pcs id with
      | .idle => some (s.setPc id .deqLoad)
      | _ => none
  | .run id => runStep s id
  | .weakFails id =>
      match s.pcs id with
      | .enqCas node value _ => some (s.setPc id (.enqLoad node value))
      | .deqCas _ _ => some (s.setPc id .deqLoad)
      | _ => none

/-- The queue after its constructor: head and tail are the dummy node. -/
def start (n : ℕ) (dummy : Addr) (value : T) : State n T where
  heap := Function.update (fun _ => none) dummy (some ⟨value, none⟩)
  head := some dummy
  tail := some dummy
  pcs _ := .idle
  enqueued := []
  returned := []

/-- `n` threads on one queue. -/
def system (n : ℕ) (T : Type) : Transition.System (State n T) (Action n T) where
  init s := ∃ dummy value, s = start n dummy value
  step := next

/-! ## Where a thread is -/

namespace Pc

/-- The new node of an `enqueue`. -/
def newNode : Pc T → Option Addr
  | .enqLoad node _ => some node
  | .enqCas node _ _ => some node
  | .enqLink node _ => some node
  | _ => none

/-- The local variable `old_head` of a `dequeue`. -/
def oldHead : Pc T → Option Ptr
  | .deqTail oldHead => some oldHead
  | .deqNext oldHead => some oldHead
  | .deqCas oldHead _ => some oldHead
  | .deqCheck oldHead _ => some oldHead
  | .deqRes oldHead => some oldHead
  | .deqData oldHead _ => some oldHead
  | .deqNewHead oldHead _ => some oldHead
  | .deqStore oldHead _ _ => some oldHead
  | .deqDelete oldHead _ => some oldHead
  | _ => none

/-- A `dequeue` that has taken a node and not returned yet. -/
def taking : Pc T → Bool
  | .deqCheck _ taken => taken
  | .deqRes _ => true
  | .deqData _ _ => true
  | .deqNewHead _ _ => true
  | .deqStore _ _ _ => true
  | .deqDelete _ _ => true
  | _ => false

end Pc

namespace State

/-- No other thread has taken a node. -/
def OthersNotTaking (s : State n T) (id : Fin n) : Prop :=
  ∀ other, other ≠ id → (s.pcs other).taking = false

instance (s : State n T) (id : Fin n) : Decidable (s.OthersNotTaking id) :=
  inferInstanceAs (Decidable (∀ other, other ≠ id → _))

/-- No other thread holds the pointer as its `old_head`. -/
def OthersNotHolding (s : State n T) (id : Fin n) (p : Ptr) : Prop :=
  ∀ other, other ≠ id → (s.pcs other).oldHead ≠ some p

instance (s : State n T) (id : Fin n) (p : Ptr) : Decidable (s.OthersNotHolding id p) :=
  inferInstanceAs (Decidable (∀ other, other ≠ id → _))

/-- The field `next` behind a pointer. -/
def link (s : State n T) (p : Ptr) : Ptr := (s.node p).bind Node.next

end State

/-! ## The condition -/

/-- What has to hold when the thread takes its next step from there. -/
def CarefulAt (s : State n T) (id : Fin n) : Pc T → Prop
  | .deqLoad => s.head ≠ none
  | .deqCas oldHead _ => s.head = oldHead → s.OthersNotTaking id
  | .deqCheck oldHead false => oldHead ≠ s.tail → s.OthersNotTaking id
  | .deqRes oldHead => s.link oldHead ≠ none
  | .deqDelete oldHead _ => s.OthersNotHolding id oldHead
  | _ => True

instance (s : State n T) (id : Fin n) : (pc : Pc T) → Decidable (CarefulAt s id pc)
  | .deqLoad => inferInstanceAs (Decidable (s.head ≠ none))
  | .deqCas oldHead _ => inferInstanceAs (Decidable (s.head = oldHead → s.OthersNotTaking id))
  | .deqCheck oldHead false =>
      inferInstanceAs (Decidable (oldHead ≠ s.tail → s.OthersNotTaking id))
  | .deqRes oldHead => inferInstanceAs (Decidable (s.link oldHead ≠ none))
  | .deqDelete oldHead _ => inferInstanceAs (Decidable (s.OthersNotHolding id oldHead))
  | .idle | .enqLoad _ _ | .enqCas _ _ _ | .enqLink _ _ | .deqTail _ | .deqNext _
  | .deqCheck _ true | .deqData _ _ | .deqNewHead _ _ | .deqStore _ _ _ | .fault =>
      inferInstanceAs (Decidable True)

/-- **The condition.**

* The head is loaded only when it is not null.
* A node is taken, by the exchange of the head or by the second look at the tail, only
  while no other `dequeue` has taken one.  That lasts until the other one returns and not
  only until it has stored the head: in between it could be overtaken, and the values
  would come back in the other order.
* The link of a taken node is followed only after the `enqueue` that exchanged the
  tail there has written it.
* A node is deleted only when no other `dequeue` holds it. -/
def Careful (s : State n T) : Action n T → Prop
  | .run id => CarefulAt s id (s.pcs id)
  | _ => True

instance (s : State n T) : (a : Action n T) → Decidable (Careful s a)
  | .run id => inferInstanceAs (Decidable (CarefulAt s id (s.pcs id)))
  | .enqueue _ _ _ | .dequeue _ | .weakFails _ => inferInstanceAs (Decidable True)

end Sok.LockFreeQueue
