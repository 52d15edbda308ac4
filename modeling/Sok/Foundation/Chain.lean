import Mathlib.Data.List.Nodup
import Mathlib.Logic.Function.Basic

/-!
# Linked lists in memory

A list of nodes that begins at a pointer: each node is stored at its address and leads to the next
one, and the last one leads nowhere.  Such a list is not disturbed by what happens at other
addresses, and freeing its nodes one after another frees all of them.
-/

namespace Chain

variable {Addr Node : Type}

/-- The nodes that are found from a pointer on, with their addresses. -/
inductive LinkedFrom (next : Node → Option Addr) (heap : Addr → Option Node) :
    Option Addr → List (Addr × Node) → Prop
  | nil : LinkedFrom next heap none []
  | cons {addr : Addr} {node : Node} {rest : List (Addr × Node)} (hstored : heap addr = some node)
      (hrest : LinkedFrom next heap (next node) rest) :
      LinkedFrom next heap (some addr) ((addr, node) :: rest)

variable {next : Node → Option Addr} {heap : Addr → Option Node} {p : Option Addr}
  {nodes : List (Addr × Node)}

theorem LinkedFrom.stored (h : LinkedFrom next heap p nodes) :
    ∀ entry ∈ nodes, heap entry.1 = some entry.2 := by
  induction h with
  | nil => exact fun entry hentry => absurd hentry (by simp)
  | cons hstored _ ih => exact List.forall_mem_cons.mpr ⟨hstored, ih⟩

/-- A list between numbered addresses. -/
theorem chain_of_slots {slot : ℕ → Addr} {first : ℕ} (count : ℕ)
    (hlinks : ∀ i, first ≤ i → i < first + count →
      ∃ node, heap (slot i) = some node ∧ next node = some (slot (i + 1)))
    (hlast : ∃ node, heap (slot (first + count)) = some node ∧ next node = none) :
    ∃ nodes, LinkedFrom next heap (some (slot first)) nodes ∧
      nodes.map Prod.fst = (List.range' first (count + 1)).map slot := by
  induction count generalizing first with
  | zero =>
      obtain ⟨node, hstored, hnext⟩ := hlast
      refine ⟨[(slot first, node)], LinkedFrom.cons hstored ?_, rfl⟩
      rw [hnext]
      exact LinkedFrom.nil
  | succ count ih =>
      obtain ⟨node, hstored, hnext⟩ := hlinks first (Nat.le_refl first) (by omega)
      have hshift : first + (count + 1) = first + 1 + count := by omega
      rw [hshift] at hlast
      obtain ⟨rest, hrest, haddrs⟩ := ih (fun i hi hlt => hlinks i (by omega) (by omega)) hlast
      refine ⟨(slot first, node) :: rest, LinkedFrom.cons hstored (hnext ▸ hrest), ?_⟩
      rw [List.map_cons, haddrs]
      rfl

variable [DecidableEq Addr]

/-- What happens at another address does not matter. -/
theorem LinkedFrom.update (h : LinkedFrom next heap p nodes) {addr : Addr}
    (haddr : addr ∉ nodes.map Prod.fst) (content : Option Node) :
    LinkedFrom next (Function.update heap addr content) p nodes := by
  induction h with
  | nil => exact LinkedFrom.nil
  | @cons first node rest hstored _ ih =>
      obtain ⟨hne, hrest⟩ := not_or.mp fun hmem => haddr (List.mem_cons.mpr hmem)
      refine LinkedFrom.cons ?_ (ih hrest)
      rw [Function.update_of_ne (Ne.symm hne)]
      exact hstored

/-- Free one node after another, following the links: the nodes that are freed, and the memory
then.  There is no result when the pointer leads to a node that has been freed, or when the passes
are used up. -/
def free (next : Node → Option Addr) : ℕ → (Addr → Option Node) → Option Addr →
    Option (List (Addr × Node) × (Addr → Option Node))
  | _, heap, none => some ([], heap)
  | 0, _, some _ => none
  | passes + 1, heap, some addr =>
      (heap addr).bind fun node =>
        (free next passes (Function.update heap addr none) (next node)).map fun rest =>
          ((addr, node) :: rest.1, rest.2)

/-- Of a list at different addresses each node is freed, once, and nothing else. -/
theorem LinkedFrom.free (h : LinkedFrom next heap p nodes) (hnodup : (nodes.map Prod.fst).Nodup)
    {passes : ℕ}
    (hpasses : nodes.length ≤ passes) :
    free next passes heap p =
      some (nodes, fun addr => if addr ∈ nodes.map Prod.fst then none else heap addr) := by
  induction nodes generalizing heap p passes with
  | nil =>
      cases h
      simp [Chain.free]
  | cons entry rest ih =>
      cases h with
      | @cons addr node _ hstored hrest =>
          obtain ⟨hnotmem, hnodup⟩ := List.nodup_cons.mp hnodup
          obtain ⟨passes, rfl⟩ : ∃ before, passes = before + 1 :=
            ⟨passes - 1, by rw [List.length_cons] at hpasses; omega⟩
          have hfreed := ih (hrest.update hnotmem none) hnodup (Nat.le_of_succ_le_succ hpasses)
          rw [Chain.free, hstored, Option.bind_some, hfreed, Option.map_some]
          refine congrArg (fun left => some ((addr, node) :: rest, left)) (funext fun other => ?_)
          show (if other ∈ rest.map Prod.fst then none else Function.update heap addr none other) =
            if other ∈ addr :: rest.map Prod.fst then none else heap other
          by_cases heq : other = addr
          · simp [heq]
          · have hmem : other ∈ addr :: rest.map Prod.fst ↔ other ∈ rest.map Prod.fst := by
              simp [heq]
            rw [Function.update_of_ne heq]
            exact if_congr hmem.symm rfl rfl

end Chain
