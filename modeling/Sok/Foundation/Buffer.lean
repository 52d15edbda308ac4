import Mathlib.Data.List.Infix
import Mathlib.Order.Nat

/-!
# Terminated sequences in buffers

A buffer is a list whose length does not change.  `copyInto` and `store` are the two
ways to write into it, and have no result out of bounds.

A buffer holds a sequence when it begins with it, and the terminator stands behind it.
The sequence is copied as a whole with its terminator (`holds_copyInto`), cut off by storing
a terminator within it (`holds_store`), and a slice of it becomes a sequence by
both (`holds_slice`).
-/

namespace Buffer

variable {β : Type*} {zero : β} {buffer dst src after : List β} {contents : List β}

/-- Copy `count` elements of `src`, from `start` on, to the front of `dst`. -/
def copyInto (dst src : List β) (start count : ℕ) : Option (List β) :=
  if count ≤ dst.length ∧ start + count ≤ src.length then
    some ((src.drop start).take count ++ dst.drop count)
  else none

/-- Write one element. -/
def store (dst : List β) (index : ℕ) (value : β) : Option (List β) :=
  if index < dst.length then some (dst.set index value) else none

/-- The buffer begins with the sequence, and the terminator stands behind it. -/
def Holds (zero : β) (buffer contents : List β) : Prop :=
  contents ++ [zero] <+: buffer

theorem copyInto_eq {start count : ℕ} (hdst : count ≤ dst.length)
    (hsrc : start + count ≤ src.length) :
    copyInto dst src start count = some ((src.drop start).take count ++ dst.drop count) :=
  if_pos ⟨hdst, hsrc⟩

theorem copyInto_eq_none {start count : ℕ} (h : dst.length < count) :
    copyInto dst src start count = none :=
  if_neg fun hbounds => not_lt.mpr hbounds.1 h

theorem length_copyInto {start count : ℕ} (h : copyInto dst src start count = some after) :
    after.length = dst.length := by
  obtain ⟨hbounds, heq⟩ := Option.ite_none_right_eq_some.mp h
  obtain rfl := Option.some.inj heq
  obtain ⟨hdst, hsrc⟩ := hbounds
  rw [List.length_append, List.length_take, List.length_drop, List.length_drop]
  omega

theorem length_store {index : ℕ} {value : β} (h : store dst index value = some after) :
    after.length = dst.length := by
  obtain ⟨-, heq⟩ := Option.ite_none_right_eq_some.mp h
  obtain rfl := Option.some.inj heq
  exact List.length_set

/-! ## Sequences -/

theorem Holds.length_lt (h : Holds zero buffer contents) : contents.length < buffer.length := by
  have hle := h.length_le
  rwa [List.length_append] at hle

theorem Holds.take_eq (h : Holds zero buffer contents) :
    buffer.take contents.length = contents := by
  obtain ⟨rest, rfl⟩ := h
  rw [List.append_assoc, List.take_left]

theorem holds_iff {n : ℕ} (hn : n < buffer.length) :
    Holds zero buffer (buffer.take n) ↔ buffer[n]? = some zero := by
  rw [Holds, List.getElem?_eq_getElem hn, Option.some_inj]
  constructor
  · intro h
    have hlength : (buffer.take n ++ [zero]).length = n + 1 := by
      rw [List.length_append, List.length_take, Nat.min_eq_left hn.le, List.length_singleton]
    have htake := List.prefix_iff_eq_take.mp h
    rw [hlength, List.take_add_one, List.getElem?_eq_getElem hn] at htake
    exact (List.cons.inj (List.append_cancel_left htake)).1.symm
  · intro h
    rw [← h, List.take_append_getElem hn]
    exact List.take_prefix _ _

theorem holds_copyInto (h : Holds zero src contents) (hdst : contents.length < dst.length) :
    ∃ after, copyInto dst src 0 (contents.length + 1) = some after ∧ after.length = dst.length ∧
      Holds zero after contents := by
  have hsrc := h.length_lt
  have hcopy : copyInto dst src 0 (contents.length + 1) = _ := copyInto_eq hdst (by omega)
  refine ⟨_, hcopy, length_copyInto hcopy, ?_⟩
  have hlength : (contents ++ [zero]).length = contents.length + 1 := List.length_append
  rw [Holds, List.drop_zero, ← hlength, ← List.prefix_iff_eq_take.mp h]
  exact List.prefix_append _ _

theorem holds_store (zero : β) {index : ℕ} (h : index < dst.length) :
    ∃ after, store dst index zero = some after ∧ after.length = dst.length ∧
      Holds zero after (dst.take index) := by
  have hstore : store dst index zero = some (dst.set index zero) := if_pos h
  have hlength := length_store hstore
  have htake : (dst.set index zero).take index = dst.take index := List.take_set_of_le le_rfl
  refine ⟨_, hstore, hlength, ?_⟩
  rw [← htake, holds_iff (hlength ▸ h)]
  exact List.getElem?_set_self h

theorem holds_slice (zero : β) {start count : ℕ} (hsrc : start + count ≤ src.length)
    (hdst : count < dst.length) :
    ∃ middle after, copyInto dst src start count = some middle ∧
      store middle count zero = some after ∧ after.length = dst.length ∧
      Holds zero after ((src.drop start).take count) := by
  have hcopy := copyInto_eq hdst.le hsrc
  have hlength := length_copyInto hcopy
  obtain ⟨after, hstore, hafter, hholds⟩ := holds_store zero (hlength ▸ hdst)
  have hslice : ((src.drop start).take count).length = count := by
    rw [List.length_take, List.length_drop]
    omega
  rw [List.take_left' hslice] at hholds
  exact ⟨_, after, hcopy, hstore, hafter.trans hlength, hholds⟩

theorem holds_set (h : Holds zero buffer contents) {index : ℕ} (hindex : index < contents.length)
    (value : β) :
    ∃ after, store buffer index value = some after ∧ after.length = buffer.length ∧
      Holds zero after (contents.set index value) := by
  have hstore : store buffer index value = some (buffer.set index value) :=
    if_pos (hindex.trans h.length_lt)
  refine ⟨_, hstore, length_store hstore, ?_⟩
  obtain ⟨rest, rfl⟩ := h
  refine ⟨rest, ?_⟩
  rw [List.append_assoc, List.append_assoc, List.set_append_left _ _ hindex]

/-- What is read up to the first terminator lies within the sequence. -/
theorem Holds.takeWhile_ne [DecidableEq β] (h : Holds zero buffer contents) :
    buffer.takeWhile (· ≠ zero) = contents.takeWhile (· ≠ zero) := by
  obtain ⟨rest, rfl⟩ := h
  induction contents with
  | nil => simp
  | cons first contents ih =>
      by_cases hzero : first = zero
      · simp [hzero]
      · simp only [List.cons_append, List.takeWhile_cons, hzero, ne_eq, not_false_eq_true,
          decide_true, if_true]
        rw [ih]

theorem Holds.mem_terminator (h : Holds zero buffer contents) : zero ∈ buffer :=
  h.subset (List.mem_append_right _ (List.mem_singleton_self zero))

end Buffer
