import Mathlib.Algebra.GroupWithZero.Nat
import Sok.Vectors.Histories

/-!
# The books of a program with vectors

How many objects a vector moves when it grows, and what becomes of the objects.  Growing is paid for
by the elements that have been appended since the last time, with three moves for each.  Every
object is destroyed once, with its array, but for those that `emplace_back` constructs another one
on: for each of its calls one object is never destroyed.

## Strategy

The credit of a vector is three for each element less two for each cell of its array, so
when the array is full it is enough to move all the elements (`credit_append`), and the
moves so far and the credit together grow by at most three for each append.  For the
objects, `Sound` keeps the account of all that were constructed: those in the arrays, those
destroyed, and those overwritten by `emplace_back`.  A call changes one vector, and
`Sound.replace` reduces it to the objects of that one.
-/

namespace Sok.Mstd

variable {α : Type*} {e : Element α}

/-! ## Credit -/

/-- What the elements have paid in advance for the next growth. -/
def Vector.credit (v : Vector α) : ℕ :=
  if v.data.isEmpty then 0 else 3 * v.size - 2 * v.capacity

def Program.credit (p : Program α) : ℕ := (p.vectors.map Vector.credit).sum

theorem sum_map_set {β : Type*} {f : β → ℕ} {l : List β} {n : ℕ} {a : β} (h : l[n]? = some a)
    (b : β) : ((l.set n b).map f).sum + f a = (l.map f).sum + f b := by
  obtain ⟨hlt, rfl⟩ := List.getElem?_eq_some_iff.mp h
  obtain ⟨front, back, hsplit, -, hset⟩ := @List.exists_of_set _ n b l hlt
  have hsum := congrArg (fun l => (l.map f).sum) hsplit
  simp only [hset, List.map_append, List.map_cons, List.sum_append, List.sum_cons] at hsum ⊢
  omega

/-- Each append pays for three moves. -/
theorem credit_append {size capacity : ℕ} (hcapacity : capacity = capacityFor size) :
    (if size = capacity then size else 0) + (3 * (size + 1) - 2 * capacityFor (size + 1)) ≤
      (3 * size - 2 * capacity) + 3 := by
  subst hcapacity
  rw [capacityFor]
  by_cases hfull : capacityFor size = size
  · have hgrow : 3 * size ≤ 2 * grow size := by
      unfold grow
      split <;> omega
    rw [if_pos hfull.symm, if_pos hfull]
    omega
  · have hsize := le_capacityFor size
    have hle := two_mul_capacityFor_le size
    rw [if_neg (Ne.symm hfull), if_neg hfull]
    omega

/-- What a call leaves in the books. -/
structure Program.Books (p next : Program α) (appended emplaced : ℕ) : Prop where
  sound : next.Sound
  moved : next.moved + next.credit ≤ p.moved + p.credit + 3 * appended
  overwritten : next.overwritten.length = p.overwritten.length + emplaced

namespace Program

variable {p : Program α}

/-- A vector is replaced by one with the same credit, and no object comes or goes. -/
theorem Sound.replace (h : p.Sound) {target : ℕ} {v w : Vector α} (hv : p.vectors[target]? = some v)
    (hw : w.Formed) (hcredit : w.credit = v.credit)
    (hids : w.data.map Object.id = v.data.map Object.id) {seen : List α} :
    p.Books { p with vectors := p.vectors.set target w, seen := seen } 0 0 := by
  refine ⟨⟨fun other hother => ?_, ?_⟩, ?_, rfl⟩
  · rcases List.mem_or_eq_of_mem_set hother with hmem | rfl
    · exact h.formed other hmem
    · exact hw
  · refine h.accounted.replace hv rfl ?_
    rw [hids]
  · have hsum := sum_map_set (f := Vector.credit) hv w
    unfold credit
    dsimp only
    omega

theorem credit_eq_of_cells {v : Vector α} (h : v.Formed) (hcells : v.data.length = v.capacity) :
    v.credit = 3 * v.size - 2 * v.capacity := by
  rw [Vector.credit]
  split
  · next hnil =>
      rw [List.isEmpty_iff.mp hnil, List.length_nil] at hcells
      have hle := le_capacityFor v.size
      have hcapacity := h.1
      omega
  · rfl

/-- What has been appended is in the books. -/
theorem Appended.books (h : p.Sound) {target : ℕ} {v w : Vector α} {value : α} {next : Program α}
    (hv : p.vectors[target]? = some v) (hcells : v.data.length = v.capacity)
    (hnext : p.Appended target v value next w) :
    next.Sound ∧ next.moved + next.credit ≤ p.moved + p.credit + 3 := by
  have hformed := h.formed v (List.mem_of_getElem? hv)
  refine ⟨⟨fun other hother => ?_, hnext.accounted⟩, ?_⟩
  · rw [hnext.vectors] at hother
    rcases List.mem_or_eq_of_mem_set hother with hmem | rfl
    · exact h.formed other hmem
    · exact hnext.formed
  · have hsum := sum_map_set (f := Vector.credit) hv w
    have hpaid := credit_append hformed.1
    have hbefore := credit_eq_of_cells hformed hcells
    have hbehind := credit_eq_of_cells hnext.formed hnext.cells
    rw [hnext.capacity, hnext.size] at hbehind
    unfold credit
    rw [hnext.vectors, hnext.moved]
    omega

/-- The calls that append, where `count` objects are overwritten. -/
theorem Sound.append_books (h : p.Sound)
    {place : Program α → Object α → α → Program α × Object α}
    (hplace : ∀ (p : Program α) object value,
      p.Placed object value (place p object value).1 (place p object value).2)
    {count : ℕ} (hcount : ∀ (p : Program α) object value,
      (place p object value).1.overwritten.length = p.overwritten.length + count)
    {target : ℕ} {argument : Argument α} {granted : Bool} {next : Program α}
    (hnext : (p.vectors[target]?.bind fun v => (p.refer argument).map fun reference =>
      reference.bind fun reference => p.append place e target v reference granted) =
        some (.ok next)) : p.Books next 1 count := by
  obtain ⟨v, hv, hnext⟩ := Option.bind_eq_some_iff.mp hnext
  rcases h.refer_cases argument with ⟨hrefer, -⟩ | ⟨failure, hrefer, -⟩ |
    ⟨reference, value, hrefer, -, hrefers⟩
  · rw [hrefer] at hnext
    exact absurd hnext (by simp)
  · rw [hrefer] at hnext
    exact absurd (Option.some.inj hnext) (by simp [Except.bind])
  · rw [hrefer, Option.map_some] at hnext
    have hnext : p.append place e target v reference granted = .ok next := Option.some.inj hnext
    rcases h.append_cases (e := e) hplace hv hrefers granted with
      ⟨failure, happend, -⟩ | ⟨other, w, happend, happended, hcells, -, q, object, hq, hother⟩
    · exact absurd (hnext.symm.trans happend) (by simp)
    · obtain rfl : next = other := Except.ok.inj (hnext.symm.trans happend)
      obtain ⟨hsound, hmoved⟩ := happended.books h hv hcells
      refine ⟨hsound, hmoved, ?_⟩
      rw [hother, hcount, hq]

theorem Sound.refl (h : p.Sound) : p.Books p 0 0 :=
  ⟨h, le_rfl, rfl⟩

theorem Sound.see (h : p.Sound) (seen : List α) : p.Books { p with seen := seen } 0 0 :=
  ⟨⟨h.formed, h.accounted⟩, le_rfl, rfl⟩

theorem Sound.assignAt (h : p.Sound) {target index : ℕ} {v : Vector α} {object : Object α}
    (hv : p.vectors[target]? = some v) (hobject : v.subscript index = .ok object) (value : α) :
    p.Books { p with
      vectors := p.vectors.set target
        { v with data := v.data.set index { object with value := value } } } 0 0 := by
  obtain ⟨hcapacity, hdata⟩ := h.formed v (List.mem_of_getElem? hv)
  obtain ⟨hlt, hget⟩ := List.getElem?_eq_some_iff.mp (Vector.mem_of_subscript hobject).2
  have hempty : (v.data.set index { object with value := value }).isEmpty = v.data.isEmpty := by
    rw [Bool.eq_iff_iff, List.isEmpty_iff, List.isEmpty_iff, List.set_eq_nil_iff]
  refine h.replace (w := { v with data := v.data.set index { object with value := value } }) hv
    ⟨hcapacity, ?_⟩ ?_ (map_id_set hlt (by rw [hget]))
  · refine hdata.imp (fun hnil => ?_) fun hlength => ?_
    · rw [hnil] at hlt
      exact absurd hlt (Nat.not_lt_zero _)
    · exact List.length_set.trans hlength
  · unfold Vector.credit
    rw [hempty]

theorem Sound.construct (h : p.Sound) :
    p.Books { p with vectors := p.vectors ++ [Vector.construct] } 0 0 := by
  refine ⟨⟨fun v hv => ?_, ?_⟩, ?_, rfl⟩
  · rcases List.mem_append.mp hv with hmem | hnew
    · exact h.formed v hmem
    · obtain rfl := List.mem_singleton.mp hnew
      exact ⟨rfl, Or.inl rfl⟩
  · have hobjects : objects { p with vectors := p.vectors ++ [Vector.construct] } = p.objects := by
      unfold objects
      rw [List.flatMap_append]
      exact List.append_nil _
    unfold Accounted
    rw [hobjects]
    exact h.accounted
  · unfold credit
    rw [List.map_append, List.sum_append]
    exact le_rfl

theorem Sound.moveConstruct (h : p.Sound) {other : ℕ} {v : Vector α}
    (hv : p.vectors[other]? = some v) :
    p.Books { p with vectors := p.vectors.set other v.movedFrom ++ [v] } 0 0 := by
  have hformed := h.formed v (List.mem_of_getElem? hv)
  refine ⟨⟨fun w hw => ?_, List.perm_iff_count.mpr fun id => ?_⟩, ?_, rfl⟩
  · rcases List.mem_append.mp hw with hmem | hnew
    · rcases List.mem_or_eq_of_mem_set hmem with hold | rfl
      · exact h.formed w hold
      · exact hformed.movedFrom
    · exact List.mem_singleton.mp hnew ▸ hformed
  · obtain ⟨others, hbefore, hbehind⟩ := objects_set hv v.movedFrom
    have hbefore := (hbefore.map Object.id).count_eq id
    have hbehind := (hbehind.map Object.id).count_eq id
    have hall := List.perm_iff_count.mp h.accounted id
    unfold objects at hall ⊢
    simp only [Vector.movedFrom, List.flatMap_append, List.flatMap_singleton, List.map_append,
      List.count_append, List.nil_append] at *
    omega
  · have hsum := sum_map_set (f := Vector.credit) hv v.movedFrom
    have hnone : v.movedFrom.credit = 0 := rfl
    unfold credit
    rw [List.map_append, List.sum_append, List.map_singleton, List.sum_singleton]
    dsimp only
    omega

theorem Sound.moveAssign (h : p.Sound) {target other : ℕ} {old v : Vector α}
    (hold : p.vectors[target]? = some old) (hv : p.vectors[other]? = some v)
    (hne : target ≠ other) :
    p.Books { p.deleteArray old.data with
      vectors := (p.vectors.set other v.movedFrom).set target v } 0 0 := by
  have hformed := h.formed v (List.mem_of_getElem? hv)
  have hold' : (p.vectors.set other v.movedFrom)[target]? = some old := by
    rw [List.getElem?_set_ne (Ne.symm hne)]
    exact hold
  refine ⟨⟨fun w hw => ?_, List.perm_iff_count.mpr fun id => ?_⟩, ?_, rfl⟩
  · rcases List.mem_or_eq_of_mem_set hw with hmem | rfl
    · rcases List.mem_or_eq_of_mem_set hmem with hmem | rfl
      · exact h.formed w hmem
      · exact hformed.movedFrom
    · exact hformed
  · obtain ⟨others, hbefore, hbehind⟩ := objects_set hv v.movedFrom
    obtain ⟨others', hbefore', hbehind'⟩ := objects_set hold' v
    have hbefore := (hbefore.map Object.id).count_eq id
    have hbehind := (hbehind.map Object.id).count_eq id
    have hbefore' := (hbefore'.map Object.id).count_eq id
    have hbehind' := (hbehind'.map Object.id).count_eq id
    have hall := List.perm_iff_count.mp h.accounted id
    unfold objects at hall ⊢
    simp only [Vector.movedFrom, deleteArray, List.map_append, List.count_append,
      List.count_reverse, List.nil_append] at *
    omega
  · have hsum := sum_map_set (f := Vector.credit) hv v.movedFrom
    have hsum' := sum_map_set (f := Vector.credit) hold' v
    have hnone : v.movedFrom.credit = 0 := rfl
    unfold credit
    dsimp only [deleteArray]
    omega

end Program

namespace VectorCall

/-- One call of `push_back` or `emplace_back`. -/
def appends : VectorCall α → ℕ
  | .pushBack _ _ => 1
  | .emplaceBack _ _ => 1
  | _ => 0

/-- One call of `emplace_back`. -/
def emplaces : VectorCall α → ℕ
  | .emplaceBack _ _ => 1
  | _ => 0

end VectorCall

theorem exists_of_map_eq_ok {β γ ε : Type*} {f : β → γ} {result : Except ε β} {c : γ}
    (h : result.map f = .ok c) : ∃ b, result = .ok b ∧ f b = c := by
  cases result with
  | error failure => exact absurd h (by simp [Except.map])
  | ok b => exact ⟨b, rfl, Except.ok.inj h⟩

/-- The books behind a call that returns. -/
theorem books_of_outcome {p next : Program α} (h : p.Sound) {call : VectorCall α} {granted : Bool}
    (hnext : call.outcome e p granted = some (.ok next)) :
    p.Books next call.appends call.emplaces := by
  cases call with
  | construct =>
      obtain rfl := Except.ok.inj (Option.some.inj hnext)
      exact h.construct
  | pushBack target argument =>
      exact h.append_books Program.placed_assign (fun _ _ _ => rfl) hnext
  | emplaceBack target argument =>
      refine h.append_books Program.placed_constructAt (fun p object value => ?_) hnext
      rw [Program.constructAt, List.length_append]
      rfl
  | assignAt target index value =>
      obtain ⟨v, hv, hnext⟩ := Option.map_eq_some_iff.mp hnext
      obtain ⟨object, hobject, rfl⟩ := exists_of_map_eq_ok hnext
      exact h.assignAt hv hobject value
  | readAt target index =>
      obtain ⟨_, _, hnext⟩ := Option.map_eq_some_iff.mp hnext
      obtain ⟨object, -, rfl⟩ := exists_of_map_eq_ok hnext
      exact h.see _
  | visit target =>
      obtain ⟨_, _, hnext⟩ := Option.map_eq_some_iff.mp hnext
      obtain ⟨values, -, rfl⟩ := exists_of_map_eq_ok hnext
      exact h.see _
  | moveConstruct other =>
      obtain ⟨v, hv, hnext⟩ := Option.map_eq_some_iff.mp hnext
      obtain rfl := Except.ok.inj hnext
      exact h.moveConstruct hv
  | moveAssign target other =>
      obtain ⟨old, hold, hnext⟩ := Option.bind_eq_some_iff.mp hnext
      obtain ⟨v, hv, hnext⟩ := Option.map_eq_some_iff.mp hnext
      obtain rfl := Except.ok.inj hnext
      split
      · exact h.refl
      · next hne => exact h.moveAssign hold hv hne

/-! ## Whole programs -/

theorem sound_start : (Program.start : Program α).Sound :=
  ⟨fun _ hv => absurd hv List.not_mem_nil, List.Perm.refl _⟩

theorem step_lists {p : Program α} (h : p.Sound) (label : VectorCall α × Bool) :
    ((vectorSystem e).step p label).map Program.lists = listSystem.step p.lists label := by
  show ((label.1.outcome e p label.2).bind p.behind).map _ = (p.lists.outcome _ _).bind _
  rw [← outcome_lists (e := e) h label.1 label.2]
  cases label.1.outcome e p label.2 with
  | none => rfl
  | some result =>
      cases result with
      | ok next => rfl
      | error failure => cases failure <;> rfl

/-- Counts a call, if it returns. -/
def VectorCall.returns (e : Element α) (kind : VectorCall α → ℕ) (p : Program α)
    (label : VectorCall α × Bool) : ℕ :=
  match label.1.outcome e p label.2 with
  | some (.ok _) => kind label.1
  | _ => 0

/-- The calls of a kind that return. -/
def returned (e : Element α) (kind : VectorCall α → ℕ) :
    Program α → List (VectorCall α × Bool) → ℕ
  | _, [] => 0
  | p, label :: rest =>
      VectorCall.returns e kind p label +
        ((vectorSystem e).step p label).elim 0 fun next => returned e kind next rest

/-- A call returns, or leaves everything as it was. -/
theorem step_cases {p next : Program α} {label : VectorCall α × Bool}
    (h : (vectorSystem e).step p label = some next) :
    label.1.outcome e p label.2 = some (.ok next) ∨
      next = p ∧ ∃ exception, label.1.outcome e p label.2 = some (.error (.throws exception)) := by
  obtain ⟨result, hresult, hnext⟩ := Option.bind_eq_some_iff.mp h
  cases result with
  | ok other =>
      obtain rfl := Option.some.inj hnext
      exact Or.inl hresult
  | error failure =>
      cases failure with
      | throws exception => exact Or.inr ⟨(Option.some.inj hnext).symm, exception, hresult⟩
      | undefined => exact absurd hnext (by simp [Program.behind])

theorem books_of_step {p next : Program α} {label : VectorCall α × Bool} (h : p.Sound)
    (hstep : (vectorSystem e).step p label = some next) :
    p.Books next (VectorCall.returns e VectorCall.appends p label)
      (VectorCall.returns e VectorCall.emplaces p label) := by
  unfold VectorCall.returns
  rcases step_cases hstep with hok | ⟨rfl, exception, hthrows⟩
  · rw [hok]
    exact books_of_outcome h hok
  · rw [hthrows]
    exact h.refl

theorem books_of_exec {p final : Program α} (h : p.Sound) {calls : List (VectorCall α × Bool)}
    (hexec : (vectorSystem e).exec p calls = some final) :
    p.Books final (returned e VectorCall.appends p calls)
      (returned e VectorCall.emplaces p calls) := by
  induction calls generalizing p with
  | nil =>
      obtain rfl := Option.some.inj hexec
      exact h.refl
  | cons label rest ih =>
      obtain ⟨next, hstep, hrest⟩ := Option.bind_eq_some_iff.mp hexec
      have hfirst := books_of_step h hstep
      have hlater := ih hfirst.sound hrest
      have hmoved := hlater.moved
      have hmoved' := hfirst.moved
      refine ⟨hlater.sound, ?_, ?_⟩
      · rw [returned, hstep, Option.elim_some]
        omega
      · rw [returned, hstep, Option.elim_some, hlater.overwritten, hfirst.overwritten, Nat.add_assoc]

/-- The destructors destroy what is left in the arrays. -/
theorem destroyAll_destroyed (p : Program α) :
    p.destroyAll.destroyed.Perm (p.objects.map Object.id ++ p.destroyed) := by
  have hfold : ∀ (vectors : List (Vector α)) (p : Program α),
      (vectors.foldl (fun p v => p.deleteArray v.data) p).destroyed.Perm
        ((vectors.flatMap Vector.data).map Object.id ++ p.destroyed) := by
    intro vectors
    induction vectors with
    | nil => exact fun p => List.Perm.refl _
    | cons v vectors ih =>
        intro p
        refine List.perm_iff_count.mpr fun id => ?_
        have hrest := (ih (p.deleteArray v.data)).count_eq id
        simp only [Program.deleteArray, List.foldl_cons, List.flatMap_cons, List.map_append,
          List.count_append, List.count_reverse] at hrest ⊢
        omega
  exact hfold p.vectors p

/-- **Vectors do what lists do.**  Whatever calls a program makes and however the allocator answers,
it goes as far as with lists, with the same contents and the same values read: it comes to something
undefined exactly where it uses elements that have been moved away, or appends an element of a
vector to the vector itself when that is full and grows.  And a vector is full exactly at the sizes
0, 1, 2, 3, 5, 8, 12 and so on. -/
theorem vectors_are_lists (e : Element α) (calls : List (VectorCall α × Bool)) :
    ((vectorSystem e).exec Program.start calls).map Program.lists =
        listSystem.exec ⟨[], []⟩ calls ∧
      ∀ final ∈ (vectorSystem e).exec Program.start calls, ∀ v ∈ final.vectors,
        v.contents.size = v.size ∧ (v.size = v.capacity ↔ Full v.size) := by
  refine ⟨Transition.System.exec_map_of_step (fun p label h => step_lists h label)
    (fun p label next h hstep => (books_of_step h hstep).sound) sound_start calls,
    fun final hfinal v hv => ?_⟩
  have hformed := (books_of_exec sound_start hfinal).sound.formed v hv
  exact ⟨hformed.size_contents, hformed.full_iff.symm⟩

/-- **What becomes of the objects.**  When a program ends, every object that has been constructed
has been destroyed once, or has been overwritten by `emplace_back` and is never destroyed; there is
one of those for every call of `emplace_back` that has returned.  No more than three objects have
been moved for each element appended, and no array has more than half as many cells again as it has
elements. -/
theorem objects_destroyed {calls : List (VectorCall α × Bool)} {final : Program α}
    (h : (vectorSystem e).exec Program.start calls = some final) :
    (final.destroyAll.destroyed ++ final.overwritten).Perm (List.range final.created) ∧
      final.overwritten.length = returned e VectorCall.emplaces Program.start calls ∧
      final.moved ≤ 3 * returned e VectorCall.appends Program.start calls ∧
      ∀ v ∈ final.vectors, 2 * v.capacity ≤ 3 * v.size := by
  have hbooks := books_of_exec sound_start h
  refine ⟨?_, ?_, ?_, fun v hv => ?_⟩
  · refine ((destroyAll_destroyed final).append_right _).trans ?_
    rw [List.append_assoc]
    exact hbooks.sound.accounted
  · exact hbooks.overwritten.trans (Nat.zero_add _)
  · have hmoved : final.moved + final.credit ≤ 0 + 0 + 3 * _ := hbooks.moved
    omega
  · rw [(hbooks.sound.formed v hv).1]
    exact two_mul_capacityFor_le v.size

/-- A vector of numbers with three elements, the first of which is emplaced. -/
def threeElements : List (VectorCall ℕ × Bool) :=
  [(.construct, true), (.emplaceBack 0 (.value 7), true), (.pushBack 0 (.value 8), true),
    (.pushBack 0 (.value 9), true)]

theorem objects_destroyed_three : ∃ final : Program ℕ,
    (vectorSystem ⟨0, id⟩).exec Program.start threeElements = some final ∧
      (final.destroyAll.destroyed ++ final.overwritten).Perm (List.range 7) ∧
      final.overwritten.length = 1 := by
  have hrun : ((vectorSystem ⟨0, id⟩).exec Program.start threeElements).map Program.created =
      some 7 := by
    decide +kernel
  have hemplaced : returned ⟨0, id⟩ VectorCall.emplaces Program.start threeElements = 1 := by
    decide +kernel
  obtain ⟨final, hexec, hcreated⟩ := Option.map_eq_some_iff.mp hrun
  obtain ⟨hdestroyed, hoverwritten, -⟩ := objects_destroyed hexec
  rw [hcreated] at hdestroyed
  exact ⟨final, hexec, hdestroyed, hoverwritten.trans hemplaced⟩

/-- Its own first element cannot be appended to it now. -/
example : ((vectorSystem ⟨0, id⟩).exec Program.start
    (threeElements ++ [(.pushBack 0 (.element 0 0), true)])).isNone = true := by
  decide +kernel

end Sok.Mstd
