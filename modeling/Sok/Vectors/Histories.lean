import Sok.Foundation.Simulation
import Sok.Vectors.Representation

/-!
# What a program sees of its vectors

A vector is for the list of its elements.  A program with vectors does the same as one with lists,
call by call, with the same exceptions, up to what is undefined: a vector cannot be used when its
elements have been moved away, unless there were none, and an element cannot be appended to its own
vector when that is full and has to grow.  Its size alone says whether it is full.

## Strategy

`Contents` is what a vector is for, and `Formed.cases` says which contents a vector has:
the elements, or none because they have been moved away.  Each call is compared on its own
(`outcome_lists`): reading by `Formed.subscript` and `Formed.visit`, writing by
`contents_assign`, and appending by the ways in which `push_back` can end
(`Sound.append_cases`).  Only the last depends on the allocator, and on whether the
argument lies in the vector that grows.
-/

namespace Sok.Mstd

variable {α : Type*} {e : Element α}

/-! ## Lists -/

/-- What a vector holds: a list, or nothing any more and the size that it had. -/
inductive Contents (α : Type*)
  | items (values : List α)
  | movedAway (size : ℕ)

namespace Contents

def size : Contents α → ℕ
  | items values => values.length
  | movedAway size => size

/-- All elements. -/
def all : Contents α → Except Failure (List α)
  | items values => .ok values
  | movedAway _ => .error .undefined

/-- An element. -/
def item (c : Contents α) (index : ℕ) : Except Failure α :=
  if c.size ≤ index then .error (.throws indexOutOfRange)
  else c.all.bind fun values => values[index]?.elim (.error .undefined) .ok

/-- One more element, which may be one of the list itself. -/
def append (c : Contents α) (own : Bool) (value : α) (granted : Bool) :
    Except Failure (Contents α) :=
  if Full c.size ∧ granted = false then .error (.throws .badAlloc)
  else c.all.bind fun values =>
    if Full c.size ∧ own = true then .error .undefined else .ok (items (values ++ [value]))

def replace (index : ℕ) (value : α) : Contents α → Contents α
  | items values => items (values.set index value)
  | movedAway size => movedAway size

/-- What is left when the elements are moved away. -/
def left (c : Contents α) : Contents α :=
  if c.size = 0 then c else movedAway c.size

end Contents

/-- The lists of a program, and the values it has read. -/
structure Lists (α : Type*) where
  contents : List (Contents α)
  seen : List α

namespace Lists

/-- The value of an argument. -/
def value (s : Lists α) : Argument α → Option (Except Failure α)
  | .value value => some (.ok value)
  | .element vector index => s.contents[vector]?.map fun c => c.item index

/-- The argument is an element of the vector. -/
def own (target : ℕ) : Argument α → Bool
  | .value _ => false
  | .element vector _ => vector = target

def append (s : Lists α) (target : ℕ) (argument : Argument α) (granted : Bool) :
    Option (Except Failure (Lists α)) :=
  s.contents[target]?.bind fun c => (s.value argument).map fun value => value.bind fun value =>
    (c.append (own target argument) value granted).map fun c =>
      { s with contents := s.contents.set target c }

/-- How a call ends. -/
def outcome (s : Lists α) (granted : Bool) :
    VectorCall α → Option (Except Failure (Lists α))
  | .construct => some (.ok { s with contents := s.contents ++ [.items []] })
  | .pushBack target argument => s.append target argument granted
  | .emplaceBack target argument => s.append target argument granted
  | .assignAt target index value => s.contents[target]?.map fun c =>
      (c.item index).map fun _ => { s with contents := s.contents.set target (c.replace index value) }
  | .readAt target index => s.contents[target]?.map fun c =>
      (c.item index).map fun value => { s with seen := s.seen ++ [value] }
  | .visit target => s.contents[target]?.map fun c =>
      c.all.map fun values => { s with seen := s.seen ++ values }
  | .moveConstruct other => s.contents[other]?.map fun c =>
      .ok { s with contents := s.contents.set other c.left ++ [c] }
  | .moveAssign target other => s.contents[target]?.bind fun _ => s.contents[other]?.map fun c =>
      .ok <| if target = other then s else
        { s with contents := (s.contents.set other c.left).set target c }

/-- The lists behind a call, if the program goes on. -/
def behind (s : Lists α) : Except Failure (Lists α) → Option (Lists α)
  | .ok next => some next
  | .error (.throws _) => some s
  | .error .undefined => none

end Lists

/-- A program with lists. -/
def listSystem : Transition.System (Lists α) (VectorCall α × Bool) where
  init s := s = ⟨[], []⟩
  step s label := (s.outcome label.2 label.1).bind s.behind

/-! ## The lists of the vectors -/

/-- What a vector holds. -/
def Vector.contents (v : Vector α) : Contents α :=
  if v.data.isEmpty = true ∧ v.size ≠ 0 then .movedAway v.size
  else .items ((v.data.take v.size).map Object.value)

def Program.lists (p : Program α) : Lists α where
  contents := p.vectors.map Vector.contents
  seen := p.seen

namespace Vector

variable {v : Vector α}

theorem Formed.cases (h : v.Formed) :
    (v.data.length = v.capacity ∧ v.size ≤ v.data.length ∧
        v.contents = .items ((v.data.take v.size).map Object.value)) ∨
      (v.data = [] ∧ v.size ≠ 0 ∧ v.contents = .movedAway v.size) := by
  obtain ⟨hcapacity, hdata⟩ := h
  have hle := le_capacityFor v.size
  by_cases hsize : v.size = 0
  · left
    have hnone : v.capacity = 0 := by rw [hcapacity, hsize]; rfl
    refine ⟨?_, by omega, if_neg fun hmoved => hmoved.2 hsize⟩
    rcases hdata with hnil | hlength
    · rw [hnil, hnone]
      rfl
    · exact hlength
  · rcases hdata with hnil | hlength
    · exact Or.inr ⟨hnil, hsize, if_pos ⟨by rw [hnil]; rfl, hsize⟩⟩
    · refine Or.inl ⟨hlength, by omega, if_neg fun hmoved => hsize ?_⟩
      have hnil := List.isEmpty_iff.mp hmoved.1
      rw [hnil, List.length_nil] at hlength
      omega

theorem Formed.size_contents (h : v.Formed) : v.contents.size = v.size := by
  rcases h.cases with ⟨-, hle, hcontents⟩ | ⟨-, -, hcontents⟩
  · rw [hcontents, Contents.size, List.length_map, List.length_take, Nat.min_eq_left hle]
  · rw [hcontents]
    rfl

theorem Formed.full_iff (h : v.Formed) : Full v.size ↔ v.size = v.capacity := by
  rw [Mstd.full_iff, h.1, eq_comm]

theorem Formed.contents_movedFrom (h : v.Formed) : v.movedFrom.contents = v.contents.left := by
  rw [Contents.left, h.size_contents]
  by_cases hsize : v.size = 0
  · rw [if_pos hsize, movedFrom, contents, contents, if_neg fun hmoved => hmoved.2 hsize,
      if_neg fun hmoved => hmoved.2 hsize, hsize]
    rfl
  · rw [if_neg hsize, movedFrom, contents, if_pos ⟨rfl, hsize⟩]

theorem Formed.movedFrom (h : v.Formed) : v.movedFrom.Formed :=
  ⟨h.1, Or.inl rfl⟩

theorem Formed.subscript (h : v.Formed) (index : ℕ) :
    (v.subscript index).map Object.value = v.contents.item index := by
  rw [Vector.subscript, Contents.item, h.size_contents]
  by_cases hindex : v.size ≤ index
  · rw [if_pos hindex, if_pos hindex]
    rfl
  · rw [if_neg hindex, if_neg hindex]
    rcases h.cases with ⟨-, hle, hcontents⟩ | ⟨hdata, -, hcontents⟩
    · have hlt : index < v.data.length := by omega
      have hget : ((v.data.take v.size).map Object.value)[index]? = some v.data[index].value := by
        rw [List.getElem?_map, List.getElem?_take_of_lt (not_le.mp hindex),
          List.getElem?_eq_getElem hlt]
        rfl
      rw [hcontents, cell, List.getElem?_eq_getElem hlt]
      simp only [Contents.all, Except.bind, hget]
      rfl
    · rw [hcontents, cell, hdata]
      rfl

theorem mem_of_subscript {index : ℕ} {object : Object α} (h : v.subscript index = .ok object) :
    index < v.size ∧ v.data[index]? = some object := by
  rw [Vector.subscript, cell] at h
  split at h
  · exact absurd h (by simp)
  · next hindex =>
      split at h
      · next found hfound => exact ⟨not_le.mp hindex, Except.ok.inj h ▸ hfound⟩
      · exact absurd h (by simp)

theorem contents_assign {index : ℕ} {object : Object α} (h : v.subscript index = .ok object)
    (value : α) :
    { v with data := v.data.set index { object with value := value } }.contents =
      v.contents.replace index value := by
  obtain ⟨-, hget⟩ := mem_of_subscript h
  have hdata : v.data ≠ [] := by
    intro hnil
    rw [hnil] at hget
    exact absurd hget (by simp)
  have hset : v.data.set index { object with value := value } ≠ [] := by
    simpa using hdata
  rw [contents, if_neg fun hmoved => hset (List.isEmpty_iff.mp hmoved.1), contents,
    if_neg fun hmoved => hdata (List.isEmpty_iff.mp hmoved.1), Contents.replace, List.take_set,
    List.map_set]

theorem visit_of_le {n : ℕ} (h : n ≤ v.data.length) :
    (List.range n).mapM (fun index => (v.cell index).map Object.value) =
      (.ok ((v.data.take n).map Object.value) : Except Failure (List α)) := by
  induction n with
  | zero => rfl
  | succ n ih =>
      have hlt : n < v.data.length := h
      rw [List.range_succ, List.mapM_append, ih hlt.le, List.take_add_one,
        List.getElem?_eq_getElem hlt, List.map_append]
      simp only [cell, List.getElem?_eq_getElem hlt, List.mapM_cons, List.mapM_nil]
      rfl

/-- The iterators go through the elements. -/
theorem Formed.visit (h : v.Formed) : v.visit = v.contents.all := by
  rw [Vector.visit]
  rcases h.cases with ⟨-, hle, hcontents⟩ | ⟨hdata, hsize, hcontents⟩
  · rw [hcontents]
    exact visit_of_le hle
  · obtain ⟨n, hn⟩ := Nat.exists_eq_succ_of_ne_zero hsize
    rw [hcontents, hn, List.range_succ_eq_map, List.mapM_cons, cell, hdata]
    rfl

end Vector

/-! ## Appending -/

namespace Program

variable {p : Program α}

/-- What an argument refers to, and the value that is read there. -/
inductive Refers (p : Program α) : Argument α → Reference α → α → Prop
  | value (value : α) : Refers p (.value value) (.value value) value
  | element {vector index : ℕ} {v : Vector α} {object : Object α}
      (hv : p.vectors[vector]? = some v) (hobject : object ∈ v.data) :
      Refers p (.element vector index) (.object object.id) object.value

theorem getElem?_lists (p : Program α) (target : ℕ) :
    p.lists.contents[target]? = p.vectors[target]?.map Vector.contents :=
  List.getElem?_map ..

theorem Sound.refer_cases (h : p.Sound) (argument : Argument α) :
    (p.refer argument = none ∧ p.lists.value argument = none) ∨
      (∃ failure, p.refer argument = some (.error failure) ∧
        p.lists.value argument = some (.error failure)) ∨
      ∃ reference value, p.refer argument = some (.ok reference) ∧
        p.lists.value argument = some (.ok value) ∧ p.Refers argument reference value := by
  cases argument with
  | value value => exact Or.inr (Or.inr ⟨_, value, rfl, rfl, .value value⟩)
  | element vector index =>
      simp only [refer, Lists.value, getElem?_lists]
      cases hv : p.vectors[vector]? with
      | none => exact Or.inl ⟨rfl, rfl⟩
      | some v =>
          have hitem := (h.formed v (List.mem_of_getElem? hv)).subscript index
          cases hsubscript : v.subscript index with
          | error failure =>
              rw [hsubscript] at hitem
              refine Or.inr (Or.inl ⟨failure, ?_, congrArg some hitem.symm⟩)
              rw [Option.map_some, hsubscript]
              rfl
          | ok object =>
              rw [hsubscript] at hitem
              have hobject := List.mem_of_getElem? (Vector.mem_of_subscript hsubscript).2
              refine Or.inr (Or.inr ⟨_, _, ?_, congrArg some hitem.symm, .element hv hobject⟩)
              rw [Option.map_some, hsubscript]
              rfl

/-- Behind the growth an argument is still there, unless it was an element of the array that has
been deleted. -/
theorem HasRoom.read {target : ℕ} {v w : Vector α} {q : Program α} (h : p.HasRoom target v w q)
    (hv : p.vectors[target]? = some v) {argument : Argument α} {reference : Reference α} {value : α}
    (hrefers : p.Refers argument reference value) :
    Program.read { q with vectors := p.vectors.set target w } reference =
      if v.size = v.capacity ∧ Lists.own target argument = true then .error .undefined
      else .ok value := by
  cases hrefers with
  | value value => exact (if_neg fun hown => absurd hown.2 Bool.false_ne_true).symm
  | @element vector index u object hu hobject =>
      have htarget := (List.getElem?_eq_some_iff.mp hv).1
      by_cases hown : vector = target
      · subst hown
        obtain rfl : v = u := Option.some.inj (hv.symm.trans hu)
        by_cases hfull : v.size = v.capacity
        · rw [if_pos ⟨hfull, decide_eq_true rfl⟩]
          exact h.accounted.read_destroyed (h.destroyed hfull object hobject)
        · obtain ⟨rfl, rfl⟩ := h.same hfull
          rw [if_neg fun hboth => hfull hboth.1]
          refine h.accounted.read_object (List.mem_flatMap.mpr ⟨w, ?_, hobject⟩)
          exact List.mem_of_getElem? (List.getElem?_set_self htarget)
      · rw [if_neg fun hboth => hown (of_decide_eq_true hboth.2)]
        refine h.accounted.read_object (List.mem_flatMap.mpr ⟨u, ?_, hobject⟩)
        exact List.mem_of_getElem? ((List.getElem?_set_ne (Ne.symm hown)).trans hu)

theorem failure_of_read {reference : Reference α} {failure : Failure}
    (h : p.read reference = .error failure) : failure = .undefined := by
  cases reference with
  | value value => exact absurd h (by simp [Program.read])
  | object id =>
      cases hfind : (p.vectors.flatMap Vector.data).find? fun object => object.id = id with
      | none =>
          simp only [Program.read, hfind] at h
          exact (Except.error.inj h).symm
      | some object =>
          simp only [Program.read, hfind] at h
          exact absurd h (by simp)

theorem Appended.formed {target : ℕ} {v w : Vector α} {value : α} {next : Program α}
    (h : p.Appended target v value next w) : w.Formed :=
  ⟨h.capacity, Or.inr h.cells⟩

theorem Appended.contents {target : ℕ} {v w : Vector α} {value : α} {next : Program α}
    (h : p.Appended target v value next w) :
    w.contents = .items ((v.data.take v.size).map Object.value ++ [value]) := by
  have hle := le_capacityFor w.size
  have hcells : w.data ≠ [] := by
    have hlength := h.cells
    rintro hnil
    rw [hnil, List.length_nil, h.capacity] at hlength
    have hsize := h.size
    omega
  rw [Vector.contents, if_neg fun hmoved => hcells (List.isEmpty_iff.mp hmoved.1), h.values]

/-- How `push_back` and `emplace_back` end. -/
theorem Sound.append_cases (h : p.Sound)
    {place : Program α → Object α → α → Program α × Object α}
    (hplace : ∀ (p : Program α) object value,
      p.Placed object value (place p object value).1 (place p object value).2)
    {target : ℕ} {v : Vector α} (hv : p.vectors[target]? = some v) {argument : Argument α}
    {reference : Reference α} {value : α} (hrefers : p.Refers argument reference value)
    (granted : Bool) :
    (∃ failure, p.append place e target v reference granted = .error failure ∧
        v.contents.append (Lists.own target argument) value granted = .error failure) ∨
      ∃ next w, p.append place e target v reference granted = .ok next ∧
        p.Appended target v value next w ∧ v.data.length = v.capacity ∧
        v.contents.append (Lists.own target argument) value granted = .ok w.contents ∧
        ∃ q object, q.overwritten = p.overwritten ∧
          next.overwritten = (place q object value).1.overwritten := by
  have hformed := h.formed v (List.mem_of_getElem? hv)
  have hfull := hformed.full_iff
  by_cases hrefused : v.size = v.capacity ∧ granted = false
  · refine Or.inl ⟨.throws .badAlloc, ?_, ?_⟩
    · rw [append, makeRoom, if_pos hrefused.1, hrefused.2]
      rfl
    · rw [Contents.append, hformed.size_contents, if_pos ⟨hfull.mpr hrefused.1, hrefused.2⟩]
  have hallowed : ¬ (Full v.contents.size ∧ granted = false) := by
    rw [hformed.size_contents, hfull]
    exact hrefused
  have hgranted : v.size = v.capacity → granted = true := fun hsize => by
    simpa using fun hfalse => hrefused ⟨hsize, hfalse⟩
  rw [Contents.append, if_neg hallowed, hformed.size_contents]
  rcases hformed.cases with ⟨hcells, -, hcontents⟩ | ⟨hdata, hsize, hcontents⟩
  · obtain ⟨w, q, hmake, hroom⟩ := makeRoom_eq (e := e) h hv hcells hgranted
    have hread := hroom.read hv hrefers
    by_cases hown : v.size = v.capacity ∧ Lists.own target argument = true
    · rw [if_pos hown] at hread
      refine Or.inl ⟨.undefined, ?_, ?_⟩
      · simp only [append, hmake, bind, Except.bind, hroom.vectors, hread]
      · rw [hcontents]
        exact if_pos ⟨hfull.mpr hown.1, hown.2⟩
    · rw [if_neg hown] at hread
      obtain ⟨next, v', hnext, happended, object, hoverwritten⟩ :=
        append_eq hplace hv hmake hroom hread
      refine Or.inr ⟨next, v', hnext, happended, hcells, ?_, { q with vectors := p.vectors.set target w },
        object, hroom.overwritten, hoverwritten⟩
      rw [hcontents, happended.contents]
      exact if_neg fun hboth => hown ⟨hfull.mp hboth.1, hboth.2⟩
  · -- the elements have been moved away, and there is no array
    refine Or.inl ⟨.undefined, ?_, ?_⟩
    · rw [append, makeRoom]
      by_cases hsame : v.size = v.capacity
      · rw [if_pos hsame, if_pos (hgranted hsame), p.resize_null hdata hsize]
        rfl
      · have hcell : v.cell v.size = .error .undefined := by
          rw [Vector.cell, hdata]
          rfl
        rw [if_neg hsame]
        simp only [bind, Except.bind, hcell]
        split
        · next failure hread => rw [failure_of_read hread]
        · rfl
    · rw [hcontents]
      rfl

theorem Appended.lists {target : ℕ} {v w : Vector α} {value : α} {next : Program α}
    (h : p.Appended target v value next w) :
    next.lists = { p.lists with contents := p.lists.contents.set target w.contents } := by
  unfold Program.lists
  rw [h.vectors, h.seen, List.map_set]

/-- The calls that append do the same as on lists. -/
theorem Sound.append_lists (h : p.Sound)
    {place : Program α → Object α → α → Program α × Object α}
    (hplace : ∀ (p : Program α) object value,
      p.Placed object value (place p object value).1 (place p object value).2)
    (target : ℕ) (argument : Argument α) (granted : Bool) :
    (p.vectors[target]?.bind fun v => (p.refer argument).map fun reference =>
        reference.bind fun reference => p.append place e target v reference granted).map
          (Except.map Program.lists) = p.lists.append target argument granted := by
  rw [Lists.append, getElem?_lists]
  cases hv : p.vectors[target]? with
  | none => rfl
  | some v =>
      rw [Option.map_some, Option.bind_some, Option.bind_some]
      rcases h.refer_cases argument with ⟨hrefer, hvalue⟩ | ⟨failure, hrefer, hvalue⟩ |
        ⟨reference, value, hrefer, hvalue, hrefers⟩
      · rw [hrefer, hvalue]
        rfl
      · rw [hrefer, hvalue]
        rfl
      · rw [hrefer, hvalue, Option.map_some, Option.map_some, Option.map_some]
        simp only [Except.bind]
        rcases h.append_cases (e := e) hplace hv hrefers granted with
          ⟨failure, happend, hcontents⟩ | ⟨next, w, happend, happended, -, hcontents, -⟩
        · rw [happend, hcontents]
          rfl
        · rw [happend, hcontents]
          exact congrArg (fun s => some (Except.ok s : Except Failure (Lists α))) happended.lists

end Program

/-- **A program with vectors does the same as one with lists.** -/
theorem outcome_lists {p : Program α} (h : p.Sound) (call : VectorCall α) (granted : Bool) :
    (call.outcome e p granted).map (Except.map Program.lists) = p.lists.outcome granted call := by
  cases call with
  | construct =>
      have hnew : (Vector.construct : Vector α).contents = .items [] := rfl
      simp only [VectorCall.outcome, Lists.outcome, Option.map_some, Except.map, Program.lists,
        List.map_append, List.map_singleton, hnew]
  | pushBack target argument => exact h.append_lists Program.placed_assign target argument granted
  | emplaceBack target argument =>
      exact h.append_lists Program.placed_constructAt target argument granted
  | assignAt target index value =>
      simp only [VectorCall.outcome, Lists.outcome, Program.getElem?_lists]
      cases hv : p.vectors[target]? with
      | none => rfl
      | some v =>
          have hformed := h.formed v (List.mem_of_getElem? hv)
          have hitem := hformed.subscript index
          simp only [Option.map_some]
          cases hsubscript : v.subscript index with
          | error failure =>
              rw [← hitem, hsubscript]
              rfl
          | ok object =>
              rw [← hitem, hsubscript, ← Vector.contents_assign hsubscript]
              simp only [Except.map, Program.lists, List.map_set]
  | readAt target index =>
      simp only [VectorCall.outcome, Lists.outcome, Program.getElem?_lists]
      cases hv : p.vectors[target]? with
      | none => rfl
      | some v =>
          simp only [Option.map_some, ← (h.formed v (List.mem_of_getElem? hv)).subscript index]
          cases v.subscript index <;> rfl
  | visit target =>
      simp only [VectorCall.outcome, Lists.outcome, Program.getElem?_lists]
      cases hv : p.vectors[target]? with
      | none => rfl
      | some v =>
          simp only [Option.map_some, ← (h.formed v (List.mem_of_getElem? hv)).visit]
          cases v.visit <;> rfl
  | moveConstruct other =>
      simp only [VectorCall.outcome, Lists.outcome, Program.getElem?_lists]
      cases hv : p.vectors[other]? with
      | none => rfl
      | some v =>
          simp only [Option.map_some, Except.map, Program.lists, List.map_append, List.map_set,
            List.map_singleton, (h.formed v (List.mem_of_getElem? hv)).contents_movedFrom]
  | moveAssign target other =>
      simp only [VectorCall.outcome, Lists.outcome, Program.getElem?_lists]
      cases hold : p.vectors[target]? with
      | none => rfl
      | some old =>
          cases hv : p.vectors[other]? with
          | none => rfl
          | some v =>
              simp only [Option.map_some, Option.bind_some, Except.map]
              split
              · rfl
              · simp only [Program.lists, Program.deleteArray, List.map_set,
                  (h.formed v (List.mem_of_getElem? hv)).contents_movedFrom]

end Sok.Mstd
