import Mathlib.Data.List.Nodup
import Mathlib.Data.List.Perm.Basic
import Mathlib.Logic.Function.Iterate
import Sok.Vectors.Model

/-!
# How vectors are represented

The capacity of a vector is known from its size: it has grown only when that was needed.  The books
are right: every object is in one cell, or has been destroyed once, or overwritten once.  So an
argument that refers to an element can be read as long as the element is in its array, and not
after the array has grown.
-/

namespace Sok.Mstd

variable {α : Type*} {e : Element α}

/-! ## Capacities -/

/-- The capacity of a vector that has grown to a size by one element after the other. -/
def capacityFor : ℕ → ℕ
  | 0 => 0
  | size + 1 => if capacityFor size = size then grow size else capacityFor size

theorem lt_grow (capacity : ℕ) : capacity < grow capacity := by
  unfold grow
  split <;> omega

theorem le_capacityFor (size : ℕ) : size ≤ capacityFor size := by
  induction size with
  | zero => exact le_rfl
  | succ size ih =>
      have hgrow := lt_grow size
      rw [capacityFor]
      split <;> omega

/-- The array is never much larger than what it holds. -/
theorem two_mul_capacityFor_le (size : ℕ) : 2 * capacityFor size ≤ 3 * size := by
  induction size with
  | zero => exact le_rfl
  | succ size ih =>
      rw [capacityFor]
      split
      · unfold grow
        split <;> omega
      · omega

/-- The sizes at which a vector is full. -/
def Full (size : ℕ) : Prop := ∃ k, grow^[k] 0 = size

theorem exists_capacityFor (size : ℕ) : Full (capacityFor size) := by
  induction size with
  | zero => exact ⟨0, rfl⟩
  | succ size ih =>
      rw [capacityFor]
      split
      · next hfull =>
          obtain ⟨k, hk⟩ := ih
          refine ⟨k + 1, ?_⟩
          rw [Function.iterate_succ_apply', hk, hfull]
      · exact ih

/-- Behind a full size the capacity stays the same until that is full. -/
theorem capacityFor_eq_grow {full size : ℕ} (hfull : capacityFor full = full) (hlt : full < size)
    (hle : size ≤ grow full) : capacityFor size = grow full := by
  induction size, hlt using Nat.le_induction with
  | base => rw [capacityFor, if_pos hfull]
  | succ size hlt ih =>
      have hsize := ih (Nat.le_of_succ_le hle)
      rw [capacityFor, if_neg (by omega), hsize]

theorem capacityFor_iterate (k : ℕ) : capacityFor (grow^[k] 0) = grow^[k] 0 := by
  induction k with
  | zero => rfl
  | succ k ih =>
      rw [Function.iterate_succ_apply']
      exact capacityFor_eq_grow ih (lt_grow _) le_rfl

theorem full_iff {size : ℕ} : Full size ↔ capacityFor size = size := by
  refine ⟨?_, fun h => h ▸ exists_capacityFor size⟩
  rintro ⟨k, rfl⟩
  exact capacityFor_iterate k

instance (size : ℕ) : Decidable (Full size) := decidable_of_iff _ full_iff.symm

/-! ## The books -/

/-- The capacity is that of the size, and the array, if there is one, has as many cells. -/
def Vector.Formed (v : Vector α) : Prop :=
  v.capacity = capacityFor v.size ∧ (v.data = [] ∨ v.data.length = v.capacity)

namespace Program

variable {p : Program α}

/-- The objects in the cells. -/
def objects (p : Program α) : List (Object α) :=
  p.vectors.flatMap Vector.data

/-- Every object is in a cell, has been destroyed or overwritten, and that once. -/
def Accounted (p : Program α) : Prop :=
  (p.objects.map Object.id ++ (p.destroyed ++ p.overwritten)).Perm (List.range p.created)

/-- The vectors are formed, and the books are right. -/
structure Sound (p : Program α) : Prop where
  formed : ∀ v ∈ p.vectors, v.Formed
  accounted : p.Accounted

theorem Accounted.nodup (h : p.Accounted) :
    (p.objects.map Object.id ++ (p.destroyed ++ p.overwritten)).Nodup :=
  h.nodup_iff.mpr List.nodup_range

/-- What has a name of its own is found under it. -/
theorem find?_of_nodup_map {β γ : Type*} [DecidableEq γ] {f : β → γ} {l : List β} {b : β}
    (h : (l.map f).Nodup) (hb : b ∈ l) : (l.find? fun other => f other = f b) = some b := by
  induction l with
  | nil => exact absurd hb List.not_mem_nil
  | cons first rest ih =>
      obtain ⟨hfirst, hrest⟩ := List.nodup_cons.mp h
      rcases List.mem_cons.mp hb with rfl | hmem
      · exact List.find?_cons_of_pos (decide_eq_true rfl)
      · have hne : f first ≠ f b := fun heq => hfirst (heq ▸ List.mem_map_of_mem hmem)
        rw [List.find?_cons_of_neg (by simpa using hne)]
        exact ih hrest hmem

theorem Accounted.read_object (h : p.Accounted) {object : Object α} (hobject : object ∈ p.objects) :
    p.read (.object object.id) = .ok object.value := by
  have hnodup : (p.objects.map Object.id).Nodup := h.nodup.of_append_left
  have hfind := find?_of_nodup_map hnodup hobject
  rw [objects] at hfind
  simp only [read, hfind]

theorem Accounted.read_destroyed (h : p.Accounted) {id : ℕ} (hid : id ∈ p.destroyed) :
    p.read (.object id) = .error .undefined := by
  have hnone : (p.objects.find? fun other => other.id = id) = none := by
    refine List.find?_eq_none.mpr fun other hother heq => ?_
    have hmem : other.id ∈ p.objects.map Object.id := List.mem_map_of_mem hother
    rw [of_decide_eq_true heq] at hmem
    exact List.disjoint_of_nodup_append h.nodup hmem (List.mem_append_left _ hid)
  rw [objects] at hnone
  simp only [read, hnone]

theorem objects_set {vectors : List (Vector α)} {target : ℕ} {v : Vector α}
    (h : vectors[target]? = some v) (next : Vector α) :
    ∃ others : List (Object α), (vectors.flatMap Vector.data).Perm (v.data ++ others) ∧
      ((vectors.set target next).flatMap Vector.data).Perm (next.data ++ others) := by
  obtain ⟨hlt, rfl⟩ := List.getElem?_eq_some_iff.mp h
  obtain ⟨front, back, hsplit, -, hset⟩ := @List.exists_of_set _ target next vectors hlt
  refine ⟨front.flatMap Vector.data ++ back.flatMap Vector.data, ?_, ?_⟩
  · conv_lhs => rw [hsplit, List.flatMap_append, List.flatMap_cons]
    exact List.perm_append_comm_assoc _ _ _
  · rw [hset, List.flatMap_append, List.flatMap_cons]
    exact List.perm_append_comm_assoc _ _ _

/-! ## Growing -/

theorem map_id_set {l : List (Object α)} {n : ℕ} {object : Object α} (h : n < l.length)
    (hid : object.id = l[n].id) : (l.set n object).map Object.id = l.map Object.id := by
  have hmap : n < (l.map Object.id).length := by rwa [List.length_map]
  have hself : (l.map Object.id)[n] = l[n].id := List.getElem_map _
  rw [List.map_set, hid, ← hself, List.set_getElem_self]

theorem take_succ_set {β : Type*} {l : List β} {n : ℕ} (b : β) (h : n < l.length) :
    (l.set n b).take (n + 1) = l.take n ++ [b] := by
  rw [List.take_add_one, List.take_set_of_le le_rfl, List.getElem?_set_self h]
  rfl

/-- The loop of `resize`. -/
theorem foldlM_moveElement {new old : List (Object α)} {n : ℕ} (hnew : n ≤ new.length)
    (hold : n ≤ old.length) :
    ∃ arrays, (List.range n).foldlM (moveElement e) (new, old) = some arrays ∧
      arrays.1.map Object.id = new.map Object.id ∧ arrays.2.map Object.id = old.map Object.id ∧
      (arrays.1.take n).map Object.value = (old.take n).map Object.value ∧
      arrays.2.drop n = old.drop n := by
  induction n with
  | zero => exact ⟨(new, old), rfl, rfl, rfl, rfl, rfl⟩
  | succ n ih =>
      obtain ⟨arrays, hrun, hid, hid', htake, hdrop⟩ := ih (by omega) (by omega)
      have hlength : arrays.1.length = new.length := by
        simpa using congrArg List.length hid
      have hlength' : arrays.2.length = old.length := by
        simpa using congrArg List.length hid'
      have hsource : arrays.2[n] = old[n] := by
        have hget : arrays.2[n]? = old[n]? := by
          rw [← Nat.add_zero n, ← List.getElem?_drop, hdrop, List.getElem?_drop]
        rw [List.getElem?_eq_getElem (by omega), List.getElem?_eq_getElem (by omega)] at hget
        exact Option.some.inj hget
      have hmove : moveElement e arrays n =
          some (arrays.1.set n { arrays.1[n] with value := old[n].value },
            arrays.2.set n { old[n] with value := e.left old[n].value }) := by
        unfold moveElement
        rw [List.getElem?_eq_getElem (by omega), Option.bind_some,
          List.getElem?_eq_getElem (by omega), Option.map_some, hsource]
      refine ⟨(arrays.1.set n { arrays.1[n] with value := old[n].value },
        arrays.2.set n { old[n] with value := e.left old[n].value }), ?_, ?_, ?_, ?_, ?_⟩
      · rw [List.range_succ, List.foldlM_append, hrun, Option.bind_eq_bind, Option.bind_some,
          List.foldlM_cons, hmove]
        rfl
      · have hlt : n < arrays.1.length := by omega
        refine (map_id_set hlt ?_).trans hid
        rfl
      · have hlt : n < arrays.2.length := by omega
        refine (map_id_set hlt ?_).trans hid'
        rw [hsource]
      · rw [take_succ_set _ (by omega), List.map_append, htake, List.take_add_one,
          List.getElem?_eq_getElem (by omega), List.map_append]
        rfl
      · rw [List.drop_set_of_lt (by omega), ← List.drop_drop, hdrop, List.drop_drop]

/-- `resize` of an array that is full. -/
theorem resize_eq (p : Program α) {v : Vector α} (hdata : v.data.length = v.size)
    {capacity : ℕ} (hle : v.size ≤ capacity) :
    ∃ data, p.resize e v capacity = .ok (⟨data, capacity, v.size⟩,
        { p with
          created := p.created + capacity
          destroyed := p.destroyed ++ (v.data.map Object.id).reverse
          moved := p.moved + v.size }) ∧
      data.map Object.id = (List.range capacity).map (p.created + ·) ∧
      (data.take v.size).map Object.value = (v.data.take v.size).map Object.value := by
  have hnew : v.size ≤ ((List.range capacity).map fun k =>
      (⟨p.created + k, e.fresh⟩ : Object α)).length := by
    simpa using hle
  obtain ⟨arrays, hrun, hid, hid', hvalues, -⟩ := foldlM_moveElement (e := e) hnew hdata.ge
  refine ⟨arrays.1, ?_, ?_, hvalues⟩
  · simp only [resize, makeUnique, hrun, deleteArray, hid']
  · rw [hid, List.map_map]
    rfl

/-- A null pointer has no elements to move. -/
theorem resize_null (p : Program α) {v : Vector α} (hdata : v.data = []) (hsize : v.size ≠ 0)
    (capacity : ℕ) : p.resize e v capacity = .error .undefined := by
  obtain ⟨n, hn⟩ := Nat.exists_eq_succ_of_ne_zero hsize
  have hrun : (List.range v.size).foldlM (moveElement e) ((List.range capacity).map fun k =>
      (⟨p.created + k, e.fresh⟩ : Object α), v.data) = none := by
    rw [hn, List.range_succ_eq_map, List.foldlM_cons, hdata]
    unfold moveElement
    simp
  simp only [resize, makeUnique, hrun]

theorem Accounted.replace (h : p.Accounted) {target : ℕ} {v w : Vector α}
    (hv : p.vectors[target]? = some v) {q : Program α} (hq : q.vectors = p.vectors.set target w)
    (hids : ((w.data.map Object.id ++ (q.destroyed ++ q.overwritten)) ++
      List.range p.created).Perm
        ((v.data.map Object.id ++ (p.destroyed ++ p.overwritten)) ++ List.range q.created)) :
    q.Accounted := by
  obtain ⟨others, hbefore, hbehind⟩ := objects_set hv w
  refine List.perm_iff_count.mpr fun id => ?_
  have hbefore := (hbefore.map Object.id).count_eq id
  have hbehind := (hbehind.map Object.id).count_eq id
  have hall := List.perm_iff_count.mp h id
  have hcounts := hids.count_eq id
  unfold objects at hall ⊢
  rw [hq]
  simp only [List.map_append, List.count_append] at *
  omega

/-- What there is when room has been made for one more element. -/
structure HasRoom (p : Program α) (target : ℕ) (v w : Vector α) (q : Program α) : Prop where
  size : w.size = v.size
  capacity : w.capacity = capacityFor (v.size + 1)
  cells : w.data.length = w.capacity
  values : (w.data.take v.size).map Object.value = (v.data.take v.size).map Object.value
  vectors : q.vectors = p.vectors
  seen : q.seen = p.seen
  overwritten : q.overwritten = p.overwritten
  moved : q.moved = p.moved + if v.size = v.capacity then v.size else 0
  accounted : Accounted { q with vectors := p.vectors.set target w }
  destroyed : v.size = v.capacity → ∀ object ∈ v.data, object.id ∈ q.destroyed
  same : v.size ≠ v.capacity → w = v ∧ q = p

theorem makeRoom_eq (h : p.Sound) {target : ℕ} {v : Vector α} (hv : p.vectors[target]? = some v)
    (hcells : v.data.length = v.capacity) {granted : Bool}
    (hgranted : v.size = v.capacity → granted = true) :
    ∃ w q, p.makeRoom e v granted = .ok (w, q) ∧ p.HasRoom target v w q := by
  obtain ⟨hcapacity, -⟩ := h.formed v (List.mem_of_getElem? hv)
  by_cases hfull : v.size = v.capacity
  · have hle : v.size ≤ grow v.capacity := hfull.le.trans (lt_grow _).le
    obtain ⟨data, hresize, hids, hvalues⟩ := p.resize_eq (e := e) (hcells.trans hfull.symm) hle
    have hmake : p.makeRoom e v granted = p.resize e v (grow v.capacity) := by
      rw [makeRoom, if_pos hfull, if_pos (hgranted hfull)]
    refine ⟨_, _, hmake.trans hresize, rfl, ?_, ?_, hvalues, rfl, rfl, rfl, ?_, ?_, ?_,
      fun hne => absurd hfull hne⟩
    · show grow v.capacity = capacityFor (v.size + 1)
      rw [capacityFor, if_pos (hcapacity.symm.trans hfull.symm), hfull]
    · show data.length = grow v.capacity
      simpa using congrArg List.length hids
    · rw [if_pos hfull]
    · refine h.accounted.replace hv rfl (List.perm_iff_count.mpr fun id => ?_)
      simp only [hids, List.range_add, List.count_append, List.count_reverse]
      omega
    · intro _ object hobject
      refine List.mem_append_right _ (List.mem_reverse.mpr ?_)
      exact List.mem_map_of_mem hobject
  · refine ⟨v, p, by rw [makeRoom, if_neg hfull], ?_⟩
    refine ⟨rfl, ?_, hcells, rfl, rfl, rfl, rfl, ?_, ?_, fun heq => absurd heq hfull,
      fun _ => ⟨rfl, rfl⟩⟩
    · rw [capacityFor, if_neg (by rw [← hcapacity]; exact Ne.symm hfull), hcapacity]
    · rw [if_neg hfull, Nat.add_zero]
    · exact h.accounted.replace hv rfl (List.Perm.refl _)

/-! ## Appending -/

/-- What `push_back` and `emplace_back` do to the cell behind the last element. -/
structure Placed (p : Program α) (object : Object α) (value : α) (q : Program α)
    (placed : Object α) : Prop where
  value : placed.value = value
  vectors : q.vectors = p.vectors
  seen : q.seen = p.seen
  moved : q.moved = p.moved
  destroyed : q.destroyed = p.destroyed
  ids : ((placed.id :: q.overwritten) ++ List.range p.created).Perm
    ((object.id :: p.overwritten) ++ List.range q.created)

theorem placed_assign (p : Program α) (object : Object α) (value : α) :
    p.Placed object value (p.assign object value).1 (p.assign object value).2 :=
  ⟨rfl, rfl, rfl, rfl, rfl, List.Perm.refl _⟩

theorem placed_constructAt (p : Program α) (object : Object α) (value : α) :
    p.Placed object value (p.constructAt object value).1 (p.constructAt object value).2 := by
  refine ⟨rfl, rfl, rfl, rfl, rfl, List.perm_iff_count.mpr fun id => ?_⟩
  simp only [constructAt, List.range_succ, List.cons_append, List.count_cons, List.count_append,
    List.count_nil]
  omega

/-- What has been appended. -/
structure Appended (p : Program α) (target : ℕ) (v : Vector α) (value : α) (next : Program α)
    (w : Vector α) : Prop where
  vectors : next.vectors = p.vectors.set target w
  size : w.size = v.size + 1
  capacity : w.capacity = capacityFor w.size
  cells : w.data.length = w.capacity
  values : (w.data.take w.size).map Object.value =
    (v.data.take v.size).map Object.value ++ [value]
  seen : next.seen = p.seen
  moved : next.moved = p.moved + if v.size = v.capacity then v.size else 0
  accounted : next.Accounted

/-- The value is put into the next cell, when it can still be read behind the growth. -/
theorem append_eq {place : Program α → Object α → α → Program α × Object α}
    (hplace : ∀ (p : Program α) object value,
      p.Placed object value (place p object value).1 (place p object value).2)
    {target : ℕ} {v w : Vector α} {q : Program α} {granted : Bool}
    (hv : p.vectors[target]? = some v) (hmake : p.makeRoom e v granted = .ok (w, q))
    (hroom : p.HasRoom target v w q) {reference : Reference α} {value : α}
    (hread : read { q with vectors := p.vectors.set target w } reference = .ok value) :
    ∃ next v', p.append place e target v reference granted = .ok next ∧
      p.Appended target v value next v' ∧
      ∃ object, next.overwritten =
        (place { q with vectors := p.vectors.set target w } object value).1.overwritten := by
  have hlt : v.size < w.data.length := by
    have hle := le_capacityFor (v.size + 1)
    rw [hroom.cells, hroom.capacity]
    omega
  have hcell : w.cell v.size = .ok w.data[v.size] := by
    rw [Vector.cell, List.getElem?_eq_getElem hlt]
  have hplaced := hplace { q with vectors := p.vectors.set target w } w.data[v.size] value
  have happend : p.append place e target v reference granted = .ok
      { (place { q with vectors := p.vectors.set target w } w.data[v.size] value).1 with
        vectors := p.vectors.set target
          ⟨w.data.set v.size (place { q with vectors := p.vectors.set target w } w.data[v.size]
            value).2, w.capacity, v.size + 1⟩ } := by
    simp only [append, hmake, bind, Except.bind, hroom.vectors, hread, hcell, hplaced.vectors,
      hroom.size, List.set_set]
    rfl
  refine ⟨_, _, happend, ⟨rfl, rfl, hroom.capacity, ?_, ?_, ?_, ?_, ?_⟩, w.data[v.size], rfl⟩
  · show (w.data.set v.size _).length = w.capacity
    rw [List.length_set, hroom.cells]
  · show ((w.data.set v.size _).take (v.size + 1)).map Object.value = _
    rw [take_succ_set _ hlt, List.map_append, hroom.values, List.map_singleton, hplaced.value]
  · exact hplaced.seen.trans hroom.seen
  · exact hplaced.moved.trans hroom.moved
  · have hself : (p.vectors.set target w)[target]? = some w :=
      List.getElem?_set_self (List.getElem?_eq_some_iff.mp hv).1
    refine hroom.accounted.replace hself (List.set_set ..).symm
      (List.perm_iff_count.mpr fun id => ?_)
    obtain ⟨front, back, hsplit, -, hset⟩ := @List.exists_of_set _ v.size
      (place { q with vectors := p.vectors.set target w } w.data[v.size] value).2 w.data hlt
    have hids := hplaced.ids.count_eq id
    have hbefore := congrArg (fun l => (l.map Object.id).count id) hsplit
    simp only [hset, List.map_append, List.map_cons, List.count_append, List.count_cons,
      hplaced.destroyed] at hbefore hids ⊢
    omega

end Program

end Sok.Mstd
