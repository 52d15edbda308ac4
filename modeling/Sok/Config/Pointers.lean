import Sok.Config.Parse

/-!
# The pointers of the parser

Whatever lines have been read, a pointer on the stack that is still valid refers to a map
of `data`, and it does not lie inside a map whose pointer is above it on the stack
(`Sound`).  So an assignment to the map on top takes no valid pointer of the stack away.

## Strategy

Everything is said of paths.  A change to the map at the path `owner` is followed along
another path as far as the two agree (`resolve_update`), so what it does to the map there
is decided by whether that path leads through the key that is stored at.  A pointer whose
path does is dropped at that moment by the parser's own bookkeeping, and the others still
resolve.  The invariant is kept by each kind of store, and a line is a few stores.
-/

namespace Sok

/-! ## Places that an assignment leaves alone -/

namespace Yaml

theorem inside_iff {owner path : List Step} {key : Bytes} :
    Inside owner key path ↔ ∃ step rest, path = owner ++ step :: rest ∧ step.key = key := by
  constructor
  · rintro ⟨⟨rest, rfl⟩, step, hstep, hkey⟩
    rw [List.drop_left] at hstep
    obtain ⟨tail, htail⟩ := List.head?_eq_some_iff.mp hstep
    exact ⟨step, tail, by rw [htail], hkey⟩
  · rintro ⟨step, rest, rfl, hkey⟩
    exact ⟨⟨step :: rest, rfl⟩, step, by simp, hkey⟩

theorem inside_nil_cons {key : Bytes} {step : Step} {path : List Step} :
    Inside [] key (step :: path) ↔ step.key = key := by
  simp [Inside]

theorem inside_cons_cons {first : Step} {owner path : List Step} {key : Bytes} :
    Inside (first :: owner) key (first :: path) ↔ Inside owner key path := by
  simp [inside_iff]

theorem isElement_iff {owner path : List Step} {key : Bytes} :
    IsElement owner key path ↔ ∃ step, path = owner ++ [step] ∧ step.key = key := by
  rcases path.eq_nil_or_concat' with rfl | ⟨front, last, rfl⟩
  · simp [IsElement]
  · constructor
    · rintro ⟨hfront, step, hstep, hkey⟩
      rw [List.dropLast_concat] at hfront
      rw [List.getLast?_concat] at hstep
      obtain rfl := Option.some.inj hstep
      exact ⟨last, by rw [hfront], hkey⟩
    · rintro ⟨step, hpath, hkey⟩
      obtain ⟨rfl, hlast⟩ := List.append_inj' hpath rfl
      obtain rfl := List.singleton_inj.mp hlast
      exact ⟨List.dropLast_concat, last, List.getLast?_concat, hkey⟩

theorem inside_of_isElement {owner path : List Step} {key : Bytes}
    (h : IsElement owner key path) : Inside owner key path := by
  obtain ⟨step, rfl, hkey⟩ := isElement_iff.mp h
  exact inside_iff.mpr ⟨step, [], rfl, hkey⟩

/-- After an assignment no valid pointer to a vector leads into the value, or is the one to it. -/
theorem State.clear_of_mem_dropLists {owner : List Step} {key : Bytes} {s : State}
    {l : ListPointer} (hl : l ∈ ((s.invalidate owner key).dropLists owner key).lists)
    (hvalid : l.valid = true) :
    ¬ Inside owner key l.owner ∧ ¬ (l.owner = owner ∧ l.key = key) := by
  simp only [State.dropLists, State.invalidate, List.mem_map] at hl
  obtain ⟨m, ⟨n, -, rfl⟩, rfl⟩ := hl
  simp only [Bool.and_eq_true, Bool.not_eq_true', decide_eq_false_iff_not] at hvalid
  exact ⟨hvalid.1.2, hvalid.2⟩

end Yaml

open Yaml (Inside inside_iff inside_nil_cons inside_cons_cons)

namespace Entries

theorem child_assign_of_ne {key : Bytes} {step : Step} (h : step.key ≠ key) (value : Value)
    (entries : Entries) : child step (assign key value entries) = child step entries := by
  simp only [child, lookup_assign_of_ne h]

/-- The vector at the key has one more map at its end. -/
def addItem (key : Bytes) (items : List Entries) : Entries → Entries :=
  assign key (.maps (items ++ [[]]))

theorem child_addItem {key : Bytes} {items : List Entries} {entries last : Entries} {step : Step}
    (hfound : lookup key entries = some (.maps items)) (h : child step entries = some last) :
    child step (addItem key items entries) = some last := by
  by_cases hkey : step.key = key
  · obtain ⟨i, hindex⟩ : ∃ i, step.index = some i := by
      cases hindex : step.index with
      | none => simp [child, hkey, hfound, hindex] at h
      | some i => exact ⟨i, rfl⟩
    simp only [child, hkey, hfound, hindex] at h
    simp only [addItem, child, hkey, lookup_assign_self, hindex]
    rw [List.getElem?_append_left (List.getElem?_eq_some_iff.mp h).1, h]
  · rw [addItem, child_assign_of_ne hkey, h]

/-- The map that was not there before is empty. -/
theorem eq_nil_of_child_addItem {key : Bytes} {items : List Entries} {entries last : Entries}
    {step : Step} (hfound : lookup key entries = some (.maps items))
    (hold : child step entries = none) (h : child step (addItem key items entries) = some last) :
    last = [] := by
  by_cases hkey : step.key = key
  · cases hindex : step.index with
    | none => simp [addItem, child, hkey, hindex] at h
    | some i =>
        simp only [child, hkey, hfound, hindex, List.getElem?_eq_none_iff] at hold
        simp only [addItem, child, hkey, lookup_assign_self, hindex] at h
        rw [List.getElem?_append_right hold, List.getElem?_singleton] at h
        split at h
        · exact (Option.some.inj h).symm
        · exact absurd h (by simp)
  · rw [addItem, child_assign_of_ne hkey, hold] at h
    exact absurd h (by simp)

theorem resolve_update {f : Entries → Entries} {owner path : List Step} {entries : Entries}
    (hkeep : ∀ step rest, path = owner ++ step :: rest → ∀ inner,
      resolve owner entries = some inner → ∀ last, child step inner = some last →
      child step (f inner) = some last)
    (h : (resolve path entries).isSome = true) :
    (resolve path (update owner f entries)).isSome = true := by
  induction owner generalizing path entries with
  | nil =>
      cases path with
      | nil => rfl
      | cons step path =>
          obtain ⟨inner, hinner⟩ := Option.isSome_iff_exists.mp h
          obtain ⟨next, hchild, hnext⟩ := Option.bind_eq_some_iff.mp hinner
          rw [update, resolve, hkeep step path rfl entries rfl next hchild, Option.bind_some, hnext]
          rfl
  | cons first owner ih =>
      rw [update]
      cases hchild : child first entries with
      | none => exact h
      | some inner =>
          cases path with
          | nil => rfl
          | cons step path =>
              by_cases hstep : step = first
              · subst hstep
                rw [resolve, hchild] at h
                rw [resolve, child_setChild_self hchild]
                refine ih (fun other rest hpath last hlast => ?_) h
                exact hkeep other rest (by rw [hpath]; rfl) last (by simp [resolve, hchild, hlast])
              · rwa [resolve, child_setChild_of_ne hstep]

theorem resolve_update_assign {owner path : List Step} {key : Bytes} (value : Value)
    {entries : Entries} (houtside : ¬ Inside owner key path)
    (h : (resolve path entries).isSome = true) :
    (resolve path (update owner (assign key value) entries)).isSome = true := by
  refine resolve_update (fun step rest hpath inner _ last hchild => ?_) h
  have hne : step.key ≠ key := fun heq => houtside (inside_iff.mpr ⟨step, rest, hpath, heq⟩)
  rw [child_assign_of_ne hne, hchild]

/-- `emplace` takes nothing away. -/
theorem resolve_update_emplace (owner path : List Step) (key : Bytes) (value : Value)
    {entries : Entries} (h : (resolve path entries).isSome = true) :
    (resolve path (update owner (emplace key value) entries)).isSome = true := by
  refine resolve_update (fun step _ _ inner _ last hchild => ?_) h
  unfold child at hchild ⊢
  cases hlookup : lookup step.key inner with
  | none => simp [hlookup] at hchild
  | some found =>
      rw [lookup_emplace_of_eq_some hlookup]
      rwa [hlookup] at hchild

theorem resolve_update_addItem {owner path : List Step} {key : Bytes} {items : List Entries}
    {entries : Entries} (hfound : (resolve owner entries).bind (lookup key) = some (.maps items))
    (h : (resolve path entries).isSome = true) :
    (resolve path (update owner (addItem key items) entries)).isSome = true := by
  refine resolve_update (fun step _ _ inner hinner last hchild => child_addItem ?_ hchild) h
  rwa [hinner] at hfound

/-! ## Lengths of vectors -/

/-- The length of the vector at a key of a map. -/
def listLength (owner : List Step) (key : Bytes) (entries : Entries) : Option ℕ :=
  (resolve owner entries).bind fun inner =>
    match lookup key inner with
    | some (.maps items) => some items.length
    | _ => none

theorem listLength_cons (step : Step) (path : List Step) (key : Bytes) (entries : Entries) :
    listLength (step :: path) key entries = (child step entries).bind (listLength path key) := by
  cases hchild : child step entries <;> simp [listLength, resolve, hchild]

theorem listLength_empty (path : List Step) (key : Bytes) : listLength path key [] = none := by
  cases path with
  | nil => rfl
  | cons step path => rfl

theorem listLength_setChild (step : Step) (inner : Entries) (key : Bytes) (entries : Entries) :
    listLength [] key (setChild step inner entries) = listLength [] key entries := by
  unfold setChild
  split
  · rename_i hlookup hindex
    by_cases hkey : key = step.key
    · simp [listLength, resolve, hkey, hlookup]
    · simp [listLength, resolve, lookup_assign_of_ne hkey]
  · rename_i items i hlookup hindex
    by_cases hkey : key = step.key
    · simp [listLength, resolve, hkey, hlookup]
    · simp [listLength, resolve, lookup_assign_of_ne hkey]
  · rfl

/-- A change to a map keeps the lengths of the vectors that it keeps inside the map. -/
theorem listLength_update {f : Entries → Entries} {owner path : List Step} {key : Bytes}
    {entries : Entries} (h : ∀ rest, path = owner ++ rest → ∀ inner,
      resolve owner entries = some inner →
      listLength rest key (f inner) = listLength rest key inner) :
    listLength path key (update owner f entries) = listLength path key entries := by
  induction owner generalizing path entries with
  | nil => exact h path rfl entries rfl
  | cons first owner ih =>
      rw [update]
      cases hchild : child first entries with
      | none => rfl
      | some inner =>
          cases path with
          | nil => exact listLength_setChild first _ key entries
          | cons step path =>
              by_cases hstep : step = first
              · subst hstep
                simp only [listLength, resolve, child_setChild_self hchild, hchild,
                  Option.bind_some]
                refine ih fun rest hrest last hlast => ?_
                exact h rest (by rw [hrest]; rfl) last (by simp [resolve, hchild, hlast])
              · simp only [listLength, resolve, child_setChild_of_ne hstep]

theorem listLength_update_assign {owner path : List Step} {key other : Bytes} (value : Value)
    (entries : Entries) (houtside : ¬ Inside owner key path)
    (hother : ¬ (path = owner ∧ other = key)) :
    listLength path other (update owner (assign key value) entries) =
      listLength path other entries := by
  refine listLength_update fun rest hrest inner _ => ?_
  cases rest with
  | nil =>
      have hne : other ≠ key := fun heq => hother ⟨by simpa using hrest, heq⟩
      simp only [listLength, resolve, Option.bind_some, lookup_assign_of_ne hne]
  | cons step rest =>
      have hne : step.key ≠ key := fun heq =>
        houtside (inside_iff.mpr ⟨step, rest, hrest, heq⟩)
      simp only [listLength, resolve, child_assign_of_ne hne]

theorem listLength_update_emplace (owner path : List Step) (key other : Bytes) {value : Value}
    (hmap : ∀ inner, value ≠ .map inner) (hmaps : ∀ items, value ≠ .maps items)
    (entries : Entries) :
    listLength path other (update owner (emplace key value) entries) =
      listLength path other entries := by
  refine listLength_update fun rest _ inner _ => ?_
  unfold emplace
  split
  · rfl
  · rename_i hnew
    have hnone : lookup key inner = none := by simpa using hnew
    have hentered := lookup_concat_self hnone value
    cases rest with
    | nil =>
        by_cases hkey : other = key
        · subst hkey
          simp only [listLength, resolve, Option.bind_some, hentered, hnone]
          cases value <;> simp_all
        · simp only [listLength, resolve, Option.bind_some, lookup_concat_of_ne hkey]
    | cons step rest =>
        have hchild : child step (inner ++ [(key, value)]) = child step inner := by
          by_cases hkey : step.key = key
          · simp only [child, hkey, hentered, hnone]
            cases value <;> simp_all
          · simp only [child, lookup_concat_of_ne hkey]
        simp only [listLength, resolve, hchild]

/-- A new item changes the length of its own vector only: there is nothing in it. -/
theorem listLength_update_addItem {owner path : List Step} {key other : Bytes}
    {items : List Entries} {entries : Entries}
    (hfound : (resolve owner entries).bind (lookup key) = some (.maps items))
    (hother : ¬ (path = owner ∧ other = key)) :
    listLength path other (update owner (addItem key items) entries) =
      listLength path other entries := by
  refine listLength_update fun rest hrest inner hinner => ?_
  rw [hinner, Option.bind_some] at hfound
  cases rest with
  | nil =>
      have hne : other ≠ key := fun heq => hother ⟨by simpa using hrest, heq⟩
      simp only [addItem, listLength, resolve, Option.bind_some, lookup_assign_of_ne hne]
  | cons step rest =>
      cases hchild : child step inner with
      | some last => simp only [listLength, resolve, child_addItem hfound hchild, hchild]
      | none =>
          rw [listLength_cons, listLength_cons, hchild]
          cases hgrown : child step (addItem key items inner) with
          | none => rfl
          | some last =>
              obtain rfl := eq_nil_of_child_addItem hfound hchild hgrown
              exact listLength_empty rest other

theorem listLength_update_self {owner : List Step} {entries : Entries}
    (h : (resolve owner entries).isSome = true) (key : Bytes) (items : List Entries) :
    listLength owner key (update owner (assign key (.maps items)) entries) =
      some items.length := by
  obtain ⟨inner, hinner⟩ := Option.isSome_iff_exists.mp h
  simp [listLength, resolve_update_self hinner]

theorem listLength_eq_some {owner : List Step} {key : Bytes} {entries : Entries} {n : ℕ} :
    listLength owner key entries = some n ↔
      ∃ items, (resolve owner entries).bind (lookup key) = some (.maps items) ∧
        items.length = n := by
  unfold listLength
  cases resolve owner entries with
  | none => simp
  | some inner =>
      simp only [Option.bind_some]
      cases lookup key inner with
      | none => simp
      | some value => cases value <;> simp

end Entries

/-! ## The invariant -/

namespace Yaml

structure Sound (s : State) : Prop where
  nonempty : s.stack ≠ []
  /-- A valid pointer refers to a map. -/
  resolves : ∀ p ∈ s.stack, p.valid = true → (Entries.resolve p.path s.data).isSome = true
  /-- A valid pointer is not inside a map above it. -/
  apart : s.stack.Pairwise fun above below => below.valid = true → ¬ above.path <+: below.path

theorem sound_start : Sound start where
  nonempty := by simp [start]
  resolves := by simp [start, Entries.resolve]
  apart := by simp [start]

theorem Sound.exists_top {s : State} (h : Sound s) {path : List Step} {below : List Pointer}
    (hstack : s.stack = ⟨path, true⟩ :: below) :
    ∃ inner, Entries.resolve path s.data = some inner := by
  have htop : (⟨path, true⟩ : Pointer) ∈ s.stack := by
    rw [hstack]
    exact List.mem_cons_self
  exact Option.isSome_iff_exists.mp (h.resolves ⟨path, true⟩ htop rfl)

theorem Sound.dedent {s : State} (h : Sound s) (indent : ℕ) : Sound (s.dedent indent) := by
  have hlength : 0 < s.stack.length := List.length_pos_of_ne_nil h.nonempty
  rw [State.dedent_eq]
  refine ⟨?_, fun p hp => h.resolves p (List.mem_of_mem_drop hp), h.apart.drop⟩
  intro hnil
  have hzero := congrArg List.length hnil
  rw [List.length_drop, List.length_nil] at hzero
  omega

theorem Sound.atIndent {s : State} (h : Sound s) (indent : ℕ) : Sound (s.atIndent indent) :=
  ⟨h.nonempty, h.resolves, h.apart⟩

/-- Pointers into a value are dropped when it is assigned, and the others still resolve. -/
theorem Sound.update_assign {s : State} (h : Sound s) (owner : List Step) (key : Bytes)
    (value : Value) (lists : List ListPointer) :
    Sound { s.invalidate owner key with
      data := Entries.update owner (Entries.assign key value) s.data, lists := lists } where
  nonempty := by simp [State.invalidate, h.nonempty]
  resolves := by
    intro p hp hvalid
    obtain ⟨q, hq, rfl⟩ := List.mem_map.mp hp
    obtain ⟨hold, houtside⟩ : q.valid = true ∧ ¬ Inside owner key q.path := by
      simpa using hvalid
    exact Entries.resolve_update_assign value houtside (h.resolves q hq hold)
  apart := by
    refine List.pairwise_map.mpr (h.apart.imp fun happart hvalid => happart ?_)
    exact (Bool.and_eq_true_iff.mp hvalid).1

/-- A pointer into the value that has been assigned goes on top. -/
theorem Sound.push {s : State} (h : Sound s) {p : Pointer}
    (hresolves : (Entries.resolve p.path s.data).isSome = true)
    (houtside : ∀ q ∈ s.stack, q.valid = true → ¬ p.path <+: q.path) :
    Sound { s with stack := p :: s.stack } where
  nonempty := by simp
  resolves := by
    intro q hq hvalid
    rcases List.mem_cons.mp hq with rfl | hq
    · exact hresolves
    · exact h.resolves q hq hvalid
  apart := List.pairwise_cons.mpr ⟨houtside, h.apart⟩

/-! ## What the stores do -/

/-- What has been stored has been stored through a valid pointer. -/
theorem valid_of_store {top : Pointer} {stored next : State}
    (h : (if top.valid then Except.ok stored else .error Failure.undefined) = .ok next) :
    top = ⟨top.path, true⟩ ∧ next = stored := by
  split at h
  · rename_i hvalid
    obtain ⟨path, valid⟩ := top
    obtain rfl : valid = true := hvalid
    exact ⟨rfl, (Except.ok.inj h).symm⟩
  · exact absurd h (by simp)

theorem assign_ok {key : Bytes} {value : Value} {s next : State}
    (h : s.assign key value = .ok next) :
    ∃ path below, s.stack = ⟨path, true⟩ :: below ∧
      next = { (s.invalidate path key).dropLists path key with
        data := Entries.update path (Entries.assign key value) s.data } := by
  unfold State.assign at h
  split at h
  · exact absurd h (by simp)
  · rename_i top below hstack
    obtain ⟨htop, hnext⟩ := valid_of_store h
    exact ⟨top.path, below, hstack.trans (congrArg (· :: below) htop), hnext⟩

theorem emplace_ok {key : Bytes} {value : Value} {s next : State}
    (h : s.emplace key value = .ok next) :
    ∃ path below, s.stack = ⟨path, true⟩ :: below ∧
      next = { s with data := Entries.update path (Entries.emplace key value) s.data } := by
  unfold State.emplace at h
  split at h
  · exact absurd h (by simp)
  · rename_i top below hstack
    obtain ⟨htop, hnext⟩ := valid_of_store h
    exact ⟨top.path, below, hstack.trans (congrArg (· :: below) htop), hnext⟩

theorem pushItem_ok {list : ListPointer} {s next : State} (h : s.pushItem list = .ok next) :
    ∃ items, list.valid = true ∧
      (Entries.resolve list.owner s.data).bind (Entries.lookup list.key) = some (.maps items) ∧
      next = { s with
        data := Entries.update list.owner (Entries.addItem list.key items) s.data
        stack := ⟨list.owner ++ [⟨list.key, some items.length⟩], true⟩ ::
          (s.grow list.owner list.key).stack } := by
  unfold State.pushItem at h
  split at h
  · rename_i items hvalid hfound
    exact ⟨items, hvalid, hfound, (Except.ok.inj h).symm⟩
  · exact absurd h (by simp)

theorem Sound.assign {key : Bytes} {value : Value} {s next : State} (hs : Sound s)
    (h : s.assign key value = .ok next) : Sound next := by
  obtain ⟨path, below, -, rfl⟩ := assign_ok h
  exact hs.update_assign path key value _

theorem Sound.emplace {key : Bytes} {value : Value} {s next : State} (hs : Sound s)
    (h : s.emplace key value = .ok next) : Sound next := by
  obtain ⟨path, below, -, rfl⟩ := emplace_ok h
  exact ⟨hs.nonempty, fun p hp hvalid =>
    Entries.resolve_update_emplace path p.path key value (hs.resolves p hp hvalid), hs.apart⟩

theorem not_inside_self (path : List Step) (key : Bytes) : ¬ Inside path key path := by
  intro hinside
  obtain ⟨step, rest, hpath, -⟩ := inside_iff.mp hinside
  have hlength := congrArg List.length hpath
  rw [List.length_append, List.length_cons] at hlength
  omega

theorem Sound.assign_pushMap {key : Bytes} {s next : State} (hs : Sound s)
    (h : s.assign key (.map []) = .ok next) : Sound (next.pushMap key) := by
  have hnext := hs.assign h
  obtain ⟨path, below, hstack, rfl⟩ := assign_ok h
  obtain ⟨inner, hinner⟩ := hs.exists_top hstack
  have hpush : State.pushMap key { (s.invalidate path key).dropLists path key with
      data := Entries.update path (Entries.assign key (.map [])) s.data } =
      { (s.invalidate path key).dropLists path key with
        data := Entries.update path (Entries.assign key (.map [])) s.data
        stack := ⟨path ++ [⟨key, none⟩], true⟩ :: (s.invalidate path key).stack } := by
    simp [State.pushMap, State.invalidate, State.dropLists, hstack]
  rw [hpush]
  refine hnext.push (p := ⟨path ++ [⟨key, none⟩], true⟩) ?_ fun q hq hvalid hprefix => ?_
  · simp [Entries.resolve_append, Entries.resolve_update_self hinner, Entries.resolve,
      Entries.child]
  · -- a pointer below the new one would be inside the value that was assigned
    obtain ⟨old, hold, rfl⟩ := List.mem_map.mp hq
    have houtside : ¬ Inside path key old.path := by
      simpa using (Bool.and_eq_true_iff.mp hvalid).2
    obtain ⟨rest, hrest⟩ := hprefix
    exact houtside (inside_iff.mpr ⟨⟨key, none⟩, rest, by rw [← hrest]; simp, rfl⟩)

/-- The number of a new item is not on the way to any map. -/
theorem not_prefix_of_new {list : ListPointer} {items : List Entries} {path : List Step}
    {data : Entries}
    (hfound : (Entries.resolve list.owner data).bind (Entries.lookup list.key) =
      some (.maps items))
    (h : (Entries.resolve path data).isSome = true) :
    ¬ (list.owner ++ [⟨list.key, some items.length⟩]) <+: path := by
  rintro ⟨rest, rfl⟩
  obtain ⟨inner, hinner, hlookup⟩ := Option.bind_eq_some_iff.mp hfound
  rw [List.append_assoc, Entries.resolve_append, hinner] at h
  simp [Entries.resolve, Entries.child, hlookup] at h

theorem Sound.pushItem {list : ListPointer} {s next : State} (hs : Sound s)
    (h : s.pushItem list = .ok next) : Sound next := by
  obtain ⟨items, -, hfound, rfl⟩ := pushItem_ok h
  obtain ⟨inner, hinner, -⟩ := Option.bind_eq_some_iff.mp hfound
  have hgrown : Sound { s.grow list.owner list.key with
      data := Entries.update list.owner (Entries.addItem list.key items) s.data } := by
    refine ⟨by simp [State.grow, hs.nonempty], fun p hp hvalid => ?_, ?_⟩
    · obtain ⟨q, hq, rfl⟩ := List.mem_map.mp hp
      exact Entries.resolve_update_addItem hfound
        (hs.resolves q hq (Bool.and_eq_true_iff.mp hvalid).1)
    · refine List.pairwise_map.mpr (hs.apart.imp fun happart hvalid => happart ?_)
      exact (Bool.and_eq_true_iff.mp hvalid).1
  refine hgrown.push (p := ⟨list.owner ++ [⟨list.key, some items.length⟩], true⟩) ?_
    fun q hq hvalid => ?_
  · simp [Entries.resolve_append, Entries.resolve_update_self hinner, Entries.resolve,
      Entries.child, Entries.addItem]
  · obtain ⟨old, hold, rfl⟩ := List.mem_map.mp hq
    exact not_prefix_of_new hfound (hs.resolves old hold (Bool.and_eq_true_iff.mp hvalid).1)

/-! ## Every line -/

theorem Sound.itemLine {text : Bytes} {s next : State} (hs : Sound s)
    (h : itemLine text s = .ok next) : Sound next := by
  unfold Yaml.itemLine at h
  split at h
  · exact absurd h (by simp)
  · obtain ⟨pushed, hpushed, h⟩ := exists_ok_of_bind h
    have hsound := hs.pushItem hpushed
    dsimp only at h
    split at h
    · exact Except.ok.inj h ▸ hsound
    · split at h
      · exact absurd h (by simp)
      · split at h
        · obtain ⟨assigned, hassigned, h⟩ := exists_ok_of_bind h
          exact Except.ok.inj h ▸ hsound.assign_pushMap hassigned
        · exact hsound.assign h

theorem Sound.keyLine {indent : ℕ} {isArray : Bool} {line : Bytes} {s next : State} (hs : Sound s)
    (h : keyLine indent isArray line s = .ok next) : Sound next := by
  unfold Yaml.keyLine at h
  split at h
  · exact absurd h (by simp)
  · split at h
    · split at h
      · obtain ⟨assigned, hassigned, h⟩ := exists_ok_of_bind h
        have hsound := hs.assign hassigned
        rw [← Except.ok.inj h, State.pushList]
        split
        · exact hsound
        · exact ⟨hsound.nonempty, hsound.resolves, hsound.apart⟩
      · obtain ⟨assigned, hassigned, h⟩ := exists_ok_of_bind h
        exact Except.ok.inj h ▸ hs.assign_pushMap hassigned
    · split at h
      · exact hs.assign h
      · obtain ⟨value, -, h⟩ := exists_ok_of_bind h
        exact hs.emplace h

theorem exists_ok_of_map {ε α β : Type} {x : Except ε α} {f : α → β} {b : β}
    (h : x.map f = .ok b) : ∃ a, x = .ok a ∧ f a = b := by
  cases x with
  | error error => exact absurd h (by simp [Except.map])
  | ok a => exact ⟨a, rfl, Except.ok.inj h⟩

theorem Sound.parseLine {rest : List Bytes} {raw : Bytes} {s next : State} (hs : Sound s)
    (h : parseLine rest raw s = .ok next) : Sound next := by
  by_cases hignored : Ignored (trim raw)
  · rw [parseLine_of_ignored hignored] at h
    exact Except.ok.inj h ▸ hs
  · have hdedent := hs.dedent (countIndent raw)
    by_cases hitem : IsItem (trim raw)
    · rw [parseLine_of_item hignored hitem] at h
      obtain ⟨read, hread, rfl⟩ := exists_ok_of_map h
      exact (hdedent.itemLine hread).atIndent _
    · rw [parseLine_of_key hignored hitem] at h
      obtain ⟨read, hread, rfl⟩ := exists_ok_of_map h
      exact (hdedent.keyLine hread).atIndent _

/-- Whatever has been read, the pointers are sound. -/
theorem Sound.parseLines {more lines : List Bytes} {s next : State} (hs : Sound s)
    (h : parseLines more lines s = .ok next) : Sound next := by
  induction lines generalizing s with
  | nil => exact Except.ok.inj h ▸ hs
  | cons raw lines ih =>
      obtain ⟨middle, hmiddle, h⟩ := exists_ok_of_bind h
      exact ih (hs.parseLine hmiddle) h

end Yaml

end Sok
