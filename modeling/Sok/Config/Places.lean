import Sok.Config.Yaml

/-!
# Places in the data

`parseFile` holds on to the maps it fills by pointers into `data`.  A pointer to a map is
modelled by its path from the root; a step of a path goes to the map at a key, or to one
of the maps of the vector at a key.  `resolve` follows a path and `update` changes the map
at its end.

A vector of maps is found at the key of its owner, so the step without an index also
stands for the place that holds the vector.
-/

namespace Sok

/-- The entries of a `std::map<std::string, std::any>`. -/
abbrev Entries := List (Bytes × Value)

namespace Entries

/-! ## Entries of a map -/

/-- `find(key)`. -/
def lookup (key : Bytes) (entries : Entries) : Option Value :=
  (entries.find? fun entry => entry.1 == key).map Prod.snd

/-- `map[key] = value`. -/
def assign (key : Bytes) (value : Value) : Entries → Entries
  | [] => [(key, value)]
  | entry :: rest =>
      if entry.1 = key then (key, value) :: rest else entry :: assign key value rest

/-- `map.emplace(key, value)`: an entry that is there stays. -/
def emplace (key : Bytes) (value : Value) (entries : Entries) : Entries :=
  if (lookup key entries).isSome then entries else entries ++ [(key, value)]

theorem lookup_nil (key : Bytes) : lookup key [] = none := rfl

theorem lookup_cons (key : Bytes) (entry : Bytes × Value) (rest : Entries) :
    lookup key (entry :: rest) = if entry.1 = key then some entry.2 else lookup key rest := by
  by_cases h : entry.1 = key
  · simp [lookup, List.find?, h]
  · have hne : (entry.1 == key) = false := by simpa using h
    simp [lookup, List.find?, h, hne]

@[simp] theorem lookup_assign_self (key : Bytes) (value : Value) (entries : Entries) :
    lookup key (assign key value entries) = some value := by
  induction entries with
  | nil => simp [assign, lookup_cons]
  | cons entry rest ih =>
      by_cases h : entry.1 = key
      · simp [assign, h, lookup_cons]
      · simp [assign, h, lookup_cons, ih]

theorem lookup_assign_of_ne {key other : Bytes} (h : other ≠ key) (value : Value)
    (entries : Entries) : lookup other (assign key value entries) = lookup other entries := by
  induction entries with
  | nil => simp [assign, lookup_cons, lookup_nil, h.symm]
  | cons entry rest ih =>
      by_cases hentry : entry.1 = key
      · simp [assign, hentry, lookup_cons, h.symm]
      · simp [assign, hentry, lookup_cons, ih]

theorem assign_assign (key : Bytes) (first second : Value) (entries : Entries) :
    assign key second (assign key first entries) = assign key second entries := by
  induction entries with
  | nil => simp [assign]
  | cons entry rest ih =>
      by_cases h : entry.1 = key
      · simp [assign, h]
      · simp [assign, h, ih]

theorem lookup_append (key : Bytes) (front back : Entries) :
    lookup key (front ++ back) = (lookup key front).or (lookup key back) := by
  simp only [lookup, List.find?_append]
  cases front.find? fun entry => entry.1 == key <;> rfl

theorem lookup_concat_self {key : Bytes} {entries : Entries} (h : lookup key entries = none)
    (value : Value) : lookup key (entries ++ [(key, value)]) = some value := by
  rw [lookup_append, h, lookup_cons, if_pos rfl, Option.none_or]

theorem lookup_concat_of_ne {key other : Bytes} (h : other ≠ key) (value : Value)
    (entries : Entries) : lookup other (entries ++ [(key, value)]) = lookup other entries := by
  rw [lookup_append, lookup_cons, if_neg (Ne.symm h), lookup_nil, Option.or_none]

theorem lookup_concat_of_notMem {key : Bytes} {keys : List Bytes} {entries : Entries}
    (hkey : key ∉ keys) (h : ∀ other ∈ keys, lookup other entries = none) (value : Value) :
    ∀ other ∈ keys, lookup other (entries ++ [(key, value)]) = none := by
  intro other hother
  have hne : other ≠ key := by
    rintro rfl
    exact hkey hother
  rw [lookup_concat_of_ne hne, h other hother]

theorem assign_of_lookup_eq_none {key : Bytes} {entries : Entries} (h : lookup key entries = none)
    (value : Value) : assign key value entries = entries ++ [(key, value)] := by
  induction entries with
  | nil => rfl
  | cons entry rest ih =>
      rw [lookup_cons] at h
      split at h
      · exact absurd h (by simp)
      · rename_i hne
        rw [assign, if_neg hne, ih h, List.cons_append]

theorem emplace_of_lookup_eq_some {key : Bytes} {old : Value} {entries : Entries}
    (h : lookup key entries = some old) (value : Value) : emplace key value entries = entries := by
  simp [emplace, h]

theorem emplace_of_lookup_eq_none {key : Bytes} {entries : Entries}
    (h : lookup key entries = none) (value : Value) :
    emplace key value entries = entries ++ [(key, value)] := by
  simp [emplace, h]

theorem lookup_emplace_of_eq_some {key other : Bytes} {value found : Value} {entries : Entries}
    (h : lookup other entries = some found) :
    lookup other (emplace key value entries) = some found := by
  unfold emplace
  split
  · exact h
  · rw [lookup_append, h, Option.some_or]

end Entries

/-! ## Steps -/

/-- One step of a path: to the map at the key, or to a map of the vector at the key. -/
@[ext] structure Step where
  key : Bytes
  index : Option ℕ
  deriving DecidableEq

namespace Entries

/-- The map behind a step. -/
def child (step : Step) (entries : Entries) : Option Entries :=
  match lookup step.key entries, step.index with
  | some (.map inner), none => some inner
  | some (.maps items), some i => items[i]?
  | _, _ => none

/-- Replace the map behind a step. -/
def setChild (step : Step) (inner : Entries) (entries : Entries) : Entries :=
  match lookup step.key entries, step.index with
  | some (.map _), none => assign step.key (.map inner) entries
  | some (.maps items), some i => assign step.key (.maps (items.set i inner)) entries
  | _, _ => entries

/-- The map at the end of a path. -/
def resolve : List Step → Entries → Option Entries
  | [], entries => some entries
  | step :: path, entries => (child step entries).bind (resolve path)

/-- Change the map at the end of a path. -/
def update : List Step → (Entries → Entries) → Entries → Entries
  | [], f, entries => f entries
  | step :: path, f, entries =>
      match child step entries with
      | some inner => setChild step (update path f inner) entries
      | none => entries

theorem child_setChild_self {step : Step} {entries old : Entries}
    (h : child step entries = some old) (inner : Entries) :
    child step (setChild step inner entries) = some inner := by
  unfold child at h
  split at h
  · rename_i hlookup hindex
    simp [setChild, child, hlookup, hindex]
  · rename_i items i hlookup hindex
    have hlt : i < items.length := (List.getElem?_eq_some_iff.mp h).1
    simp [setChild, child, hlookup, hindex, hlt]
  · exact absurd h (by simp)

theorem child_setChild_of_ne {step other : Step} (hne : other ≠ step) (inner entries : Entries) :
    child other (setChild step inner entries) = child other entries := by
  unfold setChild
  split
  · rename_i hlookup hindex
    by_cases hkey : other.key = step.key
    · have hindex' : other.index ≠ none := by
        intro hnone
        refine hne ?_
        cases other
        cases step
        simp_all
      obtain ⟨j, hj⟩ := Option.ne_none_iff_exists'.mp hindex'
      simp [child, hkey, hlookup, hj]
    · simp [child, lookup_assign_of_ne hkey]
  · rename_i items i hlookup hindex
    by_cases hkey : other.key = step.key
    · cases hother : other.index with
      | none => simp [child, hkey, hlookup, hother]
      | some j =>
          have hij : i ≠ j := by
            rintro rfl
            exact hne (Step.ext hkey (hother.trans hindex.symm))
          simp [child, hkey, hlookup, hother, hij]
    · simp [child, lookup_assign_of_ne hkey]
  · rfl

theorem setChild_setChild (step : Step) (first second entries : Entries) :
    setChild step second (setChild step first entries) = setChild step second entries := by
  cases hlookup : lookup step.key entries with
  | none => simp [setChild, hlookup]
  | some value =>
      cases value <;> cases hindex : step.index <;>
        simp [setChild, hlookup, hindex, assign_assign]

theorem assign_of_lookup_eq_some {key : Bytes} {value : Value} {entries : Entries}
    (h : lookup key entries = some value) : assign key value entries = entries := by
  induction entries with
  | nil => exact absurd h (by simp [lookup_nil])
  | cons entry rest ih =>
      rw [lookup_cons] at h
      split at h
      · rename_i hkey
        obtain rfl := Option.some.inj h
        rw [assign, if_pos hkey, ← hkey]
      · rename_i hne
        rw [assign, if_neg hne, ih h]

theorem setChild_of_child_eq_some {step : Step} {inner entries : Entries}
    (h : child step entries = some inner) : setChild step inner entries = entries := by
  unfold child at h
  split at h
  · rename_i hlookup hindex
    obtain rfl := Option.some.inj h
    simp [setChild, hlookup, hindex, assign_of_lookup_eq_some hlookup]
  · rename_i items i hlookup hindex
    obtain ⟨hlt, rfl⟩ := List.getElem?_eq_some_iff.mp h
    simp [setChild, hlookup, hindex, assign_of_lookup_eq_some hlookup]
  · exact absurd h (by simp)

/-! ## Paths -/

theorem resolve_append (p q : List Step) (entries : Entries) :
    resolve (p ++ q) entries = (resolve p entries).bind (resolve q) := by
  induction p generalizing entries with
  | nil => rfl
  | cons step p ih =>
      rw [List.cons_append, resolve, resolve]
      cases child step entries with
      | none => rfl
      | some inner => exact ih inner

theorem update_append (p q : List Step) (f : Entries → Entries) (entries : Entries) :
    update (p ++ q) f entries = update p (update q f) entries := by
  induction p generalizing entries with
  | nil => rfl
  | cons step p ih =>
      rw [List.cons_append, update, update]
      cases child step entries with
      | none => rfl
      | some inner =>
          simp only
          rw [ih inner]

theorem update_update (path : List Step) (f g : Entries → Entries) (entries : Entries) :
    update path f (update path g entries) = update path (fun inner => f (g inner)) entries := by
  induction path generalizing entries with
  | nil => rfl
  | cons step path ih =>
      cases hchild : child step entries with
      | none => simp [update, hchild]
      | some inner => simp [update, hchild, child_setChild_self hchild, ih, setChild_setChild]

theorem update_id (path : List Step) (entries : Entries) :
    update path (fun inner => inner) entries = entries := by
  induction path generalizing entries with
  | nil => rfl
  | cons step path ih =>
      cases hchild : child step entries with
      | none => simp [update, hchild]
      | some inner => simp [update, hchild, ih, setChild_of_child_eq_some hchild]

theorem update_congr {path : List Step} {f g : Entries → Entries} {data inner : Entries}
    (h : resolve path data = some inner) (hsame : f inner = g inner) :
    update path f data = update path g data := by
  induction path generalizing data with
  | nil =>
      obtain rfl := Option.some.inj h
      exact hsame
  | cons step path ih =>
      obtain ⟨child, hchild, hinner⟩ := Option.bind_eq_some_iff.mp h
      simp only [update, hchild, ih hinner]

theorem resolve_update_self {path : List Step} {entries inner : Entries}
    (h : resolve path entries = some inner) (f : Entries → Entries) :
    resolve path (update path f entries) = some (f inner) := by
  induction path generalizing entries with
  | nil => exact congrArg (some <| f ·) (Option.some.inj h)
  | cons step path ih =>
      obtain ⟨next, hchild, hnext⟩ := Option.bind_eq_some_iff.mp h
      simp [update, hchild, resolve, child_setChild_self hchild, ih hnext]

end Entries

end Sok
