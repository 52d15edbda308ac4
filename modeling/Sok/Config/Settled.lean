import Sok.Config.Pointers

/-!
# Values that stay

A value that no open pointer leads into is changed by no line, unless the line stores at
its key again, or at one of the keys on the way to its map.
-/

namespace Sok

open Yaml (Inside inside_iff inside_nil_cons inside_cons_cons)

namespace Entries

/-! ## The value at a key of a map -/

/-- The value at a key of the map at the end of a path. -/
def valueAt (path : List Step) (key : Bytes) (entries : Entries) : Option Value :=
  (resolve path entries).bind (lookup key)

theorem lookup_setChild_of_ne {key : Bytes} {step : Step} (h : key ≠ step.key)
    (inner entries : Entries) : lookup key (setChild step inner entries) = lookup key entries := by
  unfold setChild
  split
  · exact lookup_assign_of_ne h _ _
  · exact lookup_assign_of_ne h _ _
  · rfl

theorem lookup_emplace_of_ne {key other : Bytes} (h : other ≠ key) (value : Value)
    (entries : Entries) : lookup other (emplace key value entries) = lookup other entries := by
  unfold emplace
  split
  · rfl
  · exact lookup_concat_of_ne h value entries

theorem child_congr {step : Step} {first second : Entries}
    (h : lookup step.key first = lookup step.key second) : child step first = child step second := by
  simp only [child, h]

/-- A change to a map that is not inside the value keeps the value, if it does so seen from
that map. -/
theorem valueAt_update {f : Entries → Entries} {owner path : List Step} {key : Bytes}
    {value : Value} {entries : Entries} (houtside : ¬ Inside path key owner)
    (hkeep : ∀ rest inner, path = owner ++ rest → resolve owner entries = some inner →
      valueAt rest key inner = some value → valueAt rest key (f inner) = some value)
    (h : valueAt path key entries = some value) :
    valueAt path key (update owner f entries) = some value := by
  induction owner generalizing path entries with
  | nil => exact hkeep path entries rfl rfl h
  | cons first owner ih =>
      rw [update]
      cases hchild : child first entries with
      | none => exact h
      | some inner =>
          cases path with
          | nil =>
              have hne : key ≠ first.key := fun heq => houtside (inside_nil_cons.mpr heq.symm)
              simpa only [valueAt, resolve, Option.bind_some, lookup_setChild_of_ne hne] using h
          | cons step path =>
              by_cases hstep : step = first
              · subst hstep
                simp only [valueAt, resolve, hchild, child_setChild_self hchild,
                  Option.bind_some] at h ⊢
                refine ih (fun hinside => houtside (inside_cons_cons.mpr hinside)) ?_ h
                intro rest last hrest hlast
                exact hkeep rest last (by rw [hrest]; rfl) (by simp [resolve, hchild, hlast])
              · simpa only [valueAt, resolve, child_setChild_of_ne hstep] using h

theorem valueAt_update_of_ne {f : Entries → Entries} {owner path : List Step} {key other : Bytes}
    {value : Value} {entries : Entries}
    (hf : ∀ name ≠ key, ∀ inner, lookup name (f inner) = lookup name inner)
    (houtside : ¬ Inside path other owner) (hway : ¬ Inside owner key path)
    (hother : ¬ (owner = path ∧ key = other)) (h : valueAt path other entries = some value) :
    valueAt path other (update owner f entries) = some value := by
  refine valueAt_update houtside (fun rest inner hrest _ hvalue => ?_) h
  cases rest with
  | nil =>
      have hne : other ≠ key := fun heq => hother ⟨by simpa using hrest.symm, heq.symm⟩
      simpa only [valueAt, resolve, Option.bind_some, hf other hne] using hvalue
  | cons step rest =>
      have hne : step.key ≠ key := fun heq => hway (inside_iff.mpr ⟨step, rest, hrest, heq⟩)
      simpa only [valueAt, resolve, child_congr (hf step.key hne inner)] using hvalue

end Entries

namespace Yaml

open Entries (valueAt)

/-- No open pointer leads into the value at the key. -/
structure Shut (owner : List Step) (key : Bytes) (value : Value) (s : State) : Prop where
  stored : valueAt owner key s.data = some value
  stack : ∀ p ∈ s.stack, p.valid = true → ¬ Inside owner key p.path
  lists : ∀ l ∈ s.lists, l.valid = true →
    ¬ Inside owner key l.owner ∧ ¬ (l.owner = owner ∧ l.key = key)

/-- No open pointer leads into the vector at the key. -/
abbrev Settled (owner : List Step) (key : Bytes) (items : List Entries) (s : State) : Prop :=
  Shut owner key (.maps items) s

/-- The map that a line with this indentation stores in. -/
def receiver (indent : ℕ) (s : State) : Option Pointer :=
  (s.dedent indent).stack.head?

/-- A line that is neither skipped nor an item. -/
def IsKeyLine (raw : Bytes) : Prop :=
  ¬ Ignored (trim raw) ∧ ¬ IsItem (trim raw)

instance (raw : Bytes) : Decidable (IsKeyLine raw) :=
  inferInstanceAs (Decidable (_ ∧ _))

/-- The map at `path` can store at `name` without touching the value at `key` of `owner`: it is
not stored there, nor on the way there. -/
def Apart (owner : List Step) (key : Bytes) (path : List Step) (name : Bytes) : Prop :=
  ¬ Inside path name owner ∧ ¬ (path = owner ∧ name = key)

/-- The line stores at the key of the owner, or at one of the keys on the way to the owner. -/
def Repeats (owner : List Step) (key : Bytes) (raw : Bytes) (s : State) : Prop :=
  IsKeyLine raw ∧ ∃ p ∈ receiver (countIndent raw) s, ∃ name value,
    splitColon (trim raw) = some (name, value) ∧ ¬ Apart owner key p.path name

namespace Shut

variable {owner : List Step} {key : Bytes} {kept : Value} {s next : State}

theorem atIndent (h : Shut owner key kept s) (indent : ℕ) :
    Shut owner key kept (s.atIndent indent) :=
  ⟨h.stored, h.stack, h.lists⟩

theorem dedent (h : Shut owner key kept s) (indent : ℕ) :
    Shut owner key kept (s.dedent indent) := by
  refine ⟨?_, fun p hp => ?_, fun l hl => h.lists l (State.mem_lists_of_dedent hl)⟩
  · rw [State.data_dedent]
    exact h.stored
  · rw [State.dedent_eq] at hp
    exact h.stack p (List.mem_of_mem_drop hp)

theorem not_inside_child {path : List Step} {step : Step} (h : ¬ Inside owner key path)
    (hother : ¬ (path = owner ∧ step.key = key)) : ¬ Inside owner key (path ++ [step]) := by
  intro hinside
  obtain ⟨first, rest, hpath, hkey⟩ := inside_iff.mp hinside
  rcases rest.eq_nil_or_concat' with rfl | ⟨front, last, rfl⟩
  · obtain ⟨hpath, hstep⟩ := List.append_inj' hpath rfl
    exact hother ⟨hpath, by rw [List.singleton_inj.mp hstep, hkey]⟩
  · have hsplit : path ++ [step] = (owner ++ first :: front) ++ [last] := by simpa using hpath
    exact h (inside_iff.mpr ⟨first, front, (List.append_inj' hsplit rfl).1, hkey⟩)

theorem of_invalidate (h : Shut owner key kept s) (path : List Step) (name : Bytes)
    {data : Entries} (hdata : valueAt owner key data = some kept) :
    Shut owner key kept { s.invalidate path name with data := data } where
  stored := hdata
  stack := by
    intro p hp hvalid
    obtain ⟨q, hq, rfl⟩ := List.mem_map.mp hp
    exact h.stack q hq (Bool.and_eq_true_iff.mp hvalid).1
  lists := by
    intro l hl hvalid
    obtain ⟨m, hm, rfl⟩ := List.mem_map.mp hl
    exact h.lists m hm (Bool.and_eq_true_iff.mp hvalid).1

theorem assign {name : Bytes} {value : Value} (h : Shut owner key kept s)
    (hapart : ∀ p ∈ s.stack.head?, Apart owner key p.path name)
    (hok : s.assign name value = .ok next) : Shut owner key kept next := by
  obtain ⟨path, below, hstack, rfl⟩ := assign_ok hok
  obtain ⟨hway, hother⟩ := hapart ⟨path, true⟩ (by rw [hstack]; rfl)
  have houtside : ¬ Inside owner key path :=
    h.stack ⟨path, true⟩ (by rw [hstack]; exact List.mem_cons_self) rfl
  have hdata : valueAt owner key (Entries.update path (Entries.assign name value) s.data) =
      some kept :=
    Entries.valueAt_update_of_ne (fun _ hne _ => Entries.lookup_assign_of_ne hne _ _) houtside hway
      hother h.stored
  have hnext := h.of_invalidate path name hdata
  refine ⟨hdata, hnext.stack, fun l hl hvalid => ?_⟩
  obtain ⟨m, hm, rfl⟩ := List.mem_map.mp hl
  exact hnext.lists m hm (Bool.and_eq_true_iff.mp hvalid).1

theorem emplace {name : Bytes} {value : Value} (h : Shut owner key kept s)
    (hapart : ∀ p ∈ s.stack.head?, Apart owner key p.path name)
    (hok : s.emplace name value = .ok next) : Shut owner key kept next := by
  obtain ⟨path, below, hstack, rfl⟩ := emplace_ok hok
  obtain ⟨hway, hother⟩ := hapart ⟨path, true⟩ (by rw [hstack]; rfl)
  have houtside : ¬ Inside owner key path :=
    h.stack ⟨path, true⟩ (by rw [hstack]; exact List.mem_cons_self) rfl
  exact ⟨Entries.valueAt_update_of_ne (fun _ hne _ => Entries.lookup_emplace_of_ne hne _ _)
    houtside hway hother h.stored, h.stack, h.lists⟩

theorem top_of_assign {name : Bytes} {value : Value} (hok : s.assign name value = .ok next) :
    next.stack.head? = s.stack.head? ∧ ∀ p ∈ next.stack.head?, p.valid = true := by
  obtain ⟨path, below, hstack, rfl⟩ := assign_ok hok
  simp [State.dropLists, State.invalidate, hstack, not_inside_self]

theorem pushMap {name : Bytes} (h : Shut owner key kept s)
    (hvalid : ∀ p ∈ s.stack.head?, p.valid = true)
    (hapart : ∀ p ∈ s.stack.head?, Apart owner key p.path name) :
    Shut owner key kept (s.pushMap name) := by
  unfold State.pushMap
  split
  · exact h
  · rename_i top below hstack
    have houtside := h.stack top (by rw [hstack]; exact List.mem_cons_self)
      (hvalid top (by rw [hstack]; rfl))
    have hother := (hapart top (by rw [hstack]; rfl)).2
    refine ⟨h.stored, fun p hp hpvalid => ?_, h.lists⟩
    rcases List.mem_cons.mp hp with rfl | hp
    · exact not_inside_child houtside hother
    · exact h.stack p hp hpvalid

theorem pushList {name : Bytes} {indent : ℕ} (h : Shut owner key kept s)
    (hvalid : ∀ p ∈ s.stack.head?, p.valid = true)
    (hapart : ∀ p ∈ s.stack.head?, Apart owner key p.path name) :
    Shut owner key kept (s.pushList name indent) := by
  unfold State.pushList
  split
  · exact h
  · rename_i top below hstack
    have houtside := h.stack top (by rw [hstack]; exact List.mem_cons_self)
      (hvalid top (by rw [hstack]; rfl))
    refine ⟨h.stored, h.stack, fun l hl hlvalid => ?_⟩
    rcases List.mem_cons.mp hl with rfl | hl
    · exact ⟨houtside, (hapart top (by rw [hstack]; rfl)).2⟩
    · exact h.lists l hl hlvalid

/-- The new item is not on the way to the owner. -/
theorem pushItem {list : ListPointer} (h : Shut owner key kept s) (hlist : list ∈ s.lists)
    (hok : s.pushItem list = .ok next) :
    Shut owner key kept next ∧
      ∀ p ∈ next.stack.head?, p.valid = true ∧ ∀ name, Apart owner key p.path name := by
  obtain ⟨stored, hvalid, hfound, rfl⟩ := pushItem_ok hok
  obtain ⟨houtside, hother⟩ := h.lists list hlist hvalid
  obtain ⟨inner, hinner, hlookup⟩ := Option.bind_eq_some_iff.mp hfound
  have hdata : valueAt owner key
      (Entries.update list.owner (Entries.addItem list.key stored) s.data) =
        some kept := by
    refine Entries.valueAt_update houtside (fun rest last hrest hlast hvalue => ?_) h.stored
    obtain rfl : inner = last := Option.some.inj (hinner.symm.trans hlast)
    cases rest with
    | nil =>
        have hne : key ≠ list.key := fun heq => hother ⟨by simpa using hrest.symm, heq.symm⟩
        simpa only [valueAt, Entries.resolve, Option.bind_some, Entries.addItem,
          Entries.lookup_assign_of_ne hne] using hvalue
    | cons step rest =>
        obtain ⟨map, hmap, hname⟩ := Option.bind_eq_some_iff.mp hvalue
        obtain ⟨child, hchild, hresolve⟩ := Option.bind_eq_some_iff.mp hmap
        simp only [valueAt, Entries.resolve, Entries.child_addItem hlookup hchild,
          Option.bind_some, hresolve, hname]
  obtain ⟨map, hmap, -⟩ := Option.bind_eq_some_iff.mp h.stored
  have hnew := not_prefix_of_new hfound (by rw [hmap]; rfl : (Entries.resolve owner s.data).isSome)
  refine ⟨⟨hdata, fun p hp hpvalid => ?_, h.lists⟩, ?_⟩
  · rcases List.mem_cons.mp hp with rfl | hp
    · exact not_inside_child houtside hother
    · obtain ⟨q, hq, rfl⟩ := List.mem_map.mp hp
      exact h.stack q hq (Bool.and_eq_true_iff.mp hpvalid).1
  · intro p hp
    obtain rfl := Option.some.inj hp
    refine ⟨rfl, fun name => ⟨fun hinside => hnew hinside.1, ?_⟩⟩
    rintro ⟨heq, -⟩
    exact hnew (heq ▸ List.prefix_rfl)

/-! ## Lines -/

theorem assign_pushMap {name : Bytes} {value : Value} {read : State}
    (h : Shut owner key kept s) (hapart : ∀ p ∈ s.stack.head?, Apart owner key p.path name)
    (hok : s.assign name value = .ok read) : Shut owner key kept (read.pushMap name) := by
  obtain ⟨htop, hvalid⟩ := top_of_assign hok
  exact (h.assign hapart hok).pushMap hvalid (htop ▸ hapart)

theorem itemLine {text : Bytes} (h : Shut owner key kept s)
    (hok : itemLine text s = .ok next) : Shut owner key kept next := by
  unfold Yaml.itemLine at hok
  split at hok
  · exact absurd hok (by simp)
  · rename_i list lists hlists
    obtain ⟨pushed, hpushed, hok⟩ := exists_ok_of_bind hok
    obtain ⟨hsettled, htop⟩ := h.pushItem (by rw [hlists]; exact List.mem_cons_self) hpushed
    have hapart (name : Bytes) : ∀ p ∈ pushed.stack.head?, Apart owner key p.path name :=
      fun p hp => (htop p hp).2 name
    dsimp only at hok
    split at hok
    · exact Except.ok.inj hok ▸ hsettled
    · split at hok
      · exact absurd hok (by simp)
      · split at hok
        · obtain ⟨assigned, hassigned, hok⟩ := exists_ok_of_bind hok
          exact Except.ok.inj hok ▸ hsettled.assign_pushMap (hapart _) hassigned
        · exact hsettled.assign (hapart _) hok

theorem keyLine {indent : ℕ} {isArray : Bool} {line : Bytes} (h : Shut owner key kept s)
    (hapart : ∀ name value, splitColon line = some (name, value) →
      ∀ p ∈ s.stack.head?, Apart owner key p.path name)
    (hok : keyLine indent isArray line s = .ok next) : Shut owner key kept next := by
  unfold Yaml.keyLine at hok
  split at hok
  · exact absurd hok (by simp)
  · rename_i name value hsplit
    have hname := hapart name value hsplit
    split at hok
    · split at hok
      · obtain ⟨assigned, hassigned, hok⟩ := exists_ok_of_bind hok
        obtain ⟨htop, hvalid⟩ := top_of_assign hassigned
        exact Except.ok.inj hok ▸ (h.assign hname hassigned).pushList hvalid (htop ▸ hname)
      · obtain ⟨assigned, hassigned, hok⟩ := exists_ok_of_bind hok
        exact Except.ok.inj hok ▸ h.assign_pushMap hname hassigned
    · split at hok
      · exact h.assign hname hok
      · obtain ⟨stored, -, hok⟩ := exists_ok_of_bind hok
        exact h.emplace hname hok

theorem parseLine {rest : List Bytes} {raw : Bytes}
    (h : Shut owner key kept (s.dedent (countIndent raw)))
    (hignored : ¬ Ignored (trim raw)) (hfresh : ¬ Repeats owner key raw s)
    (hok : parseLine rest raw s = .ok next) : Shut owner key kept next := by
  by_cases hitem : IsItem (trim raw)
  · rw [parseLine_of_item hignored hitem] at hok
    obtain ⟨read, hread, rfl⟩ := exists_ok_of_map hok
    exact (h.itemLine hread).atIndent _
  · rw [parseLine_of_key hignored hitem] at hok
    obtain ⟨read, hread, rfl⟩ := exists_ok_of_map hok
    refine (h.keyLine (fun name value hsplit p hp => ?_) hread).atIndent _
    by_contra hrepeats
    exact hfresh ⟨⟨hignored, hitem⟩, p, hp, name, value, hsplit, hrepeats⟩

/-- From then on no line changes the value. -/
theorem parseLines {more lines : List Bytes} (h : Shut owner key kept s)
    (hfresh : ∀ front raw rest middle, lines = front ++ raw :: rest →
      Yaml.parseLines (raw :: rest ++ more) front s = .ok middle → ¬ Repeats owner key raw middle)
    (hok : Yaml.parseLines more lines s = .ok next) : Shut owner key kept next := by
  induction lines generalizing s with
  | nil => exact Except.ok.inj hok ▸ h
  | cons raw lines ih =>
      obtain ⟨middle, hmiddle, hrest⟩ := exists_ok_of_bind hok
      have hnext : Shut owner key kept middle := by
        by_cases hignored : Ignored (trim raw)
        · rw [parseLine_of_ignored hignored] at hmiddle
          exact Except.ok.inj hmiddle ▸ h
        · exact Shut.parseLine (h.dedent _) hignored (hfresh [] raw lines s rfl rfl) hmiddle
      refine ih hnext (fun front other rest last hsplit hlast => ?_) hrest
      refine hfresh (raw :: front) other rest last (by rw [hsplit]; rfl) ?_
      rw [Yaml.parseLines]
      subst hsplit
      rw [List.append_assoc] at hmiddle
      rw [hmiddle]
      exact hlast

end Shut

end Yaml

end Sok
