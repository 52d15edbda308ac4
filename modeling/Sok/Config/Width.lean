import Sok.Config.Mapping
import Sok.Config.Settled
import Mathlib.Algebra.GroupWithZero.Nat
import Mathlib.Data.List.Nodup
import Mathlib.Data.List.Perm.Subperm

/-!
# The width of the indentation

The dedent loop closes `⌈w * levels / 2⌉` maps for a line that is so many levels of `w`
spaces less indented, but never the root.  With two spaces per level the count is right; with
one space it is right for a single level, and with three or more only for a line at the top
level (`Counted`).

If it is right everywhere the entries are stored where they belong.  Otherwise every scalar
is stored at least as deep as it belongs, and one of them deeper, or the other way around;
so the scalars that have survived cannot be in the places of the tree, since the depths of
these would have another sum.

## Strategy

One direction is an induction on the tree: when every dedent is counted right the maps on
the stack are those on the path of the entry, so the stores are the `proper` ones.

The other direction counts.  Every scalar of the tree is stored once, in whatever map, and
the places of the tree are as many; if the data is the same, the places stored at are a
permutation of the places of the tree (`perm_of_same`), so their depths have the same sum.
But each dedent that is counted wrong moves the rest of the map in one direction only
(`Off`), and the direction depends on the width alone.  Equality of the sums therefore
forces equality at every scalar, and so a right count at every dedent
(`counted_of_weight_eq`).
-/

namespace Sok.Yaml

/-! ## Counting the maps to close -/

/-- With `width` spaces per level the dedent loop closes as many maps as there are levels. -/
def Counted (width : ℕ) (d : Dedent) : Prop :=
  width = 2 ∨ width = 1 ∧ d.levels = 1 ∨ 3 ≤ width ∧ d.target = 0

theorem counted_two (d : Dedent) : Counted 2 d := Or.inl rfl

theorem min_rounds_of_counted {width : ℕ} {d : Dedent} (h : Counted width d) :
    min (roundsOf width d.levels) (d.target + d.levels) = d.levels := by
  unfold roundsOf
  rcases h with rfl | ⟨rfl, hlevels⟩ | ⟨hwidth, htarget⟩
  · omega
  · omega
  · have hmul : 3 * d.levels ≤ width * d.levels := Nat.mul_le_mul_right _ hwidth
    omega

theorem counted_of_min_rounds {width : ℕ} {d : Dedent} (hwidth : 1 ≤ width)
    (hlevels : 0 < d.levels)
    (h : min (roundsOf width d.levels) (d.target + d.levels) = d.levels) : Counted width d := by
  unfold roundsOf at h
  rcases Nat.lt_trichotomy width 2 with hone | rfl | hthree
  · obtain rfl : width = 1 := by omega
    exact Or.inr (Or.inl ⟨rfl, by omega⟩)
  · exact Or.inl rfl
  · have hmul : 3 * d.levels ≤ width * d.levels := Nat.mul_le_mul_right _ hthree
    exact Or.inr (Or.inr ⟨hthree, by omega⟩)

/-! ## Right counts -/

/-- When every dedent is counted right, the entries are stored where they belong. -/
theorem stores_of_counted {mapping : Mapping} {width : ℕ} {path : List Step}
    {below : List (List Step)} (h : ∀ d ∈ mapping.dedents below.length, Counted width d) :
    mapping.stores width (path :: below) = mapping.proper path ∧
      ∃ above, mapping.left width (path :: below) = above ++ path :: below ∧
        above.length = mapping.lastLevel := by
  induction mapping generalizing path below with
  | lastLeaf key value => exact ⟨rfl, [], rfl, rfl⟩
  | lastNode key inner ih =>
      obtain ⟨hstores, above, hleft, hlength⟩ :=
        @ih (path ++ [⟨key.name, none⟩]) (path :: below) h
      refine ⟨?_, above ++ [path ++ [⟨key.name, none⟩]], ?_, ?_⟩
      · exact congrArg _ hstores
      · rw [List.append_assoc]
        exact hleft
      · rw [List.length_append, hlength]
        rfl
  | leaf key value rest ih =>
      obtain ⟨hstores, hleft⟩ := ih h
      exact ⟨congrArg _ hstores, hleft⟩
  | node key inner rest ihinner ihrest =>
      rw [Mapping.dedents, List.forall_mem_append, List.forall_mem_cons] at h
      obtain ⟨hinner, hdedent, hrest⟩ := h
      obtain ⟨hstores, above, hleft, hlength⟩ :=
        @ihinner (path ++ [⟨key.name, none⟩]) (path :: below) hinner
      have hclose : close (roundsOf width (inner.lastLevel + 1))
          (inner.left width (enter key (path :: below))) = path :: below := by
        have hcount := min_rounds_of_counted hdedent
        have hleft' : inner.left width (enter key (path :: below)) =
            (above ++ [path ++ [⟨key.name, none⟩]]) ++ path :: below := by
          rw [List.append_assoc]
          exact hleft
        have habove : (above ++ [path ++ [(⟨key.name, none⟩ : Step)]]).length =
            inner.lastLevel + 1 := by
          rw [List.length_append, hlength]
          rfl
        have hheight : ((above ++ [path ++ [(⟨key.name, none⟩ : Step)]]) ++
            path :: below).length - 1 = below.length + (inner.lastLevel + 1) := by
          rw [List.length_append, habove, List.length_cons]
          omega
        rw [close, hleft', hheight, hcount, ← habove, List.drop_left]
      obtain ⟨hstores_rest, habove⟩ := ihrest hrest
      refine ⟨?_, ?_⟩
      · rw [Mapping.stores, hclose, hstores_rest]
        exact congrArg (fun inner => Store.map path key.name :: (inner ++ rest.proper path)) hstores
      · rw [Mapping.left, hclose]
        exact habove

/-! ## The data of a tree -/

/-- A map that has just been stored at a new key is empty, and what fills it goes there. -/
theorem resolve_new {path : List Step} {data inner : Entries}
    (h : Entries.resolve path data = some inner) (key : Bytes) :
    Entries.resolve (path ++ [⟨key, none⟩])
      (Entries.update path (Entries.assign key (.map [])) data) = some [] := by
  simp [Entries.resolve_append, Entries.resolve_update_self h, Entries.resolve, Entries.child]

theorem update_new {path : List Step} {data inner filled : Entries} {key : Bytes}
    (h : Entries.resolve path data = some inner) (hnew : Entries.lookup key inner = none) :
    Entries.update (path ++ [⟨key, none⟩]) (fun _ => filled)
        (Entries.update path (Entries.assign key (.map [])) data) =
      Entries.update path (fun _ => inner ++ [(key, .map filled)]) data := by
  rw [Entries.update_append, Entries.update_update]
  refine Entries.update_congr h ?_
  rw [Tree.update_assign_map, Entries.assign_of_lookup_eq_none hnew]

/-- The stores put the data of the tree behind what is in the map. -/
theorem applyAll_proper {mapping : Mapping} (hmapping : mapping.Distinct) {path : List Step}
    {data inner : Entries} (h : Entries.resolve path data = some inner)
    (hnew : ∀ key ∈ mapping.keys, Entries.lookup key inner = none) :
    Store.applyAll (mapping.proper path) data =
      Entries.update path (fun _ => inner ++ mapping.toData) data := by
  induction mapping generalizing path data inner with
  | lastLeaf key value =>
      have hkey := hnew key.name (by simp [Mapping.keys])
      exact Entries.update_congr h (Entries.emplace_of_lookup_eq_none hkey value.value)
  | lastNode key nested ih =>
      have hkey := hnew key.name (by simp [Mapping.keys])
      have hfilled := ih hmapping (resolve_new h key.name) fun _ _ => Entries.lookup_nil _
      exact hfilled.trans (update_new h hkey)
  | leaf key value rest ih =>
      have hkey := hnew key.name (by simp [Mapping.keys])
      have hrest : ∀ other ∈ rest.keys, Entries.lookup other inner = none :=
        fun other hother => hnew other (by simp [Mapping.keys, hother])
      have hresolve := Entries.resolve_update_self h (Entries.emplace key.name value.value)
      rw [Entries.emplace_of_lookup_eq_none hkey] at hresolve
      calc Store.applyAll ((Mapping.leaf key value rest).proper path) data
          = Store.applyAll (rest.proper path)
              (Entries.update path (Entries.emplace key.name value.value) data) := rfl
        _ = Entries.update path (fun _ => (inner ++ [(key.name, value.value)]) ++ rest.toData)
              (Entries.update path (Entries.emplace key.name value.value) data) :=
            ih hmapping.2 hresolve (Entries.lookup_concat_of_notMem hmapping.1 hrest _)
        _ = Entries.update path (fun _ => inner ++ (Mapping.leaf key value rest).toData) data := by
            rw [Entries.update_update, List.append_assoc]
            rfl
  | node key nested rest ihnested ihrest =>
      have hkey := hnew key.name (by simp [Mapping.keys])
      have hrest : ∀ other ∈ rest.keys, Entries.lookup other inner = none :=
        fun other hother => hnew other (by simp [Mapping.keys, hother])
      obtain ⟨hfresh, hnested, hdistinct⟩ := hmapping
      have hfilled : Store.applyAll (nested.proper (path ++ [⟨key.name, none⟩]))
          (Entries.update path (Entries.assign key.name (.map [])) data) =
            Entries.update path (fun _ => inner ++ [(key.name, .map nested.toData)]) data :=
        (ihnested hnested (resolve_new h key.name) fun _ _ => Entries.lookup_nil _).trans
          (update_new h hkey)
      have hresolve := Entries.resolve_update_self h
        fun _ => inner ++ [(key.name, .map nested.toData)]
      calc Store.applyAll ((Mapping.node key nested rest).proper path) data
          = Store.applyAll (rest.proper path)
              (Store.applyAll (nested.proper (path ++ [⟨key.name, none⟩]))
                (Entries.update path (Entries.assign key.name (.map [])) data)) :=
            Store.applyAll_append _ _ _
        _ = Store.applyAll (rest.proper path)
              (Entries.update path (fun _ => inner ++ [(key.name, .map nested.toData)]) data) := by
            rw [hfilled]
        _ = Entries.update path
              (fun _ => (inner ++ [(key.name, .map nested.toData)]) ++ rest.toData)
              (Entries.update path (fun _ => inner ++ [(key.name, .map nested.toData)]) data) :=
            ihrest hdistinct hresolve (Entries.lookup_concat_of_notMem hfresh hrest _)
        _ = Entries.update path (fun _ => inner ++ (Mapping.node key nested rest).toData) data := by
            rw [Entries.update_update, List.append_assoc]
            rfl

/-! ## The same data -/

end Sok.Yaml

namespace Sok

namespace Value

/-- Neither a map nor a vector of maps. -/
def IsScalar : Value → Prop
  | .map _ => False
  | .maps _ => False
  | _ => True

/-- A value without what its maps hold. -/
def flat : Value → Value
  | .map _ => .map []
  | .maps items => .maps (items.map fun _ => [])
  | value => value

theorem isScalar_flat (value : Value) : value.flat.IsScalar ↔ value.IsScalar := by
  cases value <;> rfl

end Value

namespace Entries

/-- At every place of the data there is the same: the same scalar, a map, or as many maps.  The
order of the entries makes no difference. -/
def Same (first second : Entries) : Prop :=
  ∀ path key, (valueAt path key first).map Value.flat = (valueAt path key second).map Value.flat

/-- A scalar is at the key of the map. -/
def ScalarAt (path : List Step) (key : Bytes) (entries : Entries) : Prop :=
  ∃ value, valueAt path key entries = some value ∧ value.IsScalar

theorem Same.refl (entries : Entries) : Same entries entries := fun _ _ => rfl

theorem Same.scalarAt {first second : Entries} (h : Same first second) {path : List Step}
    {key : Bytes} (hscalar : ScalarAt path key second) : ScalarAt path key first := by
  obtain ⟨value, hvalue, hflat⟩ := hscalar
  have heq := h path key
  rw [hvalue, Option.map_some] at heq
  obtain ⟨other, hother, hsame⟩ := Option.map_eq_some_iff.mp heq
  refine ⟨other, hother, ?_⟩
  rwa [← Value.isScalar_flat, hsame, Value.isScalar_flat]

theorem scalarAt_cons {step : Step} {path : List Step} {key : Bytes} {entries : Entries} :
    ScalarAt (step :: path) key entries ↔
      ∃ inner, child step entries = some inner ∧ ScalarAt path key inner := by
  cases hchild : child step entries <;> simp [ScalarAt, valueAt, resolve, hchild]

theorem scalarAt_congr {key : Bytes} {first second : Entries}
    (h : lookup key first = lookup key second) :
    ScalarAt [] key first ↔ ScalarAt [] key second := by
  simp only [ScalarAt, valueAt, resolve, Option.bind_some, h]

theorem not_scalarAt_empty (path : List Step) (key : Bytes) : ¬ ScalarAt path key [] := by
  rintro ⟨value, hvalue, -⟩
  cases path <;> exact absurd hvalue (by simp [valueAt, resolve, child, lookup_nil])

/-- Where a map is, there is no scalar. -/
theorem not_scalarAt_of_child {step : Step} {inner entries : Entries}
    (h : child step entries = some inner) : ¬ ScalarAt [] step.key entries := by
  rintro ⟨value, hvalue, hscalar⟩
  have hlookup : lookup step.key entries = some value := hvalue
  unfold child at h
  rw [hlookup] at h
  cases value with
  | map entries => exact hscalar
  | maps items => exact hscalar
  | _ => exact absurd h (by simp)

/-- A change to a map makes new scalars only inside of the map. -/
theorem scalarAt_update {f : Entries → Entries} {owner path : List Step} {key : Bytes} {Q : Prop}
    {entries : Entries}
    (hf : ∀ rest inner, path = owner ++ rest → ScalarAt rest key (f inner) →
      ScalarAt rest key inner ∨ Q)
    (h : ScalarAt path key (update owner f entries)) : ScalarAt path key entries ∨ Q := by
  induction owner generalizing path entries with
  | nil => exact hf path entries rfl h
  | cons first owner ih =>
      rw [update] at h
      cases hchild : child first entries with
      | none =>
          rw [hchild] at h
          exact Or.inl h
      | some inner =>
          rw [hchild] at h
          dsimp only at h
          cases path with
          | nil =>
              by_cases hkey : key = first.key
              · subst hkey
                exact absurd h (not_scalarAt_of_child (child_setChild_self hchild _))
              · exact Or.inl ((scalarAt_congr (lookup_setChild_of_ne hkey _ _)).mp h)
          | cons step path =>
              obtain ⟨last, hlast, hscalar⟩ := scalarAt_cons.mp h
              by_cases hstep : step = first
              · subst hstep
                obtain rfl := Option.some.inj ((child_setChild_self hchild _).symm.trans hlast)
                refine (ih (fun rest map hrest => ?_) hscalar).imp_left fun hold => ?_
                · exact hf rest map (by rw [hrest]; rfl)
                · exact scalarAt_cons.mpr ⟨inner, hchild, hold⟩
              · rw [child_setChild_of_ne hstep] at hlast
                exact Or.inl (scalarAt_cons.mpr ⟨last, hlast, hscalar⟩)

theorem scalarAt_update_assign {owner path : List Step} {key other : Bytes} {entries : Entries}
    (h : ScalarAt path other (update owner (assign key (.map [])) entries)) :
    ScalarAt path other entries := by
  refine (scalarAt_update (Q := False) (fun rest inner _ hscalar => Or.inl ?_) h).resolve_right id
  cases rest with
  | nil =>
      by_cases hkey : other = key
      · obtain ⟨value, hvalue, hflat⟩ := hscalar
        rw [valueAt, resolve, Option.bind_some, hkey, lookup_assign_self] at hvalue
        obtain rfl := Option.some.inj hvalue
        exact hflat.elim
      · exact (scalarAt_congr (lookup_assign_of_ne hkey _ _)).mp hscalar
  | cons step rest =>
      obtain ⟨last, hlast, hscalar⟩ := scalarAt_cons.mp hscalar
      by_cases hkey : step.key = key
      · -- the new map is empty
        have hempty : last = [] := by
          unfold child at hlast
          rw [hkey, lookup_assign_self] at hlast
          cases hindex : step.index with
          | none => rw [hindex] at hlast; exact (Option.some.inj hlast).symm
          | some i => rw [hindex] at hlast; exact absurd hlast (by simp)
        exact absurd (hempty ▸ hscalar) (not_scalarAt_empty _ _)
      · rw [child_assign_of_ne hkey] at hlast
        exact scalarAt_cons.mpr ⟨last, hlast, hscalar⟩

theorem scalarAt_update_emplace {owner path : List Step} {key other : Bytes} {value : Value}
    (hvalue : value.IsScalar) {entries : Entries}
    (h : ScalarAt path other (update owner (emplace key value) entries)) :
    ScalarAt path other entries ∨ path = owner ∧ other = key := by
  refine scalarAt_update (fun rest inner hrest hscalar => ?_) h
  by_cases hold : (lookup key inner).isSome = true
  · rw [emplace, if_pos hold] at hscalar
    exact Or.inl hscalar
  · have hnone : lookup key inner = none := by simpa using hold
    cases rest with
    | nil =>
        by_cases hkey : other = key
        · exact Or.inr ⟨by rw [hrest, List.append_nil], hkey⟩
        · exact Or.inl ((scalarAt_congr (lookup_emplace_of_ne hkey _ _)).mp hscalar)
    | cons step rest =>
        obtain ⟨last, hlast, hscalar⟩ := scalarAt_cons.mp hscalar
        by_cases hkey : step.key = key
        · -- there is no map behind the scalar
          have hentered : ScalarAt [] step.key (emplace key value inner) := by
            refine ⟨value, ?_, hvalue⟩
            rw [valueAt, resolve, Option.bind_some, emplace_of_lookup_eq_none hnone, hkey,
              lookup_concat_self hnone]
          exact absurd hentered (not_scalarAt_of_child hlast)
        · rw [child_congr (lookup_emplace_of_ne hkey _ _)] at hlast
          exact Or.inl (scalarAt_cons.mpr ⟨last, hlast, hscalar⟩)

end Entries

namespace Yaml

open Entries (ScalarAt)

/-! ## Places of scalars -/

theorem Scalar.isScalar (value : Scalar) : value.value.IsScalar := by
  have h := value.converts
  unfold scalar stoi stod at h
  dsimp only at h
  split at h
  · rw [← Except.ok.inj h]
    trivial
  · split at h
    · split at h
      · rw [← Except.ok.inj h]
        trivial
      · exact absurd h (by simp)
    · split at h
      · split at h
        · exact absurd h (by simp)
        · split at h
          · exact absurd h (by simp)
          · rw [← Except.ok.inj h]
            trivial
      · rw [← Except.ok.inj h]
        trivial

namespace Store

/-- The place of a scalar. -/
def place? : Store → Option (List Step × Bytes)
  | scalar path key _ => some (path, key)
  | map _ _ => none

/-- The places of the scalars that are stored. -/
def places (stores : List Store) : List (List Step × Bytes) :=
  stores.filterMap place?

@[simp] theorem places_nil : places [] = [] := rfl

@[simp] theorem places_scalar (path : List Step) (key : Bytes) (value : Scalar)
    (stores : List Store) :
    places (scalar path key value :: stores) = (path, key) :: places stores := rfl

@[simp] theorem places_map (path : List Step) (key : Bytes) (stores : List Store) :
    places (map path key :: stores) = places stores := rfl

@[simp] theorem places_append (first second : List Store) :
    places (first ++ second) = places first ++ places second :=
  List.filterMap_append

/-- The depths of the scalars, added up. -/
def weight (stores : List Store) : ℕ :=
  ((places stores).map fun place => place.1.length).sum

@[simp] theorem weight_scalar (path : List Step) (key : Bytes) (value : Scalar)
    (stores : List Store) :
    weight (scalar path key value :: stores) = path.length + weight stores := by
  simp [weight]

@[simp] theorem weight_map (path : List Step) (key : Bytes) (stores : List Store) :
    weight (map path key :: stores) = weight stores := rfl

@[simp] theorem weight_append (first second : List Store) :
    weight (first ++ second) = weight first + weight second := by
  simp [weight]

/-- The scalars behind the stores were there before, or have been stored. -/
theorem scalarAt_applyAll {stores : List Store} {path : List Step} {key : Bytes} {data : Entries}
    (h : ScalarAt path key (applyAll stores data)) :
    ScalarAt path key data ∨ (path, key) ∈ places stores := by
  induction stores generalizing data with
  | nil => exact Or.inl h
  | cons store stores ih =>
      rcases ih h with hold | hplace
      · cases store with
        | scalar owner name value =>
            refine (Entries.scalarAt_update_emplace value.isScalar hold).imp_right ?_
            rintro ⟨rfl, rfl⟩
            exact List.mem_cons_self
        | map owner name => exact Or.inl (Entries.scalarAt_update_assign hold)
      · refine Or.inr ?_
        cases store with
        | scalar owner name value => exact List.mem_cons_of_mem _ hplace
        | map owner name => exact hplace

end Store

/-! ## Places of a tree -/

namespace Mapping

/-- Every scalar of the tree is stored, in whatever map. -/
theorem length_places (mapping : Mapping) (width : ℕ) (maps : List (List Step))
    (path : List Step) :
    (Store.places (mapping.stores width maps)).length =
      (Store.places (mapping.proper path)).length := by
  induction mapping generalizing maps path with
  | lastLeaf key value => rfl
  | lastNode key inner ih => exact ih _ _
  | leaf key value rest ih => simp [stores, proper, ih maps path]
  | node key inner rest ihinner ihrest =>
      simp [stores, proper, ihinner _ (path ++ [⟨key.name, none⟩]), ihrest _ path]

/-- A place is in the map at the path, at this key or in the map there. -/
def Under (path : List Step) (key : Bytes) (place : List Step × Bytes) : Prop :=
  place = (path, key) ∨ Inside path key place.1

theorem Under.unique {path : List Step} {first second : Bytes} {place : List Step × Bytes}
    (h : Under path first place) (h' : Under path second place) : first = second := by
  rcases h with rfl | h
  · rcases h' with heq | h'
    · exact (Prod.mk.inj heq).2
    · exact absurd h' (not_inside_self _ _)
  · rcases h' with rfl | h'
    · exact absurd h (not_inside_self _ _)
    · obtain ⟨-, step, hstep, rfl⟩ := h
      obtain ⟨-, other, hother, rfl⟩ := h'
      exact congrArg Step.key (Option.some.inj (hstep.symm.trans hother))

theorem inside_of_under {path : List Step} {key name : Bytes} {place : List Step × Bytes}
    (h : Under (path ++ [⟨key, none⟩]) name place) : Inside path key place.1 := by
  rcases h with rfl | h
  · exact inside_iff.mpr ⟨⟨key, none⟩, [], rfl, rfl⟩
  · obtain ⟨step, rest, hpath, -⟩ := inside_iff.mp h
    exact inside_iff.mpr ⟨⟨key, none⟩, step :: rest, by rw [hpath, List.append_assoc]; rfl, rfl⟩

theorem under_of_mem_places {mapping : Mapping} {path : List Step} :
    ∀ place ∈ Store.places (mapping.proper path), ∃ key ∈ mapping.keys, Under path key place := by
  induction mapping generalizing path with
  | lastLeaf key value =>
      intro place hplace
      exact ⟨key.name, List.mem_singleton_self _, Or.inl (List.mem_singleton.mp hplace)⟩
  | lastNode key inner ih =>
      intro place hplace
      obtain ⟨name, -, hunder⟩ := ih place hplace
      exact ⟨key.name, List.mem_singleton_self _, Or.inr (inside_of_under hunder)⟩
  | leaf key value rest ih =>
      intro place hplace
      rcases List.mem_cons.mp hplace with rfl | hplace
      · exact ⟨key.name, List.mem_cons_self, Or.inl rfl⟩
      · obtain ⟨name, hname, hunder⟩ := ih place hplace
        exact ⟨name, List.mem_cons_of_mem _ hname, hunder⟩
  | node key inner rest ihinner ihrest =>
      intro place hplace
      rw [proper, Store.places_map, Store.places_append] at hplace
      rcases List.mem_append.mp hplace with hplace | hplace
      · obtain ⟨name, -, hunder⟩ := ihinner place hplace
        exact ⟨key.name, List.mem_cons_self, Or.inr (inside_of_under hunder)⟩
      · obtain ⟨name, hname, hunder⟩ := ihrest place hplace
        exact ⟨name, List.mem_cons_of_mem _ hname, hunder⟩

theorem nodup_places {mapping : Mapping} (h : mapping.Distinct) (path : List Step) :
    (Store.places (mapping.proper path)).Nodup := by
  induction mapping generalizing path with
  | lastLeaf key value => simp [proper]
  | lastNode key inner ih => exact ih h _
  | leaf key value rest ih =>
      refine List.nodup_cons.mpr ⟨fun hplace => ?_, ih h.2 path⟩
      obtain ⟨name, hname, hunder⟩ := under_of_mem_places _ hplace
      obtain rfl : key.name = name := Under.unique (Or.inl rfl) hunder
      exact h.1 hname
  | node key inner rest ihinner ihrest =>
      obtain ⟨hfresh, hinner, hrest⟩ := h
      rw [proper, Store.places_map, Store.places_append]
      refine List.Nodup.append (ihinner hinner _) (ihrest hrest path) ?_
      intro place hplace hother
      obtain ⟨inner_name, -, hinside⟩ := under_of_mem_places place hplace
      obtain ⟨name, hname, hunder⟩ := under_of_mem_places place hother
      obtain rfl : key.name = name := Under.unique (Or.inr (inside_of_under hinside)) hunder
      exact hfresh hname

theorem keys_of_lookup {mapping : Mapping} {key : Bytes}
    (h : (Entries.lookup key mapping.toData).isSome = true) : key ∈ mapping.keys := by
  -- the first entry has the key, or one behind it
  have hcons {entry : Bytes × Value} {rest : Entries} {keys : List Bytes}
      (hrest : (Entries.lookup key rest).isSome = true → key ∈ keys)
      (h : (Entries.lookup key (entry :: rest)).isSome = true) : key ∈ entry.1 :: keys := by
    rw [Entries.lookup_cons] at h
    split at h
    · rename_i heq
      rw [heq]
      exact List.mem_cons_self
    · exact List.mem_cons_of_mem _ (hrest h)
  induction mapping with
  | lastLeaf name value => exact hcons (fun h => absurd h (by simp [Entries.lookup_nil])) h
  | lastNode name inner => exact hcons (fun h => absurd h (by simp [Entries.lookup_nil])) h
  | leaf name value rest ih => exact hcons ih h
  | node name inner rest ihinner ih => exact hcons ih h

theorem scalarAt_cons_of_notMem {entry : Bytes × Value} {rest : Mapping}
    (hnew : entry.1 ∉ rest.keys) {path : List Step} {key : Bytes}
    (h : ScalarAt path key rest.toData) : ScalarAt path key (entry :: rest.toData) := by
  have hlookup {name : Bytes} (hname : (Entries.lookup name rest.toData).isSome = true) :
      Entries.lookup name (entry :: rest.toData) = Entries.lookup name rest.toData := by
    have hne : entry.1 ≠ name := by
      rintro rfl
      exact hnew (keys_of_lookup hname)
    rw [Entries.lookup_cons, if_neg hne]
  cases path with
  | nil =>
      refine (Entries.scalarAt_congr (hlookup ?_)).mpr h
      obtain ⟨value, hvalue, -⟩ := h
      exact Option.isSome_iff_exists.mpr ⟨value, hvalue⟩
  | cons step path =>
      obtain ⟨inner, hinner, hscalar⟩ := Entries.scalarAt_cons.mp h
      refine Entries.scalarAt_cons.mpr ⟨inner, ?_, hscalar⟩
      rw [← hinner]
      refine Entries.child_congr (hlookup ?_)
      cases hfound : Entries.lookup step.key rest.toData with
      | none => exact absurd hinner (by simp [Entries.child, hfound])
      | some value => rfl

theorem scalarAt_places {mapping : Mapping} (h : mapping.Distinct) {base : List Step} :
    ∀ place ∈ Store.places (mapping.proper base),
      ∃ path, place.1 = base ++ path ∧ ScalarAt path place.2 mapping.toData := by
  -- the value of the first entry
  have hhead {key : Bytes} (value : Scalar) (rest : Entries) :
      ScalarAt [] key ((key, value.value) :: rest) := by
    refine ⟨value.value, ?_, value.isScalar⟩
    rw [Entries.valueAt, Entries.resolve, Option.bind_some, Entries.lookup_cons, if_pos rfl]
  -- the map of the first entry
  have hinside {key : Key} {inner : Mapping} {rest : Entries} {base : List Step}
      {place : List Step × Bytes}
      (hfound : ∃ path, place.1 = (base ++ [⟨key.name, none⟩]) ++ path ∧
        ScalarAt path place.2 inner.toData) :
      ∃ path, place.1 = base ++ path ∧
        ScalarAt path place.2 ((key.name, .map inner.toData) :: rest) := by
    obtain ⟨path, hpath, hscalar⟩ := hfound
    refine ⟨⟨key.name, none⟩ :: path, by rw [hpath, List.append_assoc]; rfl, ?_⟩
    exact Entries.scalarAt_cons.mpr ⟨inner.toData, by simp [Entries.child, Entries.lookup_cons],
      hscalar⟩
  induction mapping generalizing base with
  | lastLeaf key value =>
      intro place hplace
      obtain rfl := List.mem_singleton.mp hplace
      exact ⟨[], (List.append_nil _).symm, hhead value []⟩
  | lastNode key inner ih =>
      intro place hplace
      exact hinside (ih h place hplace)
  | leaf key value rest ih =>
      intro place hplace
      rcases List.mem_cons.mp hplace with rfl | hplace
      · exact ⟨[], (List.append_nil _).symm, hhead value _⟩
      · obtain ⟨path, hpath, hscalar⟩ := ih h.2 place hplace
        exact ⟨path, hpath, scalarAt_cons_of_notMem h.1 hscalar⟩
  | node key inner rest ihinner ihrest =>
      obtain ⟨hfresh, hinner, hrest⟩ := h
      intro place hplace
      rw [proper, Store.places_map, Store.places_append] at hplace
      rcases List.mem_append.mp hplace with hplace | hplace
      · exact hinside (ihinner hinner place hplace)
      · obtain ⟨path, hpath, hscalar⟩ := ihrest hrest place hplace
        exact ⟨path, hpath, scalarAt_cons_of_notMem hfresh hscalar⟩

/-! ## Wrong counts -/

theorem length_headD {maps : List (List Step)} (h : Chain maps) :
    (maps.headD []).length + 1 = maps.length := by
  obtain ⟨path, below, rfl, htop, hlength⟩ := h.exists_cons
  rw [htop, hlength]
  rfl

theorem length_child (path : List Step) (key : Bytes) :
    (path ++ [(⟨key, none⟩ : Step)]).length = path.length + 1 := by
  rw [List.length_append, List.length_singleton]

/-- The way in which counts can be wrong: with wide levels too many maps are closed, and with
narrow ones too few. -/
def Off (width depth proper : ℕ) : Prop :=
  if 2 ≤ width then depth ≤ proper else proper ≤ depth

section

variable {width depth proper more moreProper : ℕ}

theorem off_wide (hwide : 2 ≤ width) : Off width depth proper ↔ depth ≤ proper := by
  rw [Off, if_pos hwide]

theorem off_narrow (hwide : ¬ 2 ≤ width) : Off width depth proper ↔ proper ≤ depth := by
  rw [Off, if_neg hwide]

theorem off_refl (width depth : ℕ) : Off width depth depth := by
  unfold Off
  split <;> exact le_rfl

theorem off_succ : Off width (depth + 1) (proper + 1) ↔ Off width depth proper := by
  unfold Off
  split <;> omega

theorem Off.add (h : Off width depth proper) (hmore : Off width more moreProper) :
    Off width (depth + more) (proper + moreProper) := by
  by_cases hwide : 2 ≤ width
  · rw [off_wide hwide] at *
    exact Nat.add_le_add h hmore
  · rw [off_narrow hwide] at *
    exact Nat.add_le_add h hmore

/-- Nothing is made up for later. -/
theorem Off.eq_of_add (h : Off width depth proper) (hmore : Off width more moreProper)
    (heq : depth + more = proper + moreProper) : depth = proper ∧ more = moreProper := by
  by_cases hwide : 2 ≤ width
  · rw [off_wide hwide] at *
    omega
  · rw [off_narrow hwide] at *
    omega

theorem off_close (hwidth : 1 ≤ width) {levels : ℕ} {maps : List (List Step)}
    (h : Off width maps.length (proper + 1 + levels)) :
    Off width (close (roundsOf width levels) maps).length (proper + 1) := by
  rw [length_close]
  by_cases hwide : 2 ≤ width
  · have hmul : 2 * levels ≤ width * levels := Nat.mul_le_mul_right _ hwide
    rw [off_wide hwide] at *
    unfold roundsOf
    omega
  · obtain rfl : width = 1 := by omega
    rw [off_narrow hwide] at *
    unfold roundsOf
    omega

end

variable {mapping : Mapping} {width : ℕ} {maps : List (List Step)}

theorem off_left (hwidth : 1 ≤ width) {depth : ℕ} (h : Off width maps.length (depth + 1)) :
    Off width (mapping.left width maps).length (depth + 1 + mapping.lastLevel) := by
  induction mapping generalizing maps depth with
  | lastLeaf key value => exact h
  | lastNode key inner ih =>
      have hinner := @ih (enter key maps) (depth + 1) (off_succ.mpr h)
      rw [left, lastLevel]
      rwa [Nat.add_assoc (depth + 1), Nat.add_comm 1] at hinner
  | leaf key value rest ih => exact ih h
  | node key inner rest ihinner ihrest =>
      have hinner := @ihinner (enter key maps) (depth + 1) (off_succ.mpr h)
      rw [Nat.add_assoc (depth + 1), Nat.add_comm 1] at hinner
      exact ihrest (off_close hwidth hinner)

theorem off_headD {path : List Step} (hmaps : Chain maps)
    (h : Off width maps.length (path.length + 1)) :
    Off width (maps.headD []).length path.length := by
  rw [← length_headD hmaps] at h
  exact off_succ.mp h

theorem off_enter {path : List Step} (h : Off width maps.length (path.length + 1)) (key : Key) :
    Off width (enter key maps).length ((path ++ [(⟨key.name, none⟩ : Step)]).length + 1) := by
  rw [length_enter, length_child]
  exact off_succ.mpr h

/-- The maps behind the entry of a map. -/
theorem off_behind (hwidth : 1 ≤ width) {path : List Step}
    (h : Off width maps.length (path.length + 1)) (key : Key) (inner : Mapping) :
    Off width (close (roundsOf width (inner.lastLevel + 1))
      (inner.left width (enter key maps))).length (path.length + 1) := by
  have hleft := @off_left inner width (enter key maps) hwidth (path.length + 1) (off_succ.mpr h)
  rw [Nat.add_assoc (path.length + 1), Nat.add_comm 1] at hleft
  exact off_close hwidth hleft

/-- All scalars together are as wrong as each of them. -/
theorem off_weight (hwidth : 1 ≤ width) {path : List Step} (hmaps : Chain maps)
    (h : Off width maps.length (path.length + 1)) :
    Off width (Store.weight (mapping.stores width maps))
      (Store.weight (mapping.proper path)) := by
  induction mapping generalizing maps path with
  | lastLeaf key value =>
      simp only [stores, proper, Store.weight_scalar]
      exact (off_headD hmaps h).add (off_refl _ _)
  | lastNode key inner ih => exact ih (hmaps.enter key) (off_enter h key)
  | leaf key value rest ih =>
      simp only [stores, proper, Store.weight_scalar]
      exact (off_headD hmaps h).add (ih hmaps h)
  | node key inner rest ihinner ihrest =>
      simp only [stores, proper, Store.weight_map, Store.weight_append]
      have hclosed := ((hmaps.enter key).left width inner).close
        (roundsOf width (inner.lastLevel + 1))
      exact (ihinner (hmaps.enter key) (off_enter h key)).add
        (ihrest hclosed (off_behind hwidth h key inner))

/-- The scalars are as deep as they belong only when every dedent is counted right. -/
theorem counted_of_weight_eq (hwidth : 1 ≤ width) {path : List Step} (hmaps : Chain maps)
    (h : Off width maps.length (path.length + 1))
    (heq : Store.weight (mapping.stores width maps) = Store.weight (mapping.proper path)) :
    maps.length = path.length + 1 ∧ ∀ d ∈ mapping.dedents path.length, Counted width d := by
  induction mapping generalizing maps path with
  | lastLeaf key value =>
      simp only [stores, proper, Store.weight_scalar] at heq
      obtain ⟨htop, -⟩ := (off_headD hmaps h).eq_of_add (off_refl _ _) heq
      exact ⟨by rw [← length_headD hmaps, htop], fun d hd => absurd hd List.not_mem_nil⟩
  | lastNode key inner ih =>
      obtain ⟨hheight, hcounted⟩ := ih (hmaps.enter key) (off_enter h key) heq
      rw [length_enter, length_child] at hheight
      rw [length_child] at hcounted
      exact ⟨Nat.succ.inj hheight, hcounted⟩
  | leaf key value rest ih =>
      simp only [stores, proper, Store.weight_scalar] at heq
      obtain ⟨-, hrest⟩ :=
        (off_headD hmaps h).eq_of_add (off_weight hwidth hmaps h) heq
      exact ih hmaps h hrest
  | node key inner rest ihinner ihrest =>
      simp only [stores, proper, Store.weight_map, Store.weight_append] at heq
      have hclosed := ((hmaps.enter key).left width inner).close
        (roundsOf width (inner.lastLevel + 1))
      have hbehind := off_behind hwidth h key inner
      obtain ⟨hinner, hrest⟩ := (off_weight hwidth (hmaps.enter key) (off_enter h key)).eq_of_add
        (off_weight hwidth hclosed hbehind) heq
      obtain ⟨hheight, hcounted⟩ := ihinner (hmaps.enter key) (off_enter h key) hinner
      obtain ⟨hback, hcounted_rest⟩ := ihrest hclosed hbehind hrest
      rw [length_enter, length_child] at hheight
      rw [length_child] at hcounted
      have hlength : maps.length = path.length + 1 := Nat.succ.inj hheight
      obtain ⟨-, above, hleft, habove⟩ := @stores_of_counted inner width
        (maps.headD [] ++ [⟨key.name, none⟩]) maps (hlength ▸ hcounted)
      refine ⟨hlength, ?_⟩
      rw [dedents, List.forall_mem_append, List.forall_mem_cons]
      refine ⟨hcounted, counted_of_min_rounds hwidth (Nat.succ_pos _) ?_, hcounted_rest⟩
      -- as many maps are closed as have been opened
      have hopen : (inner.left width (enter key maps)).length =
          inner.lastLevel + (maps.length + 1) := by
        rw [enter, hleft, List.length_append, habove, List.length_cons]
      rw [length_close, hopen] at hback
      dsimp only
      omega

end Mapping

/-! ## Two widths -/

/-- The file with `width` spaces per level and the one with two hold the same data. -/
def Mapping.SameAtWidth (mapping : Mapping) (width : ℕ) : Prop :=
  ∃ wide two, parseFile (some (written (mapping.render width 0))) = .ok wide ∧
    parseFile (some (written (mapping.render 2 0))) = .ok two ∧
    Entries.Same wide.data two.data

namespace Mapping

variable {mapping : Mapping} {width : ℕ}

theorem stores_two (mapping : Mapping) : mapping.stores 2 [[]] = mapping.proper [] :=
  (stores_of_counted fun d _ => counted_two d).1

theorem data_two (h : mapping.Distinct) :
    Store.applyAll (mapping.stores 2 [[]]) [] = mapping.toData := by
  rw [stores_two, applyAll_proper h rfl fun _ _ => Entries.lookup_nil _]
  rfl

theorem same_of_counted (h : ∀ d ∈ mapping.dedents 0, Counted width d) :
    mapping.SameAtWidth width := by
  have hstores : mapping.stores width [[]] = mapping.proper [] :=
    (@stores_of_counted mapping width [] [] h).1
  refine ⟨_, _, parseFile_mapping mapping width, parseFile_mapping mapping 2, ?_⟩
  rw [hstores, stores_two]
  exact Entries.Same.refl _

/-- With the same data, the scalars of the tree are where they have been stored. -/
theorem perm_of_same (hmapping : mapping.Distinct) (h : mapping.SameAtWidth width) :
    (Store.places (mapping.proper [])).Perm (Store.places (mapping.stores width [[]])) := by
  obtain ⟨wide, two, hwide, htwo, hsame⟩ := h
  obtain rfl := Except.ok.inj ((parseFile_mapping mapping width).symm.trans hwide)
  obtain rfl := Except.ok.inj ((parseFile_mapping mapping 2).symm.trans htwo)
  have hsubset : Store.places (mapping.proper []) ⊆ Store.places (mapping.stores width [[]]) := by
    rintro ⟨path, key⟩ hplace
    obtain ⟨inner, hpath, hscalar⟩ := scalarAt_places hmapping _ hplace
    obtain rfl : path = inner := hpath
    rw [← data_two hmapping] at hscalar
    exact (Store.scalarAt_applyAll (hsame.scalarAt hscalar)).resolve_left
      (Entries.not_scalarAt_empty _ _)
  refine ((nodup_places hmapping []).subperm hsubset).perm_of_length_le ?_
  exact (length_places mapping width [[]] []).le

theorem counted_of_same (hmapping : mapping.Distinct) (hwidth : 1 ≤ width)
    (h : mapping.SameAtWidth width) : ∀ d ∈ mapping.dedents 0, Counted width d := by
  have hweight : Store.weight (mapping.stores width [[]]) = Store.weight (mapping.proper []) :=
    ((perm_of_same hmapping h).map _).sum_nat.symm
  exact (counted_of_weight_eq hwidth Chain.root (off_refl _ _) hweight).2

end Mapping

/-- The scalar of the round trip. -/
def Leaf.scalar (leaf : Leaf) : Scalar where
  text := leaf.text
  value := leaf.value
  converts := leaf.scalar_text
  not_inline := leaf.not_inline

/-- A map in the root and a key behind it. -/
def flatMapping : Mapping :=
  .node serverKey (.lastLeaf portKey (Leaf.int 443 (by decide)).scalar)
    (.lastLeaf nameKey (Leaf.bool true).scalar)

def appKey : Key where
  name := ascii "app"

/-- The same one level deeper. -/
def deepMapping : Mapping :=
  .lastNode appKey flatMapping

/-- **Indentation width.**  A tree of maps is read alike with `width` spaces per level and with
two, if and only if every less indented line is counted right: the width is two, or it is one
and the line is one level less indented, or it is more and the line is at the top level. -/
theorem width_invariance_iff (mapping : Mapping) (hmapping : mapping.Distinct) {width : ℕ}
    (hwidth : 1 ≤ width) :
    mapping.SameAtWidth width ↔ ∀ d ∈ mapping.dedents 0, Counted width d :=
  ⟨Mapping.counted_of_same hmapping hwidth, Mapping.same_of_counted⟩

theorem width_four_top_level : flatMapping.SameAtWidth 4 := by
  refine (width_invariance_iff flatMapping ⟨by decide, trivial, trivial⟩ (by omega)).mpr ?_
  intro d hd
  obtain rfl : d = ⟨1, 0⟩ := List.mem_singleton.mp hd
  exact Or.inr (Or.inr ⟨by omega, rfl⟩)

/-- With four spaces per level the second key of a nested map goes to the root. -/
theorem width_four_nested : ¬ deepMapping.SameAtWidth 4 := by
  have hdistinct : deepMapping.Distinct := ⟨by decide, trivial, trivial⟩
  intro hsame
  rcases Mapping.counted_of_same hdistinct (by omega) hsame ⟨1, 1⟩ List.mem_cons_self with
    htwo | ⟨hone, -⟩ | ⟨-, htop⟩
  · omega
  · omega
  · exact absurd htop Nat.one_ne_zero

end Yaml

end Sok
