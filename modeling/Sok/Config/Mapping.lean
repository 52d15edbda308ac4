import Sok.Config.RoundTrip

/-!
# Nested maps with any width of indentation

A `Mapping` is the contents of a map that is not empty, rendered with the same number of
spaces for each level.  Reading its lines performs the stores `stores`, into maps that
depend on the number of spaces: the parser closes one map for every two spaces of a dedent,
and a level need not have two.  `proper` are the stores into the maps the entries belong
to; the two are the same when every dedent is counted right.
-/

namespace Sok.Yaml

/-! ## Trees -/

/-- The text of a scalar and what it is converted to. -/
structure Scalar where
  text : Text
  value : Value
  converts : scalar text.bytes = .ok value
  not_inline : ¬ IsInline text.bytes

theorem Scalar.storePair_text (value : Scalar) (key : Key) (s : State) :
    storePair key value.text s = s.emplace key.name value.value := by
  rw [storePair, if_neg value.not_inline, value.converts]
  rfl

/-- The entries of a map, of which there is a last one. -/
inductive Mapping
  | lastLeaf (key : Key) (value : Scalar)
  | lastNode (key : Key) (inner : Mapping)
  | leaf (key : Key) (value : Scalar) (rest : Mapping)
  | node (key : Key) (inner rest : Mapping)

/-- A line that is less indented than the one before it: by how many levels, and the level it
is at. -/
structure Dedent where
  levels : ℕ
  target : ℕ

/-- A store of the parser in the map at a path: a scalar, or a map that is still empty. -/
inductive Store
  | scalar (path : List Step) (key : Bytes) (value : Scalar)
  | map (path : List Step) (key : Bytes)

namespace Store

def apply : Store → Entries → Entries
  | scalar path key value, data => Entries.update path (Entries.emplace key value.value) data
  | map path key, data => Entries.update path (Entries.assign key (.map [])) data

def applyAll (stores : List Store) (data : Entries) : Entries :=
  stores.foldl (fun data store => store.apply data) data

@[simp] theorem applyAll_nil (data : Entries) : applyAll [] data = data := rfl

@[simp] theorem applyAll_cons (store : Store) (stores : List Store) (data : Entries) :
    applyAll (store :: stores) data = applyAll stores (store.apply data) := rfl

@[simp] theorem applyAll_append (first second : List Store) (data : Entries) :
    applyAll (first ++ second) data = applyAll second (applyAll first data) :=
  List.foldl_append

end Store

/-- The open maps behind so many rounds of the dedent loop. -/
def close (count : ℕ) (maps : List (List Step)) : List (List Step) :=
  maps.drop (min count (maps.length - 1))

/-- The open maps behind `key:`. -/
def enter (key : Key) (maps : List (List Step)) : List (List Step) :=
  (maps.headD [] ++ [⟨key.name, none⟩]) :: maps

/-- The rounds of the dedent loop when a line is less indented by so many levels. -/
def roundsOf (width levels : ℕ) : ℕ :=
  (width * levels + 1) / 2

namespace Mapping

/-- The keys of the map itself. -/
def keys : Mapping → List Bytes
  | lastLeaf key _ => [key.name]
  | lastNode key _ => [key.name]
  | leaf key _ rest => key.name :: rest.keys
  | node key _ rest => key.name :: rest.keys

/-- Keys are distinct in every map. -/
def Distinct : Mapping → Prop
  | lastLeaf _ _ => True
  | lastNode _ inner => inner.Distinct
  | leaf key _ rest => key.name ∉ rest.keys ∧ rest.Distinct
  | node key inner rest => key.name ∉ rest.keys ∧ inner.Distinct ∧ rest.Distinct

/-- The lines of a map whose keys are `depth` levels deep. -/
def render (width depth : ℕ) : Mapping → List Bytes
  | lastLeaf key value => [pairLine (width * depth) key value.text]
  | lastNode key inner => openLine (width * depth) key :: inner.render width (depth + 1)
  | leaf key value rest =>
      pairLine (width * depth) key value.text :: rest.render width depth
  | node key inner rest =>
      openLine (width * depth) key :: (inner.render width (depth + 1) ++ rest.render width depth)

/-- The data of a map. -/
def toData : Mapping → Entries
  | lastLeaf key value => [(key.name, value.value)]
  | lastNode key inner => [(key.name, .map inner.toData)]
  | leaf key value rest => (key.name, value.value) :: rest.toData
  | node key inner rest => (key.name, .map inner.toData) :: rest.toData

/-- The levels between the keys of the map and its last line. -/
def lastLevel : Mapping → ℕ
  | lastLeaf _ _ => 0
  | lastNode _ inner => inner.lastLevel + 1
  | leaf _ _ rest => rest.lastLevel
  | node _ _ rest => rest.lastLevel

/-- The less indented lines of a map whose keys are `depth` levels deep. -/
def dedents (depth : ℕ) : Mapping → List Dedent
  | lastLeaf _ _ => []
  | lastNode _ inner => inner.dedents (depth + 1)
  | leaf _ _ rest => rest.dedents depth
  | node _ inner rest =>
      inner.dedents (depth + 1) ++ ⟨inner.lastLevel + 1, depth⟩ :: rest.dedents depth

/-- The maps that are open behind the lines. -/
def left (width : ℕ) : Mapping → List (List Step) → List (List Step)
  | lastLeaf _ _, maps => maps
  | lastNode key inner, maps => inner.left width (enter key maps)
  | leaf _ _ rest, maps => rest.left width maps
  | node key inner rest, maps =>
      rest.left width (close (roundsOf width (inner.lastLevel + 1))
        (inner.left width (enter key maps)))

/-- What reading the lines stores. -/
def stores (width : ℕ) : Mapping → List (List Step) → List Store
  | lastLeaf key value, maps => [.scalar (maps.headD []) key.name value]
  | lastNode key inner, maps =>
      .map (maps.headD []) key.name :: inner.stores width (enter key maps)
  | leaf key value rest, maps =>
      .scalar (maps.headD []) key.name value :: rest.stores width maps
  | node key inner rest, maps =>
      .map (maps.headD []) key.name :: (inner.stores width (enter key maps) ++
        rest.stores width (close (roundsOf width (inner.lastLevel + 1))
          (inner.left width (enter key maps))))

/-- The stores into the maps that the entries belong to. -/
def proper (path : List Step) : Mapping → List Store
  | lastLeaf key value => [.scalar path key.name value]
  | lastNode key inner => .map path key.name :: inner.proper (path ++ [⟨key.name, none⟩])
  | leaf key value rest => .scalar path key.name value :: rest.proper path
  | node key inner rest =>
      .map path key.name :: (inner.proper (path ++ [⟨key.name, none⟩]) ++ rest.proper path)

end Mapping

/-! ## The open maps -/

/-- The paths of the open maps, the innermost first: each is as long as there are maps below. -/
structure Chain (maps : List (List Step)) : Prop where
  nonempty : maps ≠ []
  lengths : ∀ {path below}, path :: below <:+ maps → path.length = below.length

/-- The pointers to open maps. -/
def pointers (maps : List (List Step)) : List Pointer :=
  maps.map fun path => ⟨path, true⟩

namespace Chain

variable {maps : List (List Step)}

theorem root : Chain [[]] where
  nonempty := by simp
  lengths := by
    intro path below h
    rcases List.suffix_cons_iff.mp h with heq | hnil
    · obtain ⟨rfl, rfl⟩ := List.cons.inj heq
      rfl
    · exact absurd (List.suffix_nil.mp hnil) (by simp)

theorem exists_cons (h : Chain maps) :
    ∃ path below, maps = path :: below ∧ maps.headD [] = path ∧ path.length = below.length := by
  obtain ⟨path, below, rfl⟩ := List.exists_cons_of_ne_nil h.nonempty
  exact ⟨path, below, rfl, rfl, h.lengths List.suffix_rfl⟩

theorem enter (h : Chain maps) (key : Key) : Chain (enter key maps) where
  nonempty := by simp [Yaml.enter]
  lengths := by
    intro path below hsuffix
    rcases List.suffix_cons_iff.mp hsuffix with heq | hsuffix
    · obtain ⟨rfl, rfl⟩ := List.cons.inj heq
      obtain ⟨top, rest, rfl, htop, hlength⟩ := h.exists_cons
      rw [htop, List.length_append, hlength]
      rfl
    · exact h.lengths hsuffix

theorem close (h : Chain maps) (count : ℕ) : Chain (close count maps) where
  nonempty := by
    have hpos := List.length_pos_of_ne_nil h.nonempty
    rw [Yaml.close, ne_eq, List.drop_eq_nil_iff]
    omega
  lengths := fun hsuffix => h.lengths (hsuffix.trans (List.drop_suffix _ _))

theorem left (h : Chain maps) (width : ℕ) (mapping : Mapping) :
    Chain (mapping.left width maps) := by
  induction mapping generalizing maps with
  | lastLeaf key value => exact h
  | lastNode key inner ih => exact ih (h.enter key)
  | leaf key value rest ih => exact ih h
  | node key inner rest ihinner ihrest => exact ihrest ((ihinner (h.enter key)).close _)

theorem length_le {path : List Step} {below : List (List Step)} (h : Chain (path :: below)) :
    ∀ p ∈ pointers below, p.path.length ≤ path.length := by
  intro p hp
  obtain ⟨other, hother, rfl⟩ := List.mem_map.mp hp
  obtain ⟨above, rest, rfl⟩ := List.append_of_mem hother
  have hlength : path.length = (above ++ other :: rest).length := h.lengths List.suffix_rfl
  have hother_length : other.length = rest.length :=
    h.lengths ⟨path :: above, by simp⟩
  rw [List.length_append, List.length_cons] at hlength
  change other.length ≤ path.length
  omega

end Chain

theorem length_enter (key : Key) (maps : List (List Step)) :
    (enter key maps).length = maps.length + 1 := rfl

theorem length_close (count : ℕ) (maps : List (List Step)) :
    (close count maps).length = maps.length - min count (maps.length - 1) :=
  List.length_drop

/-! ## One line -/

/-- The parser when the next line has this indentation: these are the maps that are still
open. -/
structure Ready (indent : ℕ) (maps : List (List Step)) (s : State) : Prop where
  lists : s.lists = []
  stack : (s.dedent indent).stack = pointers maps

/-- The parser behind a line with this indentation. -/
structure Read (indent : ℕ) (maps : List (List Step)) (s : State) : Prop where
  lists : s.lists = []
  stack : s.stack = pointers maps
  previous : s.previousIndent = indent

theorem Read.ready {previous : ℕ} {maps : List (List Step)} {s : State}
    (h : Read previous maps s) (indent : ℕ) :
    Ready indent (close (State.rounds indent previous) maps) s where
  lists := h.lists
  stack := by
    rw [State.dedent_eq, h.stack, h.previous]
    simp only [pointers, close, List.map_drop, List.length_map]

theorem Read.ready_of_le {indent previous : ℕ} {maps : List (List Step)} {s : State}
    (h : Read previous maps s) (hle : previous ≤ indent) : Ready indent maps s where
  lists := h.lists
  stack := by rw [State.dedent_of_le (h.previous.trans_le hle), h.stack]

theorem dedent_lists {indent : ℕ} {s : State} (h : s.lists = []) :
    (s.dedent indent).lists = [] := by
  rw [State.dedent_eq, h]
  simp

section

variable {indent : ℕ} {maps : List (List Step)} {s : State}

theorem Ready.parse_leaf (h : Ready indent maps s) (hmaps : Chain maps) (key : Key)
    (value : Scalar) (rest : List Bytes) :
    ∃ next, parseLine rest (pairLine indent key value.text) s = .ok next ∧
      next.data = (Store.scalar (maps.headD []) key.name value).apply s.data ∧
      Read indent maps next := by
  obtain ⟨path, below, rfl, htop, -⟩ := hmaps.exists_cons
  have hline : parseLine rest (pairLine indent key value.text) s =
      .ok (State.atIndent indent { s.dedent indent with
        data := Entries.update path (Entries.emplace key.name value.value)
          (s.dedent indent).data }) := by
    rw [parseLine_pair, value.storePair_text, emplace_of_stack h.stack]
    rfl
  refine ⟨_, hline, ?_, dedent_lists h.lists, h.stack, rfl⟩
  rw [State.data_dedent, htop]
  rfl

theorem Ready.parse_open (h : Ready indent maps s) (hmaps : Chain maps) (key : Key)
    {rest : List Bytes} (hrest : nextIsItem rest = false) :
    ∃ next, parseLine rest (openLine indent key) s = .ok next ∧
      next.data = (Store.map (maps.headD []) key.name).apply s.data ∧
      Read indent (enter key maps) next := by
  obtain ⟨path, below, rfl, htop, -⟩ := hmaps.exists_cons
  have hstack : (s.dedent indent).stack = ⟨path, true⟩ :: pointers below := h.stack
  have hline : parseLine rest (openLine indent key) s =
      .ok (State.atIndent indent { s.dedent indent with
        data := Entries.update path (Entries.assign key.name (.map [])) (s.dedent indent).data
        stack := ⟨path ++ [⟨key.name, none⟩], true⟩ :: ⟨path, true⟩ :: pointers below }) := by
    rw [parseLine_open key hrest,
      assign_of_stack hstack (dedent_lists h.lists) hmaps.length_le]
    simp only [Except.map, State.pushMap, hstack]
  refine ⟨_, hline, ?_, dedent_lists h.lists, ?_, rfl⟩
  · rw [State.data_dedent, htop]
    rfl
  · rw [enter, htop]
    rfl

end

/-! ## The lines of a tree -/

theorem nextIsItem_mapping (mapping : Mapping) (width depth : ℕ) (more : List Bytes) :
    nextIsItem (mapping.render width depth ++ more) = false := by
  cases mapping with
  | lastLeaf key value => exact nextIsItem_pair _ _ _ _
  | lastNode key inner => exact nextIsItem_open _ _ _
  | leaf key value rest => exact nextIsItem_pair _ _ _ _
  | node key inner rest => exact nextIsItem_open _ _ _

theorem rounds_mul (width depth levels : ℕ) :
    State.rounds (width * depth) (width * (depth + levels)) = roundsOf width levels := by
  rw [State.rounds, roundsOf, Nat.mul_add, Nat.add_sub_cancel_left]

/-- The lines of a map perform its stores. -/
theorem parse_mapping (mapping : Mapping) {width depth : ℕ} {maps : List (List Step)}
    (hmaps : Chain maps) (more : List Bytes) {s : State}
    (hs : Ready (width * depth) maps s) :
    ∃ next, parseLines more (mapping.render width depth) s = .ok next ∧
      next.data = Store.applyAll (mapping.stores width maps) s.data ∧
      Read (width * (depth + mapping.lastLevel)) (mapping.left width maps) next := by
  induction mapping generalizing depth maps more s with
  | lastLeaf key value =>
      obtain ⟨next, hline, hdata, hread⟩ := hs.parse_leaf hmaps key value ([] ++ more)
      exact ⟨next, parseLines_cons hline, hdata, hread⟩
  | lastNode key inner ih =>
      obtain ⟨middle, hline, hmiddle, hread⟩ :=
        hs.parse_open hmaps key (nextIsItem_mapping inner width (depth + 1) more)
      have hdeeper : width * depth ≤ width * (depth + 1) :=
        Nat.mul_le_mul_left _ (Nat.le_succ _)
      obtain ⟨next, hparse, hdata, hnext⟩ :=
        ih (hmaps.enter key) more (hread.ready_of_le hdeeper)
      refine ⟨next, (parseLines_cons hline).trans hparse, ?_, ?_⟩
      · rw [hdata, hmiddle]
        rfl
      · rwa [Nat.add_assoc, Nat.add_comm 1] at hnext
  | leaf key value rest ih =>
      obtain ⟨middle, hline, hmiddle, hread⟩ :=
        hs.parse_leaf hmaps key value (rest.render width depth ++ more)
      obtain ⟨next, hparse, hdata, hnext⟩ := ih hmaps more (hread.ready_of_le le_rfl)
      refine ⟨next, (parseLines_cons hline).trans hparse, ?_, hnext⟩
      rw [hdata, hmiddle]
      rfl
  | node key inner rest ihinner ihrest =>
      obtain ⟨opened, hline, hopened, hread⟩ :=
        hs.parse_open hmaps key (nextIsItem_mapping inner width (depth + 1)
          (rest.render width depth ++ more))
      rw [← List.append_assoc] at hline
      have hdeeper : width * depth ≤ width * (depth + 1) :=
        Nat.mul_le_mul_left _ (Nat.le_succ _)
      obtain ⟨middle, hinner, hmiddle, hbehind⟩ :=
        ihinner (hmaps.enter key) (rest.render width depth ++ more) (hread.ready_of_le hdeeper)
      rw [Nat.add_assoc, Nat.add_comm 1] at hbehind
      have hready := hbehind.ready (width * depth)
      rw [rounds_mul] at hready
      obtain ⟨next, hparse, hdata, hnext⟩ :=
        ihrest (((hmaps.enter key).left width inner).close _) more hready
      refine ⟨next, ?_, ?_, hnext⟩
      · calc parseLines more ((Mapping.node key inner rest).render width depth) s
            = parseLines more (inner.render width (depth + 1) ++ rest.render width depth)
                opened := parseLines_cons hline
          _ = parseLines (rest.render width depth ++ more) (inner.render width (depth + 1))
                opened >>= parseLines more (rest.render width depth) :=
              parseLines_append _ _ _ _
          _ = parseLines more (rest.render width depth) middle :=
              congrArg (· >>= parseLines more (rest.render width depth)) hinner
          _ = .ok next := hparse
      · rw [hdata, hmiddle, hopened]
        simp [Mapping.stores]

theorem lf_notMem_mapping (mapping : Mapping) (width depth : ℕ) :
    ∀ line ∈ mapping.render width depth, lf ∉ line := by
  induction mapping generalizing depth with
  | lastLeaf key value => simp [Mapping.render, lf_notMem_pair]
  | lastNode key inner ih =>
      simpa only [Mapping.render, List.forall_mem_cons] using
        ⟨lf_notMem_open _ _, ih (depth + 1)⟩
  | leaf key value rest ih =>
      simpa only [Mapping.render, List.forall_mem_cons] using ⟨lf_notMem_pair _ _ _, ih depth⟩
  | node key inner rest ihinner ihrest =>
      simpa only [Mapping.render, List.forall_mem_cons, List.forall_mem_append] using
        ⟨lf_notMem_open _ _, ihinner (depth + 1), ihrest depth⟩

theorem parseFile_mapping (mapping : Mapping) (width : ℕ) :
    parseFile (some (written (mapping.render width 0))) =
      .ok ⟨Store.applyAll (mapping.stores width [[]]) []⟩ := by
  have hstart : Ready (width * 0) [[]] start := ⟨rfl, rfl⟩
  obtain ⟨next, hparse, hdata, -⟩ := parse_mapping mapping Chain.root [] hstart
  rw [parseFile_eq (lf_notMem_mapping mapping width 0) (Or.inl rfl), ← parseLines_significant,
    hparse, ← show next.data = Store.applyAll (mapping.stores width [[]]) [] from hdata]
  rfl

end Sok.Yaml
