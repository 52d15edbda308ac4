import Sok.Config.Scalars

/-!
# A scalar in different places

A scalar can stand on a line of its own, in a section or in an item of a list, behind the
hyphen of an item, or in an inline list.  Only a line of its own decides the type of the
scalar by its text; behind a hyphen and in an inline list it is stored as a string.

So `getValue` finds the same in all these places just for the texts that stay strings
everywhere (`KeptAsText`): a port that is the first pair of its item is no `int`.
-/

namespace Sok

namespace YamlReader

/-- What the accessors make of the value at a key; those of another type throw. -/
structure Readings where
  int : Option ℤ
  bool : Option Bool
  double : Option Bytes
  string : Option Bytes
  deriving DecidableEq

/-- `getValue` at the key, for each of the types that are stored. -/
def readings (reader : YamlReader) (key : Bytes) : Readings where
  int := (reader.getInt key).toOption
  bool := (reader.getBool key).toOption
  double := (reader.getDouble key).toOption
  string := (reader.getString key).toOption

/-- The readings of a value, whatever its key. -/
def Readings.of (value : Value) : Readings :=
  (⟨[(ascii "value", value)]⟩ : YamlReader).readings (ascii "value")

theorem toOption_getValue {α : Type} (cast : Value → Option α) (reader : YamlReader)
    (key : Bytes) : (reader.getValue cast key).toOption = (reader.find key).bind cast := by
  unfold getValue
  cases reader.find key with
  | none => rfl
  | some value =>
      simp only [Option.bind_some]
      cases cast value <;> rfl

theorem toOption_getString (reader : YamlReader) (key : Bytes) :
    (reader.getString key).toOption = ((reader.find key).bind fun
      | .str s => some s
      | _ => none).map unquote := by
  rw [← toOption_getValue, getString]
  cases reader.getValue _ key <;> rfl

/-- The readings do not depend on the key, only on the value there. -/
theorem readings_of_find {reader : YamlReader} {key : Bytes} {value : Value}
    (h : reader.find key = some value) : reader.readings key = Readings.of value := by
  have hvalue : (⟨[(ascii "value", value)]⟩ : YamlReader).find (ascii "value") = some value := by
    simp [find]
  simp only [Readings.of, readings, getInt, getBool, getDouble, toOption_getValue,
    toOption_getString, h, hvalue]

theorem exists_str_of_readings {value : Value} {text : Bytes}
    (h : Readings.of value = Readings.of (.str text)) : ∃ s, value = .str s := by
  have hstring : (Readings.of value).string = some (unquote text) := by
    rw [h]
    simp [Readings.of, readings, toOption_getString, find]
  cases value <;> simp_all [Readings.of, readings, toOption_getString, find]

end YamlReader

namespace Yaml

open YamlReader (Readings)

/-! ## Places -/

/-- A text that can stand in an inline list as well. -/
structure Plain extends Text where
  comma : 44 ∉ bytes := by decide
  opening : 91 ∉ bytes := by decide
  closing : 93 ∉ bytes := by decide

/-- The text as the only element of an inline list. -/
def Plain.inList (v : Plain) : Text where
  bytes := 91 :: v.bytes ++ [93]
  nonempty := by simp
  trimmed := by
    constructor
    · intro b hb
      obtain rfl : 91 = b := by simpa using hb
      rfl
    · intro b hb
      have hlast : (91 :: v.bytes ++ [93]).getLast? = some 93 := List.getLast?_concat
      rw [hlast] at hb
      obtain rfl : 93 = b := by simpa using hb
      rfl
  lf := by
    have hopening : lf ≠ 91 := by decide
    have hclosing : lf ≠ 93 := by decide
    simp [v.lf, hopening, hclosing]

/-- A line of the parser that stores in a map without the key. -/
structure MapPlace where
  indent : ℕ
  key : Key
  rest : List Bytes
  state : State
  path : List Step
  inner : Entries
  top : receiver indent state = some ⟨path, true⟩
  resolves : Entries.resolve path state.data = some inner
  fresh : Entries.lookup key.name inner = none

/-- A line of the parser that begins an item of a list. -/
structure ListPlace where
  indent : ℕ
  key : Key
  rest : List Bytes
  state : State
  list : ListPointer
  lists : List ListPointer
  items : List Entries
  opens : (state.dedent indent).lists = list :: lists
  valid : list.valid = true
  found : (Entries.resolve list.owner state.data).bind (Entries.lookup list.key) =
    some (.maps items)

/-- The map of the item. -/
def ListPlace.path (p : ListPlace) : List Step :=
  p.list.owner ++ [⟨p.list.key, some p.items.length⟩]

/-- Where a scalar can stand. -/
inductive Position
  /-- `k: v` -/
  | line (p : MapPlace)
  /-- `k: v` in an item whose first pair has been read -/
  | continuation (p : MapPlace)
      (item : ∃ owner key i, p.path = owner ++ [⟨key, some i⟩] ∧ p.inner ≠ [])
  /-- `- k: v` -/
  | firstPair (p : ListPlace)
  /-- `k: [v]` -/
  | element (p : MapPlace)

/-- The map at a path, as a reader, once the line has been read. -/
def readerBehind (path : List Step) (result : Except Failure State) : Option YamlReader :=
  result.toOption.bind fun next => (Entries.resolve path next.data).map YamlReader.mk

/-- What `getValue` gives for a scalar on a line of its own. -/
def MapPlace.read (p : MapPlace) (v : Plain) : Option Readings :=
  (readerBehind p.path (parseLine p.rest (pairLine p.indent p.key v.toText) p.state)).map
    fun reader => reader.readings p.key.name

namespace Position

/-- What `getValue` gives for the scalar at this place; `none` when its line throws. -/
def read (v : Plain) : Position → Option Readings
  | line p => p.read v
  | continuation p _ => p.read v
  | firstPair p =>
      (readerBehind p.path (parseLine p.rest (itemPairLine p.indent p.key v.toText) p.state)).map
        fun reader => reader.readings p.key.name
  | element p =>
      (readerBehind p.path (parseLine p.rest (pairLine p.indent p.key v.inList) p.state)).bind
        fun reader =>
          match reader.getArray p.key.name with
          | .ok [only] => some (only.readings (ascii "value"))
          | _ => none

end Position

/-- The scalar means the same everywhere. -/
def SameEverywhere (v : Plain) : Prop :=
  ∀ p q : Position, p.read v = q.read v

/-- The text is no word and has a character that is neither a digit nor a dot. -/
def KeptAsText (text : Bytes) : Prop :=
  (∀ b : Bool, text ≠ if b then ascii "true" else ascii "false") ∧
    ∃ b ∈ text, isDigit b = false ∧ b ≠ dot

/-! ## A line of its own -/

theorem Plain.not_inline (v : Plain) : ¬ IsInline v.bytes := fun h =>
  v.opening (List.mem_of_mem_head? h.1)

/-- The place as one of the lines whose types are known. -/
def MapPlace.scalarLine (p : MapPlace) (v : Text) : ScalarLine v where
  raw := pairLine p.indent p.key v
  rest := p.rest
  key := p.key.name
  state := p.state
  path := p.path
  inner := p.inner
  line := by
    have htext := trim_spaces (n := p.indent) (trimmed_pair p.key v)
    rw [pairLine, IsKeyLine, htext]
    exact ⟨⟨not_ignored_name p.key _, not_isItem_name p.key _⟩, splitColon_pair p.key v⟩
  top := by
    have hindent : countIndent (pairLine p.indent p.key v) = p.indent :=
      countIndent_spaces (trimmed_pair p.key v).1
    rw [hindent]
    exact p.top
  resolves := p.resolves
  fresh := p.fresh

theorem readerBehind_of_valueAt {path : List Step} {key : Bytes} {value : Value} {next : State}
    (h : Entries.valueAt path key next.data = some value) :
    ∃ reader, readerBehind path (.ok next) = some reader ∧ reader.find key = some value := by
  obtain ⟨inner, hinner, hlookup⟩ := Option.bind_eq_some_iff.mp h
  refine ⟨⟨inner⟩, ?_, hlookup⟩
  show (Entries.resolve path next.data).map YamlReader.mk = some ⟨inner⟩
  rw [hinner, Option.map_some]

/-- On a line of its own the scalar has the type of its text. -/
theorem MapPlace.read_eq (p : MapPlace) (v : Plain) :
    p.read v = (scalar v.bytes).toOption.map Readings.of := by
  have hparse := (p.scalarLine v.toText).parse_eq v.not_inline
  unfold MapPlace.read
  cases hstored : scalar v.bytes with
  | error failure =>
      rw [hstored] at hparse
      have hthrows : parseLine p.rest (pairLine p.indent p.key v.toText) p.state =
          .error failure := hparse
      rw [hthrows]
      rfl
  | ok stored =>
      rw [hstored] at hparse
      obtain ⟨next, hnext⟩ : ∃ next,
          parseLine p.rest (pairLine p.indent p.key v.toText) p.state = .ok next ∧
            Entries.valueAt p.path p.key.name next.data = some stored :=
        ⟨_, hparse, (p.scalarLine v.toText).valueAt_emplace stored⟩
      obtain ⟨reader, hreader, hfind⟩ := readerBehind_of_valueAt hnext.2
      rw [hnext.1, hreader, Option.map_some, YamlReader.readings_of_find hfind]
      rfl

/-! ## An inline list -/

theorem Plain.inline_inList (v : Plain) : IsInline v.inList.bytes :=
  ⟨rfl, List.getLast?_concat⟩

theorem Plain.inlineElements_inList (v : Plain) :
    inlineElements v.inList.bytes = [.str v.bytes] := by
  have hinner : (v.inList.bytes.drop 1).take (v.inList.bytes.length - 2) = v.bytes := by
    simp [Plain.inList]
  rw [inlineElements, hinner, List.splitOn_eq_singleton v.comma]
  simp [trim_of_trimmed v.trimmed, v.nonempty]

theorem read_element (p : MapPlace) (v : Plain) :
    Position.read v (.element p) = some (Readings.of (.str v.bytes)) := by
  obtain ⟨below, hstack⟩ := List.head?_eq_some_iff.mp p.top
  have hparse : parseLine p.rest (pairLine p.indent p.key v.inList) p.state =
      (((p.state.dedent p.indent).assign p.key.name (.list [.str v.bytes])).map
        (State.atIndent p.indent)) := by
    rw [parseLine_pair, storePair, if_pos v.inline_inList, v.inlineElements_inList]
  obtain ⟨next, hnext, hvalue⟩ : ∃ next,
      parseLine p.rest (pairLine p.indent p.key v.inList) p.state = .ok next ∧
        Entries.valueAt p.path p.key.name next.data = some (.list [.str v.bytes]) := by
    rw [hparse, State.assign, hstack]
    refine ⟨_, rfl, ?_⟩
    show Entries.valueAt p.path p.key.name
      (Entries.update p.path _ (p.state.dedent p.indent).data) = _
    rw [State.data_dedent, Entries.valueAt, Entries.resolve_update_self p.resolves, Option.bind_some,
      Entries.lookup_assign_self]
  obtain ⟨reader, hreader, hfind⟩ := readerBehind_of_valueAt hvalue
  have harray : reader.getArray p.key.name =
      .ok [⟨[(ascii "value", .str v.bytes)]⟩] := by
    rw [YamlReader.getArray, hfind]
    rfl
  simp only [Position.read, hnext, hreader, Option.bind_some, harray]
  rfl

/-! ## The first pair of an item -/

theorem read_firstPair (p : ListPlace) (v : Plain) :
    Position.read v (.firstPair p) = some (Readings.of (.str v.bytes)) := by
  obtain ⟨owner, howner, -⟩ := Option.bind_eq_some_iff.mp p.found
  have hparse : parseLine p.rest (itemPairLine p.indent p.key v.toText) p.state =
      (do
        let s ← (p.state.dedent p.indent).pushItem p.list
        s.assign p.key.name (.str v.bytes)).map (State.atIndent p.indent) :=
    parseLine_itemPair p.key v.toText p.opens
  obtain ⟨next, hnext, hvalue⟩ : ∃ next,
      parseLine p.rest (itemPairLine p.indent p.key v.toText) p.state = .ok next ∧
        Entries.valueAt p.path p.key.name next.data = some (.str v.bytes) := by
    rw [hparse, State.pushItem, p.valid, State.data_dedent, p.found]
    refine ⟨_, rfl, ?_⟩
    have hitem : Entries.resolve p.path (Entries.update p.list.owner
        (Entries.assign p.list.key (.maps (p.items ++ [[]]))) p.state.data) = some [] := by
      rw [ListPlace.path, Entries.resolve_append, Entries.resolve_update_self howner]
      simp [Entries.resolve, Entries.child]
    show Entries.valueAt p.path p.key.name (Entries.update p.path _ _) = _
    rw [Entries.valueAt, Entries.resolve_update_self hitem, Option.bind_some,
      Entries.lookup_assign_self]
  obtain ⟨reader, hreader, hfind⟩ := readerBehind_of_valueAt hvalue
  simp only [Position.read, hnext, hreader, Option.map_some, YamlReader.readings_of_find hfind]

/-! ## All places -/

theorem scalar_of_keptAsText {text : Bytes} (h : KeptAsText text) :
    scalar text = .ok (.str text) := by
  obtain ⟨hword, b, hb, hdigit, hdot⟩ := h
  refine (faithful_text hword fun hall => ?_).1
  rcases hall b hb with h | h
  · rw [hdigit] at h
    exact absurd h (by simp)
  · exact hdot h

theorem keptAsText_of_scalar {text s : Bytes} (h : scalar text = .ok (.str s)) :
    KeptAsText text := by
  refine ⟨fun b hword => ?_, ?_⟩
  · rw [(faithful_word hword).1] at h
    exact absurd h (by simp)
  · by_contra hbytes
    have hall : ∀ b ∈ text, isDigit b = true ∨ b = dot := by
      intro b hb
      by_contra hother
      rw [not_or, Bool.not_eq_true] at hother
      exact hbytes ⟨b, hb, hother⟩
    by_cases hdot : dot ∈ text
    · rw [scalar_of_dot hall hdot] at h
      unfold stod at h
      dsimp only at h
      split at h
      · exact absurd h (by simp)
      · split at h <;> exact absurd h (by simp)
    · rw [scalar_of_digits (digits_of_dot_notMem hall hdot)] at h
      unfold stoi at h
      split at h <;> exact absurd h (by simp)

/-- A line of its own agrees with the other places only on a text that stays a string. -/
theorem keptAsText_of_read {p : MapPlace} {v : Plain}
    (h : p.read v = some (Readings.of (.str v.bytes))) : KeptAsText v.bytes := by
  rw [p.read_eq] at h
  obtain ⟨stored, hstored, hreadings⟩ := Option.map_eq_some_iff.mp h
  obtain ⟨s, rfl⟩ := YamlReader.exists_str_of_readings hreadings
  cases hscalar : scalar v.bytes with
  | error failure =>
      rw [hscalar] at hstored
      exact absurd hstored (by simp [Except.toOption])
  | ok found =>
      rw [hscalar] at hstored
      obtain rfl : found = .str s := Option.some.inj hstored
      exact keptAsText_of_scalar hscalar

theorem lists_dedent_first (lists : List ListPointer) (data : Entries) (stack : List Pointer) :
    (State.dedent 2 ⟨data, stack, 0, lists⟩).lists = lists := by
  rw [State.dedent_of_le (Nat.zero_le _)]

/-- The first line of a file. -/
def firstPlace : MapPlace where
  indent := 0
  key := portKey
  rest := []
  state := start
  path := []
  inner := []
  top := receiver_start 0
  resolves := resolve_start
  fresh := rfl

/-- **Scalars and their places.**  `getValue` finds the same for a scalar wherever it is
written if and only if its text stays a string on a line of its own. -/
theorem same_everywhere_iff (v : Plain) : SameEverywhere v ↔ KeptAsText v.bytes := by
  constructor
  · intro hsame
    have hread := hsame (.line firstPlace) (.element firstPlace)
    rw [read_element] at hread
    exact keptAsText_of_read (p := firstPlace) hread
  · intro hkept
    have hline (p : MapPlace) : p.read v = some (Readings.of (.str v.bytes)) := by
      rw [p.read_eq, scalar_of_keptAsText hkept]
      rfl
    have hread (p : Position) : p.read v = some (Readings.of (.str v.bytes)) := by
      cases p with
      | line p => exact hline p
      | continuation p item => exact hline p
      | firstPair p => exact read_firstPair p v
      | element p => exact read_element p v
    exact fun p q => (hread p).trans (hread q).symm

/-- The first item of the list `servers`, whose line has been read. -/
def firstItem : ListPlace where
  indent := 2
  key := portKey
  rest := []
  state := ⟨[(ascii "servers", .maps [])], [⟨[], true⟩], 0, [⟨[], ascii "servers", true, 2⟩]⟩
  list := ⟨[], ascii "servers", true, 2⟩
  lists := []
  items := []
  opens := lists_dedent_first _ _ _
  valid := rfl
  found := rfl

/-- A port behind the hyphen of its item is no `int`, as it is on a line of its own. -/
theorem port_behind_hyphen : ¬ ∀ v : Plain, SameEverywhere v := by
  intro h
  have hread := h { bytes := ascii "8080" } (.line firstPlace) (.firstPair firstItem)
  rw [read_firstPair] at hread
  have hkept := keptAsText_of_read (p := firstPlace) hread
  exact absurd hkept.2 (by decide)

end Yaml

end Sok
