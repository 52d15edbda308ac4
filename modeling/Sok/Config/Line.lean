import Sok.Config.Parse

/-!
# Well-formed lines

A `Key` is a key that a line can begin with: it carries the facts that make the line
readable.  The lines here are those that the renderings of a configuration consist of: a
key without a value, a key with a value, and an item of a list with its first pair.  For
each of them there is one equation for `parseLine`.
-/

namespace Sok.Yaml

/-- A key of a line. -/
structure Key where
  name : Bytes
  nonempty : name ≠ [] := by decide
  trimmed : Trimmed name := by decide
  colon : 58 ∉ name := by decide
  lf : lf ∉ name := by decide
  comment : name.head? ≠ some 35 := by decide
  item : name.head? ≠ some 45 := by decide

/-- The text of a value. -/
structure Text where
  bytes : Bytes
  nonempty : bytes ≠ [] := by decide
  trimmed : Trimmed bytes := by decide
  lf : lf ∉ bytes := by decide

/-- A string in double quotes. -/
def quoted (s : Bytes) : Bytes :=
  34 :: s ++ [34]

theorem trimmed_quoted (s : Bytes) : Trimmed (quoted s) := by
  constructor
  · intro b hb
    obtain rfl : 34 = b := by simpa [quoted] using hb
    rfl
  · intro b hb
    have hlast : (quoted s).getLast? = some 34 := List.getLast?_concat
    rw [hlast] at hb
    obtain rfl : 34 = b := by simpa using hb
    rfl

/-- Any text without a line feed can be written in quotes. -/
def Text.quote (s : Bytes) (h : Sok.lf ∉ s) : Text where
  bytes := quoted s
  nonempty := by simp [quoted]
  trimmed := trimmed_quoted s
  lf := by
    have hquote : Sok.lf ≠ 34 := by decide
    simp [quoted, h, hquote]

/-! ## The lines -/

/-- `key:` -/
def openLine (indent : ℕ) (key : Key) : Bytes :=
  spaces indent ++ (key.name ++ [58])

/-- `key: value` -/
def pairLine (indent : ℕ) (key : Key) (value : Text) : Bytes :=
  spaces indent ++ (key.name ++ 58 :: 32 :: value.bytes)

/-- `- key: value` -/
def itemPairLine (indent : ℕ) (key : Key) (value : Text) : Bytes :=
  spaces indent ++ (45 :: 32 :: (key.name ++ 58 :: 32 :: value.bytes))

theorem head_name_append (key : Key) (rest : Bytes) :
    (key.name ++ rest).head? = key.name.head? := by
  obtain ⟨b, name, hname⟩ := List.exists_cons_of_ne_nil key.nonempty
  rw [hname]
  rfl

theorem trimmed_open (key : Key) : Trimmed (key.name ++ [58]) := by
  constructor
  · rw [head_name_append]
    exact key.trimmed.1
  · rw [List.getLast?_concat]
    intro b hb
    obtain rfl : 58 = b := by simpa using hb
    rfl

theorem getLast_pair (front : Bytes) (value : Text) :
    (front ++ 58 :: 32 :: value.bytes).getLast? = value.bytes.getLast? := by
  have hsplit : front ++ 58 :: 32 :: value.bytes = (front ++ [58, 32]) ++ value.bytes := by
    simp
  rw [hsplit, List.getLast?_append_of_ne_nil _ value.nonempty]

theorem trimmed_pair (key : Key) (value : Text) :
    Trimmed (key.name ++ 58 :: 32 :: value.bytes) := by
  constructor
  · rw [head_name_append]
    exact key.trimmed.1
  · rw [getLast_pair]
    exact value.trimmed.2

theorem trimmed_itemPair (key : Key) (value : Text) :
    Trimmed (45 :: 32 :: (key.name ++ 58 :: 32 :: value.bytes)) := by
  constructor
  · intro b hb
    obtain rfl : 45 = b := by simpa using hb
    rfl
  · have hlast := getLast_pair (45 :: 32 :: key.name) value
    rw [List.cons_append, List.cons_append] at hlast
    rw [hlast]
    exact value.trimmed.2

theorem trim_spaces {n : ℕ} {s : Bytes} (h : Trimmed s) : trim (spaces n ++ s) = s := by
  rw [trim_append fun b hb => isBlank_of_mem_spaces hb, trim_of_trimmed h]

theorem not_ignored_name (key : Key) (rest : Bytes) : ¬ Ignored (key.name ++ rest) := by
  rintro (hnil | hcomment)
  · exact key.nonempty (List.append_eq_nil_iff.mp hnil).1
  · rw [head_name_append] at hcomment
    exact key.comment hcomment

theorem not_isItem_name (key : Key) (rest : Bytes) : ¬ IsItem (key.name ++ rest) := by
  rw [IsItem, head_name_append]
  exact key.item

theorem not_ignored_open (indent : ℕ) (key : Key) : ¬ Ignored (trim (openLine indent key)) := by
  rw [openLine, trim_spaces (trimmed_open key)]
  exact not_ignored_name key _

theorem not_ignored_pair (indent : ℕ) (key : Key) (value : Text) :
    ¬ Ignored (trim (pairLine indent key value)) := by
  rw [pairLine, trim_spaces (trimmed_pair key value)]
  exact not_ignored_name key _

theorem not_ignored_itemPair (indent : ℕ) (key : Key) (value : Text) :
    ¬ Ignored (trim (itemPairLine indent key value)) := by
  rw [itemPairLine, trim_spaces (trimmed_itemPair key value)]
  simp [Ignored]

theorem lf_notMem_spaces (n : ℕ) : lf ∉ spaces n :=
  fun h => absurd (List.eq_of_mem_replicate h) (by decide)

theorem lf_notMem_open (indent : ℕ) (key : Key) : lf ∉ openLine indent key := by
  have hcolon : lf ∉ ([58] : Bytes) := by decide
  simp only [openLine, List.mem_append, lf_notMem_spaces, key.lf, hcolon, or_self,
    not_false_eq_true]

theorem lf_notMem_pair (indent : ℕ) (key : Key) (value : Text) :
    lf ∉ pairLine indent key value := by
  have hcolon : lf ≠ 58 := by decide
  have hspace : lf ≠ 32 := by decide
  simp only [pairLine, List.mem_append, List.mem_cons, lf_notMem_spaces, key.lf, value.lf, hcolon,
    hspace, or_self, not_false_eq_true]

/-! ## The two sides of the colon -/

theorem splitColon_append (key : Key) (rest : Bytes) :
    splitColon (key.name ++ 58 :: rest) = some (key.name, trim rest) := by
  have hdrop : (key.name ++ 58 :: rest).drop (key.name.length + 1) = rest := by
    rw [← List.drop_drop, List.drop_left, List.drop_one, List.tail_cons]
  rw [splitColon, Search.find_singleton_append _ key.colon, Option.map_some, List.take_left, hdrop,
    trim_of_trimmed key.trimmed]

theorem splitColon_open (key : Key) : splitColon (key.name ++ [58]) = some (key.name, []) :=
  splitColon_append key []

theorem splitColon_pair (key : Key) (value : Text) :
    splitColon (key.name ++ 58 :: 32 :: value.bytes) = some (key.name, value.bytes) := by
  rw [splitColon_append, trim_space_cons, trim_of_trimmed value.trimmed]

/-! ## What the parser does with them -/

theorem nextIsItem_key {indent : ℕ} {line : Bytes} (htrim : Trimmed line) (hignored : ¬ Ignored line)
    (rest : List Bytes) : nextIsItem ((spaces indent ++ line) :: rest) = decide (IsItem line) := by
  rw [nextIsItem, trim_spaces htrim, if_neg hignored]

theorem nextIsItem_open (indent : ℕ) (key : Key) (rest : List Bytes) :
    nextIsItem (openLine indent key :: rest) = false := by
  rw [openLine, nextIsItem_key (trimmed_open key) (not_ignored_name key _)]
  exact decide_eq_false (not_isItem_name key _)

theorem nextIsItem_pair (indent : ℕ) (key : Key) (value : Text) (rest : List Bytes) :
    nextIsItem (pairLine indent key value :: rest) = false := by
  rw [pairLine, nextIsItem_key (trimmed_pair key value) (not_ignored_name key _)]
  exact decide_eq_false (not_isItem_name key _)

theorem nextIsItem_itemPair (indent : ℕ) (key : Key) (value : Text) (rest : List Bytes) :
    nextIsItem (itemPairLine indent key value :: rest) = true := by
  rw [itemPairLine, nextIsItem_key (trimmed_itemPair key value) (by simp [Ignored])]
  rfl

section

variable {rest : List Bytes} {s : State}

theorem parseLine_key {indent : ℕ} {line : Bytes} (htrim : Trimmed line)
    (hignored : ¬ Ignored line) (hitem : ¬ IsItem line) :
    parseLine rest (spaces indent ++ line) s =
      (keyLine indent (nextIsItem rest) line (s.dedent indent)).map (State.atIndent indent) := by
  have hindent : countIndent (spaces indent ++ line) = indent := countIndent_spaces htrim.1
  have htext := trim_spaces (n := indent) htrim
  rw [parseLine_of_key (by rwa [htext]) (by rwa [htext]), htext, hindent]

/-- `key:` in front of a map. -/
theorem parseLine_open {indent : ℕ} (key : Key) (h : nextIsItem rest = false) :
    parseLine rest (openLine indent key) s =
      ((s.dedent indent).assign key.name (.map [])).map fun s =>
        (s.pushMap key.name).atIndent indent := by
  rw [openLine, parseLine_key (trimmed_open key) (not_ignored_name key _) (not_isItem_name key _),
    keyLine, splitColon_open, h]
  simp only [if_true, Bool.false_eq_true, if_false]
  cases (s.dedent indent).assign key.name (.map []) <;> rfl

/-- `key:` in front of a list. -/
theorem parseLine_openList {indent : ℕ} (key : Key) (h : nextIsItem rest = true) :
    parseLine rest (openLine indent key) s =
      ((s.dedent indent).assign key.name (.maps [])).map fun s =>
        (s.pushList key.name (indent + 2)).atIndent indent := by
  rw [openLine, parseLine_key (trimmed_open key) (not_ignored_name key _) (not_isItem_name key _),
    keyLine, splitColon_open, h]
  simp only [if_true]
  cases (s.dedent indent).assign key.name (.maps []) <;> rfl

/-- What `key: value` stores. -/
def storePair (key : Key) (value : Text) (s : State) : Except Failure State :=
  if IsInline value.bytes then s.assign key.name (.list (inlineElements value.bytes))
  else do
    let stored ← scalar value.bytes
    s.emplace key.name stored

theorem parseLine_pair {indent : ℕ} (key : Key) (value : Text) :
    parseLine rest (pairLine indent key value) s =
      (storePair key value (s.dedent indent)).map (State.atIndent indent) := by
  rw [pairLine, parseLine_key (trimmed_pair key value) (not_ignored_name key _)
    (not_isItem_name key _), keyLine, splitColon_pair]
  simp only [value.nonempty, if_false, storePair]

/-- `- key: value` -/
theorem parseLine_itemPair {indent : ℕ} (key : Key) (value : Text) {list : ListPointer}
    {lists : List ListPointer} (h : (s.dedent indent).lists = list :: lists) :
    parseLine rest (itemPairLine indent key value) s =
      (do
        let s ← (s.dedent indent).pushItem list
        s.assign key.name (.str value.bytes)).map (State.atIndent indent) := by
  have htrimmed := trimmed_itemPair key value
  have hindent := @countIndent_spaces indent _ htrimmed.1
  have hitem : trim (32 :: (key.name ++ 58 :: 32 :: value.bytes)) =
      key.name ++ 58 :: 32 :: value.bytes := by
    rw [trim_space_cons, trim_of_trimmed (trimmed_pair key value)]
  have hignored : ¬ Ignored (45 :: 32 :: (key.name ++ 58 :: 32 :: value.bytes)) := by
    simp [Ignored]
  have hhyphen : IsItem (45 :: 32 :: (key.name ++ 58 :: 32 :: value.bytes)) := rfl
  have hne : key.name ++ 58 :: 32 :: value.bytes ≠ [] := by simp
  have htext := trim_spaces (n := indent) htrimmed
  rw [itemPairLine, parseLine_of_item (by rwa [htext]) (by rwa [htext]), htext, hindent]
  simp only [List.drop_one, List.tail_cons, itemLine, h, hitem, hne, if_false, splitColon_pair,
    value.nonempty]

end

end Sok.Yaml
