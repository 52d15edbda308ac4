import Sok.Config.Line

/-!
# Nested maps read back

A `Tree` is the contents of a map, entry by entry: a scalar, or a map again.  It is
rendered with two spaces for each level.

While the parser reads the lines of a map at some depth, the map's pointer is on the
stack below as many others as the last line was deeper (`At`), so a line of the map at
hand, however many levels it closes, finds that pointer on top.

## Strategy

The induction is on the tree (`parse_render`), from a state in which the pointer of the map
lies `below` as many others as the last line was deeper.  A scalar keeps that; a section
pushes one pointer, and its entries, by the induction hypothesis, leave the stack for the
next key of the map at hand.  What is built is compared with the tree in a second step
(`build_eq`), where the distinct keys come in, since `emplace` and `operator[]` are the
same only for new keys.  Blank lines and comments are removed before all that
(`significant_of_inserted`).
-/

namespace Sok.Yaml

/-! ## Trees -/

/-- A scalar that can be written. -/
inductive Leaf
  | bool (b : Bool)
  | int (n : ℕ) (h : n < 2 ^ 31)
  | str (s : Bytes) (h : lf ∉ s)

/-- The entries of a map. -/
inductive Tree
  | empty
  | leaf (key : Key) (value : Leaf) (rest : Tree)
  | node (key : Key) (inner : Tree) (rest : Tree)

namespace Leaf

theorem digit_of_mem_decimal {n : ℕ} {b : UInt8} (h : b ∈ decimal n) : isDigit b = true := by
  have hrange := mem_decimal h
  simpa [isDigit] using hrange

theorem not_blank_of_digit {b : UInt8} (h : isDigit b = true) : isBlank b = false := by
  have hlow : 48 ≤ b := by
    simp only [isDigit, Bool.and_eq_true, decide_eq_true_eq] at h
    exact h.1
  have hne : ∀ c : UInt8, c < 48 → b ≠ c := by
    rintro c hc rfl
    exact absurd (UInt8.lt_of_lt_of_le hc hlow) (UInt8.lt_irrefl _)
  simp [isBlank, hne 32 (by decide), hne 9 (by decide), hne 10 (by decide), hne 13 (by decide)]

theorem decimal_ne_nil (n : ℕ) : decimal n ≠ [] := by
  simp [decimal, Nat.toDigits_ne_nil]

/-- The text of a scalar. -/
def text : Leaf → Text
  | bool true => { bytes := ascii "true" }
  | bool false => { bytes := ascii "false" }
  | int n _ =>
      { bytes := decimal n
        nonempty := decimal_ne_nil n
        trimmed := ⟨fun b hb => not_blank_of_digit (digit_of_mem_decimal (List.mem_of_mem_head? hb)),
          fun b hb => not_blank_of_digit (digit_of_mem_decimal (List.mem_of_mem_getLast? hb))⟩
        lf := fun hlf => absurd (digit_of_mem_decimal hlf) (by decide) }
  | str s h => .quote s h

/-- What is stored. -/
def value : Leaf → Value
  | bool b => .bool b
  | int n _ => .int n
  | str s _ => .str (quoted s)

theorem not_inline (leaf : Leaf) : ¬ IsInline leaf.text.bytes := by
  rintro ⟨hhead, -⟩
  cases leaf with
  | bool b => cases b <;> exact absurd hhead (by decide)
  | int n h => exact absurd (digit_of_mem_decimal (List.mem_of_mem_head? hhead)) (by decide)
  | str s h => exact absurd hhead (by simp [text, Text.quote, quoted])

theorem scalar_decimal {n : ℕ} (h : n < 2 ^ 31) : scalar (decimal n) = .ok (.int n) := by
  have hdigits : (decimal n).all isDigit = true :=
    List.all_eq_true.mpr fun b hb => digit_of_mem_decimal hb
  have hword : ∀ word : Bytes, word.all isDigit = false → decimal n ≠ word := by
    rintro word hword rfl
    rw [hdigits] at hword
    exact absurd hword (by simp)
  rw [scalar, if_neg, if_pos hdigits, stoi, decimalValue_decimal, if_pos h]
  exact not_or.mpr ⟨hword _ (by decide), hword _ (by decide)⟩

theorem scalar_quoted (s : Bytes) : scalar (quoted s) = .ok (.str (quoted s)) := by
  have hhead : ∀ word : Bytes, word.head? ≠ some 34 → quoted s ≠ word := by
    rintro word hword rfl
    exact hword rfl
  have hword : ¬ (quoted s = ascii "true" ∨ quoted s = ascii "false") :=
    not_or.mpr ⟨hhead _ (by decide), hhead _ (by decide)⟩
  have hquote : isDigit 34 = false := by decide
  rw [scalar, if_neg hword]
  simp [quoted, hquote]

theorem scalar_text (leaf : Leaf) : scalar leaf.text.bytes = .ok leaf.value := by
  cases leaf with
  | bool b => cases b <;> rfl
  | int n h => exact scalar_decimal h
  | str s h => exact scalar_quoted s

theorem storePair_text (leaf : Leaf) (key : Key) (s : State) :
    storePair key leaf.text s = s.emplace key.name leaf.value := by
  rw [storePair, if_neg leaf.not_inline, scalar_text]
  rfl

/-- The scalar is what the accessor of its type returns. -/
def ReadBack (reader : YamlReader) (key : Bytes) : Leaf → Prop
  | bool b => reader.getBool key = .ok b
  | int n _ => reader.getInt key = .ok n
  | str s _ => reader.getString key = .ok s

theorem unquote_quoted (s : Bytes) : YamlReader.unquote (quoted s) = s := by
  have hlast : (quoted s).getLast? = some 34 := List.getLast?_concat
  have hquoted : quoted s ≠ [] ∧ (quoted s).head? = some YamlReader.quote ∧
      (quoted s).getLast? = some YamlReader.quote := ⟨by simp [quoted], rfl, hlast⟩
  rw [YamlReader.unquote, if_pos hquoted]
  simp [quoted]

theorem readBack_of_lookup {reader : YamlReader} {key : Bytes} {leaf : Leaf}
    (h : reader.find key = some leaf.value) : leaf.ReadBack reader key := by
  cases leaf with
  | bool b => simp [ReadBack, YamlReader.getBool, YamlReader.getValue, h, value]
  | int n hn => simp [ReadBack, YamlReader.getInt, YamlReader.getValue, h, value]
  | str s hs =>
      simp [ReadBack, YamlReader.getString, YamlReader.getValue, h, value, unquote_quoted,
        Except.map]

end Leaf

namespace Tree

/-- The keys of the map itself. -/
def keys : Tree → List Bytes
  | empty => []
  | leaf key _ rest => key.name :: rest.keys
  | node key _ rest => key.name :: rest.keys

/-- Keys are distinct in every map, and no map inside is empty. -/
def WellFormed : Tree → Prop
  | empty => True
  | leaf key _ rest => key.name ∉ rest.keys ∧ rest.WellFormed
  | node key inner rest =>
      key.name ∉ rest.keys ∧ inner ≠ empty ∧ inner.WellFormed ∧ rest.WellFormed

/-- The lines of a map whose keys are `depth` levels deep. -/
def render (depth : ℕ) : Tree → List Bytes
  | empty => []
  | leaf key value rest => pairLine (2 * depth) key value.text :: rest.render depth
  | node key inner rest =>
      openLine (2 * depth) key :: (inner.render (depth + 1) ++ rest.render depth)

/-- The data of a map. -/
def toData : Tree → Entries
  | empty => []
  | leaf key value rest => (key.name, value.value) :: rest.toData
  | node key inner rest => (key.name, .map inner.toData) :: rest.toData

/-- The accessors give back the entries of the map, and there are no others. -/
def Recovered (reader : YamlReader) : Tree → Prop
  | empty => True
  | leaf key value rest => value.ReadBack reader key.name ∧ rest.Recovered reader
  | node key inner rest =>
      (∃ object, reader.getObject key.name = .ok object ∧
        (∀ other, object.find other ≠ none → other ∈ inner.keys) ∧ inner.Recovered object) ∧
      rest.Recovered reader

/-! ## What the parser builds -/

/-- What reading the lines does to the map. -/
def build : Tree → Entries → Entries
  | empty, entries => entries
  | leaf key value rest, entries => rest.build (Entries.emplace key.name value.value entries)
  | node key inner rest, entries =>
      rest.build (Entries.update [⟨key.name, none⟩] inner.build
        (Entries.assign key.name (.map []) entries))

theorem update_assign_map (key : Bytes) (f : Entries → Entries) (entries : Entries) :
    Entries.update [⟨key, none⟩] f (Entries.assign key (.map []) entries) =
      Entries.assign key (.map (f [])) entries := by
  simp [Entries.update, Entries.child, Entries.setChild, Entries.assign_assign]

theorem build_eq {tree : Tree} (h : tree.WellFormed) (entries : Entries)
    (hnew : ∀ key ∈ tree.keys, Entries.lookup key entries = none) :
    tree.build entries = entries ++ tree.toData := by
  induction tree generalizing entries with
  | empty => simp [build, toData]
  | leaf key value rest ih =>
      have hkey := hnew key.name (by simp [keys])
      have hrest : ∀ other ∈ rest.keys, Entries.lookup other entries = none :=
        fun other hother => hnew other (by simp [keys, hother])
      rw [build, Entries.emplace_of_lookup_eq_none hkey,
        ih h.2 _ (Entries.lookup_concat_of_notMem h.1 hrest _),
        toData, List.append_assoc, List.singleton_append]
  | node key inner rest ihinner ihrest =>
      obtain ⟨hfresh, -, hinner, hwf⟩ := h
      have hkey := hnew key.name (by simp [keys])
      have hrest : ∀ other ∈ rest.keys, Entries.lookup other entries = none :=
        fun other hother => hnew other (by simp [keys, hother])
      have hbuild : inner.build [] = inner.toData :=
        ihinner hinner [] fun _ _ => Entries.lookup_nil _
      rw [build, update_assign_map, hbuild, Entries.assign_of_lookup_eq_none hkey,
        ihrest hwf _ (Entries.lookup_concat_of_notMem hfresh hrest _), toData, List.append_assoc,
        List.singleton_append]

end Tree

/-! ## The stack -/

/-- The map at the path is open, and the last line was as many levels deeper as there are
other maps above it on the stack. -/
structure At (depth : ℕ) (path : List Step) (below : List Pointer) (s : State) : Prop where
  lists : s.lists = []
  stack : ∃ above, s.stack = above ++ ⟨path, true⟩ :: below ∧
    s.previousIndent = 2 * depth + 2 * above.length

/-- The map at the path has just been opened. -/
structure Opened (depth : ℕ) (path : List Step) (below : List Pointer) (s : State) : Prop where
  lists : s.lists = []
  stack : s.stack = ⟨path, true⟩ :: below
  previous : s.previousIndent ≤ 2 * depth

theorem dedent_of_at {depth : ℕ} {path : List Step} {below : List Pointer} {s : State}
    (h : At depth path below s) :
    (s.dedent (2 * depth)).data = s.data ∧ (s.dedent (2 * depth)).lists = [] ∧
      (s.dedent (2 * depth)).stack = ⟨path, true⟩ :: below := by
  obtain ⟨above, hstack, hprevious⟩ := h.stack
  have hrounds : State.rounds (2 * depth) s.previousIndent = above.length := by
    simp only [State.rounds]
    omega
  have hmin : min above.length (s.stack.length - 1) = above.length := by
    rw [hstack, List.length_append, List.length_cons]
    omega
  rw [State.dedent_eq, hrounds, hmin, hstack, List.drop_left, h.lists]
  exact ⟨rfl, by simp, rfl⟩

theorem dedent_of_opened {depth : ℕ} {path : List Step} {below : List Pointer} {s : State}
    (h : Opened depth path below s) :
    (s.dedent (2 * depth)).data = s.data ∧ (s.dedent (2 * depth)).lists = [] ∧
      (s.dedent (2 * depth)).stack = ⟨path, true⟩ :: below := by
  rw [State.dedent_of_le h.previous]
  exact ⟨rfl, h.lists, h.stack⟩

theorem emplace_of_stack {key : Bytes} {value : Value} {path : List Step} {below : List Pointer}
    {s : State} (h : s.stack = ⟨path, true⟩ :: below) :
    s.emplace key value = .ok { s with
      data := Entries.update path (Entries.emplace key value) s.data } := by
  simp [State.emplace, h]

/-- No pointer is as deep as a value that has just been assigned. -/
theorem assign_of_stack {key : Bytes} {value : Value} {path : List Step} {below : List Pointer}
    {s : State} (h : s.stack = ⟨path, true⟩ :: below) (hlists : s.lists = [])
    (hbelow : ∀ p ∈ below, p.path.length ≤ path.length) :
    s.assign key value = .ok { s with
      data := Entries.update path (Entries.assign key value) s.data } := by
  have houtside : ∀ p ∈ (⟨path, true⟩ :: below : List Pointer), ¬ Inside path key p.path := by
    rintro p hp ⟨-, step, hstep, -⟩
    have hlength : p.path.length ≤ path.length := by
      rcases List.mem_cons.mp hp with rfl | hp
      · exact le_rfl
      · exact hbelow p hp
    rw [List.drop_eq_nil_of_le hlength] at hstep
    exact absurd hstep (by simp)
  have hstack : s.stack.map (fun p => ({ p with
      valid := p.valid && !decide (Inside path key p.path) } : Pointer)) = s.stack := by
    rw [h]
    exact map_valid_eq_self fun p hp _ => houtside p hp
  have htop : s.assign key value = .ok { (s.invalidate path key).dropLists path key with
      data := Entries.update path (Entries.assign key value) s.data } := by
    simp [State.assign, h]
  rw [htop]
  simp only [State.dropLists, State.invalidate, hstack, hlists, List.map_nil]

/-! ## The lines of a tree -/

theorem nextIsItem_render {tree : Tree} (h : tree ≠ .empty) (depth : ℕ) (more : List Bytes) :
    nextIsItem (tree.render depth ++ more) = false := by
  cases tree with
  | empty => exact absurd rfl h
  | leaf key value rest => exact nextIsItem_pair _ _ _ _
  | node key inner rest => exact nextIsItem_open _ _ _

/-- The lines of a map are read into it. -/
theorem parse_render {tree : Tree} (h : tree.WellFormed) {depth : ℕ} {path : List Step}
    {below : List Pointer} (hbelow : ∀ p ∈ below, p.path.length ≤ path.length)
    (more : List Bytes) {s : State} (hs : At depth path below s ∨ Opened depth path below s) :
    ∃ next, parseLines more (tree.render depth) s = .ok next ∧
      next.data = Entries.update path tree.build s.data ∧
      (At depth path below s ∨ tree ≠ .empty → At depth path below next) := by
  induction tree generalizing depth path below more s with
  | empty =>
      refine ⟨s, rfl, (Entries.update_id path s.data).symm, fun hat => ?_⟩
      exact hat.resolve_right fun hne => hne rfl
  | leaf key value rest ih =>
      obtain ⟨hdata, hlists, hstack⟩ := hs.elim dedent_of_at dedent_of_opened
      have hline : parseLine (rest.render depth ++ more) (pairLine (2 * depth) key value.text) s =
          .ok (State.atIndent (2 * depth) { s.dedent (2 * depth) with
            data := Entries.update path (Entries.emplace key.name value.value) s.data }) := by
        rw [parseLine_pair, Leaf.storePair_text, emplace_of_stack hstack, hdata]
        rfl
      have hat : At depth path below (State.atIndent (2 * depth) { s.dedent (2 * depth) with
          data := Entries.update path (Entries.emplace key.name value.value) s.data }) :=
        ⟨hlists, [], hstack, rfl⟩
      obtain ⟨next, hparse, hnext, hat_next⟩ := ih h.2 hbelow more (Or.inl hat)
      refine ⟨next, (parseLines_cons hline).trans hparse, ?_, fun _ => hat_next (Or.inl hat)⟩
      rw [hnext]
      exact Entries.update_update path _ _ _
  | node key inner rest ihinner ihrest =>
      obtain ⟨-, hne, hinner, hrest⟩ := h
      obtain ⟨hdata, hlists, hstack⟩ := hs.elim dedent_of_at dedent_of_opened
      -- the line of the key opens the map inside
      let opened : State := State.atIndent (2 * depth) { s.dedent (2 * depth) with
        data := Entries.update path (Entries.assign key.name (.map [])) s.data
        stack := ⟨path ++ [⟨key.name, none⟩], true⟩ :: ⟨path, true⟩ :: below }
      have hline : parseLine ((inner.render (depth + 1) ++ rest.render depth) ++ more)
          (openLine (2 * depth) key) s = .ok opened := by
        rw [List.append_assoc, parseLine_open key (nextIsItem_render hne _ _),
          assign_of_stack hstack hlists hbelow, hdata]
        simp only [Except.map, State.pushMap, hstack, opened]
      have hopened : Opened (depth + 1) (path ++ [⟨key.name, none⟩]) (⟨path, true⟩ :: below)
          opened :=
        ⟨hlists, rfl, by simp only [opened, State.atIndent]; omega⟩
      have hdeeper : ∀ p ∈ (⟨path, true⟩ :: below : List Pointer),
          p.path.length ≤ (path ++ [(⟨key.name, none⟩ : Step)]).length := by
        intro p hp
        rw [List.length_append]
        rcases List.mem_cons.mp hp with rfl | hp
        · exact Nat.le_add_right _ _
        · exact (hbelow p hp).trans (Nat.le_add_right _ _)
      obtain ⟨middle, hparse, hmiddle, hat⟩ :=
        ihinner hinner hdeeper (rest.render depth ++ more) (Or.inr hopened)
      -- its pointer is one of those above the map at hand
      have hat_middle : At depth path below middle := by
        obtain ⟨hlists, above, hstack, hprevious⟩ := hat (Or.inr hne)
        refine ⟨hlists, above ++ [⟨path ++ [⟨key.name, none⟩], true⟩], by simp [hstack], ?_⟩
        rw [hprevious, List.length_append, List.length_singleton]
        omega
      obtain ⟨next, hparse_rest, hnext, hat_next⟩ := ihrest hrest hbelow more (Or.inl hat_middle)
      refine ⟨next, ?_, ?_, fun _ => hat_next (Or.inl hat_middle)⟩
      · calc parseLines more ((Tree.node key inner rest).render depth) s
            = parseLines more (inner.render (depth + 1) ++ rest.render depth) opened :=
              parseLines_cons hline
          _ = parseLines (rest.render depth ++ more) (inner.render (depth + 1)) opened >>=
                parseLines more (rest.render depth) := parseLines_append _ _ _ _
          _ = parseLines more (rest.render depth) middle := by
              rw [hparse]
              rfl
          _ = .ok next := hparse_rest
      · rw [hnext, hmiddle, Entries.update_append]
        simp only [opened, State.atIndent, Entries.update_update]
        rfl

/-! ## What is read back -/

namespace Tree

theorem mem_keys_of_lookup {tree : Tree} {key : Bytes}
    (h : Entries.lookup key tree.toData ≠ none) : key ∈ tree.keys := by
  induction tree with
  | empty => exact absurd (Entries.lookup_nil key) h
  | leaf first value rest ih =>
      rw [toData, Entries.lookup_cons] at h
      split at h
      · rename_i hkey
        exact hkey ▸ List.mem_cons_self
      · exact List.mem_cons_of_mem _ (ih h)
  | node first inner rest _ ih =>
      rw [toData, Entries.lookup_cons] at h
      split at h
      · rename_i hkey
        exact hkey ▸ List.mem_cons_self
      · exact List.mem_cons_of_mem _ (ih h)

theorem recovered_of_find {tree : Tree} (h : tree.WellFormed) {reader : YamlReader}
    (hfind : ∀ key ∈ tree.keys, reader.find key = Entries.lookup key tree.toData) :
    tree.Recovered reader := by
  -- an entry does not hide those behind it
  have hlater : ∀ {key : Bytes} {value : Value} {rest : Tree}, key ∉ rest.keys →
      ∀ other ∈ rest.keys, Entries.lookup other ((key, value) :: rest.toData) =
        Entries.lookup other rest.toData := by
    intro key value rest hkey other hother
    rw [Entries.lookup_cons, if_neg fun heq : key = other => hkey (heq ▸ hother)]
  induction tree generalizing reader with
  | empty => trivial
  | leaf key value rest ih =>
      refine ⟨Leaf.readBack_of_lookup ?_, ih h.2 fun other hother => ?_⟩
      · rw [hfind key.name List.mem_cons_self, toData, Entries.lookup_cons, if_pos rfl]
      · rw [hfind other (List.mem_cons_of_mem _ hother), toData, hlater h.1 other hother]
  | node key inner rest ihinner ihrest =>
      obtain ⟨hkey, -, hinner, hrest⟩ := h
      refine ⟨⟨⟨inner.toData⟩, ?_, fun other hother => mem_keys_of_lookup hother,
        ihinner hinner fun _ _ => rfl⟩, ihrest hrest fun other hother => ?_⟩
      · rw [YamlReader.getObject, hfind key.name List.mem_cons_self, toData, Entries.lookup_cons,
          if_pos rfl]
      · rw [hfind other (List.mem_cons_of_mem _ hother), toData, hlater hkey other hother]

end Tree

/-! ## The file -/

/-- A blank line or a comment. -/
def Filler (line : Bytes) : Prop :=
  lf ∉ line ∧ ∃ blanks text, line = blanks ++ text ∧ (∀ b ∈ blanks, isBlank b = true) ∧
    (text = [] ∨ text.head? = some 35)

/-- The second list is the first one with blank lines and comments inserted. -/
inductive Inserted : List Bytes → List Bytes → Prop
  | nil : Inserted [] []
  | line (line : Bytes) {lines doc : List Bytes} : Inserted lines doc →
      Inserted (line :: lines) (line :: doc)
  | filler {filler : Bytes} {lines doc : List Bytes} : Filler filler → Inserted lines doc →
      Inserted lines (filler :: doc)

theorem ignored_of_filler {line : Bytes} (h : Filler line) : Ignored (trim line) := by
  obtain ⟨-, blanks, text, rfl, hblanks, htext⟩ := h
  rw [trim_append hblanks]
  rcases htext with rfl | hhead
  · exact Or.inl rfl
  · obtain ⟨rest, rfl⟩ : ∃ rest, text = 35 :: rest := by
      cases text with
      | nil => exact absurd hhead (by simp)
      | cons b rest => exact ⟨rest, by rw [Option.some.inj hhead]⟩
    refine Or.inr ?_
    have hcomment : isBlank 35 = false := by decide
    have hprefix : trim (35 :: rest) <+: 35 :: rest := by
      rw [trim, List.dropWhile_cons_of_neg (by simp [hcomment])]
      exact List.rdropWhile_prefix _ _
    have hne : trim (35 :: rest) ≠ [] := by
      rw [trim, List.dropWhile_cons_of_neg (by simp [hcomment]), ne_eq, List.rdropWhile_eq_nil_iff]
      exact fun hall => absurd (hall 35 List.mem_cons_self) (by simp [hcomment])
    obtain ⟨b, t, htrim⟩ := List.exists_cons_of_ne_nil hne
    rw [htrim] at hprefix ⊢
    rw [(List.cons_prefix_cons.mp hprefix).1]
    rfl

theorem significant_of_inserted {lines doc : List Bytes} (h : Inserted lines doc)
    (hlines : ∀ line ∈ lines, ¬ Ignored (trim line)) : significant doc = lines := by
  induction h with
  | nil => rfl
  | line line _ ih =>
      have hkeep : ¬ Ignored (trim line) := hlines line List.mem_cons_self
      have hrest := ih fun other hother => hlines other (List.mem_cons_of_mem _ hother)
      rw [significant_cons hkeep, hrest]
  | filler hfiller _ ih =>
      rw [significant_cons_of_ignored (ignored_of_filler hfiller)]
      exact ih hlines

theorem lf_notMem_of_inserted {lines doc : List Bytes} (h : Inserted lines doc)
    (hlines : ∀ line ∈ lines, lf ∉ line) : ∀ line ∈ doc, lf ∉ line := by
  induction h with
  | nil => exact hlines
  | line line _ ih =>
      intro other hother
      rcases List.mem_cons.mp hother with rfl | hother
      · exact hlines other List.mem_cons_self
      · exact ih (fun l hl => hlines l (List.mem_cons_of_mem _ hl)) other hother
  | filler hfiller _ ih =>
      intro other hother
      rcases List.mem_cons.mp hother with rfl | hother
      · exact hfiller.1
      · exact ih hlines other hother

/-- The lines of a tree are lines, and none is skipped. -/
theorem render_lines (tree : Tree) (depth : ℕ) :
    ∀ line ∈ tree.render depth, lf ∉ line ∧ ¬ Ignored (trim line) := by
  induction tree generalizing depth with
  | empty => simp [Tree.render]
  | leaf key value rest ih =>
      intro line hline
      rcases List.mem_cons.mp hline with rfl | hline
      · exact ⟨lf_notMem_pair _ key _, not_ignored_pair _ key _⟩
      · exact ih depth line hline
  | node key inner rest ihinner ihrest =>
      intro line hline
      rcases List.mem_cons.mp hline with rfl | hline
      · exact ⟨lf_notMem_open _ key, not_ignored_open _ key⟩
      · rcases List.mem_append.mp hline with hline | hline
        · exact ihinner (depth + 1) line hline
        · exact ihrest depth line hline

theorem parseFile_render {tree : Tree} (h : tree.WellFormed) {doc : List Bytes} {text : Bytes}
    (hdoc : Inserted (tree.render 0) doc)
    (htext : text = written doc ∨ text ++ [lf] = written doc) :
    parseFile (some text) = .ok ⟨tree.toData⟩ := by
  have hlines := render_lines tree 0
  have hopened : Opened 0 [] [] start := ⟨rfl, rfl, le_rfl⟩
  obtain ⟨final, hparse, hdata, -⟩ := parse_render h (by simp) [] (Or.inr hopened)
  have hlf := lf_notMem_of_inserted hdoc fun line hline => (hlines line hline).1
  rw [parseFile_eq hlf htext, significant_of_inserted hdoc fun line hline => (hlines line hline).2,
    hparse]
  have hbuild : tree.build [] = tree.toData := by
    simpa using Tree.build_eq h [] fun _ _ => Entries.lookup_nil _
  have hfinal : final.data = tree.toData := hdata.trans hbuild
  rw [← hfinal]
  rfl

/-! ## A small file -/

def serverKey : Key where
  name := ascii "server"

def portKey : Key where
  name := ascii "port"

def tlsKey : Key where
  name := ascii "tls"

def nameKey : Key where
  name := ascii "name"

/-- A section and a name behind it. -/
def smallTree : Tree :=
  .node serverKey
    (.leaf portKey (.int 8080 (by decide)) (.leaf tlsKey (.bool true) .empty))
    (.leaf nameKey (.str (ascii "a: b") (by decide)) .empty)

def smallDoc : List Bytes :=
  [ascii "server:", ascii "# the port", ascii "  port: 8080", [], ascii "  tls: true",
    ascii "name: \"a: b\""]

theorem inserted_smallDoc : Inserted (smallTree.render 0) smallDoc := by
  have hcomment : Filler (ascii "# the port") :=
    ⟨by decide, [], ascii "# the port", rfl, by simp, Or.inr rfl⟩
  have hblank : Filler [] := ⟨by simp, [], [], rfl, by simp, Or.inl rfl⟩
  have hrender : smallTree.render 0 =
      [ascii "server:", ascii "  port: 8080", ascii "  tls: true", ascii "name: \"a: b\""] := by
    decide +kernel
  rw [hrender]
  exact .line _ (.filler hcomment (.line _ (.filler hblank (.line _ (.line _ .nil)))))

/-- **YAML round trip.**  A tree of maps that is rendered with two spaces for each level,
with blank lines and comments anywhere, is parsed to a reader whose accessors give back the
tree, entry by entry, and that has no other keys at any level. -/
theorem yaml_round_trip (tree : Tree) (hwf : tree.WellFormed) (doc : List Bytes) (text : Bytes)
    (hdoc : Inserted (tree.render 0) doc)
    (htext : text = written doc ∨ text ++ [lf] = written doc) :
    ∃ reader, parseFile (some text) = .ok reader ∧
      (∀ key, reader.find key ≠ none → key ∈ tree.keys) ∧ tree.Recovered reader :=
  ⟨⟨tree.toData⟩, parseFile_render hwf hdoc htext, fun _ hkey => Tree.mem_keys_of_lookup hkey,
    Tree.recovered_of_find hwf fun _ _ => rfl⟩

theorem yaml_round_trip_small :
    ∃ reader, parseFile (some (ascii
        "server:\n# the port\n  port: 8080\n\n  tls: true\nname: \"a: b\"\n")) = .ok reader ∧
      (∀ key, reader.find key ≠ none → key ∈ [ascii "server", ascii "name"]) ∧
      smallTree.Recovered reader :=
  yaml_round_trip smallTree ⟨by decide, by simp, ⟨by decide, by decide, trivial⟩,
    by decide, trivial⟩ smallDoc _ inserted_smallDoc (Or.inl (by decide +kernel))

end Sok.Yaml
