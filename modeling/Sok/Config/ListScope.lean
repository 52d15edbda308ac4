import Sok.Config.BlockList
import Sok.Config.Mirror
import Sok.Config.RoundTrip
import Sok.Config.Settled

/-!
# Keys behind a block list

A document with a block list is compared with the one in which a scalar stands in its
place.  The dedent loop closes one map for every two spaces, also for the two between the
key of the list and its items; but how many maps the list has left open depends on its
items (`BlockList`).  So the next line finds the map that it would have found behind a scalar
when exactly one item of the list stands on one line, or when that line closes all maps in
both documents (`Level`).

From then on both documents are read alike (`Mirror`), and the list stays what it is
(`Settled`).

## Strategy

The lines of the list are run once, from the state in front of it (`parse_list`), and give
the stack behind the list: the pointers of the items on one line, invalid but for the last,
above the pointers that were there.  Behind the scalar there are only the latter.  The next
line closes equally many pointers on both sides, so it finds the same map exactly under
`Level`; this is arithmetic on the heights of the two stacks, with `index_unique` to tell
from the map found how many were closed.

That the whole rest of the file is read alike then needs no induction of its own: the two
states mirror each other, and `Mirror.parseLines` and `Shut.parseLines` do the rest.
-/

namespace Sok.Yaml

/-! ## Lines that are read alike -/

/-- What is behind the lines matters only for the lookahead. -/
theorem parseLines_congr {more other : List Bytes} (h : nextIsItem more = nextIsItem other)
    (lines : List Bytes) (s : State) : parseLines more lines s = parseLines other lines s := by
  have hnext (rest : List Bytes) : nextIsItem (rest ++ more) = nextIsItem (rest ++ other) := by
    induction rest with
    | nil => exact h
    | cons raw rest ih => simp only [List.cons_append, nextIsItem, ih]
  induction lines generalizing s with
  | nil => rfl
  | cons raw lines ih =>
      have hline : parseLine (lines ++ more) raw s = parseLine (lines ++ other) raw s := by
        simp only [parseLine, hnext lines]
      rw [parseLines, parseLines, hline]
      exact congrArg _ (funext ih)

theorem parseLines_of_skipped {lines : List Bytes} (h : significant lines = [])
    (more : List Bytes) (s : State) : parseLines more lines s = .ok s := by
  rw [parseLines_significant, h]
  rfl

theorem parseLines_skipped_append {skipped : List Bytes} (h : significant skipped = [])
    (more lines : List Bytes) (s : State) :
    parseLines more (skipped ++ lines) s = parseLines more lines s := by
  rw [parseLines_append, parseLines_of_skipped h]
  rfl

/-- The first line that is not skipped. -/
theorem exists_first {lines : List Bytes} (h : significant lines ≠ []) :
    ∃ skipped raw rest, lines = skipped ++ raw :: rest ∧ significant skipped = [] ∧
      ¬ Ignored (trim raw) := by
  induction lines with
  | nil => exact absurd rfl h
  | cons raw lines ih =>
      by_cases hignored : Ignored (trim raw)
      · rw [significant_cons_of_ignored hignored] at h
        obtain ⟨skipped, first, rest, rfl, hskipped, hfirst⟩ := ih h
        refine ⟨raw :: skipped, first, rest, rfl, ?_, hfirst⟩
        rw [significant_cons_of_ignored hignored, hskipped]
      · exact ⟨[], raw, lines, rfl, rfl, hignored⟩

theorem head_significant {skipped rest : List Bytes} {raw : Bytes}
    (hskipped : significant skipped = []) (hraw : ¬ Ignored (trim raw)) :
    (significant (skipped ++ raw :: rest)).head? = some raw := by
  rw [significant_append, hskipped, significant_cons hraw]
  rfl

theorem top_of_keyLine {indent : ℕ} {isArray : Bool} {line : Bytes} {s next : State}
    (h : keyLine indent isArray line s = .ok next) :
    ∃ path, s.stack.head? = some ⟨path, true⟩ := by
  have hassign {key : Bytes} {value : Value} {read : State}
      (hok : s.assign key value = .ok read) : ∃ path, s.stack.head? = some ⟨path, true⟩ := by
    obtain ⟨path, below, hstack, -⟩ := assign_ok hok
    exact ⟨path, by rw [hstack]; rfl⟩
  unfold keyLine at h
  split at h
  · exact absurd h (by simp)
  · split at h
    · split at h
      · obtain ⟨read, hread, -⟩ := exists_ok_of_bind h
        exact hassign hread
      · obtain ⟨read, hread, -⟩ := exists_ok_of_bind h
        exact hassign hread
    · split at h
      · exact hassign h
      · obtain ⟨stored, -, h⟩ := exists_ok_of_bind h
        obtain ⟨path, below, hstack, -⟩ := emplace_ok h
        exact ⟨path, by rw [hstack]; rfl⟩

theorem convertible_of_read {more lines : List Bytes} {s next : State}
    (h : parseLines more lines s = .ok next) {indent : ℕ} {key : Key} {value : Text}
    (hline : pairLine indent key value ∈ lines) : Convertible value := by
  obtain ⟨front, rest, rfl⟩ := List.append_of_mem hline
  rw [parseLines_append] at h
  obtain ⟨middle, -, h⟩ := exists_ok_of_bind h
  obtain ⟨read, hread, -⟩ := exists_ok_of_bind h
  rw [parseLine_pair] at hread
  obtain ⟨stored, hstored, -⟩ := exists_ok_of_map hread
  by_cases hinline : IsInline value.bytes
  · exact Or.inl hinline
  · rw [storePair, if_neg hinline] at hstored
    obtain ⟨v, hv, -⟩ := exists_ok_of_bind hstored
    exact Or.inr ⟨v, hv⟩

/-! ## The number of maps that are closed -/

/-- With so many maps open at the key of a list, and so many items on one line, a line that
closes `closed` maps behind a scalar finds the same map behind the list. -/
def Level (height ones closed : ℕ) : Prop :=
  ones = 1 ∨ height + max 1 ones ≤ closed + 2

section

variable {α : Type} {above stack : List α} {closed : ℕ}

theorem drop_of_level (h : Level stack.length above.length closed) (hne : stack ≠ []) :
    (above ++ stack).drop (min (closed + 1) (above.length + stack.length - 1)) =
      stack.drop (min closed (stack.length - 1)) := by
  have hpos : 0 < stack.length := List.length_pos_of_ne_nil hne
  have hcount : min (closed + 1) (above.length + stack.length - 1) =
      above.length + min closed (stack.length - 1) := by
    rcases h with hone | hall <;> omega
  calc (above ++ stack).drop (min (closed + 1) (above.length + stack.length - 1))
      = (above ++ stack).drop (above.length + min closed (stack.length - 1)) := by rw [hcount]
    _ = stack.drop (min closed (stack.length - 1)) := List.drop_length_add_append _

/-- The two documents close the same maps only then. -/
theorem level_of_index_eq (hne : stack ≠ [])
    (h : min (closed + 1) (above.length + stack.length - 1) =
      above.length + min closed (stack.length - 1)) :
    Level stack.length above.length closed := by
  have hpos : 0 < stack.length := List.length_pos_of_ne_nil hne
  unfold Level
  omega

end

/-- No valid pointer is on the stack twice. -/
theorem index_unique {stack : List Pointer} {m n : ℕ} {path : List Step}
    (happart : stack.Pairwise fun above below =>
      below.valid = true → ¬ above.path <+: below.path)
    (hm : stack[m]? = some ⟨path, true⟩) (hn : stack[n]? = some ⟨path, true⟩) : m = n := by
  obtain ⟨hm_lt, hm⟩ := List.getElem?_eq_some_iff.mp hm
  obtain ⟨hn_lt, hn⟩ := List.getElem?_eq_some_iff.mp hn
  have hcontra {i j : ℕ} (hi : i < stack.length) (hj : j < stack.length) (hlt : i < j)
      (hi_eq : stack[i] = ⟨path, true⟩) (hj_eq : stack[j] = ⟨path, true⟩) : False := by
    have hpair := List.pairwise_iff_getElem.mp happart i j hi hj hlt
    rw [hi_eq, hj_eq] at hpair
    exact hpair rfl List.prefix_rfl
  rcases Nat.lt_trichotomy m n with hlt | heq | hlt
  · exact (hcontra hm_lt hn_lt hlt hm hn).elim
  · exact heq
  · exact (hcontra hn_lt hm_lt hlt hn hm).elim

/-! ## Documents -/

/-- A file with a block list; the first line behind it that is not skipped is not deeper than
the key. -/
structure ListDoc where
  text : Bytes
  before : List Bytes
  indent : ℕ
  key : Key
  items : List Item
  block : List Bytes
  following : List Bytes
  lines : linesOf text = before ++ (block ++ following)
  nonempty : items ≠ []
  /-- Blank lines and comments can be anywhere in the list. -/
  inserted : Inserted (listLines indent key items) block
  ended : ∀ raw ∈ (significant following).head?, countIndent raw ≤ indent

namespace ListDoc

variable (d : ListDoc)

/-- The map is the one that the key of the list is stored in. -/
def Owner (s : State) (owner : List Step) : Prop :=
  parseLines (d.block ++ d.following) d.before start = .ok s ∧
    receiver d.indent s = some ⟨owner, true⟩

/-- The items are what `getArray` returns, in order, each with exactly its own keys. -/
def Holds (owner : List Step) (data : Entries) : Prop :=
  ∃ map, Entries.resolve owner data = some map ∧
    YamlReader.getArray ⟨map⟩ d.key.name = .ok (d.items.map fun item => ⟨item.entries⟩) ∧
    ∀ item ∈ d.items, ∀ key, (Entries.lookup key item.entries).isSome = true ↔ key ∈ item.keys

/-- The list is stored, and the file holds it in the end unless a line behind it repeats its key
or one on the way to it. -/
def Stored : Prop :=
  ∃ s owner t, d.Owner s owner ∧ parseLines d.following d.block s = .ok t ∧
    d.Holds owner t.data ∧
    ∀ reader, parseFile (some d.text) = .ok reader →
      (∀ front raw rest u, d.following = front ++ raw :: rest →
        parseLines (raw :: rest) front t = .ok u → ¬ Repeats owner d.key.name raw u) →
      d.Holds owner reader.data

/-- A line of a key behind the list, not deeper than the key of the list, finds the map that
receives it when a scalar stands in the place of the list. -/
def SameReceiver : Prop :=
  ∀ (leaf : Leaf) (front rest : List Bytes) (raw : Bytes) (s : State) (path : List Step),
    d.following = front ++ raw :: rest → IsKeyLine raw → countIndent raw ≤ d.indent →
    parseLines (raw :: rest) (d.before ++ pairLine d.indent d.key leaf.text :: front) start =
      .ok s →
    receiver (countIndent raw) s = some ⟨path, true⟩ →
    ∃ t, parseLines (raw :: rest) (d.before ++ (d.block ++ front)) start = .ok t ∧
      receiver (countIndent raw) t = some ⟨path, true⟩

/-- List scoping. -/
def Scoped : Prop := d.Stored ∧ d.SameReceiver

/-! ## Conditions -/

/-- The lines before the list are read and leave a map open for its key, and the values of
the items can be stored. -/
def Readable : Prop :=
  (∃ s owner, d.Owner s owner) ∧ ∀ item ∈ d.items, item.Converts

/-- The first line behind the list, if it is one of a key that a scalar would leave a map for, or
an item of a list around, closes as many maps as behind a scalar. -/
def Aligned : Prop :=
  ∀ s owner, d.Owner s owner → ∀ raw ∈ (significant d.following).head?,
    (IsItem (trim raw) ∨
      ∃ path, receiver (countIndent raw) ((s.dedent d.indent).atIndent d.indent) =
        some ⟨path, true⟩) →
    Level (s.dedent d.indent).stack.length (oneLine d.items)
      (State.rounds (countIndent raw) d.indent)

/-- If there are items behind the list: the key has not been that of an open list, or of a value
around one, and no list is open whose items would be deeper than the key. -/
def Unrelated : Prop :=
  (∃ raw ∈ significant d.following, IsItem (trim raw)) →
    ∀ s owner, d.Owner s owner →
      (∀ l ∈ (s.dedent d.indent).lists, l.valid = true →
        ¬ Inside owner d.key.name l.owner ∧ ¬ (l.owner = owner ∧ l.key = d.key.name)) ∧
      ∀ l ∈ (s.dedent d.indent).lists.head?, l.indent ≤ d.indent

/-- The first line behind the list is no item. -/
def KeyFirst : Prop :=
  ∀ raw ∈ (significant d.following).head?, ¬ IsItem (trim raw)

variable {d} {s : State} {owner : List Step}

theorem Owner.sound (h : d.Owner s owner) : Sound s :=
  sound_start.parseLines h.1

theorem Owner.stack (h : d.Owner s owner) :
    ∃ below, (s.dedent d.indent).stack = ⟨owner, true⟩ :: below :=
  List.head?_eq_some_iff.mp h.2

/-! ## The list itself -/

theorem significant_block (d : ListDoc) :
    significant d.block = listLines d.indent d.key d.items :=
  significant_of_inserted d.inserted (not_ignored_listLines _ _ _)

theorem holds_of_stored {data : Entries} (hitems : ∀ item ∈ d.items, item.Converts)
    (h : Entries.valueAt owner d.key.name data = some (.maps (d.items.map Item.entries))) :
    d.Holds owner data := by
  obtain ⟨map, hmap, hfind⟩ := Option.bind_eq_some_iff.mp h
  refine ⟨map, hmap, ?_, fun item hitem key => Item.lookup_entries (hitems item hitem) key⟩
  rw [Entries.lookup] at hfind
  simp [YamlReader.getArray, YamlReader.find, hfind]

/-- The state behind the list. -/
structure Run (d : ListDoc) (s : State) (owner : List Step) (below above : List Pointer)
    (t : State) : Prop where
  parsed : parseLines d.following d.block s = .ok t
  stack : (s.dedent d.indent).stack = ⟨owner, true⟩ :: below
  behind : Place.Behind (placeOf d.indent d.key.name owner below (s.dedent d.indent))
    (d.items.map Item.entries) above t
  dangling : ∀ p ∈ above.tail, p.valid = false
  count : above.length = oneLine d.items

theorem Owner.run (h : d.Owner s owner) (hitems : ∀ item ∈ d.items, item.Converts) :
    ∃ below above t, d.Run s owner below above t := by
  obtain ⟨below, hstack⟩ := h.stack
  obtain ⟨above, t, hparse, hbehind, -, htail, hcount⟩ :=
    parse_list h.sound hstack d.key d.nonempty hitems d.following
  refine ⟨below, above, t, ?_, hstack, hbehind, htail, hcount⟩
  rw [parseLines_significant, d.significant_block, hparse]

namespace Run

variable {below above : List Pointer} {t : State}

theorem data (r : d.Run s owner below above t) :
    t.data = Entries.update owner
      (Entries.assign d.key.name (.maps (d.items.map Item.entries))) (s.dedent d.indent).data := by
  rcases r.behind with rfl | ⟨p, rfl⟩ <;> rfl

theorem stored (r : d.Run s owner below above t) (hs : Sound s) :
    Entries.valueAt owner d.key.name t.data = some (.maps (d.items.map Item.entries)) := by
  obtain ⟨inner, hinner⟩ := (hs.dedent d.indent).exists_top r.stack
  simp [r.data, Entries.valueAt, Entries.resolve_update_self hinner]

theorem dedent (r : d.Run s owner below above t) {indent : ℕ} (hindent : indent ≤ d.indent) :
    (t.dedent indent).data = t.data ∧
      (t.dedent indent).stack = (above ++ (s.dedent d.indent).stack).drop
        (min (State.rounds indent d.indent + 1)
          (above.length + (s.dedent d.indent).stack.length - 1)) ∧
      (t.dedent indent).lists =
        (placeOf d.indent d.key.name owner below (s.dedent d.indent)).lists.dropWhile
          fun list => indent < list.indent := by
  obtain ⟨hdata, hstack, hlists⟩ := Place.dedent_behind_of_le r.behind hindent
  refine ⟨hdata, ?_, hlists⟩
  rw [hstack, r.stack]
  rfl

/-- Nothing that is open leads into the list when the next line stores. -/
theorem settled (r : d.Run s owner below above t) (hs : Sound s) {indent : ℕ}
    (hindent : indent ≤ d.indent) :
    Settled owner d.key.name (d.items.map Item.entries) (t.dedent indent) := by
  obtain ⟨hdata, hstack, hlists⟩ := r.dedent hindent
  have hsound := hs.dedent d.indent
  have hclear := @clear_placeOf d.indent d.key.name owner below _ hsound r.stack
  refine ⟨by rw [hdata, r.stored hs], fun p hp hvalid => ?_, fun l hl => ?_⟩
  · -- the valid item has been closed, and those below it dangle
    have hpos : 0 < (s.dedent d.indent).stack.length := by simp [r.stack]
    rw [hstack] at hp
    have hmem : p ∈ above.tail ∨ p ∈ (s.dedent d.indent).stack := by
      cases above with
      | nil => exact Or.inr (List.mem_of_mem_drop hp)
      | cons first above =>
          have hmin : min (State.rounds indent d.indent + 1)
              ((first :: above).length + (s.dedent d.indent).stack.length - 1) =
              min (State.rounds indent d.indent)
                (above.length + (s.dedent d.indent).stack.length - 1) + 1 := by
            rw [List.length_cons]
            omega
          rw [hmin, List.cons_append, List.drop_succ_cons] at hp
          exact List.mem_append.mp (List.mem_of_mem_drop hp)
    rcases hmem with htail | hmem
    · exact absurd hvalid (by simp [r.dangling p htail])
    · exact hsound.outside r.stack d.key.name p hmem hvalid
  · rw [hlists] at hl
    exact hclear.lists l ((List.dropWhile_suffix _).subset hl)

end Run

/-! ## The document with the scalar -/

/-- The state behind a scalar in the place of the list. -/
def behindScalar (d : ListDoc) (leaf : Leaf) (s : State) (owner : List Step) : State :=
  State.atIndent d.indent { s.dedent d.indent with
    data := Entries.update owner (Entries.emplace d.key.name leaf.value)
      (s.dedent d.indent).data }

theorem Owner.scalar (h : d.Owner s owner) (leaf : Leaf) (lines : List Bytes) :
    parseLine lines (pairLine d.indent d.key leaf.text) s = .ok (d.behindScalar leaf s owner) := by
  obtain ⟨below, hstack⟩ := h.stack
  rw [parseLine_pair, Leaf.storePair_text, emplace_of_stack hstack]
  rfl

/-- Both documents are the same up to the list. -/
theorem nextIsItem_block (d : ListDoc) (lines : List Bytes) :
    nextIsItem (d.block ++ lines) = false := by
  rw [nextIsItem_append, d.significant_block]
  exact nextIsItem_open _ _ _

theorem Owner.parse_scalar (h : d.Owner s owner) (leaf : Leaf) {front rest : List Bytes} :
    parseLines rest (d.before ++ pairLine d.indent d.key leaf.text :: front) start =
      parseLines rest front (d.behindScalar leaf s owner) := by
  have hbefore : parseLines ((pairLine d.indent d.key leaf.text :: front) ++ rest) d.before start =
      .ok s := by
    rw [← h.1]
    refine parseLines_congr ?_ d.before start
    rw [nextIsItem_block, List.cons_append, nextIsItem_pair]
  calc parseLines rest (d.before ++ pairLine d.indent d.key leaf.text :: front) start
      = parseLines rest (pairLine d.indent d.key leaf.text :: front) s := by
        rw [parseLines_append, hbefore]
        rfl
    _ = parseLines rest front (d.behindScalar leaf s owner) := parseLines_cons (h.scalar leaf _)

theorem Run.parse {below above : List Pointer} {t : State} (h : d.Owner s owner)
    (r : d.Run s owner below above t) {front rest : List Bytes}
    (hfollowing : d.following = front ++ rest) :
    parseLines rest (d.before ++ (d.block ++ front)) start = parseLines rest front t := by
  have hbefore : parseLines ((d.block ++ front) ++ rest) d.before start = .ok s := by
    rw [List.append_assoc, ← hfollowing]
    exact h.1
  have hblock : parseLines (front ++ rest) d.block s = .ok t := by
    rw [← hfollowing]
    exact r.parsed
  calc parseLines rest (d.before ++ (d.block ++ front)) start
      = parseLines rest (d.block ++ front) s := by
        rw [parseLines_append, hbefore]
        rfl
    _ = parseLines rest front t := by
        rw [parseLines_append, hblock]
        rfl

theorem dedent_behindScalar (leaf : Leaf) (indent : ℕ) :
    (d.behindScalar leaf s owner).dedent indent =
      { data := (d.behindScalar leaf s owner).data
        stack := (s.dedent d.indent).stack.drop
          (min (State.rounds indent d.indent) ((s.dedent d.indent).stack.length - 1))
        previousIndent := d.indent - 2 * State.rounds indent d.indent
        lists :=
          if indent < d.indent then
            (s.dedent d.indent).lists.dropWhile fun list => indent < list.indent
          else (s.dedent d.indent).lists } := by
  rw [State.dedent_eq]
  rfl

theorem flat_of_leaf (leaf : Leaf) :
    (∀ inner, leaf.value ≠ .map inner) ∧ ∀ items, leaf.value ≠ .maps items := by
  cases leaf <;> simp [Leaf.value]

/-- When as many maps are closed, both documents have the same ones open. -/
theorem Run.mirror {below above : List Pointer} {t : State} (r : d.Run s owner below above t)
    (h : d.Owner s owner) (hunrelated : d.Unrelated) (leaf : Leaf) {indent : ℕ}
    (hindent : indent ≤ d.indent)
    (hlevel : Level (s.dedent d.indent).stack.length (oneLine d.items)
      (State.rounds indent d.indent)) :
    Mirror (∃ raw ∈ significant d.following, IsItem (trim raw))
      ((d.behindScalar leaf s owner).dedent indent) (t.dedent indent) := by
  obtain ⟨hdata, hstack, hlists⟩ := r.dedent hindent
  refine ⟨?_, fun hlisted => ?_, fun hlisted l hl hvalid => ?_⟩
  · rw [dedent_behindScalar, hstack, drop_of_level (r.count ▸ hlevel) (by simp [r.stack])]
  · obtain ⟨hapart, hhead⟩ := hunrelated hlisted s owner h
    have hkeep : (placeOf d.indent d.key.name owner below (s.dedent d.indent)).lists =
        (s.dedent d.indent).lists := by
      simp only [placeOf, State.dropLists, State.invalidate,
        map_valid_lists_eq_self fun l hl hvalid => (hapart l hl hvalid).1,
        map_valid_lists_eq_self fun l hl hvalid => (hapart l hl hvalid).2]
    rw [dedent_behindScalar, hlists, hkeep]
    dsimp only
    split
    · rfl
    · rename_i hclosed
      obtain rfl : indent = d.indent := by omega
      cases hopen : (s.dedent d.indent).lists with
      | nil => rfl
      | cons l lists =>
          have hle : l.indent ≤ d.indent := hhead l (by rw [hopen]; rfl)
          rw [List.dropWhile_cons_of_neg (by simpa using hle)]
  · obtain ⟨hapart, -⟩ := hunrelated hlisted s owner h
    have hmem : l ∈ (d.behindScalar leaf s owner).lists := State.mem_lists_of_dedent hl
    obtain ⟨houtside, hother⟩ := hapart l hmem hvalid
    obtain ⟨hmap, hmaps⟩ := flat_of_leaf leaf
    rw [dedent_behindScalar, hdata, r.data, Entries.listLength_update_assign _ _ houtside hother]
    exact Entries.listLength_update_emplace owner l.owner _ l.key hmap hmaps _

/-- A line finds the same map in both documents only when as many are closed. -/
theorem Run.level_of_receiver {below above : List Pointer} {t : State}
    (r : d.Run s owner below above t) (h : d.Owner s owner) (leaf : Leaf) {indent : ℕ}
    (hindent : indent ≤ d.indent) {path : List Step}
    (hscalar : receiver indent (d.behindScalar leaf s owner) = some ⟨path, true⟩)
    (hlist : receiver indent t = some ⟨path, true⟩) :
    Level (s.dedent d.indent).stack.length (oneLine d.items)
      (State.rounds indent d.indent) := by
  have hsound : Sound t := h.sound.parseLines r.parsed
  have happart : (above ++ (s.dedent d.indent).stack).Pairwise fun above below =>
      below.valid = true → ¬ above.path <+: below.path := by
    rw [r.stack]
    rcases r.behind with rfl | ⟨p, rfl⟩
    · exact hsound.apart
    · exact hsound.apart.tail
  have hne : (s.dedent d.indent).stack ≠ [] := by simp [r.stack]
  rw [receiver, (r.dedent hindent).2.1, List.head?_drop] at hlist
  rw [receiver, dedent_behindScalar, List.head?_drop] at hscalar
  have hscalar' : (above ++ (s.dedent d.indent).stack)[above.length +
      min (State.rounds indent d.indent) ((s.dedent d.indent).stack.length - 1)]? =
      some ⟨path, true⟩ := by
    rw [List.getElem?_append_right (Nat.le_add_right _ _), Nat.add_sub_cancel_left]
    exact hscalar
  rw [← r.count]
  exact level_of_index_eq hne (index_unique happart hlist hscalar')

/-! ## Both directions -/

theorem Run.keeps {below above : List Pointer} {t : State} (r : d.Run s owner below above t)
    (h : d.Owner s owner) (hitems : ∀ item ∈ d.items, item.Converts) : d.Stored := by
  refine ⟨s, owner, t, h, r.parsed, holds_of_stored hitems (r.stored h.sound), ?_⟩
  intro reader hparse hfresh
  rw [parseFile, d.lines] at hparse
  obtain ⟨last, hlast, rfl⟩ := exists_ok_of_map hparse
  rw [r.parse h (List.append_nil _).symm] at hlast
  by_cases hfollowing : significant d.following = []
  · rw [parseLines_of_skipped hfollowing] at hlast
    obtain rfl := Except.ok.inj hlast
    exact holds_of_stored hitems (r.stored h.sound)
  · obtain ⟨skipped, raw, rest, hsplit, hskipped, hraw⟩ := exists_first hfollowing
    have hindent : countIndent raw ≤ d.indent :=
      d.ended raw (by rw [hsplit]; exact head_significant hskipped hraw)
    rw [hsplit, parseLines_skipped_append hskipped] at hlast
    obtain ⟨next, hnext, hrest⟩ := exists_ok_of_bind hlast
    have hsettled : Settled owner d.key.name (d.items.map Item.entries) next :=
      (r.settled h.sound hindent).parseLine hraw
        (hfresh skipped raw rest t hsplit (parseLines_of_skipped hskipped _ _)) hnext
    have hsettled_last :=
      hsettled.parseLines (fun front other back middle hback hmiddle => ?_) hrest
    · exact holds_of_stored hitems hsettled_last.stored
    · refine hfresh (skipped ++ raw :: front) other back middle (by rw [hsplit, hback]; simp) ?_
      rw [parseLines_skipped_append hskipped]
      rw [hback, List.append_assoc, List.append_nil] at hnext
      rw [List.append_nil] at hmiddle
      exact (parseLines_cons hnext).trans hmiddle

theorem receiver_behindScalar (leaf : Leaf) (indent : ℕ) :
    receiver indent (d.behindScalar leaf s owner) =
      receiver indent ((s.dedent d.indent).atIndent d.indent) := by
  rw [receiver, receiver, State.dedent_eq, State.dedent_eq]
  rfl

theorem sameReceiver_of_aligned (h : d.Owner s owner)
    (hitems : ∀ item ∈ d.items, item.Converts) (haligned : d.Aligned)
    (hunrelated : d.Unrelated) : d.SameReceiver := by
  obtain ⟨below, above, t, r⟩ := h.run hitems
  intro leaf front rest raw last path hfollowing hkey hindent hscalar hreceiver
  rw [h.parse_scalar] at hscalar
  rw [r.parse h hfollowing]
  have hsound : Sound t := h.sound.parseLines r.parsed
  have hsound_scalar : Sound (d.behindScalar leaf s owner) := h.sound.parseLine (h.scalar leaf [])
  by_cases hfront : significant front = []
  · -- the first line behind the list
    rw [parseLines_of_skipped hfront] at hscalar
    obtain rfl := Except.ok.inj hscalar
    refine ⟨t, parseLines_of_skipped hfront _ _, ?_⟩
    have hfirst : raw ∈ (significant d.following).head? := by
      rw [hfollowing]
      exact head_significant hfront hkey.1
    have hlevel := haligned s owner h raw hfirst
      (Or.inr ⟨path, by rw [← receiver_behindScalar leaf]; exact hreceiver⟩)
    rw [receiver, ← (r.mirror h hunrelated leaf hindent hlevel).stack]
    exact hreceiver
  · obtain ⟨skipped, first, back, hsplit, hskipped, hignored⟩ := exists_first hfront
    have hfirst : first ∈ (significant d.following).head? := by
      rw [hfollowing, hsplit, List.append_assoc]
      exact head_significant hskipped hignored
    rw [hsplit, parseLines_skipped_append hskipped] at hscalar
    obtain ⟨next, hnext, hback⟩ := exists_ok_of_bind hscalar
    have hlevel : Level (s.dedent d.indent).stack.length (oneLine d.items)
        (State.rounds (countIndent first) d.indent) := by
      refine haligned s owner h first hfirst ?_
      by_cases hitem : IsItem (trim first)
      · exact Or.inl hitem
      · rw [parseLine_of_key hignored hitem] at hnext
        obtain ⟨read, hread, -⟩ := exists_ok_of_map hnext
        obtain ⟨open_path, hopen⟩ := top_of_keyLine hread
        exact Or.inr ⟨open_path, by rw [← receiver_behindScalar leaf]; exact hopen⟩
    have hmem : ∀ line ∈ significant front, line ∈ significant d.following := by
      intro line hline
      rw [hfollowing, significant_append]
      exact List.mem_append_left _ hline
    have hback_mem : ∀ line ∈ first :: significant back, line ∈ significant front := by
      intro line hline
      rw [hsplit, significant_append, significant_cons hignored]
      exact List.mem_append_right _ hline
    obtain ⟨next', hnext', hmirror, hprevious⟩ :=
      Mirror.parseLine hsound_scalar hsound
        (r.mirror h hunrelated leaf (d.ended first hfirst) hlevel) hignored
        (fun hitem => ⟨first, hmem _ (hback_mem _ List.mem_cons_self), hitem⟩) hnext
    obtain ⟨other, hother, hsame, heq⟩ :=
      Mirror.parseLines (hsound_scalar.parseLine hnext) (hsound.parseLine hnext') hmirror hprevious
        (fun line hline hitem =>
          ⟨line, hmem _ (hback_mem _ (List.mem_cons_of_mem _ hline)), hitem⟩) hback
    refine ⟨other, ?_, ?_⟩
    · rw [hsplit, parseLines_skipped_append hskipped]
      exact (parseLines_cons hnext').trans hother
    · rw [receiver, ← (hsame.dedent heq _).stack]
      exact hreceiver

theorem readable_of_stored (h : d.Stored) : d.Readable := by
  obtain ⟨s, owner, t, howner, hblock, -⟩ := h
  refine ⟨⟨s, owner, howner⟩, fun item hitem pair hpair => ?_⟩
  rw [parseLines_significant, d.significant_block] at hblock
  refine @convertible_of_read _ _ _ _ hblock (d.indent + 4) pair.1 _ ?_
  refine List.mem_cons_of_mem _ (List.mem_flatMap.mpr ⟨item, hitem, ?_⟩)
  exact List.mem_cons_of_mem _ (List.mem_map.mpr ⟨pair, hpair, rfl⟩)

theorem aligned_of_scoped (h : d.Scoped) (hkey : d.KeyFirst) : d.Aligned := by
  intro s owner howner raw hraw hfound
  obtain ⟨-, hitems⟩ := readable_of_stored h.1
  obtain ⟨below, above, t, r⟩ := howner.run hitems
  have hitem : ¬ IsItem (trim raw) := hkey raw hraw
  obtain ⟨path, hpath⟩ := hfound.resolve_left hitem
  have hne : significant d.following ≠ [] := by
    intro hnil
    rw [hnil] at hraw
    exact absurd hraw (by simp)
  obtain ⟨skipped, first, rest, hsplit, hskipped, hignored⟩ := exists_first hne
  obtain rfl : first = raw := by
    rw [hsplit, head_significant hskipped hignored] at hraw
    exact Option.some.inj hraw
  have hindent := d.ended first hraw
  obtain ⟨other, hother, hreceiver⟩ :=
    h.2 (.bool true) skipped rest first (d.behindScalar (.bool true) s owner) path hsplit
      ⟨hignored, hitem⟩ hindent
      (by rw [howner.parse_scalar, parseLines_of_skipped hskipped])
      (by rw [receiver_behindScalar]; exact hpath)
  rw [r.parse howner hsplit, parseLines_of_skipped hskipped] at hother
  obtain rfl := Except.ok.inj hother
  refine r.level_of_receiver howner (.bool true) hindent ?_ hreceiver
  rw [receiver_behindScalar]
  exact hpath

end ListDoc

/-! ## Two small files -/

def serversKey : Key where
  name := ascii "servers"

/-- An item on two lines. -/
def serverItem : Item where
  key := nameKey
  value := .quote (ascii "x") (by decide)
  more := [(portKey, (Leaf.int 1 (by decide)).text)]

theorem inserted_refl : ∀ lines : List Bytes, Inserted lines lines
  | [] => .nil
  | line :: lines => .line line (inserted_refl lines)

/-- A list in the root and a key behind it. -/
def rootDoc : ListDoc where
  text := ascii "servers:\n  - name: \"x\"\n    port: 1\nz: 1\n"
  before := []
  indent := 0
  key := serversKey
  items := [serverItem]
  block := listLines 0 serversKey [serverItem]
  following := [ascii "z: 1"]
  lines := by decide +kernel
  nonempty := by simp
  inserted := inserted_refl _
  ended := by decide +kernel

/-- The same list in a map. -/
def nestedDoc : ListDoc where
  text := ascii "a:\n  servers:\n    - name: \"x\"\n      port: 1\n  z: 1\n"
  before := [ascii "a:"]
  indent := 2
  key := serversKey
  items := [serverItem]
  block := listLines 2 serversKey [serverItem]
  following := [ascii "  z: 1"]
  lines := by decide +kernel
  nonempty := by simp
  inserted := inserted_refl _
  ended := by decide +kernel

/-- **YAML list scoping.**  A block list is stored in order with exactly its own keys, and the
keys behind it go to the maps that would have received them behind a scalar, if the list can
be read and the first line behind it closes as many maps as behind a scalar; where list items
follow, the list has also to be unrelated to the lists that are open.  The first two are also
necessary, the second one when that line is no item. -/
theorem list_scope (d : ListDoc) :
    (d.Readable ∧ d.Aligned ∧ d.Unrelated → d.Scoped) ∧
      (d.Scoped → d.Readable ∧ (d.KeyFirst → d.Aligned)) := by
  refine ⟨?_, fun hscoped => ?_⟩
  · rintro ⟨⟨⟨s, owner, howner⟩, hitems⟩, haligned, hunrelated⟩
    obtain ⟨below, above, t, r⟩ := howner.run hitems
    exact ⟨r.keeps howner hitems,
      ListDoc.sameReceiver_of_aligned howner hitems haligned hunrelated⟩
  · exact ⟨ListDoc.readable_of_stored hscoped.1, ListDoc.aligned_of_scoped hscoped⟩

theorem list_scope_servers : rootDoc.Scoped := by
  have hfollowing : significant rootDoc.following = [ascii "z: 1"] := by decide +kernel
  refine (list_scope rootDoc).1 ⟨⟨⟨start, [], rfl, rfl⟩, ?_⟩, ?_, ?_⟩
  · intro item hitem pair hpair
    obtain rfl : item = serverItem := by simpa [rootDoc] using hitem
    obtain rfl : pair = (portKey, (Leaf.int 1 (by decide)).text) := by
      simpa [serverItem] using hpair
    exact Or.inr ⟨_, Leaf.scalar_text _⟩
  · rintro s owner ⟨hparsed, -⟩ raw hraw -
    obtain rfl : start = s := Except.ok.inj hparsed
    rw [hfollowing] at hraw
    obtain rfl : ascii "z: 1" = raw := Option.some.inj hraw
    exact Or.inr (by decide +kernel)
  · rintro ⟨raw, hraw, hitem⟩
    rw [hfollowing, List.mem_singleton] at hraw
    subst hraw
    exact absurd hitem (by decide +kernel)

/-- The key behind the list is stored in the root, not in the map of the list. -/
theorem nested_list_closes_its_map : ¬ nestedDoc.Scoped := by
  rintro ⟨-, hsame⟩
  have hscalar : (parseLines [ascii "  z: 1"]
      (nestedDoc.before ++ pairLine 2 serversKey (Leaf.bool true).text :: []) start).map
        (receiver 2) = .ok (some ⟨[⟨ascii "a", none⟩], true⟩) := by
    decide +kernel
  have hlist : (parseLines [ascii "  z: 1"] (nestedDoc.before ++ (nestedDoc.block ++ []))
      start).map (receiver 2) = .ok (some ⟨[], true⟩) := by
    decide +kernel
  obtain ⟨s, hs, hreceiver⟩ := exists_ok_of_map hscalar
  obtain ⟨t, ht, hother⟩ := hsame (.bool true) [] [] (ascii "  z: 1") s _ rfl
    ⟨by decide +kernel, by decide +kernel⟩ (by decide +kernel) hs hreceiver
  have hfound : (parseLines [ascii "  z: 1"] (nestedDoc.before ++ (nestedDoc.block ++ []))
      start).map (receiver 2) = .ok (some ⟨[⟨ascii "a", none⟩], true⟩) := by
    have hindent : countIndent (ascii "  z: 1") = 2 := by decide +kernel
    rw [ht]
    exact congrArg Except.ok (hindent ▸ hother)
  rw [hlist] at hfound
  exact absurd hfound (by decide)

end Sok.Yaml
