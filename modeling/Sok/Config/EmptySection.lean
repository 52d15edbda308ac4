import Sok.Config.ListScope

/-!
# Sections without entries

A line `key:` opens a map before the parser knows whether anything deeper follows, and only
a line that is less indented closes it.  So a key at the same indentation is stored in the
new map, and a key that is less indented finds the map that encloses it only when the
rounds of the dedent loop are as many as the maps between, the new one included, or when
they close everything.

The map that encloses an indentation is read off the lines above: it is the one on top
behind the last line that is less indented.

## Strategy

The line of the section leaves its map on top of the stack (`Owner.behind`), and what the
next key finds there is the pointer at a position that only the number of rounds decides
(`Behind.receiver`).  So both directions compare that position with the one at which the
map that encloses the indentation stands.  Position 0 is the map of the section, which is
the case of a key that is captured.  Behind any other nothing open leads into the section
(`Behind.shut`), so it is still there, and empty, at the end of the file
(`Shut.parseLines`).
-/

namespace Sok.Yaml

open Entries (valueAt)

/-! ## Documents -/

/-- A file with a line of a key without a value, and a line of a key that is not deeper behind
it. -/
structure SectionDoc where
  text : Bytes
  before : List Bytes
  line : Bytes
  key : Bytes
  skipped : List Bytes
  next : Bytes
  name : Bytes
  value : Bytes
  rest : List Bytes
  lines : linesOf text = before ++ line :: (skipped ++ next :: rest)
  opens : IsKeyLine line ∧ splitColon (trim line) = some (key, [])
  blank : significant skipped = []
  stores : IsKeyLine next ∧ splitColon (trim next) = some (name, value)
  shallow : countIndent next ≤ countIndent line

/-- The column of the key behind a hyphen. -/
def itemColumn (raw : Bytes) : ℕ :=
  countIndent raw + 1 + (((trim raw).drop 1).takeWhile isBlank).length

/-- The maps that a less indented line has opened at this indentation or deeper: an item whose
key has no value opens a map at that key as well. -/
def openedDeeper (indent : ℕ) (raw : Bytes) : ℕ :=
  match splitColon (trim ((trim raw).drop 1)) with
  | some (_, []) => if IsItem (trim raw) ∧ indent ≤ itemColumn raw then 1 else 0
  | _ => 0

namespace SectionDoc

variable (d : SectionDoc)

/-- The map is the one that the section is stored in. -/
def Owner (s : State) (owner : List Step) : Prop :=
  parseLines (d.line :: (d.skipped ++ d.next :: d.rest)) d.before start = .ok s ∧
    receiver (countIndent d.line) s = some ⟨owner, true⟩

/-- The map encloses the indentation of the line behind the section: the last line above that
is less indented has left it on top. -/
def Encloses (path : List Step) : Prop :=
  ∃ front back s, d.before = front ++ back ∧
    (∀ raw ∈ significant back, countIndent d.next ≤ countIndent raw) ∧
    (∀ raw ∈ (significant front).getLast?, countIndent raw < countIndent d.next) ∧
    parseLines (back ++ d.line :: (d.skipped ++ d.next :: d.rest)) front start = .ok s ∧
    s.stack[((significant front).getLast?.map (openedDeeper (countIndent d.next))).getD 0]? =
      some ⟨path, true⟩

/-- The section is stored as an empty map, and the file holds it in the end unless a line behind
it repeats its key or one on the way to it. -/
def StoredEmpty (owner : List Step) (t : State) : Prop :=
  valueAt owner d.key t.data = some (.map []) ∧
    ∀ reader, parseFile (some d.text) = .ok reader →
      (∀ front raw rest u, d.next :: d.rest = front ++ raw :: rest →
        parseLines (raw :: rest) front t = .ok u → ¬ Repeats owner d.key raw u) →
      valueAt owner d.key reader.data = some (.map [])

/-- The key behind the section is stored in the map that encloses its indentation, which is not
in the section; at the indentation of the section it is the map of the section. -/
def StoredOutside (owner : List Step) (t : State) : Prop :=
  ∃ path u, d.Encloses path ∧
    receiver (countIndent d.next) t = some ⟨path, true⟩ ∧ ¬ Inside owner d.key path ∧
    (countIndent d.next = countIndent d.line → path = owner) ∧
    parseLine d.rest d.next t = .ok u ∧ (valueAt path d.name u.data).isSome = true

/-- The section does not capture the key behind it. -/
def Spared : Prop :=
  ∃ s owner t, d.Owner s owner ∧
    parseLines (d.next :: d.rest) (d.line :: d.skipped) s = .ok t ∧
    d.StoredEmpty owner t ∧ d.StoredOutside owner t

end SectionDoc

/-! ## The condition -/

/-- An ordinary line with this value does not throw. -/
def Storable (value : Bytes) : Prop :=
  value = [] ∨ IsInline value ∨ ∃ v, scalar value = .ok v

/-- So many rounds close a map that has just been opened, and those above one of the maps below
it, which are `above` of `height`, but not that one itself; the last one stays anyway. -/
def ClosesUpTo (height above closed : ℕ) : Prop :=
  closed = above + 1 ∨ above + 1 = height ∧ height ≤ closed

/-- The lines before the section are read and leave a map open for it, the value behind it can
be stored, and the dedent loop closes the maps up to the one that encloses the key. -/
def SectionDoc.Closes (d : SectionDoc) : Prop :=
  Storable d.value ∧ ∃ s owner path above, d.Owner s owner ∧ d.Encloses path ∧
    (s.dedent (countIndent d.line)).stack[above]? = some ⟨path, true⟩ ∧
    ClosesUpTo (s.dedent (countIndent d.line)).stack.length above
      (State.rounds (countIndent d.next) (countIndent d.line))

/-! ## One line of a key -/

section

variable {indent : ℕ} {isArray : Bool} {line key value : Bytes} {s : State}

theorem storable_of_keyLine {next : State} (hsplit : splitColon line = some (key, value))
    (h : keyLine indent isArray line s = .ok next) : Storable value := by
  unfold keyLine at h
  rw [hsplit] at h
  dsimp only at h
  split at h
  · rename_i hnil
    exact Or.inl hnil
  · split at h
    · rename_i hinline
      exact Or.inr (Or.inl hinline)
    · obtain ⟨v, hv, -⟩ := exists_ok_of_bind h
      exact Or.inr (Or.inr ⟨v, hv⟩)

/-- No pointer of the stack is lost, since none leads into the map on top. -/
theorem assign_of_sound (hs : Sound s) {path : List Step} {below : List Pointer}
    (hstack : s.stack = ⟨path, true⟩ :: below) (key : Bytes) (value : Value) :
    s.assign key value = .ok { s with
      data := Entries.update path (Entries.assign key value) s.data
      lists := ((s.invalidate path key).dropLists path key).lists } := by
  have hassign : s.assign key value = .ok { (s.invalidate path key).dropLists path key with
      data := Entries.update path (Entries.assign key value) s.data } := by
    simp [State.assign, hstack]
  rw [hassign]
  simp only [State.dropLists, State.invalidate, map_valid_eq_self (hs.outside hstack key)]

theorem keyLine_stores (hs : Sound s) {path : List Step} {below : List Pointer}
    (hstack : s.stack = ⟨path, true⟩ :: below) (hsplit : splitColon line = some (key, value))
    (hvalue : Storable value) :
    ∃ next, keyLine indent isArray line s = .ok next ∧
      (valueAt path key next.data).isSome = true := by
  obtain ⟨inner, hinner⟩ := hs.exists_top hstack
  have hassigned (v : Value) :
      (valueAt path key (Entries.update path (Entries.assign key v) s.data)).isSome = true := by
    simp [valueAt, Entries.resolve_update_self hinner]
  have hemplaced (v : Value) :
      (valueAt path key (Entries.update path (Entries.emplace key v) s.data)).isSome = true := by
    rw [valueAt, Entries.resolve_update_self hinner, Option.bind_some]
    cases hlookup : Entries.lookup key inner with
    | some found => rw [Entries.lookup_emplace_of_eq_some hlookup, Option.isSome_some]
    | none =>
        rw [Entries.emplace_of_lookup_eq_none hlookup, Entries.lookup_concat_self hlookup,
          Option.isSome_some]
  unfold keyLine
  rw [hsplit]
  dsimp only
  by_cases hnil : value = []
  · rw [if_pos hnil]
    cases isArray with
    | true =>
        refine ⟨_, by rw [if_pos rfl, assign_of_sound hs hstack]; rfl, ?_⟩
        unfold State.pushList
        split <;> exact hassigned _
    | false =>
        refine ⟨_, by rw [if_neg Bool.false_ne_true, assign_of_sound hs hstack]; rfl, ?_⟩
        unfold State.pushMap
        split <;> exact hassigned _
  · rw [if_neg hnil]
    by_cases hinline : IsInline value
    · rw [if_pos hinline]
      exact ⟨_, assign_of_sound hs hstack _ _, hassigned _⟩
    · obtain ⟨v, hv⟩ := (hvalue.resolve_left hnil).resolve_left hinline
      rw [if_neg hinline, hv]
      exact ⟨_, emplace_of_stack hstack, hemplaced v⟩

end

/-! ## The line of the section -/

namespace SectionDoc

variable {d : SectionDoc} {s : State} {owner : List Step}

theorem Owner.sound (h : d.Owner s owner) : Sound s :=
  sound_start.parseLines h.1

theorem Owner.stack (h : d.Owner s owner) :
    ∃ below, (s.dedent (countIndent d.line)).stack = ⟨owner, true⟩ :: below :=
  List.head?_eq_some_iff.mp h.2

/-- The state behind the section: its map is on top of those that were open. -/
structure Behind (d : SectionDoc) (s : State) (owner : List Step) (t : State) : Prop where
  sound : Sound t
  stored : valueAt owner d.key t.data = some (.map [])
  stack : t.stack = ⟨owner ++ [⟨d.key, none⟩], true⟩ :: (s.dedent (countIndent d.line)).stack
  lists : ∀ l ∈ t.lists, l.valid = true →
    ¬ Inside owner d.key l.owner ∧ ¬ (l.owner = owner ∧ l.key = d.key)
  previous : t.previousIndent = countIndent d.line

theorem nextIsItem_next (d : SectionDoc) :
    nextIsItem (d.skipped ++ d.next :: d.rest) = false := by
  obtain ⟨hignored, hitem⟩ := d.stores.1
  rw [nextIsItem_append, d.blank, List.nil_append, nextIsItem, if_neg hignored]
  exact decide_eq_false hitem

theorem Owner.behind (h : d.Owner s owner) :
    ∃ t, parseLines (d.next :: d.rest) (d.line :: d.skipped) s = .ok t ∧ d.Behind s owner t := by
  obtain ⟨below, hstack⟩ := h.stack
  have hsound := h.sound.dedent (countIndent d.line)
  obtain ⟨⟨hignored, hitem⟩, hsplit⟩ := d.opens
  have hline : parseLine (d.skipped ++ d.next :: d.rest) d.line s =
      ((s.dedent (countIndent d.line)).assign d.key (.map [])).map fun s =>
        (s.pushMap d.key).atIndent (countIndent d.line) := by
    rw [parseLine_of_key hignored hitem, keyLine, hsplit, d.nextIsItem_next]
    simp only [if_true, Bool.false_eq_true, if_false]
    cases (s.dedent (countIndent d.line)).assign d.key (.map []) <;> rfl
  rw [assign_of_sound hsound hstack d.key (.map [])] at hline
  refine ⟨_, (parseLines_cons hline).trans (parseLines_of_skipped d.blank _ _), ?_⟩
  obtain ⟨inner, hinner⟩ := hsound.exists_top hstack
  simp only [State.pushMap, hstack] at hline ⊢
  exact {
    sound := h.sound.parseLine hline
    stored := by simp [State.atIndent, valueAt, Entries.resolve_update_self hinner]
    stack := by rw [hstack]; rfl
    lists := fun l hl hvalid => State.clear_of_mem_dropLists hl hvalid
    previous := rfl }

namespace Behind

variable {t : State}

/-- The map on top for the next line, counted from that of the section. -/
theorem receiver (b : d.Behind s owner t) (indent : ℕ) :
    Yaml.receiver indent t =
      (⟨owner ++ [⟨d.key, none⟩], true⟩ :: (s.dedent (countIndent d.line)).stack)[
        min (State.rounds indent (countIndent d.line))
          (s.dedent (countIndent d.line)).stack.length]? := by
  rw [Yaml.receiver, State.dedent_eq, b.previous, b.stack, List.head?_drop, List.length_cons,
    Nat.add_sub_cancel]

theorem shut (b : d.Behind s owner t) (h : d.Owner s owner) {indent : ℕ}
    (hclosed : 0 < State.rounds indent (countIndent d.line)) :
    Shut owner d.key (.map []) (t.dedent indent) := by
  obtain ⟨below, hstack⟩ := h.stack
  have hsound := h.sound.dedent (countIndent d.line)
  refine ⟨?_, fun p hp hvalid => ?_, fun l hl => b.lists l (State.mem_lists_of_dedent hl)⟩
  · rw [State.data_dedent]
    exact b.stored
  · have hpos : 0 < (s.dedent (countIndent d.line)).stack.length :=
      List.length_pos_of_ne_nil hsound.nonempty
    rw [State.dedent_eq, b.previous, b.stack] at hp
    dsimp only at hp
    obtain ⟨count, hcount⟩ : ∃ count, min (State.rounds indent (countIndent d.line))
        ((⟨owner ++ [⟨d.key, none⟩], true⟩ ::
          (s.dedent (countIndent d.line)).stack).length - 1) = count + 1 := by
      refine Nat.exists_eq_add_one.mpr (lt_min hclosed ?_)
      rw [List.length_cons]
      omega
    rw [hcount, List.drop_succ_cons] at hp
    exact hsound.outside hstack d.key p (List.mem_of_mem_drop hp) hvalid

end Behind

theorem Owner.parse_file (h : d.Owner s owner) {t : State}
    (hparse : parseLines (d.next :: d.rest) (d.line :: d.skipped) s = .ok t) :
    parseFile (some d.text) = (parseLines [] (d.next :: d.rest) t).map fun s => ⟨s.data⟩ := by
  have hlines : parseLines [] (d.before ++ ((d.line :: d.skipped) ++ d.next :: d.rest)) start =
      parseLines [] (d.next :: d.rest) t := by
    rw [parseLines_append, List.append_nil, List.cons_append, h.1]
    change parseLines [] ((d.line :: d.skipped) ++ d.next :: d.rest) s = _
    rw [parseLines_append, List.append_nil, hparse]
    rfl
  rw [parseFile, d.lines]
  exact congrArg _ hlines

theorem storedEmpty (h : d.Owner s owner) {t : State} (b : d.Behind s owner t)
    (hparse : parseLines (d.next :: d.rest) (d.line :: d.skipped) s = .ok t)
    (hclosed : 0 < State.rounds (countIndent d.next) (countIndent d.line)) :
    d.StoredEmpty owner t := by
  refine ⟨b.stored, fun reader hreader hfresh => ?_⟩
  rw [h.parse_file hparse] at hreader
  obtain ⟨last, hlast, rfl⟩ := exists_ok_of_map hreader
  obtain ⟨u, hu, hrest⟩ := exists_ok_of_bind hlast
  rw [List.append_nil] at hu
  have hnext : Shut owner d.key (.map []) u :=
    (b.shut h hclosed).parseLine d.stores.1.1 (hfresh [] d.next d.rest t rfl rfl) hu
  have hlast_shut := hnext.parseLines (fun front raw back middle hback hmiddle => ?_) hrest
  · exact hlast_shut.stored
  · refine hfresh (d.next :: front) raw back middle (by rw [hback]; rfl) ?_
    rw [List.append_nil] at hmiddle
    rw [hback] at hu
    exact (parseLines_cons hu).trans hmiddle

/-! ## Both directions -/

theorem closes_of_spared (h : d.Spared) : d.Closes := by
  obtain ⟨s, owner, t, howner, hparse, -, path, u, hencloses, hreceiver, houtside, -, hu, -⟩ := h
  obtain ⟨other, hother, b⟩ := howner.behind
  obtain rfl : t = other := Except.ok.inj (hparse.symm.trans hother)
  refine ⟨?_, s, owner, path, ?_⟩
  · obtain ⟨⟨hignored, hitem⟩, hsplit⟩ := d.stores
    rw [parseLine_of_key hignored hitem] at hu
    obtain ⟨read, hread, -⟩ := exists_ok_of_map hu
    exact storable_of_keyLine hsplit hread
  · rw [b.receiver] at hreceiver
    cases hcount : min (State.rounds (countIndent d.next) (countIndent d.line))
        (s.dedent (countIndent d.line)).stack.length with
    | zero =>
        -- the map of the section is still on top
        rw [hcount, List.getElem?_cons_zero] at hreceiver
        have hpath : owner ++ [⟨d.key, none⟩] = path := by simpa using hreceiver
        exact absurd (inside_iff.mpr ⟨⟨d.key, none⟩, [], hpath.symm, rfl⟩) houtside
    | succ above =>
        rw [hcount, List.getElem?_cons_succ] at hreceiver
        refine ⟨above, howner, hencloses, hreceiver, ?_⟩
        unfold ClosesUpTo
        omega

theorem spared_of_closes (h : d.Closes) : d.Spared := by
  obtain ⟨hvalue, s, owner, path, above, howner, hencloses, habove, hclosed⟩ := h
  obtain ⟨below, hstack⟩ := howner.stack
  obtain ⟨t, hparse, b⟩ := howner.behind
  have hsound := howner.sound.dedent (countIndent d.line)
  have hcount : min (State.rounds (countIndent d.next) (countIndent d.line))
      (s.dedent (countIndent d.line)).stack.length = above + 1 := by
    have hlt : above < (s.dedent (countIndent d.line)).stack.length :=
      (List.getElem?_eq_some_iff.mp habove).1
    rcases hclosed with hexact | ⟨hroot, hall⟩ <;> omega
  have hpos : 0 < State.rounds (countIndent d.next) (countIndent d.line) := by omega
  have hreceiver : receiver (countIndent d.next) t = some ⟨path, true⟩ := by
    rw [b.receiver, hcount, List.getElem?_cons_succ, habove]
  obtain ⟨rest, htop⟩ := List.head?_eq_some_iff.mp hreceiver
  obtain ⟨⟨hignored, hitem⟩, hsplit⟩ := d.stores
  obtain ⟨read, hread, hfound⟩ :=
    @keyLine_stores (countIndent d.next) (nextIsItem d.rest) (trim d.next) d.name d.value _
      (b.sound.dedent _) path rest htop hsplit hvalue
  refine ⟨s, owner, t, howner, hparse, storedEmpty howner b hparse hpos, path,
    read.atIndent (countIndent d.next), hencloses, hreceiver, ?_, fun heq => ?_, ?_, hfound⟩
  · exact hsound.outside hstack d.key _ (List.mem_of_getElem? habove) rfl
  · -- then no map is closed
    rw [heq, State.rounds, Nat.sub_self] at hpos
    omega
  · rw [parseLine_of_key hignored hitem, hread]
    rfl

theorem captured_of_same_indent (h : countIndent d.next = countIndent d.line) : ¬ d.Spared := by
  intro hspared
  obtain ⟨-, s, owner, path, above, -, -, habove, hclosed⟩ := closes_of_spared hspared
  have hlt := (List.getElem?_eq_some_iff.mp habove).1
  rw [h, State.rounds, Nat.sub_self] at hclosed
  unfold ClosesUpTo at hclosed
  omega

end SectionDoc

/-- **Empty sections.**  A section without entries is stored as an empty map and the key behind
it in the map that encloses its indentation, if and only if the dedent loop closes the maps
up to that one. -/
theorem empty_section_iff (d : SectionDoc) : d.Spared ↔ d.Closes :=
  ⟨SectionDoc.closes_of_spared, SectionDoc.spared_of_closes⟩

/-- A section without entries and the key behind it, both in the root. -/
def siblingDoc : SectionDoc where
  text := ascii "a:\nb: 1\n"
  before := []
  line := ascii "a:"
  key := ascii "a"
  skipped := []
  next := ascii "b: 1"
  name := ascii "b"
  value := ascii "1"
  rest := []
  lines := by decide +kernel
  opens := by decide +kernel
  blank := rfl
  stores := by decide +kernel
  shallow := by decide +kernel

/-- The key is stored in the section. -/
theorem empty_section_captures : ¬ siblingDoc.Spared :=
  SectionDoc.captured_of_same_indent (by decide +kernel)

end Sok.Yaml
