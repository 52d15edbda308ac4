import Sok.Config.Line
import Sok.Config.Pointers

/-!
# The lines of a block list

A list key at some indentation, its items two deeper, and further lines of an item four
deeper.  A list key opens no map, but every item does; the pointer of an item leaves the
stack when the next line is less indented than the last line of the item.  So an item on
one line leaves its pointer behind, below those of the items that follow, and an item on
several lines does not: behind the list there are as many pointers above the map of the
list key as there were items on one line, and one more when the last item has several.
-/

namespace Sok.Yaml

/-! ## Items -/

/-- An item of a list: the pair behind the hyphen and those on lines of their own. -/
structure Item where
  key : Key
  value : Text
  more : List (Key × Text)

/-- An ordinary line with this value does not throw. -/
def Convertible (value : Text) : Prop :=
  IsInline value.bytes ∨ ∃ v, scalar value.bytes = .ok v

/-- What an ordinary line stores in a map. -/
def storeEntry (entries : Entries) (pair : Key × Text) : Entries :=
  if IsInline pair.2.bytes then
    Entries.assign pair.1.name (.list (inlineElements pair.2.bytes)) entries
  else
    match scalar pair.2.bytes with
    | .ok value => Entries.emplace pair.1.name value entries
    | .error _ => entries

namespace Item

def lines (indent : ℕ) (item : Item) : List Bytes :=
  itemPairLine (indent + 2) item.key item.value ::
    item.more.map fun pair => pairLine (indent + 4) pair.1 pair.2

/-- The keys of the item. -/
def keys (item : Item) : List Bytes :=
  item.key.name :: item.more.map fun pair => pair.1.name

/-- The entries of the item: its first pair as a string, the others as ordinary lines. -/
def entries (item : Item) : Entries :=
  item.more.foldl storeEntry [(item.key.name, .str item.value.bytes)]

/-- All values of the item can be stored. -/
def Converts (item : Item) : Prop :=
  ∀ pair ∈ item.more, Convertible pair.2

end Item

/-- The number of items on one line. -/
def oneLine (items : List Item) : ℕ :=
  items.countP fun item => item.more.isEmpty

theorem oneLine_cons (item : Item) (items : List Item) :
    oneLine (item :: items) = oneLine items + if item.more = [] then 1 else 0 := by
  simp [oneLine, List.countP_cons]

/-- The lines of a list. -/
def listLines (indent : ℕ) (key : Key) (items : List Item) : List Bytes :=
  openLine indent key :: items.flatMap (Item.lines indent)

theorem not_ignored_listLines (indent : ℕ) (key : Key) (items : List Item) :
    ∀ line ∈ listLines indent key items, ¬ Ignored (trim line) := by
  intro line hline
  rcases List.mem_cons.mp hline with rfl | hline
  · exact not_ignored_open indent key
  · obtain ⟨item, -, hline⟩ := List.mem_flatMap.mp hline
    rcases List.mem_cons.mp hline with rfl | hline
    · exact not_ignored_itemPair _ item.key item.value
    · obtain ⟨pair, -, rfl⟩ := List.mem_map.mp hline
      exact not_ignored_pair _ pair.1 pair.2

theorem lookup_assign_isSome (key other : Bytes) (value : Value) (entries : Entries) :
    (Entries.lookup other (Entries.assign key value entries)).isSome = true ↔
      other = key ∨ (Entries.lookup other entries).isSome = true := by
  by_cases h : other = key
  · simp [h]
  · simp [h, Entries.lookup_assign_of_ne h]

theorem lookup_emplace_isSome (key other : Bytes) (value : Value) (entries : Entries) :
    (Entries.lookup other (Entries.emplace key value entries)).isSome = true ↔
      other = key ∨ (Entries.lookup other entries).isSome = true := by
  unfold Entries.emplace
  split
  · rename_i hthere
    refine ⟨Or.inr, ?_⟩
    rintro (rfl | hother)
    · exact hthere
    · exact hother
  · rw [Entries.lookup_append, Entries.lookup_cons, Entries.lookup_nil]
    by_cases h : key = other
    · simp [h]
    · simp [h, Ne.symm h]

theorem Item.lookup_entries {item : Item} (h : item.Converts) (key : Bytes) :
    (Entries.lookup key item.entries).isSome = true ↔ key ∈ item.keys := by
  have hstore : ∀ (pairs : List (Key × Text)) (entries : Entries),
      (∀ pair ∈ pairs, Convertible pair.2) →
      ((Entries.lookup key (pairs.foldl storeEntry entries)).isSome = true ↔
        (Entries.lookup key entries).isSome = true ∨ key ∈ pairs.map fun pair => pair.1.name) := by
    intro pairs
    induction pairs with
    | nil => simp
    | cons pair pairs ih =>
        intro entries hpairs
        have hpair : (Entries.lookup key (storeEntry entries pair)).isSome = true ↔
            key = pair.1.name ∨ (Entries.lookup key entries).isSome = true := by
          unfold storeEntry
          split
          · exact lookup_assign_isSome _ _ _ _
          · rename_i hinline
            obtain ⟨value, hvalue⟩ := (hpairs pair List.mem_cons_self).resolve_left hinline
            rw [hvalue]
            exact lookup_emplace_isSome _ _ _ _
        rw [List.foldl_cons, ih _ fun other hother => hpairs other (List.mem_cons_of_mem _ hother),
          hpair, List.map_cons, List.mem_cons]
        tauto
  rw [Item.entries, hstore item.more _ h, Item.keys, List.mem_cons, Entries.lookup_cons]
  by_cases heq : item.key.name = key
  · simp [heq]
  · simp [heq, Ne.symm heq, Entries.lookup_nil]

/-! ## The state inside a list -/

/-- The place of a list: the map of its key, the pointers below that map, and the lists
that are open around it. -/
structure Place where
  data : Entries
  owner : List Step
  key : Bytes
  below : List Pointer
  lists : List ListPointer
  indent : ℕ

namespace Place

variable (b : Place)

/-- The list is open and holds `stored`; `above` are the pointers its items have left on the
stack. -/
def filled (stored : List Entries) (above : List Pointer) (previous : ℕ) : State where
  data := Entries.update b.owner (Entries.assign b.key (.maps stored)) b.data
  stack := above ++ ⟨b.owner, true⟩ :: b.below
  previousIndent := previous
  lists := ⟨b.owner, b.key, true, b.indent + 2⟩ :: b.lists

/-- The owner is a map, and no valid pointer leads into the list. -/
structure Clear : Prop where
  resolves : (Entries.resolve b.owner b.data).isSome = true
  below : ∀ p ∈ b.below, p.valid = true → ¬ Inside b.owner b.key p.path
  lists : ∀ l ∈ b.lists, l.valid = true →
    ¬ Inside b.owner b.key l.owner ∧ ¬ (l.owner = b.owner ∧ l.key = b.key)

/-- A pointer to the item with this number. -/
def itemPath (n : ℕ) : List Step :=
  b.owner ++ [⟨b.key, some n⟩]

theorem isElement_itemPath (n : ℕ) : IsElement b.owner b.key (b.itemPath n) :=
  isElement_iff.mpr ⟨⟨b.key, some n⟩, rfl, rfl⟩

theorem inside_itemPath (n : ℕ) : Inside b.owner b.key (b.itemPath n) :=
  inside_of_isElement (b.isElement_itemPath n)

theorem inside_of_item {n : ℕ} {key : Bytes} {path : List Step}
    (h : Inside (b.itemPath n) key path) : Inside b.owner b.key path := by
  obtain ⟨step, rest, rfl, -⟩ := inside_iff.mp h
  exact inside_iff.mpr ⟨⟨b.key, some n⟩, step :: rest, by simp [itemPath], rfl⟩

/-- What is stored in the list changes with the last item. -/
theorem update_itemPath (stored : List Entries) (entries : Entries) (f : Entries → Entries) :
    Entries.update (b.itemPath stored.length) f
        (Entries.update b.owner (Entries.assign b.key (.maps (stored ++ [entries]))) b.data) =
      Entries.update b.owner (Entries.assign b.key (.maps (stored ++ [f entries]))) b.data := by
  have hitem (inner : Entries) :
      Entries.update [⟨b.key, some stored.length⟩] f
          (Entries.assign b.key (.maps (stored ++ [entries])) inner) =
        Entries.assign b.key (.maps (stored ++ [f entries])) inner := by
    simp [Entries.update, Entries.child, Entries.setChild, Entries.assign_assign]
  calc Entries.update (b.itemPath stored.length) f
        (Entries.update b.owner (Entries.assign b.key (.maps (stored ++ [entries]))) b.data)
      = Entries.update b.owner (fun inner => Entries.update [⟨b.key, some stored.length⟩] f
          (Entries.assign b.key (.maps (stored ++ [entries])) inner)) b.data := by
        rw [itemPath, Entries.update_append, Entries.update_update]
    _ = Entries.update b.owner (Entries.assign b.key (.maps (stored ++ [f entries]))) b.data :=
        congrArg (Entries.update b.owner · b.data) (funext hitem)

/-! ## One item -/

/-- The pointer when its vector has grown. -/
def off (p : Pointer) : Pointer := { p with valid := false }

variable {b} {stored : List Entries} {above : List Pointer} {previous : ℕ}

/-- The pointers that an item leaves behind dangle as soon as the next one is stored. -/
theorem pushItem_filled (hclear : b.Clear)
    (habove : ∀ p ∈ above, IsElement b.owner b.key p.path) :
    (b.filled stored above previous).pushItem ⟨b.owner, b.key, true, b.indent + 2⟩ =
      .ok (b.filled (stored ++ [[]]) (⟨b.itemPath stored.length, true⟩ :: above.map off)
        previous) := by
  obtain ⟨inner, hinner⟩ := Option.isSome_iff_exists.mp hclear.resolves
  have hfound : (Entries.resolve b.owner (b.filled stored above previous).data).bind
      (Entries.lookup b.key) = some (.maps stored) := by
    simp [filled, Entries.resolve_update_self hinner]
  have habove' : above.map (fun p => ({ p with
      valid := p.valid && !decide (IsElement b.owner b.key p.path) } : Pointer)) =
      above.map off :=
    List.map_congr_left fun p hp => by simp [off, habove p hp]
  have hbelow' := map_valid_eq_self fun p hp hvalid helement =>
    hclear.below p hp hvalid (inside_of_isElement helement)
  have howner : ¬ IsElement b.owner b.key b.owner := fun helement =>
    not_inside_self b.owner b.key (inside_of_isElement helement)
  simp only [State.pushItem, hfound]
  simp only [State.grow, filled, List.map_append, List.map_cons, habove', hbelow', howner,
    Entries.update_update, Entries.assign_assign, itemPath, List.cons_append, decide_false,
    Bool.not_false, Bool.and_self]

theorem assign_filled (hclear : b.Clear) (habove : ∀ p ∈ above, p.valid = false)
    (entries : Entries) (key : Bytes) (value : Value) :
    (b.filled (stored ++ [entries]) (⟨b.itemPath stored.length, true⟩ :: above) previous).assign
        key value =
      .ok (b.filled (stored ++ [Entries.assign key value entries])
        (⟨b.itemPath stored.length, true⟩ :: above) previous) := by
  have houtside {path : List Step} (h : ¬ Inside b.owner b.key path) :
      ¬ Inside (b.itemPath stored.length) key path := fun hitem => h (b.inside_of_item hitem)
  have hdangling : above.map (fun p => ({ p with
      valid := p.valid && !decide (Inside (b.itemPath stored.length) key p.path) } : Pointer)) =
      above := map_valid_eq_self fun p hp hvalid => by simp [habove p hp] at hvalid
  have hbelow := map_valid_eq_self fun p hp hvalid => houtside (hclear.below p hp hvalid)
  have hinside :=
    map_valid_lists_eq_self fun l hl hvalid => houtside (hclear.lists l hl hvalid).1
  have hother : b.lists.map (fun l => ({ l with
      valid := l.valid && !decide (l.owner = b.itemPath stored.length ∧ l.key = key) } :
        ListPointer)) = b.lists :=
    map_valid_lists_eq_self fun l hl hvalid heq =>
      (hclear.lists l hl hvalid).1 (heq.1 ▸ b.inside_itemPath stored.length)
  have hself : ¬ (b.owner = b.itemPath stored.length ∧ b.key = key) := by
    rintro ⟨howner, -⟩
    exact not_inside_self b.owner b.key (howner ▸ b.inside_itemPath stored.length)
  have howner := houtside (not_inside_self b.owner b.key)
  simp only [State.assign, filled, List.cons_append, if_true, State.dropLists, State.invalidate,
    List.map_cons, List.map_append, hdangling, hbelow, hinside, hother, hself, howner,
    not_inside_self, decide_false, Bool.not_false, Bool.and_self, update_itemPath]

theorem emplace_filled (entries : Entries) (key : Bytes) (value : Value) :
    (b.filled (stored ++ [entries]) (⟨b.itemPath stored.length, true⟩ :: above) previous).emplace
        key value =
      .ok (b.filled (stored ++ [Entries.emplace key value entries])
        (⟨b.itemPath stored.length, true⟩ :: above) previous) := by
  simp only [State.emplace, filled, List.cons_append, if_true, update_itemPath]

theorem storePair_filled (hclear : b.Clear) (habove : ∀ p ∈ above, p.valid = false)
    (entries : Entries) (pair : Key × Text) (h : Convertible pair.2) :
    storePair pair.1 pair.2
        (b.filled (stored ++ [entries]) (⟨b.itemPath stored.length, true⟩ :: above) previous) =
      .ok (b.filled (stored ++ [storeEntry entries pair])
        (⟨b.itemPath stored.length, true⟩ :: above) previous) := by
  unfold storePair storeEntry
  split
  · exact assign_filled hclear habove entries _ _
  · rename_i hinline
    obtain ⟨value, hvalue⟩ := h.resolve_left hinline
    rw [hvalue]
    exact emplace_filled entries _ _

theorem parse_more (hclear : b.Clear) (habove : ∀ p ∈ above, p.valid = false)
    (more : List Bytes) {pairs : List (Key × Text)} (hpairs : ∀ pair ∈ pairs, Convertible pair.2)
    (entries : Entries) (hprevious : previous ≤ b.indent + 4) :
    parseLines more (pairs.map fun pair => pairLine (b.indent + 4) pair.1 pair.2)
        (b.filled (stored ++ [entries]) (⟨b.itemPath stored.length, true⟩ :: above) previous) =
      .ok (b.filled (stored ++ [pairs.foldl storeEntry entries])
        (⟨b.itemPath stored.length, true⟩ :: above)
        (if pairs = [] then previous else b.indent + 4)) := by
  induction pairs generalizing entries previous with
  | nil => rfl
  | cons pair pairs ih =>
      have hpair := hpairs pair List.mem_cons_self
      have hline : parseLine ((pairs.map fun pair => pairLine (b.indent + 4) pair.1 pair.2) ++ more)
          (pairLine (b.indent + 4) pair.1 pair.2)
          (b.filled (stored ++ [entries]) (⟨b.itemPath stored.length, true⟩ :: above) previous) =
          .ok (b.filled (stored ++ [storeEntry entries pair])
            (⟨b.itemPath stored.length, true⟩ :: above) (b.indent + 4)) := by
        rw [parseLine_pair, State.dedent_of_le hprevious, storePair_filled hclear habove _ _ hpair]
        rfl
      rw [List.map_cons, parseLines_cons hline,
        ih (fun other hother => hpairs other (List.mem_cons_of_mem _ hother)) _ le_rfl]
      simp

/-! ## All items -/

/-- The last item is read, and the next line at the indentation of the items leaves
`above`. -/
def Behind (b : Place) (stored : List Entries) (above : List Pointer) (s : State) : Prop :=
  s = b.filled stored above (b.indent + 2) ∨
    ∃ p, s = b.filled stored (p :: above) (b.indent + 4)

/-- An item that has several lines closes its map itself. -/
theorem dedent_behind {s : State} (h : Behind b stored above s) :
    s.dedent (b.indent + 2) = b.filled stored above (b.indent + 2) := by
  rcases h with rfl | ⟨p, rfl⟩
  · exact State.dedent_of_le le_rfl
  · have hrounds : State.rounds (b.indent + 2) (b.indent + 4) = 1 := by
      simp only [State.rounds]
      omega
    have hmin : min 1 (above.length + (b.below.length + 1)) = 1 := by omega
    rw [State.dedent_eq]
    simp [filled, hrounds, hmin]

/-- A line that closes the list leaves the pointers of the items on one line but one. -/
theorem dedent_behind_of_le {s : State} (h : Behind b stored above s) {indent : ℕ}
    (hindent : indent ≤ b.indent) :
    (s.dedent indent).data = s.data ∧
      (s.dedent indent).stack = (above ++ ⟨b.owner, true⟩ :: b.below).drop
        (min (State.rounds indent b.indent + 1) (above.length + b.below.length)) ∧
      (s.dedent indent).lists = b.lists.dropWhile fun list => indent < list.indent := by
  have hlist : indent < b.indent + 2 := by omega
  have hdeeper : indent < b.indent + 4 := by omega
  rcases h with rfl | ⟨p, rfl⟩
  · have hrounds : State.rounds indent (b.indent + 2) = State.rounds indent b.indent + 1 := by
      simp only [State.rounds]
      omega
    rw [State.dedent_eq]
    simp [filled, hrounds, hlist]
  · have hrounds : State.rounds indent (b.indent + 4) = State.rounds indent b.indent + 2 := by
      simp only [State.rounds]
      omega
    have hmin : min (State.rounds indent b.indent + 2) (above.length + (b.below.length + 1)) =
        min (State.rounds indent b.indent + 1) (above.length + b.below.length) + 1 := by
      omega
    rw [State.dedent_eq]
    simp [filled, hrounds, hlist, hdeeper, hmin]

/-- What the lines of an item do, from a state that is ready for them. -/
theorem parse_item (hclear : b.Clear) (habove : ∀ p ∈ above, IsElement b.owner b.key p.path)
    (more : List Bytes) {item : Item} (hitem : item.Converts) {s : State}
    (hs : s.dedent (b.indent + 2) = b.filled stored above previous) :
    ∃ left next, parseLines more (item.lines b.indent) s = .ok next ∧
      Behind b (stored ++ [item.entries]) left next ∧
      (∀ p ∈ left, IsElement b.owner b.key p.path) ∧ (∀ p ∈ left.tail, p.valid = false) ∧
      left.length = above.length + if item.more = [] then 1 else 0 := by
  have hdangling : ∀ p ∈ above.map off, p.valid = false := by
    rintro p hp
    obtain ⟨q, -, rfl⟩ := List.mem_map.mp hp
    rfl
  have helement : ∀ p ∈ above.map off, IsElement b.owner b.key p.path := by
    rintro p hp
    obtain ⟨q, hq, rfl⟩ := List.mem_map.mp hp
    exact habove q hq
  let top : Pointer := ⟨b.itemPath stored.length, true⟩
  have hline (rest : List Bytes) :
      parseLine rest (itemPairLine (b.indent + 2) item.key item.value) s =
        .ok (b.filled (stored ++ [[(item.key.name, .str item.value.bytes)]])
          (top :: above.map off) (b.indent + 2)) := by
    have hlists : (s.dedent (b.indent + 2)).lists =
        ⟨b.owner, b.key, true, b.indent + 2⟩ :: b.lists := by
      rw [hs]
      rfl
    rw [parseLine_itemPair item.key item.value hlists, hs, pushItem_filled hclear habove]
    exact congrArg (Except.map _) (assign_filled hclear hdangling [] _ _)
  have hmore := @parse_more b stored (above.map off) (b.indent + 2) hclear hdangling more item.more
    hitem [(item.key.name, .str item.value.bytes)] (by omega)
  rw [Item.lines, parseLines_cons (hline _), hmore]
  by_cases hone : item.more = []
  · refine ⟨top :: above.map off, _, rfl, Or.inl ?_, ?_, hdangling, ?_⟩
    · simp only [hone, if_true, Item.entries]
      rfl
    · rintro p hp
      rcases List.mem_cons.mp hp with rfl | hp
      · exact b.isElement_itemPath stored.length
      · exact helement p hp
    · simp [hone]
  · refine ⟨above.map off, _, rfl, Or.inr ⟨top, ?_⟩, helement,
      fun p hp => hdangling p (List.mem_of_mem_tail hp), ?_⟩
    · simp only [hone, if_false, Item.entries]
      rfl
    · simp [hone]

theorem parse_items (hclear : b.Clear) (habove : ∀ p ∈ above, IsElement b.owner b.key p.path)
    (hdangling : ∀ p ∈ above.tail, p.valid = false) (more : List Bytes) {items : List Item}
    (hitems : ∀ item ∈ items, item.Converts) {s : State} (hs : Behind b stored above s) :
    ∃ left next, parseLines more (items.flatMap (Item.lines b.indent)) s = .ok next ∧
      Behind b (stored ++ items.map Item.entries) left next ∧
      (∀ p ∈ left, IsElement b.owner b.key p.path) ∧ (∀ p ∈ left.tail, p.valid = false) ∧
      left.length = above.length + oneLine items := by
  induction items generalizing stored above s with
  | nil => exact ⟨above, s, rfl, by simpa using hs, habove, hdangling, by simp [oneLine]⟩
  | cons item items ih =>
      obtain ⟨middle, next, hparse, hnext, hmiddle, hmiddle_tail, hlength⟩ :=
        parse_item hclear habove (items.flatMap (Item.lines b.indent) ++ more)
          (hitems item List.mem_cons_self) (dedent_behind hs)
      obtain ⟨left, last, hrest, hlast, hleft, hleft_tail, hlength'⟩ :=
        ih hmiddle hmiddle_tail (fun other hother => hitems other (List.mem_cons_of_mem _ hother))
          hnext
      refine ⟨left, last, ?_, by simpa using hlast, hleft, hleft_tail, ?_⟩
      · calc parseLines more ((item :: items).flatMap (Item.lines b.indent)) s
            = parseLines (items.flatMap (Item.lines b.indent) ++ more) (item.lines b.indent) s >>=
                parseLines more (items.flatMap (Item.lines b.indent)) := by
              rw [List.flatMap_cons, parseLines_append]
          _ = parseLines more (items.flatMap (Item.lines b.indent)) next := by
              rw [hparse]
              rfl
          _ = .ok last := hrest
      · rw [hlength', hlength, oneLine_cons]
        omega

end Place

/-! ## The whole list -/

/-- Where the list is stored: the map on top, without the pointers and lists that the line of
the key drops. -/
def placeOf (indent : ℕ) (key : Bytes) (owner : List Step) (below : List Pointer) (s : State) :
    Place where
  data := s.data
  owner := owner
  key := key
  below := below
  lists := ((s.invalidate owner key).dropLists owner key).lists
  indent := indent

theorem Sound.outside {s : State} (hs : Sound s) {owner : List Step} {below : List Pointer}
    (hstack : s.stack = ⟨owner, true⟩ :: below) (key : Bytes) :
    ∀ p ∈ s.stack, p.valid = true → ¬ Inside owner key p.path := by
  intro p hp hvalid hinside
  rw [hstack] at hp
  rcases List.mem_cons.mp hp with rfl | hp
  · exact not_inside_self owner key hinside
  · have hapart := hs.apart
    rw [hstack] at hapart
    exact List.rel_of_pairwise_cons hapart hp hvalid hinside.1

theorem clear_placeOf {indent : ℕ} {key : Bytes} {owner : List Step} {below : List Pointer}
    {s : State} (hs : Sound s) (hstack : s.stack = ⟨owner, true⟩ :: below) :
    (placeOf indent key owner below s).Clear where
  resolves := hs.resolves ⟨owner, true⟩ (by rw [hstack]; exact List.mem_cons_self) rfl
  below := fun p hp => hs.outside hstack key p (by rw [hstack]; exact List.mem_cons_of_mem _ hp)
  lists := fun l hl hvalid => State.clear_of_mem_dropLists hl hvalid

/-- The lines of a list store its items, and leave the pointers of those on one line. -/
theorem parse_list {s : State} (hs : Sound s) {indent : ℕ} {owner : List Step}
    {below : List Pointer} (hstack : (s.dedent indent).stack = ⟨owner, true⟩ :: below)
    (key : Key) {items : List Item} (hne : items ≠ []) (hitems : ∀ item ∈ items, item.Converts)
    (more : List Bytes) :
    ∃ above next, parseLines more (listLines indent key items) s = .ok next ∧
      Place.Behind (placeOf indent key.name owner below (s.dedent indent))
        (items.map Item.entries) above next ∧
      (∀ p ∈ above, IsElement owner key.name p.path) ∧ (∀ p ∈ above.tail, p.valid = false) ∧
      above.length = oneLine items := by
  have hsound := hs.dedent indent
  have hclear := @clear_placeOf indent key.name owner below _ hsound hstack
  obtain ⟨first, rest, rfl⟩ := List.exists_cons_of_ne_nil hne
  let b := placeOf indent key.name owner below (s.dedent indent)
  have hopen (lines : List Bytes) :
      parseLine ((first.lines indent ++ lines) ++ more) (openLine indent key) s =
        .ok (b.filled [] [] indent) := by
    have hitem : nextIsItem ((first.lines indent ++ lines) ++ more) = true :=
      nextIsItem_itemPair _ _ _ _
    have hkeep := map_valid_eq_self (hsound.outside hstack key.name)
    rw [hstack] at hkeep
    rw [parseLine_openList key hitem]
    simp only [State.assign, hstack, if_true]
    simp [Except.map, State.pushList, State.atIndent, State.dropLists, State.invalidate, hstack,
      Place.filled, b, placeOf, hkeep]
  have hstart : (b.filled [] [] indent).dedent (b.indent + 2) = b.filled [] [] indent :=
    State.dedent_of_le (Nat.le_add_right _ _)
  obtain ⟨middle, next, hparse, hnext, hmiddle, hmiddle_tail, hlength⟩ :=
    Place.parse_item hclear (by simp) (rest.flatMap (Item.lines indent) ++ more)
      (hitems first List.mem_cons_self) hstart
  obtain ⟨above, last, hrest, hlast, habove, htail, hlength'⟩ :=
    Place.parse_items hclear hmiddle hmiddle_tail more
      (fun other hother => hitems other (List.mem_cons_of_mem _ hother)) hnext
  refine ⟨above, last, ?_, by simpa using hlast, habove, htail, ?_⟩
  · calc parseLines more (listLines indent key (first :: rest)) s
        = parseLines more (first.lines indent ++ rest.flatMap (Item.lines indent))
            (b.filled [] [] indent) := parseLines_cons (hopen _)
      _ = parseLines (rest.flatMap (Item.lines indent) ++ more) (first.lines indent)
            (b.filled [] [] indent) >>= parseLines more (rest.flatMap (Item.lines indent)) :=
          parseLines_append _ _ _ _
      _ = parseLines more (rest.flatMap (Item.lines indent)) next :=
          congrArg (· >>= parseLines more (rest.flatMap (Item.lines indent))) hparse
      _ = .ok last := hrest
  · rw [hlength', hlength, oneLine_cons, List.length_nil]
    omega

end Sok.Yaml
