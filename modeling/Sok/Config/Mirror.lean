import Sok.Config.Pointers

/-!
# Two parsers with the same open maps

What a line does depends on the data only where it is an item: the number of the new item
is the length of the vector.  So two states with the same stack read the lines of keys
alike, whatever else differs in their data; and if the open lists agree as well, with the
lengths of their vectors, they read all lines alike.

## Strategy

One lemma for each thing a line does: an assignment, an `emplace`, a new map on the stack,
a new list, a new item.  Only the last reads the data, for the length of the vector, and
there the invariant gives the same length on both sides.  A line is then a case split on
its form, with the same case on both sides because the line is the same, and the lines are
an induction on the text.
-/

namespace Sok.Yaml

/-- The same maps are open, and if items are to be read the same lists with as many items. -/
structure Mirror (listed : Prop) (s t : State) : Prop where
  stack : s.stack = t.stack
  lists : listed → s.lists = t.lists
  lengths : listed → ∀ l ∈ s.lists, l.valid = true →
    Entries.listLength l.owner l.key s.data = Entries.listLength l.owner l.key t.data

namespace Mirror

variable {listed : Prop} {s t next : State}

theorem atIndent (h : Mirror listed s t) (indent : ℕ) :
    Mirror listed (s.atIndent indent) (t.atIndent indent) :=
  ⟨h.stack, h.lists, h.lengths⟩

theorem dedent (h : Mirror listed s t) (hprevious : s.previousIndent = t.previousIndent)
    (indent : ℕ) : Mirror listed (s.dedent indent) (t.dedent indent) := by
  have hlengths (hlisted : listed) : ∀ l ∈ (s.dedent indent).lists, l.valid = true →
      Entries.listLength l.owner l.key s.data = Entries.listLength l.owner l.key t.data :=
    fun l hl => h.lengths hlisted l (State.mem_lists_of_dedent hl)
  rw [State.dedent_eq] at hlengths ⊢
  rw [State.dedent_eq, ← hprevious]
  exact ⟨by simp only [h.stack], fun hlisted => by simp only [h.lists hlisted], hlengths⟩

/-! ## Stores -/

theorem lengths_assign (h : Mirror listed s t) (path : List Step) (key : Bytes) (value : Value)
    {l : ListPointer} (hl : l ∈ ((s.invalidate path key).dropLists path key).lists)
    (hlisted : listed) (hvalid : l.valid = true) :
    Entries.listLength l.owner l.key (Entries.update path (Entries.assign key value) s.data) =
      Entries.listLength l.owner l.key
        (Entries.update path (Entries.assign key value) t.data) := by
  simp only [State.dropLists, State.invalidate, List.mem_map] at hl
  obtain ⟨m, ⟨old, hold, rfl⟩, rfl⟩ := hl
  simp only [Bool.and_eq_true, Bool.not_eq_true', decide_eq_false_iff_not] at hvalid
  obtain ⟨⟨hold_valid, houtside⟩, hother⟩ := hvalid
  rw [Entries.listLength_update_assign value s.data houtside hother,
    Entries.listLength_update_assign value t.data houtside hother]
  exact h.lengths hlisted old hold hold_valid

theorem assign {key : Bytes} {value : Value} (h : Mirror listed s t)
    (hok : s.assign key value = .ok next) :
    ∃ other, t.assign key value = .ok other ∧ Mirror listed next other := by
  obtain ⟨path, below, hstack, rfl⟩ := assign_ok hok
  have hstack' : t.stack = ⟨path, true⟩ :: below := h.stack ▸ hstack
  refine ⟨{ (t.invalidate path key).dropLists path key with
    data := Entries.update path (Entries.assign key value) t.data }, ?_, ?_, ?_, ?_⟩
  · simp [State.assign, hstack']
  · simp only [State.dropLists, State.invalidate, h.stack]
  · intro hlisted
    simp only [State.dropLists, State.invalidate, h.lists hlisted]
  · intro hlisted l hl hvalid
    exact h.lengths_assign path key value hl hlisted hvalid

theorem emplace {key : Bytes} {value : Value} (h : Mirror listed s t)
    (hmap : ∀ inner, value ≠ .map inner) (hmaps : ∀ items, value ≠ .maps items)
    (hok : s.emplace key value = .ok next) :
    ∃ other, t.emplace key value = .ok other ∧ Mirror listed next other := by
  obtain ⟨path, below, hstack, rfl⟩ := emplace_ok hok
  have hstack' : t.stack = ⟨path, true⟩ :: below := h.stack ▸ hstack
  refine ⟨{ t with data := Entries.update path (Entries.emplace key value) t.data }, ?_, h.stack,
    h.lists, fun hlisted l hl hvalid => ?_⟩
  · simp [State.emplace, hstack']
  · rw [Entries.listLength_update_emplace path l.owner key l.key hmap hmaps,
      Entries.listLength_update_emplace path l.owner key l.key hmap hmaps]
    exact h.lengths hlisted l hl hvalid

theorem pushMap (h : Mirror listed s t) (key : Bytes) :
    Mirror listed (s.pushMap key) (t.pushMap key) := by
  unfold State.pushMap
  rw [← h.stack]
  split
  · exact h
  · exact ⟨by simp only [h.stack], h.lists, h.lengths⟩

/-- The vector of a new list is empty on both sides. -/
theorem assign_pushList {key : Bytes} {indent : ℕ} (h : Mirror listed s t) (hs : Sound s)
    (ht : Sound t) (hok : s.assign key (.maps []) = .ok next) :
    ∃ other, t.assign key (.maps []) = .ok other ∧
      Mirror listed (next.pushList key indent) (other.pushList key indent) := by
  obtain ⟨other, hother, hmirror⟩ := h.assign hok
  refine ⟨other, hother, ?_⟩
  obtain ⟨path, below, hstack, rfl⟩ := assign_ok hok
  obtain ⟨path', below', hstack', rfl⟩ := assign_ok hother
  obtain ⟨⟨rfl, -⟩, -⟩ : (path = path' ∧ True) ∧ below = below' := by
    simpa [hstack, hstack'] using h.stack
  have hempty {u : State} (hu : Sound u) (hopen : u.stack = ⟨path, true⟩ :: below) :
      Entries.listLength path key
        (Entries.update path (Entries.assign key (.maps [])) u.data) = some 0 :=
    Entries.listLength_update_self
      (hu.resolves ⟨path, true⟩ (by rw [hopen]; exact List.mem_cons_self) rfl) key []
  have hpush {u : State} (hopen : u.stack = ⟨path, true⟩ :: below) (data : Entries) :
      State.pushList key indent { (u.invalidate path key).dropLists path key with data := data } =
        { (u.invalidate path key).dropLists path key with
          data := data
          lists := ⟨path, key, true, indent⟩ ::
            ((u.invalidate path key).dropLists path key).lists } := by
    simp [State.pushList, State.dropLists, State.invalidate, hopen]
  have hstack'' : t.stack = ⟨path, true⟩ :: below := h.stack ▸ hstack
  rw [hpush hstack, hpush hstack'']
  refine ⟨hmirror.stack, fun hlisted => ?_, ?_⟩
  · exact congrArg (List.cons _) (hmirror.lists hlisted)
  · intro hlisted l hl hvalid
    rcases List.mem_cons.mp hl with rfl | hl
    · exact (hempty hs hstack).trans (hempty ht hstack'').symm
    · exact hmirror.lengths hlisted l hl hvalid

/-- The new item has the same number on both sides. -/
theorem pushItem {list : ListPointer} (h : Mirror listed s t) (hlisted : listed)
    (hlist : list ∈ s.lists) (hok : s.pushItem list = .ok next) :
    ∃ other, t.pushItem list = .ok other ∧ Mirror listed next other := by
  obtain ⟨items, hvalid, hfound, rfl⟩ := pushItem_ok hok
  have hlength := h.lengths hlisted list hlist hvalid
  rw [Entries.listLength_eq_some.mpr ⟨items, hfound, rfl⟩] at hlength
  obtain ⟨items', hfound', hlength'⟩ := Entries.listLength_eq_some.mp hlength.symm
  refine ⟨{ t with
    data := Entries.update list.owner (Entries.addItem list.key items') t.data
    stack := ⟨list.owner ++ [⟨list.key, some items'.length⟩], true⟩ ::
      (t.grow list.owner list.key).stack }, ?_, ?_, h.lists, ?_⟩
  · simp only [State.pushItem, hvalid, hfound', Entries.addItem]
  · simp only [State.grow, h.stack, hlength']
  · intro _ l hl hl_valid
    by_cases hself : l.owner = list.owner ∧ l.key = list.key
    · -- a pointer to the vector that has grown
      obtain ⟨inner, hinner, -⟩ := Option.bind_eq_some_iff.mp hfound
      obtain ⟨inner', hinner', -⟩ := Option.bind_eq_some_iff.mp hfound'
      simp only [hself.1, hself.2, Entries.addItem]
      rw [Entries.listLength_update_self (by simp [hinner]),
        Entries.listLength_update_self (by simp [hinner'])]
      simp [hlength']
    · rw [Entries.listLength_update_addItem hfound hself,
        Entries.listLength_update_addItem hfound' hself]
      exact h.lengths hlisted l hl hl_valid

/-! ## Lines -/

theorem flat_of_scalar {text : Bytes} {value : Value} (h : scalar text = .ok value) :
    (∀ inner, value ≠ .map inner) ∧ ∀ items, value ≠ .maps items := by
  unfold scalar stoi stod at h
  split at h
  · obtain rfl := Except.ok.inj h
    simp
  · split at h
    · split at h
      · obtain rfl := Except.ok.inj h
        simp
      · simp at h
    · split at h
      · dsimp only at h
        split at h
        · simp at h
        · split at h
          · simp at h
          · obtain rfl := Except.ok.inj h
            simp
      · obtain rfl := Except.ok.inj h
        simp

theorem keyLine {indent : ℕ} {isArray : Bool} {line : Bytes} (h : Mirror listed s t)
    (hs : Sound s) (ht : Sound t) (hok : keyLine indent isArray line s = .ok next) :
    ∃ other, Yaml.keyLine indent isArray line t = .ok other ∧ Mirror listed next other := by
  cases hsplit : splitColon line with
  | none =>
      simp only [Yaml.keyLine, hsplit] at hok
      exact absurd hok (by simp)
  | some pair =>
      obtain ⟨key, value⟩ := pair
      simp only [Yaml.keyLine, hsplit] at hok ⊢
      by_cases hvalue : value = []
      · simp only [hvalue, if_true] at hok ⊢
        cases isArray with
        | true =>
            obtain ⟨middle, hmiddle, hok⟩ := exists_ok_of_bind hok
            obtain ⟨other, hother, hmirror⟩ :=
              @assign_pushList _ _ _ _ key (indent + 2) h hs ht hmiddle
            refine ⟨_, ?_, Except.ok.inj hok ▸ hmirror⟩
            simp only [if_true, hother]
            rfl
        | false =>
            obtain ⟨middle, hmiddle, hok⟩ := exists_ok_of_bind hok
            obtain ⟨other, hother, hmirror⟩ := h.assign hmiddle
            refine ⟨_, ?_, Except.ok.inj hok ▸ hmirror.pushMap key⟩
            simp only [Bool.false_eq_true, if_false, hother]
            rfl
      · simp only [hvalue, if_false] at hok ⊢
        by_cases hinline : IsInline value
        · simp only [hinline, if_true] at hok ⊢
          exact h.assign hok
        · simp only [hinline, if_false] at hok ⊢
          obtain ⟨stored, hstored, hok⟩ := exists_ok_of_bind hok
          obtain ⟨hmap, hmaps⟩ := flat_of_scalar hstored
          rw [hstored]
          exact h.emplace hmap hmaps hok

theorem itemLine {text : Bytes} (h : Mirror listed s t) (hlisted : listed)
    (hok : itemLine text s = .ok next) :
    ∃ other, Yaml.itemLine text t = .ok other ∧ Mirror listed next other := by
  cases hlists : s.lists with
  | nil =>
      simp only [Yaml.itemLine, hlists] at hok
      exact absurd hok (by simp)
  | cons list lists =>
      have hlists' : t.lists = list :: lists := (h.lists hlisted).symm.trans hlists
      simp only [Yaml.itemLine, hlists, hlists'] at hok ⊢
      obtain ⟨pushed, hpushed, hok⟩ := exists_ok_of_bind hok
      obtain ⟨pushed', hpushed', hmirror⟩ :=
        h.pushItem hlisted (by rw [hlists]; exact List.mem_cons_self) hpushed
      rw [hpushed']
      by_cases hitem : trim text = []
      · simp only [hitem, if_true] at hok
        exact ⟨pushed', by simp only [hitem]; rfl, Except.ok.inj hok ▸ hmirror⟩
      · cases hsplit : splitColon (trim text) with
        | none =>
            simp only [hitem, if_false, hsplit] at hok
            exact absurd hok (by simp)
        | some pair =>
            obtain ⟨key, value⟩ := pair
            simp only [hitem, if_false, hsplit] at hok
            by_cases hvalue : value = []
            · simp only [hvalue, if_true] at hok
              obtain ⟨middle, hmiddle, hok⟩ := exists_ok_of_bind hok
              obtain ⟨other, hother, hmirror⟩ := hmirror.assign hmiddle
              refine ⟨_, ?_, Except.ok.inj hok ▸ hmirror.pushMap key⟩
              simp only [hitem, if_false, hvalue, if_true]
              show (pushed'.assign key (.map []) >>= fun s => pure (s.pushMap key)) = _
              rw [hother]
              rfl
            · simp only [hvalue, if_false] at hok
              obtain ⟨other, hother, hmirror⟩ := hmirror.assign hok
              refine ⟨other, ?_, hmirror⟩
              simp only [hitem, if_false, hvalue]
              exact hother

theorem parseLine {rest : List Bytes} {raw : Bytes} (hs : Sound s) (ht : Sound t)
    (h : Mirror listed (s.dedent (countIndent raw)) (t.dedent (countIndent raw)))
    (hignored : ¬ Ignored (trim raw)) (hlisted : IsItem (trim raw) → listed)
    (hok : parseLine rest raw s = .ok next) :
    ∃ other, Yaml.parseLine rest raw t = .ok other ∧ Mirror listed next other ∧
      next.previousIndent = other.previousIndent := by
  by_cases hitem : IsItem (trim raw)
  · rw [parseLine_of_item hignored hitem] at hok ⊢
    obtain ⟨read, hread, rfl⟩ := exists_ok_of_map hok
    obtain ⟨other, hother, hmirror⟩ := h.itemLine (hlisted hitem) hread
    exact ⟨other.atIndent _, by rw [hother]; rfl, hmirror.atIndent _, rfl⟩
  · rw [parseLine_of_key hignored hitem] at hok ⊢
    obtain ⟨read, hread, rfl⟩ := exists_ok_of_map hok
    obtain ⟨other, hother, hmirror⟩ := h.keyLine (hs.dedent _) (ht.dedent _) hread
    exact ⟨other.atIndent _, by rw [hother]; rfl, hmirror.atIndent _, rfl⟩

/-- From then on all lines are read alike. -/
theorem parseLines {more lines : List Bytes} (hs : Sound s) (ht : Sound t)
    (h : Mirror listed s t) (hprevious : s.previousIndent = t.previousIndent)
    (hlisted : ∀ raw ∈ significant lines, IsItem (trim raw) → listed)
    (hok : parseLines more lines s = .ok next) :
    ∃ other, Yaml.parseLines more lines t = .ok other ∧ Mirror listed next other ∧
      next.previousIndent = other.previousIndent := by
  induction lines generalizing s t with
  | nil =>
      obtain rfl := Except.ok.inj hok
      exact ⟨t, rfl, h, hprevious⟩
  | cons raw lines ih =>
      obtain ⟨middle, hmiddle, hrest⟩ := exists_ok_of_bind hok
      by_cases hignored : Ignored (trim raw)
      · rw [significant_cons_of_ignored hignored] at hlisted
        rw [parseLine_of_ignored hignored] at hmiddle
        obtain rfl := Except.ok.inj hmiddle
        rw [parseLines_cons (parseLine_of_ignored hignored)]
        exact ih hs ht h hprevious hlisted hrest
      · rw [significant_cons hignored] at hlisted
        obtain ⟨other, hother, hmirror, heq⟩ :=
          Mirror.parseLine hs ht (h.dedent hprevious _) hignored
            (hlisted raw List.mem_cons_self) hmiddle
        rw [parseLines_cons hother]
        exact ih (hs.parseLine hmiddle) (ht.parseLine hother) hmirror heq
          (fun line hline => hlisted line (List.mem_cons_of_mem _ hline)) hrest

end Mirror

end Sok.Yaml
