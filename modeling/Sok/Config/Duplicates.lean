import Mathlib.Data.Set.Defs
import Sok.Config.EmptySection

/-!
# Keys that are defined twice

A section, a block list and an inline list are stored with `operator[]`, which replaces what
the map has at the key; a bool, a number and a string are stored with `emplace`, which
leaves it alone.  So the kind of the second definition decides which of the two a map has
in the end: a scalar is ignored, and anything else throws the first definition away.
-/

namespace Sok.Yaml

open Entries (valueAt)

/-! ## Documents -/

/-- A file with a line that defines a key which the map it is stored in already has.  The
first pair of an item is never such a line, since the map of the item is new. -/
structure Redefinition where
  text : Bytes
  before : List Bytes
  line : Bytes
  rest : List Bytes
  key : Bytes
  value : Bytes
  state : State
  owner : List Step
  old : Value
  lines : linesOf text = before ++ line :: rest
  defines : IsKeyLine line ∧ splitColon (trim line) = some (key, value)
  storable : Storable value
  read : parseLines (line :: rest) before start = .ok state
  stores : receiver (countIndent line) state = some ⟨owner, true⟩
  earlier : valueAt owner key state.data = some old

/-- What a definition stores, if it stores something. -/
def defined (isArray : Bool) (value : Bytes) : Except Failure Value :=
  if value = [] then .ok (if isArray then .maps [] else .map [])
  else if IsInline value then .ok (.list (inlineElements value))
  else scalar value

/-- The value is a bool, a number or a string. -/
def IsScalarText (value : Bytes) : Prop :=
  value ≠ [] ∧ ¬ IsInline value

instance (value : Bytes) : Decidable (IsScalarText value) :=
  inferInstanceAs (Decidable (_ ∧ _))

/-- The parser with another value at the key. -/
def State.withValue (owner : List Step) (key : Bytes) (value : Value) (s : State) : State :=
  { s with data := Entries.update owner (Entries.assign key value) s.data }

namespace Redefinition

variable (d : Redefinition)

/-- The second definition stores nothing: all that follows finds the first one. -/
def EarlierKept : Prop :=
  ∃ t, parseLine d.rest d.line d.state = .ok t ∧ t.data = d.state.data

/-- The second definition is stored, and the first one leaves no trace: all that follows would
be the same if it had been another. -/
def LaterKept : Prop :=
  ∃ t value, parseLine d.rest d.line d.state = .ok t ∧
    defined (nextIsItem d.rest) d.value = .ok value ∧ valueAt d.owner d.key t.data = some value ∧
    ∀ other, parseLine d.rest d.line (d.state.withValue d.owner d.key other) = .ok t

/-- Both definitions are the same. -/
def Same : Prop :=
  defined (nextIsItem d.rest) d.value = .ok d.old

end Redefinition

/-- One of the two definitions is kept in every file: always the earlier or always the later. -/
def OnePolicy (docs : Set Redefinition) : Prop :=
  (∀ d ∈ docs, d.EarlierKept) ∨ ∀ d ∈ docs, d.LaterKept

/-! ## One line -/

theorem data_pushMap (key : Bytes) (s : State) : (s.pushMap key).data = s.data := by
  unfold State.pushMap
  split <;> rfl

theorem data_pushList (key : Bytes) (indent : ℕ) (s : State) :
    (s.pushList key indent).data = s.data := by
  unfold State.pushList
  split <;> rfl

section

variable {line key value : Bytes}

/-- A section or a list is assigned, and what is done behind it does not look at the data. -/
theorem keyLine_of_collection (indent : ℕ) (isArray : Bool)
    (hsplit : splitColon line = some (key, value)) (hvalue : ¬ IsScalarText value) :
    ∃ v push, defined isArray value = .ok v ∧ (∀ s : State, (push s).data = s.data) ∧
      ∀ s, keyLine indent isArray line s = (s.assign key v).map push := by
  by_cases hnil : value = []
  · subst hnil
    cases isArray with
    | true =>
        refine ⟨.maps [], State.pushList key (indent + 2), rfl, data_pushList key _, fun s => ?_⟩
        rw [keyLine, hsplit]
        simp only [if_true]
        cases s.assign key (.maps []) <;> rfl
    | false =>
        refine ⟨.map [], State.pushMap key, rfl, data_pushMap key, fun s => ?_⟩
        rw [keyLine, hsplit]
        simp only [if_true, Bool.false_eq_true, if_false]
        cases s.assign key (.map []) <;> rfl
  · have hinline : IsInline value := not_not.mp fun h => hvalue ⟨hnil, h⟩
    refine ⟨.list (inlineElements value), id, ?_, fun _ => rfl, fun s => ?_⟩
    · rw [defined, if_neg hnil, if_pos hinline]
    · rw [keyLine, hsplit]
      simp only [hnil, hinline, if_true, if_false]
      cases s.assign key (.list (inlineElements value)) <;> rfl

/-- A scalar is entered only if its key is new. -/
theorem keyLine_of_scalar {indent : ℕ} {isArray : Bool}
    (hsplit : splitColon line = some (key, value)) (hvalue : IsScalarText value) (s : State) :
    keyLine indent isArray line s = defined isArray value >>= fun v => s.emplace key v := by
  obtain ⟨hnil, hinline⟩ := hvalue
  rw [keyLine, hsplit, defined, if_neg hnil, if_neg hinline]
  simp only [hnil, hinline, if_false]

theorem defined_of_storable (isArray : Bool) (h : Storable value) :
    ∃ v, defined isArray value = .ok v := by
  unfold defined
  split
  · exact ⟨_, rfl⟩
  · rename_i hnil
    split
    · exact ⟨_, rfl⟩
    · rename_i hinline
      exact (h.resolve_left hnil).resolve_left hinline

end

/-! ## The map that is stored in -/

section

variable {key : Bytes} {owner : List Step} {below : List Pointer} {s : State} {old : Value}

theorem assign_of_valid (h : s.stack = ⟨owner, true⟩ :: below) (value : Value) :
    s.assign key value = .ok { (s.invalidate owner key).dropLists owner key with
      data := Entries.update owner (Entries.assign key value) s.data } := by
  simp [State.assign, h]

theorem dedent_withValue (indent : ℕ) (value : Value) :
    (s.withValue owner key value).dedent indent = (s.dedent indent).withValue owner key value := by
  rw [State.dedent_eq, State.dedent_eq]
  rfl

/-- An assignment does not see what it replaces. -/
theorem assign_withValue (h : s.stack = ⟨owner, true⟩ :: below) (other value : Value) :
    (s.withValue owner key other).assign key value = s.assign key value := by
  have hstack : (s.withValue owner key other).stack = ⟨owner, true⟩ :: below := h
  rw [assign_of_valid hstack, assign_of_valid h]
  simp only [State.withValue, State.invalidate, State.dropLists, Entries.update_update,
    Entries.assign_assign]

theorem exists_map_of_valueAt (h : valueAt owner key s.data = some old) :
    ∃ inner, Entries.resolve owner s.data = some inner ∧ Entries.lookup key inner = some old :=
  Option.bind_eq_some_iff.mp h

theorem valueAt_assigned (h : valueAt owner key s.data = some old) (value : Value) :
    valueAt owner key (Entries.update owner (Entries.assign key value) s.data) = some value := by
  obtain ⟨inner, hinner, -⟩ := exists_map_of_valueAt h
  rw [valueAt, Entries.resolve_update_self hinner, Option.bind_some, Entries.lookup_assign_self]

/-- The value that is there is the only one whose assignment changes nothing. -/
theorem assigned_eq_iff (h : valueAt owner key s.data = some old) (value : Value) :
    Entries.update owner (Entries.assign key value) s.data = s.data ↔ value = old := by
  constructor
  · intro hsame
    have hvalue := valueAt_assigned h value
    rw [hsame, h] at hvalue
    exact (Option.some.inj hvalue).symm
  · rintro rfl
    obtain ⟨inner, hinner, hlookup⟩ := exists_map_of_valueAt h
    calc Entries.update owner (Entries.assign key value) s.data
        = Entries.update owner (fun inner => inner) s.data :=
          Entries.update_congr hinner (Entries.assign_of_lookup_eq_some hlookup)
      _ = s.data := Entries.update_id owner s.data

theorem emplaced_eq (h : valueAt owner key s.data = some old) (value : Value) :
    Entries.update owner (Entries.emplace key value) s.data = s.data := by
  obtain ⟨inner, hinner, hlookup⟩ := exists_map_of_valueAt h
  calc Entries.update owner (Entries.emplace key value) s.data
      = Entries.update owner (fun inner => inner) s.data :=
        Entries.update_congr hinner (Entries.emplace_of_lookup_eq_some hlookup value)
    _ = s.data := Entries.update_id owner s.data

end

/-! ## The second definition -/

namespace Redefinition

variable (d : Redefinition)

theorem stack : ∃ below,
    (d.state.dedent (countIndent d.line)).stack = ⟨d.owner, true⟩ :: below :=
  List.head?_eq_some_iff.mp d.stores

theorem parse_line (s : State) :
    parseLine d.rest d.line s =
      (keyLine (countIndent d.line) (nextIsItem d.rest) (trim d.line)
        (s.dedent (countIndent d.line))).map (State.atIndent (countIndent d.line)) :=
  parseLine_of_key d.defines.1.1 d.defines.1.2

/-- A section or a list takes the place of what was there, whatever that was. -/
theorem collection_assigns (hvalue : ¬ IsScalarText d.value) :
    ∃ v t, defined (nextIsItem d.rest) d.value = .ok v ∧
      t.data = Entries.update d.owner (Entries.assign d.key v) d.state.data ∧
      parseLine d.rest d.line d.state = .ok t ∧
      ∀ other, parseLine d.rest d.line (d.state.withValue d.owner d.key other) = .ok t := by
  obtain ⟨below, hstack⟩ := d.stack
  obtain ⟨v, push, hv, hpush, hline⟩ := keyLine_of_collection (countIndent d.line)
    (nextIsItem d.rest) d.defines.2 hvalue
  obtain ⟨u, hu, hdata⟩ : ∃ u, (d.state.dedent (countIndent d.line)).assign d.key v = .ok u ∧
      u.data = Entries.update d.owner (Entries.assign d.key v) d.state.data :=
    ⟨_, assign_of_valid hstack v, by rw [State.data_dedent]⟩
  refine ⟨v, (push u).atIndent (countIndent d.line), hv, (hpush u).trans hdata, ?_, ?_⟩
  · rw [d.parse_line, hline, hu]
    rfl
  · intro other
    rw [d.parse_line, hline, dedent_withValue, assign_withValue hstack, hu]
    rfl

/-- A scalar leaves what was there. -/
theorem scalar_ignored (hvalue : IsScalarText d.value) {s : State} {old : Value}
    (hstack : ∃ below, (s.dedent (countIndent d.line)).stack = ⟨d.owner, true⟩ :: below)
    (hold : valueAt d.owner d.key s.data = some old) :
    ∃ t, parseLine d.rest d.line s = .ok t ∧ t.data = s.data := by
  obtain ⟨below, hstack⟩ := hstack
  obtain ⟨v, hv⟩ := defined_of_storable (nextIsItem d.rest) d.storable
  have hline := d.parse_line s
  rw [keyLine_of_scalar d.defines.2 hvalue, hv] at hline
  change _ = ((s.dedent (countIndent d.line)).emplace d.key v).map _ at hline
  rw [emplace_of_stack hstack] at hline
  refine ⟨_, hline, ?_⟩
  show Entries.update _ _ (s.dedent _).data = _
  rw [State.data_dedent]
  exact emplaced_eq hold v

theorem earlierKept_iff : d.EarlierKept ↔ IsScalarText d.value ∨ d.Same := by
  by_cases hvalue : IsScalarText d.value
  · exact iff_of_true (d.scalar_ignored hvalue d.stack d.earlier) (Or.inl hvalue)
  · obtain ⟨v, t, hv, hdata, hline, -⟩ := d.collection_assigns hvalue
    have hsame : d.Same ↔ v = d.old := by
      rw [Same, hv, Except.ok.injEq]
    calc d.EarlierKept
        ↔ t.data = d.state.data := by simp [EarlierKept, hline]
      _ ↔ v = d.old := by rw [hdata, assigned_eq_iff d.earlier]
      _ ↔ IsScalarText d.value ∨ d.Same := by rw [hsame, or_iff_right hvalue]

theorem laterKept_iff : d.LaterKept ↔ ¬ IsScalarText d.value := by
  constructor
  · rintro ⟨t, value, -, -, -, hother⟩ hvalue
    -- whatever was there would still be there
    have hkept (other : Value) : valueAt d.owner d.key t.data = some other := by
      have hold : valueAt d.owner d.key (d.state.withValue d.owner d.key other).data =
          some other := valueAt_assigned d.earlier other
      obtain ⟨u, hu, hdata⟩ := d.scalar_ignored hvalue (by
        rw [dedent_withValue]
        exact d.stack) hold
      obtain rfl : u = t := Except.ok.inj (hu.symm.trans (hother other))
      rw [hdata, hold]
    have hboth := (hkept (.bool true)).symm.trans (hkept (.bool false))
    simp at hboth
  · intro hvalue
    obtain ⟨v, t, hv, hdata, hline, hother⟩ := d.collection_assigns hvalue
    refine ⟨t, v, hline, hv, ?_, hother⟩
    rw [hdata]
    exact valueAt_assigned d.earlier v

end Redefinition

/-! ## Two files -/

/-- `a: 1`, and then another number at the key. -/
def numberTwice : Redefinition where
  text := ascii "a: 1\na: 2\n"
  before := [ascii "a: 1"]
  line := ascii "a: 2"
  rest := []
  key := ascii "a"
  value := ascii "2"
  state := ⟨[(ascii "a", .int 1)], [⟨[], true⟩], 0, []⟩
  owner := []
  old := .int 1
  lines := by decide
  defines := by decide
  storable := Or.inr (Or.inr ⟨_, rfl⟩)
  read := rfl
  stores := rfl
  earlier := rfl

/-- `a: 1`, and then an inline list at the key. -/
def numberThenList : Redefinition where
  text := ascii "a: 1\na: [2]\n"
  before := [ascii "a: 1"]
  line := ascii "a: [2]"
  rest := []
  key := ascii "a"
  value := ascii "[2]"
  state := ⟨[(ascii "a", .int 1)], [⟨[], true⟩], 0, []⟩
  owner := []
  old := .int 1
  lines := by decide
  defines := by decide
  storable := Or.inr (Or.inl (by decide))
  read := rfl
  stores := rfl
  earlier := rfl

/-- The number is kept in the first file and replaced in the second. -/
theorem list_overrides_number_does_not : ¬ OnePolicy Set.univ := by
  rintro (hearlier | hlater)
  · have hkept := numberThenList.earlierKept_iff.mp (hearlier numberThenList trivial)
    rcases hkept with hscalar | hsame
    · exact absurd hscalar (by decide)
    · have hlist : defined false (ascii "[2]") = .ok (.list [.str (ascii "2")]) := rfl
      have hvalues := Except.ok.inj (hlist.symm.trans hsame)
      simp [numberThenList] at hvalues
  · have hkept := numberTwice.laterKept_iff.mp (hlater numberTwice trivial)
    exact hkept (by decide)

/-- The kind of the second definition decides, so there is one policy only for files in which it
is always a scalar, or never; the same definition again is no decision. -/
theorem one_policy_iff (docs : Set Redefinition) :
    OnePolicy docs ↔
      (∀ d ∈ docs, IsScalarText d.value ∨ d.Same) ∨ ∀ d ∈ docs, ¬ IsScalarText d.value := by
  unfold OnePolicy
  simp only [Redefinition.earlierKept_iff, Redefinition.laterKept_iff]

end Sok.Yaml
