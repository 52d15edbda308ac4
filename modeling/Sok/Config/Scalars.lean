import Mathlib.Data.List.Count
import Sok.Config.EmptySection

/-!
# The types of scalars

`parseFile` decides by the characters of a value whether it is a number, and then leaves it
to `std::stoi` and `std::stod` to read it.  The set of the digits and the dot has texts in
it that are not numbers, and the converters read only the longest prefix that is one, so a
text with two dots is cut at the second of them, and a text that is too large, or has no
digit, ends the whole parse.

`Faithful` says what the stored value of a text should be, without a look at the
converters.  `Unambiguous` is the condition that the two agree.
-/

namespace Sok.Yaml

open Entries (valueAt)

/-! ## What a text means -/

/-- The dot of a decimal literal. -/
abbrev dot : UInt8 := 46

/-- A decimal literal: digits with at most one dot, and at least one digit. -/
structure IsDecimal (text : Bytes) : Prop where
  bytes : ∀ b ∈ text, isDigit b = true ∨ b = dot
  dots : text.count dot ≤ 1
  digit : ∃ b ∈ text, isDigit b = true

/-- The stored value has the type of the text: a bool or an int exactly when it is one, a
double only when all of it is a decimal literal, and otherwise the text itself. -/
structure Faithful (text : Bytes) (stored : Value) : Prop where
  bool : ∀ b, stored = .bool b ↔ text = if b then ascii "true" else ascii "false"
  int : ∀ n : ℤ, stored = .int n ↔
    text.all isDigit = true ∧ n = decimalValue text ∧ decimalValue text < 2 ^ 31
  double : ∀ literal, stored = .double literal → IsDecimal text ∧ literal = text
  str : (∀ b, stored ≠ .bool b) → (∀ n, stored ≠ .int n) → (∀ literal, stored ≠ .double literal) →
    stored = .str text

/-- What `std::stod` finds behind the first dot. -/
def behindDot (text : Bytes) : Bytes :=
  (text.dropWhile isDigit).drop 1

/-- The characters of the text say what it is: a text of digits is in the range of `int`, and
one of digits and dots is a decimal literal that a `double` can hold, which is neither too large nor
too small. -/
def Unambiguous (text : Bytes) : Prop :=
  (text.all isDigit = true → decimalValue text < 2 ^ 31) ∧
    ((∀ b ∈ text, isDigit b = true ∨ b = dot) → dot ∈ text →
      IsDecimal text ∧ decimalValue (text.takeWhile isDigit) < 2 ^ 1024 - 2 ^ 970 ∧
        ¬ Underflows (text.takeWhile isDigit) (behindDot text))

/-! ## The classes of characters -/

section

variable {text : Bytes}

theorem not_isDigit_dot : isDigit dot = false := by decide

/-- The test of `find_first_not_of` for the digits and the dot. -/
theorem all_digitOrDot_iff :
    (text.all fun b => isDigit b || b == 46) = true ↔ ∀ b ∈ text, isDigit b = true ∨ b = dot := by
  simp [List.all_eq_true]

theorem digitOrDot_of_digits (h : text.all isDigit = true) :
    ∀ b ∈ text, isDigit b = true ∨ b = dot :=
  fun b hb => Or.inl (List.all_eq_true.mp h b hb)

theorem dot_notMem_of_digits (h : text.all isDigit = true) : dot ∉ text := by
  intro hmem
  have hdigit := List.all_eq_true.mp h dot hmem
  rw [not_isDigit_dot] at hdigit
  exact absurd hdigit (by simp)

theorem not_word_of_digitOrDot (h : ∀ b ∈ text, isDigit b = true ∨ b = dot) (b : Bool) :
    text ≠ if b then ascii "true" else ascii "false" := by
  rintro rfl
  have hall := all_digitOrDot_iff.mpr h
  cases b <;> exact absurd hall (by decide)

theorem isWord_iff :
    (text = ascii "true" ∨ text = ascii "false") ↔
      ∃ b : Bool, text = if b then ascii "true" else ascii "false" := by
  rw [Bool.exists_bool, or_comm]
  rfl

theorem not_isWord_of_digitOrDot (h : ∀ b ∈ text, isDigit b = true ∨ b = dot) :
    ¬ (text = ascii "true" ∨ text = ascii "false") := by
  intro hword
  obtain ⟨b, hb⟩ := isWord_iff.mp hword
  exact not_word_of_digitOrDot h b hb

theorem digits_of_dot_notMem (h : ∀ b ∈ text, isDigit b = true ∨ b = dot) (hdot : dot ∉ text) :
    text.all isDigit = true := by
  rw [List.all_eq_true]
  intro b hb
  refine (h b hb).resolve_right ?_
  rintro rfl
  exact hdot hb

end

/-! ## The first dot -/

section

variable {text : Bytes}

theorem split_dot (h : ∀ b ∈ text, isDigit b = true ∨ b = dot) (hdot : dot ∈ text) :
    text = text.takeWhile isDigit ++ dot :: behindDot text := by
  have hne : text.dropWhile isDigit ≠ [] := by
    intro hnil
    have hall : text.all isDigit = true :=
      List.all_eq_true.mpr (List.dropWhile_eq_nil_iff.mp hnil)
    exact dot_notMem_of_digits hall hdot
  obtain ⟨b, behind, hbehind⟩ := List.exists_cons_of_ne_nil hne
  have hb : b = dot := by
    have hmem : b ∈ text := (List.dropWhile_suffix _).subset (hbehind ▸ List.mem_cons_self)
    refine (h b hmem).resolve_left fun hdigit => ?_
    have hhead := List.head_dropWhile_not isDigit hne
    simp only [hbehind, List.head_cons] at hhead
    rw [hdigit] at hhead
    exact absurd hhead (by simp)
  have hdrop : behindDot text = behind := by rw [behindDot, hbehind, List.drop_one, List.tail_cons]
  calc text = text.takeWhile isDigit ++ text.dropWhile isDigit :=
        List.takeWhile_append_dropWhile.symm
    _ = text.takeWhile isDigit ++ dot :: behindDot text := by rw [hbehind, hdrop, hb]

/-- Behind the only dot of a literal there are digits, and there are some on one of its sides. -/
theorem isDecimal_iff (h : ∀ b ∈ text, isDigit b = true ∨ b = dot) (hdot : dot ∈ text) :
    IsDecimal text ↔ (behindDot text).all isDigit = true ∧
      ¬ (text.takeWhile isDigit = [] ∧ behindDot text = []) := by
  have hsplit := split_dot h hdot
  have hwhole : ∀ b ∈ text.takeWhile isDigit, isDigit b = true :=
    fun b hb => List.mem_takeWhile_imp hb
  have hbehind : ∀ b ∈ behindDot text, isDigit b = true ∨ b = dot :=
    fun b hb => h b ((List.drop_suffix _ _).subset hb |> (List.dropWhile_suffix _).subset)
  have hcount : text.count dot = (behindDot text).count dot + 1 := by
    have hnone : (text.takeWhile isDigit).count dot = 0 :=
      List.count_eq_zero.mpr (dot_notMem_of_digits (List.all_eq_true.mpr hwhole))
    conv_lhs => rw [hsplit]
    rw [List.count_append, hnone, List.count_cons_self, Nat.zero_add]
  constructor
  · intro hdecimal
    have hnone : (behindDot text).count dot = 0 := by
      have hle := hdecimal.dots
      omega
    have hdigits := digits_of_dot_notMem hbehind (List.count_eq_zero.mp hnone)
    refine ⟨hdigits, ?_⟩
    rintro ⟨hno_whole, hno_behind⟩
    obtain ⟨b, hb, hdigit⟩ := hdecimal.digit
    rw [hsplit, hno_whole, hno_behind, List.nil_append, List.mem_singleton] at hb
    rw [hb, not_isDigit_dot] at hdigit
    exact absurd hdigit (by simp)
  · rintro ⟨hdigits, hsome⟩
    have hnone : (behindDot text).count dot = 0 :=
      List.count_eq_zero.mpr (dot_notMem_of_digits hdigits)
    refine ⟨h, by omega, ?_⟩
    by_cases hno_whole : text.takeWhile isDigit = []
    · obtain ⟨b, behind, hb⟩ := List.exists_cons_of_ne_nil fun hnil => hsome ⟨hno_whole, hnil⟩
      have hmem : b ∈ behindDot text := hb ▸ List.mem_cons_self
      refine ⟨b, ?_, List.all_eq_true.mp hdigits b hmem⟩
      rw [hsplit]
      exact List.mem_append_right _ (List.mem_cons_of_mem _ hmem)
    · obtain ⟨b, whole, hb⟩ := List.exists_cons_of_ne_nil hno_whole
      have hmem : b ∈ text.takeWhile isDigit := hb ▸ List.mem_cons_self
      exact ⟨b, (List.takeWhile_prefix _).subset hmem, hwhole b hmem⟩

end

/-! ## What is stored -/

section

variable {text : Bytes}

theorem faithful_word {b : Bool} (h : text = if b then ascii "true" else ascii "false") :
    scalar text = .ok (.bool b) ∧ Faithful text (.bool b) := by
  have hdigits : text.all isDigit ≠ true := fun hall =>
    not_word_of_digitOrDot (digitOrDot_of_digits hall) b h
  refine ⟨?_, ⟨fun c => ?_, fun n => ?_, fun literal heq => ?_, fun hbool => ?_⟩⟩
  · cases b <;> (rw [h]; rfl)
  · rw [h, Value.bool.injEq]
    cases b <;> cases c <;> decide
  · exact iff_of_false (by simp) fun hint => hdigits hint.1
  · exact absurd heq (by simp)
  · exact absurd rfl (hbool b)

theorem faithful_text (hword : ∀ b : Bool, text ≠ if b then ascii "true" else ascii "false")
    (h : ¬ ∀ b ∈ text, isDigit b = true ∨ b = dot) :
    scalar text = .ok (.str text) ∧ Faithful text (.str text) := by
  have hdigits : text.all isDigit ≠ true := fun hall => h (digitOrDot_of_digits hall)
  refine ⟨?_, ⟨fun b => ?_, fun n => ?_, fun literal heq => ?_, fun _ _ _ => rfl⟩⟩
  · rw [scalar, if_neg fun hw => ?_, if_neg hdigits, if_neg fun hall => h (all_digitOrDot_iff.mp hall)]
    obtain ⟨b, hb⟩ := isWord_iff.mp hw
    exact hword b hb
  · exact iff_of_false (by simp) (hword b)
  · exact iff_of_false (by simp) fun hint => hdigits hint.1
  · exact absurd heq (by simp)

theorem scalar_of_digits (h : text.all isDigit = true) : scalar text = stoi text := by
  rw [scalar, if_neg (not_isWord_of_digitOrDot (digitOrDot_of_digits h)), if_pos h]

theorem faithful_digits_iff (h : text.all isDigit = true) :
    (∃ stored, scalar text = .ok stored ∧ Faithful text stored) ↔
      decimalValue text < 2 ^ 31 := by
  rw [scalar_of_digits h]
  unfold stoi
  split
  case isTrue hrange =>
    refine iff_of_true ⟨_, rfl, fun b => ?_, fun n => ?_, fun literal heq => ?_, ?_⟩ hrange
    · exact iff_of_false (by simp) (not_word_of_digitOrDot (digitOrDot_of_digits h) b)
    · rw [Value.int.injEq]
      constructor
      · rintro rfl
        exact ⟨h, rfl, hrange⟩
      · exact fun hint => hint.2.1.symm
    · exact absurd heq (by simp)
    · exact fun _ hint _ => absurd rfl (hint _)
  case isFalse hrange =>
    exact iff_of_false (by simp) hrange

theorem scalar_of_dot (h : ∀ b ∈ text, isDigit b = true ∨ b = dot) (hdot : dot ∈ text) :
    scalar text = stod text := by
  rw [scalar, if_neg (not_isWord_of_digitOrDot h),
    if_neg fun hall => dot_notMem_of_digits hall hdot, if_pos (all_digitOrDot_iff.mpr h)]

theorem faithful_dot_iff (h : ∀ b ∈ text, isDigit b = true ∨ b = dot) (hdot : dot ∈ text) :
    (∃ stored, scalar text = .ok stored ∧ Faithful text stored) ↔
      IsDecimal text ∧ decimalValue (text.takeWhile isDigit) < 2 ^ 1024 - 2 ^ 970 ∧
        ¬ Underflows (text.takeWhile isDigit) (behindDot text) := by
  have hdigits : text.all isDigit ≠ true := fun hall => dot_notMem_of_digits hall hdot
  have hstod : stod text =
      if text.takeWhile isDigit = [] ∧ (behindDot text).takeWhile isDigit = [] then
        .error (.throws (ascii "stod"))
      else if 2 ^ 1024 - 2 ^ 970 ≤ decimalValue (text.takeWhile isDigit) ∨
          Underflows (text.takeWhile isDigit) ((behindDot text).takeWhile isDigit) then
        .error (.throws (ascii "stod"))
      else .ok (.double (text.takeWhile isDigit ++ 46 :: (behindDot text).takeWhile isDigit)) :=
    rfl
  -- the longest prefix of a literal that is a number is the whole of it
  have hfraction : IsDecimal text → (behindDot text).takeWhile isDigit = behindDot text :=
    fun hdecimal => List.takeWhile_eq_self_iff.mpr
      (List.all_eq_true.mp ((isDecimal_iff h hdot).mp hdecimal).1)
  rw [scalar_of_dot h hdot, hstod]
  constructor
  · rintro ⟨stored, hstored, hfaithful⟩
    split at hstored
    · exact absurd hstored (by simp)
    · split at hstored
      · exact absurd hstored (by simp)
      · rename_i hrange
        obtain rfl := Except.ok.inj hstored
        have hdecimal := (hfaithful.double _ rfl).1
        obtain ⟨hlarge, hsmall⟩ := not_or.mp hrange
        rw [hfraction hdecimal] at hsmall
        exact ⟨hdecimal, not_le.mp hlarge, hsmall⟩
  · rintro ⟨hdecimal, hlarge, hsmall⟩
    obtain ⟨-, hsome⟩ := (isDecimal_iff h hdot).mp hdecimal
    rw [hfraction hdecimal, if_neg hsome, if_neg (not_or.mpr ⟨not_le.mpr hlarge, hsmall⟩),
      ← split_dot h hdot]
    refine ⟨_, rfl, fun b => ?_, fun n => ?_, fun literal heq => ?_, ?_⟩
    · exact iff_of_false (by simp) (not_word_of_digitOrDot h b)
    · exact iff_of_false (by simp) fun hint => hdigits hint.1
    · exact ⟨hdecimal, (Value.double.inj heq).symm⟩
    · exact fun _ _ hdouble => absurd rfl (hdouble _)

/-- The classifier and the converters agree on exactly the unambiguous texts. -/
theorem faithful_scalar_iff (text : Bytes) :
    (∃ stored, scalar text = .ok stored ∧ Faithful text stored) ↔ Unambiguous text := by
  unfold Unambiguous
  by_cases hbytes : ∀ b ∈ text, isDigit b = true ∨ b = dot
  · by_cases hdot : dot ∈ text
    · rw [faithful_dot_iff hbytes hdot]
      have hdigits : text.all isDigit ≠ true := fun hall => dot_notMem_of_digits hall hdot
      exact ⟨fun hboth => ⟨fun hall => absurd hall hdigits, fun _ _ => hboth⟩,
        fun hboth => hboth.2 hbytes hdot⟩
    · have hdigits := digits_of_dot_notMem hbytes hdot
      rw [faithful_digits_iff hdigits]
      exact ⟨fun hrange => ⟨fun _ => hrange, fun _ hmem => absurd hmem hdot⟩,
        fun hboth => hboth.1 hdigits⟩
  · have hdigits : text.all isDigit ≠ true := fun hall => hbytes (digitOrDot_of_digits hall)
    refine iff_of_true ?_ ⟨fun hall => absurd hall hdigits, fun hall => absurd hall hbytes⟩
    by_cases hword : ∃ b : Bool, text = if b then ascii "true" else ascii "false"
    · obtain ⟨b, hb⟩ := hword
      exact ⟨_, faithful_word hb⟩
    · exact ⟨_, faithful_text (not_exists.mp hword) hbytes⟩

end

/-! ## Lines -/

theorem receiver_start (indent : ℕ) : receiver indent start = some ⟨[], true⟩ := by
  rw [receiver, State.dedent_of_le (Nat.zero_le _)]
  rfl

theorem resolve_start : Entries.resolve [] start.data = some [] := rfl

/-- A line `key: value` where the parser stores in a map that does not have the key. -/
structure ScalarLine (v : Text) where
  raw : Bytes
  rest : List Bytes
  key : Bytes
  state : State
  path : List Step
  inner : Entries
  line : IsKeyLine raw ∧ splitColon (trim raw) = some (key, v.bytes)
  top : receiver (countIndent raw) state = some ⟨path, true⟩
  resolves : Entries.resolve path state.data = some inner
  fresh : Entries.lookup key inner = none

namespace ScalarLine

variable {v : Text}

/-- The line does not throw, and what it stores has the type of the text. -/
def Typed (l : ScalarLine v) : Prop :=
  ∃ next stored, parseLine l.rest l.raw l.state = .ok next ∧
    valueAt l.path l.key next.data = some stored ∧ Faithful v.bytes stored

theorem parse_eq (l : ScalarLine v) (hscalar : ¬ IsInline v.bytes) :
    parseLine l.rest l.raw l.state = (scalar v.bytes).map fun stored =>
      State.atIndent (countIndent l.raw) { l.state.dedent (countIndent l.raw) with
        data := Entries.update l.path (Entries.emplace l.key stored) l.state.data } := by
  obtain ⟨⟨hignored, hitem⟩, hsplit⟩ := l.line
  obtain ⟨below, hstack⟩ := List.head?_eq_some_iff.mp l.top
  rw [parseLine_of_key hignored hitem, keyLine, hsplit]
  simp only [v.nonempty, hscalar, if_false]
  cases hstored : scalar v.bytes with
  | error failure => rfl
  | ok stored =>
      show ((l.state.dedent (countIndent l.raw)).emplace l.key stored).map _ = _
      rw [emplace_of_stack hstack, State.data_dedent]
      rfl

theorem valueAt_emplace (l : ScalarLine v) (stored : Value) :
    valueAt l.path l.key (Entries.update l.path (Entries.emplace l.key stored) l.state.data) =
      some stored := by
  rw [valueAt, Entries.resolve_update_self l.resolves, Option.bind_some,
    Entries.emplace_of_lookup_eq_none l.fresh, Entries.lookup_concat_self l.fresh]

theorem typed_iff (l : ScalarLine v) (hscalar : ¬ IsInline v.bytes) :
    l.Typed ↔ ∃ stored, scalar v.bytes = .ok stored ∧ Faithful v.bytes stored := by
  constructor
  · rintro ⟨next, stored, hparse, hvalue, hfaithful⟩
    rw [l.parse_eq hscalar] at hparse
    obtain ⟨found, hfound, rfl⟩ := exists_ok_of_map hparse
    have hsame : found = stored := Option.some.inj ((l.valueAt_emplace found).symm.trans hvalue)
    exact ⟨found, hfound, hsame ▸ hfaithful⟩
  · rintro ⟨stored, hstored, hfaithful⟩
    have hparse := l.parse_eq hscalar
    rw [hstored] at hparse
    exact ⟨_, stored, hparse, l.valueAt_emplace stored, hfaithful⟩

/-- The key of the lines that are written down here. -/
def someKey : Key where
  name := ascii "host"

/-- Any text can stand on the first line of a file. -/
def first (v : Text) : ScalarLine v where
  raw := pairLine 0 someKey v
  rest := []
  key := someKey.name
  state := start
  path := []
  inner := []
  line := by
    have htext := trim_spaces (n := 0) (trimmed_pair someKey v)
    rw [pairLine, IsKeyLine, htext]
    exact ⟨⟨not_ignored_name someKey _, not_isItem_name someKey _⟩, splitColon_pair someKey v⟩
  top := receiver_start _
  resolves := resolve_start
  fresh := rfl

end ScalarLine

/-- **Scalar types.**  Wherever a text stands as the value of an ordinary line, it is stored
with the type it has, without an exception, if and only if its characters say what it is. -/
theorem scalar_typing_iff (v : Text) (hscalar : ¬ IsInline v.bytes) :
    (∀ l : ScalarLine v, l.Typed) ↔ Unambiguous v.bytes := by
  rw [← faithful_scalar_iff]
  constructor
  · intro htyped
    exact ((ScalarLine.first v).typed_iff hscalar).mp (htyped (.first v))
  · exact fun hstored l => (l.typed_iff hscalar).mpr hstored

/-- A port number. -/
def portText : Text := ⟨ascii "8080", by decide, by decide, by decide⟩

theorem scalar_typing_port : ¬ IsInline portText.bytes ∧ (ScalarLine.first portText).Typed := by
  have hrange : decimalValue (ascii "8080") < 2 ^ 31 := by decide +kernel
  have hdot : dot ∉ ascii "8080" := by decide
  have hscalar : ¬ IsInline portText.bytes := by decide
  refine ⟨hscalar, (scalar_typing_iff portText hscalar).mpr ?_ (.first portText)⟩
  exact ⟨fun _ => hrange, fun _ hmem => absurd hmem hdot⟩

/-- An address is cut to the number in front of its second dot. -/
theorem address_is_cut :
    ¬ ∀ v : Text, ¬ IsInline v.bytes → ∀ l : ScalarLine v, l.Typed := by
  intro h
  have htyped := h ⟨ascii "127.0.0.1", by decide, by decide, by decide⟩ (by decide) (.first _)
  have hclear := (faithful_scalar_iff _).mp ((ScalarLine.typed_iff _ (by decide)).mp htyped)
  have hall : ((ascii "127.0.0.1").all fun b => isDigit b || b == dot) = true := by decide
  have hbytes : ∀ b ∈ ascii "127.0.0.1", isDigit b = true ∨ b = dot := by
    intro b hb
    simpa using List.all_eq_true.mp hall b hb
  have hdot : dot ∈ ascii "127.0.0.1" := by decide
  exact absurd (hclear.2 hbytes hdot).1.dots (by decide)

end Sok.Yaml
