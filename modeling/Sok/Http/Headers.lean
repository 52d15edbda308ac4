import Mathlib.Logic.Function.Basic
import Sok.Text

/-!
# Header fields

`parseHeaders` is the `parse_headers` of `http.hpp`; `https.hpp` has the same
function once more.  Both requests and responses are read by it: the handlers
read a request's header block, and a client that reads a response's header block
the same way finds its fields.

`Field` is one well-formed header line.  Its invariants are what makes the line
readable: no line feed anywhere, no colon in the name, and nothing that trimming
would remove at either end of the name or the value.  `parseHeaders_render` says
that reading a rendered header block gives the rendered fields and leaves the
stream exactly behind the blank line.
-/

namespace Sok

/-- A `std::map<std::string, std::string>`, by what `find` returns. -/
abbrev Headers := Bytes → Option Bytes

/-- The colon between a name and a value. -/
abbrev colon : UInt8 := 58

namespace HttpUtil

/-- `std::string::npos`, the largest `size_t`. -/
def npos : ℕ := 0xFFFFFFFFFFFFFFFF

/-- `find_first_not_of`; of a position `none` is `npos`. -/
def findFirstNotOf (p : UInt8 → Bool) (s : Bytes) : Option ℕ :=
  s.findIdx? (!p ·)

/-- `find_last_not_of`. -/
def findLastNotOf (p : UInt8 → Bool) (s : Bytes) : Option ℕ :=
  (s.reverse.findIdx? (!p ·)).map fun i => s.length - 1 - i

/-- `+ 1` on a position; `npos + 1` is `0`. -/
def behind : Option ℕ → ℕ
  | some i => i + 1
  | none => 0

/-- `erase(pos, count)`, which throws when the position is behind the end; `npos` characters are
all there are. -/
def erase (pos : ℕ) (count : Option ℕ) (s : Bytes) : Option Bytes :=
  if s.length < pos then none
  else some (s.take pos ++ count.elim [] fun n => s.drop (pos + n))

/-- The two `erase` calls on a key or a value. -/
def eraseBlanks (s : Bytes) : Option Bytes := do
  let s ← erase 0 (findFirstNotOf isBlank s) s
  erase (behind (findLastNotOf isBlankCr s)) none s

/-- What they come to (`eraseBlanks_eq`): leading `" \t"` and trailing `" \t\r"` are removed, and
a string of such bytes becomes empty. -/
def trimField (s : Bytes) : Bytes :=
  (s.dropWhile isBlank).rdropWhile isBlankCr

/-- The body of the loop of `parse_headers` for one line. -/
def addHeader (headers : Headers) (line : Bytes) : Headers :=
  match Search.find [colon] line with
  | none => headers
  | some pos =>
      match eraseBlanks (line.take pos), eraseBlanks (line.drop (pos + 1)) with
      | some key, some value => Function.update headers key (some value)
      -- `erase` throws: it does not (`eraseBlanks_eq`)
      | _, _ => headers

/-- The loop of `parse_headers` over the lines that `getline` returns. -/
def headerLoop (headers : Headers) : List (Bytes × Bytes) → Headers × Bytes
  | [] => (headers, [])
  | (line, rest) :: more =>
      if line = [cr] then (headers, rest) else headerLoop (addHeader headers line) more

/-- `parse_headers`: the map and what is left in the stream. -/
def parseHeaders (s : Bytes) : Headers × Bytes :=
  headerLoop (fun _ => none) (getlines s)

end HttpUtil

namespace HttpsUtil

/-- `parse_headers` of `https.hpp`, the same text as that of `http.hpp`. -/
def parseHeaders (s : Bytes) : Headers × Bytes :=
  HttpUtil.parseHeaders s

end HttpsUtil

open HttpUtil

/-! ## Trimming -/

namespace HttpUtil

/-- The addition is that of a `size_t`, as no position in a string is `npos`. -/
theorem behind_eq_mod {pos : Option ℕ} (h : ∀ i ∈ pos, i < npos) :
    behind pos = (pos.getD npos + 1) % (npos + 1) := by
  cases pos with
  | none => exact (Nat.mod_self _).symm
  | some i => exact (Nat.mod_eq_of_lt (Nat.succ_lt_succ (h i rfl))).symm

theorem erase_front (p : UInt8 → Bool) (s : Bytes) :
    erase 0 (findFirstNotOf p s) s = some (s.dropWhile p) := by
  rw [erase, if_neg (Nat.not_lt_zero _), findFirstNotOf, List.take_zero, List.nil_append]
  cases hfind : s.findIdx? (!p ·) with
  | none =>
      have hall : ∀ b ∈ s, p b = true := by simpa using List.findIdx?_eq_none_iff.mp hfind
      rw [List.dropWhile_eq_nil_iff.mpr hall]
      rfl
  | some i =>
      obtain ⟨-, hidx⟩ := List.findIdx?_eq_some_iff_findIdx_eq.mp hfind
      rw [List.dropWhile_eq_drop_findIdx_not, hidx, Option.elim_some, Nat.zero_add]

/-- Of such a string nothing is left, as `npos + 1` is its beginning. -/
theorem erase_back (p : UInt8 → Bool) (s : Bytes) :
    erase (behind (findLastNotOf p s)) none s = some (s.rdropWhile p) := by
  rw [findLastNotOf]
  cases hfind : s.reverse.findIdx? (!p ·) with
  | none =>
      have hall : ∀ b ∈ s, p b = true := by simpa using List.findIdx?_eq_none_iff.mp hfind
      rw [List.rdropWhile_eq_nil_iff.mpr hall]
      simp [erase, behind]
  | some i =>
      obtain ⟨hlt, hidx⟩ := List.findIdx?_eq_some_iff_findIdx_eq.mp hfind
      rw [List.length_reverse] at hlt
      have hpos : behind (some (s.length - 1 - i)) = s.length - i := by
        rw [behind]
        omega
      have hrest : s.rdropWhile p = s.take (s.length - i) := by
        rw [List.rdropWhile, List.dropWhile_eq_drop_findIdx_not, hidx, List.reverse_drop,
          List.reverse_reverse, List.length_reverse]
      rw [Option.map_some, hpos, hrest, erase, if_neg (by omega)]
      simp

/-- No position is behind the end, so nothing is thrown. -/
theorem eraseBlanks_eq (s : Bytes) : eraseBlanks s = some (trimField s) := by
  rw [eraseBlanks, erase_front isBlank s]
  exact erase_back isBlankCr _

/-- What the body of the loop does with a line that has a colon. -/
theorem addHeader_of_find {headers : Headers} {line : Bytes} {pos : ℕ}
    (h : Search.find [colon] line = some pos) :
    addHeader headers line = Function.update headers (trimField (line.take pos))
      (some (trimField (line.drop (pos + 1)))) := by
  simp only [addHeader, h, eraseBlanks_eq]

end HttpUtil

/-- Neither end is a space, a tab or a carriage return. -/
def Trimmed (s : Bytes) : Prop :=
  (∀ b ∈ s.head?, isBlankCr b = false) ∧ ∀ b ∈ s.getLast?, isBlankCr b = false

-- the ends are looked at, not every byte there is
instance (s : Bytes) : Decidable (Trimmed s) :=
  decidable_of_iff ((s.head?.all (!isBlankCr ·) && s.getLast?.all (!isBlankCr ·)) = true) (by
    simp only [Trimmed, Bool.and_eq_true, Option.all_eq_true, Bool.not_eq_true', Option.mem_def])

theorem isBlankCr_of_isBlank {b : UInt8} (h : isBlank b = true) : isBlankCr b = true := by
  simp only [isBlank, isBlankCr, Bool.or_eq_true] at h ⊢
  exact Or.inl h

theorem rdropWhile_append_of_pos {α : Type*} {p : α → Bool} (s : List α) {t : List α}
    (h : ∀ a ∈ t, p a = true) : (s ++ t).rdropWhile p = s.rdropWhile p := by
  have hrev : ∀ a ∈ t.reverse, p a = true := fun a ha => h a (List.mem_reverse.mp ha)
  rw [List.rdropWhile, List.reverse_append, List.dropWhile_append_of_pos hrev, List.rdropWhile]

/-- Padding around a trimmed string is what trimming removes. -/
theorem trimField_pad {before value after : Bytes} (hbefore : ∀ b ∈ before, isBlank b = true)
    (hafter : ∀ b ∈ after, isBlankCr b = true) (hvalue : Trimmed value) :
    trimField (before ++ value ++ after) = value := by
  rw [trimField, List.append_assoc, List.dropWhile_append_of_pos hbefore]
  cases value with
  | nil =>
      rw [List.nil_append, List.rdropWhile_eq_nil_iff]
      intro b hb
      exact hafter b ((List.dropWhile_sublist _).subset hb)
  | cons b value =>
      have hhead : isBlank b = false := by
        have := hvalue.1 b rfl
        by_contra hblank
        rw [Bool.not_eq_false] at hblank
        rw [isBlankCr_of_isBlank hblank] at this
        exact absurd this (by simp)
      rw [List.cons_append, List.dropWhile_cons_of_neg (by simp [hhead]), ← List.cons_append,
        rdropWhile_append_of_pos _ hafter, List.rdropWhile_eq_self_iff]
      intro hne hlast
      have hget := List.getLast?_eq_getLast_of_ne_nil hne
      rw [hvalue.2 _ (by rw [hget]; rfl)] at hlast
      exact absurd hlast (by simp)

/-! ## Header lines -/

/-- A well-formed header line `name ":" blanks value blanks`. -/
structure Field where
  name : Bytes
  before : Bytes
  value : Bytes
  after : Bytes
  name_trimmed : Trimmed name
  name_colon : colon ∉ name
  name_lf : lf ∉ name
  before_blank : ∀ b ∈ before, isBlank b = true
  value_trimmed : Trimmed value
  value_lf : lf ∉ value
  after_blank : ∀ b ∈ after, isBlank b = true

namespace Field

/-- The line as `getline` returns it: without the line feed. -/
def line (field : Field) : Bytes :=
  field.name ++ colon :: (field.before ++ field.value ++ (field.after ++ [cr]))

/-- The line as it is sent. -/
def render (field : Field) : Bytes :=
  field.line ++ [lf]

theorem lf_notMem_of_blank {s : Bytes} (h : ∀ b ∈ s, isBlank b = true) : lf ∉ s :=
  fun hmem => absurd (h lf hmem) (by decide)

theorem lf_notMem_line (field : Field) : lf ∉ field.line := by
  have hbefore := lf_notMem_of_blank field.before_blank
  have hafter := lf_notMem_of_blank field.after_blank
  simp only [line, List.mem_append, List.mem_cons, field.name_lf, field.value_lf, hbefore, hafter]
  decide

theorem line_ne_cr (field : Field) : field.line ≠ [cr] := by
  intro h
  have hcolon : colon ∈ field.line := by simp [line]
  rw [h] at hcolon
  exact absurd hcolon (by decide)

theorem find_colon (field : Field) : Search.find [colon] field.line = some field.name.length :=
  Search.find_singleton_append _ field.name_colon

/-- One rendered line adds its field to the map. -/
theorem addHeader_line (headers : Headers) (field : Field) :
    addHeader headers field.line = Function.update headers field.name (some field.value) := by
  have hname : trimField (field.line.take field.name.length) = field.name := by
    have hpad : trimField ([] ++ field.name ++ []) = field.name :=
      trimField_pad (by simp) (by simp) field.name_trimmed
    simpa [line] using hpad
  have hvalue : trimField (field.line.drop (field.name.length + 1)) = field.value := by
    have hafter : ∀ b ∈ field.after ++ [cr], isBlankCr b = true := by
      intro b hb
      rcases List.mem_append.mp hb with hb | hb
      · exact isBlankCr_of_isBlank (field.after_blank b hb)
      · rw [List.mem_singleton.mp hb]
        rfl
    have hpad := trimField_pad field.before_blank hafter field.value_trimmed
    have hdrop : field.line.drop (field.name.length + 1) =
        field.before ++ field.value ++ (field.after ++ [cr]) := by
      rw [line, List.drop_append, List.drop_eq_nil_of_le (by omega)]
      simp
    rw [hdrop, hpad]
  rw [addHeader_of_find field.find_colon, hname, hvalue]

end Field

/-- The map that sends each name to the value of its last occurrence. -/
def fieldMap (headers : Headers) (fields : List Field) : Headers :=
  fields.foldl (fun headers field => Function.update headers field.name (some field.value)) headers

/-- The value of the last field with the name. -/
def lastValue (fields : List Field) : Headers := fun name =>
  ((fields.filter (·.name == name)).getLast?).map Field.value

theorem fieldMap_apply (headers : Headers) (fields : List Field) (name : Bytes) :
    fieldMap headers fields name = (lastValue fields name).or (headers name) := by
  induction fields generalizing headers with
  | nil => rfl
  | cons field fields ih =>
      have hcons : fieldMap headers (field :: fields) =
          fieldMap (Function.update headers field.name (some field.value)) fields := rfl
      rw [hcons, ih]
      by_cases hname : field.name = name
      · subst hname
        simp only [lastValue, List.filter_cons, beq_self_eq_true, if_true, List.getLast?_cons,
          Function.update_self]
        cases (fields.filter (·.name == field.name)).getLast? <;> rfl
      · have hbeq : (field.name == name) = false := by simpa using hname
        simp only [lastValue, List.filter_cons, hbeq, Bool.false_eq_true, if_false,
          Function.update_of_ne (Ne.symm hname)]

theorem fieldMap_eq_lastValue (fields : List Field) :
    fieldMap (fun _ => none) fields = lastValue fields := by
  funext name
  rw [fieldMap_apply, Option.or_none]

/-! ## Header blocks -/

/-- A line of a header block. -/
inductive HeaderLine
  | field (field : Field)
  /-- A line without a colon, which is not the one that ends the block. -/
  | other (text : Bytes) (no_colon : colon ∉ text) (no_lf : lf ∉ text) (ne_cr : text ≠ [cr])

namespace HeaderLine

/-- The line as `getline` returns it. -/
def line : HeaderLine → Bytes
  | .field f => f.line
  | .other text _ _ _ => text

/-- The line as it is sent. -/
def render (header : HeaderLine) : Bytes :=
  header.line ++ [lf]

def field? : HeaderLine → Option Field
  | .field f => some f
  | .other _ _ _ _ => none

theorem lf_notMem_line (header : HeaderLine) : lf ∉ header.line := by
  cases header with
  | field field => exact field.lf_notMem_line
  | other text no_colon no_lf ne_cr => exact no_lf

theorem line_ne_cr (header : HeaderLine) : header.line ≠ [cr] := by
  cases header with
  | field field => exact field.line_ne_cr
  | other text no_colon no_lf ne_cr => exact ne_cr

/-- A line without a colon is skipped. -/
theorem addHeader_line (headers : Headers) (header : HeaderLine) :
    addHeader headers header.line = fieldMap headers header.field?.toList := by
  cases header with
  | field field => exact field.addHeader_line headers
  | other text no_colon no_lf ne_cr =>
      show addHeader headers text = headers
      have hnone : Search.find [colon] text = none := by
        rw [Search.find_eq_none_iff, List.singleton_infix_iff]
        exact no_colon
      rw [addHeader, hnone]

end HeaderLine

theorem headerLoop_lines (headers : Headers) (lines : List HeaderLine) (rest : Bytes) :
    headerLoop headers (getlines (lines.flatMap HeaderLine.render ++ crlf ++ rest)) =
      (fieldMap headers (lines.filterMap HeaderLine.field?), rest) := by
  induction lines generalizing headers with
  | nil =>
      rw [show List.flatMap HeaderLine.render [] ++ crlf ++ rest = [cr] ++ lf :: rest from rfl,
        getlines_append rest (by decide)]
      simp [headerLoop, fieldMap]
  | cons header lines ih =>
      rw [show (header :: lines).flatMap HeaderLine.render ++ crlf ++ rest =
          header.line ++ lf :: (lines.flatMap HeaderLine.render ++ crlf ++ rest) by
            simp [HeaderLine.render, List.append_assoc],
        getlines_append _ header.lf_notMem_line, headerLoop, if_neg header.line_ne_cr,
        header.addHeader_line, ih]
      cases header <;> rfl

theorem headerLoop_render (fields : List Field) (headers : Headers) (rest : Bytes) :
    headerLoop headers (getlines (fields.flatMap Field.render ++ crlf ++ rest)) =
      (fieldMap headers fields, rest) := by
  have hlines := headerLoop_lines headers (fields.map .field) rest
  rw [List.flatMap_map, List.filterMap_map] at hlines
  rw [show (fun field => HeaderLine.render (.field field)) = Field.render from rfl] at hlines
  rw [hlines, show HeaderLine.field? ∘ HeaderLine.field = some from rfl, List.filterMap_some]

/-- Reading a rendered header block gives its fields and stops behind the blank line. -/
theorem parseHeaders_render (fields : List Field) (rest : Bytes) :
    parseHeaders (fields.flatMap Field.render ++ crlf ++ rest) =
      (fieldMap (fun _ => none) fields, rest) :=
  headerLoop_render fields _ rest

/-- Both handlers read back the fields of a header block, whatever the padding, and skip the other
lines. -/
theorem parseHeaders_lines (lines : List HeaderLine) (rest : Bytes) :
    HttpUtil.parseHeaders (lines.flatMap HeaderLine.render ++ crlf ++ rest) =
        (lastValue (lines.filterMap HeaderLine.field?), rest) ∧
      HttpsUtil.parseHeaders (lines.flatMap HeaderLine.render ++ crlf ++ rest) =
        (lastValue (lines.filterMap HeaderLine.field?), rest) := by
  rw [HttpsUtil.parseHeaders, HttpUtil.parseHeaders, headerLoop_lines, fieldMap_eq_lastValue]
  exact ⟨rfl, rfl⟩

/-- What follows the blank line does not change the fields. -/
theorem headerLoop_append (headers : Headers) {lines : List (Bytes × Bytes)}
    (h : [cr] ∈ lines.map Prod.fst) (more : Bytes) (tail : List (Bytes × Bytes)) :
    (headerLoop headers
        (lines.map (fun line => (line.1, line.2 ++ more)) ++ tail)).1 =
      (headerLoop headers lines).1 := by
  induction lines generalizing headers with
  | nil => exact absurd h (by simp)
  | cons line lines ih =>
      obtain ⟨text, rest⟩ := line
      simp only [List.map_cons, List.cons_append, headerLoop]
      by_cases hcr : text = [cr]
      · simp [hcr]
      · rw [if_neg hcr, if_neg hcr]
        refine ih _ ?_
        rw [List.map_cons, List.mem_cons] at h
        exact h.resolve_left fun heq => hcr heq.symm

end Sok
