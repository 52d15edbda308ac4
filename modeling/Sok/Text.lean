import Mathlib.Data.List.DropRight
import Sok.Foundation.Search

/-!
# Byte strings and the stream operations of the handlers

A `std::string` is a list of bytes.  The handlers read a request through a
`std::istringstream`, whose state is modelled by the bytes not yet extracted:
`nextToken` is `stream >> word` and `getline` is `std::getline`.  A stream at
its end fails both of them, which is the same as having nothing left.
-/

namespace Sok

/-- The contents of a `std::string`. -/
abbrev Bytes := List UInt8

/-- The bytes of a string literal of the source. -/
def ascii (s : String) : Bytes :=
  s.toList.map fun c => UInt8.ofNat c.toNat

/-- The line feed that ends a line for `std::getline`. -/
abbrev lf : UInt8 := 10

/-- The carriage return before it. -/
abbrev cr : UInt8 := 13

def crlf : Bytes := [cr, lf]

/-- The blank line that ends a header block. -/
def headerEnd : Bytes := [cr, lf, cr, lf]

/-! ## Character classes -/

/-- `isspace` in the C locale, which `operator>>` skips and stops at. -/
def isSpace (b : UInt8) : Bool :=
  b == 32 || (9 ≤ b && b ≤ 13)

/-- The set `" \t"`. -/
def isBlank (b : UInt8) : Bool :=
  b == 32 || b == 9

/-- The set `" \t\r"`. -/
def isBlankCr (b : UInt8) : Bool :=
  b == 32 || b == 9 || b == 13

/-! ## Extraction -/

/-- `stream >> word`: skip white space, then read up to the next white space.
The second component is what stays in the stream. -/
def nextToken (s : Bytes) : Bytes × Bytes :=
  let s := s.dropWhile isSpace
  (s.takeWhile fun b => !isSpace b, s.dropWhile fun b => !isSpace b)

/-- `std::getline(stream, line)`: the line without its line feed and what stays
in the stream, or `none` at the end of the stream. -/
def getline (s : Bytes) : Option (Bytes × Bytes) :=
  if s = [] then none
  else some (s.takeWhile (· != lf), (s.dropWhile (· != lf)).drop 1)

/-- The results of calling `std::getline` until it fails. -/
def getlines : Bytes → List (Bytes × Bytes)
  | [] => []
  | b :: s =>
      if b = lf then ([], s) :: getlines s
      else match getlines s with
        | [] => [([b], [])]
        | (line, rest) :: more => (b :: line, rest) :: more

theorem getlines_eq_nil {s : Bytes} (h : getlines s = []) : s = [] := by
  cases s with
  | nil => rfl
  | cons b s =>
      simp only [getlines] at h
      split at h
      · exact absurd h (by simp)
      · split at h <;> exact absurd h (by simp)

/-- `getlines` lists the result of `getline` and then those on what it leaves. -/
theorem getlines_eq (s : Bytes) :
    getlines s = match getline s with
      | none => []
      | some (line, rest) => (line, rest) :: getlines rest := by
  induction s with
  | nil => rfl
  | cons b s ih =>
      by_cases hb : b = lf
      · simp [getlines, getline, hb]
      · have hb' : (b != lf) = true := by simpa using hb
        simp only [getlines, if_neg hb, getline, reduceCtorEq, if_false,
          List.takeWhile_cons_of_pos (p := (· != lf)) hb',
          List.dropWhile_cons_of_pos (p := (· != lf)) hb']
        cases s with
        | nil => simp [getlines]
        | cons c s =>
            rw [ih]
            simp [getline]

theorem getline_append {line rest : Bytes} (h : lf ∉ line) :
    getline (line ++ lf :: rest) = some (line, rest) := by
  have hline : ∀ b ∈ line, (b != lf) = true := fun b hb => by
    simpa using fun heq : b = lf => h (heq ▸ hb)
  rw [getline, if_neg (by simp), List.takeWhile_append_of_pos hline,
    List.dropWhile_append_of_pos hline]
  simp

/-- A line that is terminated is the first result of `getlines`. -/
theorem getlines_append {line : Bytes} (rest : Bytes) (h : lf ∉ line) :
    getlines (line ++ lf :: rest) = (line, rest) :: getlines rest := by
  rw [getlines_eq, getline_append h]

/-- Behind text that ends with a line feed new lines begin. -/
theorem getlines_append_of_lf {s : Bytes} (h : s.getLast? = some lf) (more : Bytes) :
    getlines (s ++ more) =
      (getlines s).map (fun line => (line.1, line.2 ++ more)) ++ getlines more := by
  induction s with
  | nil => exact absurd h (by simp)
  | cons b s ih =>
      cases s with
      | nil =>
          obtain rfl : b = lf := by simpa using h
          simp [getlines]
      | cons c s =>
          have hrest := ih (by simpa using h)
          have hne : getlines (c :: s) ≠ [] := fun hnil => absurd (getlines_eq_nil hnil) (by simp)
          obtain ⟨⟨line, rest⟩, lines, hlines⟩ := List.exists_cons_of_ne_nil hne
          rw [List.cons_append, getlines, hrest]
          by_cases hb : b = lf
          · simp [getlines, hb]
          · have hfirst : getlines (b :: c :: s) = (b :: line, rest) :: lines := by
              rw [getlines, if_neg hb, hlines]
            rw [hfirst, if_neg hb, hlines]
            rfl

theorem nextToken_append {token : Bytes} (rest : Bytes) {space : UInt8} (hne : token ≠ [])
    (htoken : ∀ b ∈ token, isSpace b = false) (hspace : isSpace space = true) :
    nextToken (token ++ space :: rest) = (token, space :: rest) := by
  have hskip : (token ++ space :: rest).dropWhile isSpace = token ++ space :: rest := by
    obtain ⟨b, t, rfl⟩ := List.exists_cons_of_ne_nil hne
    simp [htoken b (by simp)]
  have hpos : ∀ b ∈ token, (!isSpace b) = true := fun b hb => by simp [htoken b hb]
  simp only [nextToken, hskip, List.takeWhile_append_of_pos hpos,
    List.dropWhile_append_of_pos hpos]
  simp [hspace]

theorem nextToken_split (s : Bytes) :
    s = s.takeWhile isSpace ++ (nextToken s).1 ++ (nextToken s).2 := by
  simp only [nextToken, List.append_assoc, List.takeWhile_append_dropWhile]

/-- A token that is followed by white space stays when more follows. -/
theorem nextToken_append_right {s : Bytes} (h : (nextToken s).2 ≠ []) (more : Bytes) :
    nextToken (s ++ more) = ((nextToken s).1, (nextToken s).2 ++ more) := by
  have hrest : (s.dropWhile isSpace).dropWhile (fun b => !isSpace b) ≠ [] := h
  have hfirst : s.dropWhile isSpace ≠ [] := by
    intro hnil
    rw [hnil] at hrest
    exact hrest rfl
  have hskip : (s ++ more).dropWhile isSpace = s.dropWhile isSpace ++ more := by
    rw [List.dropWhile_append, if_neg (by simpa using hfirst)]
  simp only [nextToken, hskip]
  rw [List.dropWhile_append, if_neg (by simpa using hrest)]
  congr 1
  rw [List.takeWhile_append, if_neg]
  -- the token would reach to the end of `s`
  intro hall
  apply hrest
  have hsplit := congrArg List.length
    (List.takeWhile_append_dropWhile (p := fun b => !isSpace b) (l := s.dropWhile isSpace))
  rw [List.length_append] at hsplit
  exact List.eq_nil_of_length_eq_zero (by omega)

theorem isSpace_of_mem_nextToken {s : Bytes} {b : UInt8} (h : b ∈ (nextToken s).1) :
    isSpace b = false := by
  have hb := List.mem_takeWhile_imp (p := fun b => !isSpace b) h
  simpa using hb

/-! ## Decimal numbers -/

/-- `stream << n` for an unsigned number. -/
def decimal (n : ℕ) : Bytes :=
  (Nat.toDigits 10 n).map fun c => UInt8.ofNat c.toNat

/-- The number a string of decimal digits denotes. -/
def decimalValue (digits : Bytes) : ℕ :=
  Nat.ofDigitChars 10 (digits.map fun b => Char.ofNat b.toNat) 0

theorem mem_decimal {n : ℕ} {b : UInt8} (h : b ∈ decimal n) : 48 ≤ b ∧ b ≤ 57 := by
  obtain ⟨c, hc, rfl⟩ := List.mem_map.mp h
  have hdigit := Nat.isDigit_of_mem_toDigits (by omega) (by omega) hc
  simp only [Char.isDigit, Bool.and_eq_true, decide_eq_true_eq] at hdigit
  obtain ⟨hlow, hhigh⟩ := hdigit
  have hlow' : 48 ≤ c.toNat := hlow
  have hhigh' : c.toNat ≤ 57 := hhigh
  have hsize : c.toNat < UInt8.size := hhigh'.trans_lt (by decide)
  rw [UInt8.le_iff_toNat_le, UInt8.le_iff_toNat_le, UInt8.toNat_ofNat_of_lt' hsize]
  exact ⟨hlow', hhigh'⟩

@[simp] theorem decimalValue_decimal (n : ℕ) : decimalValue (decimal n) = n := by
  have hback : (decimal n).map (fun b => Char.ofNat b.toNat) = Nat.toDigits 10 n := by
    rw [decimal, List.map_map]
    refine (List.map_congr_left fun c hc => ?_).trans (List.map_id _)
    have hdigit := Nat.isDigit_of_mem_toDigits (by omega) (by omega) hc
    simp only [Char.isDigit, Bool.and_eq_true, decide_eq_true_eq] at hdigit
    have hhigh : c.toNat ≤ 57 := hdigit.2
    have hsize : c.toNat < UInt8.size := hhigh.trans_lt (by decide)
    rw [Function.comp_apply, UInt8.toNat_ofNat_of_lt' hsize, Char.ofNat_toNat]
    rfl
  rw [decimalValue, hback, Nat.ofDigitChars_ten_toDigits]

end Sok
