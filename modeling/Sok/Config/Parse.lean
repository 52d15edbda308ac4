import Mathlib.Algebra.Group.Nat.Defs
import Sok.Config.Places

/-!
# parseFile

`YamlReader::parseFile` line by line.  The parser keeps a stack of pointers to the maps
that are open, the indentation of the last line, and the block lists that are open, each
with the indentation of its items.

A pointer is no longer valid when an assignment has replaced the value it points into, or
when it points to an item of a list that has grown, since the vector may then have moved its
maps; what the entries of a map hold stays where it is.  Using such a pointer is undefined.
An exception leaves the constructor with its text.
-/

namespace Sok.Yaml

/-! ## Lines -/

/-- The set `" \t\n\r"` of `trim`. -/
def isBlank (b : UInt8) : Bool :=
  b == 32 || b == 9 || b == 10 || b == 13

/-- `trim`. -/
def trim (s : Bytes) : Bytes :=
  (s.dropWhile isBlank).rdropWhile isBlank

/-- `countIndent`. -/
def countIndent (line : Bytes) : ℕ :=
  (line.takeWhile (· == 32)).length

/-- A trimmed line that is empty or a comment. -/
def Ignored (line : Bytes) : Prop :=
  line = [] ∨ line.head? = some 35

instance (line : Bytes) : Decidable (Ignored line) :=
  inferInstanceAs (Decidable (_ ∨ _))

/-- A trimmed line that is an item of a list. -/
def IsItem (line : Bytes) : Prop :=
  line.head? = some 45

instance (line : Bytes) : Decidable (IsItem line) :=
  inferInstanceAs (Decidable (_ = _))

/-- The trimmed texts on the two sides of the first colon. -/
def splitColon (line : Bytes) : Option (Bytes × Bytes) :=
  (Search.find [58] line).map fun pos => (trim (line.take pos), trim (line.drop (pos + 1)))

/-- The lookahead: whether the next line that is not ignored is an item. -/
def nextIsItem : List Bytes → Bool
  | [] => false
  | line :: rest => if Ignored (trim line) then nextIsItem rest else decide (IsItem (trim line))

/-! ## Scalars -/

/-- How `parseFile` does not come to its end. -/
inductive Failure
  | throws (message : Bytes)
  /-- An invalid pointer is used. -/
  | undefined
  deriving DecidableEq

def isDigit (b : UInt8) : Bool :=
  48 ≤ b && b ≤ 57

/-- `std::stoi` on a string of digits. -/
def stoi (digits : Bytes) : Except Failure Value :=
  if decimalValue digits < 2 ^ 31 then .ok (.int (decimalValue digits))
  else .error (.throws (ascii "stoi"))

/-- `strtod` sets `ERANGE` for a number that is not zero when, rounded to 53 bits, it is below
`2 ^ -1022`, and no multiple of `2 ^ -1074`. -/
def Underflows (whole fraction : Bytes) : Prop :=
  0 < decimalValue (whole ++ fraction) ∧
    decimalValue (whole ++ fraction) * 2 ^ 1076 < (2 ^ 54 - 1) * 10 ^ fraction.length ∧
      ¬ 10 ^ fraction.length ∣ decimalValue (whole ++ fraction) * 2 ^ 1074

instance (whole fraction : Bytes) : Decidable (Underflows whole fraction) :=
  inferInstanceAs (Decidable (_ ∧ _ ∧ _))

/-- `std::stod` on a string of digits and dots: the longest prefix that is a number is
converted.  It throws when there is none, and when `strtod` sets `ERANGE`: the number rounds to one
beyond the range of a `double`, or underflows. -/
def stod (text : Bytes) : Except Failure Value :=
  let whole := text.takeWhile isDigit
  let behind := (text.dropWhile isDigit).drop 1
  let fraction := behind.takeWhile isDigit
  if whole = [] ∧ fraction = [] then .error (.throws (ascii "stod"))
  else if 2 ^ 1024 - 2 ^ 970 ≤ decimalValue whole ∨ Underflows whole fraction then
    .error (.throws (ascii "stod"))
  else .ok (.double (whole ++ 46 :: fraction))

/-- `1e-311` would become a subnormal number that is rounded, and is refused; `1e-301` is not. -/
example : Underflows (ascii "0") (List.replicate 310 48 ++ ascii "1") ∧
    ¬ Underflows (ascii "0") (List.replicate 300 48 ++ ascii "1") := by
  decide +kernel

/-- The value of an ordinary line that is not a list. -/
def scalar (text : Bytes) : Except Failure Value :=
  if text = ascii "true" ∨ text = ascii "false" then .ok (.bool (text == ascii "true"))
  else if text.all isDigit then stoi text
  else if text.all fun b => isDigit b || b == 46 then stod text
  else .ok (.str text)

/-- The value of an ordinary line is an inline list. -/
def IsInline (text : Bytes) : Prop :=
  text.head? = some 91 ∧ text.getLast? = some 93

instance (text : Bytes) : Decidable (IsInline text) :=
  inferInstanceAs (Decidable (_ ∧ _))

/-- The elements of an inline list: the trimmed texts between the commas that are not
empty. -/
def inlineElements (text : Bytes) : List Value :=
  let inner := (text.drop 1).take (text.length - 2)
  (((inner.splitOn 44).map trim).filter (· ≠ [])).map .str

/-! ## The state of the parser -/

/-- A pointer to a map. -/
structure Pointer where
  path : List Step
  valid : Bool
  deriving DecidableEq

/-- A pointer to the vector at a key of a map, and the indentation of its items. -/
structure ListPointer where
  owner : List Step
  key : Bytes
  valid : Bool
  indent : ℕ
  deriving DecidableEq

/-- The path leads into the value at the key of the owner. -/
def Inside (owner : List Step) (key : Bytes) (path : List Step) : Prop :=
  owner <+: path ∧ ∃ step ∈ (path.drop owner.length).head?, step.key = key

instance (owner : List Step) (key : Bytes) (path : List Step) : Decidable (Inside owner key path) :=
  inferInstanceAs (Decidable (_ ∧ ∃ step ∈ (path.drop owner.length).head?, step.key = key))

/-- The path leads to a map of the vector at the key of the owner. -/
def IsElement (owner : List Step) (key : Bytes) (path : List Step) : Prop :=
  path.dropLast = owner ∧ ∃ step ∈ path.getLast?, step.key = key

instance (owner : List Step) (key : Bytes) (path : List Step) :
    Decidable (IsElement owner key path) :=
  inferInstanceAs (Decidable (_ ∧ ∃ step ∈ path.getLast?, step.key = key))

/-- The tops of the stacks come first. -/
structure State where
  data : Entries
  stack : List Pointer
  previousIndent : ℕ
  lists : List ListPointer

def start : State := ⟨[], [⟨[], true⟩], 0, []⟩

namespace State

/-- One round of the dedent loop. -/
def dedentOnce (indent : ℕ) (s : State) : State where
  data := s.data
  stack := if 1 < s.stack.length then s.stack.tail else s.stack
  previousIndent := s.previousIndent - 2  -- below zero the loop ends as well
  lists := s.lists.dropWhile fun list => indent < list.indent

/-- `while (currentIndent < previousIndent)`; a round lowers `previousIndent`, so `fuel`
rounds are enough when that is at most `fuel`. -/
def dedentLoop (indent : ℕ) : ℕ → State → State
  | 0, s => s
  | fuel + 1, s =>
      if indent < s.previousIndent then dedentLoop indent fuel (s.dedentOnce indent) else s

def dedent (indent : ℕ) (s : State) : State :=
  dedentLoop indent s.previousIndent s

/-- Pointers into the value at the key of the owner are no longer valid. -/
def invalidate (owner : List Step) (key : Bytes) (s : State) : State :=
  { s with
    stack := s.stack.map fun p => { p with valid := p.valid && !decide (Inside owner key p.path) }
    lists := s.lists.map fun l => { l with valid := l.valid && !decide (Inside owner key l.owner) } }

/-- The vector at the key of the owner is replaced itself. -/
def dropLists (owner : List Step) (key : Bytes) (s : State) : State :=
  { s with
    lists := s.lists.map fun l =>
      { l with valid := l.valid && !decide (l.owner = owner ∧ l.key = key) } }

/-- The vector at the key of the owner may have moved its maps. -/
def grow (owner : List Step) (key : Bytes) (s : State) : State :=
  { s with
    stack := s.stack.map fun p =>
      { p with valid := p.valid && !decide (IsElement owner key p.path) } }

/-- `(*stack.back())[key] = value`. -/
def assign (key : Bytes) (value : Value) (s : State) : Except Failure State :=
  match s.stack with
  | [] => .error .undefined
  | top :: _ =>
      if top.valid then
        .ok { (s.invalidate top.path key).dropLists top.path key with
          data := Entries.update top.path (Entries.assign key value) s.data }
      else .error .undefined

/-- `stack.back()->emplace(key, value)`. -/
def emplace (key : Bytes) (value : Value) (s : State) : Except Failure State :=
  match s.stack with
  | [] => .error .undefined
  | top :: _ =>
      if top.valid then
        .ok { s with data := Entries.update top.path (Entries.emplace key value) s.data }
      else .error .undefined

/-- `stack.push_back(&std::any_cast<std::map<...>&>((*stack.back())[key]))`. -/
def pushMap (key : Bytes) (s : State) : State :=
  match s.stack with
  | [] => s
  | top :: _ => { s with stack := ⟨top.path ++ [⟨key, none⟩], true⟩ :: s.stack }

/-- `array_stack.push_back(...)` and `array_indent_stack.push_back(indent)`. -/
def pushList (key : Bytes) (indent : ℕ) (s : State) : State :=
  match s.stack with
  | [] => s
  | top :: _ => { s with lists := ⟨top.path, key, true, indent⟩ :: s.lists }

/-- `array_stack.back()->push_back(obj)` and `stack.push_back(&array_stack.back()->back())`. -/
def pushItem (list : ListPointer) (s : State) : Except Failure State :=
  match list.valid, (Entries.resolve list.owner s.data).bind (Entries.lookup list.key) with
  | true, some (.maps items) =>
      .ok { s with
        data := Entries.update list.owner (Entries.assign list.key (.maps (items ++ [[]]))) s.data
        stack := ⟨list.owner ++ [⟨list.key, some items.length⟩], true⟩ ::
          (s.grow list.owner list.key).stack }
  | _, _ => .error .undefined

end State

/-! ## One line -/

/-- A line `- ...`, with what follows the hyphen. -/
def itemLine (text : Bytes) (s : State) : Except Failure State :=
  match s.lists with
  | [] => .error (.throws (ascii "YAML array '-' without a parent key"))
  | list :: _ => do
      let s ← s.pushItem list
      let item := trim text
      if item = [] then return s
      match splitColon item with
      | none => .error (.throws (ascii "Invalid array item: " ++ item))
      | some (key, value) =>
          if value = [] then
            let s ← s.assign key (.map [])
            return s.pushMap key
          else s.assign key (.str value)

/-- A line `key: value`. -/
def keyLine (indent : ℕ) (isArray : Bool) (line : Bytes) (s : State) : Except Failure State :=
  match splitColon line with
  | none => .error (.throws (ascii "Invalid line: " ++ line))
  | some (key, value) =>
      if value = [] then
        if isArray then do
          let s ← s.assign key (.maps [])
          return s.pushList key (indent + 2)
        else do
          let s ← s.assign key (.map [])
          return s.pushMap key
      else if IsInline value then s.assign key (.list (inlineElements value))
      else do
        let value ← scalar value
        s.emplace key value

/-- `previousIndent = currentIndent`. -/
def State.atIndent (indent : ℕ) (s : State) : State :=
  { s with previousIndent := indent }

/-- The body of the loop over the lines; `rest` is what the lookahead may read. -/
def parseLine (rest : List Bytes) (raw : Bytes) (s : State) : Except Failure State :=
  let indent := countIndent raw
  let line := trim raw
  if Ignored line then .ok s
  else do
    let s := s.dedent indent
    let s ← if IsItem line then itemLine (line.drop 1) s
      else keyLine indent (nextIsItem rest) line s
    return s.atIndent indent

/-- The loop over lines that are followed by `more`. -/
def parseLines (more : List Bytes) : List Bytes → State → Except Failure State
  | [], s => .ok s
  | raw :: rest, s => do
      let s ← parseLine (rest ++ more) raw s
      parseLines more rest s

/-- The lines that `std::getline` returns. -/
def linesOf (text : Bytes) : List Bytes :=
  (getlines text).map Prod.fst

/-- `parseFile`; a file that cannot be opened leaves `data` empty. -/
def parseFile : Option Bytes → Except Failure YamlReader
  | none => .ok ⟨[]⟩
  | some text => (parseLines [] (linesOf text) start).map fun s => ⟨s.data⟩

/-! ## Pointers that stay valid -/

theorem map_valid_eq_self {Q : Pointer → Prop} [DecidablePred Q] {pointers : List Pointer}
    (h : ∀ p ∈ pointers, p.valid = true → ¬ Q p) :
    pointers.map (fun p => ({ p with valid := p.valid && !decide (Q p) } : Pointer)) =
      pointers := by
  refine (List.map_congr_left fun p hp => ?_).trans (List.map_id _)
  obtain ⟨path, valid⟩ := p
  cases valid with
  | false => rfl
  | true => simp [h _ hp rfl]

theorem map_valid_lists_eq_self {Q : ListPointer → Prop} [DecidablePred Q]
    {lists : List ListPointer} (h : ∀ l ∈ lists, l.valid = true → ¬ Q l) :
    lists.map (fun l => ({ l with valid := l.valid && !decide (Q l) } : ListPointer)) =
      lists := by
  refine (List.map_congr_left fun l hl => ?_).trans (List.map_id _)
  obtain ⟨owner, key, valid, indent⟩ := l
  cases valid with
  | false => rfl
  | true => simp [h _ hl rfl]

/-! ## The dedent loop -/

namespace State

/-- The number of rounds of the loop. -/
def rounds (indent previous : ℕ) : ℕ :=
  (previous - indent + 1) / 2

theorem dedentLoop_eq {indent fuel : ℕ} {s : State} (hfuel : s.previousIndent ≤ fuel) :
    dedentLoop indent fuel s =
      { data := s.data
        stack := s.stack.drop (min (rounds indent s.previousIndent) (s.stack.length - 1))
        previousIndent := s.previousIndent - 2 * rounds indent s.previousIndent
        lists :=
          if indent < s.previousIndent then s.lists.dropWhile fun list => indent < list.indent
          else s.lists } := by
  induction fuel generalizing s with
  | zero =>
      obtain ⟨data, stack, previous, lists⟩ := s
      obtain rfl : previous = 0 := by simpa using hfuel
      simp [dedentLoop, rounds]
  | succ fuel ih =>
      by_cases hindent : indent < s.previousIndent
      · have hrounds : rounds indent s.previousIndent =
            rounds indent (s.previousIndent - 2) + 1 := by
          simp only [rounds]
          omega
        have hfuel' : (s.dedentOnce indent).previousIndent ≤ fuel := by
          simp only [dedentOnce]
          omega
        rw [dedentLoop, if_pos hindent, ih hfuel']
        simp only [dedentOnce, hindent, if_true, hrounds, List.dropWhile_idempotent, ite_self,
          State.mk.injEq, true_and]
        refine ⟨?_, by omega, trivial⟩
        · split
          · rename_i hlength
            have hmin : min (rounds indent (s.previousIndent - 2) + 1) (s.stack.length - 1) =
                1 + min (rounds indent (s.previousIndent - 2)) (s.stack.length - 1 - 1) := by
              omega
            rw [hmin, ← List.drop_drop, List.drop_one, List.length_tail]
          · rename_i hlength
            have hzero : s.stack.length - 1 = 0 := by omega
            rw [hzero, Nat.min_zero, Nat.min_zero]
      · have hrounds : rounds indent s.previousIndent = 0 := by
          simp only [rounds]
          omega
        simp [dedentLoop, hindent, hrounds]

theorem dedent_eq (indent : ℕ) (s : State) :
    s.dedent indent =
      { data := s.data
        stack := s.stack.drop (min (rounds indent s.previousIndent) (s.stack.length - 1))
        previousIndent := s.previousIndent - 2 * rounds indent s.previousIndent
        lists :=
          if indent < s.previousIndent then s.lists.dropWhile fun list => indent < list.indent
          else s.lists } :=
  dedentLoop_eq le_rfl

theorem data_dedent (indent : ℕ) (s : State) : (s.dedent indent).data = s.data := by
  rw [dedent_eq]

theorem mem_lists_of_dedent {indent : ℕ} {s : State} {l : ListPointer}
    (h : l ∈ (s.dedent indent).lists) : l ∈ s.lists := by
  rw [dedent_eq] at h
  dsimp only at h
  split at h
  · exact (List.dropWhile_suffix _).subset h
  · exact h

theorem dedent_of_le {indent : ℕ} {s : State} (h : s.previousIndent ≤ indent) :
    s.dedent indent = s := by
  have hrounds : rounds indent s.previousIndent = 0 := by
    simp only [rounds]
    omega
  rw [dedent_eq, hrounds, if_neg (by omega)]
  simp

end State

/-! ## Texts -/

/-- Neither end is removed by `trim`. -/
def Trimmed (s : Bytes) : Prop :=
  (∀ b ∈ s.head?, isBlank b = false) ∧ ∀ b ∈ s.getLast?, isBlank b = false

instance (s : Bytes) : Decidable (Trimmed s) :=
  decidable_of_iff (s.head?.all (!isBlank ·) = true ∧ s.getLast?.all (!isBlank ·) = true) <| by
    simp [Trimmed, Option.all_eq_true]

theorem trim_of_trimmed {s : Bytes} (h : Trimmed s) : trim s = s := by
  have hfront : s.dropWhile isBlank = s := by
    cases s with
    | nil => rfl
    | cons b s => exact List.dropWhile_cons_of_neg (by simp [h.1 b rfl])
  rw [trim, hfront, List.rdropWhile_eq_self_iff]
  intro hne hlast
  rw [h.2 _ (List.getLast?_eq_some_getLast hne)] at hlast
  exact absurd hlast (by simp)

theorem trim_append {blanks s : Bytes} (hblanks : ∀ b ∈ blanks, isBlank b = true) :
    trim (blanks ++ s) = trim s := by
  rw [trim, trim, List.dropWhile_append_of_pos hblanks]

theorem trim_space_cons (s : Bytes) : trim (32 :: s) = trim s :=
  @trim_append [32] s fun b hb => by rw [List.mem_singleton.mp hb]; rfl

/-- Spaces in front of a line. -/
def spaces (n : ℕ) : Bytes := List.replicate n 32

theorem isBlank_of_mem_spaces {n : ℕ} {b : UInt8} (h : b ∈ spaces n) : isBlank b = true := by
  rw [List.eq_of_mem_replicate h]
  rfl

theorem countIndent_spaces {n : ℕ} {s : Bytes} (h : ∀ b ∈ s.head?, isBlank b = false) :
    countIndent (spaces n ++ s) = n := by
  have hspaces : ∀ b ∈ spaces n, (b == 32) = true := fun b hb => by
    simpa using List.eq_of_mem_replicate hb
  have hrest : s.takeWhile (· == 32) = [] := by
    cases s with
    | nil => rfl
    | cons b s =>
        have hb : b ≠ 32 := by
          rintro rfl
          exact absurd (h 32 rfl) (by decide)
        simp [hb]
  rw [countIndent, List.takeWhile_append_of_pos hspaces, hrest, List.append_nil, spaces,
    List.length_replicate]

/-! ## Lines one after another -/

section

variable {rest : List Bytes} {raw : Bytes} {s : State}

theorem parseLine_of_ignored (h : Ignored (trim raw)) : parseLine rest raw s = .ok s := by
  simp [parseLine, h]

theorem parseLine_of_item (hignored : ¬ Ignored (trim raw)) (hitem : IsItem (trim raw)) :
    parseLine rest raw s =
      (itemLine ((trim raw).drop 1) (s.dedent (countIndent raw))).map
        (State.atIndent (countIndent raw)) := by
  simp only [parseLine, hignored, hitem, if_true, if_false]
  rfl

theorem parseLine_of_key (hignored : ¬ Ignored (trim raw)) (hitem : ¬ IsItem (trim raw)) :
    parseLine rest raw s =
      (keyLine (countIndent raw) (nextIsItem rest) (trim raw) (s.dedent (countIndent raw))).map
        (State.atIndent (countIndent raw)) := by
  simp only [parseLine, hignored, hitem, if_false]
  rfl

end

theorem parseLines_cons {more rest : List Bytes} {raw : Bytes} {s next : State}
    (h : parseLine (rest ++ more) raw s = .ok next) :
    parseLines more (raw :: rest) s = parseLines more rest next := by
  rw [parseLines, h]
  rfl

theorem parseLines_append (more front back : List Bytes) (s : State) :
    parseLines more (front ++ back) s =
      parseLines (back ++ more) front s >>= parseLines more back := by
  induction front generalizing s with
  | nil => rfl
  | cons raw front ih =>
      simp only [List.cons_append, parseLines, List.append_assoc, ih, bind_assoc]

/-- The lines that the parser reads. -/
def significant (lines : List Bytes) : List Bytes :=
  lines.filter fun line => ¬ Ignored (trim line)

theorem significant_cons_of_ignored {line : Bytes} (h : Ignored (trim line)) (lines : List Bytes) :
    significant (line :: lines) = significant lines := by
  simp [significant, h]

theorem significant_cons {line : Bytes} (h : ¬ Ignored (trim line)) (lines : List Bytes) :
    significant (line :: lines) = line :: significant lines := by
  simp [significant, h]

theorem significant_append (front back : List Bytes) :
    significant (front ++ back) = significant front ++ significant back :=
  List.filter_append _ _

theorem nextIsItem_append (lines more : List Bytes) :
    nextIsItem (lines ++ more) = nextIsItem (significant lines ++ more) := by
  induction lines with
  | nil => rfl
  | cons line lines ih =>
      by_cases h : Ignored (trim line)
      · rw [significant_cons_of_ignored h, ← ih]
        simp [nextIsItem, h]
      · rw [significant_cons h]
        simp [nextIsItem, h]

/-- Blank lines and comments change nothing. -/
theorem parseLines_significant (more lines : List Bytes) (s : State) :
    parseLines more lines s = parseLines more (significant lines) s := by
  induction lines generalizing s with
  | nil => rfl
  | cons line lines ih =>
      by_cases h : Ignored (trim line)
      · have hskip : parseLine (lines ++ more) line s = .ok s := parseLine_of_ignored h
        rw [parseLines_cons hskip, ih, significant_cons_of_ignored h]
      · have hsame : parseLine (lines ++ more) line s =
            parseLine (significant lines ++ more) line s := by
          simp only [parseLine, nextIsItem_append lines more]
        rw [significant_cons h, parseLines, parseLines, hsame]
        exact congrArg _ (funext ih)

/-- The text of a file with these lines. -/
def written (lines : List Bytes) : Bytes :=
  lines.flatMap (· ++ [lf])

/-- Lines that are terminated are read back. -/
theorem linesOf_written_append {lines : List Bytes} (h : ∀ line ∈ lines, lf ∉ line)
    (text : Bytes) : linesOf (written lines ++ text) = lines ++ linesOf text := by
  induction lines with
  | nil => rfl
  | cons line lines ih =>
      have hrest : linesOf (written lines ++ text) = lines ++ linesOf text :=
        ih fun other hother => h other (List.mem_cons_of_mem line hother)
      have hsplit : written (line :: lines) ++ text = line ++ lf :: (written lines ++ text) := by
        simp [written]
      rw [hsplit, linesOf, getlines_append _ (h line List.mem_cons_self), List.map_cons]
      exact congrArg _ hrest

theorem linesOf_of_lf_notMem {line : Bytes} (h : lf ∉ line) (hne : line ≠ []) :
    linesOf line = [line] := by
  have hall : ∀ b ∈ line, (b != lf) = true := fun b hb => by
    simpa using fun heq : b = lf => h (heq ▸ hb)
  rw [linesOf, getlines_eq, getline, if_neg hne, List.takeWhile_eq_self_iff.mpr hall,
    List.dropWhile_eq_nil_iff.mpr hall]
  rfl

theorem significant_linesOf {lines : List Bytes} {text : Bytes} (h : ∀ line ∈ lines, lf ∉ line)
    (htext : text = written lines ∨ text ++ [lf] = written lines) :
    significant (linesOf text) = significant lines := by
  rcases htext with rfl | htext
  · have hread := linesOf_written_append h []
    rw [List.append_nil] at hread
    rw [hread]
    simp [linesOf, getlines]
  · rcases lines.eq_nil_or_concat' with rfl | ⟨front, last, rfl⟩
    · simp [written] at htext
    · have hsplit : written (front ++ [last]) = written front ++ last ++ [lf] := by
        simp [written]
      have hfront : ∀ line ∈ front, lf ∉ line := fun line hline => h line (by simp [hline])
      rw [List.append_cancel_right (htext.trans hsplit), linesOf_written_append hfront]
      by_cases hlast : last = []
      · simp [hlast, linesOf, getlines, significant, trim, Ignored]
      · rw [linesOf_of_lf_notMem (h last (by simp)) hlast]

/-- What is parsed is decided by the lines that the parser reads. -/
theorem parseFile_eq {lines : List Bytes} {text : Bytes} (h : ∀ line ∈ lines, lf ∉ line)
    (htext : text = written lines ∨ text ++ [lf] = written lines) :
    parseFile (some text) = (parseLines [] (significant lines) start).map fun s => ⟨s.data⟩ := by
  rw [parseFile, parseLines_significant, significant_linesOf h htext]

end Sok.Yaml
