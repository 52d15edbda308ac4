import Sok.Strings.Histories

/-!
# Reading and writing characters

`operator[]`, the iterators and the conversions of `mstd::string`.  An iteration goes over
`size_` characters; a conversion goes up to the first NUL, wherever the characters end,
and through a null pointer where there is no buffer.  A program that reads and writes
characters between its other calls is right in everything it reads and makes exactly
when its calls stay in bounds and it converts no object without a buffer.
-/

namespace Sok.Mstd

open Transition (System)

/-! ## The member functions -/

/-- The text of the exception of `operator[]`. -/
def subscriptOutOfRange : Exception :=
  .outOfRange (ascii "Index out of range")

namespace String

/-- `operator[]`, to read. -/
def subscript (s : String) (index : UInt64) : Except Failure Bytes :=
  if s.size ≤ index then .error (.throws subscriptOutOfRange)
  else access <| s.data.bind fun data => data[index.toNat]?.map fun c => [c]

/-- `operator[]`, to write. -/
def assign (s : String) (index : UInt64) (value : UInt8) : Except Failure String :=
  if s.size ≤ index then .error (.throws subscriptOutOfRange)
  else do
    let data ← assignAt s.data index value
    return { s with data := some data }

/-- `begin` to `end`; the pointers may be null, and are equal then. -/
def visit (s : String) : Except Failure Bytes :=
  if s.size = 0 then .ok []
  else access <| s.data.bind fun data =>
    if s.size.toNat ≤ data.length then some (data.take s.size.toNat) else none

/-- What `operator<<` writes: the characters at `c_str()` up to a NUL. -/
def print (s : String) : Except Failure Bytes :=
  access <| s.data.bind fun data => if 0 ∈ data then some (data.takeWhile (· ≠ 0)) else none

/-- `to_std_string`: the same characters in memory of their own; a `std::string` that needs none
counts as granted. -/
def toStdString (s : String) (granted : Bool) : Except Failure Bytes := do
  let chars ← s.print
  if granted then return chars else throw (.throws .badAlloc)

end String

/-! ## Programs that use characters -/

/-- A call, or the use of characters of an object. -/
inductive Use
  | of (call : Call)
  | assign (target : ℕ) (index : UInt64) (value : UInt8)
  | subscript (target : ℕ) (index : UInt64)
  | visit (target : ℕ)
  /-- `to_std_string`, or the conversion to `std::string`. -/
  | convert (target : ℕ)
  /-- `<<`. -/
  | print (target : ℕ)

/-- How a function that only reads ends, and what it has read. -/
def reading (objects : List String) : Except Failure Bytes → Outcome × Bytes
  | .ok seen => (.returns objects, seen)
  | .error .undefined => (.undefined, [])
  | .error (.throws exception) => (.throws exception, [])

namespace Use

/-- How a use ends, and what it has read. -/
def outcome (objects : List String) (granted : Bool) : Use → Option (Outcome × Bytes)
  | .of call => (call.outcome objects granted).map fun outcome => (outcome, [])
  | .assign target index value =>
      objects[target]?.map fun object =>
        (.of (fun object => objects.set target object) (object.assign index value), [])
  | .subscript target index =>
      objects[target]?.map fun object => reading objects (object.subscript index)
  | .visit target => objects[target]?.map fun object => reading objects object.visit
  | .convert target =>
      objects[target]?.map fun object => reading objects (object.toStdString granted)
  | .print target => objects[target]?.map fun object => reading objects object.print

end Use

/-- A program with the answers of the allocator. -/
def useSystem : System (List String) (Use × Bool) where
  init objects := objects = []
  step objects label :=
    (label.1.outcome objects label.2).bind fun result => result.1.objectsAfter objects

/-! ## What it is for -/

namespace Use

/-- What a use that returns makes of the sequences of characters, and what it reads. -/
def Means (strings : List Bytes) : Use → List Bytes → Bytes → Prop
  | .of call, after, seen => call.Means strings after ∧ seen = []
  | .assign target index value, after, seen =>
      ∃ chars ∈ strings[target]?, index.toNat < chars.length ∧
        after = strings.set target (chars.set index.toNat value) ∧ seen = []
  | .subscript target index, after, seen =>
      ∃ chars ∈ strings[target]?, ∃ c ∈ chars[index.toNat]?, after = strings ∧ seen = [c]
  | .visit target, after, seen => seen ∈ strings[target]? ∧ after = strings
  | .convert target, after, seen | .print target, after, seen =>
      ∃ chars ∈ strings[target]?, after = strings ∧ seen = chars.takeWhile (· ≠ 0)

/-- The exceptions there is a reason for. -/
def MayThrow (objects : List String) (granted : Bool) : Use → Exception → Prop
  | .of call, .badAlloc => granted = false ∨ call.AsksTooMuch
  | .of call, .outOfRange _ => call.BehindEnd objects
  | .assign target index _, exception | .subscript target index, exception =>
      exception = subscriptOutOfRange ∧ ∃ object ∈ objects[target]?, object.size ≤ index
  | .convert _, exception => exception = .badAlloc ∧ granted = false
  | .visit _, _ | .print _, _ => False

/-- It ends as it should, with well-formed objects. -/
def Right (objects : List String) (label : Use × Bool) (seen : Bytes) : Outcome → Prop
  | .returns after =>
      (∀ object ∈ after, Formed object) ∧
        label.1.Means (objects.map String.chars) (after.map String.chars) seen
  | .throws exception => label.1.MayThrow objects label.2 exception
  | .terminates => label.2 = false
  | .undefined => False

def Correct (objects : List String) (label : Use × Bool) : Prop :=
  ∀ result ∈ label.1.outcome objects label.2, Right objects label result.2 result.1

/-- The call stays within the buffers, and what is converted or printed has one. -/
def Bounded (objects : List String) (label : Use × Bool) : Prop :=
  match label.1 with
  | .of call => InBounds objects (call, label.2)
  | .convert target | .print target => ∀ object ∈ objects[target]?, HasBuffer object
  | .assign _ _ _ | .subscript _ _ | .visit _ => True

end Use

/-! ## One object -/

namespace String

variable {s : String}

/-- A character there is lies in a buffer that holds the characters. -/
theorem exists_buffer_of_lt (h : Formed s) {index : UInt64} (hlt : index < s.size) :
    ∃ buffer, s.data = some buffer ∧ Buffer.Holds 0 buffer s.chars ∧
      s.size.toNat = s.chars.length ∧ index.toNat < s.chars.length ∧
      buffer.length = s.capacity.toNat + 1 ∧ s.capacity.toNat + 1 < 0x8000000000000000 := by
  cases hdata : s.data with
  | none =>
      obtain rfl := h.of_none hdata
      exact absurd hlt (UInt64.not_lt.mpr (UInt64.zero_le))
  | some buffer =>
      obtain ⟨hholds, hsize, -, hlength, hfits⟩ := h.holds hdata
      rw [UInt64.lt_iff_toNat_lt, hsize] at hlt
      exact ⟨buffer, rfl, hholds, hsize, hlt, hlength, hfits⟩

theorem subscript_of_lt (h : Formed s) {index : UInt64} (hlt : index < s.size) :
    ∃ c ∈ s.chars[index.toNat]?, s.subscript index = .ok [c] := by
  obtain ⟨buffer, hdata, hholds, -, hindex, -, -⟩ := exists_buffer_of_lt h hlt
  obtain ⟨rest, hbuffer⟩ := (List.prefix_append s.chars [0]).trans hholds
  have hchar : buffer[index.toNat]? = some s.chars[index.toNat] := by
    rw [← hbuffer, List.getElem?_append_left hindex, List.getElem?_eq_getElem hindex]
  refine ⟨s.chars[index.toNat], List.getElem?_eq_getElem hindex, ?_⟩
  rw [subscript, if_neg (UInt64.not_le.mpr hlt), hdata, Option.bind_some, hchar]
  rfl

theorem assign_of_lt (h : Formed s) {index : UInt64} (hlt : index < s.size) (value : UInt8) :
    ∃ object, s.assign index value = .ok object ∧ Formed object ∧ index.toNat < s.chars.length ∧
      object.chars = s.chars.set index.toNat value := by
  obtain ⟨buffer, hdata, hholds, hsize, hindex, hlength, hfits⟩ := exists_buffer_of_lt h hlt
  obtain ⟨data, hstore, hdatalength, hdataholds⟩ := Buffer.holds_set hholds hindex value
  have hcount : s.size.toNat = (s.chars.set index.toNat value).length := by
    rw [List.length_set]
    exact hsize
  obtain ⟨hformed, hchars⟩ :=
    formed_of_holds hdataholds hcount (hdatalength.trans hlength) hfits
  refine ⟨⟨some data, s.size, s.capacity⟩, ?_, hformed, hindex, hchars⟩
  simp only [assign, if_neg (UInt64.not_le.mpr hlt), hdata, assignAt_ok hstore, bind, Except.bind]
  rfl

theorem visit_eq (h : Formed s) : s.visit = .ok s.chars := by
  cases hdata : s.data with
  | none =>
      obtain rfl := h.of_none hdata
      rfl
  | some buffer =>
      obtain ⟨hholds, hsize, -, -, -⟩ := h.holds hdata
      have htake : buffer.take s.size.toNat = s.chars := by
        rw [hsize]
        exact hholds.take_eq
      rw [visit]
      split
      case isTrue hzero =>
        rw [hzero] at hsize
        rw [List.eq_nil_of_length_eq_zero hsize.symm]
      case isFalse =>
        have hle : s.size.toNat ≤ buffer.length := hsize ▸ hholds.length_lt.le
        rw [hdata, Option.bind_some, if_pos hle, htake]
        rfl

theorem print_eq (h : Formed s) (hbuffer : HasBuffer s) :
    s.print = .ok (s.chars.takeWhile (· ≠ 0)) := by
  obtain ⟨buffer, hdata⟩ := Option.isSome_iff_exists.mp hbuffer
  obtain ⟨hholds, -⟩ := h.holds hdata
  rw [print, hdata, Option.bind_some, if_pos hholds.mem_terminator, hholds.takeWhile_ne]
  rfl

theorem print_undefined (hbuffer : ¬ HasBuffer s) : s.print = .error .undefined := by
  rw [print, Option.not_isSome_iff_eq_none.mp hbuffer]
  rfl

end String

/-! ## One use -/

variable {objects : List String}

/-- For a call the condition is that of the call. -/
theorem correct_of_iff {call : Call} {granted : Bool} :
    Use.Correct objects (.of call, granted) ↔ Correct Formed objects (call, granted) := by
  have hright : ∀ outcome : Outcome, Use.Right objects (.of call, granted) [] outcome ↔
      outcome.Correct Formed objects (call, granted) := by
    intro outcome
    cases outcome with
    | returns after => exact and_congr_right fun _ => and_iff_left rfl
    | throws exception => cases exception <;> exact Iff.rfl
    | terminates | undefined => exact Iff.rfl
  constructor
  · intro h outcome houtcome
    exact (hright outcome).mp (h _ (Option.map_eq_some_iff.mpr ⟨outcome, houtcome, rfl⟩))
  · intro h result hresult
    obtain ⟨outcome, houtcome, rfl⟩ := Option.map_eq_some_iff.mp hresult
    exact (hright outcome).mpr (h outcome houtcome)

theorem formed_set {target : ℕ} {object : String} (hobjects : ∀ other ∈ objects, Formed other)
    (hobject : Formed object) : ∀ other ∈ objects.set target object, Formed other := by
  have hset := @good_set False objects target object
  rw [good_false] at hset
  exact hset hobjects hobject

namespace Use

theorem correct_assign (hobjects : ∀ object ∈ objects, Formed object) (target : ℕ)
    (index : UInt64) (value : UInt8) (granted : Bool) :
    Correct objects (.assign target index value, granted) := by
  intro result hresult
  obtain ⟨object, hobject, rfl⟩ := Option.map_eq_some_iff.mp hresult
  have hformed := hobjects object (List.mem_of_getElem? hobject)
  by_cases hlt : index < object.size
  · obtain ⟨after, hassign, hafter, hindex, hchars⟩ := String.assign_of_lt hformed hlt value
    rw [hassign]
    refine ⟨formed_set hobjects hafter, object.chars, chars_mem hobject, hindex, ?_, rfl⟩
    rw [List.map_set, hchars]
  · have hle := UInt64.not_lt.mp hlt
    rw [String.assign, if_pos hle]
    exact ⟨rfl, object, hobject, hle⟩

theorem correct_subscript (hobjects : ∀ object ∈ objects, Formed object) (target : ℕ)
    (index : UInt64) (granted : Bool) : Correct objects (.subscript target index, granted) := by
  intro result hresult
  obtain ⟨object, hobject, rfl⟩ := Option.map_eq_some_iff.mp hresult
  have hformed := hobjects object (List.mem_of_getElem? hobject)
  by_cases hlt : index < object.size
  · obtain ⟨c, hc, hread⟩ := String.subscript_of_lt hformed hlt
    rw [hread]
    exact ⟨hobjects, object.chars, chars_mem hobject, c, hc, rfl, rfl⟩
  · have hle := UInt64.not_lt.mp hlt
    rw [String.subscript, if_pos hle]
    exact ⟨rfl, object, hobject, hle⟩

theorem correct_visit (hobjects : ∀ object ∈ objects, Formed object) (target : ℕ)
    (granted : Bool) : Correct objects (.visit target, granted) := by
  intro result hresult
  obtain ⟨object, hobject, rfl⟩ := Option.map_eq_some_iff.mp hresult
  rw [String.visit_eq (hobjects object (List.mem_of_getElem? hobject))]
  exact ⟨hobjects, chars_mem hobject, rfl⟩

/-- A conversion is correct exactly when there is a buffer to read. -/
theorem correct_convert_iff (hobjects : ∀ object ∈ objects, Formed object) {target : ℕ}
    {granted : Bool} : Correct objects (.convert target, granted) ↔
      ∀ object ∈ objects[target]?, HasBuffer object := by
  constructor
  · intro h object hobject
    by_contra hnone
    have hundefined : (Use.convert target).outcome objects granted = some (.undefined, []) := by
      rw [Use.outcome, hobject, Option.map_some, String.toStdString, String.print_undefined hnone]
      rfl
    exact h _ hundefined
  · intro h result hresult
    obtain ⟨object, hobject, rfl⟩ := Option.map_eq_some_iff.mp hresult
    have hformed := hobjects object (List.mem_of_getElem? hobject)
    rw [String.toStdString, String.print_eq hformed (h object hobject)]
    cases granted with
    | true => exact ⟨hobjects, object.chars, chars_mem hobject, rfl, rfl⟩
    | false => exact ⟨rfl, rfl⟩

/-- And so is what `<<` does. -/
theorem correct_print_iff (hobjects : ∀ object ∈ objects, Formed object) {target : ℕ}
    {granted : Bool} : Correct objects (.print target, granted) ↔
      ∀ object ∈ objects[target]?, HasBuffer object := by
  constructor
  · intro h object hobject
    by_contra hnone
    have hundefined : (Use.print target).outcome objects granted = some (.undefined, []) := by
      rw [Use.outcome, hobject, Option.map_some, String.print_undefined hnone]
      rfl
    exact h _ hundefined
  · intro h result hresult
    obtain ⟨object, hobject, rfl⟩ := Option.map_eq_some_iff.mp hresult
    have hformed := hobjects object (List.mem_of_getElem? hobject)
    rw [String.print_eq hformed (h object hobject)]
    exact ⟨hobjects, object.chars, chars_mem hobject, rfl, rfl⟩

theorem correct_iff (hobjects : ∀ object ∈ objects, Formed object) (label : Use × Bool) :
    Correct objects label ↔ Bounded objects label := by
  obtain ⟨use, granted⟩ := label
  cases use with
  | of call =>
      have hgood : ∀ object ∈ objects, Good False object := by
        rw [good_false]
        exact hobjects
      have hcall := @Mstd.correct_iff False objects (call, granted) hgood
      rw [good_false] at hcall
      refine correct_of_iff.trans (hcall.trans (and_iff_left ?_))
      exact False.elim
  | assign target index value =>
      exact iff_of_true (correct_assign hobjects target index value granted) trivial
  | subscript target index =>
      exact iff_of_true (correct_subscript hobjects target index granted) trivial
  | visit target => exact iff_of_true (correct_visit hobjects target granted) trivial
  | convert target => exact correct_convert_iff hobjects
  | print target => exact correct_print_iff hobjects

/-- What is correct leaves well-formed objects. -/
theorem Correct.formed {label : Use × Bool} {next : List String}
    (hobjects : ∀ object ∈ objects, Formed object) (h : Correct objects label)
    (hstep : useSystem.step objects label = some next) : ∀ object ∈ next, Formed object := by
  obtain ⟨⟨outcome, seen⟩, hresult, hafter⟩ := Option.bind_eq_some_iff.mp hstep
  have hright := h _ hresult
  cases outcome with
  | returns after =>
      obtain rfl := Option.some.inj hafter
      exact hright.1
  | throws exception =>
      obtain rfl := Option.some.inj hafter
      exact hobjects
  | terminates => exact absurd hafter (by simp [Outcome.objectsAfter])
  | undefined => exact hright.elim

end Use

/-! ## Whole programs -/

/-- **A program reads what its strings stand for.**  Everything that a program does with strings,
and everything that it reads from them, is as it should be exactly when its calls stay in bounds and
every string that it converts has a buffer: what it writes by `operator[]` it reads back, an
iteration goes over the characters, a conversion stops at the first NUL among them, and an
exception comes only from an index behind the end, from a conversion that gets no memory or from
a call that gives a reason for it. -/
theorem uses_correct_iff (uses : List (Use × Bool)) :
    useSystem.Permits Use.Correct [] uses ↔ useSystem.Permits Use.Bounded [] uses := by
  have hempty : ∀ object ∈ ([] : List String), Formed object := by simp
  exact @System.permits_iff_of_invariant _ _ useSystem Use.Correct Use.Bounded
    (fun objects => ∀ object ∈ objects, Formed object)
    (fun _ label hobjects => Use.correct_iff hobjects label)
    (fun _ _ _ hobjects hcorrect hstep => hcorrect.formed hobjects hstep) [] hempty uses

end Sok.Mstd
