import Sok.Foundation.Buffer
import Sok.Foundation.Transition
import Sok.Text

/-!
# mstd::string

The objects of the class `mstd::string` and the calls that build and change them.  An
object has a buffer from `std::make_unique<char[]>`, or none: so after default
construction, and after it has been moved from.  `size_` and `capacity_` are of type
`size_t`, and `capacity_ + 1` is computed in it.

A call can throw, which leaves the objects as they were, since a member function changes its object
only behind its last allocation.  In a `noexcept` assignment an exception ends the process.
An access through a null pointer or outside a buffer is undefined.
-/

namespace Sok.Mstd

inductive Exception
  /-- `std::bad_alloc` and what is derived from it. -/
  | badAlloc
  /-- `std::out_of_range`, with its text. -/
  | outOfRange (what : Bytes)
  deriving DecidableEq

/-- Why a function does not return. -/
inductive Failure
  | throws (exception : Exception)
  | undefined
  deriving DecidableEq

/-! ## Memory -/

/-- `std::make_unique<char[]>(count)`: zeros, if the request is not larger than any object can be
and the memory is there. -/
def makeUnique (count : UInt64) (granted : Bool) : Except Failure Bytes :=
  if granted = true ∧ count.toNat < 0x8000000000000000 then .ok (List.replicate count.toNat 0)
  else .error (.throws .badAlloc)

/-- An access to memory that is undefined where it has no result. -/
def access (result : Option Bytes) : Except Failure Bytes :=
  match result with
  | some bytes => .ok bytes
  | none => .error .undefined

/-- `std::memcpy(dst, src + start, count)`; the pointers may be null. -/
def memcpy (dst src : Option Bytes) (start count : UInt64) : Except Failure Bytes :=
  access <| dst.bind fun dst => src.bind fun src =>
    Buffer.copyInto dst src start.toNat count.toNat

/-- `data[index] = value`. -/
def assignAt (data : Option Bytes) (index : UInt64) (value : UInt8) : Except Failure Bytes :=
  access <| data.bind fun data => Buffer.store data index.toNat value

/-- `std::min`. -/
def stdMin (a b : UInt64) : UInt64 :=
  if b < a then b else a

/-! ## Objects -/

/-- The members of `mstd::string`. -/
structure String where
  data : Option Bytes
  size : UInt64
  capacity : UInt64
  deriving DecidableEq

/-- A C string: `strlen` stops at its terminator, and the array is no larger than any object. -/
structure CString where
  chars : Bytes
  noNul : (0 : UInt8) ∉ chars
  fits : chars.length + 1 < 0x8000000000000000

namespace CString

/-- The array. -/
def array (s : CString) : Bytes := s.chars ++ [0]

/-- `std::strlen`: the position of the first NUL. -/
def strlen (s : CString) : UInt64 :=
  UInt64.ofNat (s.array.idxOf 0)

end CString

namespace String

/-- The characters. -/
def chars (s : String) : Bytes :=
  (s.data.getD []).take s.size.toNat

/-- `string()`. -/
def construct : String := ⟨none, 0, 0⟩

/-- `string(const char* s)`. -/
def constructChars (s : CString) (granted : Bool) : Except Failure String := do
  let size := s.strlen
  let capacity := size
  let data ← makeUnique (capacity + 1) granted
  let data ← memcpy (some data) (some s.array) 0 (size + 1)
  return ⟨some data, size, capacity⟩

/-- `string(const string& other)`. -/
def copyConstruct (other : String) (granted : Bool) : Except Failure String := do
  let data ← makeUnique (other.capacity + 1) granted
  let data ← memcpy (some data) other.data 0 (other.size + 1)
  return ⟨some data, other.size, other.capacity⟩

/-- `string(string&& other)`: the new object, and what is left of the other one. -/
def moveConstruct (other : String) : String × String :=
  (other, ⟨none, 0, 0⟩)

/-- `operator=(const string& other)`, on different objects: the old buffer of the assigned object
is released. -/
def copyAssign (other : String) (granted : Bool) : Except Failure String := do
  let data ← makeUnique (other.capacity + 1) granted
  let data ← memcpy (some data) other.data 0 (other.size + 1)
  return ⟨some data, other.size, other.capacity⟩

/-- `operator=(string&& other)`, on different objects: the assigned object, and what is left of the
other one. -/
def moveAssign (other : String) : String × String :=
  (other, ⟨none, 0, 0⟩)

/-- `reserve(new_capacity)`. -/
def reserve (s : String) (newCapacity : UInt64) (granted : Bool) : Except Failure String :=
  if s.capacity < newCapacity then do
    let newData ← makeUnique (newCapacity + 1) granted
    let newData ← if s.data.isSome then memcpy (some newData) s.data 0 (s.size + 1) else pure newData
    return ⟨some newData, s.size, newCapacity⟩
  else return s

/-- `resize(new_size)`. -/
def resize (s : String) (newSize : UInt64) (granted : Bool) : Except Failure String := do
  let s ← if s.capacity < newSize then s.reserve newSize granted else pure s
  let data ← assignAt s.data newSize 0
  return { s with data := some data, size := newSize }

/-- `substr(pos, len)`. -/
def substr (s : String) (pos len : UInt64) (granted : Bool) : Except Failure String :=
  if s.size < pos then .error (.throws (.outOfRange (ascii "Position out of range")))
  else do
    let len := stdMin len (s.size - pos)
    let result ← construct.resize len granted
    let data ← memcpy result.data s.data pos len
    let data ← assignAt (some data) len 0
    return { result with data := some data }

end String

/-! ## Histories -/

/-- A call; the objects are numbered in the order of their construction. -/
inductive Call
  | construct
  | constructChars (s : CString)
  | copyConstruct (other : ℕ)
  | moveConstruct (other : ℕ)
  | copyAssign (target other : ℕ)
  | moveAssign (target other : ℕ)
  | reserve (target : ℕ) (newCapacity : UInt64)
  | resize (target : ℕ) (newSize : UInt64)
  | substr (other : ℕ) (pos len : UInt64)

/-- How a call ends. -/
inductive Outcome
  | returns (objects : List String)
  | throws (exception : Exception)
  | terminates
  | undefined

/-- What the outcome of a function that can throw is. -/
def Outcome.of (rest : String → List String) : Except Failure String → Outcome
  | .ok object => .returns (rest object)
  | .error .undefined => .undefined
  | .error (.throws exception) => .throws exception

/-- In a `noexcept` function an exception ends the process. -/
def Outcome.noexcept : Outcome → Outcome
  | .throws _ => .terminates
  | outcome => outcome

/-- A call on the objects there are; `granted` tells whether memory is there for it.  There is no
outcome where one of the objects does not exist. -/
def Call.outcome (objects : List String) (granted : Bool) : Call → Option Outcome
  | .construct => some (.returns (objects ++ [String.construct]))
  | .constructChars s =>
      some (.of (fun object => objects ++ [object]) (String.constructChars s granted))
  | .copyConstruct other =>
      objects[other]?.map fun other =>
        .of (fun object => objects ++ [object]) (String.copyConstruct other granted)
  | .moveConstruct other =>
      objects[other]?.map fun source =>
        let (object, left) := String.moveConstruct source
        .returns (objects.set other left ++ [object])
  | .copyAssign target other =>
      objects[target]?.bind fun _ => objects[other]?.map fun source =>
        if target = other then .returns objects
        else (Outcome.of (fun object => objects.set target object)
          (String.copyAssign source granted)).noexcept
  | .moveAssign target other =>
      objects[target]?.bind fun _ => objects[other]?.map fun source =>
        if target = other then .returns objects
        else
          let (object, left) := String.moveAssign source
          .returns ((objects.set other left).set target object)
  | .reserve target newCapacity =>
      objects[target]?.map fun object =>
        .of (fun object => objects.set target object) (object.reserve newCapacity granted)
  | .resize target newSize =>
      objects[target]?.map fun object =>
        .of (fun object => objects.set target object) (object.resize newSize granted)
  | .substr other pos len =>
      objects[other]?.map fun source =>
        .of (fun object => objects ++ [object]) (source.substr pos len granted)

/-- The objects behind a call, if the program goes on. -/
def Outcome.objectsAfter (objects : List String) : Outcome → Option (List String)
  | .returns objects => some objects
  | .throws _ => some objects
  | .terminates => none
  | .undefined => none

/-- A program that makes calls, one after the other, each with the answer of the allocator. -/
def system : Transition.System (List String) (Call × Bool) where
  init objects := objects = []
  step objects label :=
    (label.1.outcome objects label.2).bind (Outcome.objectsAfter objects)

end Sok.Mstd
