import Sok.Strings.Model

/-!
# mstd::vector

The objects of the class `mstd::vector` and the calls that change them.  A vector has an array from
`std::make_unique<T[]>`, in which every cell has an object from the beginning: `push_back` assigns
to the next one, and `emplace_back` constructs another one in its place.  The implicit moves take
the array along and leave capacity and size behind.

Objects have numbers, in the order of their construction, and the program keeps the books: which
objects have been destroyed, which have been overwritten without that, and how many have been moved
from one array to another.

A call can throw, which leaves the vectors as they were.  An access behind the end of an array or
through a null pointer is undefined, and so is reading an object that has been destroyed.
-/

namespace Sok.Mstd

/-- An object of the element type. -/
structure Object (α : Type*) where
  id : ℕ
  value : α
  deriving DecidableEq

/-- The values of the element type: that of a default-constructed object, and what an object has
after it has been moved from. -/
structure Element (α : Type*) where
  fresh : α
  left : α → α

/-- The members of `mstd::vector`; no cells are a null pointer. -/
structure Vector (α : Type*) where
  data : List (Object α)
  capacity : ℕ
  size : ℕ

/-- The vectors of a program in the order of their construction, the books, and the values it has
read. -/
structure Program (α : Type*) where
  vectors : List (Vector α)
  created : ℕ
  destroyed : List ℕ
  overwritten : List ℕ
  moved : ℕ
  seen : List α

/-- An argument `const T&` or `T&&`: a value of the caller, or an element of a vector. -/
inductive Argument (α : Type*)
  | value (value : α)
  | element (vector index : ℕ)

/-- What such an argument refers to. -/
inductive Reference (α : Type*)
  | value (value : α)
  | object (id : ℕ)

variable {α : Type*}

/-- The text of the exception of `operator[]`. -/
def indexOutOfRange : Exception := .outOfRange (ascii "Index out of range")

/-- `std::ceil(capacity * 1.5)`, or 1.  The product is exact in a `double` as long as the array fits
into memory. -/
def grow (capacity : ℕ) : ℕ :=
  if capacity = 0 then 1 else (3 * capacity + 1) / 2

namespace Vector

/-- `vector()`. -/
def construct : Vector α := ⟨[], 0, 0⟩

/-- `data[index]`. -/
def cell (v : Vector α) (index : ℕ) : Except Failure (Object α) :=
  match v.data[index]? with
  | some object => .ok object
  | none => .error .undefined

/-- `operator[]`. -/
def subscript (v : Vector α) (index : ℕ) : Except Failure (Object α) :=
  if v.size ≤ index then .error (.throws indexOutOfRange) else v.cell index

/-- `for (const T& item : vector)`: the iterator goes from `begin()` to `end()`. -/
def visit (v : Vector α) : Except Failure (List α) :=
  (List.range v.size).mapM fun index => (v.cell index).map Object.value

/-- What the implicit move leaves. -/
def movedFrom (v : Vector α) : Vector α := { v with data := [] }

end Vector

namespace Program

/-- `std::make_unique<T[]>(count)`: the array and the program behind. -/
def makeUnique (p : Program α) (e : Element α) (count : ℕ) : List (Object α) × Program α :=
  ((List.range count).map fun k => ⟨p.created + k, e.fresh⟩,
    { p with created := p.created + count })

/-- `delete[]` destroys the objects, the last one first. -/
def deleteArray (p : Program α) (data : List (Object α)) : Program α :=
  { p with destroyed := p.destroyed ++ (data.map Object.id).reverse }

/-- `new_data[i] = std::move(data[i])`. -/
def moveElement (e : Element α) (arrays : List (Object α) × List (Object α)) (i : ℕ) :
    Option (List (Object α) × List (Object α)) :=
  arrays.1[i]?.bind fun target => arrays.2[i]?.map fun source =>
    (arrays.1.set i { target with value := source.value },
      arrays.2.set i { source with value := e.left source.value })

/-- `resize(new_capacity)`: the vector and the program behind. -/
def resize (p : Program α) (e : Element α) (v : Vector α) (newCapacity : ℕ) :
    Except Failure (Vector α × Program α) :=
  let (newData, p) := p.makeUnique e newCapacity
  match (List.range v.size).foldlM (moveElement e) (newData, v.data) with
  | none => .error .undefined
  | some (newData, data) =>
      .ok (⟨newData, newCapacity, v.size⟩,
        { p.deleteArray data with moved := p.moved + v.size })

/-- What `push_back` and `emplace_back` begin with: room for one more element. -/
def makeRoom (p : Program α) (e : Element α) (v : Vector α) (granted : Bool) :
    Except Failure (Vector α × Program α) :=
  if v.size = v.capacity then
    if granted then p.resize e v (grow v.capacity) else .error (.throws .badAlloc)
  else .ok (v, p)

/-- The object an argument refers to. -/
def refer (p : Program α) : Argument α → Option (Except Failure (Reference α))
  | .value value => some (.ok (.value value))
  | .element vector index => p.vectors[vector]?.map fun v =>
      (v.subscript index).map fun object => .object object.id

/-- Read the object. -/
def read (p : Program α) : Reference α → Except Failure α
  | .value value => .ok value
  | .object id =>
      match (p.vectors.flatMap Vector.data).find? fun object => object.id = id with
      | some object => .ok object.value
      | none => .error .undefined

/-- `push_back` and `emplace_back`; `place` puts the value into the cell. -/
def append (place : Program α → Object α → α → Program α × Object α) (p : Program α)
    (e : Element α) (target : ℕ) (v : Vector α) (argument : Reference α) (granted : Bool) :
    Except Failure (Program α) := do
  let (v, p) ← p.makeRoom e v granted
  let p := { p with vectors := p.vectors.set target v }
  let value ← p.read argument
  let object ← v.cell v.size
  let (p, object) := place p object value
  return { p with
    vectors := p.vectors.set target ⟨v.data.set v.size object, v.capacity, v.size + 1⟩ }

/-- `data[size++] = value`. -/
def assign (p : Program α) (object : Object α) (value : α) : Program α × Object α :=
  (p, { object with value := value })

/-- `new (&data[size++]) T(args...)`: the object that was there is not destroyed. -/
def constructAt (p : Program α) (object : Object α) (value : α) : Program α × Object α :=
  ({ p with created := p.created + 1, overwritten := p.overwritten ++ [object.id] },
    ⟨p.created, value⟩)

def pushBack : Program α → Element α → ℕ → Vector α → Reference α → Bool →
    Except Failure (Program α) :=
  append assign

def emplaceBack : Program α → Element α → ℕ → Vector α → Reference α → Bool →
    Except Failure (Program α) :=
  append constructAt

/-- The destructors of the vectors. -/
def destroyAll (p : Program α) : Program α :=
  { p.vectors.foldl (fun p v => p.deleteArray v.data) p with vectors := [] }

end Program

/-! ## Programs -/

/-- A call, or a use of `operator[]` or of the iterators. -/
inductive VectorCall (α : Type*)
  | construct
  | pushBack (target : ℕ) (argument : Argument α)
  | emplaceBack (target : ℕ) (argument : Argument α)
  | assignAt (target index : ℕ) (value : α)
  | readAt (target index : ℕ)
  | visit (target : ℕ)
  | moveConstruct (other : ℕ)
  | moveAssign (target other : ℕ)

namespace VectorCall

/-- How a call ends; `granted` tells whether memory is there for it.  There is no outcome where one
of the vectors does not exist. -/
def outcome (e : Element α) (p : Program α) (granted : Bool) :
    VectorCall α → Option (Except Failure (Program α))
  | .construct => some (.ok { p with vectors := p.vectors ++ [Vector.construct] })
  | .pushBack target argument => p.vectors[target]?.bind fun v => (p.refer argument).map
      fun reference => reference.bind fun reference => p.pushBack e target v reference granted
  | .emplaceBack target argument => p.vectors[target]?.bind fun v => (p.refer argument).map
      fun reference => reference.bind fun reference => p.emplaceBack e target v reference granted
  | .assignAt target index value => p.vectors[target]?.map fun v =>
      (v.subscript index).map fun object =>
        { p with
          vectors := p.vectors.set target
            { v with data := v.data.set index { object with value := value } } }
  | .readAt target index => p.vectors[target]?.map fun v =>
      (v.subscript index).map fun object => { p with seen := p.seen ++ [object.value] }
  | .visit target => p.vectors[target]?.map fun v =>
      v.visit.map fun values => { p with seen := p.seen ++ values }
  | .moveConstruct other => p.vectors[other]?.map fun v =>
      .ok { p with vectors := p.vectors.set other v.movedFrom ++ [v] }
  | .moveAssign target other => p.vectors[target]?.bind fun old => p.vectors[other]?.map fun v =>
      .ok <| if target = other then p else
        { p.deleteArray old.data with
          vectors := (p.vectors.set other v.movedFrom).set target v }

end VectorCall

/-- The program behind a call, if it goes on. -/
def Program.behind (p : Program α) : Except Failure (Program α) → Option (Program α)
  | .ok next => some next
  | .error (.throws _) => some p
  | .error .undefined => none

/-- Before the first call. -/
def Program.start : Program α := ⟨[], 0, [], [], 0, []⟩

/-- A program that makes calls, one after the other, each with the answer of the allocator. -/
def vectorSystem (e : Element α) : Transition.System (Program α) (VectorCall α × Bool) where
  init p := p = Program.start
  step p label := (label.1.outcome e p label.2).bind p.behind

end Sok.Mstd
