import Sok.Text

/-!
# The data of a parsed configuration

What `YamlReader::parseFile` stores and how the accessors read it back.  A
`std::any` holds one of the types the parser stores; a `std::map` is a list of
entries of which the first with a key counts.  An accessor that throws returns
the text of its exception.
-/

namespace Sok

/-- A computation that has not thrown has a first part that has not. -/
theorem exists_ok_of_bind {ε α β : Type} {x : Except ε α} {f : α → Except ε β} {b : β}
    (h : x >>= f = .ok b) : ∃ a, x = .ok a ∧ f a = .ok b := by
  cases x with
  | error error => exact absurd h (by simp [bind, Except.bind])
  | ok a => exact ⟨a, rfl, h⟩

/-- The types a `std::any` of the parser can hold.  A `double` is kept as the
decimal literal that `std::stod` converts. -/
inductive Value where
  | bool (b : Bool)
  | int (n : ℤ)
  | double (literal : Bytes)
  | str (s : Bytes)
  /-- `std::map<std::string, std::any>` -/
  | map (entries : List (Bytes × Value))
  /-- `std::vector<std::map<std::string, std::any>>` -/
  | maps (items : List (List (Bytes × Value)))
  /-- `std::vector<std::any>` -/
  | list (items : List Value)

/-- A `YamlReader` is its `data`. -/
structure YamlReader where
  data : List (Bytes × Value)

namespace YamlReader

/-- `data.find(key)`. -/
def find (reader : YamlReader) (key : Bytes) : Option Value :=
  (reader.data.find? fun entry => entry.1 == key).map Prod.snd

/-- `getValue<T>`, with `cast` for the type check and `std::any_cast<T>`. -/
def getValue {α : Type} (cast : Value → Option α) (reader : YamlReader) (key : Bytes) :
    Except Bytes α :=
  match reader.find key with
  | none => .error (ascii "Key not found: " ++ key)
  | some value =>
      match cast value with
      | none => .error (ascii "Type mismatch for key: " ++ key)
      | some result => .ok result

/-- `getValue<int>`. -/
def getInt : YamlReader → Bytes → Except Bytes ℤ :=
  getValue fun
    | .int n => some n
    | _ => none

/-- `getValue<bool>`. -/
def getBool : YamlReader → Bytes → Except Bytes Bool :=
  getValue fun
    | .bool b => some b
    | _ => none

/-- `getValue<double>`, with the literal in place of the number. -/
def getDouble : YamlReader → Bytes → Except Bytes Bytes :=
  getValue fun
    | .double literal => some literal
    | _ => none

/-- The double quote that `getValue<std::string>` strips. -/
abbrev quote : UInt8 := 34

/-- Strip the quotes of a quoted string (`substr(1, size - 2)`). -/
def unquote (value : Bytes) : Bytes :=
  if value ≠ [] ∧ value.head? = some quote ∧ value.getLast? = some quote then
    (value.drop 1).take (value.length - 2)
  else value

/-- `getValue<std::string>`. -/
def getString (reader : YamlReader) (key : Bytes) : Except Bytes Bytes :=
  (getValue (fun
    | .str s => some s
    | _ => none) reader key).map unquote

/-- `getObject`. -/
def getObject (reader : YamlReader) (key : Bytes) : Except Bytes YamlReader :=
  match reader.find key with
  | some (.map entries) => .ok ⟨entries⟩
  | _ => .error (ascii "Object not found or invalid: " ++ key)

/-- `getArray`: the elements of a block list, or of an inline list with each
scalar wrapped as the value of the key `value`. -/
def getArray (reader : YamlReader) (key : Bytes) : Except Bytes (List YamlReader) :=
  match reader.find key with
  | none => .error (ascii "Array not found: " ++ key)
  | some (.maps items) => .ok (items.map YamlReader.mk)
  | some (.list items) => .ok (items.map fun
      | .map entries => ⟨entries⟩
      | item => ⟨[(ascii "value", item)]⟩)
  | some _ => .error (ascii "Array type not supported for key: " ++ key)

end YamlReader

end Sok
